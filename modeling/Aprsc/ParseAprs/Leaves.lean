-- SUMMARY: The parsers of positions, objects and items that `parse_aprs_body` calls, and what they leave in the packet.
import Aprsc.ParseAprs.Flags

/-!
# Positions, objects and items

The parsers of a body leave a position in the packet by way of `pbuf_fill_pos`, which also
computes its cosine. An object and an item have a name of their own in front of the
position. The numbers are read from the text by the C library and in floating point: both
are parameters.
-/

namespace Aprsc

/-! ## Coordinates -/

/-- Coordinates in degrees, and a symbol. -/
structure Coordinates where
  lat : FloatBits
  lng : FloatBits
  symTable : UInt8
  symCode : UInt8
deriving Repr, DecidableEq

/-- What is computed in floating point: the functions for angles, the ranges of
`pbuf_fill_pos`, and the coordinates that the parsers read from the text of a body, and from
that of the destination. -/
structure AprsFloats where
  cosf : FloatBits → FloatBits
  filterLat2rad : FloatBits → FloatBits
  filterLon2rad : FloatBits → FloatBits
  outOfRange : (lat lng : FloatBits) → Bool
  nmea : (dstcall body : Bytes) → Option Coordinates
  mice : (dstcall body : Bytes) → Option Coordinates
  compressed : (body : Bytes) → Coordinates
  uncompressed : (body : Bytes) → Option Coordinates

/-- `valid_sym_table_uncompressed`. -/
def validSymTableUncompressed (b : UInt8) : Bool :=
  b == ch '/' || b == ch '\\' || (0x41 ≤ b && b ≤ 0x5A) || (0x30 ≤ b && b ≤ 0x39)

/-- `pbuf_fill_pos`. -/
def pbufFillPos (D : AprsFloats) (c : Coordinates) (f : AprsFields) : Int × AprsFields :=
  let f :=
    if (c.symCode == ch '_' || c.symCode == ch '@') && validSymTableUncompressed c.symTable then
      f.mark tWx
    else f
  if D.outOfRange c.lat c.lng then (0, f)
  else
    let lat := D.filterLat2rad c.lat
    (1, { f with
      position := ⟨lat, D.filterLon2rad c.lng, D.cosf lat⟩
      flags := f.flags ||| fHaspos })

/-- The position is filled in if there is one. -/
def fillPos? (D : AprsFloats) (c : Option Coordinates) (f : AprsFields) : Int × AprsFields :=
  match c with
  | none => (0, f)
  | some c => pbufFillPos D c f

/-! ## Parsers -/

section
variable (D : AprsFloats) (dstcall : Bytes) (m : Area UInt8)

/-- `parse_aprs_nmea`. -/
def parseAprsNmea (body bodyEnd : Int) (f : AprsFields) : Int × AprsFields :=
  if m.slice body 3 == ascii "ULT" then (1, f.mark tWx)
  else if [ascii "GPGSA,", ascii "GPVTG,", ascii "GPGSV,"].contains (m.slice body 6) then (1, f)
  else
    match D.nmea dstcall (m.slice body (bodyEnd - body).toNat) with
    | none => (0, f)
    | some c => pbufFillPos D c (f.mark tPosition)

/-- `parse_aprs_telem`. -/
def parseAprsTelem (f : AprsFields) : Int × AprsFields := (0, f)

/-- `parse_aprs_mice`. -/
def parseAprsMice (body bodyEnd : Int) (f : AprsFields) : Int × AprsFields :=
  if bodyEnd - body < 8 then (0, f) else fillPos? D (D.mice dstcall (m.slice body 8)) f

/-- A character of a compressed number. -/
def isBase91 (b : UInt8) : Bool := 0x21 ≤ b && b ≤ 0x7b

/-- `parse_aprs_compressed`. -/
def parseAprsCompressed (body bodyEnd : Int) (f : AprsFields) : Int × AprsFields :=
  if bodyEnd - body < 13 then (0, f)
  else if !(m.slice (body + 1) 8).all isBase91 then (0, f)
  else pbufFillPos D (D.compressed (m.slice body 13)) f

/-- `parse_aprs_uncompressed`. -/
def parseAprsUncompressed (body bodyEnd : Int) (f : AprsFields) : Int × AprsFields :=
  if bodyEnd - body < 19 then (0, f) else fillPos? D (D.uncompressed (m.slice body 19)) f

/-- The position of an object or an item, after its name. -/
def parseNamedPosition (p bodyEnd : Int) (f : AprsFields) : Int × AprsFields :=
  if validSymTableCompressed (m.byte p) then parseAprsCompressed D m p bodyEnd f
  else if isDigit (m.byte p) then parseAprsUncompressed D m p bodyEnd f
  else (0, f)

/-- A character that may be part of a name. -/
def isPrintable (b : UInt8) : Bool := 0x20 ≤ b && b ≤ 0x7e

/-- The name of an object without the spaces that pad it. -/
def stripSpaces (s : Bytes) : Bytes := (s.reverse.dropWhile (· == ch ' ')).reverse

/-- `parse_aprs_object`. -/
def parseAprsObject (body bodyEnd : Int) (f : AprsFields) : Int × AprsFields :=
  let f := f.mark tObject
  let name := m.slice body 9
  let namelen := (stripSpaces name).length
  if !(m.byte (body + 9) == ch '*' || m.byte (body + 9) == ch '_') then (0, f)
  else if !(m.byte (body + 16) == ch 'z' || m.byte (body + 16) == ch 'h' ||
      m.byte (body + 16) == ch '/') then (0, f)
  else if !name.all isPrintable then (0, f)
  else if namelen = 0 then (0, f)
  else parseNamedPosition D m (body + 17) bodyEnd { f with srcname := body, srcnameLen := namelen }

/-- The `!` of a live item, or the `_` of one that is killed. -/
def isItemEnd (b : UInt8) : Bool := b == ch '!' || b == ch '_'

/-- `parse_aprs_item`. -/
def parseAprsItem (body bodyEnd : Int) (f : AprsFields) : Int × AprsFields :=
  let f := f.mark tItem
  let name := (m.slice body 9).takeWhile (!isItemEnd ·)
  let i := name.length
  if !name.all isPrintable then (0, f)
  else if !isItemEnd (m.byte (body + i)) then (0, f)
  else if i < 3 then (0, f)
  else parseNamedPosition D m (body + i + 1) bodyEnd { f with srcname := body, srcnameLen := i }

/-- The parsers of a packet of length `packetLen`. -/
def aprsLeaves (packetLen : Int) : AprsLeaves := fun kind body f =>
  let bodyEnd := packetLen - 2
  match kind with
  | .mice => parseAprsMice D dstcall m body bodyEnd f
  | .compressed => parseAprsCompressed D m body bodyEnd f
  | .uncompressed => parseAprsUncompressed D m body bodyEnd f
  | .nmea => parseAprsNmea D dstcall m body bodyEnd f
  | .object => parseAprsObject D m body bodyEnd f
  | .item => parseAprsItem D m body bodyEnd f
  | .telem => parseAprsTelem f

end

/-! ## What they leave -/

/-- There is no position but one that was there before. -/
structure Unplaced (f : AprsFields) (r : Int × AprsFields) : Prop where
  flags : r.2.flags = f.flags
  position : r.2.position = f.position

/-- The station is still named as it was. -/
def SameName (f f' : AprsFields) : Prop :=
  f'.srcname = f.srcname ∧ f'.srcnameLen = f.srcnameLen

/-- There is a position, in a packet of the type `t`. Only objects, items and frames inside bring
the name of another station. -/
structure Placed (D : AprsFloats) (t : UInt16) (f : AprsFields) (r : Int × AprsFields) : Prop where
  rc : r.1 = 1
  flags : r.2.flags = f.flags ||| fHaspos
  cosLat : r.2.position.cosLat = D.cosf r.2.position.lat
  types : r.2.packettype = f.packettype ||| t ∨ r.2.packettype = f.packettype ||| t ||| tWx
  name : t &&& (tObject ||| tItem ||| t3rdparty) = 0 → SameName f r.2

theorem Unplaced.refl (rc : Int) (f : AprsFields) : Unplaced f (rc, f) := ⟨rfl, rfl⟩

theorem Unplaced.of_mark {t : UInt16} {f : AprsFields} {r : Int × AprsFields}
    (h : Unplaced (f.mark t) r) : Unplaced f r := ⟨h.flags, h.position⟩

theorem UInt16.or_and_flag (a b flag : UInt16) : (a ||| b) &&& flag = a &&& flag ||| b &&& flag := by
  apply UInt16.toBitVec_inj.mp
  simp only [UInt16.toBitVec_and, UInt16.toBitVec_or]
  exact BitVec.and_or_distrib_right

/-- A type that was there before is one of the packet. -/
theorem Placed.of_mark {D : AprsFloats} {t t' : UInt16} {f : AprsFields} {r : Int × AprsFields}
    (h : Placed D t (f.mark t') r) : Placed D (t' ||| t) f r where
  rc := h.rc
  flags := h.flags
  cosLat := h.cosLat
  types := by simpa only [AprsFields.mark, UInt16.or_assoc] using h.types
  name := fun ht => by
    rw [UInt16.or_and_flag, UInt16.or_eq_zero_iff] at ht
    exact h.name ht.2

/-- The type that a parser adds to a packet with a position, if it finds positions. -/
def AprsLeaf.placedType : AprsLeaf → Option UInt16
  | .nmea => some tPosition
  | .object => some tObject
  | .item => some tItem
  | .mice | .compressed | .uncompressed => some 0
  | .telem => none

section
variable {D : AprsFloats} {m : Area UInt8} {f : AprsFields}

theorem pbufFillPos_placed (c : Coordinates) :
    Unplaced f (pbufFillPos D c f) ∨ Placed D 0 f (pbufFillPos D c f) := by
  unfold pbufFillPos
  split
  next =>
    simp only
    split
    next => exact .inl ⟨rfl, rfl⟩
    next => exact .inr ⟨rfl, rfl, rfl, .inr (by simp [AprsFields.mark]), fun _ => ⟨rfl, rfl⟩⟩
  next =>
    simp only
    split
    next => exact .inl ⟨rfl, rfl⟩
    next => exact .inr ⟨rfl, rfl, rfl, .inl (by simp), fun _ => ⟨rfl, rfl⟩⟩

theorem fillPos?_placed (c : Option Coordinates) :
    Unplaced f (fillPos? D c f) ∨ Placed D 0 f (fillPos? D c f) := by
  cases c with
  | none => exact .inl (.refl 0 f)
  | some c => exact pbufFillPos_placed c

theorem parseAprsMice_placed (dstcall : Bytes) (p bodyEnd : Int) :
    Unplaced f (parseAprsMice D dstcall m p bodyEnd f) ∨
      Placed D 0 f (parseAprsMice D dstcall m p bodyEnd f) := by
  unfold parseAprsMice
  split
  next => exact .inl (.refl 0 f)
  next => exact fillPos?_placed _

theorem parseAprsCompressed_placed (p bodyEnd : Int) :
    Unplaced f (parseAprsCompressed D m p bodyEnd f) ∨
      Placed D 0 f (parseAprsCompressed D m p bodyEnd f) := by
  unfold parseAprsCompressed
  split
  next => exact .inl (.refl 0 f)
  next =>
  split
  next => exact .inl (.refl 0 f)
  next => exact pbufFillPos_placed _

theorem parseAprsUncompressed_placed (p bodyEnd : Int) :
    Unplaced f (parseAprsUncompressed D m p bodyEnd f) ∨
      Placed D 0 f (parseAprsUncompressed D m p bodyEnd f) := by
  unfold parseAprsUncompressed
  split
  next => exact .inl (.refl 0 f)
  next => exact fillPos?_placed _

theorem parseNamedPosition_placed (p bodyEnd : Int) :
    Unplaced f (parseNamedPosition D m p bodyEnd f) ∨
      Placed D 0 f (parseNamedPosition D m p bodyEnd f) := by
  unfold parseNamedPosition
  split
  next => exact parseAprsCompressed_placed p bodyEnd
  next =>
  split
  next => exact parseAprsUncompressed_placed p bodyEnd
  next => exact .inl (.refl 0 f)

/-- The position of an object or an item comes with its name, and with its type. -/
theorem placed_of_name {t : UInt16} (ht : t &&& (tObject ||| tItem ||| t3rdparty) ≠ 0)
    {srcname srcnameLen : Int} {r : Int × AprsFields}
    (h : Unplaced { f.mark t with srcname, srcnameLen } r ∨
      Placed D 0 { f.mark t with srcname, srcnameLen } r) :
    Unplaced f r ∨ Placed D t f r := by
  obtain h | h := h
  · exact .inl ⟨h.flags, h.position⟩
  · exact .inr ⟨h.rc, h.flags, h.cosLat, by simpa [AprsFields.mark] using h.types,
      fun hnot => absurd hnot ht⟩

theorem parseAprsObject_placed (body bodyEnd : Int) :
    Unplaced f (parseAprsObject D m body bodyEnd f) ∨
      Placed D tObject f (parseAprsObject D m body bodyEnd f) := by
  have hnone : Unplaced f (0, f.mark tObject) := .of_mark (.refl 0 _)
  unfold parseAprsObject
  simp only
  split
  next => exact .inl hnone
  next =>
  split
  next => exact .inl hnone
  next =>
  split
  next => exact .inl hnone
  next =>
  split
  next => exact .inl hnone
  next => exact placed_of_name (by decide) (parseNamedPosition_placed _ bodyEnd)

theorem parseAprsItem_placed (body bodyEnd : Int) :
    Unplaced f (parseAprsItem D m body bodyEnd f) ∨
      Placed D tItem f (parseAprsItem D m body bodyEnd f) := by
  have hnone : Unplaced f (0, f.mark tItem) := .of_mark (.refl 0 _)
  unfold parseAprsItem
  simp only
  split
  next => exact .inl hnone
  next =>
  split
  next => exact .inl hnone
  next =>
  split
  next => exact .inl hnone
  next => exact placed_of_name (by decide) (parseNamedPosition_placed _ bodyEnd)

theorem parseAprsNmea_placed (dstcall : Bytes) (body bodyEnd : Int) :
    Unplaced f (parseAprsNmea D dstcall m body bodyEnd f) ∨
      Placed D tPosition f (parseAprsNmea D dstcall m body bodyEnd f) := by
  unfold parseAprsNmea
  split
  next => exact .inl (.of_mark (.refl 1 _))
  next =>
  split
  next => exact .inl (.refl 1 f)
  next =>
  split
  next => exact .inl (.refl 0 f)
  next c _ =>
    refine (pbufFillPos_placed c).imp .of_mark fun h => ?_
    simpa using h.of_mark

/-- The parsers leave a position with its cosine, or none. -/
def AprsLeaves.Place (leaf : AprsLeaves) (D : AprsFloats) : Prop :=
  ∀ kind p f, Unplaced f (leaf kind p f) ∨ ∃ t ∈ kind.placedType, Placed D t f (leaf kind p f)

theorem aprsLeaves_place (D : AprsFloats) (dstcall : Bytes) (m : Area UInt8) (packetLen : Int) :
    (aprsLeaves D dstcall m packetLen).Place D := by
  intro kind body f
  cases kind with
  | mice => exact (parseAprsMice_placed dstcall body _).imp_right fun h => ⟨_, rfl, h⟩
  | compressed => exact (parseAprsCompressed_placed body _).imp_right fun h => ⟨_, rfl, h⟩
  | uncompressed => exact (parseAprsUncompressed_placed body _).imp_right fun h => ⟨_, rfl, h⟩
  | nmea => exact (parseAprsNmea_placed dstcall body _).imp_right fun h => ⟨_, rfl, h⟩
  | object => exact (parseAprsObject_placed body _).imp_right fun h => ⟨_, rfl, h⟩
  | item => exact (parseAprsItem_placed body _).imp_right fun h => ⟨_, rfl, h⟩
  | telem => exact .inl (.refl 0 f)

end

theorem AprsLeaves.Place.onlySetPosition {D : AprsFloats} {leaf : AprsLeaves} (h : leaf.Place D) :
    leaf.OnlySetPosition := by
  intro kind p f
  obtain hnone | ⟨t, -, hplaced⟩ := h kind p f
  · exact .inl hnone.flags
  · exact .inr hplaced.flags

/-! ## Bodies with a position -/

/-- The type of a packet with a position, by the first character of its body. A position that
is found after a `!` would have no type, but the search looks at the `!` itself. It may only
find one where it has run away. -/
inductive PlacedType (packettype : UInt8) (inside : Prop) : UInt16 → Prop where
  | position : PlacedType packettype inside tPosition
  | object (h : packettype = ch ';') : PlacedType packettype inside tObject
  | item (h : packettype = ch ')') : PlacedType packettype inside tItem
  | runaway (h : ¬inside) : PlacedType packettype inside 0

/-- What the parser of a body leaves. -/
def PlacedBody (D : AprsFloats) (packettype : UInt8) (inside : Prop) (f : AprsFields)
    (r : Int × AprsFields) : Prop :=
  Unplaced f r ∨ ∃ t, Placed D t f r ∧ PlacedType packettype inside t

namespace PlacedBody

variable {D : AprsFloats} {packettype : UInt8} {inside : Prop} {f : AprsFields}

theorem none (rc : Int) (f : AprsFields) : PlacedBody D packettype inside f (rc, f) :=
  .inl (.refl rc f)

/-- Both branches leave a position or none. -/
theorem ite {p : Prop} [Decidable p] {x y : Traced Access (Int × AprsFields)}
    (hx : p → PlacedBody D packettype inside f x.val)
    (hy : ¬p → PlacedBody D packettype inside f y.val) :
    PlacedBody D packettype inside f (if p then x else y).val := by
  split
  next h => exact hx h
  next h => exact hy h

theorem of_placed {t : UInt16} {r : Int × AprsFields} (h : Unplaced f r ∨ Placed D t f r)
    (ht : PlacedType packettype inside t) : PlacedBody D packettype inside f r :=
  h.imp_right fun h => ⟨t, h, ht⟩

/-- A parser that is called if the body is long enough. -/
theorem ite_leaf {p : Prop} [Decidable p] {t : UInt16} {r : Int × AprsFields}
    (h : Unplaced f r ∨ Placed D t f r) (ht : PlacedType packettype inside t) :
    PlacedBody D packettype inside f (if p then r else (0, f)) := by
  split
  next => exact of_placed h ht
  next => exact none 0 f

end PlacedBody

section

variable {D : AprsFloats} {leaf : AprsLeaves} (hleaf : leaf.Place D) (m : Area UInt8)
include hleaf

/-- A parser that finds positions. -/
theorem AprsLeaves.Place.placed {kind : AprsLeaf} {t : UInt16} (hkind : kind.placedType = some t)
    (p : Int) (f : AprsFields) : Unplaced f (leaf kind p f) ∨ Placed D t f (leaf kind p f) := by
  refine (hleaf kind p f).imp_right fun ⟨t', ht, h⟩ => ?_
  rw [hkind] at ht
  cases ht
  exact h

theorem parsePosition_placed (p bodyEnd : Int) (f : AprsFields) :
    Unplaced f (parsePosition leaf m p bodyEnd f).val ∨
      Placed D 0 f (parsePosition leaf m p bodyEnd f).val := by
  have hnone : Unplaced f (0, f) := .refl 0 f
  simp only [parsePosition, Traced.val_bind, Traced.val_ite, Traced.val_pure]
  split
  next =>
    split
    next => exact hleaf.placed rfl p f
    next => exact .inl hnone
  next =>
    split
    next =>
      split
      next => exact hleaf.placed rfl p f
      next => exact .inl hnone
    next => exact .inl hnone

theorem parsePositionPacket_placed (packettype : UInt8) (body bodyEnd : Int) (f : AprsFields) :
    Unplaced f (parsePositionPacket leaf m packettype body bodyEnd f).val ∨
      Placed D tPosition f (parsePositionPacket leaf m packettype body bodyEnd f).val := by
  simp only [parsePositionPacket, Traced.val_ite, Traced.val_pure]
  split
  next => exact .inl (.refl 0 f)
  next =>
    refine (parsePosition_placed hleaf m _ bodyEnd (f.mark tPosition)).imp .of_mark fun h => ?_
    simpa using h.of_mark

/-- There is no position at a `!`. -/
theorem lookForPosition_placed (packettype : UInt8) (body bodyEnd : Int) (f : AprsFields) :
    PlacedBody D packettype (body ≤ bodyEnd) f (lookForPosition leaf m body bodyEnd f).val := by
  simp only [lookForPosition, Traced.val_bind]
  split
  next => exact .none 0 f
  next p hp =>
    rw [Traced.val_ite]
    split
    next =>
      by_cases hlen : body ≤ bodyEnd
      · obtain ⟨hnone, -⟩ | ⟨p', hp', -, -, hbyte, -⟩ :=
          m.memchr_cases (a := body) (n := bodyEnd - body) (c := ch '!') (by omega)
        · rw [hnone] at hp
          cases hp
        · rw [hp'] at hp
          cases hp
          have hsym : validSymTableCompressed (ch '!') = false := by decide
          have hdigit : isDigit (ch '!') = false := by decide
          simp only [parsePosition, Traced.val_bind, Area.val_read, hbyte, hsym, hdigit,
            Bool.false_eq_true, if_false, Traced.val_pure]
          exact .none 0 f
      · exact .of_placed (parsePosition_placed hleaf m p bodyEnd f) (.runaway hlen)
    next => exact .none 0 f

omit hleaf in
theorem preparseAprsMessage_unplaced (body bodyLen : Int) (f : AprsFields) :
    Unplaced f (preparseAprsMessage m body bodyLen f).val := by
  constructor
  · simp only [preparseAprsMessage, Traced.val_bind, Traced.val_pure]
    split
    next => split <;> rfl
    next => split <;> rfl
  · simp only [preparseAprsMessage, Traced.val_bind, Traced.val_pure]
    split
    next => split <;> rfl
    next => split <;> rfl

theorem parseAprsType_placed (packetLen paclen infoStart : Int) (packettype : UInt8)
    (f : AprsFields) :
    PlacedBody D packettype (infoStart + 1 ≤ packetLen - 2) f
      (parseAprsType leaf m packetLen paclen infoStart packettype f).val := by
  have hpos := parsePositionPacket_placed hleaf m packettype (infoStart + 1) (packetLen - 2) f
  have hlook := lookForPosition_placed hleaf m packettype (infoStart + 1) (packetLen - 2) f
  have hmark : ∀ t, Unplaced f ((0 : Int), f.mark t) := fun t => .of_mark (.refl 0 _)
  have hmice : Unplaced f (leaf .mice (infoStart + 1) (f.mark tPosition)) ∨
      Placed D tPosition f (leaf .mice (infoStart + 1) (f.mark tPosition)) := by
    refine (hleaf.placed rfl _ (f.mark tPosition)).imp .of_mark fun h => ?_
    simpa using h.of_mark
  have htelem : Unplaced f (leaf .telem (infoStart + 1) (f.mark tTelemetry)) := by
    obtain h | ⟨t, ht, -⟩ := hleaf .telem (infoStart + 1) (f.mark tTelemetry)
    · exact h.of_mark
    · cases ht
  unfold parseAprsType
  refine .ite (fun _ => .ite_leaf hmice .position) fun _ => ?_
  refine .ite (fun _ => .ite (fun _ => .inl (hmark _)) fun _ => .of_placed hpos .position) fun _ => ?_
  refine .ite (fun _ => .of_placed hpos .position) fun _ => ?_
  refine .ite (fun _ => .ite_leaf (hleaf.placed rfl _ f) .position) fun _ => ?_
  refine .ite (fun _ => .ite (fun _ => .inl ?_) fun _ => .none 0 f) fun _ => ?_
  · exact .of_mark (preparseAprsMessage_unplaced m _ _ _)
  refine .ite (fun h => .ite_leaf (hleaf.placed rfl _ f) (.object (by simpa using h))) fun _ => ?_
  refine .ite (fun _ => .inl (hmark _)) fun _ => ?_
  refine .ite (fun _ => .inl (hmark _)) fun _ => ?_
  refine .ite (fun _ => .inl (hmark _)) fun _ => ?_
  refine .ite (fun h => .ite_leaf (hleaf.placed rfl _ f) (.item (by simpa using h))) fun _ => ?_
  refine .ite (fun _ => .ite (fun _ => .none _ f) fun _ => hlook) fun _ => ?_
  refine .ite (fun _ => .ite_leaf (t := tPosition) (.inl htelem) .position) fun _ => ?_
  refine .ite (fun _ => .inl (hmark _)) fun _ => ?_
  exact .ite (fun _ => .inl (hmark _)) fun _ => hlook

/-- What `parse_aprs` leaves: no position, or one in a packet that is no query. A packet is of
one of three types if its position is not that of a frame inside. -/
def PlacedPacket (D : AprsFloats) (inside : Prop) (f : AprsFields) (r : Int × AprsFields) : Prop :=
  Unplaced f r ∨
    ∃ t, Placed D t f r ∧ t &&& tQuery = 0 ∧
      (t &&& t3rdparty = 0 → inside → t = tPosition ∨ t = tObject ∨ t = tItem)

omit hleaf in
theorem PlacedBody.packet {packettype : UInt8} {inside : Prop} {f : AprsFields}
    {r : Int × AprsFields} (h : PlacedBody D packettype inside f r) : PlacedPacket D inside f r := by
  refine h.imp_right fun ⟨t, h, ht⟩ => ⟨t, h, ?_, fun _ hinside => ?_⟩
  · cases ht <;> decide
  · cases ht with
    | position => exact .inl rfl
    | object => exact .inr (.inl rfl)
    | item => exact .inr (.inr rfl)
    | runaway hout => exact absurd hinside hout

omit hleaf in
/-- A frame around the packet adds its own type. -/
theorem PlacedPacket.of_3rdparty {inside inside' : Prop} {srcname srcnameLen : Int}
    {f : AprsFields} {r : Int × AprsFields}
    (h : PlacedPacket D inside { f.mark t3rdparty with srcname, srcnameLen } r) :
    PlacedPacket D inside' f r := by
  obtain h | ⟨t, h, hquery, -⟩ := h
  · exact .inl ⟨h.flags, h.position⟩
  · refine .inr ⟨t3rdparty ||| t, ⟨h.rc, h.flags, h.cosLat, ?_, fun hnot => ?_⟩, ?_, fun hnot => ?_⟩
    · simpa only [AprsFields.mark, UInt16.or_assoc] using h.types
    · rw [UInt16.or_and_flag, UInt16.or_eq_zero_iff] at hnot
      exact absurd hnot.1 (by decide)
    · rw [UInt16.or_and_flag, hquery]
      decide
    · rw [UInt16.or_and_flag, UInt16.or_eq_zero_iff] at hnot
      exact absurd hnot.1 (by decide)

theorem parseAprsBody_placed (packetLen paclen : Int) (fuel : Nat) (infoStart : Int)
    (f : AprsFields) (r : Int × AprsFields)
    (h : (parseAprsBody leaf m packetLen paclen fuel infoStart f).val = some r) :
    PlacedPacket D (infoStart + 1 ≤ packetLen - 2) f r := by
  induction fuel generalizing infoStart f with
  | zero => cases h
  | succ fuel ih =>
    simp only [parseAprsBody, Traced.val_ite, Traced.val_bind, Traced.val_pure] at h
    split at h
    · cases h
      exact .inl (.refl 0 f)
    split at h
    · split at h
      next =>
        cases h
        exact .inl (.of_mark (.refl 0 _))
      next rc _ =>
        cases h
        exact .inl (.of_mark (.refl rc _))
      next =>
        -- the position is that of the frame inside
        exact (ih _ _ h).of_3rdparty
    · cases h
      exact (parseAprsType_placed hleaf m packetLen paclen infoStart _ f).packet

end

/-- The types of a packet before its body is parsed. -/
def initialTypes (cwop : Bool) : UInt16 := if cwop then tAll ||| tCwop else tAll

/-- A packet with a position is not dropped and no query. Unless the position is that of a
frame inside, it is a position packet, or an object, or an item. -/
structure PositionParsed (D : AprsFloats) (r : Int × AprsFields) : Prop where
  rc : r.1 = 1
  cosLat : r.2.position.cosLat = D.cosf r.2.position.lat
  query : r.2.packettype &&& tQuery = 0
  types : r.2.packettype &&& t3rdparty = 0 → ∃ cwop, ∃ t,
    (t = tPosition ∨ t = tObject ∨ t = tItem) ∧
      (r.2.packettype = initialTypes cwop ||| t ∨ r.2.packettype = initialTypes cwop ||| t ||| tWx)

/-- `parse_aprs` parses the body of a packet that has one. -/
theorem parseAprs_body {leaf : AprsLeaves} {m : Area UInt8} {packetLen infoStart : Int}
    {f : AprsFields} {r : Int × AprsFields}
    (h : (parseAprs leaf m packetLen infoStart f).val = some r) :
    r.2.flags = f.flags ∨ ∃ cwop fuel, infoStart + 1 ≤ packetLen - 2 ∧
      (parseAprsBody leaf m packetLen (packetLen - infoStart - 2) (fuel + 1) infoStart
        { f with packettype := initialTypes cwop }).val = some r := by
  have hfields : ∀ cwop, (if cwop = true then AprsFields.mark { f with packettype := tAll } tCwop
      else { f with packettype := tAll }) = { f with packettype := initialTypes cwop } := by
    intro cwop
    cases cwop <;> rfl
  simp only [parseAprs, Traced.val_bind, hfields] at h
  cases hfuel : packetLen.toNat with
  | zero =>
    rw [hfuel] at h
    cases h
  | succ fuel =>
    rw [hfuel] at h
    by_cases hinside : infoStart + 1 ≤ packetLen - 2
    · exact .inr ⟨_, fuel, hinside, h⟩
    · -- there is no information field
      rw [parseAprsBody, if_pos (by omega)] at h
      cases h
      exact .inl rfl

/-- `parse_aprs` leaves a packet as it was, or with a position of its own. -/
theorem parseAprs_placed {D : AprsFloats} {leaf : AprsLeaves} (hleaf : leaf.Place D)
    (m : Area UInt8) (packetLen infoStart : Int) (f : AprsFields) (r : Int × AprsFields)
    (h : (parseAprs leaf m packetLen infoStart f).val = some r) :
    r.2.flags = f.flags ∨ PositionParsed D r := by
  obtain hflags | ⟨cwop, fuel, hinside, hbody⟩ := parseAprs_body h
  · exact .inl hflags
  obtain hnone | ⟨t, hplaced, hquery, ht⟩ := parseAprsBody_placed hleaf m _ _ _ _ _ r hbody
  · exact .inl hnone.flags
  · have htypes : r.2.packettype = initialTypes cwop ||| t ∨
        r.2.packettype = initialTypes cwop ||| t ||| tWx := hplaced.types
    have hquery' : r.2.packettype &&& tQuery = 0 := by
      obtain h | h := htypes <;> rw [h] <;> simp only [UInt16.or_and_flag, hquery] <;>
        cases cwop <;> decide
    refine .inr ⟨hplaced.rc, hplaced.cosLat, hquery', fun hnot => ⟨cwop, t, ?_, htypes⟩⟩
    refine ht ?_ hinside
    obtain h | h := htypes
    · rw [h, UInt16.or_and_flag, UInt16.or_eq_zero_iff] at hnot
      exact hnot.2
    · rw [h, UInt16.or_and_flag, UInt16.or_and_flag, UInt16.or_eq_zero_iff,
        UInt16.or_eq_zero_iff] at hnot
      exact hnot.1.2

/-- A position that is not that of a frame inside is that of a position packet, or of an object
or an item. -/
theorem PositionParsed.own_iff {D : AprsFloats} {r : Int × AprsFields} (h : PositionParsed D r) :
    r.2.packettype &&& (tObject ||| tItem ||| t3rdparty) = 0 ↔
      r.2.packettype &&& tPosition ≠ 0 ∧ r.2.packettype &&& t3rdparty = 0 := by
  by_cases hinside : r.2.packettype &&& t3rdparty = 0
  · obtain ⟨cwop, t, ht, htypes⟩ := h.types hinside
    obtain rfl | rfl | rfl := ht <;> obtain hr | hr := htypes <;> rw [hr] <;> cases cwop <;> decide
  · refine iff_of_false (fun hnot => hinside ?_) fun hboth => hinside hboth.2
    rw [UInt16.and_comm, UInt16.or_and_flag, UInt16.or_eq_zero_iff] at hnot
    rw [UInt16.and_comm]
    exact hnot.2

/-! ## Names of objects and items -/

/-- The name of the object at `body`. -/
structure ObjectName (m : Area UInt8) (body : Int) (f : AprsFields) : Prop where
  srcname : f.srcname = body
  srcnameLen : f.srcnameLen = (stripSpaces (m.slice body 9)).length
  printable : (m.slice body 9).all isPrintable = true
  mark : m.byte (body + 9) = ch '*' ∨ m.byte (body + 9) = ch '_'

/-- The name of the item at `body`. -/
structure ItemName (m : Area UInt8) (body : Int) (f : AprsFields) : Prop where
  srcname : f.srcname = body
  srcnameLen : f.srcnameLen = ((m.slice body 9).takeWhile (!isItemEnd ·)).length
  printable : ((m.slice body 9).takeWhile (!isItemEnd ·)).all isPrintable = true
  mark : isItemEnd (m.byte (body + ((m.slice body 9).takeWhile (!isItemEnd ·)).length)) = true

section
variable {D : AprsFloats} {m : Area UInt8} {f : AprsFields} (body bodyEnd : Int)

theorem pbufFillPos_name (c : Coordinates) : SameName f (pbufFillPos D c f).2 := by
  unfold pbufFillPos
  simp only
  split <;> split <;> exact ⟨rfl, rfl⟩

theorem fillPos?_name (c : Option Coordinates) : SameName f (fillPos? D c f).2 := by
  cases c with
  | none => exact ⟨rfl, rfl⟩
  | some c => exact pbufFillPos_name c

theorem parseNamedPosition_name : SameName f (parseNamedPosition D m body bodyEnd f).2 := by
  unfold parseNamedPosition parseAprsCompressed parseAprsUncompressed
  split
  next =>
    split
    next => exact ⟨rfl, rfl⟩
    next =>
      split
      next => exact ⟨rfl, rfl⟩
      next => exact pbufFillPos_name _
  next =>
  split
  next =>
    split
    next => exact ⟨rfl, rfl⟩
    next => exact fillPos?_name _
  next => exact ⟨rfl, rfl⟩

theorem parseAprsObject_name :
    Unplaced f (parseAprsObject D m body bodyEnd f) ∨
      ObjectName m body (parseAprsObject D m body bodyEnd f).2 := by
  have hnone : Unplaced f (0, f.mark tObject) := .of_mark (.refl 0 _)
  unfold parseAprsObject
  simp only
  split
  next => exact .inl hnone
  next hmark =>
  split
  next => exact .inl hnone
  next =>
  split
  next => exact .inl hnone
  next hprintable =>
  split
  next => exact .inl hnone
  next =>
    have hname := parseNamedPosition_name (D := D) (m := m)
      (f := { f.mark tObject with srcname := body, srcnameLen := (stripSpaces (m.slice body 9)).length })
      (body + 17) bodyEnd
    exact .inr ⟨hname.1, hname.2, by simpa using hprintable,
      by simpa [or_iff_not_imp_left] using hmark⟩

theorem parseAprsItem_name :
    Unplaced f (parseAprsItem D m body bodyEnd f) ∨
      ItemName m body (parseAprsItem D m body bodyEnd f).2 := by
  have hnone : Unplaced f (0, f.mark tItem) := .of_mark (.refl 0 _)
  unfold parseAprsItem
  simp only
  split
  next => exact .inl hnone
  next hprintable =>
  split
  next => exact .inl hnone
  next hmark =>
  split
  next => exact .inl hnone
  next =>
    have hname := parseNamedPosition_name (D := D) (m := m)
      (f := { f.mark tItem with
        srcname := body, srcnameLen := ((m.slice body 9).takeWhile (!isItemEnd ·)).length })
      (body + ((m.slice body 9).takeWhile (!isItemEnd ·)).length + 1) bodyEnd
    exact .inr ⟨hname.1, hname.2, by simpa using hprintable, by simpa using hmark⟩

end

/-- Which station a packet with a position is of. -/
inductive StationNamed (m : Area UInt8) (packetLen body : Int) (f f' : AprsFields) : Prop where
  | position (types : f'.packettype &&& (tObject ||| tItem) = 0) (name : SameName f f')
  | object (types : f'.packettype &&& tObject ≠ 0) (fits : body + 29 < packetLen - 2)
      (name : ObjectName m body f')
  | item (types : f'.packettype &&& tObject = 0 ∧ f'.packettype &&& tItem ≠ 0)
      (fits : body + 18 < packetLen - 2) (name : ItemName m body f')

/-- A parser that is called if the body is long enough leaves no position, or a name. -/
theorem named_of_leaf {p : Prop} [Decidable p] {f : AprsFields} {x r : Int × AprsFields}
    {Q : AprsFields → Prop} (hr : (if p then x else (0, f)) = r) (hx : Unplaced f x ∨ Q x.2) :
    r.2.flags = f.flags ∨ p ∧ Q r.2 := by
  split at hr
  next hp =>
    subst hr
    exact hx.imp Unplaced.flags fun h => ⟨hp, h⟩
  next =>
    subst hr
    exact .inl rfl

/-- The station of a packet that is no third-party frame. -/
theorem parseAprs_named (D : AprsFloats) (dstcall : Bytes) (m : Area UInt8)
    (packetLen infoStart : Int) (f : AprsFields) (r : Int × AprsFields)
    (hparty : m.byte infoStart ≠ ch '\x7d')
    (h : (parseAprs (aprsLeaves D dstcall m packetLen) m packetLen infoStart f).val = some r) :
    r.2.flags = f.flags ∨ StationNamed m packetLen (infoStart + 1) f r.2 := by
  obtain hflags | ⟨cwop, fuel, hinside, hbody⟩ := parseAprs_body h
  · exact .inl hflags
  have hparty' : (m.byte infoStart == ch '\x7d') = false := by simpa using hparty
  simp only [parseAprsBody, Traced.val_ite, Traced.val_bind, Area.val_read, hparty',
    Bool.false_eq_true, if_false, Traced.val_pure] at hbody
  rw [if_neg (by omega), Option.some.injEq] at hbody
  have htype := parseAprsType_placed (aprsLeaves_place D dstcall m packetLen) m packetLen
    (packetLen - infoStart - 2) infoStart (m.byte infoStart)
    { f with packettype := initialTypes cwop }
  rw [hbody] at htype
  obtain hnone | ⟨t, hplaced, ht⟩ := htype
  · exact .inl hnone.flags
  have htypes : r.2.packettype = initialTypes cwop ||| t ∨
      r.2.packettype = initialTypes cwop ||| t ||| tWx := hplaced.types
  cases ht with
  | runaway hout => exact absurd hinside hout
  | position =>
    refine .inr (.position ?_ (hplaced.name (by decide)))
    obtain htypes | htypes := htypes <;> rw [htypes] <;> cases cwop <;> decide
  | object hsemi =>
    rw [hsemi] at hbody
    obtain hflags | ⟨hlen, hname⟩ := named_of_leaf hbody (parseAprsObject_name (infoStart + 1) _)
    · exact .inl hflags
    · refine .inr (.object ?_ (by omega) hname)
      obtain htypes | htypes := htypes <;> rw [htypes] <;> cases cwop <;> decide
  | item hparen =>
    rw [hparen] at hbody
    obtain hflags | ⟨hlen, hname⟩ := named_of_leaf hbody (parseAprsItem_name (infoStart + 1) _)
    · exact .inl hflags
    · refine .inr (.item ?_ (by omega) hname)
      obtain htypes | htypes := htypes <;> rw [htypes] <;> cases cwop <;> decide

end Aprsc
