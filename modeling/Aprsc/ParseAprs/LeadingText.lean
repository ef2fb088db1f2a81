-- SUMMARY: A position after a leading text is never found, as the search looks at the `!` in front of it.
import Aprsc.ParseAprs.Leaves

/-!
# Positions after a leading text

A packet of no other type may have a position after a `!` in its first 40 characters. The
search for it stays at the `!`, which is neither a symbol table nor a digit.
-/

namespace Aprsc

/-! ## Packets -/

/-- The type characters that `parse_aprs_body` has a case for, and which do not go on. -/
def specificTypes : Bytes :=
  [0x27, 0x60, ch '!', ch '=', ch '/', ch '@', ch '$', ch ':', ch ';', ch '>', ch '<', ch '?',
    ch ')', ch 'T', ch '#', ch '*', ch '_', ch '\x7b', ch '\x7d']

/-- The type character selects none of the parsers. -/
def SelectsNone (m : Area UInt8) (infoStart : Int) : Prop :=
  m.byte infoStart ∉ specificTypes ∧
    (m.byte infoStart = ch 'D' → (strncmpEq m (ascii "X de ") (infoStart + 1)).val = false)

/-- A position that is well-formed, compressed or not. -/
inductive PositionAt (D : AprsFloats) (m : Area UInt8) (p bodyEnd : Int) : Prop where
  | compressed (table : validSymTableCompressed (m.byte p) = true) (left : bodyEnd - p ≥ 13)
      (digits : (m.slice (p + 1) 8).all isBase91 = true)
      (inRange : D.outOfRange (D.compressed (m.slice p 13)).lat
        (D.compressed (m.slice p 13)).lng = false)
  | uncompressed (digit : isDigit (m.byte p) = true) (left : bodyEnd - p ≥ 19) (c : Coordinates)
      (parsed : D.uncompressed (m.slice p 19) = some c)
      (inRange : D.outOfRange c.lat c.lng = false)

/-- A packet with a position after the first `!` of its body, at `p`. -/
structure LeadingText (D : AprsFloats) (m : Area UInt8) (packetLen infoStart p : Int) : Prop where
  start : 0 ≤ infoStart
  type : SelectsNone m infoStart
  after : infoStart + 1 ≤ p
  near : p - (infoStart + 1) ≤ 39
  mark : m.byte p = ch '!'
  first : ∀ q, infoStart + 1 ≤ q → q < p → m.byte q ≠ ch '!'
  position : PositionAt D m (p + 1) (packetLen - 2)

/-- A packet whose information field is the text from `p` on. -/
structure OrdinaryPacket (m : Area UInt8) (packetLen p : Int) (m' : Area UInt8)
    (packetLen' infoStart' : Int) : Prop where
  start : 0 ≤ infoStart'
  length : packetLen' - infoStart' = packetLen - p
  text : m'.slice infoStart' (packetLen - p).toNat = m.slice p (packetLen - p).toNat

/-- Two packets have the same position, and the parser returned the same. -/
structure SameParse (r r' : Int × AprsFields) : Prop where
  rc : r.1 = r'.1
  position : r.2.position = r'.2.position
  haspos : r.2.flags &&& fHaspos = r'.2.flags &&& fHaspos

/-! ## The search -/

section
variable {leaf : AprsLeaves} {D : AprsFloats} {m : Area UInt8}

/-- There is nothing to parse at a `!`. -/
theorem lookForPosition_val {body bodyEnd : Int} (hlen : body ≤ bodyEnd) (f : AprsFields) :
    (lookForPosition leaf m body bodyEnd f).val = (0, f) := by
  rw [lookForPosition, Traced.val_bind]
  obtain ⟨hnone, -⟩ | ⟨p, hp, -, -, hbyte, -⟩ :=
    m.memchr_cases (a := body) (n := bodyEnd - body) (c := ch '!') (by omega)
  · rw [hnone]
    rfl
  · have hsym : validSymTableCompressed (ch '!') = false := by decide
    have hdigit : isDigit (ch '!') = false := by decide
    simp only [hp, Traced.val_ite, parsePosition, Traced.val_bind, Area.val_read, hbyte, hsym, hdigit,
      Bool.false_eq_true, if_false, Traced.val_pure, ite_self]

/-- A packet of no other type is searched for a position. -/
theorem parseAprsType_of_selectsNone {infoStart : Int} (h : SelectsNone m infoStart)
    (packetLen paclen : Int) (f : AprsFields) :
    (parseAprsType leaf m packetLen paclen infoStart (m.byte infoStart) f).val =
      (lookForPosition leaf m (infoStart + 1) (packetLen - 2) f).val := by
  obtain ⟨hnot, hdx⟩ := h
  simp only [specificTypes, List.mem_cons, List.not_mem_nil, or_false, not_or,
    ← beq_eq_false_iff_ne] at hnot
  unfold parseAprsType
  simp only [hnot, Bool.or_self, Bool.false_eq_true, if_false]
  split
  · rename_i hd
    rw [Traced.val_bind, hdx (beq_iff_eq.mp hd), if_neg Bool.false_ne_true]
  · rfl

/-- A body that is no third-party frame. -/
theorem parseAprs_type {packetLen infoStart : Int} (hinside : infoStart + 1 ≤ packetLen - 2)
    (hstart : 0 ≤ infoStart) (hparty : m.byte infoStart ≠ ch '\x7d') (f : AprsFields) :
    ∃ types, (parseAprs leaf m packetLen infoStart f).val = some
      (parseAprsType leaf m packetLen (packetLen - infoStart - 2) infoStart (m.byte infoStart)
        { f with packettype := types }).val := by
  obtain ⟨fuel, hfuel⟩ : ∃ fuel, packetLen.toNat = fuel + 1 :=
    Nat.exists_eq_add_one_of_ne_zero (by omega)
  refine ⟨if (isCwop m packetLen).val then tAll ||| tCwop else tAll, ?_⟩
  simp only [parseAprs, Traced.val_bind, hfuel, parseAprsBody]
  rw [if_neg (by omega)]
  simp only [Traced.val_bind, Area.val_read, beq_eq_false_iff_ne.mpr hparty, Bool.false_eq_true,
    if_false, Traced.val_pure]
  cases (isCwop m packetLen).val <;> rfl

/-- The parser leaves a packet with a leading text as it is. -/
theorem LeadingText.parse {packetLen infoStart p : Int}
    (h : LeadingText D m packetLen infoStart p) (f : AprsFields) :
    ∃ types, (parseAprs leaf m packetLen infoStart f).val =
      some (0, { f with packettype := types }) := by
  have hinside : infoStart + 1 ≤ packetLen - 2 := by
    have hafter := h.after
    cases h.position with
    | compressed _ left => omega
    | uncompressed _ left => omega
  have hparty : m.byte infoStart ≠ ch '\x7d' := fun heq => h.type.1 (heq ▸ by decide)
  obtain ⟨types, htypes⟩ := parseAprs_type hinside h.start hparty f
  refine ⟨types, ?_⟩
  rw [htypes, parseAprsType_of_selectsNone h.type, lookForPosition_val hinside]

end

/-! ## Position packets -/

section
variable {D : AprsFloats} {m m' : Area UInt8}

theorem pbufFillPos_inRange {c : Coordinates} (h : D.outOfRange c.lat c.lng = false)
    (f : AprsFields) : (pbufFillPos D c f).1 = 1 := by
  unfold pbufFillPos
  simp [h]

theorem not_symTable_of_isDigit {b : UInt8} (h : isDigit b = true) :
    validSymTableCompressed b = false := by
  have hall : ∀ n : Fin 256, isDigit (UInt8.ofNat n) = true →
      validSymTableCompressed (UInt8.ofNat n) = false := by decide +kernel
  have hb := hall ⟨b.toNat, b.toNat_lt⟩
  rw [UInt8.ofNat_toNat] at hb
  exact hb h

/-- A well-formed position is parsed. -/
theorem PositionAt.parse {p packetLen : Int} (h : PositionAt D m p (packetLen - 2))
    (dstcall : Bytes) (f : AprsFields) :
    (parsePosition (aprsLeaves D dstcall m packetLen) m p (packetLen - 2) f).val.1 = 1 := by
  rw [parsePosition, Traced.val_bind, Area.val_read]
  cases h with
  | compressed table left digits inRange =>
    rw [if_pos table, Traced.val_pure, if_pos left]
    simp only [aprsLeaves, parseAprsCompressed, digits, Bool.not_true, Bool.false_eq_true, if_false]
    rw [if_neg (by omega)]
    exact pbufFillPos_inRange inRange f
  | uncompressed digit left c parsed inRange =>
    rw [if_neg (by rw [not_symTable_of_isDigit digit]; exact Bool.false_ne_true), if_pos digit,
      Traced.val_pure, if_pos left]
    simp only [aprsLeaves, parseAprsUncompressed, parsed, fillPos?]
    rw [if_neg (by omega)]
    exact pbufFillPos_inRange inRange f

/-- A position is not the `!` of a weather station. -/
theorem PositionAt.not_mark {p bodyEnd : Int} (h : PositionAt D m p bodyEnd) :
    m.byte p ≠ ch '!' := by
  intro heq
  cases h with
  | compressed table =>
    rw [heq] at table
    exact absurd table (by decide)
  | uncompressed digit =>
    rw [heq] at digit
    exact absurd digit (by decide)

/-- A part of two areas that are the same. -/
theorem slice_part {a a' : Int} {n i k : Nat} (h : m'.slice a' n = m.slice a n)
    (hik : i + k ≤ n) : m'.slice (a' + i) k = m.slice (a + i) k := by
  obtain ⟨r, rfl⟩ := Nat.exists_eq_add_of_le hik
  rw [Nat.add_assoc, Area.slice_append, Area.slice_append, Area.slice_append, Area.slice_append] at h
  exact (List.append_inj (List.append_inj h (by simp)).2 (by simp)).1

/-- The position is one wherever its text is. -/
theorem PositionAt.of_slice {p bodyEnd p' bodyEnd' : Int} {n : Nat}
    (h : PositionAt D m p bodyEnd) (hend : bodyEnd' - p' = bodyEnd - p) (hn : bodyEnd - p ≤ n)
    (htext : m'.slice p' n = m.slice p n) : PositionAt D m' p' bodyEnd' := by
  have hbyte : 0 < n → m'.byte p' = m.byte p := by
    intro hpos
    have h1 := slice_part htext (i := 0) (k := 1) (by omega)
    simpa [Area.slice] using h1
  have hslice : ∀ k ≤ n, m'.slice p' k = m.slice p k := by
    intro k hk
    have h1 := slice_part htext (i := 0) (k := k) (by omega)
    simpa using h1
  cases h with
  | compressed table left digits inRange =>
    refine .compressed ?_ (by omega) ?_ ?_
    · rw [hbyte (by omega), table]
    · have h8 : m'.slice (p' + 1) 8 = m.slice (p + 1) 8 :=
        slice_part htext (i := 1) (k := 8) (by omega)
      rw [h8]
      exact digits
    · rw [hslice 13 (by omega)]
      exact inRange
  | uncompressed digit left c parsed inRange =>
    refine .uncompressed ?_ (by omega) c ?_ inRange
    · rw [hbyte (by omega), digit]
    · rw [hslice 19 (by omega)]
      exact parsed

/-- The parser finds the position of an ordinary packet with the text of another one. -/
theorem OrdinaryPacket.parse {packetLen p packetLen' infoStart' : Int}
    (h : OrdinaryPacket m packetLen p m' packetLen' infoStart') (hmark : m.byte p = ch '!')
    (hpos : PositionAt D m (p + 1) (packetLen - 2)) (dstcall : Bytes) (f : AprsFields) :
    ∃ r, (parseAprs (aprsLeaves D dstcall m' packetLen') m' packetLen' infoStart' f).val = some r ∧
      r.1 = 1 := by
  have hlong : 13 ≤ packetLen - 2 - (p + 1) := by
    cases hpos with
    | compressed _ left => exact left
    | uncompressed _ left => omega
  have hlength := h.length
  have hfirst : m'.byte infoStart' = ch '!' := by
    have h1 := slice_part h.text (i := 0) (k := 1) (by omega)
    simpa [Area.slice, hmark] using h1
  have hpos' : PositionAt D m' (infoStart' + 1) (packetLen' - 2) := by
    have hrest := slice_part h.text (i := 1) (k := (packetLen - p).toNat - 1) (by omega)
    exact hpos.of_slice (by omega) (by omega) hrest
  have hparty : m'.byte infoStart' ≠ ch '\x7d' := by
    rw [hfirst]
    decide
  have hinside : infoStart' + 1 ≤ packetLen' - 2 := by omega
  obtain ⟨types, htypes⟩ := parseAprs_type hinside
    h.start hparty f
  refine ⟨_, htypes, ?_⟩
  rw [hfirst]
  have hbang : (m'.byte (infoStart' + 1) == ch '!') = false := beq_eq_false_iff_ne.mpr hpos'.not_mark
  have hmice : (ch '!' == 0x27 || ch '!' == 0x60) = false := by decide
  have hstamp : (ch '!' == ch '/' || ch '!' == ch '@') = false := by decide
  simp only [parseAprsType, hmice, beq_self_eq_true, if_true, Bool.false_eq_true, if_false,
    Traced.val_bind, Area.val_read, hbang, parsePositionPacket, hstamp]
  rw [if_neg (by omega)]
  exact hpos'.parse dstcall _

end

/-- A packet with a position after a leading text is never parsed as the ordinary packet with
the same position is: the one is left without a position, the other is not. -/
theorem leading_text_never_parsed {D : AprsFloats} {m m' : Area UInt8}
    {packetLen infoStart p packetLen' infoStart' : Int}
    (h : LeadingText D m packetLen infoStart p)
    (h' : OrdinaryPacket m packetLen p m' packetLen' infoStart') (dstcall dstcall' : Bytes)
    (f : AprsFields) :
    ∃ r r', (parseAprs (aprsLeaves D dstcall m packetLen) m packetLen infoStart f).val = some r ∧
      (parseAprs (aprsLeaves D dstcall' m' packetLen') m' packetLen' infoStart' f).val = some r' ∧
      ¬SameParse r r' := by
  obtain ⟨types, hleft⟩ := h.parse f
  obtain ⟨r', hr', hone⟩ := h'.parse h.mark h.position dstcall' f
  refine ⟨_, r', hleft, hr', fun hsame => ?_⟩
  have hrc : (0 : Int) = r'.1 := hsame.rc
  omega

/-- The floating point numbers for the compressed position `/5L!!<*e7>`. -/
private def leadingFloats : AprsFloats where
  cosf _ := 0x3f26423a
  filterLat2rad _ := 0x3f5d2b0a
  filterLon2rad _ := 0xbfa2866b
  outOfRange _ _ := false
  nmea _ _ := none
  mice _ _ := none
  compressed _ := ⟨0x42460000, 0xc2918001, ch '/', ch '>'⟩
  uncompressed _ := none

private def leadingArea (info : Bytes) : Area UInt8 :=
  Area.load ⟨fun _ => 0, fun _ => none⟩ (ascii "OH7AA>APRS:" ++ info ++ [0x0D, 0x0A])

private theorem leadingArea_text : LeadingText leadingFloats
    (leadingArea (ascii "Digi!/5L!!<*e7>7P[")) 31 11 15 where
  start := by decide
  type := ⟨by decide, by decide⟩
  after := by decide
  near := by decide
  mark := by decide
  first q hlo hhi := by
    obtain rfl | rfl | rfl : q = 12 ∨ q = 13 ∨ q = 14 := by omega
    all_goals decide
  position := .compressed (by decide) (by decide) (by decide) rfl

private theorem leadingArea_ordinary : OrdinaryPacket
    (leadingArea (ascii "Digi!/5L!!<*e7>7P[")) 31 15 (leadingArea (ascii "!/5L!!<*e7>7P[")) 27 11 where
  start := by decide
  length := by decide
  text := by decide

theorem leading_text_never_parsed_digi :
    ∃ r r', (parseAprs (aprsLeaves leadingFloats (ascii "APRS")
          (leadingArea (ascii "Digi!/5L!!<*e7>7P[")) 31)
        (leadingArea (ascii "Digi!/5L!!<*e7>7P[")) 31 11 ⟨0, 0, 0, 5, none, 0, ⟨0, 0, 0⟩⟩).val =
          some r ∧
      (parseAprs (aprsLeaves leadingFloats (ascii "APRS")
          (leadingArea (ascii "!/5L!!<*e7>7P[")) 27)
        (leadingArea (ascii "!/5L!!<*e7>7P[")) 27 11 ⟨0, 0, 0, 5, none, 0, ⟨0, 0, 0⟩⟩).val =
          some r' ∧ ¬SameParse r r' :=
  leading_text_never_parsed leadingArea_text leadingArea_ordinary _ _ _

/-- The position after `Digi` is not found. -/
theorem leading_text_is_lost :
    ¬∀ (D : AprsFloats) (m m' : Area UInt8) (packetLen infoStart p packetLen' infoStart' : Int)
      (dstcall dstcall' : Bytes) (f : AprsFields) (r r' : Int × AprsFields),
      LeadingText D m packetLen infoStart p →
      OrdinaryPacket m packetLen p m' packetLen' infoStart' →
      (parseAprs (aprsLeaves D dstcall m packetLen) m packetLen infoStart f).val = some r →
      (parseAprs (aprsLeaves D dstcall' m' packetLen') m' packetLen' infoStart' f).val = some r' →
      SameParse r r' := by
  intro hall
  obtain ⟨types, hleft⟩ := leadingArea_text.parse ⟨0, 0, 0, 5, none, 0, ⟨0, 0, 0⟩⟩
  obtain ⟨r', hr', hone⟩ := leadingArea_ordinary.parse leadingArea_text.mark
    leadingArea_text.position (ascii "APRS") ⟨0, 0, 0, 5, none, 0, ⟨0, 0, 0⟩⟩
  have hrc : (0 : Int) = r'.1 :=
    (hall _ _ _ _ _ _ _ _ (ascii "APRS") _ _ _ _ leadingArea_text leadingArea_ordinary hleft hr').rc
  omega

end Aprsc
