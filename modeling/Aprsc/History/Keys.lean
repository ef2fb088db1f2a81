-- SUMMARY: When the history database and the parser agree on the station of a packet, and when a kill finds the entry of the live report.
import Aprsc.Filter.Courtesy
import Aprsc.History.Map
import Aprsc.Incoming.Rewrite
import Aprsc.ParseAprs.Leaves

/-!
# Keys of the history database

`historydb_insert` reads the name of an object or an item from the information field of the
packet, and the callsign of a station from its header. The parser has found the name before,
perhaps inside of a third-party frame. A lookup goes by the name of the parser.
-/

namespace Aprsc

open Runs

/-! ## Name fields -/

/-- The text before the first `c`. -/
theorem takeWhile_ne_eq_iff {c : UInt8} {t name : Bytes} (hc : c ∈ t) :
    t.takeWhile (· != c) = name ↔ c ∉ name ∧ name ++ [c] <+: t := by
  have hpos : ∀ {s : Bytes}, c ∉ s → ∀ b ∈ s, (b != c) = true := by
    intro s hs b hb
    simp only [bne_iff_ne]
    rintro rfl
    exact hs hb
  constructor
  · rintro rfl
    refine ⟨fun hmem => ?_, ?_⟩
    · simpa using List.mem_takeWhile_imp hmem
    · induction t with
      | nil => cases hc
      | cons b t ih =>
        by_cases hb : b = c
        · simp [hb]
        · have hct : c ∈ t := (List.mem_cons.mp hc).resolve_left (Ne.symm hb)
          rw [List.takeWhile_cons_of_pos (by simpa using hb), List.cons_append]
          exact (List.prefix_cons_inj b).mpr (ih hct)
  · rintro ⟨hname, rest, rfl⟩
    rw [List.append_assoc, List.takeWhile_append_of_pos (hpos hname)]
    simp

/-- A name field holds the name of a live object or item, or nothing else. -/
def ReadsLive (live : UInt8) (field name : Bytes) : Prop :=
  live ∉ name ∧ (name ++ [live] <+: field ∨ field = name ∧ ch '_' ∉ name)

/-- A name field holds the name of a killed object or item. -/
def ReadsKilled (live : UInt8) (field name : Bytes) : Prop :=
  live ∉ field ∧ ch '_' ∉ name ∧ name ++ [ch '_'] <+: field

theorem objectKey_eq_live_iff {live : UInt8} {field name : Bytes} :
    objectKey live field = (name, false) ↔ ReadsLive live field name := by
  have hnot : ∀ {t : Bytes}, t ++ [live] <+: field → live ∈ field :=
    fun h => h.subset (by simp)
  unfold objectKey ReadsLive
  simp only [List.contains_iff_mem]
  split
  next hlive =>
    rw [Prod.mk.injEq, takeWhile_ne_eq_iff hlive]
    refine ⟨fun h => ⟨h.1.1, .inl h.1.2⟩, fun ⟨hname, h⟩ => ⟨⟨hname, ?_⟩, rfl⟩⟩
    exact h.resolve_right fun hsame => hname (hsame.1 ▸ hlive)
  next hlive =>
  split
  next hkilled =>
    refine iff_of_false nofun fun ⟨hname, h⟩ => ?_
    obtain h | ⟨rfl, hno⟩ := h
    · exact hlive (hnot h)
    · exact hno hkilled
  next hkilled =>
    rw [Prod.mk.injEq]
    constructor
    · rintro ⟨rfl, -⟩
      exact ⟨hlive, .inr ⟨rfl, hkilled⟩⟩
    · rintro ⟨-, h⟩
      exact ⟨(h.resolve_left fun h => hlive (hnot h)).1, rfl⟩

theorem objectKey_eq_killed_iff {live : UInt8} {field name : Bytes} :
    objectKey live field = (name, true) ↔ ReadsKilled live field name := by
  unfold objectKey ReadsKilled
  simp only [List.contains_iff_mem]
  split
  next hlive => exact iff_of_false nofun fun h => h.1 hlive
  next hlive =>
  split
  next hkilled =>
    rw [Prod.mk.injEq, takeWhile_ne_eq_iff hkilled]
    exact ⟨fun h => ⟨hlive, h.1⟩, fun h => ⟨h.2, rfl⟩⟩
  next hkilled => exact iff_of_false nofun fun h => hkilled (h.2.2.subset (by simp))

/-! ## Reports -/

/-- The packet is a third-party frame. -/
def Pbuf.isThirdParty (pb : Pbuf) : Bool := pb.data[pb.infoStart]? == some (ch '\x7d')

def Pbuf.isObject (pb : Pbuf) : Bool := pb.packettype &&& tObject != 0

def Pbuf.isItem (pb : Pbuf) : Bool := pb.packettype &&& tItem != 0

/-- What follows the name of a live object or item. -/
def Pbuf.liveMark (pb : Pbuf) : UInt8 := if pb.isObject then ch '*' else ch '!'

/-- The parser has found an object or an item that is killed. -/
def Pbuf.isKill (pb : Pbuf) : Bool :=
  if pb.isObject then pb.data[pb.srcname + 9]? == some (ch '_')
  else pb.isItem && pb.data[pb.srcname + pb.srcnameLen]? == some (ch '_')

/-- The text that `historydb_insert` copies from the information field. -/
def Pbuf.nameField (pb : Pbuf) : Bytes :=
  cString ((pb.data.drop (pb.infoStart + 1)).take (callsignlenMax + 1))

/-- A packet with a position in the queue, of one of the types that the history database
stores. The parsers have read it from the buffer. -/
structure PositionReport (D : AprsFloats) where
  pb : Pbuf
  env : IncomingEnv
  client : Client
  line : Bytes
  rc : Int
  dstcall : Bytes
  queued : incomingParse env client line = .queued rc pb
  leaf_eq : env.leaf = aprsLeaves D dstcall (env.pbMem.load (pb.data ++ [0])) pb.packetLen
  haspos : pb.flags &&& fHaspos ≠ 0
  typed : pb.packettype &&& (tPosition ||| tObject ||| tItem) ≠ 0

/-- The parts of the buffer, and what the parser made of it. -/
structure Pbuf.Parts (leaf : AprsLeaves) (mem : Area UInt8) (pb : Pbuf) (src head info : Bytes)
    (r : Int × AprsFields) : Prop where
  data_eq : pb.data = src ++ ch '>' :: (head ++ ch ':' :: info ++ [0x0D, 0x0A])
  src_valid : checkInvalidSrcDst src = false
  info_ne : info ≠ []
  srccallEnd : pb.srccallEnd = src.length
  packetLen : pb.packetLen = pb.data.length
  infoStart : pb.infoStart = src.length + 1 + head.length + 1
  parsed : ∃ f, (parseAprs leaf (mem.load (pb.data ++ [0])) pb.packetLen pb.infoStart f).val = some r ∧
    f.srcname = 0 ∧ f.srcnameLen = src.length ∧ f.flags &&& fHaspos = 0
  srcname : pb.srcname = r.2.srcname.toNat
  srcnameLen : pb.srcnameLen = r.2.srcnameLen.toNat
  packettype : pb.packettype = r.2.packettype
  haspos : r.2.flags &&& fHaspos ≠ 0

variable {D : AprsFloats}

theorem filterPreprocessDupefilter_haspos (pb : Pbuf) :
    (filterPreprocessDupefilter pb).flags &&& fHaspos = pb.flags &&& fHaspos := by
  unfold filterPreprocessDupefilter
  simp only
  split
  next =>
    show (pb.flags ||| fHasTcpip) &&& fHaspos = _
    rw [UInt16.or_and_flag, show fHasTcpip &&& fHaspos = 0 from rfl, UInt16.or_zero]
  next => rfl

theorem premarked_haspos {env : IncomingEnv} {c : Client} {h : Header} {s : Bytes} {cls : UInt16}
    (hcls : classify c = .ok cls) : premarked env c h s cls &&& fHaspos = 0 := by
  unfold premarked
  obtain rfl | rfl := classify_cases hcls <;> split <;> decide

theorem PositionReport.exists_parts (q : PositionReport D) :
    ∃ src head info r, q.pb.Parts q.env.leaf q.env.pbMem src head info r := by
  obtain ⟨s, h, out, qc, cls, f, hp⟩ := queued_passage q.queued
  have hl := Loaded.of_parseHeader q.env.mem hp.header_eq
  obtain ⟨via, -, hcut, hdata⟩ := hl.exists_copies hp.q_eq (by simp [hp.qconst_eq])
  have hpos : f.flags &&& fHaspos ≠ 0 := by
    have hpos := q.haspos
    rw [hp.pb_eq, filterPreprocessDupefilter_haspos] at hpos
    exact hpos
  have hnone := @premarked_haspos q.env _ h s _ hp.class_eq
  have haprs := hp.aprs_eq
  cases hparse : (parseAprsPbuf q.env (out.pbuf h s.length (premarked q.env q.client h s cls) qc
      q.env.tick)).val with
  | none =>
    rw [hparse] at haprs
    rw [haprs] at hpos
    exact absurd hnone hpos
  | some r =>
    rw [hparse, Option.getD_some] at haprs
    subst haprs
    obtain ⟨flags, hpb⟩ := hp.pb_eq_with_flags
    have hsrc := hl.admitted.srcLen_eq
    have hdst := hl.admitted.viaStart_eq
    refine ⟨h.src s, h.dst s ++ (via ++ out.newQ), h.info s, r, ?_⟩
    rw [hpb]
    exact {
      data_eq := by
        simp [Pbuf.withAprs, QOut.pbuf, hdata]
      src_valid := hl.admitted.src_valid
      info_ne := hl.admitted.info_ne
      srccallEnd := hsrc
      packetLen := rfl
      infoStart := by
        simp only [Pbuf.withAprs, QOut.pbuf, QOut.infoStart, hcut, List.length_append]
        omega
      parsed := ⟨_, hparse, rfl, by simp [QOut.pbuf, Pbuf.aprsFields, hsrc], hnone⟩
      srcname := rfl
      srcnameLen := rfl
      packettype := rfl
      haspos := hpos }

/-! ## The station of a report -/

/-- A callsign at the start of the header, as `historydb_insert` copies it. -/
theorem headerKey {src rest : Bytes} (hvalid : checkInvalidSrcDst src = false) :
    (cString ((src ++ ch '>' :: rest).take callsignlenMax)).takeWhile (· != ch '>') = src := by
  have hlen := length_le_of_checkInvalidSrcDst hvalid
  have hnul : (0 : UInt8) ∉ src := not_mem_callsign hvalid (by decide) (by decide)
  have hgt : ch '>' ∉ src := not_mem_callsign hvalid (by decide) (by decide)
  have hself : ∀ b ∈ src, (b != ch '>') = true := by
    intro b hb
    simp only [bne_iff_ne]
    rintro rfl
    exact hgt hb
  rw [List.take_append, List.take_of_length_le hlen, cString_append hnul,
    List.takeWhile_append_of_pos hself]
  cases hrest : callsignlenMax - src.length with
  | zero => simp [cString]
  | succ n =>
    have hch : ((ch '>') != 0) = true := by decide
    simp [cString, hch]

/-- The station of a packet that is no third-party frame, and its name field. -/
inductive Pbuf.Direct (pb : Pbuf) : Prop where
  | object (name : Bytes) (mark : UInt8) (isObject : pb.isObject = true)
      (length : name.length = 9) (printable : name.all isPrintable = true)
      (mark_eq : mark = ch '*' ∨ mark = ch '_') (sourceName : pb.sourceName = stripSpaces name)
      (nameField : pb.nameField = name ++ [mark]) (isKill : pb.isKill = (mark == ch '_'))
  | item (name : Bytes) (mark : UInt8) (after : Bytes) (isObject : pb.isObject = false)
      (isItem : pb.isItem = true) (name_ok : ∀ b ∈ name, isItemEnd b = false)
      (mark_ok : isItemEnd mark = true) (sourceName : pb.sourceName = name)
      (nameField : pb.nameField = name ++ mark :: after) (isKill : pb.isKill = (mark == ch '_'))
  | position (isObject : pb.isObject = false) (isItem : pb.isItem = false)
      (sourceName : pb.sourceName = pb.srccall)

theorem stripSpaces_prefix_self (s : Bytes) : stripSpaces s <+: s := by
  unfold stripSpaces
  have h := List.dropWhile_suffix (p := (· == ch ' ')) (l := s.reverse)
  simpa using List.reverse_prefix.mpr h

theorem no_nul_of_printable {s : Bytes} (h : s.all isPrintable = true) : (0 : UInt8) ∉ s :=
  fun hmem => absurd (List.all_eq_true.mp h 0 hmem) (by decide)

namespace Pbuf.Parts

variable {pb : Pbuf} {leaf : AprsLeaves} {mem : Area UInt8} {src head info : Bytes}
  {r : Int × AprsFields} (h : pb.Parts leaf mem src head info r)
include h

theorem srccall_eq : pb.srccall = src := by
  rw [Pbuf.srccall, h.data_eq, h.srccallEnd, List.take_left]

/-- The text after the type of the packet. -/
theorem text_eq : ∃ t body, info = t :: body ∧ pb.data[pb.infoStart]? = some t ∧
    pb.data.drop (pb.infoStart + 1) = body ++ [0x0D, 0x0A] := by
  obtain ⟨t, body, hinfo⟩ := List.exists_cons_of_ne_nil h.info_ne
  have hdata : pb.data = (src ++ ch '>' :: (head ++ [ch ':'])) ++ t :: (body ++ [0x0D, 0x0A]) := by
    rw [h.data_eq, hinfo]
    simp
  have hlen : pb.infoStart = (src ++ ch '>' :: (head ++ [ch ':'])).length := by
    rw [h.infoStart]
    simp only [List.length_append, List.length_cons, List.length_nil]
    omega
  refine ⟨t, body, hinfo, ?_, ?_⟩
  · rw [hdata, hlen, List.getElem?_append_right (Nat.le_refl _)]
    simp
  · rw [hdata, hlen, List.drop_append]
    simp

omit h in
/-- The buffer in the memory of the parser. -/
theorem slice_eq {n : Nat} (hn : pb.infoStart + 1 + n ≤ pb.data.length) :
    (mem.load (pb.data ++ [0])).slice (pb.infoStart + 1) n =
      (pb.data.drop (pb.infoStart + 1)).take n := by
  have hslice := (mem.at_load (pb.data ++ [0])).slice_eq (i := pb.infoStart + 1) (n := n)
    (by rw [List.length_append]; omega)
  rw [List.drop_append_of_le_length (by omega), List.take_append_of_le_length (by
    rw [List.length_drop]; omega)] at hslice
  rw [← hslice]
  congr 1
  omega

omit h in
/-- The text after the type, cut at the character that follows `n` others. -/
theorem text_split {n : Nat} (hn : pb.infoStart + 1 + n + 1 ≤ pb.data.length) :
    pb.data.drop (pb.infoStart + 1) =
      (pb.data.drop (pb.infoStart + 1)).take n ++
        (mem.load (pb.data ++ [0])).byte (pb.infoStart + 1 + n) ::
          (pb.data.drop (pb.infoStart + 1)).drop (n + 1) := by
  have hlong := @slice_eq pb mem (n + 1) hn
  rw [Area.slice_append, slice_eq (by omega)] at hlong
  conv_lhs => rw [← List.take_append_drop (n + 1) (pb.data.drop (pb.infoStart + 1)), ← hlong]
  simp [Area.slice]

theorem sourceName_eq {name : Bytes} (hname : r.2.srcname = (pb.infoStart : Int) + 1)
    (hlen : r.2.srcnameLen = name.length) (hpref : name <+: pb.data.drop (pb.infoStart + 1)) :
    pb.srcname = pb.infoStart + 1 ∧ pb.srcnameLen = name.length ∧ pb.sourceName = name := by
  have hsrcname : pb.srcname = pb.infoStart + 1 := by
    rw [h.srcname, hname]
    omega
  have hsrclen : pb.srcnameLen = name.length := by rw [h.srcnameLen, hlen, Int.toNat_natCast]
  refine ⟨hsrcname, hsrclen, ?_⟩
  rw [Pbuf.sourceName, hsrcname, hsrclen]
  exact (List.prefix_iff_eq_take.mp hpref).symm

theorem direct_object (hobject : r.2.packettype &&& tObject ≠ 0)
    (hfits : (pb.infoStart : Int) + 1 + 29 < pb.packetLen - 2)
    (hname : ObjectName (mem.load (pb.data ++ [0])) (pb.infoStart + 1) r.2) : pb.Direct := by
  have hlen : pb.infoStart + 1 + 29 + 2 < pb.data.length := by
    rw [h.packetLen] at hfits
    omega
  have hobj : pb.isObject = true := by rw [Pbuf.isObject, h.packettype]; simpa using hobject
  obtain ⟨hsrcname, hsrclen, hprintable, hmark⟩ := hname
  obtain ⟨mark, hbyte⟩ : ∃ mark, (mem.load (pb.data ++ [0])).byte (pb.infoStart + 1 + (9 : Nat)) =
    mark := ⟨_, rfl⟩
  have hmark : mark = ch '*' ∨ mark = ch '_' := by rw [← hbyte]; exact hmark
  have hsplit := @text_split pb mem 9 (by omega)
  have hnine : ((pb.data.drop (pb.infoStart + 1)).take 9).length = 9 := by
    rw [List.length_take, List.length_drop]
    omega
  have hpref := List.take_prefix 9 (pb.data.drop (pb.infoStart + 1))
  rw [slice_eq (n := 9) (by omega)] at hsrclen hprintable
  rw [hbyte] at hsplit
  generalize (pb.data.drop (pb.infoStart + 1)).take 9 = name at *
  obtain ⟨hstart, -, hstation⟩ :=
    h.sourceName_eq hsrcname hsrclen ((stripSpaces_prefix_self name).trans hpref)
  have hnul : (0 : UInt8) ∉ name ++ [mark] := by
    rw [List.mem_append, not_or]
    refine ⟨no_nul_of_printable hprintable, ?_⟩
    obtain rfl | rfl := hmark <;> decide
  refine .object name mark hobj hnine hprintable hmark hstation ?_ ?_
  · rw [Pbuf.nameField, hsplit, List.take_append, hnine]
    rw [List.take_of_length_le (by rw [hnine]; decide)]
    exact cString_eq_self hnul
  · have hkill : pb.data[pb.srcname + 9]? = some mark := by
      rw [hstart, ← List.getElem?_drop, hsplit, ← hnine, List.getElem?_append_right (Nat.le_refl _)]
      simp
    rw [Pbuf.isKill, if_pos hobj, hkill, Option.some_beq_some]

/-- The name of an item ends where the parser has found its mark. -/
theorem direct_item (hitem : r.2.packettype &&& tObject = 0 ∧ r.2.packettype &&& tItem ≠ 0)
    (hfits : (pb.infoStart : Int) + 1 + 18 < pb.packetLen - 2)
    (hname : ItemName (mem.load (pb.data ++ [0])) (pb.infoStart + 1) r.2) : pb.Direct := by
  have hlen : pb.infoStart + 1 + 18 + 2 < pb.data.length := by
    rw [h.packetLen] at hfits
    omega
  have hobj : pb.isObject = false := by rw [Pbuf.isObject, h.packettype]; simpa using hitem.1
  have hit : pb.isItem = true := by rw [Pbuf.isItem, h.packettype]; simpa using hitem.2
  obtain ⟨hsrcname, hsrclen, hprintable, hmark⟩ := hname
  rw [slice_eq (n := 9) (by omega)] at hsrclen hprintable hmark
  have hend : ∀ b ∈ ((pb.data.drop (pb.infoStart + 1)).take 9).takeWhile (!isItemEnd ·),
      isItemEnd b = false := by
    intro b hb
    simpa using List.mem_takeWhile_imp hb
  have hpref := (List.takeWhile_prefix (!isItemEnd ·)).trans
    (List.take_prefix 9 (pb.data.drop (pb.infoStart + 1)))
  have hnine : (((pb.data.drop (pb.infoStart + 1)).take 9).takeWhile (!isItemEnd ·)).length ≤ 9 :=
    (List.takeWhile_prefix _).length_le.trans (List.length_take_le _ _)
  generalize ((pb.data.drop (pb.infoStart + 1)).take 9).takeWhile (!isItemEnd ·) = name at *
  have hsplit := @text_split pb mem name.length (by omega)
  rw [← List.prefix_iff_eq_take.mp hpref] at hsplit
  generalize (mem.load (pb.data ++ [0])).byte (pb.infoStart + 1 + name.length) = mark at *
  obtain ⟨hstart, hlength, hstation⟩ := h.sourceName_eq hsrcname hsrclen hpref
  have hnul : (0 : UInt8) ∉ name := no_nul_of_printable hprintable
  refine .item name mark
    (cString (((pb.data.drop (pb.infoStart + 1)).drop (name.length + 1)).take (9 - name.length)))
    hobj hit hend hmark hstation ?_ ?_
  · have hmark0 : (mark != 0) = true := by
      simp only [bne_iff_ne]
      rintro rfl
      revert hmark
      decide
    have hcut : callsignlenMax + 1 - name.length = (9 - name.length) + 1 := by
      unfold callsignlenMax
      omega
    have htake : name.take (callsignlenMax + 1) = name :=
      List.take_of_length_le (Nat.le_succ_of_le hnine)
    rw [Pbuf.nameField]
    conv_lhs => rw [hsplit]
    rw [List.take_append, htake, hcut, List.take_succ_cons, cString_append hnul]
    simp [cString, hmark0]
  · have hkill : pb.data[pb.srcname + pb.srcnameLen]? = some mark := by
      rw [hstart, hlength, ← List.getElem?_drop, hsplit, List.getElem?_append_right (Nat.le_refl _)]
      simp
    rw [Pbuf.isKill, hobj, hit, hkill]
    simp

end Pbuf.Parts

theorem PositionReport.direct (q : PositionReport D) (hthird : q.pb.isThirdParty = false) :
    q.pb.Direct := by
  obtain ⟨src, head, info, r, h⟩ := q.exists_parts
  obtain ⟨f, hparsed, hname, hlen, hflags⟩ := h.parsed
  rw [q.leaf_eq] at hparsed
  have hbyte : (q.env.pbMem.load (q.pb.data ++ [0])).byte q.pb.infoStart ≠ ch '\x7d' := by
    obtain ⟨t, body, -, ht, -⟩ := h.text_eq
    have hbyte := (q.env.pbMem.at_load (q.pb.data ++ [0])).byte_eq (i := q.pb.infoStart)
      (x := t) (by rw [List.getElem?_append_left (List.getElem?_eq_some_iff.mp ht).1]; exact ht)
    rw [Int.zero_add] at hbyte
    rw [hbyte]
    rintro rfl
    simp [Pbuf.isThirdParty, ht] at hthird
  obtain hsame | hnamed := parseAprs_named D q.dstcall _ _ _ f r hbyte hparsed
  · exact absurd (by rw [hsame, hflags]) h.haspos
  cases hnamed with
  | object types fits name => exact h.direct_object types fits name
  | item types fits name => exact h.direct_item types fits name
  | position types name =>
    rw [UInt16.and_comm, UInt16.or_and_flag, UInt16.or_eq_zero_iff] at types
    refine .position ?_ ?_ ?_
    · rw [Pbuf.isObject, h.packettype, UInt16.and_comm, types.1]
      rfl
    · rw [Pbuf.isItem, h.packettype, UInt16.and_comm, types.2]
      rfl
    · rw [Pbuf.sourceName, Pbuf.srccall, h.srcname, h.srcnameLen, name.1, name.2, hname, hlen,
        h.srccallEnd]
      simp

/-! ## Keys -/

/-- The key under which a report is stored, and whether it removes the entry. -/
theorem PositionReport.storedKey_eq (q : PositionReport D) :
    q.pb.storedKey =
      if q.pb.isObject then some (objectKey (ch '*') q.pb.nameField)
      else if q.pb.isItem then some (objectKey (ch '!') q.pb.nameField)
      else some (q.pb.srccall, false) := by
  obtain ⟨src, head, info, r, h⟩ := q.exists_parts
  have hkey : (cString (q.pb.data.take callsignlenMax)).takeWhile (· != ch '>') = q.pb.srccall := by
    rw [h.srccall_eq, h.data_eq]
    exact headerKey h.src_valid
  have htyped := q.typed
  rw [UInt16.and_comm, UInt16.or_and_flag, UInt16.or_and_flag, UInt16.and_comm tPosition,
    UInt16.and_comm tObject, UInt16.and_comm tItem] at htyped
  unfold Pbuf.storedKey Pbuf.historyKey Pbuf.isObject Pbuf.isItem
  rw [if_neg q.haspos, hkey]
  simp only [bne_iff_ne]
  by_cases hobject : q.pb.packettype &&& tObject = 0
  · by_cases hitem : q.pb.packettype &&& tItem = 0
    · rw [hobject, hitem, UInt16.or_zero, UInt16.or_zero] at htyped
      simp [hobject, hitem, htyped]
    · simp [hobject, hitem, Pbuf.nameField]
  · simp [hobject, Pbuf.nameField]

/-- The condition under which a live report is stored under the name of its station. An object
has to have a name of nine characters without the mark of a live one. A third-party frame has
to come from the station that is named inside, or its header has to look like the name field of
the object or the item that is named inside. -/
def Pbuf.KeyAgrees (pb : Pbuf) : Prop :=
  if pb.isThirdParty then
    if pb.isObject || pb.isItem then ReadsLive pb.liveMark pb.nameField pb.sourceName
    else pb.sourceName = pb.srccall
  else pb.isObject = true → pb.sourceName.length = 9 ∧ ch '*' ∉ pb.sourceName

/-- The condition under which a kill removes the entry of a live report of its object or item.
The name of an object has to be without the marks, and there has to be no `!` among the
characters that are copied from the report of a killed item. -/
def Pbuf.KillAgrees (live kill : Pbuf) : Prop :=
  if live.isThirdParty || kill.isThirdParty then
    ∃ key, ReadsLive live.liveMark live.nameField key ∧ ReadsKilled kill.liveMark kill.nameField key
  else if live.isObject then ch '*' ∉ live.sourceName ∧ ch '_' ∉ live.sourceName
  else ch '!' ∉ kill.nameField

theorem stripSpaces_append (s : Bytes) :
    ∃ k, s = stripSpaces s ++ List.replicate k (ch ' ') := by
  refine ⟨(s.reverse.takeWhile (· == ch ' ')).length, ?_⟩
  have hspaces : s.reverse.takeWhile (· == ch ' ') =
      List.replicate (s.reverse.takeWhile (· == ch ' ')).length (ch ' ') :=
    List.eq_replicate_iff.mpr ⟨rfl, fun b hb => by simpa using List.mem_takeWhile_imp hb⟩
  have hsplit := congrArg List.reverse
    (List.takeWhile_append_dropWhile (p := (· == ch ' ')) (l := s.reverse))
  rw [List.reverse_append, List.reverse_reverse] at hsplit
  rw [stripSpaces]
  conv_lhs => rw [← hsplit, hspaces, List.reverse_replicate]

theorem mem_stripSpaces {s : Bytes} {b : UInt8} (hb : b ≠ ch ' ') : b ∈ stripSpaces s ↔ b ∈ s := by
  obtain ⟨k, hk⟩ := stripSpaces_append s
  conv_rhs => rw [hk]
  simp [hb]

/-- Two names of the same length that are the same without spaces are the same. -/
theorem eq_of_stripSpaces {s s' : Bytes} (hlen : s.length = s'.length)
    (h : stripSpaces s = stripSpaces s') : s = s' := by
  obtain ⟨k, hk⟩ := stripSpaces_append s
  obtain ⟨k', hk'⟩ := stripSpaces_append s'
  have hsame : k = k' := by
    have hl := congrArg List.length hk
    have hl' := congrArg List.length hk'
    rw [List.length_append, List.length_replicate] at hl hl'
    rw [h] at hl
    omega
  rw [hk, hk', h, hsame]

/-- The name of a live object is read in full, with its spaces. -/
theorem readsLive_object_iff {name : Bytes} (hlen : name.length = 9) :
    ReadsLive (ch '*') (name ++ [ch '*']) (stripSpaces name) ↔
      (stripSpaces name).length = 9 ∧ ch '*' ∉ stripSpaces name := by
  obtain ⟨k, hk⟩ := stripSpaces_append name
  unfold ReadsLive
  constructor
  · rintro ⟨hmark, hread⟩
    refine ⟨?_, hmark⟩
    obtain hread | ⟨hread, -⟩ := hread
    · have hspaces : [ch '*'] <+: List.replicate k (ch ' ') ++ [ch '*'] := by
        conv_rhs at hread => rw [hk]
        rw [List.append_assoc, List.prefix_append_right_inj] at hread
        exact hread
      cases k with
      | zero =>
        have hsame : name = stripSpaces name := by simpa using hk
        rw [← hsame, hlen]
      | succ k =>
        rw [List.replicate_succ, List.cons_append, List.cons_prefix_cons] at hspaces
        exact absurd hspaces.1 (by decide)
    · exact absurd (hread ▸ (by simp : ch '*' ∈ name ++ [ch '*'])) hmark
  · rintro ⟨hnine, hmark⟩
    have hsame : stripSpaces name = name :=
      (stripSpaces_prefix_self name).eq_of_length (by rw [hnine, hlen])
    rw [hsame] at hmark ⊢
    exact ⟨hmark, .inl List.prefix_rfl⟩

theorem isItemEnd_cases {b : UInt8} (h : isItemEnd b = true) : b = ch '!' ∨ b = ch '_' := by
  simpa [isItemEnd] using h

theorem not_mem_of_no_isItemEnd {s : Bytes} (hs : ∀ b ∈ s, isItemEnd b = false) {c : UInt8}
    (hc : isItemEnd c = true) : c ∉ s := by
  intro hmem
  rw [hs c hmem] at hc
  cases hc

theorem PositionReport.key_agrees_iff (q : PositionReport D) (hlive : q.pb.isKill = false) :
    q.pb.storedKey = some (q.pb.sourceName, false) ↔ q.pb.KeyAgrees := by
  rw [q.storedKey_eq]
  unfold Pbuf.KeyAgrees
  cases hthird : q.pb.isThirdParty with
  | true =>
    unfold Pbuf.liveMark
    cases hobject : q.pb.isObject <;> cases hitem : q.pb.isItem <;>
      simp [objectKey_eq_live_iff, eq_comm]
  | false =>
    simp only [Bool.false_eq_true, if_false]
    cases q.direct hthird with
    | object name mark isObject length printable mark_eq sourceName nameField isKill =>
      have hmark : mark = ch '*' := mark_eq.resolve_right (by simpa [isKill] using hlive)
      rw [isObject, sourceName, nameField, hmark, if_pos rfl, Option.some.injEq,
        objectKey_eq_live_iff, readsLive_object_iff length]
      simp
    | item name mark after isObject isItem name_ok mark_ok sourceName nameField isKill =>
      have hmark : mark = ch '!' :=
        (isItemEnd_cases mark_ok).resolve_right (by simpa [isKill] using hlive)
      rw [isObject, isItem, sourceName, nameField, hmark]
      simp only [Bool.false_eq_true, if_false, if_true, Option.some.injEq, objectKey_eq_live_iff,
        false_implies, iff_true]
      exact ⟨not_mem_of_no_isItemEnd name_ok (by decide), .inl ⟨after, by simp⟩⟩
    | position isObject isItem sourceName =>
      rw [isObject, isItem, sourceName]
      simp

/-- The names that the reports of an object are read with. -/
theorem reads_object_iff {name : Bytes} :
    (∃ key, ReadsLive (ch '*') (name ++ [ch '*']) key ∧
        ReadsKilled (ch '*') (name ++ [ch '_']) key) ↔
      ch '*' ∉ stripSpaces name ∧ ch '_' ∉ stripSpaces name := by
  rw [mem_stripSpaces (by decide), mem_stripSpaces (by decide)]
  constructor
  · rintro ⟨key, ⟨hkey, hread⟩, hfield, hmark, hkilled⟩
    have hname : ch '*' ∉ name := fun hmem => hfield (List.mem_append_left _ hmem)
    have hread : key ++ [ch '*'] <+: name ++ [ch '*'] := by
      refine hread.resolve_right fun hsame => hkey ?_
      rw [← hsame.1]
      simp
    have hsame : name = key := by
      have hmem : ch '*' ∈ name ++ [ch '*'] := by simp
      rw [← (takeWhile_ne_eq_iff hmem).mpr ⟨hkey, hread⟩]
      exact ((takeWhile_ne_eq_iff hmem).mpr ⟨hname, List.prefix_rfl⟩).symm
    exact ⟨hname, hsame ▸ hmark⟩
  · rintro ⟨hlive, hkilled⟩
    refine ⟨name, ⟨hlive, .inl List.prefix_rfl⟩, ?_, hkilled, List.prefix_rfl⟩
    rw [List.mem_append, not_or]
    exact ⟨hlive, by decide⟩

/-- The names that the reports of an item are read with. -/
theorem reads_item_iff {name after after' : Bytes} (hname : ∀ b ∈ name, isItemEnd b = false) :
    (∃ key, ReadsLive (ch '!') (name ++ ch '!' :: after) key ∧
        ReadsKilled (ch '!') (name ++ ch '_' :: after') key) ↔
      ch '!' ∉ name ++ ch '_' :: after' := by
  constructor
  · rintro ⟨key, -, hfield, -, -⟩
    exact hfield
  · intro hfield
    exact ⟨name, ⟨not_mem_of_no_isItemEnd hname (by decide), .inl ⟨after, by simp⟩⟩, hfield,
      not_mem_of_no_isItemEnd hname (by decide), ⟨after', by simp⟩⟩

theorem PositionReport.kill_agrees_iff (q k : PositionReport D)
    (hkind : q.pb.isObject = k.pb.isObject ∧ q.pb.isItem = k.pb.isItem)
    (hnamed : (q.pb.isObject || q.pb.isItem) = true)
    (hname : q.pb.sourceName = k.pb.sourceName) (hlive : q.pb.isKill = false)
    (hkill : k.pb.isKill = true) :
    (∃ key, q.pb.storedKey = some (key, false) ∧ k.pb.storedKey = some (key, true)) ↔
      q.pb.KillAgrees k.pb := by
  have hkeys : (∃ key, q.pb.storedKey = some (key, false) ∧ k.pb.storedKey = some (key, true)) ↔
      ∃ key, ReadsLive q.pb.liveMark q.pb.nameField key ∧
        ReadsKilled k.pb.liveMark k.pb.nameField key := by
    rw [q.storedKey_eq, k.storedKey_eq, ← hkind.1, ← hkind.2]
    unfold Pbuf.liveMark
    rw [← hkind.1]
    cases hobject : q.pb.isObject with
    | true => simp [objectKey_eq_live_iff, objectKey_eq_killed_iff]
    | false =>
      have hitem : q.pb.isItem = true := by simpa [hobject] using hnamed
      simp [hitem, objectKey_eq_live_iff, objectKey_eq_killed_iff]
  rw [hkeys]
  unfold Pbuf.KillAgrees
  cases hthird : q.pb.isThirdParty || k.pb.isThirdParty with
  | true => rfl
  | false =>
    rw [Bool.or_eq_false_iff] at hthird
    simp only [Bool.false_eq_true, if_false]
    cases q.direct hthird.1 with
    | position isObject isItem =>
      rw [isObject, isItem] at hnamed
      cases hnamed
    | object name mark isObject length printable mark_eq sourceName nameField isKill =>
      cases k.direct hthird.2 with
      | item _ _ _ isObject' => rw [hkind.1, isObject'] at isObject; cases isObject
      | position isObject' => rw [hkind.1, isObject'] at isObject; cases isObject
      | object name' mark' isObject' length' _ _ sourceName' nameField' isKill' =>
        have hmark : mark = ch '*' := mark_eq.resolve_right (by simpa [isKill] using hlive)
        have hmark' : mark' = ch '_' := by simpa [isKill'] using hkill
        have hsame : name = name' :=
          eq_of_stripSpaces (length.trans length'.symm) (by rw [← sourceName, hname, sourceName'])
        have hlive := @reads_object_iff name
        simpa [Pbuf.liveMark, isObject, isObject', nameField, nameField', hmark, hmark', ← hsame,
          sourceName] using hlive
    | item name mark after isObject isItem name_ok mark_ok sourceName nameField isKill =>
      cases k.direct hthird.2 with
      | object _ _ isObject' => rw [hkind.1, isObject'] at isObject; cases isObject
      | position _ isItem' => rw [hkind.2, isItem'] at isItem; cases isItem
      | item name' mark' after' isObject' _ _ _ sourceName' nameField' isKill' =>
        have hmark : mark = ch '!' :=
          (isItemEnd_cases mark_ok).resolve_right (by simpa [isKill] using hlive)
        have hmark' : mark' = ch '_' := by simpa [isKill'] using hkill
        have hsame : name = name' := by rw [← sourceName, hname, sourceName']
        have hreads := @reads_item_iff name after after' name_ok
        simpa only [Pbuf.liveMark, isObject, isObject', nameField, nameField', hmark, hmark',
          ← hsame, Bool.false_eq_true, if_false] using hreads

/-! ## Lookups -/

section
variable {env : HistorydbEnv} {tick tick' : Int} {calls : List HistorydbCall} {s : Historydb}
  {pb : Pbuf}

/-- A packet without a position takes the one of a report of its station. -/
theorem filterPostprocessDupefilter_of_storedKey (hs : s.Refines env tick calls)
    (hmalloc : ∀ n, env.cellmalloc n = true) (hkey : pb.storedKey = some (pb.sourceName, false))
    (htick : tick ≤ tick') (hvalid : pb.t > tick' - env.lastpositionStoretime + 300) {pb' : Pbuf}
    (hnone : pb'.flags &&& fHaspos = 0) (hname : pb'.sourceName = pb.sourceName) :
    filterPostprocessDupefilter env tick' (historydbInsert env tick pb s) pb' =
      { pb' with flags := pb'.flags ||| fHaspos, position := pb.position } := by
  have hlookup : historydbLookup env tick' pb'.sourceName (historydbInsert env tick pb s) =
      some (pb.historyCell pb.sourceName) := by
    rw [(hs.insert hmalloc pb).lookup htick, historyMap_insert hkey, hname, Function.update_self]
    simp [Pbuf.storedCell, Pbuf.historyCell, hvalid]
  unfold filterPostprocessDupefilter
  rw [if_pos hnone]
  rw [Pbuf.sourceName] at hlookup
  rw [hlookup]
  rfl

/-- A kill removes the entry of its key, and no other. -/
theorem historydbLookup_of_kill (hs : s.Refines env tick calls)
    (hmalloc : ∀ n, env.cellmalloc n = true) {key : Bytes} (hkey : pb.storedKey = some (key, true))
    (htick : tick ≤ tick') (key' : Bytes) :
    historydbLookup env tick' key' (historydbInsert env tick pb s) =
      if key' = key then none else historydbLookup env tick' key' s := by
  rw [(hs.insert hmalloc pb).lookup htick, hs.lookup htick, historyMap_insert hkey]
  by_cases hsame : key' = key
  · subst hsame
    simp [Pbuf.storedCell]
  · simp [hsame]

end

/-! ## Result -/

/-- A live report is stored under the name that the parser has found, and then found by it, if
and only if it meets the condition. A kill removes the entry of a live report of the same object
or item if and only if the two reports meet theirs, and then nothing else. -/
theorem history_keys_agree_iff (D : AprsFloats) (q : PositionReport D) :
    (q.pb.isKill = false →
      (q.pb.storedKey = some (q.pb.sourceName, false) ↔ q.pb.KeyAgrees)) ∧
    (∀ k : PositionReport D, q.pb.isObject = k.pb.isObject ∧ q.pb.isItem = k.pb.isItem →
      (q.pb.isObject || q.pb.isItem) = true → q.pb.sourceName = k.pb.sourceName →
      q.pb.isKill = false → k.pb.isKill = true →
      ((∃ key, q.pb.storedKey = some (key, false) ∧ k.pb.storedKey = some (key, true)) ↔
        q.pb.KillAgrees k.pb)) ∧
    ∀ (env : HistorydbEnv) (calls : List HistorydbCall) (tick tick' : Int),
      (∀ n, env.cellmalloc n = true) → (calls.map HistorydbCall.tick).Pairwise (· ≤ ·) →
      (∀ call ∈ calls, call.tick ≤ tick) → tick ≤ tick' →
      let s := run (historydbStep env) .init calls
      (q.pb.storedKey = some (q.pb.sourceName, false) →
        q.pb.t > tick' - env.lastpositionStoretime + 300 →
        ∀ pb : Pbuf, pb.flags &&& fHaspos = 0 → pb.sourceName = q.pb.sourceName →
          filterPostprocessDupefilter env tick' (historydbInsert env tick q.pb s) pb =
            { pb with flags := pb.flags ||| fHaspos, position := q.pb.position }) ∧
      ∀ key, q.pb.storedKey = some (key, true) → ∀ key',
        historydbLookup env tick' key' (historydbInsert env tick q.pb s) =
          if key' = key then none else historydbLookup env tick' key' s := by
  refine ⟨q.key_agrees_iff, q.kill_agrees_iff, fun env calls tick tick' hmalloc hticks hlast htick => ?_⟩
  have hs : (run (historydbStep env) .init calls).Refines env tick calls :=
    historydb_refines hmalloc hticks hlast
  exact ⟨fun hkey hvalid pb hnone hname =>
      filterPostprocessDupefilter_of_storedKey hs hmalloc hkey htick hvalid hnone hname,
    fun key hkey key' => historydbLookup_of_kill hs hmalloc hkey htick key'⟩

/-- The floating point numbers for the compressed position `/5L!!<*e7>`. -/
private def keyFloats : AprsFloats where
  cosf _ := 0x3f26423a
  filterLat2rad _ := 0x3f5d2b0a
  filterLon2rad _ := 0xbfa2866b
  outOfRange _ _ := false
  nmea _ _ := none
  mice _ _ := none
  compressed _ := ⟨0x42460000, 0xc2918001, ch '/', ch '>'⟩
  uncompressed _ := none

private def keyMem : Area UInt8 := ⟨fun _ => 0, fun _ => none⟩

/-- An object with a name of the given length, as it is queued. -/
private def objectPb (info : String) (namelen : Nat) : Pbuf where
  data := ascii "OH7AA>APRS,TCPIP*,qAC,TESTING:" ++ ascii info ++ [0x0D, 0x0A]
  packetLen := 63
  packettype := tAll ||| tObject
  flags := fHaspos ||| fFromDownstr
  srcname := 31
  srcnameLen := namelen
  dstname := none
  dstnameLen := 0
  srccallEnd := 5
  dstcallEndOrSsid := 10
  dstcallEnd := 10
  dstcallLen := 4
  qconstStart := 11
  infoStart := 30
  t := 0
  position := ⟨0x3f5d2b0a, 0xbfa2866b, 0x3f26423a⟩

private def objectEnv (pb : Pbuf) : IncomingEnv :=
  { IncomingEnv.unrestricted with
    pbMem := keyMem
    leaf := aprsLeaves keyFloats (ascii "APRS") (keyMem.load (pb.data ++ [0])) pb.packetLen }

/-- A report of an object. -/
private def objectReport (info : String) (namelen : Nat)
    (queued : incomingParse (objectEnv (objectPb info namelen)) .verifiedInbound
      (ascii "OH7AA>APRS:" ++ ascii info) = .queued 1 (objectPb info namelen)) :
    PositionReport keyFloats where
  pb := objectPb info namelen
  env := objectEnv (objectPb info namelen)
  client := .verifiedInbound
  line := ascii "OH7AA>APRS:" ++ ascii info
  rc := 1
  dstcall := ascii "APRS"
  queued
  leaf_eq := rfl
  haspos := by show (fHaspos ||| fFromDownstr) &&& fHaspos ≠ 0; decide
  typed := by show (tAll ||| tObject) &&& (tPosition ||| tObject ||| tItem) ≠ 0; decide

/-- An object whose name fills its field is stored under it, and its kill removes it. -/
theorem history_keys_of_full_name :
    ∃ q k : PositionReport keyFloats, q.pb.sourceName = ascii "NINECHARS" ∧
      q.pb.storedKey = some (q.pb.sourceName, false) ∧
      k.pb.storedKey = some (q.pb.sourceName, true) := by
  let q := objectReport ";NINECHARS*092345z/5L!!<*e7>7P[" 9 (by decide)
  let k := objectReport ";NINECHARS_092345z/5L!!<*e7>7P[" 9 (by decide)
  have hstored := ((history_keys_agree_iff keyFloats q).1 (by decide)).mpr (by
    rw [Pbuf.KeyAgrees, if_neg (by decide)]
    decide)
  obtain ⟨key, hlive, hkill⟩ := ((history_keys_agree_iff keyFloats q).2.1 k (by decide) (by decide)
    (by decide) (by decide) (by decide)).mpr (by
      rw [Pbuf.KillAgrees, if_neg (by decide), if_pos (by decide)]
      decide)
  rw [hstored] at hlive
  cases hlive
  exact ⟨q, k, by decide, hstored, hkill⟩

/-- An object with a shorter name is stored with the spaces that follow its name. -/
theorem padded_object_not_found :
    ∃ q : PositionReport keyFloats, q.pb.isKill = false ∧ q.pb.sourceName = ascii "LEADER" ∧
      q.pb.storedKey ≠ some (q.pb.sourceName, false) ∧
      historydbLookup ⟨86400, fun _ => true⟩ 0 q.pb.sourceName
        (historydbInsert ⟨86400, fun _ => true⟩ 0 q.pb .init) = none :=
  ⟨objectReport ";LEADER   *092345z/5L!!<*e7>7P[" 6 (by decide), by decide, by decide, by decide,
    by decide⟩

end Aprsc
