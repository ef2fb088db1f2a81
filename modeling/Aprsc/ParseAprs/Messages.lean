-- SUMMARY: `parse_aprs_message` starts its search for an id behind the packet, and what it finds depends on the bytes there.
import Aprsc.ParseAprs.Body

/-!
# Messages to the server

The text of a message may end with a brace and an id. The length of the body that
`parse_aprs_message` starts with counts the 11 characters in front of the text, too, and
the search for the last brace starts that many characters too late.
-/

namespace Aprsc

/-- `struct aprs_message_t`. Pointers are offsets. -/
structure MessageParts where
  body : Int
  bodyLen : Int
  msgid : Option Int
  msgidLen : Int
  isAck : Bool
deriving Repr, DecidableEq

/-- The start of an acknowledgement. -/
def ack : Bytes := ascii "ack"

/-- A message that is an acknowledgement without an id. -/
def checkAck (m : Area UInt8) (am : MessageParts) : Traced Access MessageParts :=
  if am.msgidLen = 0 ∧ am.bodyLen > 3 then do
    if ← strncmpEq m ack am.body then
      pure { am with
        isAck := true, msgid := some (am.body + 3), msgidLen := am.bodyLen - 3, bodyLen := 0 }
    else pure am
  else pure am

/-- `parse_aprs_message`. -/
def parseAprsMessage (m : Area UInt8) (packettype : UInt16) (packetLen infoStart : Int) :
    Traced Access (Int × MessageParts) :=
  if packettype &&& tMessage = 0 then pure (-1, ⟨0, 0, none, 0, false⟩)
  else do
    if (← m.read (infoStart + 10)) != ch ':' then pure (-2, ⟨0, 0, none, 0, false⟩)
    else do
      let body := infoStart + 11
      let bodyLen := packetLen - 2 - infoStart
      let p ← m.scanBack (· == ch '\x7b') body (bodyLen - 1).toNat
      let am : MessageParts :=
        if (← m.read p) == ch '\x7b' then
          ⟨body, p - body, some (p + 1), packetLen - 2 - (p + 1), false⟩
        else ⟨body, bodyLen, none, 0, false⟩
      let am ← checkAck m am
      pure (0, am)

/-! ## What it is for -/

/-- The parts of a text are found exactly. -/
structure MessageResult (text : Bytes) (body : Int) (r : Int × MessageParts) : Prop where
  rc : r.1 = 0
  body_eq : r.2.body = body
  bodyLen_nonneg : 0 ≤ r.2.bodyLen
  msgidLen_nonneg : 0 ≤ r.2.msgidLen
  /-- The body is the text before the last brace, and the id is after it. -/
  withId : ∀ pre id, text = pre ++ ch '\x7b' :: id → ch '\x7b' ∉ id → ¬(id = [] ∧ ack <+: pre) →
    r.2.bodyLen = pre.length ∧ r.2.msgid = some (body + pre.length + 1) ∧ r.2.msgidLen = id.length
  /-- Without an id, that of an acknowledgement is after `ack`. -/
  ofAck : ∀ pre, (text = pre ∧ ch '\x7b' ∉ text ∨ text = pre ++ [ch '\x7b']) → ack <+: pre →
    r.2.msgidLen = (pre.length - 3 : Nat) ∧ (r.2.msgidLen = 0 ∨ r.2.msgid = some (body + 3))
  /-- The body of any other message without an id is the whole text. -/
  plain : ch '\x7b' ∉ text → ¬ack <+: text → r.2.bodyLen = text.length ∧ r.2.msgidLen = 0

/-- The parts are found exactly, and no byte after the NUL of the packet is looked at. -/
structure MessageExact (text : Bytes) (body packetLen : Int)
    (t : Traced Access (Int × MessageParts)) : Prop where
  result : MessageResult text body t.val
  within : t.All (Access.Within packetLen fun _ => True)

/-! ## The search -/

section
variable {m : Area UInt8} {packettype : UInt16} {packetLen infoStart : Int}

/-- The search starts ten bytes after the text. -/
theorem parseAprsMessage_reads (hm : packettype &&& tMessage ≠ 0)
    (hlen : infoStart + 13 ≤ packetLen) (hcolon : m.byte (infoStart + 10) = ch ':')
    {P : Access → Prop} (h : (parseAprsMessage m packettype packetLen infoStart).All P) :
    P (.span (packetLen + 8) 1) := by
  unfold parseAprsMessage at h
  rw [if_neg hm] at h
  simp only [Traced.all_bind, Area.val_read, hcolon, bne_self_eq_false, Bool.false_eq_true,
    if_false] at h
  obtain ⟨-, hscan, -⟩ := h
  obtain ⟨n, hn⟩ : ∃ n, (packetLen - 2 - infoStart - 1).toNat = n + 1 :=
    Nat.exists_eq_add_one_of_ne_zero (by omega)
  rw [hn, Area.scanBack] at hscan
  simp only [Traced.all_bind, Area.all_read] at hscan
  have hstart : infoStart + 11 + ((n : Int) + 1) = packetLen + 8 := by omega
  rw [← hstart]
  exact hscan.1

/-- What the parser comes to, by the place where the search ends. -/
theorem parseAprsMessage_val (hm : packettype &&& tMessage ≠ 0)
    (hcolon : m.byte (infoStart + 10) = ch ':') {p : Int}
    (hp : (m.scanBack (· == ch '\x7b') (infoStart + 11) (packetLen - 2 - infoStart - 1).toNat).val =
      p) :
    (parseAprsMessage m packettype packetLen infoStart).val =
      (0, (checkAck m (if m.byte p = ch '\x7b' then
        ⟨infoStart + 11, p - (infoStart + 11), some (p + 1), packetLen - 2 - (p + 1), false⟩
      else ⟨infoStart + 11, packetLen - 2 - infoStart, none, 0, false⟩)).val) := by
  unfold parseAprsMessage
  rw [if_neg hm]
  simp only [Traced.val_bind, Area.val_read, hcolon, bne_self_eq_false, Bool.false_eq_true, if_false,
    hp, Traced.val_pure]
  by_cases hb : m.byte p = ch '\x7b'
  · simp only [hb, beq_self_eq_true, if_true]
  · simp only [hb, beq_eq_false_iff_ne.mpr hb, Bool.false_eq_true, if_false]

/-- The search stops at the last brace. -/
theorem scan_some {body : Int} {n : Nat} {pre post : Bytes}
    (h : m.slice body (n + 1) = pre ++ ch '\x7b' :: post) (hpost : ch '\x7b' ∉ post) :
    (m.scanBack (· == ch '\x7b') body n).val = body + pre.length ∧
      m.byte (body + pre.length) = ch '\x7b' := by
  have hlen := congrArg List.length h
  simp only [Area.length_slice, List.length_append, List.length_cons] at hlen
  have hget : ∀ i : Nat, i < n + 1 →
      some (m.byte (body + i)) = (pre ++ ch '\x7b' :: post)[i]? := by
    intro i hi
    rw [← h, Area.getElem?_slice, if_pos hi]
  have hbrace : m.byte (body + pre.length) = ch '\x7b' := by
    have hg := hget pre.length (by omega)
    rw [List.getElem?_append_right (Nat.le_refl _), Nat.sub_self, List.getElem?_cons_zero] at hg
    exact Option.some.inj hg
  refine ⟨Area.val_scanBack m (by omega) (.inr (beq_iff_eq.mpr hbrace)) fun i hlo hhi => ?_, hbrace⟩
  have hg := hget i (by omega)
  obtain ⟨j, rfl⟩ : ∃ j, i = pre.length + (j + 1) := ⟨i - pre.length - 1, by omega⟩
  rw [List.getElem?_append_right (by omega), Nat.add_sub_cancel_left, List.getElem?_cons_succ] at hg
  refine beq_eq_false_iff_ne.mpr fun heq => hpost ?_
  rw [heq] at hg
  exact List.mem_of_getElem? hg.symm

theorem scan_none {body : Int} {n : Nat} (h : ch '\x7b' ∉ m.slice body (n + 1)) :
    (m.scanBack (· == ch '\x7b') body n).val = body ∧ m.byte body ≠ ch '\x7b' := by
  have hmiss : ∀ i : Nat, i ≤ n → m.byte (body + i) ≠ ch '\x7b' := fun i hi heq =>
    h (m.mem_slice.mpr ⟨body + i, by omega, by omega, heq⟩)
  refine ⟨?_, by simpa using hmiss 0 (by omega)⟩
  have hval := @Area.val_scanBack _ m (· == ch '\x7b') body 0 n
    (by omega) (.inl rfl) fun i _ hi => beq_eq_false_iff_ne.mpr (hmiss i hi)
  simpa using hval

theorem strncmpEq_val {lit : Bytes} {p : Int} :
    (strncmpEq m lit p).val = true ↔ m.At p lit := by
  induction lit generalizing p with
  | nil => simp [strncmpEq]
  | cons b lit ih =>
    rw [strncmpEq, Traced.val_bind, Area.val_read, Area.at_cons]
    by_cases hb : m.byte p = b
    · simp [hb, ih]
    · simp [hb]

/-- An acknowledgement without an id is one that is long enough. -/
theorem checkAck_val (am : MessageParts) :
    (checkAck m am).val = am ∧ ¬(am.msgidLen = 0 ∧ am.bodyLen > 3 ∧ m.At am.body ack) ∨
      (checkAck m am).val = { am with
        isAck := true, msgid := some (am.body + 3), msgidLen := am.bodyLen - 3, bodyLen := 0 } ∧
        am.msgidLen = 0 ∧ am.bodyLen > 3 ∧ m.At am.body ack := by
  unfold checkAck
  split
  · rename_i hlong
    rw [Traced.val_bind]
    by_cases hack : m.At am.body ack
    · rw [if_pos (strncmpEq_val.mpr hack)]
      exact .inr ⟨rfl, hlong.1, hlong.2, hack⟩
    · rw [if_neg fun h => hack (strncmpEq_val.mp h)]
      exact .inl ⟨rfl, fun h => hack h.2.2⟩
  · rename_i hlong
    exact .inl ⟨rfl, fun h => hlong ⟨h.1, h.2.1⟩⟩

end

/-! ## Results -/

/-- The last occurrence of an element splits a list. -/
theorem exists_last {c : UInt8} {xs : Bytes} (h : c ∈ xs) :
    ∃ pre post, xs = pre ++ c :: post ∧ c ∉ post := by
  obtain ⟨as, bs, heq, hnot⟩ := List.eq_append_cons_of_mem (List.mem_reverse.mpr h)
  refine ⟨bs.reverse, as.reverse, ?_, fun hin => hnot (List.mem_reverse.mp hin)⟩
  rw [← List.reverse_reverse xs, heq]
  simp

theorem last_unique {c : UInt8} {pre post pre' post' : Bytes}
    (h : pre ++ c :: post = pre' ++ c :: post') (hpost : c ∉ post) (hpost' : c ∉ post') :
    pre = pre' ∧ post = post' := by
  obtain ⟨mid, rfl, hmid⟩ | ⟨mid, rfl, hmid⟩ := List.append_eq_append_iff.mp h
  · cases mid with
    | nil => exact ⟨by simp, (List.cons.inj hmid).2⟩
    | cons b mid =>
      obtain ⟨-, rfl⟩ := List.cons.inj hmid
      exact absurd (by simp) hpost
  · cases mid with
    | nil => exact ⟨by simp, (List.cons.inj hmid).2.symm⟩
    | cons b mid =>
      obtain ⟨-, rfl⟩ := List.cons.inj hmid
      exact absurd (by simp) hpost'

section
variable {m : Area UInt8} {packettype : UInt16} {infoStart : Int} {text stale : Bytes}

/-- A text starts as the memory does. -/
theorem ack_prefix_iff {body : Int} {pre rest : Bytes} {n : Nat}
    (h : m.slice body n = pre ++ rest) (hlen : 3 ≤ pre.length) :
    ack <+: pre ↔ m.At body ack := by
  have hpre : m.At body pre := by
    have hall : m.At body (pre ++ rest) := by
      rw [Area.At, ← h, Area.length_slice]
    exact ((Area.at_append m).mp hall).1
  constructor
  · rintro ⟨t, rfl⟩
    exact ((Area.at_append m).mp hpre).1
  · intro hack
    rw [← List.take_append_drop 3 pre, Area.at_append] at hpre
    have hthree : pre.take 3 = ack := by
      have h1 := hpre.1
      rw [Area.At, List.length_take, Nat.min_eq_left hlen] at h1
      exact h1.symm.trans hack
    exact ⟨pre.drop 3, by rw [← hthree, List.take_append_drop]⟩

/-- The parts are found exactly if and only if there is a brace in the text and none in the
eleven bytes after it. -/
theorem messageResult_iff (hm : packettype &&& tMessage ≠ 0)
    (hcolon : m.byte (infoStart + 10) = ch ':')
    (htext : m.slice (infoStart + 11) (text.length + 11) = text ++ stale) :
    MessageResult text (infoStart + 11)
        (parseAprsMessage m packettype (infoStart + 11 + text.length + 2) infoStart).val ↔
      ch '\x7b' ∈ text ∧ ch '\x7b' ∉ stale := by
  have hsearch : (infoStart + 11 + (text.length : Int) + 2 - 2 - infoStart - 1).toNat =
      text.length + 10 := by omega
  by_cases hstale : ch '\x7b' ∈ stale
  · -- a stale brace
    refine iff_of_false (fun hr => ?_) fun h => h.2 hstale
    obtain ⟨pre, post, rfl, hpost⟩ := exists_last hstale
    rw [← List.append_assoc] at htext
    obtain ⟨hp, hb⟩ := scan_some htext hpost
    rw [parseAprsMessage_val hm hcolon (hsearch ▸ hp), if_pos hb] at hr
    have hlen := hr.msgidLen_nonneg
    obtain ⟨hval, -⟩ | ⟨-, hzero, -⟩ := checkAck_val (m := m) ⟨infoStart + 11,
      infoStart + 11 + ((text ++ pre).length : Nat) - (infoStart + 11),
      some (infoStart + 11 + ((text ++ pre).length : Nat) + 1),
      infoStart + 11 + (text.length : Int) + 2 - 2 -
        (infoStart + 11 + ((text ++ pre).length : Nat) + 1), false⟩
    · rw [hval] at hlen
      dsimp only at hlen
      rw [List.length_append] at hlen
      omega
    · dsimp only at hzero
      rw [List.length_append] at hzero
      omega
  by_cases hin : ch '\x7b' ∈ text
  · -- the last brace is in the text
    refine iff_of_true ?_ ⟨hin, hstale⟩
    obtain ⟨pre, id, rfl, hid⟩ := exists_last hin
    have hregion := htext
    rw [List.append_assoc, List.cons_append] at htext
    obtain ⟨hp, hb⟩ := scan_some htext (by simp [hid, hstale])
    have hlen : (infoStart + 11 + ((pre ++ ch '\x7b' :: id).length : Int) + 2 - 2 -
        (infoStart + 11 + (pre.length : Int) + 1)) = id.length := by
      rw [List.length_append, List.length_cons]
      omega
    have hbody : infoStart + 11 + (pre.length : Int) - (infoStart + 11) = pre.length := by omega
    rw [parseAprsMessage_val hm hcolon (hsearch ▸ hp), if_pos hb, hlen, hbody]
    obtain ⟨hval, hnot⟩ | ⟨hval, hzero, hlong, hack⟩ := checkAck_val (m := m) ⟨infoStart + 11,
      pre.length, some (infoStart + 11 + (pre.length : Int) + 1), id.length, false⟩
    · rw [hval]
      refine ⟨rfl, rfl, Int.natCast_nonneg _, Int.natCast_nonneg _, ?_, ?_, fun h => absurd hin h⟩
      · intro pre' id' heq hid' _
        obtain ⟨rfl, rfl⟩ := last_unique heq hid hid'
        exact ⟨rfl, rfl, rfl⟩
      · rintro pre' (⟨-, hno⟩ | heq) hack
        · exact absurd hin hno
        · obtain ⟨rfl, rfl⟩ := last_unique heq hid nofun
          have hle : 3 ≤ pre.length := hack.length_le
          have hat := (ack_prefix_iff htext hle).mp hack
          have hshort : ¬(pre.length : Int) > 3 := fun hgt => hnot ⟨rfl, hgt, hat⟩
          have hthree : pre.length = 3 := by omega
          rw [hthree]
          exact ⟨rfl, .inl rfl⟩
    · obtain rfl : id = [] := List.length_eq_zero_iff.mp (Int.natCast_eq_zero.mp hzero)
      have hlong' : 3 < pre.length := Int.ofNat_lt.mp hlong
      have hpref := (ack_prefix_iff htext (Nat.le_of_lt hlong')).mpr hack
      rw [hval]
      refine ⟨rfl, rfl, Int.le_refl 0, by dsimp only; omega, ?_, ?_, fun h => absurd hin h⟩
      · intro pre' id' heq hid' hnot
        obtain ⟨rfl, rfl⟩ := last_unique heq nofun hid'
        exact absurd ⟨rfl, hpref⟩ hnot
      · rintro pre' (⟨-, hno⟩ | heq) -
        · exact absurd hin hno
        · obtain ⟨rfl, -⟩ := last_unique heq nofun nofun
          exact ⟨by dsimp only; omega, .inr rfl⟩
  · -- no brace at all: the body is eleven characters too long
    refine iff_of_false (fun hr => ?_) fun h => hin h.1
    have hno : ch '\x7b' ∉ m.slice (infoStart + 11) (text.length + 10 + 1) := by
      rw [htext]
      simp [hin, hstale]
    obtain ⟨hp, hb⟩ := scan_none hno
    rw [parseAprsMessage_val hm hcolon (hsearch ▸ hp), if_neg hb] at hr
    obtain ⟨hval, hnot⟩ | ⟨hval, -, -, hack⟩ := checkAck_val (m := m) ⟨infoStart + 11,
      infoStart + 11 + (text.length : Int) + 2 - 2 - infoStart, none, 0, false⟩
    · rw [hval] at hr
      have hplain : ¬ack <+: text := fun hpre => by
        have hle : 3 ≤ text.length := hpre.length_le
        exact hnot ⟨rfl, by dsimp only; omega, (ack_prefix_iff htext hle).mp hpre⟩
      have hlen := (hr.plain hin hplain).1
      dsimp only at hlen
      omega
    · rw [hval] at hr
      have hid : (infoStart + 11 + (text.length : Int) + 2 - 2 - infoStart - 3) ≠ 0 ∧
          (infoStart + 11 + (text.length : Int) + 2 - 2 - infoStart - 3) ≠
            (text.length - 3 : Nat) := by omega
      by_cases hpre : ack <+: text
      · exact hid.2 (hr.ofAck text (.inl ⟨rfl, hin⟩) hpre).1
      · exact hid.1 (hr.plain hin hpre).2

end

/-- The parser looks behind the NUL of every message, and its results are exact if and only
if there is an id and no brace in the eight bytes after the packet. -/
theorem parse_aprs_message_never_exact {m : Area UInt8} {packettype : UInt16} {infoStart : Int}
    {text stale : Bytes} (hm : packettype &&& tMessage ≠ 0)
    (hcolon : m.byte (infoStart + 10) = ch ':')
    (htext : m.At (infoStart + 11) (text ++ (0x0D :: 0x0A :: 0 :: stale))) (hstale : stale.length = 8) :
    ¬MessageExact text (infoStart + 11) (infoStart + 11 + text.length + 2)
        (parseAprsMessage m packettype (infoStart + 11 + text.length + 2) infoStart) ∧
      (MessageResult text (infoStart + 11)
          (parseAprsMessage m packettype (infoStart + 11 + text.length + 2) infoStart).val ↔
        ch '\x7b' ∈ text ∧ ch '\x7b' ∉ stale) := by
  constructor
  · intro hexact
    have hread := parseAprsMessage_reads hm (by omega) hcolon hexact.within
    have hend : infoStart + 11 + (text.length : Int) + 2 + 8 + 1 ≤
        infoStart + 11 + text.length + 2 + 1 := hread.2.2
    omega
  · have hslice : m.slice (infoStart + 11) (text.length + 11) = text ++ (0x0D :: 0x0A :: 0 :: stale) := by
      have hlen : (text ++ (0x0D :: 0x0A :: 0 :: stale)).length = text.length + 11 := by
        simp [hstale]
      rw [← hlen]
      exact htext
    rw [messageResult_iff hm hcolon hslice]
    have hchars : ch '\x7b' ∉ [0x0D, 0x0A, 0] := by decide
    rw [show (0x0D :: 0x0A :: 0 :: stale : Bytes) = [0x0D, 0x0A, 0] ++ stale from rfl,
      List.mem_append, or_iff_right hchars]

/-- A message in a buffer of zeros. -/
private def messageArea (text : Bytes) : Area UInt8 :=
  Area.load ⟨fun _ => 0, fun _ => none⟩ (ascii "OH7AA>APRS::SERVER   :" ++ text ++ [0x0D, 0x0A])

theorem parse_aprs_message_never_exact_id :
    ¬MessageExact (ascii "hi\x7b1") (11 + 11) (11 + 11 + (ascii "hi\x7b1").length + 2)
        (parseAprsMessage (messageArea (ascii "hi\x7b1")) tMessage
          (11 + 11 + (ascii "hi\x7b1").length + 2) 11) ∧
      (MessageResult (ascii "hi\x7b1") (11 + 11)
          (parseAprsMessage (messageArea (ascii "hi\x7b1")) tMessage
            (11 + 11 + (ascii "hi\x7b1").length + 2) 11).val ↔
        ch '\x7b' ∈ ascii "hi\x7b1" ∧ ch '\x7b' ∉ List.replicate 8 (0 : UInt8)) :=
  parse_aprs_message_never_exact (by decide) (by decide) rfl rfl

/-- The body of a message without an id is eleven characters too long. -/
theorem message_body_too_long :
    ¬∀ (m : Area UInt8) (packettype : UInt16) (infoStart : Int) (text stale : Bytes),
      packettype &&& tMessage ≠ 0 → m.byte (infoStart + 10) = ch ':' →
      m.At (infoStart + 11) (text ++ (0x0D :: 0x0A :: 0 :: stale)) → stale.length = 8 →
      MessageExact text (infoStart + 11) (infoStart + 11 + text.length + 2)
        (parseAprsMessage m packettype (infoStart + 11 + text.length + 2) infoStart) := by
  intro h
  have hexact := h (messageArea (ascii "hello")) tMessage 11 (ascii "hello") (List.replicate 8 0)
    (by decide) (by decide) rfl rfl
  have hlen := (hexact.result.plain (by decide) (by decide)).1
  revert hlen
  decide

end Aprsc
