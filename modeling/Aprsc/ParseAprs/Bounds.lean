-- SUMMARY: `parse_aprs` reads only the packet and its terminating CR LF NUL, unless an inner frame is too short for its type.
import Aprsc.Incoming.Rewrite

/-!
# Reads of the payload parser

The information field of a packet holds a frame. A third-party frame holds another
one, which is a suffix of it. The length tests of `parse_aprs_body` use the length
of the outermost frame, so that an inner frame may be too short for the reads that
its type makes.
-/

namespace Aprsc

/-! ## Frames -/

/-- The callsigns of a third-party header that has its `>` at `j` and its `:` at `k` pass
the checks. -/
def thirdPartyCallsOk (rest : Bytes) (j k : Nat) : Bool :=
  let dst := ((rest.drop (j + 1)).take (k - (j + 1))).takeWhile fun b =>
    !(b == comma || b == ch ':')
  let via := (rest.drop (j + 1 + dst.length)).take (k - (j + 1 + dst.length))
  !checkInvalidSrcDst (rest.take j) && !checkInvalidSrcDst dst && 2 ≤ (checkPathCalls via).getD 0

/-- The frame inside of a third-party frame, when its header passes the checks of
`parse_aprs_3rdparty`. -/
def thirdPartyInner (rest : Bytes) : Option Bytes :=
  match rest.findIdx? (· == ch ':') with
  | none => none
  | some k =>
      match (rest.take (min k (callsignlenMax + 1))).findIdx? (· == ch '>') with
      | none => none
      | some j =>
          if j + 1 < k ∧ thirdPartyCallsOk rest j k then some (rest.drop (k + 1)) else none

/-- The frames that are parsed: a frame, and those inside of it. -/
inductive Frames : Bytes → Bytes → Prop where
  | self (f : Bytes) : Frames f f
  | inner {rest f g : Bytes} (header : thirdPartyInner rest = some f) (inside : Frames f g) :
      Frames (ch '\x7d' :: rest) g

/-- A frame is too short for what is read of it, in a packet with an information field
of length `paclen`. -/
inductive TooShort (paclen : Nat) : Bytes → Prop where
  /-- The type is read from the CRLF, and a scan gets a negative length. -/
  | empty : TooShort paclen []
  /-- The tenth character of a message is read. -/
  | message {body : Bytes} (test : 11 ≤ paclen) (short : body.length < 7) :
      TooShort paclen (ch ':' :: body)
  /-- Five characters are compared after the recipient of a message. -/
  | telemetry {body : Bytes} (test : 17 ≤ paclen) (colon : body[9]? = some (ch ':'))
      (short : body.length < 12) : TooShort paclen (ch ':' :: body)

/-- One of the frames of a packet is too short. -/
def HasShortFrame (paclen : Nat) (f : Bytes) : Prop := ∃ g, Frames f g ∧ TooShort paclen g

theorem hasShortFrame_inner {paclen : Nat} {rest f : Bytes} (hf : thirdPartyInner rest = some f) :
    HasShortFrame paclen (ch '\x7d' :: rest) ↔ HasShortFrame paclen f := by
  constructor
  · rintro ⟨g, hframes, hshort⟩
    cases hframes with
    | self => cases hshort
    | inner header inside =>
      rw [hf] at header
      cases header
      exact ⟨g, inside, hshort⟩
  · rintro ⟨g, hframes, hshort⟩
    exact ⟨g, .inner hf hframes, hshort⟩

theorem hasShortFrame_none {paclen : Nat} {rest : Bytes} (hf : thirdPartyInner rest = none) :
    ¬ HasShortFrame paclen (ch '\x7d' :: rest) := by
  rintro ⟨g, hframes, hshort⟩
  cases hframes with
  | self => cases hshort
  | inner header => simp [hf] at header

theorem hasShortFrame_other {paclen : Nat} {f : Bytes} (hf : f.head? ≠ some (ch '\x7d')) :
    HasShortFrame paclen f ↔ TooShort paclen f := by
  constructor
  · rintro ⟨g, hframes, hshort⟩
    cases hframes with
    | self => exact hshort
    | inner => simp at hf
  · intro hshort
    exact ⟨f, .self f, hshort⟩

/-! ## The header of a third-party frame -/

section

variable {m : Area UInt8} {packetLen s : Int} {ends : Int → Prop} {rest : Bytes}

theorem all_pathCalls {viaStart pathEnd : Int} (h0 : 0 ≤ viaStart) (hend : pathEnd ≤ packetLen) :
    (pathCalls m viaStart pathEnd).All (Access.Within packetLen ends) := by
  unfold pathCalls
  split
  next hlt =>
    simp only [Traced.all_bind, Traced.all_tell, Traced.all_pure, and_true]
    exact ⟨by omega, by omega, by omega⟩
  next => simp

@[simp] theorem val_pathCalls {viaStart pathEnd : Int} :
    (pathCalls m viaStart pathEnd).val =
      checkPathCalls (m.slice viaStart (pathEnd - viaStart).toNat) := by
  unfold pathCalls
  split <;> rfl

/-- The callsigns are read inside of the header. -/
theorem all_check3rdpartyCalls {j k : Nat} (h0 : 0 ≤ s) (hj : j + 1 < k)
    (hk : s + k ≤ packetLen) :
    (check3rdpartyCalls m s (s + j) (s + k)).All (Access.Within packetLen ends) := by
  have hscan := m.scanUntil_bounds (fun b => b == comma || b == ch ':')
    (s + (k : Int) - (s + j + 1)).toNat (s + j + 1)
  have hall : (m.scanUntil (fun b => b == comma || b == ch ':')
      (s + (k : Int) - (s + j + 1)).toNat (s + j + 1)).All (Access.Within packetLen ends) := by
    apply Area.all_scanUntil
    intro i hi
    exact ⟨by omega, by omega, by omega⟩
  unfold check3rdpartyCalls
  simp only [Traced.all_bind, Area.all_bytes]
  refine ⟨⟨by omega, h0, by omega⟩, ?_⟩
  split
  next => simp
  next =>
    simp only [Traced.all_bind, Area.all_bytes, hall, true_and]
    refine ⟨⟨by omega, by omega, by omega⟩, ?_⟩
    split
    next => simp
    next =>
      rw [Traced.all_bind]
      refine ⟨all_pathCalls (by omega) hk, ?_⟩
      split <;> simp

/-- The checks in terms of the text of the header. -/
theorem val_check3rdpartyCalls {j k : Nat} (hat : m.At s rest) (hj : j + 1 < k)
    (hk : k ≤ rest.length) :
    (thirdPartyCallsOk rest j k = true ∧
        (check3rdpartyCalls m s (s + j) (s + k)).val = .frame (s + j) (s + k)) ∨
      (thirdPartyCallsOk rest j k = false ∧
        ∃ rc, (check3rdpartyCalls m s (s + j) (s + k)).val = .invalid rc) := by
  unfold thirdPartyCallsOk
  simp only
  generalize hd : (((rest.drop (j + 1)).take (k - (j + 1))).takeWhile fun b =>
    !(b == comma || b == ch ':')) = dst
  have hpre : dst <+: (rest.drop (j + 1)).take (k - (j + 1)) := by
    rw [← hd]
    exact List.takeWhile_prefix _
  have hdl : dst.length ≤ k - (j + 1) := by
    have := hpre.length_le
    rw [List.length_take] at this
    omega
  have hsrc : (m.bytes s (s + (j : Int) - s)).val = rest.take j := by
    have hslice := @Area.At.slice_eq _ _ _ _ hat 0 j (by omega)
    rw [Area.val_bytes, show (s + (j : Int) - s).toNat = j by omega]
    simpa using hslice
  have hscan : (m.scanUntil (fun b => b == comma || b == ch ':')
      (s + (k : Int) - (s + j + 1)).toNat (s + j + 1)).val = s + j + 1 + dst.length := by
    have hslice := @Area.At.slice_eq _ _ _ _ hat (j + 1) (k - (j + 1)) (by omega)
    rw [Area.val_scanUntil, show (s + (k : Int) - (s + j + 1)).toNat = k - (j + 1) by omega,
      show s + (j : Int) + 1 = s + ((j + 1 : Nat) : Int) by omega, hslice, hd]
  have hdst : (m.bytes (s + j + 1) (s + j + 1 + (dst.length : Int) - (s + j + 1))).val = dst := by
    have hslice := @Area.At.slice_eq _ _ _ _ hat (j + 1) dst.length (by omega)
    rw [Area.val_bytes, show (s + j + 1 + (dst.length : Int) - (s + j + 1)).toNat = dst.length by omega,
      show s + (j : Int) + 1 = s + ((j + 1 : Nat) : Int) by omega, hslice]
    have htake := List.prefix_iff_eq_take.mp hpre
    rw [List.take_take, Nat.min_eq_left hdl] at htake
    exact htake.symm
  have hpath : (pathCalls m (s + j + 1 + dst.length) (s + k)).val =
      checkPathCalls ((rest.drop (j + 1 + dst.length)).take (k - (j + 1 + dst.length))) := by
    have hslice := @Area.At.slice_eq _ _ _ _ hat (j + 1 + dst.length) (k - (j + 1 + dst.length))
      (by omega)
    rw [val_pathCalls,
      show (s + (k : Int) - (s + j + 1 + dst.length)).toNat = k - (j + 1 + dst.length) by omega,
      show s + (j : Int) + 1 + dst.length = s + ((j + 1 + dst.length : Nat) : Int) by omega, hslice]
  unfold check3rdpartyCalls
  simp only [Traced.val_bind]
  split
  next hbad =>
    rw [hsrc] at hbad
    exact .inr ⟨by simp [hbad], _, rfl⟩
  next hgood =>
    rw [hsrc] at hgood
    simp only [Traced.val_bind, hscan]
    split
    next hbad =>
      rw [hdst] at hbad
      exact .inr ⟨by simp [hbad], _, rfl⟩
    next hgood' =>
      rw [hdst] at hgood'
      simp only [hgood, hgood', Traced.val_bind, hpath, Bool.not_false, Bool.and_self,
        Bool.true_and]
      split
      next n heq => exact .inl ⟨by simp [heq], rfl⟩
      next hno =>
        refine .inr ⟨?_, _, rfl⟩
        match hcalls : checkPathCalls _ with
        | none => simp
        | some 0 => simp
        | some 1 => simp
        | some (n + 2) => exact absurd hcalls (hno n)

variable (hat : m.At s rest) (h0 : 0 ≤ s) (hlen : packetLen - 2 - s = rest.length)
include hat h0 hlen

/-- The header is read inside of the frame, and tells the inner frame. -/
theorem parse3rdpartyHeader_spec :
    (parse3rdpartyHeader m packetLen s).All (Access.Within packetLen ends) ∧
      ((thirdPartyInner rest = none ∧
          ∀ srcEnd body, (parse3rdpartyHeader m packetLen s).val ≠ .frame srcEnd body) ∨
        ∃ srcEnd k, thirdPartyInner rest = some (rest.drop (k + 1)) ∧ k < rest.length ∧
          (parse3rdpartyHeader m packetLen s).val = .frame srcEnd (s + (k : Nat))) := by
  have hcolon : (m.memchr s (ch ':') (packetLen - 2 - s)).val =
      (rest.findIdx? (· == ch ':')).map fun i : Nat => s + (i : Int) := hat.val_search hlen _
  have hspan : (m.memchr s (ch ':') (packetLen - 2 - s)).All (Access.Within packetLen ends) :=
    Area.all_search.mpr ⟨by omega, h0, by omega⟩
  unfold parse3rdpartyHeader thirdPartyInner
  simp only [Traced.all_bind, Traced.val_bind, hcolon, hspan, true_and]
  cases hk : rest.findIdx? (· == ch ':') with
  | none => simp
  | some k =>
  have hkl : k < rest.length := (List.findIdx?_eq_some_iff_getElem.mp hk).1
  simp only [Option.map_some, Traced.all_bind, Traced.val_bind]
  -- the length of the search for the `>`
  generalize hn : (if s + (k : Int) - s < callsignlenMax + 1 then s + (k : Int) - s
    else callsignlenMax + 1) = n
  have hmin : n = (min k (callsignlenMax + 1) : Nat) := by
    rw [← hn]
    split <;> omega
  have hgt : (m.memchr s (ch '>') n).val = ((rest.take (min k (callsignlenMax + 1))).findIdx?
      (· == ch '>')).map fun i : Nat => s + (i : Int) := by
    have hsub : m.At s (rest.take (min k (callsignlenMax + 1))) := by
      rw [← List.take_append_drop (min k (callsignlenMax + 1)) rest, Area.at_append] at hat
      exact hat.1
    apply hsub.val_search
    rw [hmin, List.length_take]
    omega
  have hspan : (m.memchr s (ch '>') n).All (Access.Within packetLen ends) :=
    Area.all_search.mpr ⟨by omega, h0, by omega⟩
  simp only [hgt, hspan, true_and]
  cases hj : (rest.take (min k (callsignlenMax + 1))).findIdx? (· == ch '>') with
  | none => simp
  | some j =>
  simp only [Option.map_some]
  cases Nat.lt_or_ge (j + 1) k with
  | inr hge =>
    rw [if_pos (by omega), if_neg (by omega)]
    simp
  | inl hlt =>
    rw [if_neg (by omega)]
    refine ⟨all_check3rdpartyCalls h0 hlt (by omega), ?_⟩
    cases val_check3rdpartyCalls hat hlt (Nat.le_of_lt hkl) with
    | inl hgood =>
      right
      rw [if_pos ⟨hlt, hgood.1⟩]
      exact ⟨_, k, rfl, hkl, hgood.2⟩
    | inr hbad =>
      obtain ⟨hno, rc, hval⟩ := hbad
      left
      rw [hval]
      simp [hno]

end

/-! ## The types of a frame -/

section

variable {leaf : AprsLeaves} {m : Area UInt8} {packetLen p : Int} {ends : Int → Prop} {body : Bytes}
  {f : AprsFields}

theorem all_parsePosition {q bodyEnd : Int} (h0 : 0 ≤ q) (hq : q ≤ packetLen) :
    (parsePosition leaf m q bodyEnd f).All (Access.Within packetLen ends) := by
  unfold parsePosition
  simp only [Traced.all_bind, Area.all_read]
  refine ⟨⟨by omega, h0, by omega⟩, ?_⟩
  split
  · simp
  · split <;> simp

theorem all_parsePositionPacket {t : UInt8} {bodyEnd : Int} (h0 : 0 ≤ p) (hend : bodyEnd ≤ packetLen) :
    (parsePositionPacket leaf m t p bodyEnd f).All (Access.Within packetLen ends) := by
  unfold parsePositionPacket
  split
  next => simp
  next =>
    simp only
    apply all_parsePosition
    · split <;> omega
    · split <;> omega

theorem all_lookForPosition {bodyEnd : Int} (h0 : 0 ≤ p) (hp : p ≤ bodyEnd)
    (hend : bodyEnd ≤ packetLen) :
    (lookForPosition leaf m p bodyEnd f).All (Access.Within packetLen ends) := by
  unfold lookForPosition
  rw [Traced.all_bind]
  refine ⟨Area.all_search.mpr ⟨by omega, h0, by omega⟩, ?_⟩
  split
  next => simp
  next q hq =>
    have hbounds := m.memchr_bounds (by omega) hq
    split
    next => exact all_parsePosition (by omega) (by omega)
    next => simp

/-- A comparison stops at the first difference, so it does not go past the CR. -/
theorem all_strncmpEq {lit : Bytes} (hat : m.At p (body ++ [0x0D])) (h0 : 0 ≤ p)
    (hend : p + body.length ≤ packetLen) (hlit : 0x0D ∉ lit) :
    (strncmpEq m lit p).All (Access.Within packetLen ends) := by
  induction lit generalizing p body with
  | nil => simp [strncmpEq]
  | cons b bs ih =>
    simp only [strncmpEq, Traced.all_bind, Area.all_read]
    refine ⟨⟨by omega, h0, by omega⟩, ?_⟩
    split
    next heq =>
      cases body with
      | nil =>
        rw [List.nil_append, Area.at_cons] at hat
        rw [Area.val_read, hat.1] at heq
        have hb : 0x0D = b := by simpa using heq
        exact absurd (hb ▸ List.mem_cons_self) hlit
      | cons x body =>
        rw [List.cons_append, Area.at_cons] at hat
        rw [List.length_cons] at hend
        exact ih hat.2 (by omega) (by omega) fun hmem => hlit (List.mem_cons_of_mem _ hmem)
    next => simp

/-- A frame other than a message is read inside of the packet. -/
theorem all_parseAprsType_other {t : UInt8} {paclen : Int} (hat : m.At (p + 1) (body ++ [0x0D]))
    (h0 : 0 ≤ p) (hlen : packetLen = p + 1 + body.length + 2) (ht : t ≠ ch ':') :
    (parseAprsType leaf m packetLen paclen p t f).All (Access.Within packetLen ends) := by
  have hpos : ∀ (t : UInt8), (parsePositionPacket leaf m t (p + 1) (packetLen - 2) f).All
      (Access.Within packetLen ends) := fun t => all_parsePositionPacket (by omega) (by omega)
  have hlook : (lookForPosition leaf m (p + 1) (packetLen - 2) f).All
      (Access.Within packetLen ends) := all_lookForPosition (by omega) (by omega) (by omega)
  have hd : (do
      if ← strncmpEq m (ascii "X de ") (p + 1) then pure (inerrDisDx, f)
      else lookForPosition leaf m (p + 1) (packetLen - 2) f : Traced Access (Int × AprsFields)).All
        (Access.Within packetLen ends) := by
    rw [Traced.all_bind]
    refine ⟨all_strncmpEq hat (by omega) (by omega) (by decide), ?_⟩
    split
    · simp
    · exact hlook
  have hbang : (do
      if (← m.read (p + 1)) == ch '!' then pure (0, f.mark tWx)
      else parsePositionPacket leaf m t (p + 1) (packetLen - 2) f :
        Traced Access (Int × AprsFields)).All (Access.Within packetLen ends) := by
    rw [Traced.all_bind, Area.all_read]
    refine ⟨⟨by omega, by omega, by omega⟩, ?_⟩
    split
    · simp
    · exact hpos t
  -- the cases of the switch, in their order
  unfold parseAprsType
  refine (Traced.all_ite ..).mpr ⟨fun _ => by simp, fun _ => ?_⟩
  refine (Traced.all_ite ..).mpr ⟨fun _ => hbang, fun _ => ?_⟩
  refine (Traced.all_ite ..).mpr ⟨fun _ => hpos t, fun _ => ?_⟩
  refine (Traced.all_ite ..).mpr ⟨fun _ => by simp, fun _ => ?_⟩
  refine (Traced.all_ite ..).mpr ⟨fun hmsg => absurd (by simpa using hmsg) ht, fun _ => ?_⟩
  refine (Traced.all_ite ..).mpr ⟨fun _ => by simp, fun _ => ?_⟩
  refine (Traced.all_ite ..).mpr ⟨fun _ => by simp, fun _ => ?_⟩
  refine (Traced.all_ite ..).mpr ⟨fun _ => by simp, fun _ => ?_⟩
  refine (Traced.all_ite ..).mpr ⟨fun _ => by simp, fun _ => ?_⟩
  refine (Traced.all_ite ..).mpr ⟨fun _ => by simp, fun _ => ?_⟩
  refine (Traced.all_ite ..).mpr ⟨fun _ => hd, fun _ => ?_⟩
  refine (Traced.all_ite ..).mpr ⟨fun _ => by simp, fun _ => ?_⟩
  refine (Traced.all_ite ..).mpr ⟨fun _ => by simp, fun _ => ?_⟩
  refine (Traced.all_ite ..).mpr ⟨fun _ => by simp, fun _ => ?_⟩
  exact hlook

/-- The tenth character of a message, or what follows a short one. -/
theorem byte_nine_eq_colon (hat : m.At p (body ++ [0x0D, 0x0A, 0])) (hlong : 7 ≤ body.length) :
    m.byte (p + 9) = ch ':' ↔ body[9]? = some (ch ':') := by
  have hlt : 9 < (body ++ [0x0D, 0x0A, 0]).length := by
    rw [List.length_append]
    simp
    omega
  have hbyte := hat.byte_eq (List.getElem?_eq_getElem hlt)
  have hbyte : m.byte (p + 9) = (body ++ [0x0D, 0x0A, 0])[9] := hbyte
  rw [hbyte]
  cases Nat.lt_or_ge 9 body.length with
  | inl hin => simp [List.getElem_append_left hin, List.getElem?_eq_getElem hin]
  | inr hout =>
    -- CR, LF or NUL
    have hno : (body ++ [0x0D, 0x0A, 0])[9] ≠ ch ':' := by
      rw [List.getElem_append_right hout]
      have hall : ∀ n (hn : n < ([0x0D, 0x0A, 0] : Bytes).length),
          ([0x0D, 0x0A, 0] : Bytes)[n] ≠ ch ':' := by decide
      exact hall _ _
    simp [hno, List.getElem?_eq_none hout]

theorem all_isTelemetryMessage_iff {bodyLen : Int} (hat : m.At p (body ++ [0x0D, 0x0A, 0]))
    (h0 : 0 ≤ p) (hlen : packetLen = p + body.length + 2) :
    (isTelemetryMessage m p bodyLen).All (Access.Within packetLen ends) ↔
      7 ≤ body.length ∧ (16 ≤ bodyLen → body[9]? = some (ch ':') → 12 ≤ body.length) := by
  have hread : Access.Within packetLen ends (.span (p + 9) 1) ↔ 7 ≤ body.length := by
    constructor
    · intro h
      have := h.2.2
      omega
    · intro h
      exact ⟨by omega, by omega, by omega⟩
  have hbytes : Access.Within packetLen ends (.span (p + 10) 5) ↔ 12 ≤ body.length := by
    constructor
    · intro h
      have := h.2.2
      omega
    · intro h
      exact ⟨by omega, by omega, by omega⟩
  unfold isTelemetryMessage
  rw [Traced.all_bind, Area.all_read, hread]
  apply and_congr_right
  intro hlong
  rw [← byte_nine_eq_colon hat hlong]
  split
  next hcolon =>
    have hcolon : m.byte (p + 9) = ch ':' := by simpa using hcolon
    split
    next htest =>
      have htest : 16 ≤ bodyLen := by omega
      simp [hbytes, hcolon, htest]
    next htest =>
      have htest : ¬ 16 ≤ bodyLen := by omega
      simp [htest]
  next hcolon =>
    have hcolon : ¬ m.byte (p + 9) = ch ':' := by simpa using hcolon
    simp [hcolon]

/-- A message is read inside of the packet when it is long enough. -/
theorem all_preparseAprsMessage_iff {bodyLen : Int} (hat : m.At p (body ++ [0x0D, 0x0A, 0]))
    (h0 : 0 ≤ p) (hlen : packetLen = p + body.length + 2) :
    (preparseAprsMessage m p bodyLen f).All (Access.Within packetLen ends) ↔
      7 ≤ body.length ∧ (16 ≤ bodyLen → body[9]? = some (ch ':') → 12 ≤ body.length) := by
  have htelemetry : (isTelemetryMessage m p bodyLen).All (Access.Within packetLen ends) ↔ _ :=
    all_isTelemetryMessage_iff hat h0 hlen
  have hscan := m.scanUntil_bounds (fun b => b == ch ' ' || b == ch ':' || b == 0) callsignlenMax p
  have hmax : callsignlenMax = 9 := rfl
  unfold preparseAprsMessage memcmpEq
  simp only [Traced.all_bind, Area.all_bytes, Traced.all_pure, and_true, htelemetry]
  constructor
  · intro h
    exact h.2.2.2.1
  · intro h
    have h7 := h.1
    have hspan : ∀ len : Int, 0 ≤ len → len ≤ 9 → Access.Within packetLen ends (.span p len) :=
      fun len hlo hhi => ⟨hlo, h0, by omega⟩
    refine ⟨hspan _ (by decide) (by decide), hspan _ (by decide) (by decide),
      hspan _ (by decide) (by decide), h, ?_, hspan _ (by omega) (by omega)⟩
    apply Area.all_scanUntil
    intro i hi
    exact ⟨by omega, by omega, by omega⟩

theorem tooShort_message_iff {paclen : Nat} :
    TooShort paclen (ch ':' :: body) ↔ 11 ≤ paclen ∧
      ¬ (7 ≤ body.length ∧
        (16 ≤ (paclen : Int) - 1 → body[9]? = some (ch ':') → 12 ≤ body.length)) := by
  constructor
  · intro h
    cases h with
    | message test short => exact ⟨test, fun h => by omega⟩
    | telemetry test colon short =>
      refine ⟨by omega, fun h => ?_⟩
      have := h.2 (by omega) colon
      omega
  · rintro ⟨htest, hno⟩
    cases Nat.lt_or_ge body.length 7 with
    | inl hshort => exact .message htest hshort
    | inr hlong =>
      simp only [hlong, true_and, not_forall] at hno
      obtain ⟨h16, hcolon, hshort⟩ := hno
      exact .telemetry (by omega) hcolon (by omega)

/-- The type of a frame decides what is read of it. -/
theorem all_parseAprsType_iff {t : UInt8} {paclen : Nat}
    (hat : m.At p (t :: body ++ [0x0D, 0x0A, 0])) (h0 : 0 ≤ p)
    (hlen : packetLen = p + (t :: body).length + 2) :
    (parseAprsType leaf m packetLen paclen p t f).All (Access.Within packetLen ends) ↔
      ¬ TooShort paclen (t :: body) := by
  rw [List.cons_append, Area.at_cons] at hat
  rw [List.length_cons] at hlen
  cases decEq t (ch ':') with
  | isTrue ht =>
    subst ht
    have hcase : parseAprsType leaf m packetLen paclen p (ch ':') f =
        if (paclen : Int) ≥ 11 then
          preparseAprsMessage m (p + 1) (paclen - 1) (f.mark tMessage) else pure (0, f) := rfl
    rw [hcase, tooShort_message_iff]
    split
    next htest =>
      have htest : 11 ≤ paclen := by omega
      rw [all_preparseAprsMessage_iff hat.2 (by omega) (by omega)]
      simp [htest]
    next htest =>
      have htest : ¬ 11 ≤ paclen := by omega
      simp [htest]
  | isFalse ht =>
    have hcr : m.At (p + 1) (body ++ [0x0D]) := by
      have h := hat.2
      rw [show ([0x0D, 0x0A, 0] : Bytes) = [0x0D] ++ [0x0A, 0] from rfl, ← List.append_assoc,
        Area.at_append] at h
      exact h.1
    have hall := @all_parseAprsType_other leaf m packetLen p ends body f t paclen hcr h0 (by omega) ht
    simp only [hall, true_iff]
    intro hshort
    cases hshort with
    | message => exact ht rfl
    | telemetry => exact ht rfl

/-- An empty frame: the CR is taken for its type. -/
theorem not_all_parseAprsType_empty {paclen : Int} (hlen : packetLen = p + 2) :
    ¬ (parseAprsType leaf m packetLen paclen p 0x0D f).All (Access.Within packetLen ends) := by
  have hcase : parseAprsType leaf m packetLen paclen p 0x0D f =
      lookForPosition leaf m (p + 1) (packetLen - 2) f := rfl
  rw [hcase]
  unfold lookForPosition
  rw [Traced.all_bind]
  rintro ⟨hspan, -⟩
  have := (Area.all_search.mp hspan).1
  omega

/-- `parse_aprs_body` on a frame: it ends, and it reads inside of the packet unless one
of the frames is too short. -/
theorem parseAprsBody_spec {fuel paclen : Nat} {frame : Bytes} (hfuel : frame.length < fuel)
    (hat : m.At p (frame ++ [0x0D, 0x0A, 0])) (h0 : 0 ≤ p)
    (hlen : packetLen = p + frame.length + 2) (hpac : 1 ≤ paclen) :
    (parseAprsBody leaf m packetLen paclen fuel p f).val.isSome = true ∧
      ((parseAprsBody leaf m packetLen paclen fuel p f).All (Access.Within packetLen ends) ↔
        ¬ HasShortFrame paclen frame) := by
  induction fuel generalizing p frame f with
  | zero => omega
  | succ fuel ih =>
    have hread : Access.Within packetLen ends (.span p 1) := ⟨by omega, h0, by omega⟩
    have hpac : ¬ (paclen : Int) < 1 := by omega
    rw [parseAprsBody, if_neg hpac]
    simp only [Traced.val_bind, Traced.all_bind, Area.all_read, hread, true_and]
    cases frame with
    | nil =>
      have hbyte : (m.read p).val = 0x0D := ((Area.at_cons m).mp hat).1
      have hshort : HasShortFrame paclen [] := ⟨[], .self [], .empty⟩
      have htype : ((0x0D : UInt8) == ch '\x7d') = false := rfl
      simp only [hbyte, htype, Bool.false_eq_true, if_false, Traced.val_bind, Traced.val_pure,
        Option.isSome_some, Traced.all_bind, Traced.all_pure, and_true, true_and, hshort,
        not_true_eq_false, iff_false]
      exact not_all_parseAprsType_empty (by simpa using hlen)
    | cons t body =>
      have hbyte : (m.read p).val = t := ((Area.at_cons m).mp hat).1
      cases decEq t (ch '\x7d') with
      | isFalse ht =>
        have htype : (t == ch '\x7d') = false := by simpa using ht
        simp only [hbyte, htype, Bool.false_eq_true, if_false, Traced.val_bind, Traced.val_pure,
          Option.isSome_some, Traced.all_bind, Traced.all_pure, and_true, true_and]
        rw [hasShortFrame_other (by simpa using ht)]
        exact all_parseAprsType_iff hat h0 hlen
      | isTrue ht =>
        subst ht
        rw [List.length_cons] at hfuel hlen
        have hbody := hat
        rw [List.cons_append, Area.at_cons, Area.at_append] at hbody
        obtain ⟨hall, hspec⟩ := @parse3rdpartyHeader_spec m packetLen (p + 1) ends body hbody.2.1
          (by omega) (by omega)
        simp only [hbyte, beq_self_eq_true, if_true, Traced.val_bind, Traced.all_bind, hall, true_and]
        rcases hspec with ⟨hnone, hno⟩ | ⟨srcEnd, k, hinner, hk, hval⟩
        · simp only [hasShortFrame_none hnone, not_false_eq_true, iff_true]
          cases hh : (parse3rdpartyHeader m packetLen (p + 1)).val with
          | noMatch => simp
          | invalid rc => simp
          | frame srcEnd body => exact absurd hh (hno srcEnd body)
        · rw [hval, hasShortFrame_inner hinner]
          have hat' : m.At (p + 1 + k + 1) (body.drop (k + 1) ++ [0x0D, 0x0A, 0]) := by
            rw [List.cons_append, Area.at_cons, ← List.take_append_drop (k + 1) body,
              List.append_assoc, Area.at_append, List.length_take,
              Nat.min_eq_left (by omega)] at hat
            rw [show p + 1 + (k : Int) + 1 = p + 1 + ((k + 1 : Nat) : Int) by omega]
            exact hat.2.2
          apply ih _ hat' (by omega)
          · rw [List.length_drop]
            omega
          · rw [List.length_drop]
            omega

/-! ## Whole packets -/

/-- The scan over the digits of a CWOP callsign ends before the packet does. -/
theorem all_isCwop (hlen : 2 ≤ packetLen) :
    (isCwop m packetLen).All (Access.Within packetLen ends) := by
  have hspan : ∀ i : Int, 0 ≤ i → i ≤ packetLen → Access.Within packetLen ends (.span i 1) :=
    fun i hlo hhi => ⟨by omega, hlo, by omega⟩
  have hscan := m.scanUntil_bounds (fun b => !isDigit b) (packetLen - 2).toNat 2
  have hall : (m.scanUntil (fun b => !isDigit b) (packetLen - 2).toNat 2).All
      (Access.Within packetLen ends) := by
    apply Area.all_scanUntil
    intro i hi
    exact hspan _ (by omega) (by omega)
  unfold isCwop
  rw [Traced.all_bind, Area.all_read]
  refine ⟨hspan 1 (by omega) (by omega), ?_⟩
  split
  next =>
    rw [Traced.all_bind, Area.all_read]
    refine ⟨hspan 0 (by omega) (by omega), ?_⟩
    split
    next =>
      simp only [Traced.all_bind, Area.all_read, hall, true_and, Traced.all_pure, and_true]
      exact hspan _ (by omega) (by omega)
    next => simp
  next => simp

/-- `parse_aprs` on a packet with the given information field. -/
theorem parseAprs_spec {pre info : Bytes} (hat : m.At 0 (pre ++ (info ++ [0x0D, 0x0A, 0])))
    (hlen : packetLen = pre.length + info.length + 2) (hinfo : info ≠ []) :
    (parseAprs leaf m packetLen pre.length f).val.isSome = true ∧
      ((parseAprs leaf m packetLen pre.length f).All (Access.Within packetLen ends) ↔
        ¬ HasShortFrame info.length info) := by
  have hcwop : (isCwop m packetLen).All (Access.Within packetLen ends) := all_isCwop (by omega)
  rw [Area.at_append, Int.zero_add] at hat
  unfold parseAprs
  simp only [Traced.val_bind, Traced.all_bind, hcwop, true_and]
  rw [show packetLen - pre.length - 2 = (info.length : Int) by omega]
  exact parseAprsBody_spec (by omega) hat.2 (by omega) (by omega) (List.length_pos_of_ne_nil hinfo)

end

/-- Every packet that `incoming_parse` builds is parsed to its end, and every read and
every length of the parser stays inside of the packet and its CR LF NUL, unless one of
the frames in the information field is too short. Then some read or length does not. -/
theorem parse_aprs_reads_packet_iff (env : IncomingEnv) (c : Client) (s : Bytes) (h : Header)
    (out : QOut) (pb : Pbuf) (hok : parseHeader env.cfg s = .ok h)
    (hout : (qProcess env.cfg env.clientlist (env.mem.load s) c h.viaStart h.pathlen
      (originatedByClient c h s)).val = .ok out)
    (hpb : rewritePacket env c h s.length (originatedByClient c h s) (h.src s) out = .ok pb) :
    (parseAprsPbuf env pb).val.isSome = true ∧
      ((parseAprsPbuf env pb).All (Access.Within pb.packetLen fun _ => False) ↔
        ¬ HasShortFrame (h.info s).length (h.info s)) := by
  have hl := Loaded.of_parseHeader env.mem hok
  obtain ⟨-, -, cls, qc, flags, -, hqc, -, rfl⟩ := rewritePacket_passed hpb
  obtain ⟨via, -, hcut, hdata⟩ := hl.exists_copies hout (by simp [hqc])
  -- everything before the information field
  obtain ⟨pre, hpre⟩ : ∃ pre, pre = h.src s ++ ch '>' :: (h.dst s ++ (via ++ (out.newQ ++ [ch ':']))) :=
    ⟨_, rfl⟩
  have hsplit : out.data s.length h.pathlen = pre ++ (h.info s ++ [0x0D, 0x0A]) := by
    rw [hdata, hpre]
    simp
  have hstart : (out.pbuf h s.length flags qc env.tick).infoStart = pre.length := by
    have hsrc := hl.admitted.srcLen_eq
    have hvia := hl.admitted.viaStart_eq
    rw [hpre]
    simp only [QOut.pbuf, QOut.infoStart, hcut, List.length_append, List.length_cons, List.length_nil]
    omega
  have hlen : ((out.pbuf h s.length flags qc env.tick).packetLen : Int) =
      pre.length + (h.info s).length + 2 := by
    simp only [QOut.pbuf, hsplit, List.length_append, List.length_cons, List.length_nil]
    omega
  have hat : (env.pbMem.load ((out.pbuf h s.length flags qc env.tick).data ++ [0])).At 0
      (pre ++ (h.info s ++ [0x0D, 0x0A, 0])) := by
    have hat := env.pbMem.at_load ((out.pbuf h s.length flags qc env.tick).data ++ [0])
    simpa [QOut.pbuf, hsplit] using hat
  unfold parseAprsPbuf
  rw [hstart]
  exact parseAprs_spec hat hlen hl.admitted.info_ne

/-- A server without any restriction. -/
private def framesEnv : IncomingEnv := .unrestricted

/-- A verified client on an inbound port. -/
private def framesClient : Client := .verifiedInbound

/-- A status report in a third-party frame. -/
theorem parse_aprs_reads_inner_status :
    ∃ out pb, rewritePacket framesEnv framesClient ⟨5, 10, 10, 20⟩ 49 false (ascii "OH7AB") out =
        .ok pb ∧
      (parseAprsPbuf framesEnv pb).All (Access.Within pb.packetLen fun _ => False) := by
  have hok : parseHeader framesEnv.cfg (ascii "OH7AB>APRS,qAR,OH7AC:\x7dOH7AD>APRS,WIDE1,OH7AE*:>ok") =
      .ok ⟨5, 10, 10, 20⟩ := rfl
  obtain ⟨out, hout⟩ : ∃ out, (qProcess framesEnv.cfg framesEnv.clientlist
      (framesEnv.mem.load (ascii "OH7AB>APRS,qAR,OH7AC:\x7dOH7AD>APRS,WIDE1,OH7AE*:>ok")) framesClient
      10 20 false).val = .ok out := ⟨_, rfl⟩
  obtain ⟨pb, hpb⟩ : ∃ pb, rewritePacket framesEnv framesClient ⟨5, 10, 10, 20⟩ 49 false
      (ascii "OH7AB") out = .ok pb := by
    cases hout
    exact ⟨_, rfl⟩
  refine ⟨out, pb, hpb, (parse_aprs_reads_packet_iff framesEnv framesClient _ _ out pb hok hout
    hpb).2.mpr ?_⟩
  have hinner : thirdPartyInner (ascii "OH7AD>APRS,WIDE1,OH7AE*:>ok") = some (ascii ">ok") := rfl
  have hother : (ascii ">ok").head? ≠ some (ch '\x7d') := by decide
  intro hshort
  cases (hasShortFrame_other hother).mp ((hasShortFrame_inner hinner).mp hshort)

/-- A third-party frame with an empty information field: `!` is searched in a range of
length -1. -/
theorem parse_aprs_reads_outside :
    ¬ ∀ (env : IncomingEnv) (c : Client) (s : Bytes) (h : Header) (out : QOut) (pb : Pbuf),
      parseHeader env.cfg s = .ok h →
      (qProcess env.cfg env.clientlist (env.mem.load s) c h.viaStart h.pathlen
        (originatedByClient c h s)).val = .ok out →
      rewritePacket env c h s.length (originatedByClient c h s) (h.src s) out = .ok pb →
      (parseAprsPbuf env pb).All (Access.Within pb.packetLen fun _ => False) := by
  intro hall
  have hok : parseHeader framesEnv.cfg (ascii "OH7AB>APRS,qAR,OH7AC:\x7dOH7AD>APRS,WIDE1,OH7AE*:") =
      .ok ⟨5, 10, 10, 20⟩ := rfl
  have hspan := hall framesEnv framesClient _ _ _ _ hok rfl rfl (.span 47 (-1)) (by decide)
  exact absurd hspan.1 (by decide)

end Aprsc
