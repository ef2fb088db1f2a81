-- SUMMARY: The header checks at the start of `incoming_parse`, and the shape of every header they admit.
import Aprsc.Incoming.Client
import Mathlib.Data.List.TakeWhile

/-!
# Packet headers

The first half of `incoming_parse` finds the parts of a line
`SRCCALL>DSTCALL,PATH,PATH:INFO` and checks them, before the Q construct is
looked at. A header it admits is described by the callsigns and the list of its
path entries.
-/

namespace Aprsc

def packetlenMin : Nat := 10

/-- The separator of path entries. -/
abbrev comma : UInt8 := ch ','

/-- The pointers of `incoming_parse` into an admitted line, as offsets. -/
structure Header where
  /-- `src_end`, at the `>`. -/
  srcLen : Nat
  dstcallEndOrSsid : Nat
  /-- `dstcall_end`, where the digipeater path starts. -/
  viaStart : Nat
  /-- The offset of the `:` after the path. -/
  pathlen : Nat
deriving Repr, DecidableEq

/-! ## Checks -/

/-- `digi_path_drop`. -/
def digiPathDrop (via : Bytes) : Bool :=
  (findSub (ascii ",NOGATE") via).isSome || (findSub (ascii ",RFONLY") via).isSome

/-- A path entry that `check_path_calls` takes for a Q construct. -/
def isQConstruct (e : Bytes) : Bool := e.head? == some (ch 'q') && e.length == 3

/-- The loop of `check_path_calls` over the text that is left of the path: the
number of entries found, or `none` when one of them is invalid. `fuel` bounds the
number of entries. -/
def checkPathCallsLoop : (fuel : Nat) → (afterQ : Bool) → Bytes → Option Nat
  | 0, _, _ => some 0
  | fuel + 1, afterQ, rest =>
      if rest.isEmpty then some 0
      else
        let e := rest.takeWhile (· != comma)
        if isQConstruct e then
          (checkPathCallsLoop fuel true (rest.drop (e.length + 1))).map (· + 1)
        else if checkInvalidPathCallsign e afterQ then none
        else (checkPathCallsLoop fuel afterQ (rest.drop (e.length + 1))).map (· + 1)

/-- `check_path_calls`. -/
def checkPathCalls (via : Bytes) : Option Nat :=
  checkPathCallsLoop via.length false (via.drop 1)

/-- The check for third-party packets whose header has been on an IP network. -/
def check3rdPartyIp (info : Bytes) : Bool :=
  match info with
  | b :: party =>
      if b == ch '}' then
        match party.findIdx? (· == ch ':') with
        | some n =>
            (findSub (ascii ",TCPIP") (party.take n)).isSome ||
              (findSub (ascii ",TCPXX") (party.take n)).isSome
        | none => false
      else false
  | [] => false

/-- `disallow_srccalls`. -/
def disallowSrccalls : List Bytes := [ascii "N0CALL", ascii "NOCALL", ascii "SERVER"]

/-- The checks on the path and the payload, in `incoming_parse` after the
destination callsign. -/
def checkHeader (s : Bytes) (h : Header) : Except Int Header :=
  let via := (s.take h.pathlen).drop h.viaStart
  if digiPathDrop via then .error inerrNogate
  else if (checkPathCalls via).isNone then .error inerrInvPathCall
  else if check3rdPartyIp (s.drop (h.pathlen + 1)) then .error inerr3rdPartyIp
  else .ok h

/-- `incoming_parse` up to the call of `q_process`, after quirks mode. -/
def parseHeader (cfg : Config) (s : Bytes) : Except Int Header :=
  if s.length < packetlenMin - 2 then .error inerrShortPacket
  else match s.findIdx? (· == ch ':') with
  | none => .error inerrNoColon
  | some pathlen =>
    match (s.take (min pathlen (callsignlenMax + 1))).findIdx? (· == ch '>') with
    | none => .error inerrNoDst
    | some srcLen =>
      let src := s.take srcLen
      let path := (s.take pathlen).drop (srcLen + 1)
      let dst := path.takeWhile (· != comma)
      if srcLen + 1 ≥ s.length then .error inerrNoPath
      else if checkInvalidSrcDst src then .error inerrInvSrccall
      else if checkCallPrefixMatch disallowSrccalls src then .error inerrDisSrccall
      else if cfg.disallowSrccallGlob.any fun set => checkCallGlobMatch cfg.fnmatch set src then
        .error inerrDisSrccall
      else if pathlen + 1 ≥ s.length then .error inerrNoBody
      else if checkInvalidSrcDst dst then .error inerrInvDstcall
      else checkHeader s {
        srcLen := srcLen
        dstcallEndOrSsid := srcLen + 1 + (callBody dst).length
        viaStart := srcLen + 1 + dst.length
        pathlen := pathlen }

/-! ## Parts of a header -/

namespace Header

variable (h : Header) (s : Bytes)

/-- The source callsign. -/
def src : Bytes := s.take h.srcLen

/-- The destination callsign. -/
def dst : Bytes := (s.take h.viaStart).drop (h.srcLen + 1)

/-- The digipeater path, with the comma before it. -/
def via : Bytes := (s.take h.pathlen).drop h.viaStart

/-- The entries of the digipeater path. -/
def path : List Bytes := fields comma (h.via s)

/-- The information field. -/
def info : Bytes := s.drop (h.pathlen + 1)

/-- The parts that the offsets of a header cut out of a line. -/
theorem parts_eq {h : Header} (src dst via info : Bytes) (hsrc : h.srcLen = src.length)
    (hvia : h.viaStart = src.length + 1 + dst.length) (hpath : h.pathlen = h.viaStart + via.length) :
    h.src (src ++ ch '>' :: (dst ++ (via ++ ch ':' :: info))) = src ∧
      h.dst (src ++ ch '>' :: (dst ++ (via ++ ch ':' :: info))) = dst ∧
      h.via (src ++ ch '>' :: (dst ++ (via ++ ch ':' :: info))) = via ∧
      h.info (src ++ ch '>' :: (dst ++ (via ++ ch ':' :: info))) = info := by
  have hnil : ∀ (xs ys : Bytes) (n : Nat), n = xs.length → (xs ++ ys).take n = xs := by
    intro xs ys n hn
    simp [hn]
  have hdrop : ∀ (xs ys : Bytes) (n : Nat), n = xs.length → (xs ++ ys).drop n = ys := by
    intro xs ys n hn
    simp [hn]
  refine ⟨hnil _ _ _ hsrc, ?_, ?_, ?_⟩
  · unfold Header.dst
    rw [show src ++ ch '>' :: (dst ++ (via ++ ch ':' :: info)) =
      (src ++ [ch '>']) ++ dst ++ (via ++ ch ':' :: info) by simp]
    rw [hnil _ _ _ (by simp; omega), hdrop _ _ _ (by simp; omega)]
  · unfold Header.via
    rw [show src ++ ch '>' :: (dst ++ (via ++ ch ':' :: info)) =
      (src ++ ch '>' :: dst) ++ via ++ ch ':' :: info by simp]
    rw [hnil _ _ _ (by simp; omega), hdrop _ _ _ (by simp; omega)]
  · unfold Header.info
    rw [show src ++ ch '>' :: (dst ++ (via ++ ch ':' :: info)) =
      (src ++ ch '>' :: dst ++ via ++ [ch ':']) ++ info by simp]
    exact hdrop _ _ _ (by simp; omega)

/-- A path entry that the checks let through. -/
def EntryOk (e : Bytes) : Prop :=
  isQConstruct e = true ∨ ∃ afterQ, checkInvalidPathCallsign e afterQ = false

/-- What the checks of `incoming_parse` promise to `q_process`. Only the last
entry of the path may be empty. -/
structure Admitted : Prop where
  line_eq : s = h.src s ++ ch '>' :: (h.dst s ++ (joinFields comma (h.path s) ++ ch ':' :: h.info s))
  srcLen_eq : h.srcLen = (h.src s).length
  viaStart_eq : h.viaStart = h.srcLen + 1 + (h.dst s).length
  pathlen_eq : h.pathlen = h.viaStart + (joinFields comma (h.path s)).length
  dstcallEndOrSsid_eq : h.dstcallEndOrSsid = h.srcLen + 1 + (callBody (h.dst s)).length
  src_valid : checkInvalidSrcDst (h.src s) = false
  dst_valid : checkInvalidSrcDst (h.dst s) = false
  dst_no_comma : comma ∉ h.dst s
  no_comma : ∀ e ∈ h.path s, comma ∉ e
  no_colon : ∀ e ∈ h.path s, ch ':' ∉ e
  entries_ok : ∀ e ∈ h.path s, e ≠ [] → EntryOk e
  inner_ne : ∀ e ∈ (h.path s).dropLast, e ≠ []
  info_ne : h.info s ≠ []

end Header

/-! ## What the checks admit -/

theorem checkInvalidSrcDst_ne_nil {call : Bytes} (h : checkInvalidSrcDst call = false) :
    call ≠ [] := by
  intro he
  subst he
  revert h
  decide

/-- A callsign is its body, or its body and an SSID. -/
theorem callBody_cases (call : Bytes) :
    call = callBody call ∨
      call = callBody call ++ ch '-' :: call.drop ((callBody call).length + 1) := by
  induction call with
  | nil => exact .inl rfl
  | cons x xs ih =>
    cases hx : x != ch '-' with
    | false =>
      have hx : x = ch '-' := by simpa using hx
      subst hx
      exact .inr (by simp [callBody])
    | true =>
      have hb : callBody (x :: xs) = x :: callBody xs := by simp [callBody, hx]
      simp only [hb, List.cons_append, List.length_cons, List.drop_succ_cons, List.cons.injEq,
        true_and]
      exact ih

/-- The characters of a callsign whose body and SSID are alphanumeric. -/
theorem callBody_all {call : Bytes} (hbody : (callBody call).all isalnum = true)
    (hssid : (callBody call).length = call.length ∨
      (call.drop ((callBody call).length + 1)).all isalnum = true)
    {b : UInt8} (hb : b ∈ call) : isalnum b = true ∨ b = ch '-' := by
  rw [List.all_eq_true] at hbody
  cases callBody_cases call with
  | inl h =>
    rw [h] at hb
    exact .inl (hbody b hb)
  | inr h =>
    have hlen := congrArg List.length h
    simp only [List.length_append, List.length_cons] at hlen
    cases hssid with
    | inl heq => omega
    | inr hssid =>
      rw [List.all_eq_true] at hssid
      rw [h] at hb
      simp only [List.mem_append, List.mem_cons] at hb
      cases hb with
      | inl hb => exact .inl (hbody b hb)
      | inr hb =>
        cases hb with
        | inl hb => exact .inr hb
        | inr hb => exact .inl (hssid b hb)

/-- The characters of a source or destination callsign. -/
theorem checkInvalidSrcDst_chars {call : Bytes} (h : checkInvalidSrcDst call = false) {b : UInt8}
    (hb : b ∈ call) : isalnum b = true ∨ b = ch '-' := by
  simp only [checkInvalidSrcDst] at h
  split at h
  · cases h
  split at h
  · cases h
  next hbody =>
    have hbody : (callBody call).all isalnum = true := by simpa using hbody
    split at h
    next heq => exact callBody_all hbody (.inl (by simpa using heq)) hb
    split at h
    · cases h
    · exact callBody_all hbody (.inr (by simpa using h)) hb

/-- The separators are in none of the callsigns. -/
theorem not_mem_callsign {call : Bytes} (hvalid : checkInvalidSrcDst call = false) {b : UInt8}
    (hb : isalnum b = false) (hdash : b ≠ ch '-') : b ∉ call := by
  intro hmem
  cases checkInvalidSrcDst_chars hvalid hmem with
  | inl h => simp [hb] at h
  | inr h => exact hdash h

/-- The characters of a callsign that is good for a Q construct. -/
theorem checkInvalidQCallsign_chars {call : Bytes} (h : checkInvalidQCallsign call = false)
    {b : UInt8} (hb : b ∈ call) : isalnum b = true ∨ b = ch '-' := by
  unfold checkInvalidQCallsign at h
  split at h
  · cases h
  · have hall : call.all (fun b => isalnum b || b == ch '-') = true := by simpa using h
    rw [List.all_eq_true] at hall
    simpa using hall b hb

/-- The characters of a path entry. -/
theorem checkInvalidPathCallsign_chars {call : Bytes} {afterQ : Bool}
    (h : checkInvalidPathCallsign call afterQ = false) {b : UInt8} (hb : b ∈ call) :
    isalnum b = true ∨ b = ch '-' ∨ b = ch '*' := by
  simp only [checkInvalidPathCallsign] at h
  -- the callsign without its `*`
  generalize hc : (if call.length > 1 && call.getLast? == some (ch '*') then call.dropLast
    else call) = stripped at h
  have hmem : b ∈ stripped ∨ b = ch '*' := by
    subst hc
    split
    next hstar =>
      simp only [Bool.and_eq_true, beq_iff_eq] at hstar
      have hlast := List.dropLast_append_getLast? (ch '*') hstar.2
      rw [← hlast] at hb
      simpa using hb
    next => exact .inl hb
  have key : ∀ b ∈ stripped, isalnum b = true ∨ b = ch '-' := by
    intro b hb
    split at h
    · cases h
    split at h
    · cases h
    split at h
    · cases h
    next hbody =>
      have hbody : (callBody stripped).all isalnum = true := by simpa using hbody
      split at h
      next heq => exact callBody_all hbody (.inl (by simpa using heq)) hb
      split at h
      · cases h
      split at h
      · cases h
      · exact callBody_all hbody (.inr (by simpa using h)) hb
  cases hmem with
  | inl hb =>
    cases key b hb with
    | inl h => exact .inl h
    | inr h => exact .inr (.inl h)
  | inr hb => exact .inr (.inr hb)

/-! ## The path loop -/

/-- A path entry that `check_path_calls` accepts, before or after a construct. -/
def goodEntry (afterQ : Bool) (e : Bytes) : Bool :=
  isQConstruct e || !checkInvalidPathCallsign e afterQ

/-- Every entry is good where it stands. -/
def goodEntries : (afterQ : Bool) → List Bytes → Bool
  | _, [] => true
  | afterQ, e :: es => goodEntry afterQ e && goodEntries (afterQ || isQConstruct e) es

theorem checkPathCallsLoop_isSome (fuel : Nat) (afterQ : Bool) (rest : Bytes) :
    (checkPathCallsLoop fuel afterQ rest).isSome =
      goodEntries afterQ (visitFields comma fuel rest) := by
  induction fuel generalizing afterQ rest with
  | zero => rfl
  | succ fuel ih =>
    simp only [checkPathCallsLoop, visitFields]
    split
    next => rfl
    next =>
      simp only [goodEntries, goodEntry]
      split
      next hq => simp [hq, ih]
      next hq =>
        simp only [Bool.not_eq_true] at hq
        split
        next hinvalid => simp [hq, hinvalid]
        next hvalid => simp [hq, hvalid, ih]

/-- `check_path_calls` does not see an empty entry at the end. -/
theorem checkPathCalls_isSome {es : List Bytes} (hc : ∀ e ∈ es, comma ∉ e) :
    (checkPathCalls (joinFields comma es)).isSome = goodEntries false (dropFinalEmpty es) := by
  cases es with
  | nil => rfl
  | cons e es =>
    unfold checkPathCalls
    rw [checkPathCallsLoop_isSome]
    congr 1
    exact visitFields_joinFields (hc e List.mem_cons_self)
      (fun f hf => hc f (List.mem_cons_of_mem _ hf)) (by simp)

theorem goodEntry_nil (afterQ : Bool) : goodEntry afterQ [] = false := by
  cases afterQ <;> decide

theorem goodEntries_append (afterQ : Bool) (es fs : List Bytes) :
    goodEntries afterQ (es ++ fs) =
      (goodEntries afterQ es && goodEntries (afterQ || es.any isQConstruct) fs) := by
  induction es generalizing afterQ with
  | nil => simp [goodEntries]
  | cons e es ih => simp only [List.cons_append, goodEntries, ih, List.any_cons, Bool.and_assoc, Bool.or_assoc]

theorem exists_goodEntry {afterQ : Bool} {es : List Bytes} (h : goodEntries afterQ es = true)
    {e : Bytes} (he : e ∈ es) : ∃ afterQ, goodEntry afterQ e = true := by
  induction es generalizing afterQ with
  | nil => cases he
  | cons f fs ih =>
    simp only [goodEntries, Bool.and_eq_true] at h
    cases he with
    | head => exact ⟨afterQ, h.1⟩
    | tail _ he => exact ih h.2 he

theorem ne_nil_of_goodEntries {afterQ : Bool} {es : List Bytes} (h : goodEntries afterQ es = true)
    {e : Bytes} (he : e ∈ es) : e ≠ [] := by
  obtain ⟨b, hb⟩ := exists_goodEntry h he
  intro hnil
  rw [hnil, goodEntry_nil] at hb
  cases hb

/-- The loop has looked at every entry, and only an empty entry at the end went
unchecked. -/
theorem checkPathCalls_spec {es : List Bytes}
    (h : goodEntries false (dropFinalEmpty es) = true) :
    (∀ e ∈ es, e ≠ [] → Header.EntryOk e) ∧ ∀ e ∈ es.dropLast, e ≠ [] := by
  refine ⟨fun e he hne => ?_, fun e he => ?_⟩
  · obtain ⟨afterQ, hgood⟩ := exists_goodEntry h (mem_dropFinalEmpty he hne)
    cases hq : isQConstruct e with
    | true => exact .inl hq
    | false => exact .inr ⟨afterQ, by simpa [goodEntry, hq] using hgood⟩
  · exact ne_nil_of_goodEntries h (mem_dropFinalEmpty_of_mem_dropLast he)

/-! ## Admitted headers -/

theorem checkHeader_ok {s : Bytes} {h h' : Header} (hok : checkHeader s h = .ok h') :
    h' = h ∧ (checkPathCalls (h.via s)).isSome = true := by
  simp only [checkHeader] at hok
  split at hok
  · cases hok
  split at hok
  · cases hok
  next hpath =>
    split at hok
    · cases hok
    · cases hok
      refine ⟨rfl, ?_⟩
      simpa [Header.via, Option.isSome_iff_ne_none] using hpath

/-- Where the parts of a line end, when its header is admitted. -/
theorem parseHeader_ok {cfg : Config} {s : Bytes} {h : Header} (hok : parseHeader cfg s = .ok h) :
    ∃ path, s = s.take h.srcLen ++ ch '>' :: (path ++ ch ':' :: s.drop (h.pathlen + 1)) ∧
      ch ':' ∉ path ∧ h.srcLen ≤ s.length ∧ h.pathlen = h.srcLen + 1 + path.length ∧
      h.viaStart = h.srcLen + 1 + (path.takeWhile (· != comma)).length ∧
      h.dstcallEndOrSsid = h.srcLen + 1 + (callBody (path.takeWhile (· != comma))).length ∧
      checkInvalidSrcDst (s.take h.srcLen) = false ∧
      checkInvalidSrcDst (path.takeWhile (· != comma)) = false ∧
      h.pathlen + 1 < s.length ∧ (checkPathCalls (h.via s)).isSome = true := by
  simp only [parseHeader] at hok
  split at hok
  · cases hok
  split at hok
  · cases hok
  next pathlen hcolon =>
    split at hok
    · cases hok
    next srcLen hgt =>
      split at hok
      · cases hok
      split at hok
      · cases hok
      next hsrc =>
        split at hok
        · cases hok
        split at hok
        · cases hok
        split at hok
        · cases hok
        next hbody =>
          split at hok
          · cases hok
          next hdst =>
            obtain ⟨rfl, hcalls⟩ := checkHeader_ok hok
            obtain ⟨hpget, hpeq, hpnot⟩ := findIdx?_beq_eq_some hcolon
            obtain ⟨hsget, -, -⟩ := findIdx?_beq_eq_some hgt
            have hplen : pathlen < s.length := (List.getElem?_eq_some_iff.mp hpget).1
            have hslen : srcLen < min pathlen (callsignlenMax + 1) := by
              have := (List.getElem?_eq_some_iff.mp hsget).1
              rw [List.length_take] at this
              omega
            refine ⟨(s.take pathlen).drop (srcLen + 1), ?_, ?_, ?_, ?_, rfl, rfl,
              by simpa using hsrc, by simpa using hdst, by simpa using hbody, hcalls⟩
            · have hget : s[srcLen]? = some (ch '>') := by
                rwa [List.getElem?_take_of_lt hslen] at hsget
              have hhead : s.take pathlen =
                  s.take srcLen ++ ch '>' :: (s.take pathlen).drop (srcLen + 1) := by
                have hlt : srcLen < (s.take pathlen).length := by
                  simp only [List.length_take]
                  omega
                have hgt : (s.take pathlen)[srcLen] = ch '>' := by
                  rw [List.getElem?_eq_some_iff] at hget
                  simpa using hget.2
                have := List.take_append_drop srcLen (s.take pathlen)
                rw [List.drop_eq_getElem_cons hlt, hgt, List.take_take] at this
                rw [Nat.min_eq_left (by omega)] at this
                exact this.symm
              conv_lhs => rw [hpeq, hhead]
              simp
            · intro hmem
              exact hpnot (List.mem_of_mem_drop hmem)
            · show srcLen ≤ s.length
              omega
            · simp only [List.length_drop, List.length_take]
              omega

/-- The checks of `incoming_parse` admit only headers of the described shape. -/
theorem parseHeader_admitted {cfg : Config} {s : Bytes} {h : Header}
    (hok : parseHeader cfg s = .ok h) : h.Admitted s := by
  obtain ⟨path, hline, hcolon, hsrcLen, hpathlen, hviaStart, hssid, hsrc, hdst, hbody, hcalls⟩ :=
    parseHeader_ok hok
  obtain ⟨dst, hdef⟩ : ∃ dst, path.takeWhile (· != comma) = dst := ⟨_, rfl⟩
  obtain ⟨via, hvdef⟩ : ∃ via, path.dropWhile (· != comma) = via := ⟨_, rfl⟩
  have hpath : path = dst ++ via := by
    rw [← hdef, ← hvdef, List.takeWhile_append_dropWhile]
  have hdst_comma : comma ∉ dst := by
    intro hmem
    rw [← hdef] at hmem
    simpa using List.mem_takeWhile_imp hmem
  have hhead : ∀ x ∈ via.head?, x = comma := by
    intro x hx
    have := List.head?_dropWhile_not (· != comma) path
    rw [hvdef, hx] at this
    simpa using this
  rw [hdef] at hviaStart hssid hdst
  rw [hpath, List.append_assoc] at hline
  have hlen : (s.take h.srcLen).length = h.srcLen := by simp [hsrcLen]
  have hpl : h.pathlen = h.viaStart + via.length := by
    rw [hpathlen, hviaStart, hpath, List.length_append]
    omega
  obtain ⟨h1, h2, h3, h4⟩ := Header.parts_eq (s.take h.srcLen) dst via (s.drop (h.pathlen + 1))
    hlen.symm (by rw [hlen, hviaStart]) hpl
  rw [← hline] at h1 h2 h3 h4
  have hjoin : joinFields comma (h.path s) = via := by
    unfold Header.path
    rw [h3]
    exact joinFields_fields hhead
  have hcomma : ∀ e ∈ h.path s, comma ∉ e := fun e he => not_mem_of_mem_fields he
  have hentries : (∀ e ∈ h.path s, e ≠ [] → Header.EntryOk e) ∧
      ∀ e ∈ (h.path s).dropLast, e ≠ [] := by
    rw [h3, ← hjoin, checkPathCalls_isSome hcomma] at hcalls
    exact checkPathCalls_spec hcalls
  exact {
    line_eq := by rw [hjoin, h1, h2, h4]; exact hline
    srcLen_eq := by rw [h1, hlen]
    viaStart_eq := by rw [h2, hviaStart]
    pathlen_eq := by rw [hjoin, hpl]
    dstcallEndOrSsid_eq := by rw [h2, hssid]
    src_valid := by rw [h1]; exact hsrc
    dst_valid := by rw [h2]; exact hdst
    dst_no_comma := by rw [h2]; exact hdst_comma
    no_comma := hcomma
    no_colon := by
      intro e he hmem
      apply hcolon
      rw [hpath, ← hjoin, List.mem_append]
      right
      exact List.mem_flatMap.mpr ⟨e, he, List.mem_cons_of_mem _ hmem⟩
    entries_ok := hentries.1
    inner_ne := hentries.2
    info_ne := by
      rw [h4]
      intro hnil
      simp at hnil
      omega }

theorem Header.Admitted.via_eq {h : Header} {s : Bytes} (hadm : h.Admitted s) :
    h.via s = joinFields comma (h.path s) := by
  have hparts := Header.parts_eq (h.src s) (h.dst s) (joinFields comma (h.path s)) (h.info s)
    hadm.srcLen_eq (by rw [hadm.viaStart_eq, hadm.srcLen_eq]) hadm.pathlen_eq
  rw [← hadm.line_eq] at hparts
  exact hparts.2.2.1

/-- The entries of an admitted path are good, but for an empty one at its end. -/
theorem parseHeader_goodEntries {cfg : Config} {s : Bytes} {h : Header}
    (hok : parseHeader cfg s = .ok h) : goodEntries false (dropFinalEmpty (h.path s)) = true := by
  have hadm := parseHeader_admitted hok
  obtain ⟨path, -, -, -, -, -, -, -, -, -, hcalls⟩ := parseHeader_ok hok
  rwa [hadm.via_eq, checkPathCalls_isSome hadm.no_comma] at hcalls

end Aprsc
