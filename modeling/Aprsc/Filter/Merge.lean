-- SUMMARY: Merging filters into chains keeps the verdict on every packet, unless a filter without a type comes up.
import Aprsc.Base.Runs
import Aprsc.Filter.Model

/-!
# Merged filters

The names of several specifications may be in one filter. Each accepted specification has
a filter of its own, and the chains give the verdict of those. What a filter without a
type gives depends on how its warning is written to the client.
-/

namespace Aprsc

open Runs

/-! ## The verdict of the specifications -/

/-- The filters of their own that the accepted specifications of a chain have. -/
def ownFilters (env : FilterEnv) (accepted : List FilterCall) (id : ChainId) : List FilterT :=
  (accepted.filter (·.chain = id)).filterMap fun call => ownFilter env call.filt

/-- Negative filters block and positive ones pass, the default ones first. -/
def verdict (env : FilterEnv) (pb : FilterPacket) (accepted : List FilterCall) : Int :=
  if anyMatch env pb (ownFilters env accepted .negdefault) then 0
  else if anyMatch env pb (ownFilters env accepted .posdefault) then 1
  else if anyMatch env pb (ownFilters env accepted .neguser) then 0
  else if anyMatch env pb (ownFilters env accepted .posuser) then 1
  else 0

/-- A filter without a type stands before the first one that matches. -/
def reachesEmpty (env : FilterEnv) (pb : FilterPacket) : List FilterT → Bool
  | [] => false
  | f :: fs =>
      if filterProcessOne env pb f < 0 then true
      else if filterProcessOne env pb f > 0 then false
      else reachesEmpty env pb fs

/-- A specification of the user without a type comes up before the verdict is reached. -/
def comesToEmpty (env : FilterEnv) (pb : FilterPacket) (accepted : List FilterCall) : Bool :=
  !anyMatch env pb (ownFilters env accepted .negdefault) &&
  !anyMatch env pb (ownFilters env accepted .posdefault) &&
  (reachesEmpty env pb (ownFilters env accepted .neguser) ||
    (!anyMatch env pb (ownFilters env accepted .neguser) &&
      reachesEmpty env pb (ownFilters env accepted .posuser)))

/-! ## Sets of names -/

/-- The evaluation of a filter is that of one name or another. -/
def Additive (process : (Bytes → Bool) → Bool) : Prop :=
  ∀ m₁ m₂, process (fun key => m₁ key || m₂ key) = (process m₁ || process m₂)

section
variable (pb : FilterPacket)

theorem filterProcessSource_additive : Additive (filterProcessSource pb) := by
  intro m₁ m₂
  simp only [filterProcessSource]
  cases m₁ (pb.part 0 (min pb.srccallEnd callsignlenMax)) <;>
    cases m₂ (pb.part 0 (min pb.srccallEnd callsignlenMax)) <;>
    by_cases hs : pb.srcname = 0 <;> by_cases ht : pb.packettype &&& (tObject ||| tItem) = 0 <;>
    simp [hs, ht]

theorem filterProcessOneE_additive : Additive (filterProcessOneE pb) := by
  intro m₁ m₂
  unfold filterProcessOneE
  split <;> simp

theorem filterProcessOneG_additive : Additive (filterProcessOneG pb) := by
  intro m₁ m₂
  unfold filterProcessOneG
  split
  · simp
  · split <;> simp

theorem filterProcessOneO_additive : Additive (filterProcessOneO pb) := by
  intro m₁ m₂
  unfold filterProcessOneO
  split
  · simp
  · split <;> simp

/-- What stops a scan for a character: the end of the text, or the character. -/
theorem takeWhile_stop (c : UInt8) (s : Bytes) :
    (s.takeWhile (· != c)).length = s.length ∨ s[(s.takeWhile (· != c)).length]? = some c := by
  induction s with
  | nil => exact .inl rfl
  | cons b s ih =>
    by_cases hb : b = c
    · exact .inr (by simp [hb])
    · simpa [hb] using ih

/-- An asterisk of a callsign is its last character. -/
theorem star_last {d : Nat} (hd : d ≤ pb.qconstStart)
    (hstar : ¬pb.data.getD (d + viaLength pb d - 1) 0 = ch '*') :
    ¬pb.data.getD (d + min (viaLength pb d) callsignlenMax) 0 = ch '*' := by
  have hstop := takeWhile_stop comma (pb.part d (min (callsignlenMax + 1) (pb.qconstStart - d)))
  have hlen : (pb.part d (min (callsignlenMax + 1) (pb.qconstStart - d))).length =
      min (min (callsignlenMax + 1) (pb.qconstStart - d)) (pb.data.length - d) := by
    simp [FilterPacket.part]
  rw [← viaLength] at hstop
  generalize viaLength pb d = i at hstop hstar ⊢
  obtain hend | hcomma := hstop
  · rw [hlen] at hend
    by_cases hfull : i = callsignlenMax + 1
    · -- The last character of the longest callsign is the one compared.
      have hlast : d + min i callsignlenMax = d + i - 1 := by omega
      rwa [hlast]
    · have hmin : d + min i callsignlenMax = d + i := by omega
      rw [hmin]
      by_cases hq : d + i = pb.qconstStart
      · rw [hq]
        exact pb.qconst_ne
      · have hout : pb.data.length ≤ d + i := by omega
        rw [List.getD_eq_getElem?_getD, List.getElem?_eq_none hout]
        decide
  · obtain ⟨hlt, -⟩ := List.getElem?_eq_some_iff.mp hcomma
    rw [hlen] at hlt
    have hdata : pb.data[d + i]? = some comma := by
      rw [FilterPacket.part, List.getElem?_take_of_lt (by omega), List.getElem?_drop] at hcomma
      exact hcomma
    rw [Nat.min_eq_left (by omega), List.getD_eq_getElem?_getD, hdata]
    decide

theorem viaStart_le {d : Nat} (hd : d < pb.qconstStart - 1) : viaStart pb d ≤ pb.qconstStart := by
  unfold viaStart
  split <;> omega

theorem digiStar_of_digiMatch {m : Bytes → Bool} {n d : Nat} (h : digiMatch pb m n d = true) :
    digiStar pb n d = true := by
  induction n generalizing d with
  | zero => cases h
  | succ n ih =>
    rw [digiMatch] at h
    rw [digiStar]
    split at h
    · rename_i hd
      rw [if_pos hd]
      dsimp only at h ⊢
      by_cases hstar : pb.data.getD (viaStart pb d + viaLength pb (viaStart pb d) - 1) 0 = ch '*'
      · rw [hstar, beq_self_eq_true, Bool.true_or]
      · have hlast := beq_eq_false_iff_ne.mpr (star_last pb (viaStart_le pb hd) hstar)
        rw [beq_eq_false_iff_ne.mpr hstar, Bool.false_or]
        rw [beq_eq_false_iff_ne.mpr hstar, if_neg Bool.false_ne_true, hlast, Bool.false_or] at h
        split at h
        · exact h
        · exact ih h
    · cases h

/-- A choice that stops at the first of two conditions. -/
theorem ite_or_of_imp {a b found later later₁ later₂ : Bool} (h : later = (later₁ || later₂))
    (h₁ : later₁ = true → found = true) (h₂ : later₂ = true → found = true) :
    (if (a || b) = true then found else later) =
      ((if a = true then found else later₁) || (if b = true then found else later₂)) := by
  subst h
  cases a <;> cases b <;> cases later₁ <;> cases later₂ <;> simp_all

/-- The first callsign that matches either set is the first one that matches one of them,
and an asterisk after the other one stands after it, too. -/
theorem digiMatch_additive (n d : Nat) : Additive fun m => digiMatch pb m n d := by
  intro m₁ m₂
  induction n generalizing d with
  | zero => rfl
  | succ n ih =>
    have hlater : ∀ m d star, digiMatch pb m n d = true → (star || digiStar pb n d) = true := by
      intro m d star h
      rw [digiStar_of_digiMatch pb h, Bool.or_true]
    simp only [digiMatch]
    split
    · exact ite_or_of_imp (ih _) (hlater _ _ _) (hlater _ _ _)
    · rfl

theorem filterProcessOneD_additive : Additive (filterProcessOneD pb) :=
  digiMatch_additive pb 10 _

end

/-- The count of a set of callsigns is the number of its names. -/
def FilterBody.Counted : FilterBody → Prop
  | .callsigns refcallsigns numnames => numnames = refcallsigns.length
  | _ => True

theorem matchOnCallsignset_append {wildok : MatchEnum} {refs₁ refs₂ : List RefCallsign} :
    (FilterBody.callsigns (refs₁ ++ refs₂) (refs₁ ++ refs₂).length).matchOnCallsignset wildok =
      fun key =>
        (FilterBody.callsigns refs₁ refs₁.length).matchOnCallsignset wildok key ||
          (FilterBody.callsigns refs₂ refs₂.length).matchOnCallsignset wildok key := by
  funext key
  simp only [FilterBody.matchOnCallsignset, Int.toNat_natCast, List.take_length, List.any_append]

/-- A set of callsigns matches if one of its parts does. -/
theorem filterProcessSet_append (pb : FilterPacket) (letter : UInt8) {refs₁ refs₂ : List RefCallsign} :
    filterProcessSet pb letter (.callsigns (refs₁ ++ refs₂) (refs₁ ++ refs₂).length) =
      (filterProcessSet pb letter (.callsigns refs₁ refs₁.length) ||
        filterProcessSet pb letter (.callsigns refs₂ refs₂.length)) := by
  unfold filterProcessSet
  simp only [matchOnCallsignset_append]
  split
  · exact filterProcessSource_additive pb _ _
  split
  · exact filterProcessSource_additive pb _ _
  split
  · exact filterProcessOneD_additive pb _ _
  split
  · exact filterProcessOneE_additive pb _ _
  split
  · exact filterProcessOneG_additive pb _ _
  split
  · exact filterProcessOneO_additive pb _ _
  · rfl

/-! ## Types -/

def FilterT.isSet (f : FilterT) : Bool :=
  match f.body with
  | .callsigns .. => true
  | _ => false

/-- The types of the sets of callsigns. -/
def setLetter (type : UInt8) : Bool :=
  let letter := tolower type
  letter == ch 'b' || letter == ch 'd' || letter == ch 'e' || letter == ch 'g' ||
    letter == ch 'o' || letter == ch 'u' || letter == ch 'p'

/-- The type says whether a filter is a set, and its names are counted. -/
structure FilterT.Wf (f : FilterT) : Prop where
  typed : f.isSet = setLetter f.type
  counted : f.body.Counted

theorem FilterT.body_ne_callsigns {f : FilterT} (h : f.isSet = false) (refs : List RefCallsign)
    (n : Int) : f.body ≠ .callsigns refs n := by
  intro hbody
  simp [FilterT.isSet, hbody] at h

theorem FilterT.Wf.of_not_isSet {f : FilterT} (hno : f.isSet = false)
    (hset : setLetter f.type = false) : f.Wf := by
  refine ⟨by rw [hno, hset], ?_⟩
  cases hbody : f.body with
  | callsigns refs n => exact absurd hbody (FilterT.body_ne_callsigns hno refs n)
  | _ => trivial

theorem FilterT.Wf.callsigns {f : FilterT} (hf : f.Wf) (hset : setLetter f.type = true) :
    ∃ refs, f.body = .callsigns refs refs.length := by
  have hcounted := hf.counted
  have htyped := hf.typed
  rw [hset, FilterT.isSet] at htyped
  cases hbody : f.body with
  | callsigns refs n =>
    rw [hbody] at hcounted
    obtain rfl : n = refs.length := hcounted
    exact ⟨refs, rfl⟩
  | _ => simp [hbody] at htyped

theorem filterParseOneQ_isSet {s : Bytes} {body : FilterBody} (h : filterParseOneQ s = some body) :
    ∃ flags, body = .flags flags := by
  unfold filterParseOneQ at h
  split at h
  · cases h
  · obtain ⟨flags, -, h⟩ := Option.bind_eq_some_iff.mp h
    split at h
    · exact ⟨_, (Option.some.inj h).symm⟩
    · exact ⟨_, (Option.some.inj h).symm⟩
    · split at h
      · exact ⟨_, (Option.some.inj h).symm⟩
      · cases h
    · cases h

theorem filterParseOneT_isSet {env : FilterEnv} {s : Bytes} {r : UInt8 × FilterBody}
    (h : filterParseOneT env s = some r) :
    ∃ flags, r.2 = .flags flags ∧ (r.1 = ch 't' ∨ r.1 = ch 'T') := by
  unfold filterParseOneT at h
  split at h
  · cases h
  · obtain ⟨flags, -, h⟩ := Option.bind_eq_some_iff.mp h
    dsimp only at h
    split at h
    · cases h
      exact ⟨flags, rfl, .inl rfl⟩
    · split at h
      · cases h
        exact ⟨flags, rfl, .inr rfl⟩
      · cases h

theorem filterParseOneS_isSet {s : Bytes} {body : FilterBody} (h : filterParseOneS s = some body) :
    ∃ pri alt olay, body = .symbols pri alt olay := by
  unfold filterParseOneS at h
  split at h
  · cases h
  · dsimp only at h
    split at h
    · cases h
    · exact ⟨_, _, _, (Option.some.inj h).symm⟩

/-- The filter keeps the text of a specification. Its type says whether it is a set, and
then the names are those of the text. -/
theorem ownFilter_cases {env : FilterEnv} {filt : Bytes} {f : FilterT}
    (h : ownFilter env filt = some f) :
    f.toFilterText = filterText filt ∧
      ((∃ wildok refs, filterParseOneCallsignset
          (if filt.head? = some (ch '-') then filt.drop 1 else filt) wildok = some refs ∧
          f.body = .callsigns refs (int16 refs.length) ∧ setLetter f.type = true) ∨
        (f.isSet = false ∧ setLetter f.type = false)) := by
  unfold ownFilter at h
  generalize (if filt.head? = some (ch '-') then filt.drop 1 else filt) = s at h ⊢
  dsimp only at h
  generalize htype : s.headD 0 = type at h
  have hset : ∀ c ∈ [ch 'a', ch 'f', ch 'm', ch 'r', ch 's'], tolower type = c →
      setLetter type = false := by
    intro c hc heq
    rw [setLetter, heq]
    clear heq
    obtain rfl | rfl | rfl | rfl | rfl : c = ch 'a' ∨ c = ch 'f' ∨ c = ch 'm' ∨ c = ch 'r' ∨
      c = ch 's' := by simpa using hc
    all_goals decide
  split at h
  · rename_i hl
    split at h
    · cases h
      refine ⟨rfl, .inr ⟨rfl, hset (tolower type) ?_ rfl⟩⟩
      simp only [Bool.or_eq_true, beq_iff_eq] at hl
      simp only [List.mem_cons]
      tauto
    · cases h
  split at h
  · rename_i hl
    obtain ⟨refs, hrefs, rfl⟩ := Option.map_eq_some_iff.mp h
    have hyes : setLetter type = true := by
      simp only [setLetter, Bool.or_eq_true] at hl ⊢
      exact .inl hl
    exact ⟨rfl, .inl ⟨_, refs, hrefs, rfl, hyes⟩⟩
  split at h
  · rename_i hl
    obtain ⟨refs, hrefs, rfl⟩ := Option.map_eq_some_iff.mp h
    have hyes : setLetter type = true := by
      simp only [setLetter, Bool.or_eq_true] at hl ⊢
      exact .inr hl
    exact ⟨rfl, .inl ⟨_, refs, hrefs, rfl, hyes⟩⟩
  split at h
  · obtain ⟨body, hbody, rfl⟩ := Option.map_eq_some_iff.mp h
    obtain ⟨flags, rfl⟩ := filterParseOneQ_isSet hbody
    exact ⟨rfl, .inr ⟨rfl, (by decide : setLetter (ch 'q') = false)⟩⟩
  split at h
  · rename_i hl
    obtain ⟨body, hbody, rfl⟩ := Option.map_eq_some_iff.mp h
    obtain ⟨pri, alt, olay, rfl⟩ := filterParseOneS_isSet hbody
    exact ⟨rfl, .inr ⟨rfl, hset (ch 's') (by simp) (by simpa using hl)⟩⟩
  split at h
  · obtain ⟨r, hr, rfl⟩ := Option.map_eq_some_iff.mp h
    obtain ⟨flags, hflags, hr⟩ := filterParseOneT_isSet hr
    obtain ⟨type', body⟩ := r
    cases hflags
    obtain rfl | rfl := hr
    · exact ⟨rfl, .inr ⟨rfl, (by decide : setLetter (ch 't') = false)⟩⟩
    · exact ⟨rfl, .inr ⟨rfl, (by decide : setLetter (ch 'T') = false)⟩⟩
  split at h
  · rename_i hl
    cases h
    rw [beq_iff_eq.mp hl]
    exact ⟨rfl, .inr ⟨rfl, (by decide : setLetter 0 = false)⟩⟩
  · cases h

theorem ownFilter_text {env : FilterEnv} {filt : Bytes} {f : FilterT}
    (h : ownFilter env filt = some f) : f.text = filt := by
  rw [(ownFilter_cases h).1, text_filterText]

/-! ## Chains -/

section
variable (env : FilterEnv) (pb : FilterPacket)

/-- A filter matches or not, or it has no type. -/
theorem filterProcessOne_cases (f : FilterT) :
    (filterProcessOne env pb f = 1 ∨ filterProcessOne env pb f = 0) ∨
      f.body = .empty ∧ filterProcessOne env pb f = -1 := by
  unfold filterProcessOne
  have hrc : ∀ b : Bool, (if b = true then (1 : Int) else 0) = 1 ∨
      (if b = true then (1 : Int) else 0) = 0 := by decide
  cases hbody : f.body with
  | empty => exact .inr ⟨rfl, rfl⟩
  | _ => exact .inl (hrc _)

theorem anyMatch_append (fs gs : List FilterT) :
    anyMatch env pb (fs ++ gs) = (anyMatch env pb fs || anyMatch env pb gs) :=
  List.any_append

theorem reachesEmpty_append (fs gs : List FilterT) :
    reachesEmpty env pb (fs ++ gs) =
      (reachesEmpty env pb fs || (!anyMatch env pb fs && reachesEmpty env pb gs)) := by
  induction fs with
  | nil => simp [reachesEmpty, anyMatch]
  | cons f fs ih =>
    simp only [anyMatch] at ih
    obtain (h | h) | ⟨-, h⟩ := filterProcessOne_cases env pb f <;>
      simp [reachesEmpty, anyMatch, h, ih]

/-- Without a filter that has no type, the loop finds a match if there is one. -/
theorem userLoop_eq {fs : List FilterT} (printed : Int) (hit : Int → Int) (warned : Bool)
    (h : reachesEmpty env pb fs = false) :
    userLoop env pb printed hit warned fs =
      (if anyMatch env pb fs then some (hit 1) else none, warned) := by
  induction fs with
  | nil => rfl
  | cons f fs ih =>
    obtain (hrc | hrc) | ⟨-, hrc⟩ := filterProcessOne_cases env pb f
    · simp [userLoop, anyMatch, hrc]
    · simp only [reachesEmpty, hrc] at h
      simpa [userLoop, anyMatch, hrc] using ih h
    · simp [reachesEmpty, hrc] at h

/-- A filter without a type comes up, and the client cannot be written to. -/
theorem userLoop_reachesEmpty {fs : List FilterT} {printed : Int} (hit : Int → Int)
    (hprinted : printed < 0) (h : reachesEmpty env pb fs = true) :
    userLoop env pb printed hit false fs = (some printed, true) := by
  induction fs with
  | nil => simp [reachesEmpty] at h
  | cons f fs ih =>
    obtain (hrc | hrc) | ⟨-, hrc⟩ := filterProcessOne_cases env pb f
    · simp [reachesEmpty, hrc] at h
    · simp only [reachesEmpty, hrc] at h
      simpa [userLoop, hrc] using ih h
    · simp [userLoop, hrc, clientBadFilterNotify, hprinted]

end

/-- The chain gives on every packet what the filters of the specifications give. -/
structure Represents (env : FilterEnv) (chain own : List FilterT) : Prop where
  wf : ∀ f ∈ chain, f.Wf
  anyMatch_eq : ∀ pb, anyMatch env pb chain = anyMatch env pb own
  reachesEmpty_eq : ∀ pb, reachesEmpty env pb chain = reachesEmpty env pb own

/-- The number of names in the filter that a set of the given type would extend. -/
def namesBefore (fs : List FilterT) (type : UInt8) : Int :=
  match fs.getLast? with
  | some ff =>
      match ff.body with
      | .callsigns _ numnames => if ff.type = type then numnames else 0
      | _ => 0
  | none => 0

/-- The largest `int16_t`. -/
def int16Max : Int := 32767

theorem int16_of_le {n : Int} (h0 : 0 ≤ n) (h : n ≤ int16Max) : int16 n = n := by
  unfold int16Max at h
  simp only [int16, Int.bmod]
  omega

theorem int16_le (n : Nat) : int16 n ≤ n := by
  simp only [int16, Int.bmod]
  omega

theorem Represents.nil (env : FilterEnv) : Represents env [] [] :=
  ⟨by simp, fun _ => rfl, fun _ => rfl⟩

section
variable {env : FilterEnv} {chain own : List FilterT} {f : FilterT}

/-- A filter is linked to the tail. -/
theorem Represents.link (h : Represents env chain own) (hf : f.Wf) :
    Represents env (chain ++ [f]) (own ++ [f]) where
  wf g hg := by
    obtain hg | hg := List.mem_append.mp hg
    · exact h.wf g hg
    · rw [List.mem_singleton.mp hg]
      exact hf
  anyMatch_eq pb := by rw [anyMatch_append, anyMatch_append, h.anyMatch_eq]
  reachesEmpty_eq pb := by
    rw [reachesEmpty_append, reachesEmpty_append, h.anyMatch_eq, h.reachesEmpty_eq]

theorem filterProcessOne_set (pb : FilterPacket) {refs : List RefCallsign} {n : Int}
    (hbody : f.body = .callsigns refs n) :
    filterProcessOne env pb f =
      if filterProcessSet pb (tolower f.type) (.callsigns refs n) then 1 else 0 := by
  simp only [filterProcessOne, hbody]

/-- The names and the text of a filter go to the last filter of the chain. -/
theorem Represents.extend {ff : FilterT} {refs₁ refs₂ : List RefCallsign}
    (h : Represents env (chain ++ [ff]) own) (hff : ff.body = .callsigns refs₁ refs₁.length)
    (hf : f.body = .callsigns refs₂ refs₂.length) (htype : ff.type = f.type) (text : FilterText) :
    Represents env
      (chain ++ [{ ff with
        toFilterText := text
        body := .callsigns (refs₁ ++ refs₂) (refs₁ ++ refs₂).length }])
      (own ++ [f]) := by
  have hset : ∀ pb, filterProcessOne env pb
      { ff with
        toFilterText := text
        body := .callsigns (refs₁ ++ refs₂) (refs₁ ++ refs₂).length } =
        if filterProcessOne env pb ff > 0 || filterProcessOne env pb f > 0 then 1 else 0 := by
    intro pb
    rw [filterProcessOne_set pb rfl, filterProcessOne_set pb hff, filterProcessOne_set pb hf,
      filterProcessSet_append, htype]
    cases filterProcessSet pb (tolower f.type) (.callsigns refs₁ refs₁.length) <;>
      cases filterProcessSet pb (tolower f.type) (.callsigns refs₂ refs₂.length) <;> rfl
  have hno : ∀ {g : FilterT} {refs : List RefCallsign} pb, g.body = .callsigns refs refs.length →
      ¬filterProcessOne env pb g < 0 := by
    intro g refs pb hg
    rw [filterProcessOne_set pb hg]
    split <;> omega
  refine ⟨fun g hg => ?_, fun pb => ?_, fun pb => ?_⟩
  · obtain hg | hg := List.mem_append.mp hg
    · exact h.wf g (List.mem_append_left _ hg)
    · have hwf := h.wf ff (by simp)
      rw [List.mem_singleton.mp hg]
      refine ⟨?_, rfl⟩
      rw [← hwf.typed]
      simp [FilterT.isSet, hff]
  · have hold := h.anyMatch_eq pb
    rw [anyMatch_append] at hold
    rw [anyMatch_append, anyMatch_append, ← hold]
    simp only [anyMatch, List.any_cons, List.any_nil, Bool.or_false, hset]
    cases hff' : decide (filterProcessOne env pb ff > 0) <;>
      cases hf' : decide (filterProcessOne env pb f > 0) <;> simp
  · have hold := h.reachesEmpty_eq pb
    have hlast : ∀ {g : FilterT} {refs : List RefCallsign}, g.body = .callsigns refs refs.length →
        reachesEmpty env pb [g] = false := by
      intro g refs hg
      simp only [reachesEmpty, if_neg (hno pb hg)]
      split <;> rfl
    rw [reachesEmpty_append, hlast hff, Bool.and_false, Bool.or_false] at hold
    rw [reachesEmpty_append, reachesEmpty_append, hlast hf, hlast rfl, Bool.and_false,
      Bool.and_false, Bool.or_false, Bool.or_false, hold]

theorem namesBefore_nonneg (hchain : ∀ g ∈ chain, g.Wf) (type : UInt8) :
    0 ≤ namesBefore chain type := by
  unfold namesBefore
  split
  · rename_i ff hlast
    have hcounted := (hchain ff (List.mem_of_getLast? hlast)).counted
    split
    · rename_i refs n hbody
      rw [hbody] at hcounted
      split
      · exact hcounted ▸ Int.natCast_nonneg _
      · exact Int.le_refl 0
    · exact Int.le_refl 0
  · exact Int.le_refl 0

/-- The names fit the count of the filter they go to. -/
def NamesFit (chain : List FilterT) (f : FilterT) : Prop :=
  ∀ refs n, f.body = .callsigns refs n → namesBefore chain f.type + refs.length ≤ int16Max

/-- The text fits the memory of the filter it goes to. -/
def TextFits (chain : List FilterT) (f : FilterT) : Prop :=
  f.isSet = true → ∀ ff ∈ chain.getLast?, ff.type = f.type → ff.HasRoom f.text

theorem appendFilter_of_not_isSet (hno : f.isSet = false) (cell : Bool) :
    appendFilter cell chain f = if cell then .chain (chain ++ [f]) else .noCell := by
  unfold appendFilter
  split
  · rename_i hbody
    exact absurd hbody (FilterT.body_ne_callsigns hno _ _)
  · rfl

/-- A text that has room is appended in the buffer, or all of it goes to the heap. -/
theorem FilterText.extend_isSome_iff (t : FilterText) (filt0 : Bytes) :
    (t.extend filt0).isSome = true ↔ t.HasRoom filt0 := by
  unfold FilterText.extend
  dsimp only
  split
  · split <;> simpa
  · simpa

/-- The names are added as long as their number can be counted and the text has room. -/
theorem extendFilter_callsigns {ff : FilterT} {refs₁ refs₂ : List RefCallsign} {filt0 : Bytes}
    (hff : ff.body = .callsigns refs₁ refs₁.length)
    (hle : (refs₁.length : Int) + refs₂.length ≤ int16Max) (hroom : ff.HasRoom filt0) :
    ∃ text, extendFilter ff refs₂ filt0 =
      some { ff with
        toFilterText := text
        body := .callsigns (refs₁ ++ refs₂) (refs₁ ++ refs₂).length } := by
  obtain ⟨text, htext⟩ := Option.isSome_iff_exists.mp
    ((ff.toFilterText.extend_isSome_iff filt0).mpr hroom)
  have hneg : ¬(refs₁.length : Int) < 0 := by omega
  have hsum : int16 ((refs₁.length : Int) + refs₂.length) = (refs₁ ++ refs₂).length := by
    rw [int16_of_le (by omega) hle, List.length_append]
    rfl
  refine ⟨text, ?_⟩
  simp only [extendFilter, hff, if_neg hneg, htext, Option.map_some, Int.toNat_natCast,
    List.take_length, hsum]

/-- The filter of a specification is added to the chain. -/
theorem Represents.append (h : Represents env chain own) {filt : Bytes}
    (hown : ownFilter env filt = some f) (hfit : NamesFit chain f) (htext : TextFits chain f)
    (cell : Bool) :
    appendFilter cell chain f ≠ .fault ∧
      ∀ fs, appendFilter cell chain f = .chain fs → Represents env fs (own ++ [f]) := by
  have hnonneg := namesBefore_nonneg h.wf f.type
  have hlink : f.Wf → (if cell then AppendResult.chain (chain ++ [f]) else .noCell) ≠ .fault ∧
      ∀ fs, (if cell then AppendResult.chain (chain ++ [f]) else .noCell) = .chain fs →
        Represents env fs (own ++ [f]) := by
    intro hf
    cases cell with
    | false => simp
    | true =>
      refine ⟨by simp, fun fs hfs => ?_⟩
      cases hfs
      exact h.link hf
  obtain ⟨-, ⟨-, refs, -, hbody, hset⟩ | ⟨hno, hset⟩⟩ := ownFilter_cases hown
  · have hle := hfit refs _ hbody
    rw [int16_of_le (Int.natCast_nonneg _) (by omega)] at hbody
    have hf : f.Wf := ⟨by rw [hset, FilterT.isSet, hbody], by rw [hbody]; rfl⟩
    cases hlast : chain.getLast? with
    | none => simpa [appendFilter, hlast] using hlink hf
    | some ff =>
      by_cases htype : ff.type = f.type
      · obtain ⟨init, rfl⟩ := List.getLast?_eq_some_iff.mp hlast
        obtain ⟨refs₁, hff⟩ := (h.wf ff (by simp)).callsigns (htype ▸ hset)
        simp only [namesBefore, hlast, hff, htype, if_true] at hle
        have hroom : ff.HasRoom f.text := htext (by rw [FilterT.isSet, hbody]) ff hlast htype
        obtain ⟨text, hextend⟩ := extendFilter_callsigns hff hle hroom
        simp only [appendFilter, hlast, hbody, if_pos htype, hextend, List.dropLast_concat]
        refine ⟨by simp, fun fs hfs => ?_⟩
        cases hfs
        exact h.extend hff hbody htype text
      · simpa [appendFilter, hlast, hbody, htype] using hlink hf
  · rw [appendFilter_of_not_isSet hno]
    exact hlink (.of_not_isSet hno hset)

end

/-! ## Runs of `filter_parse` -/

/-- `filter_parse`, as long as the process goes on. -/
def filterStep (env : FilterEnv) (userfilterok : Bool) (s : Option FilterState)
    (call : FilterCall) : Option FilterState :=
  s.bind (filterParse env userfilterok · call)

/-- The names and the text of a specification that is not turned down fit the filter they go
to. -/
def CallFits (env : FilterEnv) (userfilterok : Bool) :
    (s : Option FilterState) → (call : FilterCall) → Prop
  | none, _ => False
  | some s, call =>
      (call.isUserFilter && !userfilterok) = false →
        ∀ f, ownFilter env call.filt = some f →
          NamesFit (s.chains.get call.chain) f ∧ TextFits (s.chains.get call.chain) f

/-- Each chain represents the specifications that were accepted for it. -/
def FilterState.Merged (env : FilterEnv) (s : FilterState) : Prop :=
  ∀ id, Represents env (s.chains.get id) (ownFilters env s.accepted id)

theorem FilterChains.get_set (c : FilterChains) (id id' : ChainId) (fs : List FilterT) :
    (c.set id fs).get id' = if id' = id then fs else c.get id' := by
  cases id <;> cases id' <;> rfl

section
variable {env : FilterEnv} {userfilterok : Bool}

theorem FilterState.merged_init : FilterState.init.Merged env := by
  intro id
  cases id <;> exact Represents.nil env

theorem ownFilters_append (accepted : List FilterCall) {call : FilterCall} {f : FilterT}
    (hown : ownFilter env call.filt = some f) (id : ChainId) :
    ownFilters env (accepted ++ [call]) id =
      ownFilters env accepted id ++ if call.chain = id then [f] else [] := by
  unfold ownFilters
  by_cases hid : call.chain = id <;> simp [hid, hown]

/-- A call that fits goes on and keeps the chains merged. -/
theorem FilterState.Merged.step {s : FilterState} (hs : s.Merged env) {call : FilterCall}
    (hfits : CallFits env userfilterok (some s) call) :
    ∃ s', filterParse env userfilterok s call = some s' ∧ s'.Merged env := by
  unfold filterParse
  cases huser : call.isUserFilter && !userfilterok with
  | true => exact ⟨s, rfl, hs⟩
  | false =>
    cases hown : ownFilter env call.filt with
    | none => exact ⟨s, rfl, hs⟩
    | some f =>
      obtain ⟨hnames, htext⟩ := hfits huser f hown
      obtain ⟨hfault, happend⟩ := (hs call.chain).append hown hnames htext call.cell
      cases happ : appendFilter call.cell (s.chains.get call.chain) f with
      | fault => exact absurd happ hfault
      | noCell => exact ⟨s, by simp [happ], hs⟩
      | chain fs =>
        refine ⟨_, by simp [happ]; rfl, fun id => ?_⟩
        rw [FilterChains.get_set, ownFilters_append s.accepted hown]
        by_cases hid : id = call.chain
        · subst hid
          simpa using happend fs happ
        · simpa [hid, Ne.symm hid] using hs id

/-- In a run whose calls all fit, the chains are merged. -/
theorem merged_of_meets {s : FilterState} (hs : s.Merged env) {calls : List FilterCall}
    (h : Meets (filterStep env userfilterok) (CallFits env userfilterok) (some s) calls) :
    ∃ s', run (filterStep env userfilterok) (some s) calls = some s' ∧ s'.Merged env := by
  induction calls generalizing s with
  | nil => exact ⟨s, rfl, hs⟩
  | cons call calls ih =>
    obtain ⟨hfits, hrest⟩ := h
    obtain ⟨s', hstep, hs'⟩ := hs.step hfits
    have hstep' : filterStep env userfilterok (some s) call = some s' := hstep
    rw [hstep'] at hrest
    obtain ⟨s'', hrun, hs''⟩ := ih hs' hrest
    exact ⟨s'', by rw [run_cons, hstep']; exact hrun, hs''⟩

/-- The chains give the verdict of the specifications, however the writing of a warning
turns out, if and only if no specification of the user without a type comes up. -/
theorem FilterState.Merged.filterProcess_eq_iff {s : FilterState} (hs : s.Merged env)
    (pb : FilterPacket) :
    (∀ printed warned, filterProcess env pb printed warned s.chains = verdict env pb s.accepted) ↔
      comesToEmpty env pb s.accepted = false := by
  have hnd := (hs .negdefault).anyMatch_eq pb
  have hpd := (hs .posdefault).anyMatch_eq pb
  have hnu := (hs .neguser).anyMatch_eq pb
  have hpu := (hs .posuser).anyMatch_eq pb
  have hne := (hs .neguser).reachesEmpty_eq pb
  have hpe := (hs .posuser).reachesEmpty_eq pb
  simp only [FilterChains.get] at hnd hpd hnu hpu hne hpe
  unfold filterProcess verdict comesToEmpty
  rw [hnd, hpd, ← hnu, ← hpu, ← hne, ← hpe]
  cases anyMatch env pb (ownFilters env s.accepted .negdefault) with
  | true => simp
  | false =>
    cases anyMatch env pb (ownFilters env s.accepted .posdefault) with
    | true => simp
    | false =>
      simp only [Bool.not_false, Bool.true_and, Bool.false_eq_true, if_false]
      constructor
      · intro h
        by_contra hreach
        rw [Bool.not_eq_false, Bool.or_eq_true] at hreach
        have hbad := h (-1) false
        cases hn : reachesEmpty env pb s.chains.neguserfilters with
        | true =>
          rw [userLoop_reachesEmpty env pb _ (by decide) hn] at hbad
          dsimp only at hbad
          split at hbad <;> omega
        | false =>
          simp only [hn, Bool.false_eq_true, false_or, Bool.and_eq_true, Bool.not_eq_true'] at hreach
          rw [userLoop_eq env pb _ _ _ hn] at hbad
          simp only [hreach.1, Bool.false_eq_true, if_false] at hbad
          rw [userLoop_reachesEmpty env pb _ (by decide) hreach.2] at hbad
          dsimp only at hbad
          split at hbad <;> omega
      · intro hreach printed warned
        rw [Bool.or_eq_false_iff] at hreach
        obtain ⟨hn, hp⟩ := hreach
        rw [userLoop_eq env pb _ _ _ hn]
        cases hnm : anyMatch env pb s.chains.neguserfilters with
        | true => simp
        | false =>
          simp only [hnm, Bool.not_false, Bool.true_and] at hp
          simp only [Bool.false_eq_true, if_false]
          rw [userLoop_eq env pb _ _ _ hp]
          cases anyMatch env pb s.chains.posuserfilters <;> simp

/-- In a run of `filter_parse` whose names and texts fit the filters they go to, the verdict on
a packet is that of the accepted specifications, each as a filter of its own, if and only if
no specification of the user without a type comes up before the verdict. -/
theorem merged_verdict_iff {calls : List FilterCall}
    (h : Meets (filterStep env userfilterok) (CallFits env userfilterok) (some .init) calls) :
    ∃ s, run (filterStep env userfilterok) (some .init) calls = some s ∧
      ∀ pb, (∀ printed warned,
        filterProcess env pb printed warned s.chains = verdict env pb s.accepted) ↔
          comesToEmpty env pb s.accepted = false := by
  obtain ⟨s, hrun, hs⟩ := merged_of_meets FilterState.merged_init h
  exact ⟨s, hrun, hs.filterProcess_eq_iff⟩

end

private def mergeEnv : FilterEnv where
  parseGeometry _ := false
  parseRange _ := false
  inRange _ _ := false
  filterEntrycallLookup _ := false
  filterWxLookup _ := false

private def mergePacket : FilterPacket where
  data := ascii "OH7AA>APRS,qAR,OH7AC:>test\r\n"
  packetLen := 28
  packettype := tStatus
  flags := 0
  srcname := 0
  srcnameLen := 5
  dstname := none
  dstnameLen := 0
  srccallEnd := 5
  dstcallEndOrSsid := 10
  dstcallEnd := 10
  dstcallLen := 4
  qconstStart := 11
  infoStart := 21
  t := 0
  entrycallLen := 5
  symbol := (0, 0)
  qconst_ne := by decide

/-- Two sets of prefixes are merged. -/
theorem merged_verdict_iff_prefixes :
    ∃ s, run (filterStep mergeEnv true) (some .init)
        [⟨ascii "p/SM/OH2", true, true⟩, ⟨ascii "p/OH7", true, true⟩] = some s ∧
      ∀ pb, (∀ printed warned,
        filterProcess mergeEnv pb printed warned s.chains = verdict mergeEnv pb s.accepted) ↔
          comesToEmpty mergeEnv pb s.accepted = false := by
  refine merged_verdict_iff ⟨fun _ f hf => ⟨fun refs n hbody => ?_, fun _ ff hff _ => ?_⟩,
    fun _ f hf => ⟨fun refs n hbody => ?_, fun _ ff hff _ => ?_⟩, trivial⟩
  · cases hf
    cases hbody
    decide
  · cases hff
  · cases hf
    cases hbody
    decide
  · cases hf
    cases hff
    decide

/-- The client gets `p/OH` and `-`, and the first packet from a station in Finland is
blocked by the warning about the filter without a type. -/
theorem empty_filter_blocks :
    ¬∀ (env : FilterEnv) (userfilterok : Bool) (calls : List FilterCall) (pb : FilterPacket)
      (printed : Int) (warned : Bool),
      ∃ s, run (filterStep env userfilterok) (some .init) calls = some s ∧
        filterProcess env pb printed warned s.chains = verdict env pb s.accepted := by
  intro h
  obtain ⟨s, hrun, hverdict⟩ := h mergeEnv true
    [⟨ascii "p/OH", true, true⟩, ⟨ascii "-", true, true⟩] mergePacket 26 false
  cases hrun
  revert hverdict
  decide

end Aprsc
