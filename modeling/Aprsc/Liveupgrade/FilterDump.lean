-- SUMMARY: A client is filtered after a live upgrade as before, if its saved text has the specifications of the user.
import Aprsc.Filter.Merge
import Aprsc.Liveupgrade.Filters
import Mathlib.Algebra.Ring.Int.Defs

/-!
# Filtering after a live upgrade

The verdict on a packet depends on which specifications the listener and the user have
given, and not on their order or number. A specification of the user that the listener
has, too, is of no effect. So the restored client is filtered as before if the words of
the saved text are those of the user, up to the ones of the listener.

A filter without a type and a filter on the range of the client are exceptions. The first
is subject to a warning that is given once, and it is not saved that it was given. The
second depends on the position of the client, which is not restored in full.
-/

namespace Aprsc

open Runs

/-! ## Names and texts of filters -/

def FilterT.names (f : FilterT) : Nat :=
  match f.body with
  | .callsigns refcallsigns _ => refcallsigns.length
  | _ => 0

theorem FilterT.names_callsigns {f : FilterT} {refs : List RefCallsign} {n : Int}
    (h : f.body = .callsigns refs n) : f.names = refs.length := by
  rw [FilterT.names, h]

theorem FilterT.names_of_not_isSet {f : FilterT} (h : f.isSet = false) : f.names = 0 := by
  unfold FilterT.names
  cases hbody : f.body with
  | callsigns refs n => exact absurd hbody (FilterT.body_ne_callsigns h refs n)
  | _ => rfl

theorem length_splitOnP_le (p : UInt8 → Bool) (s : Bytes) :
    (s.splitOnP p).length ≤ s.length + 1 := by
  induction s with
  | nil => simp
  | cons b s ih =>
    rw [List.splitOnP_cons_eq_if_modifyHead, List.length_cons]
    split
    · simpa using ih
    · rw [List.length_modifyHead]
      omega

/-- There are fewer names than characters, because of the slash in front of them. -/
theorem length_slashParts_le (filt : Bytes) :
    (slashParts ((filt.dropWhile (· != ch '/')).drop 1)).length ≤ filt.length := by
  have hdrop := (List.dropWhile_sublist (· != ch '/') (l := filt)).length_le
  cases hd : filt.dropWhile (· != ch '/') with
  | nil => simp [slashParts]
  | cons b s =>
    rw [hd, List.length_cons] at hdrop
    have hparts := length_splitOnP_le (· == ch '/') s
    simp only [slashParts, List.drop_succ_cons, List.drop_zero]
    split
    · rw [List.length_dropLast]
      omega
    · omega

/-- Only a text that goes on behind a slash has names. -/
theorem two_le_of_callsignset {filt : Bytes} {wildok : MatchEnum} {refs : List RefCallsign}
    (h : filterParseOneCallsignset filt wildok = some refs) : 2 ≤ filt.length := by
  by_contra hlt
  have hdrop := (List.dropWhile_sublist (· != ch '/') (l := filt)).length_le
  have hnil : (filt.dropWhile (· != ch '/')).drop 1 = [] := by
    apply List.eq_nil_of_length_eq_zero
    rw [List.length_drop]
    omega
  simp [filterParseOneCallsignset, hnil, slashParts] at h

/-- The names of a filter are not more and its buffer is not larger than `n` characters make
them. -/
structure FilterT.Within (f : FilterT) (n : Nat) : Prop where
  names : f.names ≤ n
  textbuf : 2 * f.textbuf.length ≤ 3 * n

theorem FilterT.Within.mono {f : FilterT} {m n : Nat} (h : f.Within m) (hle : m ≤ n) :
    f.Within n where
  names := Nat.le_trans h.names hle
  textbuf := Nat.le_trans h.textbuf (Nat.mul_le_mul_left 3 hle)

theorem length_textbuf_filterText (filt0 : Bytes) :
    (filterText filt0).textbuf.length ≤ filt0.length := by
  unfold filterText
  split <;> simp

theorem FilterText.extend_textbuf {t t' : FilterText} {filt0 : Bytes}
    (h : t.extend filt0 = some t') :
    t'.textbuf.length ≤ t.textbuf.length + filt0.length + 1 := by
  unfold FilterText.extend at h
  dsimp only at h
  split at h
  · split at h
    · cases h
      rw [List.length_append, List.length_cons, Nat.add_assoc]
    · cases h
      exact Nat.le_trans (Nat.le_add_right _ _) (Nat.le_succ _)
  · cases h

theorem within_ownFilter {env : FilterEnv} {filt : Bytes} {f : FilterT}
    (h : ownFilter env filt = some f) :
    f.Within filt.length ∧ (f.isSet = true → 2 ≤ filt.length) := by
  have hdrop : (if filt.head? = some (ch '-') then filt.drop 1 else filt).length ≤ filt.length := by
    split
    · rw [List.length_drop]
      omega
    · exact Nat.le_refl _
  obtain ⟨htext, hcases⟩ := ownFilter_cases h
  have hbuf : 2 * f.textbuf.length ≤ 3 * filt.length := by
    have hle := length_textbuf_filterText filt
    rw [htext]
    omega
  generalize (if filt.head? = some (ch '-') then filt.drop 1 else filt) = s at hdrop hcases
  obtain ⟨wildok, refs, hrefs, hbody, -⟩ | ⟨hno, -⟩ := hcases
  · have hparts := length_slashParts_le s
    have htwo := two_le_of_callsignset hrefs
    refine ⟨⟨?_, hbuf⟩, fun _ => Nat.le_trans htwo hdrop⟩
    rw [FilterT.names_callsigns hbody]
    unfold filterParseOneCallsignset at hrefs
    dsimp only at hrefs
    split at hrefs
    · cases hrefs
    · split at hrefs
      · cases hrefs
      · cases hrefs
        rw [List.length_map]
        omega
  · refine ⟨⟨?_, hbuf⟩, fun hset => ?_⟩
    · rw [FilterT.names_of_not_isSet hno]
      exact Nat.zero_le _
    · rw [hno] at hset
      cases hset

/-! ## Specifications of a client -/

/-- The accepted specifications of the user or of the listener. -/
def FilterState.specs (s : FilterState) (isUser : Bool) : List Bytes :=
  (s.accepted.filter (·.isUserFilter == isUser)).map (·.filt)

/-- The texts that are accepted. -/
def acceptedOf (env : FilterEnv) (filts : List Bytes) : List Bytes :=
  filts.filter fun w => (ownFilter env w).isSome

/-- A specification with or without a minus sign matches. -/
def hits (env : FilterEnv) (pb : FilterPacket) (neg : Bool) (filts : List Bytes) : Bool :=
  filts.any fun filt => (filt.head? == some (ch '-')) == neg &&
    (ownFilter env filt).any fun f => filterProcessOne env pb f > 0

/-- The chain of the specifications with or without a minus sign. -/
def chainOf (isUser neg : Bool) : ChainId :=
  match isUser, neg with
  | false, true => .negdefault
  | false, false => .posdefault
  | true, true => .neguser
  | true, false => .posuser

theorem FilterCall.chain_eq_iff (call : FilterCall) (isUser neg : Bool) :
    decide (call.chain = chainOf isUser neg) =
      (call.isUserFilter == isUser && (call.filt.head? == some (ch '-')) == neg) := by
  unfold FilterCall.chain
  cases call.isUserFilter <;> cases call.filt.head? == some (ch '-') <;> cases isUser <;>
    cases neg <;> rfl

section
variable (env : FilterEnv) (pb : FilterPacket)

theorem anyMatch_ownFilters (s : FilterState) (isUser neg : Bool) :
    anyMatch env pb (ownFilters env s.accepted (chainOf isUser neg)) =
      hits env pb neg (s.specs isUser) := by
  unfold anyMatch ownFilters hits FilterState.specs
  rw [List.any_filterMap, List.any_filter, List.any_map, List.any_filter]
  congr 1
  funext call
  rw [FilterCall.chain_eq_iff, Bool.and_assoc, Function.comp_apply]
  cases ownFilter env call.filt <;> rfl

/-- The verdict of specifications of the listener and of the user. -/
def specsVerdict (defaults user : List Bytes) : Int :=
  if hits env pb true defaults then 0
  else if hits env pb false defaults then 1
  else if hits env pb true user then 0
  else if hits env pb false user then 1
  else 0

theorem verdict_eq_specsVerdict (s : FilterState) :
    verdict env pb s.accepted = specsVerdict env pb (s.specs false) (s.specs true) := by
  unfold verdict specsVerdict
  rw [← anyMatch_ownFilters, ← anyMatch_ownFilters, ← anyMatch_ownFilters, ← anyMatch_ownFilters]
  rfl

theorem hits_append (neg : Bool) (ws vs : List Bytes) :
    hits env pb neg (ws ++ vs) = (hits env pb neg ws || hits env pb neg vs) :=
  List.any_append

/-- Texts that are turned down do not count. -/
theorem hits_acceptedOf (neg : Bool) (ws : List Bytes) :
    hits env pb neg (acceptedOf env ws) = hits env pb neg ws := by
  unfold hits acceptedOf
  rw [List.any_filter]
  congr 1
  funext w
  cases ownFilter env w <;> simp

theorem specsVerdict_acceptedOf (defaults user : List Bytes) :
    specsVerdict env pb (acceptedOf env defaults) user = specsVerdict env pb defaults user ∧
      specsVerdict env pb defaults (acceptedOf env user) = specsVerdict env pb defaults user := by
  simp only [specsVerdict, hits_acceptedOf, and_self]

/-- Neither do the order and number of the others. -/
theorem hits_le {neg : Bool} {ws vs : List Bytes}
    (h : ∀ w, (ownFilter env w).isSome = true → w ∈ ws → w ∈ vs) (hw : hits env pb neg ws = true) :
    hits env pb neg vs = true := by
  obtain ⟨w, hmem, hhit⟩ := List.any_eq_true.mp hw
  have haccepted : (ownFilter env w).isSome = true := by
    cases hown : ownFilter env w with
    | none => simp [hown] at hhit
    | some f => rfl
  exact List.any_eq_true.mpr ⟨w, h w haccepted hmem, hhit⟩

/-- A specification of the user that the listener has, too, is of no effect. -/
theorem specsVerdict_congr {defaults user user' : List Bytes}
    (h : ∀ w, (ownFilter env w).isSome = true →
      (w ∈ defaults ∨ w ∈ user ↔ w ∈ defaults ∨ w ∈ user')) :
    specsVerdict env pb defaults user = specsVerdict env pb defaults user' := by
  have hall : ∀ neg, hits env pb neg (defaults ++ user) = hits env pb neg (defaults ++ user') := by
    intro neg
    refine Bool.eq_iff_iff.mpr ⟨hits_le env pb ?_, hits_le env pb ?_⟩
    · intro w hw hmem
      exact List.mem_append.mpr ((h w hw).mp (List.mem_append.mp hmem))
    · intro w hw hmem
      exact List.mem_append.mpr ((h w hw).mpr (List.mem_append.mp hmem))
  have hneg := hall true
  have hpos := hall false
  simp only [hits_append] at hneg hpos
  unfold specsVerdict
  cases hn : hits env pb true defaults with
  | true => rfl
  | false =>
    cases hp : hits env pb false defaults with
    | true => rfl
    | false =>
      rw [hn, Bool.false_or, Bool.false_or] at hneg
      rw [hp, Bool.false_or, Bool.false_or] at hpos
      rw [hneg, hpos]

end

/-! ## Parsing a list of texts -/

section
variable {env : FilterEnv} {userfilterok isUser : Bool} {s s' : FilterState}

theorem appendFilter_ne_noCell (fs : List FilterT) (f : FilterT) :
    appendFilter true fs f ≠ .noCell := by
  unfold appendFilter
  split
  · split
    · split <;> simp
    · simp
  · simp

/-- The filters of a chain get at most the characters of the new one. -/
theorem appendFilter_within {cell : Bool} {fs gs : List FilterT} {filt : Bytes} {f : FilterT}
    {n : Nat} (hown : ownFilter env filt = some f) (hfs : ∀ g ∈ fs, g.Within n)
    (h : appendFilter cell fs f = .chain gs) : ∀ g ∈ gs, g.Within (n + filt.length) := by
  obtain ⟨hf, htwo⟩ := within_ownFilter hown
  have hlink : ∀ gs, (if cell then AppendResult.chain (fs ++ [f]) else .noCell) = .chain gs →
      ∀ g ∈ gs, g.Within (n + filt.length) := by
    intro gs hgs g hg
    cases cell with
    | false => cases hgs
    | true =>
      cases hgs
      obtain hg | hg := List.mem_append.mp hg
      · exact (hfs g hg).mono (Nat.le_add_right _ _)
      · rw [List.mem_singleton.mp hg]
        exact hf.mono (Nat.le_add_left _ _)
  unfold appendFilter at h
  split at h
  · rename_i ff refs m hlast hbody
    split at h
    · split at h
      · rename_i ff' hff'
        cases h
        intro g hg
        obtain hg | hg := List.mem_append.mp hg
        · exact (hfs g (List.dropLast_subset _ hg)).mono (Nat.le_add_right _ _)
        · rw [List.mem_singleton.mp hg]
          have hold := hfs ff (List.mem_of_getLast? hlast)
          have hchars := htwo (by rw [FilterT.isSet, hbody])
          have hnames := hf.names
          rw [FilterT.names_callsigns hbody] at hnames
          rw [ownFilter_text hown] at hff'
          unfold extendFilter at hff'
          split at hff'
          · rename_i refs' m' hbody'
            split at hff'
            · cases hff'
            · obtain ⟨text, htext, rfl⟩ := Option.map_eq_some_iff.mp hff'
              have htake := List.length_take_le' m'.toNat refs'
              have hbefore := hold.names
              have hbuf := hold.textbuf
              have hafter := FilterText.extend_textbuf htext
              rw [FilterT.names_callsigns hbody'] at hbefore
              refine ⟨?_, ?_⟩
              · rw [FilterT.names_callsigns rfl, List.length_append]
                omega
              · dsimp only
                omega
          · cases hff'
      · cases h
    · exact hlink gs h
  · exact hlink gs h

/-- What `filter_parse` does when there is memory: it turns the text down, or it adds the
filter to its chain. -/
theorem filterParse_cases {filt : Bytes}
    (h : filterParse env userfilterok s ⟨filt, isUser, true⟩ = some s') :
    (s' = s ∧ ((isUser && !userfilterok) = true ∨ ownFilter env filt = none)) ∨
      ∃ f fs, (isUser && !userfilterok) = false ∧ ownFilter env filt = some f ∧
        appendFilter true (s.chains.get (chainOf isUser (filt.head? == some (ch '-')))) f =
          .chain fs ∧
        s' = ⟨s.chains.set (chainOf isUser (filt.head? == some (ch '-'))) fs,
          s.accepted ++ [⟨filt, isUser, true⟩]⟩ := by
  have hchain : (FilterCall.mk filt isUser true).chain =
      chainOf isUser (filt.head? == some (ch '-')) := rfl
  unfold filterParse at h
  dsimp only at h
  rw [hchain] at h
  cases huser : isUser && !userfilterok with
  | true =>
    rw [if_pos huser] at h
    exact .inl ⟨(Option.some.inj h).symm, .inl rfl⟩
  | false =>
    rw [huser, if_neg Bool.false_ne_true] at h
    cases hown : ownFilter env filt with
    | none =>
      rw [hown] at h
      exact .inl ⟨(Option.some.inj h).symm, .inr rfl⟩
    | some f =>
      rw [hown] at h
      dsimp only at h
      split at h
      · cases h
      · rename_i hno
        exact absurd hno (appendFilter_ne_noCell _ _)
      · rename_i fs hfs
        exact .inr ⟨f, fs, rfl, rfl, hfs, (Option.some.inj h).symm⟩

/-- The specifications that are added to those of the user or of the listener. -/
structure SpecsAdded (env : FilterEnv) (isUser : Bool) (s s' : FilterState) (filts : List Bytes) :
    Prop where
  specs : s'.specs isUser = s.specs isUser ++ acceptedOf env filts
  others : s'.specs (!isUser) = s.specs (!isUser)
  frame : ∀ neg, s'.chains.get (chainOf (!isUser) neg) = s.chains.get (chainOf (!isUser) neg)

theorem SpecsAdded.trans {s'' : FilterState} {ws vs : List Bytes} (h₁ : SpecsAdded env isUser s s' ws)
    (h₂ : SpecsAdded env isUser s' s'' vs) : SpecsAdded env isUser s s'' (ws ++ vs) where
  specs := by rw [h₂.specs, h₁.specs, acceptedOf, acceptedOf, acceptedOf, List.filter_append, List.append_assoc]
  others := h₂.others.trans h₁.others
  frame neg := (h₂.frame neg).trans (h₁.frame neg)

theorem specsAdded_filterParse {filt : Bytes} (huser : (isUser && !userfilterok) = false)
    (h : filterParse env userfilterok s ⟨filt, isUser, true⟩ = some s') :
    SpecsAdded env isUser s s' [filt] := by
  obtain ⟨rfl, hno | hno⟩ | ⟨f, fs, -, hown, -, rfl⟩ := filterParse_cases h
  · rw [huser] at hno
    cases hno
  · exact ⟨by simp [acceptedOf, hno], rfl, fun _ => rfl⟩
  · refine ⟨?_, ?_, fun neg => ?_⟩
    · simp [FilterState.specs, acceptedOf, hown]
    · simp [FilterState.specs]
    · rw [FilterChains.get_set, if_neg]
      cases isUser <;> cases neg <;> cases filt.head? == some (ch '-') <;> decide

theorem filterParseAll_cons (filt : Bytes) (filts : List Bytes) (s : FilterState) :
    filterParseAll env userfilterok isUser (filt :: filts) s =
      (filterParse env userfilterok s ⟨filt, isUser, true⟩).bind
        (filterParseAll env userfilterok isUser filts) := rfl

theorem run_filterStep (filts : List Bytes) (s : Option FilterState) :
    run (filterStep env userfilterok) s (filts.map (⟨·, isUser, true⟩)) =
      s.bind (filterParseAll env userfilterok isUser filts) := by
  induction filts generalizing s with
  | nil => cases s <;> rfl
  | cons filt filts ih =>
    rw [List.map_cons, run_cons, ih, filterStep, Option.bind_assoc]
    rfl

theorem specsAdded_filterParseAll {filts : List Bytes} (huser : (isUser && !userfilterok) = false)
    (h : filterParseAll env userfilterok isUser filts s = some s') :
    SpecsAdded env isUser s s' filts := by
  induction filts generalizing s with
  | nil =>
    cases h
    exact ⟨by simp [acceptedOf], rfl, fun _ => rfl⟩
  | cons filt filts ih =>
    rw [filterParseAll_cons] at h
    obtain ⟨s₁, h₁, h⟩ := Option.bind_eq_some_iff.mp h
    exact (specsAdded_filterParse huser h₁).trans (ih h)

/-- Without permission, no filter of the user is taken. -/
theorem filterParseAll_refused (filts : List Bytes) (s : FilterState) :
    filterParseAll env false true filts s = some s := by
  induction filts with
  | nil => rfl
  | cons filt filts ih =>
    rw [filterParseAll_cons]
    exact ih

theorem namesBefore_le {chain : List FilterT} {n : Nat} (hwf : ∀ f ∈ chain, f.Wf)
    (hn : ∀ f ∈ chain, f.names ≤ n) (type : UInt8) : namesBefore chain type ≤ n := by
  unfold namesBefore
  split
  · rename_i ff hlast
    have hmem := List.mem_of_getLast? hlast
    have hcounted := (hwf ff hmem).counted
    have hle := hn ff hmem
    split
    · rename_i refs m hbody
      rw [FilterT.names_callsigns hbody] at hle
      rw [hbody] at hcounted
      obtain rfl : m = refs.length := hcounted
      split
      · exact Int.ofNat_le.mpr hle
      · exact Int.natCast_nonneg n
    · exact Int.natCast_nonneg n
  · exact Int.natCast_nonneg n

/-- The texts fit the filters they go to, one after the other. -/
def WordsFit (env : FilterEnv) (userfilterok isUser : Bool) (filts : List Bytes)
    (s : FilterState) : Prop :=
  Meets (filterStep env userfilterok) (CallFits env userfilterok) (some s)
    (filts.map (⟨·, isUser, true⟩))

/-- Texts that fit are parsed, and the chains stay merged. -/
theorem filterParseAll_merged {filts : List Bytes} (hs : s.Merged env)
    (hfits : WordsFit env userfilterok isUser filts s) :
    ∃ s', filterParseAll env userfilterok isUser filts s = some s' ∧ s'.Merged env := by
  obtain ⟨s', hrun, hs'⟩ := merged_of_meets hs hfits
  rw [run_filterStep] at hrun
  exact ⟨s', hrun, hs'⟩

/-- Texts of less than `FILTER_S_SIZE` characters fit. A set of callsigns has two characters
at least, so that the blanks between the texts add half of their length to the buffer. -/
theorem wordsFit_of_short {filts : List Bytes} {n : Nat} (hs : s.Merged env)
    (hwithin : ∀ neg, ∀ f ∈ s.chains.get (chainOf isUser neg), f.Within n)
    (hlen : n + (filts.map List.length).sum < filterSSize) :
    WordsFit env userfilterok isUser filts s := by
  induction filts generalizing s n with
  | nil => trivial
  | cons filt filts ih =>
    rw [List.map_cons, List.sum_cons] at hlen
    unfold filterSSize at hlen
    have hfits : CallFits env userfilterok (some s) ⟨filt, isUser, true⟩ := by
      intro _ f hown
      obtain ⟨hf, -⟩ := within_ownFilter hown
      refine ⟨fun refs m hbody => ?_, fun _ ff hff _ => ?_⟩
      · have hbefore := namesBefore_le (hs _).wf
          (fun g hg => (hwithin (filt.head? == some (ch '-')) g hg).names) f.type
        have hrefs : refs.length ≤ filt.length := by
          have hle := hf.names
          rwa [FilterT.names_callsigns hbody] at hle
        refine Int.le_trans (Int.add_le_add hbefore (Int.ofNat_le.mpr hrefs)) ?_
        unfold int16Max
        omega
      · have hbuf := (hwithin (filt.head? == some (ch '-')) ff (List.mem_of_getLast? hff)).textbuf
        have hroom : ff.textbuf.length + filt.length + 2 ≤ filtTextbufsize := by
          unfold filtTextbufsize
          omega
        rw [ownFilter_text hown]
        exact Nat.le_trans hroom (Nat.le_max_left _ _)
    refine ⟨hfits, ?_⟩
    obtain ⟨s₁, h₁, hs₁⟩ := hs.step hfits
    have hstep : filterStep env userfilterok (some s) ⟨filt, isUser, true⟩ = some s₁ := h₁
    rw [hstep]
    refine ih (n := n + filt.length) hs₁ ?_ (by unfold filterSSize; omega)
    intro neg f hf
    obtain ⟨rfl, -⟩ | ⟨g, fs, -, hown, hfs, rfl⟩ := filterParse_cases h₁
    · exact (hwithin neg f hf).mono (Nat.le_add_right _ _)
    · rw [FilterChains.get_set] at hf
      split at hf
      · exact appendFilter_within hown (hwithin _) hfs f hf
      · exact (hwithin neg f hf).mono (Nat.le_add_right _ _)

end

/-! ## What is kept -/

variable {F : Type}

section
variable (env : FilterEnv) (l : FilterListener)

/-- Every accepted text has a type. -/
def Typed (ws : List Bytes) : Prop :=
  ∀ w ∈ ws, ∀ f, ownFilter env w = some f → f.body ≠ .empty

/-- Among the texts that are accepted, the words are those of the user, up to the ones of
the listener. They have a type. -/
structure SpecsKept (args words : List Bytes) : Prop where
  same : ∀ w, (ownFilter env w).isSome = true →
    (w ∈ l.filters ∨ w ∈ args ↔ w ∈ l.filters ∨ w ∈ words)
  typedArgs : Typed env args
  typedWords : Typed env words

end

section
variable [Zero F] (env : ClientEnv F) (l : FilterListener)

/-- The position of the client after a live upgrade. -/
def ClientEnv.locAfter (loc : Option (ClientLoc F)) : Option (ClientLoc F) :=
  loc.map fun loc => env.restoredLoc (loc.lat, loc.lng)

/-- The position is restored as it was, or there is no filter on the range of the client. -/
def RangeKept (loc : Option (ClientLoc F)) (args : List Bytes) : Prop :=
  env.locAfter loc = loc ∨
    ∀ w, w ∈ l.filters ∨ w ∈ args → isMyRange w = true → ownFilter env.toFilterEnv w = none

/-- The restored client is filtered as the original one, on every packet. It was warned
about a filter without a type or not. -/
def FilterClient.Survives (c : FilterClient F) : Prop :=
  ∃ c', l.acceptLiveupgradeSingle env c.workerClientJson = some c' ∧
    ∀ pb printed warned,
      filterProcess (env.located c'.loc) pb printed false c'.filters.chains =
        filterProcess (env.located c.loc) pb printed warned c.filters.chains

end

/-! ## The verdict after a live upgrade -/

section
variable (env : ClientEnv F) {l : FilterListener}

theorem filterProcessOne_located {f : FilterT} (h : isMyRange f.text = false)
    (loc : Option (ClientLoc F)) (pb : FilterPacket) :
    filterProcessOne (env.located loc) pb f = filterProcessOne env.toFilterEnv pb f := by
  have hrange : (env.located loc).inRange f.text pb = env.inRange f.text pb := by
    simp [ClientEnv.located, h]
  unfold filterProcessOne filterProcessOneT
  rw [hrange]
  rfl

/-- Without a filter on the range of the client, its position does not matter. -/
theorem hits_located {ws : List Bytes}
    (h : ∀ w ∈ ws, isMyRange w = true → ownFilter env.toFilterEnv w = none)
    (loc : Option (ClientLoc F)) (pb : FilterPacket) (neg : Bool) :
    hits (env.located loc) pb neg ws = hits env.toFilterEnv pb neg ws := by
  have hone : ∀ w ∈ ws, ∀ f, ownFilter env.toFilterEnv w = some f →
      filterProcessOne (env.located loc) pb f = filterProcessOne env.toFilterEnv pb f := by
    intro w hw f hown
    apply filterProcessOne_located
    rw [ownFilter_text hown, Bool.eq_false_iff]
    intro hmy
    rw [h w hw hmy] at hown
    cases hown
  unfold hits
  refine Bool.eq_iff_iff.mpr ?_
  simp only [List.any_eq_true, Bool.and_eq_true, Option.any_eq_true]
  refine exists_congr fun w => and_congr_right fun hw => and_congr_right fun _ =>
    exists_congr fun f => and_congr_right fun hown => ?_
  rw [hone w hw f hown]

/-- No filter without a type comes up. -/
theorem reachesEmpty_of_typed {env : FilterEnv} {pb : FilterPacket} {fs : List FilterT}
    (h : ∀ f ∈ fs, f.body ≠ .empty) : reachesEmpty env pb fs = false := by
  induction fs with
  | nil => rfl
  | cons f fs ih =>
    have hf := h f List.mem_cons_self
    have hfs := ih fun g hg => h g (List.mem_cons_of_mem f hg)
    obtain (hrc | hrc) | ⟨hbody, -⟩ := filterProcessOne_cases env pb f
    · simp [reachesEmpty, hrc]
    · simpa [reachesEmpty, hrc] using hfs
    · exact absurd hbody hf

theorem typed_ownFilters {env : FilterEnv} {s : FilterState} (h : Typed env (s.specs true))
    (neg : Bool) : ∀ f ∈ ownFilters env s.accepted (chainOf true neg), f.body ≠ .empty := by
  intro f hf
  obtain ⟨call, hcall, hown⟩ := List.mem_filterMap.mp hf
  obtain ⟨hmem, hchain⟩ := List.mem_filter.mp hcall
  rw [FilterCall.chain_eq_iff, Bool.and_eq_true] at hchain
  refine h call.filt (List.mem_map.mpr ⟨call, ?_, rfl⟩) f hown
  exact List.mem_filter.mpr ⟨hmem, hchain.1⟩

/-- The chains give the verdict of the specifications. -/
theorem filterProcess_eq_specsVerdict {env : FilterEnv} {s : FilterState} (hs : s.Merged env)
    (htyped : Typed env (s.specs true)) (pb : FilterPacket) (printed : Int) (warned : Bool) :
    filterProcess env pb printed warned s.chains =
      specsVerdict env pb (s.specs false) (s.specs true) := by
  have hneg : reachesEmpty env pb (ownFilters env s.accepted .neguser) = false :=
    reachesEmpty_of_typed (typed_ownFilters htyped true)
  have hpos : reachesEmpty env pb (ownFilters env s.accepted .posuser) = false :=
    reachesEmpty_of_typed (typed_ownFilters htyped false)
  have hempty : comesToEmpty env pb s.accepted = false := by simp [comesToEmpty, hneg, hpos]
  rw [← verdict_eq_specsVerdict]
  exact (hs.filterProcess_eq_iff pb).mpr hempty printed warned

/-- Words that are kept give the same verdict after a live upgrade. -/
theorem specsVerdict_kept [Zero F] {loc : Option (ClientLoc F)} {args words : List Bytes}
    (hkept : SpecsKept env.toFilterEnv l args words) (hrange : RangeKept env l loc args)
    (pb : FilterPacket) :
    specsVerdict (env.located (env.locAfter loc)) pb l.filters words =
      specsVerdict (env.located loc) pb l.filters args := by
  have hsame : specsVerdict (env.located loc) pb l.filters words =
      specsVerdict (env.located loc) pb l.filters args :=
    (specsVerdict_congr (env.located loc) pb hkept.same).symm
  rw [← hsame]
  obtain heq | hno := hrange
  · rw [heq]
  · have hdefaults : ∀ w ∈ l.filters, isMyRange w = true → ownFilter env.toFilterEnv w = none :=
      fun w hw => hno w (.inl hw)
    have hwords : ∀ w ∈ words, isMyRange w = true → ownFilter env.toFilterEnv w = none := by
      intro w hw hmy
      cases hown : ownFilter env.toFilterEnv w with
      | none => rfl
      | some f =>
        have hmem := (hkept.same w (by rw [hown]; rfl)).mpr (.inr hw)
        rw [← hown]
        exact hno w hmem hmy
    unfold specsVerdict
    simp only [hits_located env hdefaults, hits_located env hwords]

end

/-! ## Filters of the user -/

/-- There are no filters of the user. -/
structure FilterState.NoUser (s : FilterState) : Prop where
  chains : ∀ neg, s.chains.get (chainOf true neg) = []
  specs : s.specs true = []

theorem FilterState.noUser_freeUser (s : FilterState) : s.freeUser.NoUser where
  chains neg := by cases neg <;> rfl
  specs := by simp [FilterState.specs, FilterState.freeUser, List.filter_filter]

theorem FilterState.specs_freeUser (s : FilterState) : s.freeUser.specs false = s.specs false := by
  simp [FilterState.specs, FilterState.freeUser, List.filter_filter]

theorem FilterState.Merged.freeUser {env : FilterEnv} {s : FilterState} (hs : s.Merged env) :
    s.freeUser.Merged env := by
  have hown : ∀ neg, ownFilters env s.freeUser.accepted (chainOf false neg) =
      ownFilters env s.accepted (chainOf false neg) := by
    intro neg
    unfold ownFilters FilterState.freeUser
    rw [List.filter_filter]
    congr 2
    funext call
    rw [FilterCall.chain_eq_iff]
    cases call.isUserFilter <;> simp
  have hnone : ∀ neg, ownFilters env s.freeUser.accepted (chainOf true neg) = [] := by
    intro neg
    unfold ownFilters FilterState.freeUser
    rw [List.filter_filter, List.filter_eq_nil_iff.mpr]
    · rfl
    · intro call _
      rw [FilterCall.chain_eq_iff]
      cases call.isUserFilter <;> simp
  intro id
  cases id with
  | negdefault => exact (hown true) ▸ hs .negdefault
  | posdefault => exact (hown false) ▸ hs .posdefault
  | neguser => exact (hnone true) ▸ Represents.nil env
  | posuser => exact (hnone false) ▸ Represents.nil env

/-- The chains are merged wherever the client is. -/
def FilterState.MergedAnywhere (env : ClientEnv F) (s : FilterState) : Prop :=
  ∀ loc, s.Merged (env.located loc)

section
variable {env : ClientEnv F} {l : FilterListener} {s : FilterState}

theorem filterParseAll_mergedAnywhere {userfilterok isUser : Bool} {filts : List Bytes}
    (hs : s.MergedAnywhere env) (hfits : WordsFit env.toFilterEnv userfilterok isUser filts s) :
    ∃ s', filterParseAll env.toFilterEnv userfilterok isUser filts s = some s' ∧
      s'.MergedAnywhere env := by
  have hparse : ∀ loc, ∃ s', filterParseAll env.toFilterEnv userfilterok isUser filts s = some s' ∧
      s'.Merged (env.located loc) :=
    fun loc => filterParseAll_merged (hs loc) hfits
  obtain ⟨s', hs', -⟩ := hparse none
  refine ⟨s', hs', fun loc => ?_⟩
  obtain ⟨s'', hs'', hmerged⟩ := hparse loc
  rw [hs'] at hs''
  cases hs''
  exact hmerged

/-- Filters of the user are added to none. -/
theorem filterParseAll_user (userfilterok : Bool) (words : List Bytes) (hs : s.MergedAnywhere env)
    (hno : s.NoUser)
    (hfits : userfilterok = true → WordsFit env.toFilterEnv true true words s) :
    ∃ s', filterParseAll env.toFilterEnv userfilterok true words s = some s' ∧
      s'.MergedAnywhere env ∧ s'.specs false = s.specs false ∧
      s'.specs true = if userfilterok then acceptedOf env.toFilterEnv words else [] := by
  cases userfilterok with
  | false => exact ⟨s, filterParseAll_refused words s, hs, rfl, hno.specs⟩
  | true =>
    obtain ⟨s', hs', hmerged⟩ := filterParseAll_mergedAnywhere hs (hfits rfl)
    have hadded := specsAdded_filterParseAll rfl hs'
    have hspecs := hadded.specs
    rw [hno.specs, List.nil_append] at hspecs
    exact ⟨s', hs', hmerged, hadded.others, hspecs⟩

/-- The filters of a listener are parsed for a new client. -/
theorem filterParseAll_listener
    (hfits : WordsFit env.toFilterEnv l.userfilterok false l.filters .init) :
    ∃ s, filterParseAll env.toFilterEnv l.userfilterok false l.filters .init = some s ∧
      s.MergedAnywhere env ∧ s.NoUser ∧ s.specs false = acceptedOf env.toFilterEnv l.filters := by
  have hinit : FilterState.init.MergedAnywhere env := fun _ => FilterState.merged_init
  obtain ⟨s, hs, hmerged⟩ := filterParseAll_mergedAnywhere hinit hfits
  have hadded := specsAdded_filterParseAll rfl hs
  refine ⟨s, hs, hmerged, ⟨fun neg => ?_, hadded.others⟩, hadded.specs⟩
  exact (hadded.frame neg).trans (by cases neg <;> rfl)

end

/-! ## Clients that are saved -/

section
variable [Zero F]

/-- The words that a live upgrade restores as filters of the user. -/
def FilterListener.restoredWords (l : FilterListener) (filterS : Bytes) : List Bytes :=
  if l.userfilterok then parseArgs filterS else []

/-- The filters of the client and its text belong together. -/
structure FilterClient.Saved (env : ClientEnv F) (l : FilterListener) (c : FilterClient F) :
    Prop where
  merged : c.filters.MergedAnywhere env
  defaults : c.filters.specs false = acceptedOf env.toFilterEnv l.filters
  kept : SpecsKept env.toFilterEnv l (c.filters.specs true) (l.restoredWords c.filterS)
  range : RangeKept env l c.loc (c.filters.specs true)
  fresh : c.loggedIn = false → c.filters.NoUser ∧ c.loc = none
  clean : sanitizeAsciiString c.filterS = c.filterS
  short : c.filterS.length < filterSSize

variable {env : ClientEnv F} {l : FilterListener} {c : FilterClient F}

/-- What `accept_liveupgrade_single` restores. -/
theorem acceptLiveupgradeSingle_spec
    (hfits : WordsFit env.toFilterEnv l.userfilterok false l.filters .init)
    (hshort : c.filterS.length < filterSSize) :
    ∃ c', l.acceptLiveupgradeSingle env c.workerClientJson = some c' ∧
      c'.loc = env.locAfter c.loc ∧ c'.filters.MergedAnywhere env ∧
      c'.filters.specs false = acceptedOf env.toFilterEnv l.filters ∧
      c'.filters.specs true = acceptedOf env.toFilterEnv (l.restoredWords c.filterS) := by
  obtain ⟨s, hs, hmerged, hno, hdefaults⟩ := filterParseAll_listener hfits
  have hwords : WordsFit (env.located none) true true (parseArgs c.filterS) s := by
    refine wordsFit_of_short (n := 0) (hmerged none) (fun neg f hf => ?_) ?_
    · rw [hno.chains neg] at hf
      cases hf
    · rw [Nat.zero_add]
      exact Nat.lt_of_le_of_lt (length_parseArgs_le c.filterS) hshort
  obtain ⟨s', hs', hmerged', hdefaults', huser⟩ := filterParseAll_user
    l.userfilterok (parseArgs c.filterS) hmerged hno fun _ => hwords
  have hloc : (c.workerClientJson.loc).map env.restoredLoc = env.locAfter c.loc :=
    Option.map_map ..
  unfold FilterListener.acceptLiveupgradeSingle FilterListener.acceptClientForListener
  unfold FilterListener.restoredWords
  rw [hs, hloc]
  cases huok : l.userfilterok with
  | false => exact ⟨_, rfl, rfl, hmerged, hdefaults, hno.specs⟩
  | true =>
    rw [huok] at hs' huser
    cases hempty : c.filterS.isEmpty with
    | true =>
      have hnil : parseArgs c.filterS = [] := by
        rw [List.isEmpty_iff.mp hempty]
        rfl
      refine ⟨⟨s, l.filterS, env.locAfter c.loc, c.loggedIn⟩, ?_, rfl, hmerged, hdefaults, ?_⟩
      · simp [FilterClient.workerClientJson, hempty]
      · rw [hnil]
        exact hno.specs
    | false =>
      refine ⟨⟨s', statusCopy c.filterS, env.locAfter c.loc, c.loggedIn⟩, ?_, rfl, hmerged',
        hdefaults'.trans hdefaults, huser⟩
      simp [FilterClient.workerClientJson, hempty, hs']

/-- The filters of the client give the verdict of its specifications. -/
theorem FilterClient.Saved.filterProcess_eq (h : c.Saved env l) (pb : FilterPacket)
    (printed : Int) (warned : Bool) :
    filterProcess (env.located c.loc) pb printed warned c.filters.chains =
      specsVerdict (env.located c.loc) pb (c.filters.specs false) (c.filters.specs true) :=
  filterProcess_eq_specsVerdict (h.merged _) h.kept.typedArgs pb printed warned

/-- A client whose filters and text belong together is filtered as before. -/
theorem FilterClient.Saved.survives (h : c.Saved env l)
    (hfits : WordsFit env.toFilterEnv l.userfilterok false l.filters .init) : c.Survives env l := by
  obtain ⟨c', hc', hloc, hmerged, hdefaults, huser⟩ := acceptLiveupgradeSingle_spec hfits h.short
  refine ⟨c', hc', fun pb printed warned => ?_⟩
  have htyped : Typed (env.located c'.loc) (c'.filters.specs true) := by
    rw [huser]
    exact fun w hw => h.kept.typedWords w (List.mem_of_mem_filter hw)
  calc filterProcess (env.located c'.loc) pb printed false c'.filters.chains
    _ = specsVerdict (env.located c'.loc) pb (c'.filters.specs false) (c'.filters.specs true) :=
        filterProcess_eq_specsVerdict (hmerged _) htyped pb printed false
    _ = specsVerdict (env.located (env.locAfter c.loc)) pb l.filters
          (l.restoredWords c.filterS) := by
        rw [hdefaults, huser, hloc]
        exact ((specsVerdict_acceptedOf (env.located _) pb _ _).1).trans
          (specsVerdict_acceptedOf (env.located _) pb _ _).2
    _ = specsVerdict (env.located c.loc) pb l.filters (c.filters.specs true) :=
        specsVerdict_kept env h.kept h.range pb
    _ = specsVerdict (env.located c.loc) pb (c.filters.specs false) (c.filters.specs true) := by
        rw [h.defaults]
        exact (specsVerdict_acceptedOf (env.located _) pb _ _).1.symm
    _ = filterProcess (env.located c.loc) pb printed warned c.filters.chains :=
        (h.filterProcess_eq pb printed warned).symm

/-! ## Events -/

theorem SpecsKept.nil (env : FilterEnv) (l : FilterListener) : SpecsKept env l [] [] :=
  ⟨fun _ _ => Iff.rfl, by simp [Typed], by simp [Typed]⟩

/-- The words are those of the user. -/
theorem SpecsKept.refl {env : FilterEnv} {words : List Bytes} (h : Typed env words) :
    SpecsKept env l words words :=
  ⟨fun _ _ => Iff.rfl, h, h⟩

/-- The words are those of the listener. -/
theorem SpecsKept.of_subset {env : FilterEnv} {words : List Bytes} (h : Typed env words)
    (hsub : ∀ w ∈ words, w ∈ l.filters) : SpecsKept env l [] words := by
  refine ⟨fun w _ => ?_, by simp [Typed], h⟩
  constructor
  · exact fun hw => hw.imp_right (by simp)
  · rintro (hw | hw)
    · exact .inl hw
    · exact .inl (hsub w hw)

theorem SpecsKept.acceptedOf {env : FilterEnv} {args words : List Bytes}
    (h : SpecsKept env l args words) : SpecsKept env l (acceptedOf env args) words := by
  refine ⟨fun w hw => ?_, fun w hw => h.typedArgs w (List.mem_of_mem_filter hw), h.typedWords⟩
  rw [← h.same w hw, Aprsc.acceptedOf, List.mem_filter, and_iff_left hw]

omit [Zero F] in
theorem sanitizeAsciiString_idem (s : Bytes) :
    sanitizeAsciiString (sanitizeAsciiString s) = sanitizeAsciiString s := by
  unfold sanitizeAsciiString
  rw [List.map_map]
  refine List.map_congr_left fun b _ => ?_
  rw [Function.comp_apply]
  split <;> rfl

theorem length_loginFilterS_lt {old : Bytes} (hold : old.length < filterSSize) (args : List Bytes) :
    (loginFilterS old args).length < filterSSize := by
  have hfold : ∀ (args : List Bytes) (fs : Bytes), fs.length < filterSSize →
      (args.foldl (fun fs arg =>
        if fs.length + arg.length + 2 < filterSSize then
          if fs.isEmpty then fs ++ arg else fs ++ ch ' ' :: arg
        else fs) fs).length < filterSSize := by
    intro args
    induction args with
    | nil => exact fun _ hfs => hfs
    | cons arg args ih =>
      intro fs hfs
      refine ih _ ?_
      dsimp only
      split
      · split <;> simp only [List.length_append, List.length_cons] <;> omega
      · exact hfs
  unfold loginFilterS
  dsimp only
  split
  · exact hold
  · exact hfold args [] (by decide)

theorem RangeKept.mono {loc : Option (ClientLoc F)} {args args' : List Bytes}
    (h : RangeKept env l loc args) (hsub : ∀ w ∈ args', w ∈ args) : RangeKept env l loc args' := by
  obtain heq | hno := h
  · exact .inl heq
  · exact .inr fun w hw => hno w (hw.imp_right (hsub w))

/-- New filters of the user and their text. -/
theorem FilterClient.saved_of_parse {s : FilterState} {args : List Bytes} {text : Bytes}
    (loc : Option (ClientLoc F)) (hs : s.MergedAnywhere env) (hno : s.NoUser)
    (hdefaults : s.specs false = Aprsc.acceptedOf env.toFilterEnv l.filters)
    (hfits : l.userfilterok = true → WordsFit env.toFilterEnv true true args s)
    (hkept : l.userfilterok = true → SpecsKept env.toFilterEnv l args (parseArgs text))
    (hrange : RangeKept env l loc (if l.userfilterok then args else []))
    (hclean : sanitizeAsciiString text = text) (hshort : text.length < filterSSize) :
    ∃ s', filterParseAll env.toFilterEnv l.userfilterok true args s = some s' ∧
      FilterClient.Saved env l ⟨s', text, loc, true⟩ := by
  obtain ⟨s', hs', hmerged, hdefaults', huser⟩ := filterParseAll_user
    l.userfilterok args hs hno hfits
  refine ⟨s', hs', hmerged, hdefaults'.trans hdefaults, ?_, ?_, by simp, hclean, hshort⟩
  · dsimp only
    rw [huser]
    cases huok : l.userfilterok with
    | false => simpa [FilterListener.restoredWords, huok] using SpecsKept.nil env.toFilterEnv l
    | true => simpa [FilterListener.restoredWords, huok] using (hkept huok).acceptedOf
  · dsimp only
    rw [huser]
    refine hrange.mono ?_
    cases l.userfilterok with
    | false => simp
    | true => exact fun w hw => List.mem_of_mem_filter hw

variable (env l) in
/-- What a listener must be like: its filters fit, and those that its status text shows have a
type. -/
structure FilterListener.KeepsFilters : Prop where
  fits : WordsFit env.toFilterEnv l.userfilterok false l.filters .init
  kept : SpecsKept env.toFilterEnv l [] (l.restoredWords l.filterS)

variable (env l) in
/-- What is kept of the filters of the user when an event takes place. -/
def KeepsFilters : Option (FilterClient F) → ClientEvent F → Prop
  | none, _ => False
  | some _, .login none => True
  | some c, .login (some args) =>
      c.loggedIn = false → l.userfilterok = true →
        WordsFit env.toFilterEnv true true args c.filters ∧
          SpecsKept env.toFilterEnv l args
            (parseArgs (sanitizeAsciiString (loginFilterS c.filterS args)))
  | some c, .command _ s =>
      c.loggedIn = true → l.userfilterok = true →
        match filterCommand s with
        | .other => True
        | .reset => SpecsKept env.toFilterEnv l [] (parseArgs c.filterS)
        | .set text =>
            WordsFit env.toFilterEnv true true (parseArgs text) c.filters.freeUser ∧
              SpecsKept env.toFilterEnv l (parseArgs text) (parseArgs (statusCopy text)) ∧
              RangeKept env l c.loc (parseArgs text)
  | some c, .position loc =>
      c.loggedIn = true → RangeKept env l (some loc) (c.filters.specs true)

theorem length_statusCopy_lt (text : Bytes) : (statusCopy text).length < filterSSize := by
  simp only [statusCopy, sanitizeAsciiString, List.length_map, List.length_take, filterSSize]
  omega

/-- The filters and the text of a new client belong together. -/
theorem FilterListener.KeepsFilters.saved_accept (hl : l.KeepsFilters env) :
    ∃ c, l.acceptClientForListener env = some c ∧ c.Saved env l := by
  obtain ⟨s, hs, hmerged, hno, hdefaults⟩ := filterParseAll_listener hl.fits
  refine ⟨⟨s, l.filterS, none, false⟩, ?_, hmerged, hdefaults, ?_, .inl rfl, ?_, ?_, ?_⟩
  · rw [FilterListener.acceptClientForListener, hs]
    rfl
  · dsimp only
    rw [hno.specs]
    exact hl.kept
  · exact fun _ => ⟨hno, rfl⟩
  · exact sanitizeAsciiString_idem _
  · dsimp only [FilterListener.filterS]
    rw [sanitizeAsciiString, List.length_map]
    exact length_loginFilterS_lt (by decide) _

theorem FilterClient.Saved.login (h : c.Saved env l) {filters : Option (List Bytes)}
    (hfresh : c.loggedIn = false) (hkeeps : KeepsFilters env l (some c) (.login filters)) :
    ∃ c', c.login env l filters = some c' ∧ c'.Saved env l := by
  have hnone : FilterClient.Saved env l
      { c with filterS := sanitizeAsciiString c.filterS, loggedIn := true } := by
    rw [h.clean]
    exact ⟨h.merged, h.defaults, h.kept, h.range, by simp, h.clean, h.short⟩
  unfold FilterClient.login
  split
  · rename_i args huok
    obtain ⟨hfits, hkept⟩ := hkeeps hfresh huok
    obtain ⟨hno, hloc⟩ := h.fresh hfresh
    have hshort : (sanitizeAsciiString (loginFilterS c.filterS args)).length < filterSSize := by
      rw [sanitizeAsciiString, List.length_map]
      exact length_loginFilterS_lt h.short args
    obtain ⟨s', hs', hsaved⟩ := FilterClient.saved_of_parse c.loc h.merged hno h.defaults
      (fun _ => hfits) (fun _ => hkept) (.inl (by rw [hloc]; rfl))
      (sanitizeAsciiString_idem _) hshort
    exact ⟨_, by rw [hs']; rfl, hsaved⟩
  · exact ⟨_, rfl, hnone⟩

theorem FilterClient.Saved.filterCommands (h : c.Saved env l) {inMessage : Bool} {s : Bytes}
    (hlogged : c.loggedIn = true) (hkeeps : KeepsFilters env l (some c) (.command inMessage s)) :
    ∃ c', c.filterCommands env l s = some c' ∧ c'.Saved env l := by
  have hmerged : c.filters.freeUser.MergedAnywhere env := fun loc => (h.merged loc).freeUser
  have hno := c.filters.noUser_freeUser
  have hdefaults := c.filters.specs_freeUser.trans h.defaults
  have hrange : RangeKept env l c.loc [] := h.range.mono (by simp)
  simp only [KeepsFilters] at hkeeps
  unfold FilterClient.filterCommands
  split
  · exact ⟨c, rfl, h⟩
  · rename_i hreset
    simp only [hreset] at hkeeps
    refine ⟨_, rfl, hmerged, hdefaults, ?_, ?_, by simp [hlogged], h.clean, h.short⟩
    · dsimp only
      rw [hno.specs]
      cases huok : l.userfilterok with
      | false => simpa [FilterListener.restoredWords, huok] using SpecsKept.nil env.toFilterEnv l
      | true => simpa [FilterListener.restoredWords, huok] using hkeeps hlogged huok
    · dsimp only
      rw [hno.specs]
      exact hrange
  · rename_i text hset
    simp only [hset] at hkeeps
    obtain ⟨s', hs', hsaved⟩ := FilterClient.saved_of_parse c.loc hmerged hno hdefaults
      (fun huok => (hkeeps hlogged huok).1) (fun huok => (hkeeps hlogged huok).2.1) (by
        cases huok : l.userfilterok with
        | false => exact hrange
        | true => exact (hkeeps hlogged huok).2.2)
      (sanitizeAsciiString_idem _) (length_statusCopy_lt text)
    rw [hs']
    refine ⟨_, rfl, ?_⟩
    rwa [hlogged]

/-- One event keeps the filters and the text together. -/
theorem FilterClient.Saved.clientEvent (h : c.Saved env l) {e : ClientEvent F}
    (hkeeps : KeepsFilters env l (some c) e) :
    ∃ c', Aprsc.clientEvent env l c e = some c' ∧ c'.Saved env l := by
  cases e with
  | login filters =>
    rw [Aprsc.clientEvent]
    cases hlogged : c.loggedIn with
    | true => exact ⟨c, rfl, h⟩
    | false => exact h.login hlogged hkeeps
  | command inMessage s =>
    rw [Aprsc.clientEvent]
    split
    · rename_i hlogged
      exact h.filterCommands (Bool.and_eq_true_iff.mp hlogged).1 hkeeps
    · exact ⟨c, rfl, h⟩
  | position loc =>
    rw [Aprsc.clientEvent]
    cases hlogged : c.loggedIn with
    | true =>
      exact ⟨_, rfl, h.merged, h.defaults, h.kept, hkeeps hlogged, by simp, h.clean,
        h.short⟩
    | false => exact ⟨c, rfl, h⟩

end

end Aprsc
