-- SUMMARY: Lists of fields, each preceded by a separator, and substring search in them.
import Mathlib.Data.List.Infix
import Mathlib.Data.List.TakeWhile

/-!
# Separated fields

A path is a sequence of fields, each one preceded by a separator. `joinFields`
writes it out and `fields` reads it back. `findSub` is the first occurrence of a
substring.
-/

variable {α : Type*}

/-! ## Search -/

/-- The first occurrence of an element splits the list. -/
theorem findIdx?_beq_eq_some [BEq α] [LawfulBEq α] {c : α} {xs : List α} {n : Nat}
    (h : xs.findIdx? (· == c) = some n) :
    xs[n]? = some c ∧ xs = xs.take n ++ c :: xs.drop (n + 1) ∧ c ∉ xs.take n := by
  induction xs generalizing n with
  | nil => simp at h
  | cons x xs ih =>
    rw [List.findIdx?_cons] at h
    split at h
    next hx =>
      cases h
      simpa using hx
    next hx =>
      cases hs : xs.findIdx? (· == c) with
      | none => simp [hs] at h
      | some j =>
        simp only [hs, Option.map_some, Option.some.injEq] at h
        subst h
        obtain ⟨hget, heq, hnot⟩ := ih hs
        refine ⟨by simpa using hget, by simpa using heq, ?_⟩
        have hne : ¬ c = x := fun he => hx (beq_iff_eq.mpr he.symm)
        simpa [hne] using hnot

/-- The offset of the first occurrence of `needle`. -/
def findSub [BEq α] (needle : List α) : List α → Option Nat
  | [] => if needle.isEmpty then some 0 else none
  | x :: xs =>
      if needle.isPrefixOf (x :: xs) then some 0 else (findSub needle xs).map (· + 1)

theorem findSub_eq_some [BEq α] [LawfulBEq α] {needle xs : List α} {n : Nat}
    (h : findSub needle xs = some n) :
    needle <+: xs.drop n ∧ ∀ k < n, ¬ needle <+: xs.drop k := by
  induction xs generalizing n with
  | nil =>
    simp only [findSub] at h
    split at h
    · cases h
      simp_all
    · cases h
  | cons x xs ih =>
    simp only [findSub] at h
    split at h
    · cases h
      exact ⟨List.isPrefixOf_iff_prefix.mp ‹_›, by simp⟩
    · cases hs : findSub needle xs with
      | none => simp [hs] at h
      | some j =>
        simp only [hs, Option.map_some, Option.some.injEq] at h
        subst h
        refine ⟨(ih hs).1, ?_⟩
        intro k hk
        cases k with
        | zero =>
          intro hp
          exact absurd (List.isPrefixOf_iff_prefix.mpr hp) ‹_›
        | succ k => exact (ih hs).2 k (by omega)

theorem findSub_eq_none [BEq α] [LawfulBEq α] {needle xs : List α}
    (h : findSub needle xs = none) : ¬ needle <:+: xs := by
  induction xs with
  | nil =>
    simp only [findSub] at h
    split at h
    · cases h
    · simp_all [List.infix_nil]
  | cons x xs ih =>
    simp only [findSub] at h
    split at h
    · cases h
    · rw [List.infix_cons_iff]
      intro hi
      cases hi with
      | inl hp => exact absurd (List.isPrefixOf_iff_prefix.mpr hp) ‹_›
      | inr hi => exact ih (by simpa using h) hi

theorem findSub_isSome_iff [BEq α] [LawfulBEq α] {needle xs : List α} :
    (findSub needle xs).isSome = true ↔ needle <:+: xs := by
  cases hf : findSub needle xs with
  | none => simp [findSub_eq_none hf]
  | some n =>
    simp only [Option.isSome_some, true_iff]
    exact (findSub_eq_some hf).1.isInfix.trans (List.drop_suffix n xs).isInfix

/-- A search for a text that starts with `c` passes over what does not hold `c`. -/
theorem findSub_append_of_not_mem [BEq α] [LawfulBEq α] {c : α} {needle xs ys : List α}
    (h : c ∉ xs) :
    findSub (c :: needle) (xs ++ ys) = (findSub (c :: needle) ys).map (· + xs.length) := by
  induction xs with
  | nil => simp
  | cons x xs ih =>
    have hx : (c == x) = false := by
      rw [beq_eq_false_iff_ne]
      intro he
      exact h (he ▸ List.mem_cons_self)
    have ih := ih fun hm => h (List.mem_cons_of_mem _ hm)
    simp only [List.cons_append, findSub, List.isPrefixOf_cons_cons, hx, Bool.false_and,
      Bool.false_eq_true, if_false, ih, Option.map_map]
    congr 1

theorem infix_append_of_not_mem [BEq α] [LawfulBEq α] {c : α} {needle xs ys : List α} (h : c ∉ xs) :
    c :: needle <:+: xs ++ ys ↔ c :: needle <:+: ys := by
  rw [← findSub_isSome_iff, ← findSub_isSome_iff, findSub_append_of_not_mem h, Option.isSome_map]

/-- A text is not found across a boundary whose next element it does not hold. -/
theorem infix_append_cases {p xs ys : List α} (h : ∀ y ∈ ys.head?, y ∉ p) (hp : p <:+: xs ++ ys) :
    p <:+: xs ∨ p <:+: ys := by
  rcases List.infix_append_iff_ne_nil.mp hp with hx | hy | ⟨l₁, l₂, -, hne, rfl, -, hpre⟩
  · exact .inl hx
  · exact .inr hy
  · cases l₂ with
    | nil => exact absurd rfl hne
    | cons y l₂ =>
      obtain ⟨t, rfl⟩ := hpre
      exact absurd (by simp) (h y (by simp))

/-! ## Fields -/

/-- Write each field after a separator. -/
def joinFields (sep : α) (fs : List (List α)) : List α := fs.flatMap (sep :: ·)

@[simp] theorem joinFields_nil (sep : α) : joinFields sep [] = [] := rfl

@[simp] theorem joinFields_cons (sep : α) (f : List α) (fs : List (List α)) :
    joinFields sep (f :: fs) = sep :: f ++ joinFields sep fs := rfl

@[simp] theorem joinFields_append (sep : α) (fs gs : List (List α)) :
    joinFields sep (fs ++ gs) = joinFields sep fs ++ joinFields sep gs := by
  simp [joinFields]

/-- The fields of a text that is empty or starts with a separator. -/
def fields [BEq α] (sep : α) (xs : List α) : List (List α) := (xs.splitOn sep).tail

theorem not_mem_of_mem_splitOn [BEq α] [LawfulBEq α] {sep : α} {xs f : List α}
    (h : f ∈ xs.splitOn sep) : sep ∉ f := by
  induction xs generalizing f with
  | nil => simp_all
  | cons x xs ih =>
    rw [List.splitOn_cons_eq_if_modifyHead] at h
    split at h
    · cases h with
      | head => simp
      | tail _ h => exact ih h
    · cases hs : xs.splitOn sep with
      | nil => exact absurd hs (List.splitOn_ne_nil sep xs)
      | cons g gs =>
        rw [hs] at h ih
        simp only [List.modifyHead_cons, List.mem_cons] at h
        cases h with
        | inl h =>
          subst h
          have hg : sep ∉ g := ih List.mem_cons_self
          have hx : ¬ sep = x := fun he => absurd (beq_iff_eq.mpr he.symm) ‹_›
          exact List.not_mem_cons_of_ne_of_not_mem hx hg
        | inr h => exact ih (List.mem_cons_of_mem _ h)

theorem not_mem_of_mem_fields [BEq α] [LawfulBEq α] {sep : α} {xs f : List α}
    (h : f ∈ fields sep xs) : sep ∉ f :=
  not_mem_of_mem_splitOn (List.mem_of_mem_tail h)

theorem joinFields_splitOn [BEq α] [LawfulBEq α] (sep : α) (xs : List α) :
    joinFields sep (xs.splitOn sep) = sep :: xs := by
  induction xs with
  | nil => rfl
  | cons x xs ih =>
    rw [List.splitOn_cons_eq_if_modifyHead]
    split
    next hx => simp [ih, beq_iff_eq.mp hx]
    next hx =>
      cases hs : xs.splitOn sep with
      | nil => exact absurd hs (List.splitOn_ne_nil sep xs)
      | cons g gs =>
        rw [hs] at ih
        simp_all

theorem fields_cons [BEq α] [LawfulBEq α] (sep : α) (xs : List α) :
    fields sep (sep :: xs) = xs.splitOn sep := by
  simp [fields, List.splitOn_cons_eq_if_modifyHead]

@[simp] theorem fields_nil [BEq α] (sep : α) : fields sep ([] : List α) = [] := rfl

/-- Writing out the fields of a text gives the text back. -/
theorem joinFields_fields [BEq α] [LawfulBEq α] {sep : α} {xs : List α}
    (h : ∀ x ∈ xs.head?, x = sep) : joinFields sep (fields sep xs) = xs := by
  cases xs with
  | nil => rfl
  | cons x xs =>
    have hx : x = sep := h x rfl
    subst hx
    rw [fields_cons, joinFields_splitOn]

/-- Reading back fields that hold no separator. -/
theorem fields_joinFields [BEq α] [LawfulBEq α] {sep : α} {fs : List (List α)}
    (h : ∀ f ∈ fs, sep ∉ f) : fields sep (joinFields sep fs) = fs := by
  induction fs with
  | nil => rfl
  | cons f fs ih =>
    have hf := h f List.mem_cons_self
    have ih := ih fun g hg => h g (List.mem_cons_of_mem _ hg)
    rw [joinFields_cons, List.cons_append, fields_cons]
    cases fs with
    | nil => simpa using List.splitOn_eq_singleton hf
    | cons g gs =>
      rw [joinFields_cons, List.cons_append, fields_cons] at ih
      rw [joinFields_cons, List.cons_append, List.splitOn_append_cons_self_of_not_mem hf, ih]

/-- The end of the first field, in a text that starts inside of it. -/
theorem findIdx?_joinFields [BEq α] [LawfulBEq α] {sep : α} {f : List α} {fs : List (List α)}
    (h : sep ∉ f) :
    (f ++ joinFields sep fs).findIdx? (· == sep) = if fs.isEmpty then none else some f.length := by
  have hf : f.findIdx? (· == sep) = none := by
    rw [List.findIdx?_eq_none_iff]
    intro x hx
    exact beq_eq_false_iff_ne.mpr fun he => h (he ▸ hx)
  cases fs with
  | nil => simpa using hf
  | cons g gs => simp [List.findIdx?_append, hf, List.findIdx?_cons]

/-- The first field, in a text that starts inside of it. -/
theorem takeWhile_joinFields [BEq α] [LawfulBEq α] {sep : α} {p : α → Bool} {f : List α}
    {fs : List (List α)} (hf : ∀ x ∈ f, p x = true) (hsep : p sep = false) :
    (f ++ joinFields sep fs).takeWhile p = f := by
  rw [List.takeWhile_append_of_pos hf]
  cases fs with
  | nil => simp
  | cons g gs => simp [hsep]

/-! ## Loops over fields -/

/-- The fields that a loop visits that goes to the next separator and continues after it.
The text starts inside of the first field. -/
def visitFields [BEq α] (sep : α) : (fuel : Nat) → List α → List (List α)
  | 0, _ => []
  | fuel + 1, xs =>
      if xs.isEmpty then []
      else
        let f := xs.takeWhile (· != sep)
        f :: visitFields sep fuel (xs.drop (f.length + 1))

/-- The fields, without an empty one at the end. -/
def dropFinalEmpty : List (List α) → List (List α)
  | [] => []
  | [f] => if f.isEmpty then [] else [f]
  | f :: g :: gs => f :: dropFinalEmpty (g :: gs)

/-- Such a loop visits every field but an empty one at the end. -/
theorem visitFields_joinFields [BEq α] [LawfulBEq α] {sep : α} {f : List α} {fs : List (List α)}
    {fuel : Nat} (hf : sep ∉ f) (hfs : ∀ g ∈ fs, sep ∉ g)
    (hfuel : (f ++ joinFields sep fs).length ≤ fuel) :
    visitFields sep fuel (f ++ joinFields sep fs) = dropFinalEmpty (f :: fs) := by
  induction fs generalizing f fuel with
  | nil =>
    simp only [joinFields_nil, List.append_nil] at hfuel ⊢
    cases f with
    | nil => cases fuel <;> simp [visitFields, dropFinalEmpty]
    | cons x f =>
      cases fuel with
      | zero => simp at hfuel
      | succ fuel =>
        have htake : (x :: f).takeWhile (· != sep) = x :: f := by
          rw [List.takeWhile_eq_self_iff]
          intro y hy
          exact bne_iff_ne.mpr fun he => hf (he ▸ hy)
        have hdrop : (x :: f).drop ((x :: f).length + 1) = [] := by simp
        have hnil : ∀ n, visitFields sep n [] = [] := by
          intro n
          cases n <;> simp [visitFields]
        simp only [visitFields, htake, hdrop, hnil]
        simp [dropFinalEmpty]
  | cons g gs ih =>
    have hg := hfs g List.mem_cons_self
    have hgs : ∀ g' ∈ gs, sep ∉ g' := fun g' hg' => hfs g' (List.mem_cons_of_mem _ hg')
    cases fuel with
    | zero => simp at hfuel
    | succ fuel =>
      have htake : (f ++ joinFields sep (g :: gs)).takeWhile (· != sep) = f := by
        refine takeWhile_joinFields (fun y hy => ?_) (by simp)
        exact bne_iff_ne.mpr fun he => hf (he ▸ hy)
      have hdrop : (f ++ joinFields sep (g :: gs)).drop (f.length + 1) = g ++ joinFields sep gs := by
        simp [List.drop_append]
      have hne : (f ++ joinFields sep (g :: gs)).isEmpty = false := by simp
      simp only [visitFields, hne, htake, hdrop, dropFinalEmpty, Bool.false_eq_true, if_false]
      rw [ih hg hgs]
      simp only [joinFields_cons, List.length_append, List.length_cons] at hfuel ⊢
      omega

theorem dropFinalEmpty_of_not_mem {fs : List (List α)} (h : [] ∉ fs) : dropFinalEmpty fs = fs := by
  induction fs with
  | nil => rfl
  | cons f fs ih =>
    rw [List.mem_cons, not_or] at h
    cases fs with
    | nil =>
      have hf : f.isEmpty = false := by simpa using Ne.symm h.1
      simp [dropFinalEmpty, hf]
    | cons g gs => rw [dropFinalEmpty, ih h.2]

/-- Fields that are followed by others are not at the end. -/
theorem dropFinalEmpty_append {fs gs : List (List α)} (h : gs ≠ []) :
    dropFinalEmpty (fs ++ gs) = fs ++ dropFinalEmpty gs := by
  induction fs with
  | nil => rfl
  | cons f fs ih =>
    cases hfg : fs ++ gs with
    | nil => simp [h] at hfg
    | cons x xs =>
      rw [List.cons_append, hfg, dropFinalEmpty, ← hfg, ih, List.cons_append]

/-- Only an empty field is left out. -/
theorem mem_dropFinalEmpty {fs : List (List α)} {f : List α} (hf : f ∈ fs) (hne : f ≠ []) :
    f ∈ dropFinalEmpty fs := by
  induction fs with
  | nil => simp at hf
  | cons g gs ih =>
    cases gs with
    | nil =>
      have hfg : f = g := by simpa using hf
      have hg : g.isEmpty = false := by simpa [← hfg] using hne
      simp [dropFinalEmpty, hg, hfg]
    | cons x xs =>
      simp only [dropFinalEmpty, List.mem_cons]
      exact (List.mem_cons.mp hf).imp_right ih

/-- Every field but the last one is visited. -/
theorem mem_dropFinalEmpty_of_mem_dropLast {fs : List (List α)} {f : List α} (hf : f ∈ fs.dropLast) :
    f ∈ dropFinalEmpty fs := by
  induction fs with
  | nil => simp at hf
  | cons g gs ih =>
    cases gs with
    | nil => simp at hf
    | cons x xs =>
      simp only [dropFinalEmpty, List.dropLast_cons_cons, List.mem_cons] at hf ⊢
      exact hf.imp_right ih

/-! ## A text among the fields -/

/-- A text without separators does not reach beyond the end of a field. -/
theorem prefix_append_joinFields {sep : α} {needle xs : List α} {fs : List (List α)}
    (hn : sep ∉ needle) : needle <+: xs ++ joinFields sep fs ↔ needle <+: xs := by
  constructor
  · intro h
    cases List.prefix_or_prefix_of_prefix h (List.prefix_append xs _) with
    | inl h => exact h
    | inr hx =>
      obtain ⟨t, rfl⟩ := hx
      rw [List.prefix_append_right_inj] at h
      cases t with
      | nil => simp
      | cons x t =>
        cases fs with
        | nil => simp at h
        | cons g gs =>
          rw [joinFields_cons, List.cons_append, List.cons_prefix_cons] at h
          simp [h.1] at hn
  · intro h
    exact h.trans (List.prefix_append _ _)

/-- A separator and a text without separators stand where a field starts with the text. -/
theorem infix_joinFields_iff [BEq α] [LawfulBEq α] {sep : α} {needle : List α} {fs : List (List α)}
    (hn : sep ∉ needle) (hfs : ∀ f ∈ fs, sep ∉ f) :
    sep :: needle <:+: joinFields sep fs ↔ ∃ f ∈ fs, needle <+: f := by
  induction fs with
  | nil => simp
  | cons f fs ih =>
    have ih := ih fun g hg => hfs g (List.mem_cons_of_mem f hg)
    rw [joinFields_cons, List.cons_append, List.infix_cons_iff, List.cons_prefix_cons,
      prefix_append_joinFields hn, infix_append_of_not_mem (hfs f List.mem_cons_self), ih]
    simp

/-- A text without separators is found in the first field that holds it. -/
theorem findSub_append_joinFields [BEq α] [LawfulBEq α] {sep : α} {needle xs : List α}
    {fs : List (List α)} (hn : sep ∉ needle) (hne : needle ≠ []) :
    findSub needle (xs ++ joinFields sep fs) =
      match findSub needle xs with
      | some j => some j
      | none => (findSub needle (joinFields sep fs)).map (· + xs.length) := by
  induction xs with
  | nil => simp [findSub, hne]
  | cons x xs ih =>
    have hp : needle.isPrefixOf (x :: (xs ++ joinFields sep fs)) = needle.isPrefixOf (x :: xs) := by
      rw [Bool.eq_iff_iff, List.isPrefixOf_iff_prefix, List.isPrefixOf_iff_prefix,
        ← List.cons_append]
      exact prefix_append_joinFields hn
    simp only [List.cons_append, findSub, hp, ih]
    split
    · rfl
    · cases findSub needle xs with
      | some j => rfl
      | none =>
        simp only [Option.map_none, Option.map_map, List.length_cons]
        congr 1

/-- The text stands between separators, or at the end: at offset `k` it is a whole
field. -/
def WholeField (sep : α) (needle xs : List α) (k : Nat) : Prop :=
  0 < k ∧ xs[k - 1]? = some sep ∧ (k + needle.length = xs.length ∨ xs[k + needle.length]? = some sep)

/-- A text that is found inside of the first field is whole when it fills the field. -/
theorem wholeField_of_findSub_head [BEq α] [LawfulBEq α] {sep : α} {needle f : List α}
    {fs : List (List α)} {j : Nat} (hne : needle ≠ []) (hf : sep ∉ f)
    (hj : findSub needle f = some j) :
    WholeField sep needle (joinFields sep (f :: fs)) (j + 1) ↔ f = needle := by
  have hpre := (findSub_eq_some hj).1
  have hlen := hpre.length_le
  have hpos := List.length_pos_of_ne_nil hne
  rw [List.length_drop] at hlen
  have hget : ∀ i : Nat, i < f.length → (joinFields sep (f :: fs))[i + 1]? ≠ some sep := by
    intro i hi hc
    rw [joinFields_cons, List.cons_append, List.getElem?_cons_succ, List.getElem?_append_left hi,
      List.getElem?_eq_getElem hi] at hc
    have hmem := List.getElem_mem hi
    simp only [Option.some.injEq] at hc
    exact hf (hc ▸ hmem)
  constructor
  · rintro ⟨-, hbefore, hafter⟩
    have hj0 : j = 0 := by
      cases j with
      | zero => rfl
      | succ i => exact absurd hbefore (hget i (by omega))
    subst hj0
    have hn : needle.length = f.length := by
      cases hafter with
      | inl h =>
        simp only [joinFields_cons, List.cons_append, List.length_cons, List.length_append] at h
        omega
      | inr h =>
        cases Nat.lt_or_ge needle.length f.length with
        | inl hlt =>
          rw [Nat.add_comm] at h
          exact absurd h (hget needle.length hlt)
        | inr hge => omega
    exact (hpre.eq_of_length (by simpa using hn)).symm
  · intro heq
    subst heq
    have hj0 : j = 0 := by omega
    subst hj0
    refine ⟨by omega, by simp, ?_⟩
    cases fs with
    | nil => exact .inl (by simp; omega)
    | cons g gs => exact .inr (by simp [Nat.add_comm])

/-- A text that is found after the first field. -/
theorem wholeField_tail {sep : α} {needle f : List α} {fs : List (List α)} {k : Nat} (hk : 0 < k) :
    WholeField sep needle (joinFields sep (f :: fs)) (k + f.length + 1) ↔
      WholeField sep needle (joinFields sep fs) k := by
  obtain ⟨i, rfl⟩ : ∃ i, k = i + 1 := ⟨k - 1, by omega⟩
  have hget : ∀ n : Nat, (joinFields sep (f :: fs))[n + f.length + 1]? = (joinFields sep fs)[n]? := by
    intro n
    rw [joinFields_cons, List.cons_append, List.getElem?_cons_succ,
      List.getElem?_append_right (by omega)]
    congr 1
    omega
  have h1 : i + 1 + f.length + 1 - 1 = i + f.length + 1 := by omega
  have h2 : i + 1 + f.length + 1 + needle.length = (i + 1 + needle.length) + f.length + 1 := by omega
  have h3 : i + 1 + f.length + 1 + needle.length = (joinFields sep (f :: fs)).length ↔
      i + 1 + needle.length = (joinFields sep fs).length := by
    simp only [joinFields_cons, List.cons_append, List.length_cons, List.length_append]
    omega
  unfold WholeField
  rw [h3, h1, h2, hget, hget]
  simp

/-- The first occurrence of a text is a whole field exactly when the first field that
holds the text is the text. -/
theorem wholeField_findSub_iff [BEq α] [LawfulBEq α] {sep : α} {needle : List α}
    {fs : List (List α)} (hn : sep ∉ needle) (hne : needle ≠ []) (hfs : ∀ f ∈ fs, sep ∉ f) :
    (∃ k, findSub needle (joinFields sep fs) = some k ∧
        WholeField sep needle (joinFields sep fs) k) ↔
      fs.find? (fun f => (findSub needle f).isSome) = some needle := by
  have hzero : ∀ gs : List (List α), findSub needle (joinFields sep gs) ≠ some 0 := by
    intro gs h
    have hp := (findSub_eq_some h).1
    rw [List.drop_zero, ← List.nil_append (joinFields sep gs), prefix_append_joinFields hn] at hp
    exact hne (List.prefix_nil.mp hp)
  induction fs with
  | nil => simp [findSub, hne]
  | cons f fs ih =>
    have hf : sep ∉ f := hfs f List.mem_cons_self
    have ih := ih fun g hg => hfs g (List.mem_cons_of_mem _ hg)
    have hfind : findSub needle (joinFields sep (f :: fs)) =
        (findSub needle (f ++ joinFields sep fs)).map (· + 1) := by
      have hhead := hzero (f :: fs)
      simp only [joinFields_cons, List.cons_append, findSub] at hhead ⊢
      split
      next hp => simp [hp] at hhead
      next => rfl
    rw [hfind, findSub_append_joinFields hn hne, List.find?_cons]
    cases hj : findSub needle f with
    | some j => simpa using wholeField_of_findSub_head hne hf hj
    | none =>
      simp only [Option.isSome_none, ← ih]
      cases hk : findSub needle (joinFields sep fs) with
      | none => simp
      | some k =>
        have hpos : 0 < k := by
          apply Nat.pos_of_ne_zero
          intro h0
          exact hzero fs (h0 ▸ hk)
        simpa using wholeField_tail hpos
