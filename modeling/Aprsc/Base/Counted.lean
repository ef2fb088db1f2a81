-- SUMMARY: Objects that are freed with the last reference to them, and how the references that are held decide what is there.
import Mathlib.Logic.Function.Basic

/-!
# Reference counts

An object has a count of the references to it in one of its fields. Whoever takes a
reference counts it up, and whoever drops one counts it down. The object is freed when
its count is down to zero, and to use it after that is a misuse.

Nothing in the memory says who holds the references. When their number is known from
outside, it decides whether an object is there and whether a use is fine.
-/

namespace Counted

universe u

/-- The objects by address. An address is not used again. -/
structure Heap (α : Type u) where
  cells : Nat → Option α
  next : Nat
  misused : Bool

variable {α : Type u}

/-- Nothing was allocated. -/
def Heap.empty : Heap α := ⟨fun _ => none, 0, false⟩

/-- Allocate an object, at the address `h.next`. -/
def Heap.alloc (x : α) (h : Heap α) : Heap α :=
  { h with cells := Function.update h.cells h.next (some x), next := h.next + 1 }

/-- Read the object at an address and write it. -/
def Heap.modify (a : Nat) (f : α → α) (h : Heap α) : Heap α :=
  match h.cells a with
  | none => { h with misused := true }
  | some x => { h with cells := Function.update h.cells a (some (f x)) }

/-- The same, and the object is freed if its count is zero then. -/
def Heap.drop (count : α → Int) (a : Nat) (f : α → α) (h : Heap α) : Heap α :=
  match h.cells a with
  | none => { h with misused := true }
  | some x =>
      { h with cells := Function.update h.cells a (if count (f x) = 0 then none else some (f x)) }

/-- There are `refs a` references to the object at `a`, no object is there without one, and
none was misused. -/
structure Owned (count : α → Int) (h : Heap α) (refs : Nat → Nat) : Prop where
  fine : h.misused = false
  count_eq : ∀ {a x}, h.cells a = some x → count x = refs a
  isSome_iff : ∀ a, (h.cells a).isSome ↔ 0 < refs a
  fresh : ∀ a, h.next ≤ a → h.cells a = none

section

variable {count : α → Int} {h : Heap α} {refs refs' : Nat → Nat} {a b : Nat} {f : α → α} {x : α}

theorem owned_empty : Owned count (Heap.empty : Heap α) fun _ => 0 where
  fine := rfl
  count_eq := nofun
  isSome_iff := by simp [Heap.empty]
  fresh _ _ := rfl

theorem Owned.congr (ho : Owned count h refs) (hrefs : ∀ b, refs' b = refs b) :
    Owned count h refs' := by
  rwa [funext hrefs]

/-- Who holds a reference finds the object. -/
theorem Owned.exists_of_pos (ho : Owned count h refs) (ha : 0 < refs a) :
    ∃ x, h.cells a = some x :=
  Option.isSome_iff_exists.mp ((ho.isSome_iff a).mpr ha)

theorem Owned.pos_of_some (ho : Owned count h refs) (hx : h.cells a = some x) : 0 < refs a := by
  apply (ho.isSome_iff a).mp
  rw [hx]
  rfl

/-- An object that nobody has a reference to is gone. -/
theorem Owned.eq_none (ho : Owned count h refs) (ha : refs a = 0) : h.cells a = none := by
  cases hx : h.cells a with
  | none => rfl
  | some x => exact absurd (ho.pos_of_some hx) (by rw [ha]; exact Nat.lt_irrefl 0)

theorem Owned.refs_next (ho : Owned count h refs) : refs h.next = 0 := by
  have hnone := ho.fresh h.next (Nat.le_refl _)
  have hsome := ho.isSome_iff h.next
  rw [hnone] at hsome
  exact Nat.eq_zero_of_not_pos fun hpos => nomatch hsome.mpr hpos

theorem Owned.lt_next (ho : Owned count h refs) (ha : 0 < refs a) : a < h.next := by
  apply Nat.lt_of_not_le
  intro hle
  obtain ⟨x, hx⟩ := ho.exists_of_pos ha
  rw [ho.fresh a hle] at hx
  cases hx

/-! ## Cells after a step -/

theorem Heap.cells_alloc_of_ne (h : Heap α) (x : α) (hb : b ≠ h.next) :
    (h.alloc x).cells b = h.cells b :=
  Function.update_of_ne hb _ _

@[simp] theorem Heap.cells_alloc_self (h : Heap α) (x : α) :
    (h.alloc x).cells h.next = some x :=
  Function.update_self ..

theorem Heap.cells_modify_of_ne (h : Heap α) (f : α → α) (hb : b ≠ a) :
    (h.modify a f).cells b = h.cells b := by
  unfold modify
  split
  · rfl
  · exact Function.update_of_ne hb _ _

theorem Heap.cells_modify_self (h : Heap α) (f : α → α) :
    (h.modify a f).cells a = (h.cells a).map f := by
  unfold modify
  split
  next hx => rw [hx]; rfl
  next x hx => rw [hx]; exact Function.update_self ..

theorem Heap.cells_drop_of_ne (h : Heap α) (f : α → α) (hb : b ≠ a) :
    (h.drop count a f).cells b = h.cells b := by
  unfold drop
  split
  · rfl
  · exact Function.update_of_ne hb _ _

theorem Heap.cells_drop_self (h : Heap α) (f : α → α) :
    (h.drop count a f).cells a = ((h.cells a).map f).filter (count · ≠ 0) := by
  unfold drop
  split
  next hx => rw [hx]; rfl
  next x hx =>
    rw [hx]
    refine (Function.update_self ..).trans ?_
    by_cases hzero : count (f x) = 0 <;> simp [Option.filter, hzero]

@[simp] theorem Heap.next_modify (h : Heap α) (a : Nat) (f : α → α) :
    (h.modify a f).next = h.next := by
  unfold modify
  split <;> rfl

@[simp] theorem Heap.next_drop (h : Heap α) (a : Nat) (f : α → α) :
    (h.drop count a f).next = h.next := by
  unfold drop
  split <;> rfl

/-- A field that a step does not write is the same in every object that is there after it. -/
theorem Heap.field_drop {β : Type*} (h : Heap α) {g : α → β} (hg : ∀ x, g (f x) = g x)
    (hb : (h.drop count a f).cells b = some x) : (h.cells b).map g = some (g x) := by
  by_cases hba : b = a
  · subst hba
    rw [cells_drop_self] at hb
    obtain ⟨y, hy, hyx⟩ := Option.map_eq_some_iff.mp (Option.filter_eq_some_iff.mp hb).1
    rw [hy, ← hyx, hg]
    rfl
  · rw [cells_drop_of_ne h f hba] at hb
    rw [hb]
    rfl

theorem Heap.field_modify {β : Type*} (h : Heap α) {g : α → β} (hg : ∀ x, g (f x) = g x) (b : Nat) :
    ((h.modify a f).cells b).map g = (h.cells b).map g := by
  by_cases hba : b = a
  · subst hba
    rw [cells_modify_self, Option.map_map]
    exact congrArg (Option.map · _) (funext hg)
  · rw [cells_modify_of_ne h f hba]

/-! ## References that are taken and dropped -/

theorem Owned.alloc (ho : Owned count h refs) (hx : count x = 1)
    (hrefs : ∀ b, refs' b = refs b + if b = h.next then 1 else 0) :
    Owned count (h.alloc x) refs' where
  fine := ho.fine
  count_eq := by
    intro b y hy
    rw [hrefs]
    by_cases hb : b = h.next
    · subst hb
      rw [Heap.cells_alloc_self] at hy
      cases hy
      rw [hx, ho.refs_next, if_pos rfl]
      rfl
    · rw [h.cells_alloc_of_ne x hb] at hy
      rw [ho.count_eq hy, if_neg hb, Nat.add_zero]
  isSome_iff b := by
    rw [hrefs]
    by_cases hb : b = h.next
    · simp [hb]
    · rw [h.cells_alloc_of_ne x hb, ho.isSome_iff, if_neg hb, Nat.add_zero]
  fresh b hb := by
    have hne : b ≠ h.next := Nat.ne_of_gt hb
    rw [h.cells_alloc_of_ne x hne]
    exact ho.fresh b (Nat.le_of_succ_le hb)

/-- Writing the object and its count together. -/
theorem Owned.modify {d : Nat} (ho : Owned count h refs) (ha : 0 < refs a)
    (hf : ∀ x, count (f x) = count x + d)
    (hrefs : ∀ b, refs' b = refs b + if b = a then d else 0) :
    Owned count (h.modify a f) refs' := by
  obtain ⟨x, hx⟩ := ho.exists_of_pos ha
  refine ⟨?_, ?_, ?_, ?_⟩
  · rw [Heap.modify, hx]
    exact ho.fine
  · intro b y hy
    rw [hrefs]
    by_cases hb : b = a
    · subst hb
      rw [Heap.cells_modify_self, hx] at hy
      cases hy
      rw [hf, ho.count_eq hx, if_pos rfl]
      rfl
    · rw [h.cells_modify_of_ne f hb] at hy
      rw [ho.count_eq hy, if_neg hb, Nat.add_zero]
  · intro b
    rw [hrefs]
    by_cases hb : b = a
    · subst hb
      rw [Heap.cells_modify_self, hx, if_pos rfl]
      exact iff_of_true rfl (Nat.lt_of_lt_of_le ha (Nat.le_add_right ..))
    · rw [h.cells_modify_of_ne f hb, ho.isSome_iff, if_neg hb, Nat.add_zero]
  · intro b hb
    rw [h.next_modify] at hb
    have hne : b ≠ a := Nat.ne_of_gt (Nat.lt_of_lt_of_le (ho.lt_next ha) hb)
    rw [h.cells_modify_of_ne f hne]
    exact ho.fresh b hb

/-- Taking another reference. -/
theorem Owned.take (ho : Owned count h refs) (ha : 0 < refs a) (hf : ∀ x, count (f x) = count x + 1)
    (hrefs : ∀ b, refs' b = refs b + if b = a then 1 else 0) : Owned count (h.modify a f) refs' :=
  ho.modify (d := 1) ha hf hrefs

/-- Using the object. -/
theorem Owned.use (ho : Owned count h refs) (ha : 0 < refs a) (hf : ∀ x, count (f x) = count x) :
    Owned count (h.modify a f) refs :=
  ho.modify (d := 0) ha (fun x => (hf x).trans (Int.add_zero _).symm) fun b => by
    rw [ite_self, Nat.add_zero]

/-- Dropping a reference: the object stays if there is another one. -/
theorem Owned.drop (ho : Owned count h refs) (hf : ∀ x, count (f x) = count x - 1)
    (hrefs : ∀ b, refs b = refs' b + if b = a then 1 else 0) :
    Owned count (h.drop count a f) refs' := by
  -- the count after it is what is left, so it is zero for the last reference only
  have hself : refs a = refs' a + 1 := by rw [hrefs, if_pos rfl]
  have ha : 0 < refs a := by rw [hself]; exact Nat.succ_pos _
  obtain ⟨x, hx⟩ := ho.exists_of_pos ha
  have hcount : count (f x) = refs' a := by
    rw [hf, ho.count_eq hx, hself, Int.natCast_succ]
    exact Int.add_sub_cancel _ 1
  have hother : ∀ {b}, b ≠ a → refs b = refs' b := by
    intro b hb
    rw [hrefs, if_neg hb, Nat.add_zero]
  refine ⟨?_, ?_, ?_, ?_⟩
  · rw [Heap.drop, hx]
    exact ho.fine
  · intro b y hy
    by_cases hb : b = a
    · subst hb
      rw [Heap.cells_drop_self, hx] at hy
      cases (Option.filter_eq_some_iff.mp hy).1
      exact hcount
    · rw [h.cells_drop_of_ne f hb] at hy
      rw [ho.count_eq hy, hother hb]
  · intro b
    by_cases hb : b = a
    · subst hb
      rw [Heap.cells_drop_self, hx, Option.map_some, Option.isSome_filter]
      simp [hcount, Nat.pos_iff_ne_zero]
    · rw [h.cells_drop_of_ne f hb, ho.isSome_iff, hother hb]
  · intro b hb
    rw [h.next_drop] at hb
    have hne : b ≠ a := Nat.ne_of_gt (Nat.lt_of_lt_of_le (ho.lt_next ha) hb)
    rw [h.cells_drop_of_ne f hne]
    exact ho.fresh b hb

/-! ## Misuse -/

theorem Heap.misused_modify (h : Heap α) (a : Nat) (f : α → α) :
    (h.modify a f).misused = (h.misused || (h.cells a).isNone) := by
  unfold modify
  split
  next hx => rw [hx]; exact (Bool.or_true _).symm
  next x hx => rw [hx]; exact (Bool.or_false _).symm

theorem Heap.misused_drop (h : Heap α) (a : Nat) (f : α → α) :
    (h.drop count a f).misused = (h.misused || (h.cells a).isNone) := by
  unfold drop
  split
  next hx => rw [hx]; exact (Bool.or_true _).symm
  next x hx => rw [hx]; exact (Bool.or_false _).symm

/-- A misuse is not forgotten. -/
theorem Heap.misused_modify_of (hm : h.misused = true) : (h.modify a f).misused = true := by
  rw [misused_modify, hm]
  exact Bool.true_or _

theorem Heap.misused_drop_of (hm : h.misused = true) : (h.drop count a f).misused = true := by
  rw [misused_drop, hm]
  exact Bool.true_or _

/-- To use an object without a reference to it is a misuse. -/
theorem Owned.misused_modify (ho : Owned count h refs) (ha : refs a = 0) :
    (h.modify a f).misused = true := by
  rw [Heap.misused_modify, ho.eq_none ha]
  exact Bool.or_true _

end

end Counted
