-- SUMMARY: Lists with some elements left out, all of them with a property.
import Mathlib.Data.List.Basic

/-!
# Elements left out

The relation between a list and the same list without some of its elements. It says
which elements may be left out, not which of them are.
-/

/-- `ys` is `xs` without some of the elements that have the property. -/
inductive Removes {α : Type*} (p : α → Prop) : (xs ys : List α) → Prop where
  | nil : Removes p [] []
  | keep {xs ys : List α} (x : α) (h : Removes p xs ys) : Removes p (x :: xs) (x :: ys)
  | drop {xs ys : List α} {x : α} (hx : p x) (h : Removes p xs ys) : Removes p (x :: xs) ys

namespace Removes

variable {α : Type*} {p : α → Prop} {xs ys zs ws : List α}

/-- Common elements in front. -/
theorem append_left (h : Removes p xs ys) : (zs : List α) → Removes p (zs ++ xs) (zs ++ ys)
  | [] => h
  | z :: zs => .keep z (h.append_left zs)

theorem refl (xs : List α) : Removes p xs xs := by
  simpa using append_left (p := p) .nil xs

/-- Elements in front that are all left out. -/
theorem skip (h : Removes p xs ys) (hz : ∀ z ∈ zs, p z) : Removes p (zs ++ xs) ys := by
  induction zs with
  | nil => exact h
  | cons z zs ih =>
    rw [List.forall_mem_cons] at hz
    exact .drop hz.1 (ih hz.2)

theorem length_le (h : Removes p xs ys) : ys.length ≤ xs.length := by
  induction h with
  | nil => exact Nat.le_refl _
  | keep x _ ih => exact Nat.succ_le_succ ih
  | drop _ _ ih => exact Nat.le_succ_of_le ih

/-- Nothing is left out of a list without such elements. -/
theorem eq_of_forall_not (h : Removes p xs ys) (hx : ∀ x ∈ xs, ¬p x) : ys = xs := by
  induction h with
  | nil => rfl
  | keep x _ ih =>
    rw [List.forall_mem_cons] at hx
    rw [ih hx.2]
  | drop hp _ ih =>
    rw [List.forall_mem_cons] at hx
    exact absurd hp hx.1

end Removes
