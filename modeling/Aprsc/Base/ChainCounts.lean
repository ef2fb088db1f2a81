-- SUMMARY: The number of entries of a table of chains, and how it changes when a chain is written or entries are removed.
import Mathlib.Algebra.BigOperators.Group.List.Basic
import Mathlib.Algebra.GroupWithZero.Nat
import Mathlib.Logic.Function.Basic

/-!
# Counts of chains

A table has chains in its first buckets. The number of its entries changes by what is
put into a chain, or taken out of the chains.
-/

namespace ChainCounts

universe u

variable {α : Type u} {b : Nat → List α} {size i : Nat}

/-- The number of entries in the first buckets. -/
def total (size : Nat) (b : Nat → List α) : Nat := ((List.range size).map fun i => (b i).length).sum

@[simp] theorem total_zero (b : Nat → List α) : total 0 b = 0 := rfl

theorem total_succ (size : Nat) (b : Nat → List α) :
    total (size + 1) b = total size b + (b size).length := by
  simp [total, List.range_succ]

@[simp] theorem total_empty (size : Nat) : total size (fun _ => ([] : List α)) = 0 := by
  induction size with
  | zero => rfl
  | succ size ih => simp [total_succ, ih]

/-- Buckets beyond the table do not count. -/
theorem total_update_of_le (h : size ≤ i) (chain : List α) :
    total size (Function.update b i chain) = total size b := by
  induction size with
  | zero => rfl
  | succ size ih =>
    rw [total_succ, total_succ, ih (Nat.le_of_succ_le h), Function.update_of_ne (Nat.ne_of_lt h)]

/-- A chain is written. -/
theorem total_update (h : i < size) (chain : List α) :
    total size (Function.update b i chain) + (b i).length = total size b + chain.length := by
  induction size with
  | zero => exact absurd h (Nat.not_lt_zero i)
  | succ size ih =>
    rw [total_succ, total_succ]
    obtain hlt | rfl := Nat.lt_succ_iff_lt_or_eq.mp h
    · have hrest := ih hlt
      rw [Function.update_of_ne (Nat.ne_of_gt hlt)]
      omega
    · rw [total_update_of_le (Nat.le_refl i), Function.update_self]
      omega

/-- A chain of the same length is written. -/
theorem total_update_eq (h : i < size) {chain : List α} (hlen : chain.length = (b i).length) :
    total size (Function.update b i chain) = total size b := by
  have htotal := @total_update _ b _ _ h chain
  omega

/-- An entry is put into a chain. -/
theorem total_update_succ (h : i < size) {chain : List α} (hlen : chain.length = (b i).length + 1) :
    total size (Function.update b i chain) = total size b + 1 := by
  have htotal := @total_update _ b _ _ h chain
  omega

/-- The entries with a property are removed from the first buckets. -/
theorem total_filter (old : α → Bool) (n : Nat) (h : size ≤ n) :
    total size (fun i => if i < n then (b i).filter (! old ·) else b i) +
      ((List.range size).map fun i => (b i).countP old).sum = total size b := by
  induction size with
  | zero => rfl
  | succ size ih =>
    have hchain := List.length_eq_countP_add_countP old (l := b size)
    have hneg : (b size).countP (fun x => decide ¬old x = true) = (b size).countP (! old ·) := by
      congr 1
      funext x
      simp
    rw [hneg, List.countP_eq_length_filter (p := fun x => !old x)] at hchain
    rw [total_succ, total_succ, List.range_succ, List.map_append, List.sum_append, List.map_singleton,
      List.sum_singleton, if_pos (Nat.lt_of_succ_le h), ← ih (Nat.le_of_succ_le h), hchain]
    omega

/-- The first buckets are emptied. -/
theorem total_cleared {n : Nat} (h : size ≤ n) : total size (fun i => if i < n then [] else b i) = 0 := by
  induction size with
  | zero => rfl
  | succ size ih =>
    rw [total_succ, ih (Nat.le_of_succ_le h), if_pos (Nat.lt_of_succ_le h)]
    rfl

end ChainCounts
