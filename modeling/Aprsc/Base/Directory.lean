-- SUMMARY: Directories of files with contents, renaming, and the shifting of a numbered series of files by one.
import Mathlib.Data.Nat.Notation
import Mathlib.Logic.Function.Basic

/-!
# Directories

A directory maps names to contents. Renaming takes the place of a file with the new
name, and does nothing when there is no file with the old one. A series of files is
shifted by renaming each to the next name, from the last one down.
-/

namespace Directory

variable {N C : Type*} [DecidableEq N]

abbrev Dir (N C : Type*) := N → Option C

def rename (old new : N) (d : Dir N C) : Dir N C :=
  match d old with
  | none => d
  | some c => Function.update (Function.update d old none) new (some c)

/-- The files `name 0` to `name (n - 1)` get the next name each. -/
def shift (name : ℕ → N) : (n : ℕ) → Dir N C → Dir N C
  | 0, d => d
  | n + 1, d => shift name n (rename (name n) (name (n + 1)) d)

variable {d : Dir N C} {old new p : N} {c : C}

theorem rename_new (h : d old = some c) : rename old new d new = some c := by
  simp [rename, h]

theorem rename_old (hne : old ≠ new) : rename old new d old = none := by
  unfold rename
  cases hd : d old with
  | none => exact hd
  | some c =>
    dsimp only
    rw [Function.update_of_ne hne, Function.update_self]

theorem rename_of_ne (hold : p ≠ old) (hnew : p ≠ new) : rename old new d p = d p := by
  unfold rename
  cases d old with
  | none => rfl
  | some c =>
    dsimp only
    rw [Function.update_of_ne hnew, Function.update_of_ne hold]

variable {name : ℕ → N} {n i : ℕ}

/-- Files outside the series stay as they are. -/
theorem shift_of_ne (h : ∀ j ≤ n, p ≠ name j) : shift name n d p = d p := by
  induction n generalizing d with
  | zero => rfl
  | succ n ih =>
    rw [shift, ih fun j hj => h j (Nat.le_succ_of_le hj),
      rename_of_ne (h n (Nat.le_succ n)) (h (n + 1) (Nat.le_refl _))]

/-- A file of the series gets the next name, whichever of the others exist. -/
theorem shift_succ (hname : Function.Injective name) (hi : i < n) (h : d (name i) = some c) :
    shift name n d (name (i + 1)) = some c := by
  induction n generalizing d with
  | zero => exact absurd hi (Nat.not_lt_zero i)
  | succ n ih =>
    rw [shift]
    obtain hlt | rfl := Nat.lt_succ_iff_lt_or_eq.mp hi
    · apply ih hlt
      rw [rename_of_ne (hname.ne (Nat.ne_of_lt hlt)) (hname.ne (Nat.ne_of_lt (Nat.lt_succ_of_lt hlt))), h]
    · -- The names below the last one are all that is renamed after it.
      rw [shift_of_ne fun j hj => hname.ne (Nat.ne_of_gt (Nat.lt_succ_of_le hj))]
      exact rename_new h

end Directory
