-- SUMMARY: Computations that log the accesses they make, and when all of the log satisfies a predicate.
import Mathlib.Init

/-!
# Traced computations

A traced computation returns a value together with the list of the accesses it
made. The accesses are of any type; what makes an access good is a predicate
given later.
-/

/-- A value and the accesses made to compute it, in order. -/
structure Traced (A : Type u) (α : Type v) where
  val : α
  log : List A

namespace Traced

variable {A : Type u} {α β : Type v}

instance : Monad (Traced A) where
  pure a := ⟨a, []⟩
  bind x f := ⟨(f x.val).val, x.log ++ (f x.val).log⟩

/-- Make one access. -/
def tell (a : A) : Traced A PUnit := ⟨⟨⟩, [a]⟩

/-- Every access of the computation is good. -/
def All (P : A → Prop) (t : Traced A α) : Prop := ∀ a ∈ t.log, P a

@[simp] theorem val_pure (a : α) : (pure a : Traced A α).val = a := rfl

@[simp] theorem val_bind (x : Traced A α) (f : α → Traced A β) :
    (x >>= f).val = (f x.val).val := rfl

@[simp] theorem all_pure (P : A → Prop) (a : α) : (pure a : Traced A α).All P ↔ True := by
  simp [All, pure]

@[simp] theorem all_tell (P : A → Prop) (a : A) : (tell a).All P ↔ P a := by
  simp [All, tell]

@[simp] theorem all_bind (P : A → Prop) (x : Traced A α) (f : α → Traced A β) :
    (x >>= f).All P ↔ x.All P ∧ (f x.val).All P := by
  simp [All, bind, or_imp, forall_and]

/-- The value, together with the accesses made to compute it. -/
def listen (t : Traced A α) : Traced A (α × List A) := ⟨(t.val, t.log), t.log⟩

@[simp] theorem val_listen (t : Traced A α) : t.listen.val = (t.val, t.log) := rfl

@[simp] theorem all_listen (P : A → Prop) (t : Traced A α) : t.listen.All P ↔ t.All P := Iff.rfl

theorem val_ite (p : Prop) [Decidable p] (x y : Traced A α) :
    (if p then x else y).val = if p then x.val else y.val := by
  split <;> rfl

theorem all_ite (P : A → Prop) (p : Prop) [Decidable p] (x y : Traced A α) :
    (if p then x else y).All P ↔ (p → x.All P) ∧ (¬p → y.All P) := by
  split <;> simp [*]

end Traced
