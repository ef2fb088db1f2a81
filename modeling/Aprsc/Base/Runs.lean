-- SUMMARY: Runs of a step function, what holds in every state of a run and of every step, and the rules for it.
import Mathlib.Init

/-!
# Runs

A system takes one step for each event. A property of states may hold in every state of
a run, and a condition on a state and an event may be met by every step of it. When the
steps that meet the condition are the ones that keep the property, the two say the same
of a run.
-/

namespace Runs

universe u v

variable {σ : Type u} {ε : Type v} (step : σ → ε → σ)

/-- The state after the events. -/
def run (s : σ) (es : List ε) : σ := es.foldl step s

/-- Every state of the run satisfies the property, from the first to the last. -/
def Always (P : σ → Prop) : σ → List ε → Prop
  | s, [] => P s
  | s, e :: es => P s ∧ Always P (step s e) es

/-- Every step of the run meets the condition on the state it is taken from. -/
def Meets (ok : σ → ε → Prop) : σ → List ε → Prop
  | _, [] => True
  | s, e :: es => ok s e ∧ Meets ok (step s e) es

instance decidableMeets (ok : σ → ε → Prop) [∀ s e, Decidable (ok s e)] :
    (s : σ) → (es : List ε) → Decidable (Meets step ok s es)
  | _, [] => instDecidableTrue
  | s, e :: es =>
      have := decidableMeets ok (step s e) es
      inferInstanceAs (Decidable (ok s e ∧ Meets step ok (step s e) es))

variable {step} {I P : σ → Prop} {ok : σ → ε → Prop}

@[simp] theorem run_nil (s : σ) : run step s [] = s := rfl

@[simp] theorem run_cons (s : σ) (e : ε) (es : List ε) :
    run step s (e :: es) = run step (step s e) es := rfl

theorem run_append (s : σ) (es fs : List ε) :
    run step s (es ++ fs) = run step (run step s es) fs :=
  List.foldl_append ..

theorem Always.last {s : σ} {es : List ε} (h : Always step P s es) : P (run step s es) := by
  induction es generalizing s with
  | nil => exact h
  | cons e es ih => exact ih h.2

/-- An invariant that every step keeps holds in every state. -/
theorem always_of_step (hstep : ∀ s e, I s → I (step s e)) {s : σ} (hs : I s) (es : List ε) :
    Always step I s es := by
  induction es generalizing s with
  | nil => exact hs
  | cons e es ih => exact ⟨hs, ih (hstep s e hs)⟩

theorem Always.imp {Q : σ → Prop} (hPQ : ∀ s, P s → Q s) {s : σ} {es : List ε}
    (h : Always step P s es) : Always step Q s es := by
  induction es generalizing s with
  | nil => exact hPQ s h
  | cons e es ih => exact ⟨hPQ s h.1, ih h.2⟩

/-- A property that every step keeps when it meets the condition holds in every state of
a run that meets it. -/
theorem Meets.always (hstep : ∀ s e, I s → ok s e → I (step s e)) {s : σ} (hs : I s)
    {es : List ε} (h : Meets step ok s es) : Always step I s es := by
  induction es generalizing s with
  | nil => exact hs
  | cons e es ih => exact ⟨hs, ih (hstep s e hs h.1) h.2⟩

/-- If from a state with the property a step keeps it exactly when it meets the condition,
then the property holds throughout exactly in the runs that meet the condition. The
invariant `I` holds whether the condition is met or not. -/
theorem always_iff_meets (hI : ∀ s e, I s → I (step s e))
    (hok : ∀ s e, I s → P s → (P (step s e) ↔ ok s e)) {s : σ} (hs : I s) (hP : P s)
    (es : List ε) : Always step P s es ↔ Meets step ok s es := by
  induction es generalizing s with
  | nil => exact iff_of_true hP trivial
  | cons e es ih =>
    constructor
    · intro h
      have hnext : P (step s e) := by
        cases es with
        | nil => exact h.2
        | cons => exact h.2.1
      exact ⟨(hok s e hs hP).1 hnext, (ih (hI s e hs) hnext).1 h.2⟩
    · intro h
      exact ⟨hP, (ih (hI s e hs) ((hok s e hs hP).2 h.1)).2 h.2⟩

/-- The same for a property that is weaker than the invariant kept by the steps that meet
the condition, when the other steps break it. -/
theorem always_iff_meets_of_breaks (hstep : ∀ s e, I s → ok s e → I (step s e))
    (hIP : ∀ s, I s → P s) (hbreak : ∀ s e, I s → ¬ok s e → ¬P (step s e)) {s : σ} (hs : I s)
    (es : List ε) : Always step P s es ↔ Meets step ok s es := by
  constructor
  · intro h
    induction es generalizing s with
    | nil => trivial
    | cons e es ih =>
      have hok : ok s e := by
        refine Classical.byContradiction fun hnot => hbreak s e hs hnot ?_
        cases es with
        | nil => exact h.2
        | cons => exact h.2.1
      exact ⟨hok, ih (hstep s e hs hok) h.2⟩
  · exact fun h => (h.always hstep hs).imp hIP

end Runs
