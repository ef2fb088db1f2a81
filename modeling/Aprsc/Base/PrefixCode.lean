-- SUMMARY: Codes in which no word starts another one, and that texts in such a code can be read back.
import Mathlib.Data.List.Basic

/-!
# Prefix codes

A text is encoded letter by letter. When no code word is empty or the start of another
letter's word, different texts have different encodings.
-/

/-- No word of the code is empty, and none is the start of the word of another letter. -/
structure PrefixCode {α β : Type*} (code : α → List β) : Prop where
  ne_nil : ∀ a, code a ≠ []
  eq_of_prefix : ∀ {a b}, code a <+: code b → a = b

namespace PrefixCode

variable {α β : Type*} {code : α → List β}

/-- Words that start the same text are of the same letter. -/
theorem eq_of_append_eq (h : PrefixCode code) {a b : α} {xs ys : List β}
    (heq : code a ++ xs = code b ++ ys) : a = b := by
  have ha : code a <+: code b ++ ys := ⟨xs, heq⟩
  rcases List.prefix_or_prefix_of_prefix ha (List.prefix_append (code b) ys) with hab | hba
  · exact h.eq_of_prefix hab
  · exact (h.eq_of_prefix hba).symm

theorem flatMap_eq_nil (h : PrefixCode code) {xs : List α} : xs.flatMap code = [] ↔ xs = [] := by
  cases xs with
  | nil => exact iff_of_true rfl rfl
  | cons a xs => simp [h.ne_nil a]

theorem flatMap_injective (h : PrefixCode code) :
    Function.Injective fun xs : List α => xs.flatMap code := by
  intro xs ys heq
  induction xs generalizing ys with
  | nil => exact (h.flatMap_eq_nil.mp heq.symm).symm
  | cons a xs ih =>
    cases ys with
    | nil => exact h.flatMap_eq_nil.mp heq
    | cons b ys =>
      simp only [List.flatMap_cons] at heq
      cases h.eq_of_append_eq heq
      rw [ih (List.append_cancel_left heq)]

end PrefixCode
