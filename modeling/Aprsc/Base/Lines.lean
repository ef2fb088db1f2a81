-- SUMMARY: Separated segments of a stream: the complete non-empty ones, the unfinished rest, and how they grow.
import Mathlib.Data.List.Basic

/-!
# Lines of a stream

A stream is cut at separators. Its lines are the maximal non-empty segments without
a separator that are followed by one; what comes after the last separator is the
tail. A stream that arrives in parts has the lines of what has arrived, and then
those of the tail with the next part.
-/

variable {α : Type} {p : α → Bool} {xs ys : List α} {sep : α}

/-- The complete non-empty segments between separators. -/
def streamLines (p : α → Bool) (xs : List α) : List (List α) :=
  (xs.splitOnP p).dropLast.filter fun seg => !seg.isEmpty

/-- The elements after the last separator. -/
def streamTail (p : α → Bool) (xs : List α) : List α := (xs.splitOnP p).getLastD []

theorem streamLines_of_free (h : ∀ x ∈ xs, p x = false) : streamLines p xs = [] := by
  simp [streamLines, List.splitOnP_eq_singleton h]

theorem streamTail_of_free (h : ∀ x ∈ xs, p x = false) : streamTail p xs = xs := by
  simp [streamTail, List.splitOnP_eq_singleton h]

theorem streamLines_append_cons (xs ys : List α) (hsep : p sep = true) :
    streamLines p (xs ++ sep :: ys) =
      (xs.splitOnP p).filter (fun seg => !seg.isEmpty) ++ streamLines p ys := by
  unfold streamLines
  rw [List.splitOnP_append_cons xs ys hsep,
    List.dropLast_append_of_ne_nil (List.splitOnP_ne_nil p ys), List.filter_append]

theorem streamTail_append_cons (xs ys : List α) (hsep : p sep = true) :
    streamTail p (xs ++ sep :: ys) = streamTail p ys := by
  unfold streamTail
  rw [List.splitOnP_append_cons xs ys hsep]
  cases h : ys.splitOnP p with
  | nil => exact absurd h (List.splitOnP_ne_nil p ys)
  | cons seg segs => simp [List.getLastD_eq_getLast?, List.getLast?_cons]

/-- A segment and the separator after it. -/
theorem streamLines_segment (h : ∀ x ∈ xs, p x = false) (ys : List α) (hsep : p sep = true) :
    streamLines p (xs ++ sep :: ys) = (if xs.isEmpty then [] else [xs]) ++ streamLines p ys := by
  rw [streamLines_append_cons xs ys hsep, List.splitOnP_eq_singleton h]
  cases xs <;> simp

/-- There is no separator, or there is a last one. -/
theorem exists_last_separator (p : α → Bool) (xs : List α) :
    (∀ x ∈ xs, p x = false) ∨
      ∃ front sep rest, xs = front ++ sep :: rest ∧ p sep = true ∧ ∀ x ∈ rest, p x = false := by
  induction xs with
  | nil => exact .inl (by simp)
  | cons x xs ih =>
    cases ih with
    | inr h =>
      obtain ⟨front, sep, rest, rfl, hsep, hrest⟩ := h
      exact .inr ⟨x :: front, sep, rest, rfl, hsep, hrest⟩
    | inl h =>
      cases hx : p x with
      | true => exact .inr ⟨[], x, xs, rfl, hx, h⟩
      | false => exact .inl (by simpa [hx] using h)

theorem streamTail_free (p : α → Bool) (xs : List α) : ∀ x ∈ streamTail p xs, p x = false := by
  cases exists_last_separator p xs with
  | inl h => rwa [streamTail_of_free h]
  | inr h =>
    obtain ⟨front, sep, rest, rfl, hsep, hrest⟩ := h
    rwa [streamTail_append_cons front rest hsep, streamTail_of_free hrest]

/-- More of the stream arrives. -/
theorem streamLines_append (p : α → Bool) (xs ys : List α) :
    streamLines p (xs ++ ys) = streamLines p xs ++ streamLines p (streamTail p xs ++ ys) := by
  cases exists_last_separator p xs with
  | inl h => rw [streamLines_of_free h, streamTail_of_free h, List.nil_append]
  | inr h =>
    obtain ⟨front, sep, rest, rfl, hsep, hrest⟩ := h
    rw [streamTail_append_cons front rest hsep, streamTail_of_free hrest, List.append_assoc,
      List.cons_append, streamLines_append_cons front _ hsep, streamLines_append_cons front _ hsep,
      streamLines_of_free hrest, List.append_nil]

theorem streamTail_append (p : α → Bool) (xs ys : List α) :
    streamTail p (xs ++ ys) = streamTail p (streamTail p xs ++ ys) := by
  cases exists_last_separator p xs with
  | inl h => rw [streamTail_of_free h]
  | inr h =>
    obtain ⟨front, sep, rest, rfl, hsep, hrest⟩ := h
    rw [streamTail_append_cons front rest hsep, streamTail_of_free hrest, List.append_assoc,
      List.cons_append, streamTail_append_cons front _ hsep]

/-- Separators at the start make no lines. -/
theorem streamLines_dropWhile (p : α → Bool) (xs : List α) :
    streamLines p (xs.dropWhile p) = streamLines p xs := by
  induction xs with
  | nil => rfl
  | cons x xs ih =>
    cases hx : p x with
    | false => simp [hx]
    | true =>
      have hcons := streamLines_segment (fun y hy => absurd hy List.not_mem_nil) xs hx
      simp only [List.dropWhile_cons, hx, if_true, ih]
      exact hcons.symm

theorem streamTail_dropWhile (p : α → Bool) (xs : List α) :
    streamTail p (xs.dropWhile p) = streamTail p xs := by
  induction xs with
  | nil => rfl
  | cons x xs ih =>
    cases hx : p x with
    | false => simp [hx]
    | true =>
      simp only [List.dropWhile_cons, hx, if_true, ih]
      exact (streamTail_append_cons [] xs hx).symm
