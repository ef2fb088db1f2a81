-- SUMMARY: Fixed-size buffers: the elements between two offsets, `memcpy` into a buffer and `memmove` within it.
import Mathlib.Data.List.Basic

/-!
# Buffers

A buffer of a C program is a list of fixed length. `memcpy` and `memmove` replace
a part of it; what lies beside that part stays.
-/

namespace Buffer

variable {α : Type} {buf xs : List α} {a b c n : Nat}

/-- The elements from offset `a` up to, not including, offset `b`. -/
def segment (buf : List α) (a b : Nat) : List α := (buf.drop a).take (b - a)

/-- `memcpy(buf + a, xs)`. -/
def memcpy (buf : List α) (a : Nat) (xs : List α) : List α :=
  buf.take a ++ xs ++ buf.drop (a + xs.length)

/-- `memmove(buf, buf + a, n)`. -/
def memmove (buf : List α) (a n : Nat) : List α := memcpy buf 0 (segment buf a (a + n))

theorem length_segment (hb : b ≤ buf.length) : (segment buf a b).length = b - a := by
  simp only [segment, List.length_take, List.length_drop]
  omega

theorem length_memcpy (h : a + xs.length ≤ buf.length) :
    (memcpy buf a xs).length = buf.length := by
  simp only [memcpy, List.length_append, List.length_take, List.length_drop]
  omega

theorem length_memmove (h : a + n ≤ buf.length) : (memmove buf a n).length = buf.length := by
  apply length_memcpy
  rw [length_segment h]
  omega

@[simp] theorem segment_self : segment buf a a = [] := by simp [segment]

/-- Two adjacent parts. -/
theorem segment_append (hab : a ≤ b) (hbc : b ≤ c) :
    segment buf a b ++ segment buf b c = segment buf a c := by
  have hb : buf.drop b = (buf.drop a).drop (b - a) := by
    rw [List.drop_drop]
    congr 1
    omega
  have hc : c - a = (b - a) + (c - b) := by omega
  simp only [segment, hb, hc, List.take_add]

theorem drop_segment : (segment buf a b).drop n = segment buf (a + n) b := by
  simp only [segment, List.drop_take, List.drop_drop]
  congr 1
  omega

/-- What lies before the copied elements stays. -/
theorem segment_memcpy_of_le (h : b ≤ a) (ha : a ≤ buf.length) :
    segment (memcpy buf a xs) c b = segment buf c b := by
  have htake : ∀ l : List α, segment l c b = (l.take b).drop c := by
    intro l
    simp [segment, List.drop_take]
  have hlen : b ≤ (buf.take a).length := by
    rw [List.length_take]
    omega
  rw [htake, htake, memcpy, List.append_assoc, List.take_append_of_le_length hlen, List.take_take,
    Nat.min_eq_left h]

/-- What lies after the copied elements stays. -/
theorem drop_memcpy (ha : a ≤ buf.length) (h : a + xs.length ≤ n) :
    (memcpy buf a xs).drop n = buf.drop n := by
  have hlen : (buf.take a ++ xs).length = a + xs.length := by
    simp only [List.length_append, List.length_take]
    omega
  rw [memcpy, List.drop_append, hlen, List.drop_eq_nil_of_le (by omega), List.drop_drop,
    List.nil_append]
  congr 1
  omega

/-- A copy element by element. -/
theorem memcpy_set {x : α} (ha : a < buf.length) :
    memcpy (buf.set a x) (a + 1) xs = memcpy buf a (x :: xs) := by
  have htake : (buf.set a x).take (a + 1) = buf.take a ++ [x] := by
    rw [List.take_add_one, List.take_set_of_le (Nat.le_refl a), List.getElem?_set_self ha]
    rfl
  have hdrop : (buf.set a x).drop (a + 1 + xs.length) = buf.drop (a + (x :: xs).length) := by
    rw [List.drop_set_of_lt (by omega), List.length_cons]
    congr 1
    omega
  simp [memcpy, htake, hdrop]

/-- The copied elements. -/
theorem segment_memcpy (ha : a ≤ buf.length) :
    segment (memcpy buf a xs) a (a + xs.length) = xs := by
  have hlen : (buf.take a).length = a := by
    rw [List.length_take]
    omega
  have hdrop : (memcpy buf a xs).drop a = xs ++ buf.drop (a + xs.length) := by
    rw [memcpy, List.append_assoc, List.drop_append_of_le_length (by omega),
      List.drop_eq_nil_of_le (by omega), List.nil_append]
  have hn : a + xs.length - a = xs.length := by omega
  rw [segment, hdrop, hn, List.take_left]

/-- The moved elements. -/
theorem segment_memmove (h : a + n ≤ buf.length) :
    segment (memmove buf a n) 0 n = segment buf a (a + n) := by
  have hlen : (segment buf a (a + n)).length = n := by
    rw [length_segment h]
    omega
  have hcopy : segment (memmove buf a n) 0 (0 + (segment buf a (a + n)).length) =
      segment buf a (a + n) := segment_memcpy (Nat.zero_le buf.length)
  rwa [hlen, Nat.zero_add] at hcopy

end Buffer
