-- SUMMARY: Decimal numerals as bytes: of any length, of a fixed length, and their values.
import Aprsc.Base.Bytes
import Mathlib.Tactic.Ring

/-!
# Decimal numerals

`numeral` writes a number without leading zeros, `padded` writes its last digits, and
`valueOf` reads digits back.
-/

namespace Aprsc

namespace Numerals

/-- The digit of a number below ten. -/
def digit (n : Nat) : UInt8 := UInt8.ofNat (48 + n)

/-- The bytes that are decimal digits. -/
def IsNumeral (s : Bytes) : Prop := ∀ b ∈ s, 48 ≤ b.toNat ∧ b.toNat ≤ 57

def numeral (n : Nat) : Bytes :=
  if n < 10 then [digit n] else numeral (n / 10) ++ [digit (n % 10)]

/-- The last `k` digits. -/
def padded : (k n : Nat) → Bytes
  | 0, _ => []
  | k + 1, n => padded k (n / 10) ++ [digit (n % 10)]

def valueOf (s : Bytes) : Nat := s.foldl (fun n b => 10 * n + (b.toNat - 48)) 0

/-! ## Digits -/

theorem digit_toNat {n : Nat} (hn : n < 10) : (digit n).toNat = 48 + n := by
  rw [digit, UInt8.toNat_ofNat', Nat.mod_eq_of_lt (by omega)]

theorem isNumeral_digit {n : Nat} (hn : n < 10) : IsNumeral [digit n] := by
  intro b hb
  rw [List.mem_singleton] at hb
  rw [hb, digit_toNat hn]
  omega

theorem IsNumeral.append {s t : Bytes} (hs : IsNumeral s) (ht : IsNumeral t) : IsNumeral (s ++ t) := by
  intro b hb
  rcases List.mem_append.mp hb with hb | hb
  · exact hs b hb
  · exact ht b hb

theorem isNumeral_numeral (n : Nat) : IsNumeral (numeral n) := by
  induction n using Nat.strongRecOn with
  | ind n ih =>
    rw [numeral]
    split
    · exact isNumeral_digit ‹_›
    · exact (ih (n / 10) (by omega)).append (isNumeral_digit (Nat.mod_lt _ (by omega)))

theorem isNumeral_padded (k n : Nat) : IsNumeral (padded k n) := by
  induction k generalizing n with
  | zero => simp [padded, IsNumeral]
  | succ k ih => exact (ih _).append (isNumeral_digit (Nat.mod_lt _ (by omega)))

@[simp] theorem length_padded (k n : Nat) : (padded k n).length = k := by
  induction k generalizing n with
  | zero => rfl
  | succ k ih => rw [padded, List.length_append, ih, List.length_singleton]

theorem numeral_ne_nil (n : Nat) : numeral n ≠ [] := by
  rw [numeral]
  split
  · exact List.cons_ne_nil _ _
  · exact List.append_ne_nil_of_right_ne_nil _ (List.cons_ne_nil _ _)

/-- Only zero has a numeral that starts with a zero. -/
theorem numeral_head {n : Nat} (hn : 0 < n) : ∃ d rest, numeral n = d :: rest ∧ d ≠ 48 := by
  induction n using Nat.strongRecOn with
  | ind n ih =>
    rw [numeral]
    split
    · refine ⟨digit n, [], rfl, fun heq => ?_⟩
      have := congrArg UInt8.toNat heq
      rw [digit_toNat ‹_›] at this
      simp at this
      omega
    · obtain ⟨d, rest, heq, hd⟩ := ih (n / 10) (by omega) (by omega)
      exact ⟨d, rest ++ [digit (n % 10)], by rw [heq, List.cons_append], hd⟩

/-! ## Values -/

theorem valueOf_snoc (s : Bytes) (b : UInt8) : valueOf (s ++ [b]) = 10 * valueOf s + (b.toNat - 48) := by
  rw [valueOf, List.foldl_append, List.foldl_cons, List.foldl_nil, valueOf]

theorem valueOf_append (s t : Bytes) : valueOf (s ++ t) = valueOf s * 10 ^ t.length + valueOf t := by
  induction t using List.reverseRecOn with
  | nil => simp [valueOf]
  | append_singleton t b ih =>
    rw [← List.append_assoc, valueOf_snoc, ih, valueOf_snoc, List.length_append, List.length_singleton,
      pow_succ]
    ring

theorem valueOf_numeral (n : Nat) : valueOf (numeral n) = n := by
  induction n using Nat.strongRecOn with
  | ind n ih =>
    rw [numeral]
    split
    · rw [show [digit n] = [] ++ [digit n] from rfl, valueOf_snoc, digit_toNat ‹_›]
      simp [valueOf]
    · rw [valueOf_snoc, ih (n / 10) (by omega), digit_toNat (Nat.mod_lt _ (by omega))]
      omega

theorem valueOf_padded (k n : Nat) : valueOf (padded k n) = n % 10 ^ k := by
  induction k generalizing n with
  | zero => simp [padded, valueOf, Nat.mod_one]
  | succ k ih =>
    rw [padded, valueOf_snoc, ih, digit_toNat (Nat.mod_lt _ (by omega)), pow_succ', Nat.mod_mul]
    omega

/-- A number is its higher digits and its last `k` digits. -/
theorem valueOf_numeral_padded (k n : Nat) :
    valueOf (numeral (n / 10 ^ k) ++ padded k n) = n := by
  rw [valueOf_append, valueOf_numeral, valueOf_padded, length_padded]
  exact Nat.div_add_mod' n (10 ^ k)

/-! ## Scanning -/

/-- What a scan for digits takes and leaves. -/
theorem scan_numeral {p : UInt8 → Bool} {s rest : Bytes}
    (hp : ∀ b, p b = true ↔ 48 ≤ b.toNat ∧ b.toNat ≤ 57) (hs : IsNumeral s)
    (hrest : ∀ b ∈ rest.head?, p b = false) :
    (s ++ rest).takeWhile p = s ∧ (s ++ rest).dropWhile p = rest := by
  have hall : ∀ b ∈ s, p b = true := fun b hb => (hp b).mpr (hs b hb)
  rw [List.takeWhile_append_of_pos hall, List.dropWhile_append_of_pos hall]
  cases rest with
  | nil => simp
  | cons b rest =>
    have hb := hrest b rfl
    simp [hb]

end Numerals

end Aprsc
