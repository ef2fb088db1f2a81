-- SUMMARY: What cJSON allocates for a text or a string is enough for what it writes.
import Aprsc.Cjson.Value

/-!
# Sizes in JSON

Every function that prints a value allocates the memory for its text first, and
`parse_string` allocates the memory for its string before it decodes the first escape.
-/

namespace Aprsc

namespace Cjson

open Floats Numerals

/-! ## What is allocated -/

/-- `print_number`. -/
def printNumberAlloc (d : Double) : Nat :=
  match d with
  | .finite q _ =>
    if q = 0 then 2
    else if |d.valueint - q| ≤ dblEpsilon ∧ q ≤ intMax ∧ q ≥ intMin then 21
    else 64
  | _ => 64

/-- What `print_array` adds up for its entries. -/
def elementsAlloc (fmt : Bool) (depth : Nat) : Items → Nat
  | .nil => 0
  | .cons _ item next =>
    (printValue fmt depth item).length + 2 + (if fmt then 1 else 0) + elementsAlloc fmt depth next

/-- What `print_object` adds up for its entries. -/
def membersAlloc (fmt : Bool) (depth : Nat) : Items → Nat
  | .nil => 0
  | .cons name item next =>
    (printValue fmt depth item).length + (printStringPtr name).length + 2 +
      (if fmt then 2 + depth else 0) + membersAlloc fmt depth next

/-- What the function that prints a value allocates for it. -/
def printAlloc (fmt : Bool) (depth : Nat) : Item → Nat
  | .null => 5
  | .false => 6
  | .true => 5
  | .number d => printNumberAlloc d
  | .string s => printStringAlloc (some s)
  | .array .nil => 3
  | .array child => 5 + elementsAlloc fmt (depth + 1) child
  | .object .nil => if fmt then depth + 4 else 3
  | .object child => 7 + (if fmt then depth + 1 else 0) + membersAlloc fmt (depth + 1) child

/-- What `parse_string` allocates for a string with `skipped` backslashes: a character
constant has the size of an `int`. -/
def parseStringAlloc (body : Bytes) (skipped : Nat) : Nat := body.length + 1 - skipped + 4

/-! ## Lists -/

theorem printElements_length (fmt : Bool) (depth : Nat) (items : Items) :
    (printElements fmt depth items).length ≤ elementsAlloc fmt depth items := by
  cases items with
  | nil => exact le_rfl
  | cons name item next =>
    have ih := printElements_length fmt depth next
    simp only [printElements, elementsAlloc, List.length_append]
    cases fmt <;> cases next.isNil <;> simp [formatted] <;> omega

theorem printMembers_length (fmt : Bool) (depth : Nat) (items : Items) :
    (printMembers fmt depth items).length ≤ membersAlloc fmt depth items := by
  cases items with
  | nil => exact le_rfl
  | cons name item next =>
    have ih := printMembers_length fmt depth next
    simp only [printMembers, membersAlloc, List.length_append, List.length_cons]
    cases fmt <;> cases next.isNil <;> simp [formatted, tabs] <;> omega

/-! ## Numbers -/

theorem length_numeral_le {n k : Nat} (hk : 0 < k) (hn : n < 10 ^ k) : (numeral n).length ≤ k := by
  induction k generalizing n with
  | zero => exact absurd hk (lt_irrefl 0)
  | succ k ih =>
    rw [numeral]
    split
    · exact Nat.le_add_left 1 k
    · rw [List.length_append, List.length_singleton]
      apply Nat.succ_le_succ
      have hdiv : n / 10 < 10 ^ k := by
        rw [pow_succ] at hn
        omega
      cases k with
      | zero => simp at hn; omega
      | succ k => exact ih (Nat.succ_pos k) hdiv

theorem length_sign_le (q : ℚ) : (sign q).length ≤ 1 := by
  rw [sign]
  split <;> simp

theorem units_le {k m : Nat} {q : ℚ} (h : |q| * 10 ^ k ≤ m) : units k q ≤ m := by
  have hround : roundEven (|q| * 10 ^ k) ≤ m := roundEven_le (by exact_mod_cast h)
  rw [units]
  omega

theorem valueint_range (d : Double) : intMin ≤ d.valueint ∧ d.valueint ≤ intMax := by
  have hrange : intMin ≤ intMax := by decide
  cases d with
  | nan => exact ⟨le_rfl, hrange⟩
  | inf neg => cases neg <;> exact ⟨by decide, by decide⟩
  | finite q has =>
    simp only [Double.valueint]
    split_ifs with hmax hmin hneg
    · exact ⟨hrange, le_rfl⟩
    · exact ⟨le_rfl, hrange⟩
    · rw [ge_iff_le, not_le] at hmax
      rw [not_le] at hmin
      exact ⟨Int.le_floor.mpr hmin.le, by exact_mod_cast (Int.floor_le q).trans hmax.le⟩
    · rw [ge_iff_le, not_le] at hmax
      rw [not_le] at hmin
      exact ⟨by exact_mod_cast hmin.le.trans (Int.le_ceil q), Int.ceil_le.mpr hmax.le⟩

/-- The exponent of a `double` has four digits at most. -/
theorem log_natAbs_le {q : ℚ} (has : binary64.Has q) (hq : q ≠ 0) : (Int.log 10 |q|).natAbs ≤ 1074 := by
  have hpos : 0 < |q| := abs_pos.mpr hq
  have hhigh : Int.log 10 |q| < 1024 := by
    apply (Int.lt_zpow_iff_log_lt (by norm_num) hpos).mp
    refine lt_of_lt_of_le has.lt_bound ?_
    have hbound : binary64.bound = 2 ^ (1024 : ℤ) := rfl
    rw [hbound, Nat.cast_ofNat]
    exact zpow_le_zpow_left₀ (by norm_num) (by norm_num) (by norm_num)
  have hlow : -1074 ≤ Int.log 10 |q| := by
    apply (Int.zpow_le_iff_le_log (by norm_num) hpos).mp
    refine le_trans ?_ (has.le_abs hq)
    rw [Nat.cast_ofNat, show binary64.emin = -1074 from rfl, zpow_neg, zpow_neg]
    apply inv_anti₀ (by positivity)
    exact zpow_le_zpow_left₀ (by norm_num) (by norm_num) (by norm_num)
  omega

theorem scientific_le {q : ℚ} (hq : q ≠ 0) :
    (scientific q).1 ≤ 10 ^ 7 ∧ ((scientific q).2 = Int.log 10 |q| ∨ (scientific q).2 = Int.log 10 |q| + 1) := by
  have hpos : 0 < |q| := abs_pos.mpr hq
  have hlt := Int.lt_zpow_succ_log_self (b := 10) (by norm_num) |q|
  have hscaled : |q| / 10 ^ Int.log 10 |q| * 10 ^ 6 ≤ ((10 ^ 7 : ℤ) : ℚ) := by
    rw [zpow_add_one₀ (by norm_num)] at hlt
    push_cast at hlt ⊢
    have hten : |q| / 10 ^ Int.log 10 |q| ≤ 10 := by
      rw [div_le_iff₀ (by positivity), mul_comm]
      exact hlt.le
    linarith
  have hround := roundEven_le hscaled
  simp only [scientific]
  split
  · exact ⟨by norm_num, .inr rfl⟩
  · refine ⟨?_, .inl rfl⟩
    simp only [Int.toNat_le]
    exact hround

theorem length_exponentBytes_le {x : ℤ} (hx : x.natAbs ≤ 1075) : (exponentBytes x).length ≤ 6 := by
  have hdigits := @length_numeral_le x.natAbs 4 (by omega) (by omega)
  rw [exponentBytes, List.length_cons, List.length_cons]
  split_ifs with hsmall
  · rw [length_padded]
    omega
  · omega

theorem printNumber_length (d : Double) : (printNumber d).length + 1 ≤ printNumberAlloc d := by
  cases d with
  | nan => decide
  | inf neg => exact (by decide : (ascii "null").length + 1 ≤ 64)
  | finite q has =>
    have hsign := length_sign_le q
    rw [printNumber, printNumberAlloc]
    split_ifs with hzero hint hwhole hexp
    · decide
    · have hrange := valueint_range (.finite q has)
      generalize (Double.finite q has).valueint = n at hrange
      rw [show intMin = -2147483648 from rfl, show intMax = 2147483647 from rfl] at hrange
      have hdigits := @length_numeral_le n.natAbs 10 (by omega) (by omega)
      have hsign' := length_sign_le n
      rw [sprintfD, List.length_append]
      omega
    · have hunits : units 0 q ≤ 2 * 10 ^ 60 := by
        apply units_le
        rw [pow_zero, mul_one]
        exact (hwhole.2.le.trans nearest_range.2).trans (by norm_num)
      have hdigits := @length_numeral_le (units 0 q) 61 (by omega) (by omega)
      rw [sprintfF0, List.length_append]
      omega
    · obtain ⟨hm, hx⟩ := scientific_le hzero
      have hlog := log_natAbs_le has hzero
      rw [sprintfE]
      generalize scientific q = mx at hm hx
      have hdigits := @length_numeral_le (mx.1 / 10 ^ 6) 2 (by omega) (by omega)
      have hexpo := @length_exponentBytes_le mx.2 (by omega)
      simp only [List.length_append, List.length_cons, length_padded]
      omega
    · rw [not_or, not_lt, not_lt] at hexp
      have hunits : units 6 q ≤ 10 ^ 15 := by
        apply units_le
        push_cast
        linarith [hexp.2]
      have hdigits := @length_numeral_le (units 6 q / 10 ^ 6) 10 (by omega) (by omega)
      simp only [sprintfF, List.length_append, List.length_cons, length_padded]
      omega

/-! ## Every text -/

theorem printValue_length (fmt : Bool) (depth : Nat) (item : Item) :
    (printValue fmt depth item).length + 1 ≤ printAlloc fmt depth item := by
  cases item with
  | null => exact Nat.le_of_eq rfl
  | false => exact Nat.le_of_eq rfl
  | true => exact Nat.le_of_eq rfl
  | number d => exact printNumber_length d
  | string s => exact (printStringPtr_alloc (some s)).le
  | array child =>
    cases child with
    | nil => exact Nat.le_of_eq rfl
    | cons name item next =>
      have h := printElements_length fmt (depth + 1) (.cons name item next)
      simp only [printValue, printAlloc, List.length_append, List.length_cons, List.length_nil]
      omega
  | object child =>
    cases child with
    | nil => cases fmt <;> simp [printValue, printAlloc, formatted, tabs]
    | cons name item next =>
      have h := printMembers_length fmt (depth + 1) (.cons name item next)
      simp only [printValue, printAlloc, List.length_append, List.length_cons, List.length_nil]
      cases fmt <;> simp [formatted, tabs] <;> omega

/-- cJSON writes no byte past what it has allocated: neither for the text of a value of
any depth, nor for the string of any text, whether it is accepted in the end or not. -/
theorem cJSON_fits :
    (∀ fmt depth item, (printValue fmt depth item).length + 1 ≤ printAlloc fmt depth item) ∧
    ∀ s body skipped rest, findEnd s = some (body, skipped, rest) →
      (unescapeLoop body.length body).1.length + 1 ≤ parseStringAlloc body skipped := by
  refine ⟨printValue_length, fun s body skipped rest h => ?_⟩
  obtain ⟨hbody, -⟩ := findEnd_body h
  have hle := hbody.length_le
  have hwritten := @unescapeLoop_length body.length _ _ hbody
  rw [parseStringAlloc]
  omega

end Cjson

end Aprsc
