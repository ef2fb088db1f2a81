-- SUMMARY: Binary floating-point formats as sets of rationals, and rounding to the nearest value.
import Mathlib.Data.Int.Log
import Mathlib.Data.Rat.Floor
import Mathlib.Algebra.Order.Field.Power
import Mathlib.Tactic.Linarith
import Mathlib.Tactic.Positivity
import Mathlib.Tactic.LinearCombination

/-!
# Floating-point formats

A format holds the rationals `m * 2 ^ e` whose significand and exponent are in range.
Rounding goes to the nearest multiple of the last digit's weight, ties to even; it does
not move a value of the format.
-/

namespace Floats

/-! ## Rounding to an integer -/

/-- The nearest integer, and the even one of two. -/
def roundEven (q : ℚ) : ℤ :=
  if q - ⌊q⌋ < 1 / 2 then ⌊q⌋
  else if 1 / 2 < q - ⌊q⌋ then ⌊q⌋ + 1
  else if Even ⌊q⌋ then ⌊q⌋ else ⌊q⌋ + 1

@[simp] theorem roundEven_intCast (n : ℤ) : roundEven n = n := by
  simp [roundEven]

theorem roundEven_error (q : ℚ) : |(roundEven q : ℚ) - q| ≤ 1 / 2 := by
  have hlo := Int.floor_le q
  have hhi := Int.lt_floor_add_one q
  rw [roundEven]
  split_ifs <;> push_cast <;> rw [abs_le] <;> constructor <;> linarith

theorem roundEven_eq {q : ℚ} {n : ℤ} (h : |q - n| < 1 / 2) : roundEven q = n := by
  have hsum : |((roundEven q - n : ℤ) : ℚ)| < 1 := by
    have htri := abs_add_le ((roundEven q : ℚ) - q) (q - n)
    rw [sub_add_sub_cancel] at htri
    push_cast
    linarith [roundEven_error q]
  have hzero : |roundEven q - n| < 1 := by exact_mod_cast hsum
  exact sub_eq_zero.mp (Int.abs_lt_one_iff.mp hzero)

/-- Rounding does not pass an integer. -/
theorem roundEven_le {q : ℚ} {n : ℤ} (hq : q ≤ n) : roundEven q ≤ n := by
  have herr := abs_le.mp (roundEven_error q)
  have hlt : (roundEven q : ℚ) < n + 1 := by linarith
  exact_mod_cast Int.lt_add_one_iff.mp (by exact_mod_cast hlt)

theorem le_roundEven {q : ℚ} {n : ℤ} (hq : (n : ℚ) ≤ q) : n ≤ roundEven q := by
  have herr := abs_le.mp (roundEven_error q)
  have hlt : (n : ℚ) < roundEven q + 1 := by linarith
  exact_mod_cast Int.lt_add_one_iff.mp (by exact_mod_cast hlt)

theorem abs_roundEven_le {q : ℚ} {n : ℤ} (hq : |q| ≤ n) : |roundEven q| ≤ n := by
  have h := abs_le.mp hq
  refine abs_le.mpr ⟨?_, roundEven_le h.2⟩
  apply le_roundEven
  push_cast
  exact h.1

theorem le_abs_roundEven {q : ℚ} {n : ℤ} (hq : (n : ℚ) ≤ |q|) : n ≤ |roundEven q| := by
  rcases le_abs.mp hq with hq | hq
  · exact (le_roundEven hq).trans (le_abs_self _)
  · have hneg : q ≤ ((-n : ℤ) : ℚ) := by
      push_cast
      linarith
    exact (le_neg.mp (roundEven_le hneg)).trans (neg_le_abs _)

/-! ## Formats -/

/-- The number of significant bits, and the least and greatest weight of the last one. -/
structure Format where
  precision : ℕ
  emin : ℤ
  emax : ℤ
  precision_pos : 0 < precision
  range : emin ≤ emax

def binary64 : Format := ⟨53, -1074, 971, by decide, by decide⟩

namespace Format

variable (f : Format)

/-- The finite values of a format. -/
def Has (q : ℚ) : Prop :=
  ∃ m e : ℤ, |m| < 2 ^ f.precision ∧ f.emin ≤ e ∧ e ≤ f.emax ∧ q = m * 2 ^ e

/-- The weight of the last digit of what is near `q`, as a power of two. -/
def exponent (q : ℚ) : ℤ := max (Int.log 2 |q| + 1 - f.precision) f.emin

/-- The value nearest to `q`, if the greatest exponent were not bounded. -/
def nearest (q : ℚ) : ℚ := roundEven (q / 2 ^ f.exponent q) * 2 ^ f.exponent q

/-- What is finite in a format is less. -/
def bound : ℚ := 2 ^ (f.precision + f.emax)

variable {f} {q : ℚ}

theorem Has.abs_lt {m e : ℤ} (hm : |m| < 2 ^ f.precision) :
    |(m * 2 ^ e : ℚ)| < 2 ^ (f.precision + e) := by
  rw [abs_mul, abs_of_pos (by positivity : (0 : ℚ) < 2 ^ e), zpow_add₀ (by norm_num), zpow_natCast]
  apply mul_lt_mul_of_pos_right _ (by positivity)
  have : ((|m| : ℤ) : ℚ) < ((2 ^ f.precision : ℤ) : ℚ) := by exact_mod_cast hm
  push_cast at this
  exact this

theorem Has.lt_bound (hq : f.Has q) : |q| < f.bound := by
  obtain ⟨m, e, hm, -, hmax, rfl⟩ := hq
  refine lt_of_lt_of_le (Has.abs_lt hm) ?_
  exact zpow_le_zpow_right₀ (by norm_num) (by omega)

/-- A multiple of a power of two is one of any smaller power of two. -/
theorem exists_mul_zpow (m : ℤ) {x e : ℤ} (hx : x ≤ e) :
    ∃ k : ℤ, (m * 2 ^ e : ℚ) / 2 ^ x = k := by
  refine ⟨m * 2 ^ (e - x).toNat, ?_⟩
  have hexp : ((e - x).toNat : ℤ) = e - x := Int.toNat_of_nonneg (by omega)
  push_cast
  rw [← zpow_natCast, hexp, zpow_sub₀ (by norm_num), mul_div_assoc]

theorem exponent_le {m e : ℤ} (hm : |m| < 2 ^ f.precision) (he : f.emin ≤ e)
    (hq : (m * 2 ^ e : ℚ) ≠ 0) : f.exponent (m * 2 ^ e) ≤ e := by
  have hlog : Int.log 2 |(m * 2 ^ e : ℚ)| < f.precision + e := by
    apply (Int.lt_zpow_iff_log_lt (by norm_num) (abs_pos.mpr hq)).mp
    exact_mod_cast Has.abs_lt hm
  rw [exponent]
  omega

/-- A value of the format stays. -/
theorem Has.nearest_eq (hq : f.Has q) : f.nearest q = q := by
  obtain ⟨m, e, hm, hmin, -, rfl⟩ := hq
  by_cases hzero : (m * 2 ^ e : ℚ) = 0
  · rw [hzero, nearest, zero_div, show (0 : ℚ) = ((0 : ℤ) : ℚ) by simp, roundEven_intCast]
    simp
  · obtain ⟨k, hk⟩ := exists_mul_zpow m (exponent_le hm hmin hzero)
    rw [nearest, hk, roundEven_intCast, ← hk]
    exact div_mul_cancel₀ _ (by positivity)

theorem abs_scaled_le (q : ℚ) : |q / 2 ^ f.exponent q| ≤ ((2 ^ f.precision : ℤ) : ℚ) := by
  rw [abs_div, abs_of_pos (by positivity : (0 : ℚ) < 2 ^ f.exponent q), div_le_iff₀ (by positivity)]
  have hlog := Int.lt_zpow_succ_log_self (b := 2) (by norm_num) |q|
  have hle : Int.log 2 |q| + 1 ≤ f.precision + f.exponent q := by
    rw [exponent]
    omega
  push_cast at hlog ⊢
  rw [← zpow_natCast, ← zpow_add₀ (by norm_num)]
  exact le_trans hlog.le (zpow_le_zpow_right₀ (by norm_num) hle)

/-- Above the least exponent the significand has its full length. -/
theorem le_abs_scaled (hq : q ≠ 0) (hmin : f.emin < f.exponent q) :
    ((2 ^ (f.precision - 1) : ℤ) : ℚ) ≤ |q / 2 ^ f.exponent q| := by
  push_cast
  rw [← zpow_natCast, Nat.cast_sub f.precision_pos, abs_div, abs_of_pos (by positivity : (0 : ℚ) < 2 ^ f.exponent q), le_div_iff₀ (by positivity),
    ← zpow_add₀ (by norm_num)]
  have hlog := Int.zpow_log_le_self (b := 2) (by norm_num) (abs_pos.mpr hq)
  have heq : (f.precision : ℤ) - (1 : ℕ) + f.exponent q = Int.log 2 |q| := by
    rw [exponent] at hmin ⊢
    omega
  rw [heq]
  exact_mod_cast hlog

/-- What is rounded is in the format, unless it is too large. -/
theorem has_nearest (hbound : |f.nearest q| < f.bound) : f.Has (f.nearest q) := by
  have hround := abs_roundEven_le (abs_scaled_le (f := f) q)
  have hlow : q ≠ 0 → f.emin < f.exponent q →
      2 ^ (f.precision - 1) ≤ |roundEven (q / 2 ^ f.exponent q)| :=
    fun hq hmin => le_abs_roundEven (le_abs_scaled hq hmin)
  have hmin : f.emin ≤ f.exponent q := le_max_right _ _
  have hzero : q = 0 → roundEven (q / 2 ^ f.exponent q) = 0 := by
    rintro rfl
    rw [zero_div]
    exact roundEven_intCast 0
  rw [nearest] at hbound ⊢
  generalize roundEven (q / 2 ^ f.exponent q) = r at *
  generalize f.exponent q = x at *
  rw [abs_mul, abs_of_pos (by positivity : (0 : ℚ) < 2 ^ x)] at hbound
  have hpred : ((2 ^ (f.precision - 1) : ℤ) : ℚ) * 2 = 2 ^ f.precision := by
    push_cast
    rw [← pow_succ, Nat.sub_add_cancel f.precision_pos]
  -- A significand of at least `2 ^ k` bounds the exponent.
  have hexp {k : ℕ} (hr : (2 ^ k : ℤ) ≤ |r|) : (k : ℤ) + x < f.precision + f.emax := by
    have hcast : ((2 : ℚ) ^ k) ≤ ((|r| : ℤ) : ℚ) := by exact_mod_cast hr
    push_cast at hcast
    have hlt : (2 : ℚ) ^ ((k : ℤ) + x) < 2 ^ (f.precision + f.emax) := by
      rw [zpow_add₀ (by norm_num), zpow_natCast]
      exact lt_of_le_of_lt (mul_le_mul_of_nonneg_right hcast (by positivity)) hbound
    exact (zpow_lt_zpow_iff_right₀ (by norm_num)).mp hlt
  have hpos := f.precision_pos
  rcases lt_or_eq_of_le hround with hlt | heq
  · by_cases hx : f.emin < x
    · by_cases hq : q = 0
      · exact ⟨0, f.emin, by simp, le_rfl, f.range, by rw [hzero hq]; simp⟩
      · have := hexp (hlow hq hx)
        exact ⟨r, x, hlt, hmin, by omega, rfl⟩
    · have := f.range
      exact ⟨r, x, hlt, hmin, by omega, rfl⟩
  · -- The significand became a power of two: one digit less, and one exponent more.
    have hx := hexp (k := f.precision) heq.ge
    have hsmall : (2 ^ (f.precision - 1) : ℤ) < 2 ^ f.precision :=
      pow_lt_pow_right₀ (by norm_num) (by omega)
    rcases (abs_eq (by positivity)).mp heq with hr | hr
    · refine ⟨2 ^ (f.precision - 1), x + 1, ?_, by omega, by omega, ?_⟩
      · rwa [abs_of_pos (by positivity)]
      · rw [hr, zpow_add_one₀ (by norm_num)]
        push_cast at hpred ⊢
        linear_combination -(2 : ℚ) ^ x * hpred
    · refine ⟨-2 ^ (f.precision - 1), x + 1, ?_, by omega, by omega, ?_⟩
      · rwa [abs_neg, abs_of_pos (by positivity)]
      · rw [hr, zpow_add_one₀ (by norm_num)]
        push_cast at hpred ⊢
        linear_combination (2 : ℚ) ^ x * hpred

/-- A value that is not tiny is moved by less than half of itself. -/
theorem nearest_error (hq : q ≠ 0) (hlog : f.emin ≤ Int.log 2 |q|) : |f.nearest q - q| ≤ |q| / 2 := by
  have hpow : (2 : ℚ) ^ f.exponent q ≤ |q| := by
    have hself := Int.zpow_log_le_self (b := 2) (by norm_num) (abs_pos.mpr hq)
    have hle : f.exponent q ≤ Int.log 2 |q| := by
      have hp := f.precision_pos
      rw [exponent]
      omega
    exact le_trans (zpow_le_zpow_right₀ (by norm_num) hle) (by exact_mod_cast hself)
  have hpos : (0 : ℚ) < 2 ^ f.exponent q := by positivity
  have hsplit : f.nearest q - q =
      ((roundEven (q / 2 ^ f.exponent q) : ℚ) - q / 2 ^ f.exponent q) * 2 ^ f.exponent q := by
    rw [nearest, sub_mul, div_mul_cancel₀ _ hpos.ne']
  rw [hsplit, abs_mul, abs_of_pos hpos]
  have hmul := mul_le_mul_of_nonneg_right (roundEven_error (q / 2 ^ f.exponent q)) hpos.le
  linarith

/-- A value of the format is zero or has the least weight. -/
theorem Has.le_abs (hq : f.Has q) (hne : q ≠ 0) : 2 ^ f.emin ≤ |q| := by
  obtain ⟨m, e, -, hmin, -, rfl⟩ := hq
  have hm : m ≠ 0 := by
    rintro rfl
    exact hne (by simp)
  have hone : (1 : ℚ) ≤ |(m : ℚ)| := by
    rw [← Int.cast_abs]
    exact_mod_cast Int.one_le_abs hm
  rw [abs_mul, abs_of_pos (by positivity : (0 : ℚ) < 2 ^ e)]
  have hpow : (2 : ℚ) ^ f.emin ≤ 2 ^ e := zpow_le_zpow_right₀ (by norm_num) hmin
  exact hpow.trans (le_mul_of_one_le_left (by positivity) hone)

end Format

end Floats
