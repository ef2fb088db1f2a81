-- SUMMARY: The numbers of a live upgrade as cJSON reads them back from the text of the dump.
import Aprsc.Cjson.Sizes
import Aprsc.Liveupgrade.ClientJson

/-!
# The numbers of a live upgrade

What the restoring of a client relies on (`CJson`) holds of the numbers that are printed
and parsed.
-/

namespace Aprsc

open Cjson Floats

namespace Cjson

/-- Whole numbers of the precision of a `double` are exact. -/
theorem has_intCast {n : ℤ} (hn : |n| < 2 ^ 53) : binary64.Has n :=
  ⟨n, 0, hn, by decide, by decide, by simp⟩

theorem rereadNumber_intCast {n : ℤ} (hn : |n| < 2 ^ 53) :
    rereadNumber (.ofRat n) = .number (.finite n (has_intCast hn)) := by
  have hsmall : |(n : ℚ)| < binary64.nearest (10 ^ 60) := by
    have hcast : ((|n| : ℤ) : ℚ) < ((2 ^ 53 : ℤ) : ℚ) := by exact_mod_cast hn
    push_cast at hcast
    refine lt_of_lt_of_le (hcast.trans ?_) nearest_range.1
    norm_num
  rw [Double.ofRat_of_has (has_intCast hn)]
  exact rereadNumber_whole (has_intCast hn) hsmall

/-- A `double`, as a `long long`. -/
def Double.toInt : Double → ℤ
  | .finite q _ => if 0 ≤ q then ⌊q⌋ else ⌈q⌉
  | _ => 0

/-- `cJSON_Number`. -/
def Item.number? : Item → Option Double
  | .number d => some d
  | _ => none

/-- The `double` that is given to `cJSON_CreateNumber`. -/
def doubleOf (floatDouble : FloatBits → Double) : JsonNumber → Double
  | .int n => .ofRat n
  | .float f => floatDouble f

/-- The number that is read back, if it is one. -/
def readBack (floatDouble : FloatBits → Double) (n : JsonNumber) : Option Double :=
  (rereadNumber (doubleOf floatDouble n)).number?

theorem readBack_int (floatDouble : FloatBits → Double) {n : ℤ} (hn : |n| < 2 ^ 53) :
    readBack floatDouble (.int n) = some (.finite n (has_intCast hn)) := by
  rw [readBack, doubleOf, rereadNumber_intCast hn, Item.number?]

theorem valueint_intCast {n : ℤ} (has : binary64.Has n) (hlow : -2 ^ 31 ≤ n) (hhigh : n < 2 ^ 31) :
    (Double.finite n has).valueint = n := by
  have hmax : intMax = 2147483647 := rfl
  have hmin : intMin = -2147483648 := rfl
  simp only [Double.valueint, ge_iff_le, Int.cast_le, Int.floor_intCast, Int.ceil_intCast]
  split_ifs <;> omega

/-- cJSON, with the conversions between `float` and `double`. -/
def cjson (floatDouble : FloatBits → Double) (toFloat : Double → FloatBits) : CJson where
  valueint n := (readBack floatDouble n).elim 0 Double.valueint
  valuedouble n := (readBack floatDouble n).elim 0 Double.toInt
  valuefloat n := (readBack floatDouble n).elim 0 toFloat
  valueint_int n hlow hhigh := by
    have hn : |n| < 2 ^ 53 := abs_lt.mpr ⟨by omega, by omega⟩
    rw [readBack_int floatDouble hn]
    exact valueint_intCast (has_intCast hn) hlow hhigh
  valuedouble_int n hlow hhigh := by
    rw [readBack_int floatDouble (abs_lt.mpr ⟨by omega, by omega⟩)]
    simp [Double.toInt]

end Cjson

end Aprsc
