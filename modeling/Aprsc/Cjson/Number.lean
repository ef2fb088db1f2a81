-- SUMMARY: How cJSON prints and parses numbers, with sprintf and strtod on exact values.
import Aprsc.Base.Floats
import Aprsc.Base.Numerals

/-!
# Numbers in JSON

A `double` is a rational of the binary64 format, an infinity or a NaN; the two zeros
are one value here. `sprintf` and `strtod` are what the C library documents: the exact
value, rounded once to the nearest.
-/

namespace Aprsc

namespace Cjson

open Floats Numerals

inductive Double where
  | nan
  | inf (neg : Bool)
  | finite (q : ℚ) (has : binary64.Has q)

/-- The `double` nearest to a number. -/
def Double.ofRat (q : ℚ) : Double :=
  if h : |binary64.nearest q| < binary64.bound then .finite (binary64.nearest q) (Format.has_nearest h)
  else .inf (q < 0)

theorem Double.ofRat_of_has {q : ℚ} (h : binary64.Has q) : Double.ofRat q = .finite q h := by
  have hq := h.nearest_eq
  rw [ofRat, dif_pos (by rw [hq]; exact h.lt_bound)]
  simp only [hq]

def intMax : ℤ := 2 ^ 31 - 1
def intMin : ℤ := -2 ^ 31

/-- `valueint`, as `parse_number` and `cJSON_CreateNumber` set it. The conversion of a
NaN gives `INT_MIN` here. -/
def Double.valueint : Double → ℤ
  | .nan => intMin
  | .inf neg => if neg then intMin else intMax
  | .finite q _ =>
    if q ≥ intMax then intMax
    else if q ≤ intMin then intMin
    else if 0 ≤ q then ⌊q⌋ else ⌈q⌉

/-! ## sprintf -/

def sign (q : ℚ) : Bytes := if q < 0 then [ch '-'] else []

/-- `%d`. -/
def sprintfD (n : ℤ) : Bytes := sign n ++ numeral n.natAbs

/-- A number without its sign, in units of its last printed digit. -/
def units (k : Nat) (q : ℚ) : Nat := (roundEven (|q| * 10 ^ k)).toNat

/-- `%.0f`. -/
def sprintfF0 (q : ℚ) : Bytes := sign q ++ numeral (units 0 q)

/-- `%f`: six digits after the point. -/
def sprintfF (q : ℚ) : Bytes :=
  sign q ++ numeral (units 6 q / 10 ^ 6) ++ ch '.' :: padded 6 (units 6 q)

/-- The digits of `%e`, seven of them, and the exponent of the first. Rounding can
give one digit more. -/
def scientific (q : ℚ) : Nat × ℤ :=
  let x := Int.log 10 |q|
  let m := (roundEven (|q| / 10 ^ x * 10 ^ 6)).toNat
  if m = 10 ^ 7 then (10 ^ 6, x + 1) else (m, x)

/-- The exponent of `%e`, with at least two digits. -/
def exponentBytes (x : ℤ) : Bytes :=
  ch 'e' :: (if x < 0 then ch '-' else ch '+') ::
    (if x.natAbs < 10 then padded 2 x.natAbs else numeral x.natAbs)

/-- `%e`. -/
def sprintfE (q : ℚ) : Bytes :=
  let (m, x) := scientific q
  sign q ++ numeral (m / 10 ^ 6) ++ ch '.' :: padded 6 m ++ exponentBytes x

/-! ## Printing -/

def dblEpsilon : ℚ := 1 / 2 ^ 52

/-- `print_number`. The constants are `double`s, too. -/
def printNumber (d : Double) : Bytes :=
  match d with
  | .nan => ascii "null"
  | .inf _ => ascii "null"
  | .finite q _ =>
    if q = 0 then ascii "0"
    else if |d.valueint - q| ≤ dblEpsilon ∧ q ≤ intMax ∧ q ≥ intMin then sprintfD d.valueint
    else if |⌊q⌋ - q| ≤ dblEpsilon ∧ |q| < binary64.nearest (10 ^ 60) then sprintfF0 q
    else if |q| < binary64.nearest (1 / 10 ^ 6) ∨ |q| > 10 ^ 9 then sprintfE q
    else sprintfF q

/-! ## strtod -/

def isdigit (b : UInt8) : Bool := ch '0' ≤ b && b ≤ ch '9'

/-- The digits at the start of a text, and the rest. -/
def scan (p : UInt8 → Bool) (s : Bytes) : Bytes × Bytes := (s.takeWhile p, s.dropWhile p)

/-- A point with what follows it, if there is one. -/
def scanFraction (p : UInt8 → Bool) (s : Bytes) : Bytes × Bytes :=
  match s with
  | 46 :: t => scan p t
  | _ => ([], s)

/-- A sign, if there is one. -/
def scanSign : Bytes → Bool × Bytes
  | 45 :: s => (true, s)
  | 43 :: s => (false, s)
  | s => (false, s)

/-- An exponent, if there is one: the letter in either case, a sign, and digits. -/
def scanExponent (e : UInt8) (s : Bytes) : ℤ × Bytes :=
  match s with
  | c :: t =>
    if c ||| 32 = e then
      let (neg, t) := scanSign t
      let (ds, rest) := scan isdigit t
      if ds = [] then (0, s) else (if neg then -(valueOf ds : ℤ) else valueOf ds, rest)
    else (0, s)
  | [] => (0, s)

def signed (neg : Bool) (q : ℚ) : ℚ := if neg then -q else q

def strtodDecimal (neg : Bool) (s : Bytes) : Option (Double × Bytes) :=
  let (ds, s) := scan isdigit s
  let (fs, s) := scanFraction isdigit s
  if ds ++ fs = [] then none
  else
    let (x, s) := scanExponent (ch 'e') s
    some (.ofRat (signed neg (valueOf (ds ++ fs) * 10 ^ (x - fs.length))), s)

def isxdigit (b : UInt8) : Bool :=
  isdigit b || (ch 'a' ≤ b ||| 32 && b ||| 32 ≤ ch 'f')

def hexValue (s : Bytes) : Nat :=
  s.foldl (fun n b => 16 * n + if isdigit b then b.toNat - 48 else (b ||| 32).toNat - 87) 0

/-- After `0x`. -/
def strtodHex (neg : Bool) (s : Bytes) : Option (Double × Bytes) :=
  let (ds, s) := scan isxdigit s
  let (fs, s) := scanFraction isxdigit s
  if ds ++ fs = [] then none
  else
    let (x, s) := scanExponent (ch 'p') s
    some (.ofRat (signed neg (hexValue (ds ++ fs) * 2 ^ (x - 4 * fs.length))), s)

/-- What follows a word that is compared without regard to case. -/
def afterWord (w s : Bytes) : Option Bytes :=
  if (s.take w.length).map (· ||| 32) = w then some (s.drop w.length) else none

/-- The characters in parentheses that may follow a `nan`. -/
def afterNan (s : Bytes) : Bytes :=
  match s with
  | 40 :: t =>
    match t.dropWhile (fun b => isdigit b || b == ch '_' || (ch 'a' ≤ b ||| 32 && b ||| 32 ≤ ch 'z')) with
    | 41 :: rest => rest
    | _ => s
  | _ => s

/-- `strtod` on a text that starts with a digit or a sign: no blanks to skip. The
conversion of nothing is `none`. -/
def strtod (s : Bytes) : Option (Double × Bytes) :=
  let (neg, s) := scanSign s
  match afterWord (ascii "infinity") s, afterWord (ascii "inf") s, afterWord (ascii "nan") s with
  | some rest, _, _ => some (.inf neg, rest)
  | none, some rest, _ => some (.inf neg, rest)
  | none, none, some rest => some (.nan, afterNan rest)
  | none, none, none =>
    match s with
    | 48 :: x :: t =>
      if x ||| 32 = ch 'x' then (strtodHex neg t).or (strtodDecimal neg s) else strtodDecimal neg s
    | _ => strtodDecimal neg s

/-! ## Parsing -/

/-- `parse_number`: the value and where it ends. -/
def parseNumber (input : Bytes) : Option (Double × Bytes) := strtod input

/-! ## Reading back -/

/-- What may stand behind a number in a JSON text. -/
def Ends (rest : Bytes) : Prop :=
  ∀ b ∈ rest.head?, b = ch ',' ∨ b = ch ']' ∨ b = ch '}' ∨ b.toNat ≤ 32

theorem isdigit_iff (b : UInt8) : isdigit b = true ↔ 48 ≤ b.toNat ∧ b.toNat ≤ 57 := by
  rw [isdigit, Bool.and_eq_true, decide_eq_true_iff, decide_eq_true_iff]
  rfl

theorem Ends.not_numeric {rest : Bytes} (h : Ends rest) {b : UInt8} (hb : b ∈ rest.head?) :
    isdigit b = false ∧ b ≠ 46 ∧ b ||| 32 ≠ ch 'e' ∧ b ||| 32 ≠ ch 'x' := by
  rcases h b hb with rfl | rfl | rfl | hle
  · decide
  · decide
  · decide
  · have hall : ∀ n ≤ 32, isdigit (UInt8.ofNat n) = false ∧ UInt8.ofNat n ≠ 46 ∧
        UInt8.ofNat n ||| 32 ≠ ch 'e' ∧ UInt8.ofNat n ||| 32 ≠ ch 'x' := by decide
    have hself : UInt8.ofNat b.toNat = b := UInt8.ofNat_toNat
    rw [← hself]
    exact hall _ hle

theorem scan_isdigit {s rest : Bytes} (hs : IsNumeral s) (hrest : ∀ b ∈ rest.head?, isdigit b = false) :
    scan isdigit (s ++ rest) = (s, rest) :=
  Prod.ext_iff.mpr (scan_numeral isdigit_iff hs hrest)

/-- A sign as `strtod` reads it. -/
def signBytes (neg : Bool) : Bytes := if neg then [ch '-'] else []

theorem sign_eq (q : ℚ) : sign q = signBytes (q < 0) := by
  simp [sign, signBytes]

/-- A text that starts with a digit is a decimal number, unless a letter follows a zero. -/
theorem strtod_decimal (neg : Bool) {d : UInt8} {t : Bytes} (hd : 48 ≤ d.toNat ∧ d.toNat ≤ 57)
    (hx : d = 48 → ∀ x ∈ t.head?, x ||| 32 ≠ ch 'x') :
    strtod (signBytes neg ++ d :: t) = strtodDecimal neg (d :: t) := by
  have hsign : scanSign (signBytes neg ++ d :: t) = (neg, d :: t) := by
    cases neg with
    | true => rfl
    | false =>
      have h45 : d ≠ 45 := by rintro rfl; simp at hd
      have h43 : d ≠ 43 := by rintro rfl; simp at hd
      simp [signBytes, scanSign, h45, h43]
  have hword : ∀ w : Bytes, w.head? = some (ch 'i') ∨ w.head? = some (ch 'n') →
      afterWord w (d :: t) = none := by
    have hall : ∀ n ≤ 57, 48 ≤ n → UInt8.ofNat n ||| 32 ≠ ch 'i' ∧ UInt8.ofNat n ||| 32 ≠ ch 'n' := by
      decide
    have hletter := hall d.toNat hd.2 hd.1
    rw [UInt8.ofNat_toNat] at hletter
    intro w hw
    rw [afterWord, if_neg]
    intro heq
    cases w with
    | nil => simp at hw
    | cons c w =>
      simp only [List.length_cons, List.take_succ_cons, List.map_cons, List.cons.injEq] at heq
      rcases hw with hw | hw
      · exact hletter.1 (heq.1.trans (Option.some.inj hw))
      · exact hletter.2 (heq.1.trans (Option.some.inj hw))
  rw [strtod, hsign]
  simp only [hword (ascii "infinity") (.inl rfl), hword (ascii "inf") (.inl rfl),
    hword (ascii "nan") (.inr rfl)]
  split
  · next x t' heq =>
    rw [List.cons.injEq] at heq
    obtain ⟨rfl, rfl⟩ := heq
    rw [if_neg (hx rfl x rfl)]
  · rfl

theorem scanExponent_none {rest : Bytes} (h : Ends rest) : scanExponent (ch 'e') rest = (0, rest) := by
  cases rest with
  | nil => rfl
  | cons b t =>
    have hb := (h.not_numeric (b := b) rfl).2.2.1
    simp only [scanExponent, if_neg hb]

theorem scanExponent_bytes (x : ℤ) {rest : Bytes} (h : Ends rest) :
    scanExponent (ch 'e') (exponentBytes x ++ rest) = (x, rest) := by
  have hend : ∀ b ∈ rest.head?, isdigit b = false := fun b hb => (h.not_numeric hb).1
  generalize hds : (if x.natAbs < 10 then padded 2 x.natAbs else numeral x.natAbs) = ds
  have hvalue : IsNumeral ds ∧ ds ≠ [] ∧ valueOf ds = x.natAbs := by
    rw [← hds]
    split
    · refine ⟨isNumeral_padded _ _, ?_, ?_⟩
      · exact List.ne_nil_of_length_pos (by simp)
      · rw [valueOf_padded]
        omega
    · exact ⟨isNumeral_numeral _, numeral_ne_nil _, valueOf_numeral _⟩
  have hscan := scan_isdigit hvalue.1 hend
  have hsign : scanSign ((if x < 0 then ch '-' else ch '+') :: ds ++ rest) = (decide (x < 0), ds ++ rest) := by
    by_cases hx : x < 0
    · simp only [hx, if_true]
      rfl
    · simp only [hx, if_false]
      rfl
  have hletter : ch 'e' ||| 32 = ch 'e' := by decide
  rw [exponentBytes, hds, List.cons_append]
  simp only [scanExponent, if_pos hletter, hsign, hscan, if_neg hvalue.2.1, hvalue.2.2]
  congr 1
  by_cases hx : x < 0
  · simp only [hx, decide_true, if_true]
    omega
  · simp only [hx, decide_false, Bool.false_eq_true, if_false]
    omega

/-- A numeral starts with a digit, and with a zero only if it is that. -/
theorem numeral_cases (n : Nat) : ∃ d t, numeral n = d :: t ∧ (48 ≤ d.toNat ∧ d.toNat ≤ 57) ∧
    (d = 48 → t = []) := by
  rcases Nat.eq_zero_or_pos n with rfl | hn
  · exact ⟨48, [], by rw [numeral]; rfl, by decide, fun _ => rfl⟩
  · obtain ⟨d, t, heq, hd⟩ := numeral_head hn
    exact ⟨d, t, heq, isNumeral_numeral n d (heq ▸ List.mem_cons_self), fun h => absurd h hd⟩

theorem strtod_numeral (neg : Bool) (a : Nat) {tail : Bytes} (hx : ∀ b ∈ tail.head?, b ||| 32 ≠ ch 'x') :
    strtod (signBytes neg ++ numeral a ++ tail) = strtodDecimal neg (numeral a ++ tail) := by
  obtain ⟨d, t, heq, hd, hzero⟩ := numeral_cases a
  rw [heq, List.append_assoc, List.cons_append]
  apply strtod_decimal neg hd
  intro h48
  rw [hzero h48]
  exact hx

/-- An integer. -/
theorem strtod_integer (neg : Bool) (a : Nat) {rest : Bytes} (h : Ends rest) :
    strtod (signBytes neg ++ numeral a ++ rest) = some (.ofRat (signed neg a), rest) := by
  have hdigit : ∀ b ∈ rest.head?, isdigit b = false := fun b hb => (h.not_numeric hb).1
  have hpoint : scanFraction isdigit rest = ([], rest) := by
    cases rest with
    | nil => rfl
    | cons b t =>
      have hb : b ≠ 46 := (h.not_numeric (b := b) rfl).2.1
      simp [scanFraction, hb]
  rw [strtod_numeral neg a fun b hb => (h.not_numeric hb).2.2.2]
  simp only [strtodDecimal, scan_isdigit (isNumeral_numeral a) hdigit, hpoint, scanExponent_none h,
    List.append_nil, if_neg (numeral_ne_nil a), valueOf_numeral]
  simp

/-- A number with six digits after the point. -/
theorem strtod_point (neg : Bool) (n : Nat) {x : ℤ} {tail rest : Bytes}
    (htail : ∀ b ∈ tail.head?, isdigit b = false) (hexp : scanExponent (ch 'e') tail = (x, rest)) :
    strtod (signBytes neg ++ numeral (n / 10 ^ 6) ++ ch '.' :: padded 6 n ++ tail) =
      some (.ofRat (signed neg (n * 10 ^ (x - 6))), rest) := by
  have hpoint : scanFraction isdigit (ch '.' :: (padded 6 n ++ tail)) = (padded 6 n, tail) :=
    scan_isdigit (isNumeral_padded 6 n) htail
  have hscan : scan isdigit (numeral (n / 10 ^ 6) ++ ch '.' :: (padded 6 n ++ tail)) =
      (numeral (n / 10 ^ 6), ch '.' :: (padded 6 n ++ tail)) := by
    apply scan_isdigit (isNumeral_numeral _)
    rintro b hb
    cases hb
    decide
  rw [List.append_assoc, List.cons_append, strtod_numeral neg]
  · have hne : numeral (n / 10 ^ 6) ++ padded 6 n ≠ [] :=
      List.append_ne_nil_of_left_ne_nil (numeral_ne_nil _) _
    simp only [strtodDecimal, hscan, hpoint, hexp, if_neg hne, valueOf_numeral_padded, length_padded]
    simp
  · rintro b hb
    cases hb
    decide

/-- What is printed of a number. -/
def printed (d : Double) (q : ℚ) : ℚ :=
  if q = 0 then 0
  else if |d.valueint - q| ≤ dblEpsilon ∧ q ≤ intMax ∧ q ≥ intMin then d.valueint
  else if |⌊q⌋ - q| ≤ dblEpsilon ∧ |q| < binary64.nearest (10 ^ 60) then signed (q < 0) (units 0 q)
  else if |q| < binary64.nearest (1 / 10 ^ 6) ∨ |q| > 10 ^ 9 then
    signed (q < 0) ((scientific q).1 * 10 ^ ((scientific q).2 - 6))
  else signed (q < 0) (units 6 q * 10 ^ (-6 : ℤ))

theorem signed_natAbs (n : ℤ) : signed (n < 0) (n.natAbs : ℚ) = n := by
  rw [signed]
  have habs : ((n.natAbs : ℤ) : ℚ) = ((|n| : ℤ) : ℚ) := by rw [Int.natCast_natAbs]
  rw [Int.cast_natCast] at habs
  rw [habs]
  by_cases hn : n < 0
  · simp [hn, abs_of_neg hn]
  · simp [hn, abs_of_nonneg (not_lt.mp hn)]

/-- What is printed of a finite number is read back to the nearest `double`. -/
theorem parseNumber_printNumber {q : ℚ} (has : binary64.Has q) {rest : Bytes} (h : Ends rest) :
    parseNumber (printNumber (.finite q has) ++ rest) =
      some (.ofRat (printed (.finite q has) q), rest) := by
  rw [parseNumber, printNumber, printed]
  split_ifs with hzero hint hwhole hexp
  · have htext : signBytes false ++ numeral 0 = ascii "0" := by
      rw [numeral]
      rfl
    rw [← htext, strtod_integer _ _ h]
    simp [signed]
  · rw [sprintfD, sign_eq, strtod_integer _ _ h]
    have hneg : decide (((Double.finite q has).valueint : ℚ) < 0) =
        decide ((Double.finite q has).valueint < 0) := by simp
    rw [hneg, signed_natAbs]
  · rw [sprintfF0, sign_eq, strtod_integer _ _ h]
  · rw [sprintfE]
    generalize scientific q = mx
    rw [sign_eq, List.append_assoc]
    apply strtod_point _ _ _ (scanExponent_bytes _ h)
    rintro b hb
    cases hb
    decide
  · have hdigit : ∀ b ∈ rest.head?, isdigit b = false := fun b hb => (h.not_numeric hb).1
    have hpoint := strtod_point (q < 0) (units 6 q) hdigit (scanExponent_none h)
    rw [zero_sub] at hpoint
    rw [sprintfF, sign_eq, hpoint]

/-! ## What is lost -/

/-- `1.0e60` as a `double`. -/
theorem nearest_range : 10 ^ 60 / 2 ≤ binary64.nearest (10 ^ 60) ∧ binary64.nearest (10 ^ 60) ≤ 2 * 10 ^ 60 := by
  have hpos : (0 : ℚ) < 10 ^ 60 := by positivity
  have hlog : binary64.emin ≤ Int.log 2 |(10 : ℚ) ^ 60| := by
    rw [abs_of_pos hpos]
    have hzero : (0 : ℤ) ≤ Int.log 2 ((10 : ℚ) ^ 60) := by
      apply (Int.zpow_le_iff_le_log (by norm_num) hpos).mp
      norm_num
    exact le_trans (by decide) hzero
  have h := abs_le.mp (Format.nearest_error hpos.ne' hlog)
  rw [abs_of_pos hpos] at h
  generalize (10 : ℚ) ^ 60 = t at *
  constructor <;> linarith

/-- Whole numbers are printed as they are, up to sixty digits. -/
theorem printed_intCast {n : ℤ} (has : binary64.Has n) (hn : |(n : ℚ)| < binary64.nearest (10 ^ 60)) :
    printed (.finite n has) n = n := by
  rw [printed]
  split_ifs with hzero hint hwhole hexp
  · exact hzero.symm
  · have hmax : n ≤ intMax := by exact_mod_cast hint.2.1
    have hmin : intMin ≤ n := by exact_mod_cast hint.2.2
    have hvalue : (Double.finite (n : ℚ) has).valueint = n := by
      simp only [Double.valueint, ge_iff_le, Int.cast_le, Int.floor_intCast, Int.ceil_intCast]
      split_ifs <;> omega
    rw [hvalue]
  · have hunits : (units 0 n : ℚ) = (n.natAbs : ℚ) := by
      rw [units, pow_zero, mul_one, ← Int.cast_abs, roundEven_intCast, Int.abs_eq_natAbs,
        Int.toNat_natCast]
    have hneg : decide ((n : ℚ) < 0) = decide (n < 0) := by simp
    rw [hunits, hneg, signed_natAbs]
  · exact absurd ⟨by simp [dblEpsilon], hn⟩ hwhole
  · exact absurd ⟨by simp [dblEpsilon], hn⟩ hwhole

theorem signed_abs (q : ℚ) : signed (q < 0) |q| = q := by
  rw [signed]
  by_cases hq : q < 0
  · simp [hq, abs_of_neg hq]
  · simp [hq, abs_of_nonneg (not_lt.mp hq)]

theorem abs_signed_sub (neg : Bool) (a b : ℚ) : |signed neg a - signed neg b| = |a - b| := by
  cases neg with
  | true => rw [signed, signed, if_pos rfl, if_pos rfl, ← neg_sub', abs_neg]
  | false => simp [signed]

/-- Rounding to the last printed digit is off by half of it. -/
theorem units_error (k : Nat) (q : ℚ) : |(units k q : ℚ) - |q| * 10 ^ k| ≤ 1 / 2 := by
  have hnonneg : 0 ≤ roundEven (|q| * 10 ^ k) := by
    apply le_roundEven
    push_cast
    positivity
  have hcast : (units k q : ℚ) = (roundEven (|q| * 10 ^ k) : ℚ) := by
    have : ((units k q : ℤ) : ℚ) = (roundEven (|q| * 10 ^ k) : ℚ) := by
      rw [units, Int.toNat_of_nonneg hnonneg]
    exact_mod_cast this
  rw [hcast]
  exact roundEven_error _

/-- A number near an integer is printed as that. -/
theorem units_zero_error {q : ℚ} (h : |⌊q⌋ - q| ≤ dblEpsilon) : |(units 0 q : ℚ) - (|q|)| ≤ dblEpsilon := by
  have hnear : |(|q| : ℚ) - ((|⌊q⌋| : ℤ) : ℚ)| ≤ dblEpsilon := by
    push_cast
    rw [abs_sub_comm]
    exact (abs_abs_sub_abs_le _ _).trans h
  have hhalf : dblEpsilon < 1 / 2 := by norm_num [dblEpsilon]
  have hround : roundEven (|q| * 10 ^ 0) = |⌊q⌋| := by
    rw [pow_zero, mul_one]
    exact roundEven_eq (hnear.trans_lt hhalf)
  have hcast : (units 0 q : ℚ) = ((|⌊q⌋| : ℤ) : ℚ) := by
    have : ((units 0 q : ℤ) : ℚ) = ((|⌊q⌋| : ℤ) : ℚ) := by
      rw [units, hround, Int.toNat_of_nonneg (abs_nonneg _)]
    exact_mod_cast this
  rw [hcast, abs_sub_comm]
  exact hnear

/-- A number that is not printed with an exponent is off by half a millionth at most. -/
theorem abs_printed_sub_le {q : ℚ} (has : binary64.Has q) (hlow : binary64.nearest (1 / 10 ^ 6) ≤ |q|)
    (hhigh : |q| ≤ 10 ^ 9) : |printed (.finite q has) q - q| ≤ 1 / 2 / 10 ^ 6 := by
  have hsmall : dblEpsilon ≤ 1 / 2 / 10 ^ 6 := by norm_num [dblEpsilon]
  have hsign : ∀ a : ℚ, |signed (q < 0) a - q| = |a - (|q|)| := by
    intro a
    have h := abs_signed_sub (q < 0) a |q|
    rwa [signed_abs] at h
  rw [printed]
  split_ifs with hzero hint hwhole hexp
  · rw [hzero]
    norm_num
  · exact hint.1.trans hsmall
  · rw [hsign]
    exact (units_zero_error hwhole.1).trans hsmall
  · rcases hexp with hexp | hexp
    · exact absurd hexp (not_lt.mpr hlow)
    · exact absurd hexp (not_lt.mpr hhigh)
  · have hscale : (units 6 q : ℚ) * 10 ^ (-6 : ℤ) - |q| =
        ((units 6 q : ℚ) - |q| * 10 ^ 6) * 10 ^ (-6 : ℤ) := by
      rw [sub_mul, mul_assoc, ← zpow_natCast, ← zpow_add₀ (by norm_num)]
      simp
    have hpow : |(10 : ℚ) ^ (-6 : ℤ)| = 1 / 10 ^ 6 := by norm_num
    rw [hsign, hscale, abs_mul, hpow, mul_one_div]
    exact div_le_div_of_nonneg_right (units_error 6 q) (by norm_num)

end Cjson

end Aprsc
