-- SUMMARY: How cJSON escapes strings and reads them back, with the sizes it allocates.
import Aprsc.Base.Bytes
import Mathlib.Data.List.Basic
import Mathlib.Data.Nat.Bitwise
import Mathlib.Tactic.NormNum

/-!
# Strings in JSON

Texts and strings end with a NUL in memory. A text is the list of its bytes up to the
NUL, a pointer into it is what is left of the list, and the end of the list is read as
the NUL.
-/

namespace Aprsc

namespace Cjson

/-- A C string: its bytes, without the NUL. -/
structure CStr where
  bytes : Bytes
  nul : 0 ∉ bytes
deriving DecidableEq

/-! ## Printing -/

def hexDigit (n : Nat) : UInt8 := UInt8.ofNat (if n < 10 then 48 + n else 87 + n)

/-- `%04x` of a byte. -/
def sprintf04x (b : UInt8) : Bytes := [48, 48, hexDigit (b.toNat / 16), hexDigit (b.toNat % 16)]

/-- One turn of the loop of `print_string_ptr` that copies. -/
def escapeByte (b : UInt8) : Bytes :=
  if b > 31 ∧ b ≠ ch '"' ∧ b ≠ ch '\\' then [b]
  else
    ch '\\' :: match b with
      | 92 => [ch '\\']
      | 34 => [ch '"']
      | 8 => [ch 'b']
      | 12 => [ch 'f']
      | 10 => [ch 'n']
      | 13 => [ch 'r']
      | 9 => [ch 't']
      | _ => ch 'u' :: sprintf04x b

/-- `flag`: something needs to be escaped. -/
def needsEscape (b : UInt8) : Bool := (0 < b && b < 32) || b == ch '"' || b == ch '\\'

/-- `print_string_ptr`, of a string or of a null pointer. -/
def printStringPtr : Option CStr → Bytes
  | none => [ch '"', ch '"']
  | some s =>
    if s.bytes.any needsEscape then ch '"' :: s.bytes.flatMap escapeByte ++ [ch '"']
    else ch '"' :: s.bytes ++ [ch '"']

/-- What the loop that measures the string counts for a byte. -/
def escapedLen (b : UInt8) : Nat :=
  if b ∈ [34, 92, 8, 12, 10, 13, 9] then 2 else if b < 32 then 6 else 1

/-- What `print_string_ptr` allocates for its output and the NUL. -/
def printStringAlloc : Option CStr → Nat
  | none => 3
  | some s =>
    if s.bytes.any needsEscape then (s.bytes.map escapedLen).sum + 3 else s.bytes.length + 3

/-! ## Parsing -/

/-- The loop of `parse_string` that looks for the end of the string: the bytes up to the
closing quote, the number of backslashes skipped, and what follows the quote. -/
def findEnd : Bytes → Option (Bytes × Nat × Bytes)
  | [] => none
  | 34 :: rest => some ([], 0, rest)
  | [92] => none
  | 92 :: c :: s => (findEnd s).map fun (body, skipped, rest) => (92 :: c :: body, skipped + 1, rest)
  | c :: s => (findEnd s).map fun (body, skipped, rest) => (c :: body, skipped, rest)

def hexDigitValue (b : UInt8) : Option Nat :=
  if ch '0' ≤ b ∧ b ≤ ch '9' then some (b.toNat - 48)
  else if ch 'A' ≤ b ∧ b ≤ ch 'F' then some (10 + b.toNat - 65)
  else if ch 'a' ≤ b ∧ b ≤ ch 'f' then some (10 + b.toNat - 97)
  else none

/-- The loop of `parse_hex4`, from turn `i` on. -/
def parseHex4From (i h : Nat) : Bytes → Nat
  | [] => h
  | c :: s =>
    if i < 4 then
      match hexDigitValue c with
      | none => 0
      | some v => parseHex4From (i + 1) (if i < 3 then (h + v) <<< 4 else h + v) s
    else h

def parseHex4 (input : Bytes) : Nat := parseHex4From 0 0 input

/-- The bytes that `utf16_literal_to_utf8` writes for a code point: the last ones with
six bits each, the first with a mark. -/
def encodeUtf8 (codepoint : Nat) : Option Bytes :=
  let trailing (n : Nat) : UInt8 := UInt8.ofNat ((n ||| 0x80) &&& 0xBF)
  let leading (mark n : Nat) : UInt8 := UInt8.ofNat ((n ||| mark) &&& 0xFF)
  if codepoint < 0x80 then some [leading 0 codepoint]
  else if codepoint < 0x800 then some [leading 0xC0 (codepoint >>> 6), trailing codepoint]
  else if codepoint < 0x10000 then
    some [leading 0xE0 (codepoint >>> 6 >>> 6), trailing (codepoint >>> 6), trailing codepoint]
  else if codepoint ≤ 0x10FFFF then
    some [leading 0xF0 (codepoint >>> 6 >>> 6 >>> 6), trailing (codepoint >>> 6 >>> 6),
      trailing (codepoint >>> 6), trailing codepoint]
  else none

/-- `utf16_literal_to_utf8` at `input_pointer`, where `s` are the bytes up to
`input_end`: what is written, and the length of the sequence. -/
def utf16LiteralToUtf8 (s : Bytes) : Option (Bytes × Nat) :=
  if s.length < 6 then none
  else
    let firstCode := parseHex4 (s.drop 2)
    if (firstCode ≥ 0xDC00 ∧ firstCode ≤ 0xDFFF) ∨ firstCode = 0 then none
    else if firstCode ≥ 0xD800 ∧ firstCode ≤ 0xDBFF then
      let second := s.drop 6
      if second.length < 6 then none
      else if second.getD 0 0 ≠ ch '\\' ∨ second.getD 1 0 ≠ ch 'u' then none
      else
        let secondCode := parseHex4 (second.drop 2)
        if secondCode < 0xDC00 ∨ secondCode > 0xDFFF then none
        else
          let codepoint := 0x10000 + (((firstCode &&& 0x3FF) <<< 10) ||| (secondCode &&& 0x3FF))
          (encodeUtf8 codepoint).map fun out => (out, 12)
    else (encodeUtf8 firstCode).map fun out => (out, 6)

/-- One turn of the loop of `parse_string` that copies: what is written, and how far
`input_pointer` moves. The byte at `input_end` is the closing quote. -/
def unescapeOne (c : UInt8) (s : Bytes) : Option (Bytes × Nat) :=
  if c ≠ ch '\\' then some ([c], 1)
  else
    match s.headD (ch '"') with
    | 98 => some ([8], 2)
    | 102 => some ([12], 2)
    | 110 => some ([10], 2)
    | 114 => some ([13], 2)
    | 116 => some ([9], 2)
    | 34 => some ([34], 2)
    | 92 => some ([92], 2)
    | 47 => some ([47], 2)
    | 117 => utf16LiteralToUtf8 (c :: s)
    | _ => none

/-- The loop of `parse_string` that copies: all that it writes, and whether it gets to
the end. Every turn moves on, so `fuel` need not be more than the number of bytes. -/
def unescapeLoop : (fuel : Nat) → Bytes → Bytes × Bool
  | 0, s => ([], s.isEmpty)
  | _ + 1, [] => ([], true)
  | fuel + 1, c :: s =>
    match unescapeOne c s with
    | none => ([], false)
    | some (out, n) =>
      let (written, ok) := unescapeLoop fuel ((c :: s).drop n)
      (out ++ written, ok)

/-- `parse_string`: the bytes of the string, and what follows. -/
def parseString (input : Bytes) : Option (Bytes × Bytes) :=
  match input with
  | 34 :: s =>
    match findEnd s with
    | none => none
    | some (body, _, rest) =>
      match unescapeLoop body.length body with
      | (out, true) => some (out, rest)
      | (_, false) => none
  | _ => none

/-! ## Hexadecimal digits -/

theorem hexDigitValue_hexDigit {n : Nat} (hn : n < 16) : hexDigitValue (hexDigit n) = some n := by
  have hall : ∀ n < 16, hexDigitValue (hexDigit n) = some n := by decide
  exact hall n hn

theorem hexDigitValue_ne_backslash {b : UInt8} {v : Nat} (h : hexDigitValue b = some v) :
    b ≠ 92 ∧ b ≠ 34 := by
  have h92 : hexDigitValue 92 = none := rfl
  have h34 : hexDigitValue 34 = none := rfl
  constructor <;> rintro rfl <;> simp_all

/-- Four digits. -/
theorem parseHex4_eq {a b c d : UInt8} {va vb vc vd : Nat} (t : Bytes) (ha : hexDigitValue a = some va)
    (hb : hexDigitValue b = some vb) (hc : hexDigitValue c = some vc) (hd : hexDigitValue d = some vd) :
    parseHex4 (a :: b :: c :: d :: t) = ((va * 16 + vb) * 16 + vc) * 16 + vd := by
  have hend : ∀ h, parseHex4From 4 h t = h := by
    intro h
    cases t <;> rfl
  simp only [parseHex4, parseHex4From, ha, hb, hc, hd]
  simp only [Nat.reduceLT, if_true, if_false, Nat.zero_add, Nat.reduceAdd, hend, Nat.shiftLeft_eq]

/-- Otherwise it returns zero. -/
theorem exists_of_parseHex4 {s : Bytes} (hlen : 4 ≤ s.length) (h : parseHex4 s ≠ 0) :
    ∃ a b c d t va vb vc vd, s = a :: b :: c :: d :: t ∧ hexDigitValue a = some va ∧
      hexDigitValue b = some vb ∧ hexDigitValue c = some vc ∧ hexDigitValue d = some vd := by
  obtain ⟨a, b, c, d, t, rfl⟩ : ∃ a b c d t, s = a :: b :: c :: d :: t := by
    match s, hlen with
    | a :: b :: c :: d :: t, _ => exact ⟨a, b, c, d, t, rfl⟩
  cases ha : hexDigitValue a with
  | none => simp [parseHex4, parseHex4From, ha] at h
  | some va =>
    cases hb : hexDigitValue b with
    | none => simp [parseHex4, parseHex4From, ha, hb] at h
    | some vb =>
      cases hc : hexDigitValue c with
      | none => simp [parseHex4, parseHex4From, ha, hb, hc] at h
      | some vc =>
        cases hd : hexDigitValue d with
        | none => simp [parseHex4, parseHex4From, ha, hb, hc, hd] at h
        | some vd => exact ⟨a, b, c, d, t, va, vb, vc, vd, rfl, ha, hb, hc, hd⟩

/-! ## Printing and parsing a string -/

/-- Bytes of a string that stand for themselves. -/
def IsPlain (b : UInt8) : Prop := b ≠ 92 ∧ b ≠ 34

instance (b : UInt8) : Decidable (IsPlain b) := inferInstanceAs (Decidable (_ ∧ _))

theorem findEnd_plain {b : UInt8} (hb : IsPlain b) (s : Bytes) :
    findEnd (b :: s) = (findEnd s).map fun (body, skipped, rest) => (b :: body, skipped, rest) := by
  rw [findEnd]
  · exact hb.2
  · exact fun h _ => hb.1 h
  · exact fun _ _ h _ => hb.1 h

theorem findEnd_pair (c : UInt8) (s : Bytes) :
    findEnd (92 :: c :: s) =
      (findEnd s).map fun (body, skipped, rest) => (92 :: c :: body, skipped + 1, rest) := by
  rw [findEnd]

/-- A byte of a string stands for itself, or it is escaped with one byte or with a
hexadecimal number. -/
theorem escapeByte_cases {b : UInt8} (hb : b ≠ 0) :
    (escapeByte b = [b] ∧ IsPlain b) ∨
    (∃ c, escapeByte b = [92, c] ∧ ∀ s, unescapeOne 92 (c :: s) = some ([b], 2)) ∨
    (b < 32 ∧ escapeByte b = 92 :: 117 :: sprintf04x b) := by
  by_cases hplain : b > 31 ∧ b ≠ ch '"' ∧ b ≠ ch '\\'
  · exact .inl ⟨if_pos hplain, hplain.2.2, hplain.2.1⟩
  · right
    unfold escapeByte
    rw [if_neg hplain]
    split
    all_goals first | exact .inl ⟨_, rfl, fun _ => rfl⟩ | skip
    refine .inr ⟨?_, rfl⟩
    by_contra hge
    apply hplain
    refine ⟨?_, ‹¬b = 34›, ‹¬b = 92›⟩
    have := UInt8.lt_iff_toNat_lt.not.mp hge
    rw [gt_iff_lt, UInt8.lt_iff_toNat_lt]
    simp at this ⊢
    omega

theorem parseHex4_sprintf04x {b : UInt8} (hb : b < 32) (t : Bytes) :
    parseHex4 (sprintf04x b ++ t) = b.toNat := by
  have hlt : b.toNat < 32 := UInt8.lt_iff_toNat_lt.mp hb
  have h0 : hexDigitValue 48 = some 0 := rfl
  have hhigh := hexDigitValue_hexDigit (n := b.toNat / 16) (by omega)
  have hlow := hexDigitValue_hexDigit (n := b.toNat % 16) (by omega)
  rw [sprintf04x, List.cons_append, List.cons_append, List.cons_append, List.cons_append,
    List.nil_append, parseHex4_eq t h0 h0 hhigh hlow]
  omega

theorem encodeUtf8_ascii {n : Nat} (hn : n < 128) : encodeUtf8 n = some [UInt8.ofNat n] := by
  have hmask : n &&& 0xFF = n := by
    rw [Nat.and_two_pow_sub_one_eq_mod n 8]
    omega
  simp only [encodeUtf8, if_pos hn, Nat.or_zero, hmask]

theorem unescapeOne_hex {b : UInt8} (hb : b < 32) (hzero : b ≠ 0) (t : Bytes) :
    unescapeOne 92 (117 :: sprintf04x b ++ t) = some ([b], 6) := by
  have hlt : b.toNat < 32 := UInt8.lt_iff_toNat_lt.mp hb
  have hpos : b.toNat ≠ 0 := fun h => hzero (UInt8.toNat_inj.mp h)
  have hcode : parseHex4 ((92 :: 117 :: (sprintf04x b ++ t)).drop 2) = b.toNat :=
    parseHex4_sprintf04x hb t
  have hlen : ¬ (92 :: 117 :: (sprintf04x b ++ t)).length < 6 := by
    simp [sprintf04x]
  change utf16LiteralToUtf8 (92 :: 117 :: (sprintf04x b ++ t)) = _
  rw [utf16LiteralToUtf8, if_neg hlen, hcode, if_neg (by omega), if_neg (by omega),
    encodeUtf8_ascii (by omega), UInt8.ofNat_toNat]
  rfl

/-- The escaped byte is skipped as a whole. -/
theorem findEnd_escapeByte {b : UInt8} (hb : b ≠ 0) (s : Bytes) :
    ∃ k, findEnd (escapeByte b ++ s) =
      (findEnd s).map fun (body, skipped, rest) => (escapeByte b ++ body, skipped + k, rest) := by
  rcases escapeByte_cases hb with ⟨heq, hplain⟩ | ⟨c, heq, -⟩ | ⟨hlt, heq⟩
  · rw [heq]
    exact ⟨0, findEnd_plain hplain s⟩
  · rw [heq]
    exact ⟨1, findEnd_pair c s⟩
  · have hlt : b.toNat < 32 := UInt8.lt_iff_toNat_lt.mp hlt
    have hdigit : ∀ n < 16, IsPlain (hexDigit n) := by decide
    have h48 : IsPlain 48 := by decide
    refine ⟨1, ?_⟩
    rw [heq, sprintf04x]
    simp only [List.cons_append, List.nil_append]
    rw [findEnd_pair, findEnd_plain h48, findEnd_plain h48, findEnd_plain (hdigit _ (by omega)),
      findEnd_plain (hdigit _ (by omega))]
    cases findEnd s <;> rfl

theorem unescapeOne_escapeByte {b : UInt8} (hb : b ≠ 0) (s : Bytes) :
    ∃ c t, escapeByte b ++ s = c :: t ∧ unescapeOne c t = some ([b], (escapeByte b).length) := by
  rcases escapeByte_cases hb with ⟨heq, hplain⟩ | ⟨c, heq, hone⟩ | ⟨hlt, heq⟩
  · rw [heq]
    exact ⟨b, s, rfl, if_pos hplain.1⟩
  · rw [heq]
    exact ⟨92, c :: s, rfl, hone s⟩
  · rw [heq]
    exact ⟨92, _, rfl, unescapeOne_hex hlt hb s⟩

theorem escapeByte_ne_nil (b : UInt8) : escapeByte b ≠ [] := by
  unfold escapeByte
  split <;> exact List.cons_ne_nil _ _

theorem findEnd_escaped {s : Bytes} (hs : 0 ∉ s) (rest : Bytes) :
    ∃ k, findEnd (s.flatMap escapeByte ++ 34 :: rest) = some (s.flatMap escapeByte, k, rest) := by
  induction s with
  | nil => exact ⟨0, rfl⟩
  | cons b s ih =>
    rw [List.mem_cons, not_or] at hs
    obtain ⟨k, hk⟩ := ih hs.2
    obtain ⟨k', hk'⟩ := findEnd_escapeByte (Ne.symm hs.1) (s.flatMap escapeByte ++ 34 :: rest)
    refine ⟨k + k', ?_⟩
    rw [List.flatMap_cons, List.append_assoc, hk', hk]
    rfl

theorem unescapeLoop_escaped {s : Bytes} (hs : 0 ∉ s) {fuel : Nat}
    (hfuel : (s.flatMap escapeByte).length ≤ fuel) :
    unescapeLoop fuel (s.flatMap escapeByte) = (s, true) := by
  induction s generalizing fuel with
  | nil => cases fuel <;> rfl
  | cons b s ih =>
    rw [List.mem_cons, not_or] at hs
    obtain ⟨c, t, hct, hone⟩ := unescapeOne_escapeByte (Ne.symm hs.1) (s.flatMap escapeByte)
    have hpos := List.length_pos_iff.mpr (escapeByte_ne_nil b)
    rw [List.flatMap_cons, List.length_append] at hfuel
    rw [List.flatMap_cons]
    obtain ⟨fuel, rfl⟩ : ∃ f, fuel = f + 1 := ⟨fuel - 1, by omega⟩
    have hrest := ih hs.2 (show _ ≤ fuel by omega)
    have hdrop : (c :: t).drop (escapeByte b).length = s.flatMap escapeByte := by
      rw [← hct, List.drop_left]
    rw [hct]
    simp only [unescapeLoop, hone, hdrop, hrest]
    rfl

/-- Whether a flag was raised or not, the output is the escaped string in quotes. -/
theorem printStringPtr_some (s : CStr) :
    printStringPtr (some s) = 34 :: s.bytes.flatMap escapeByte ++ [34] := by
  rw [printStringPtr]
  split
  · rfl
  · next hflag =>
    have hself : ∀ b ∈ s.bytes, escapeByte b = [b] := by
      intro b hb
      have hzero : b ≠ 0 := fun h => s.nul (h ▸ hb)
      have hno : needsEscape b = false := by
        by_contra hyes
        exact hflag (List.any_eq_true.mpr ⟨b, hb, by simpa using hyes⟩)
      apply if_pos
      simp only [needsEscape, Bool.or_eq_false_iff, beq_eq_false_iff_ne] at hno
      refine ⟨?_, hno.1.2, hno.2⟩
      have hpos : 0 < b.toNat := Nat.pos_of_ne_zero fun h => hzero (UInt8.toNat_inj.mp h)
      have hlow := hno.1.1
      simp only [Bool.and_eq_false_iff, decide_eq_false_iff_not, UInt8.lt_iff_toNat_lt] at hlow
      rw [gt_iff_lt, UInt8.lt_iff_toNat_lt]
      simp at hlow ⊢
      omega
    rw [List.flatMap_congr hself, List.flatMap_singleton']
    rfl

/-- A printed string is read back. -/
theorem parseString_printStringPtr (s : CStr) (rest : Bytes) :
    parseString (printStringPtr (some s) ++ rest) = some (s.bytes, rest) := by
  obtain ⟨k, hend⟩ := findEnd_escaped s.nul rest
  rw [printStringPtr_some, List.append_assoc, List.cons_append]
  change parseString (34 :: (_ ++ 34 :: rest)) = _
  simp only [parseString, hend, unescapeLoop_escaped s.nul le_rfl]

/-! ## Sizes -/

theorem length_escapeByte (b : UInt8) (hb : b ≠ 0) : (escapeByte b).length = escapedLen b := by
  have hall : ∀ n < 256, n ≠ 0 → (escapeByte (UInt8.ofNat n)).length = escapedLen (UInt8.ofNat n) := by
    decide +kernel
  have := hall b.toNat b.toNat_lt fun h => hb (UInt8.toNat_inj.mp h)
  rwa [UInt8.ofNat_toNat] at this

/-- `print_string_ptr` writes as much as it has allocated, the NUL included. -/
theorem printStringPtr_alloc (s : Option CStr) :
    (printStringPtr s).length + 1 = printStringAlloc s := by
  cases s with
  | none => rfl
  | some s =>
    rw [printStringPtr, printStringAlloc]
    split
    · have hlen : (s.bytes.flatMap escapeByte).length = (s.bytes.map escapedLen).sum := by
        rw [List.length_flatMap]
        congr 1
        apply List.map_congr_left
        exact fun b hb => length_escapeByte b fun h => s.nul (h ▸ hb)
      simp [hlen]
    · simp

/-- Bytes that `findEnd` takes as they are, and backslashes with the byte behind them. -/
inductive Body : Bytes → Nat → Prop where
  | nil : Body [] 0
  | plain {b : UInt8} {s : Bytes} {k : Nat} (hb : IsPlain b) (hs : Body s k) : Body (b :: s) k
  | pair {c : UInt8} {s : Bytes} {k : Nat} (hs : Body s k) : Body (92 :: c :: s) (k + 1)

theorem findEnd_body {s body rest : Bytes} {k : Nat} (h : findEnd s = some (body, k, rest)) :
    Body body k ∧ s = body ++ 34 :: rest := by
  induction s using findEnd.induct generalizing body k with
  | case1 => cases h
  | case2 rest' =>
    cases h
    exact ⟨.nil, rfl⟩
  | case3 => cases h
  | case4 c s ih =>
    rw [findEnd, Option.map_eq_some_iff] at h
    obtain ⟨⟨body', k', rest'⟩, heq, hr⟩ := h
    cases hr
    obtain ⟨hbody, hs⟩ := ih heq
    exact ⟨hbody.pair, by rw [hs]; rfl⟩
  | case5 c s h34 hlone hpair ih =>
    have hc : IsPlain c := by
      refine ⟨?_, h34⟩
      rintro rfl
      cases s with
      | nil => exact hlone rfl rfl
      | cons c s => exact hpair c s rfl rfl
    rw [findEnd_plain hc, Option.map_eq_some_iff] at h
    obtain ⟨⟨body', k', rest'⟩, heq, hr⟩ := h
    cases hr
    obtain ⟨hbody, hs⟩ := ih heq
    exact ⟨.plain hc hbody, by rw [hs]; rfl⟩

theorem Body.length_le {s : Bytes} {k : Nat} (h : Body s k) : k ≤ s.length := by
  induction h with
  | nil => exact le_rfl
  | plain hb hs ih => exact Nat.le_succ_of_le ih
  | pair hs ih => 
    simp only [List.length_cons]
    omega

/-- A plain byte in front is taken alone. -/
theorem Body.of_plain {b : UInt8} {s : Bytes} {k : Nat} (h : Body (b :: s) k) (hb : b ≠ 92) :
    Body s k := by
  cases h with
  | plain _ hs => exact hs
  | pair hs => exact absurd rfl hb

theorem encodeUtf8_length {n : Nat} {out : Bytes} (h : encodeUtf8 n = some out) : out.length ≤ 4 := by
  simp only [encodeUtf8] at h
  split_ifs at h <;> cases h <;> simp

/-- Four hexadecimal digits have no backslash. -/
theorem Body.of_hex4 {s : Bytes} {k : Nat} (h : Body s k) (hlen : 4 ≤ s.length) (hcode : parseHex4 s ≠ 0) :
    Body (s.drop 4) k := by
  obtain ⟨a, b, c, d, t, va, vb, vc, vd, rfl, ha, hb, hc, hd⟩ := exists_of_parseHex4 hlen hcode
  have h1 := h.of_plain (hexDigitValue_ne_backslash ha).1
  have h2 := h1.of_plain (hexDigitValue_ne_backslash hb).1
  have h3 := h2.of_plain (hexDigitValue_ne_backslash hc).1
  exact h3.of_plain (hexDigitValue_ne_backslash hd).1

/-- A code unit after a backslash and a `u`: the pair and four digits. -/
theorem Body.of_unit {s : Bytes} {k : Nat} (h : Body (92 :: 117 :: s) k) (hlen : 4 ≤ s.length)
    (hcode : parseHex4 s ≠ 0) : ∃ k', Body (s.drop 4) k' ∧ k = k' + 1 := by
  cases h with
  | plain hb hs => exact absurd rfl hb.1
  | pair hs => exact ⟨_, hs.of_hex4 hlen hcode, rfl⟩

/-- What a literal is when it is accepted: one code unit, or a surrogate pair. -/
theorem utf16LiteralToUtf8_cases {s out : Bytes} {n : Nat} (h : utf16LiteralToUtf8 s = some (out, n)) :
    (n = 6 ∧ 6 ≤ s.length ∧ parseHex4 (s.drop 2) ≠ 0 ∧
      encodeUtf8 (parseHex4 (s.drop 2)) = some out) ∨
    (n = 12 ∧ 12 ≤ s.length ∧ parseHex4 (s.drop 2) ≠ 0 ∧
      (s.drop 6).getD 0 0 = 92 ∧ (s.drop 6).getD 1 0 = 117 ∧ parseHex4 ((s.drop 6).drop 2) ≠ 0 ∧
      out.length ≤ 4) := by
  simp only [utf16LiteralToUtf8] at h
  split_ifs at h with hlen hfirst hpair hlen' hmark hsecond
  · obtain ⟨out', hout, heq⟩ := Option.map_eq_some_iff.mp h
    cases heq
    rw [List.length_drop] at hlen'
    rw [not_or, not_not, not_not] at hmark
    exact .inr ⟨rfl, by omega, fun h0 => hfirst (.inr h0), hmark.1, hmark.2, by omega,
      encodeUtf8_length hout⟩
  · obtain ⟨out', hout, heq⟩ := Option.map_eq_some_iff.mp h
    cases heq
    exact .inl ⟨rfl, by omega, fun h0 => hfirst (.inr h0), hout⟩

theorem utf16LiteralToUtf8_body {s out : Bytes} {k n : Nat} (hbody : Body (92 :: 117 :: s) k)
    (h : utf16LiteralToUtf8 (92 :: 117 :: s) = some (out, n)) :
    ∃ k', Body ((92 :: 117 :: s).drop n) k' ∧
      out.length + ((92 :: 117 :: s).drop n).length + k ≤ (92 :: 117 :: s).length + k' := by
  rcases utf16LiteralToUtf8_cases h with ⟨rfl, hlen, hcode, hout⟩ | ⟨rfl, hlen, hcode, h0, h1, hcode', hout⟩
  · simp only [List.length_cons] at hlen
    obtain ⟨k₁, hbody₁, rfl⟩ := hbody.of_unit (by omega) hcode
    refine ⟨k₁, hbody₁, ?_⟩
    have := encodeUtf8_length hout
    simp only [List.drop_succ_cons, List.length_drop, List.length_cons]
    omega
  · simp only [List.length_cons] at hlen
    obtain ⟨k₁, hbody₁, rfl⟩ := hbody.of_unit (by omega) hcode
    simp only [List.drop_succ_cons] at h0 h1 hcode'
    obtain ⟨t, ht⟩ : ∃ t, s.drop 4 = 92 :: 117 :: t := by
      have hlen₁ : 2 ≤ (s.drop 4).length := by
        rw [List.length_drop]
        omega
      match hs : s.drop 4, hlen₁ with
      | a :: b :: t, _ =>
        rw [hs] at h0 h1
        exact ⟨t, by rw [show a = 92 from h0, show b = 117 from h1]⟩
    have hlen₂ := congrArg List.length ht
    simp only [List.length_drop, List.length_cons] at hlen₂
    rw [ht] at hbody₁ hcode'
    obtain ⟨k₂, hbody₂, rfl⟩ := hbody₁.of_unit (by omega) hcode'
    refine ⟨k₂, ?_, ?_⟩
    · have hdrop : (92 :: 117 :: s).drop 12 = t.drop 4 := by
        rw [show (92 :: 117 :: s).drop 12 = (s.drop 4).drop 6 by simp [List.drop_drop], ht]
        rfl
      rwa [hdrop]
    · simp only [List.drop_succ_cons, List.length_drop, List.length_cons]
      omega

/-- Every turn of the copying loop stays within what the first loop counted for the
bytes that it takes. -/
theorem unescapeOne_body {c : UInt8} {s out : Bytes} {k n : Nat} (hbody : Body (c :: s) k)
    (h : unescapeOne c s = some (out, n)) :
    ∃ k', Body ((c :: s).drop n) k' ∧
      out.length + ((c :: s).drop n).length + k ≤ (c :: s).length + k' := by
  cases hbody with
  | plain hb hs =>
    have hne : c ≠ ch '\\' := hb.1
    rw [unescapeOne, if_pos hne] at h
    cases h
    refine ⟨k, hs, ?_⟩
    simp only [List.drop_succ_cons, List.drop_zero, List.length_cons, List.length_nil]
    omega
  | @pair e t k' hs =>
    have htwo {b : UInt8} (hn : some ([b], 2) = some (out, n)) :
        ∃ k'', Body ((92 :: e :: t).drop n) k'' ∧
          out.length + ((92 :: e :: t).drop n).length + (k' + 1) ≤ (92 :: e :: t).length + k'' := by
      cases hn
      refine ⟨k', hs, ?_⟩
      simp only [List.drop_succ_cons, List.drop_zero, List.length_cons, List.length_nil]
      omega
    unfold unescapeOne at h
    rw [if_neg (by decide)] at h
    split at h
    case h_9 heq =>
      rw [show e = 117 from heq] at h ⊢
      exact utf16LiteralToUtf8_body hs.pair h
    case h_10 => cases h
    all_goals exact htwo h

theorem unescapeLoop_length {fuel : Nat} {s : Bytes} {k : Nat} (hbody : Body s k) :
    (unescapeLoop fuel s).1.length + k ≤ s.length := by
  induction fuel generalizing s k with
  | zero => simpa [unescapeLoop] using hbody.length_le
  | succ fuel ih =>
    cases s with
    | nil => simpa [unescapeLoop] using hbody.length_le
    | cons c s =>
      rw [unescapeLoop]
      cases hone : unescapeOne c s with
      | none => simpa using hbody.length_le
      | some r =>
        obtain ⟨out, n⟩ := r
        obtain ⟨k', hbody', hle⟩ := unescapeOne_body hbody hone
        have hrest := ih hbody'
        simp only [List.length_append]
        omega

/-! ## Unicode -/

/-- A digit in upper case. -/
def hexDigitUpper (n : Nat) : UInt8 := UInt8.ofNat (if n < 10 then 48 + n else 55 + n)

/-- A digit, in either case. -/
def IsHexDigit (n : Nat) (b : UInt8) : Prop := b = hexDigit n ∨ b = hexDigitUpper n

/-- Four digits, each in either case. -/
inductive Hex4 (n : Nat) : Bytes → Prop where
  | mk {a b c d : UInt8} (ha : IsHexDigit (n / 4096 % 16) a) (hb : IsHexDigit (n / 256 % 16) b)
      (hc : IsHexDigit (n / 16 % 16) c) (hd : IsHexDigit (n % 16) d) : Hex4 n [a, b, c, d]

/-- A character as a JSON text may give it: its UTF-16 code units. -/
inductive Utf16Escape (c : Char) : Bytes → Prop where
  | unit {x : Bytes} (hsmall : c.val.toNat < 0x10000) (hx : Hex4 c.val.toNat x) :
      Utf16Escape c (92 :: 117 :: x)
  | pair {hi lo : Bytes} (hlarge : 0x10000 ≤ c.val.toNat)
      (hhi : Hex4 (0xD800 + (c.val.toNat - 0x10000) / 0x400) hi)
      (hlo : Hex4 (0xDC00 + (c.val.toNat - 0x10000) % 0x400) lo) :
      Utf16Escape c (92 :: 117 :: hi ++ 92 :: 117 :: lo)

theorem IsHexDigit.value {n : Nat} {b : UInt8} (h : IsHexDigit (n % 16) b) :
    hexDigitValue b = some (n % 16) := by
  have hlt : n % 16 < 16 := Nat.mod_lt _ (by omega)
  rcases h with rfl | rfl
  · exact hexDigitValue_hexDigit hlt
  · have hall : ∀ m < 16, hexDigitValue (hexDigitUpper m) = some m := by decide
    exact hall _ hlt

theorem Hex4.length {n : Nat} {x : Bytes} (h : Hex4 n x) : x.length = 4 := by
  cases h
  rfl

theorem Hex4.parseHex4 {n : Nat} {x : Bytes} (h : Hex4 n x) (hn : n < 65536) (t : Bytes) :
    parseHex4 (x ++ t) = n := by
  obtain ⟨ha, hb, hc, hd⟩ := h
  rw [List.cons_append, List.cons_append, List.cons_append, List.cons_append, List.nil_append,
    parseHex4_eq t ha.value hb.value hc.value hd.value]
  omega

theorem trailing_eq (n : Nat) : (n ||| 0x80) &&& 0xBF = n % 0x40 + 0x80 := by
  have hall : ∀ m < 256, (m ||| 0x80) &&& 0xBF = m % 0x40 + 0x80 := by decide +kernel
  have hlt : (n ||| 0x80) &&& 0xBF < 256 := Nat.lt_of_le_of_lt Nat.and_le_right (by omega)
  have hmod : ((n ||| 0x80) &&& 0xBF) % 2 ^ 8 = (n % 2 ^ 8 ||| 0x80) &&& 0xBF := by
    rw [Nat.and_mod_two_pow, Nat.or_mod_two_pow]
  rw [Nat.mod_eq_of_lt (show _ < 2 ^ 8 from hlt)] at hmod
  rw [hmod, show (2 : Nat) ^ 8 = 256 from rfl, hall _ (Nat.mod_lt _ (by omega))]
  omega

theorem leading_eq {mark size n : Nat} (h : (mark, size) ∈ [(0xC0, 32), (0xE0, 16), (0xF0, 8)])
    (hn : n < size) : (n ||| mark) &&& 0xFF = n % size + mark := by
  have hall : ∀ p ∈ [(0xC0, 32), (0xE0, 16), (0xF0, 8)], ∀ m < 32, m < p.2 →
      (m ||| p.1) &&& 0xFF = m % p.2 + p.1 := by decide
  refine hall _ h n ?_ hn
  simp only [List.mem_cons, Prod.mk.injEq, List.not_mem_nil, or_false] at h
  omega

/-- What is written for a character is its UTF-8 encoding. -/
theorem encodeUtf8_char (c : Char) : encodeUtf8 c.val.toNat = some (String.utf8EncodeChar c) := by
  have hmax : c.val.toNat < 0x110000 := by
    rcases c.valid with h | h <;> omega
  generalize hv : c.val.toNat = v at hmax
  simp only [encodeUtf8, String.utf8EncodeChar, hv, trailing_eq, Nat.shiftRight_eq_div_pow,
    Nat.div_div_eq_div_mul]
  have hmask : v &&& 0xFF = v % 256 := Nat.and_two_pow_sub_one_eq_mod v 8
  by_cases h1 : v < 0x80
  · simp only [if_pos h1, if_pos (show v ≤ 0x7f by omega), Nat.or_zero, hmask,
      Nat.mod_eq_of_lt (show v < 256 by omega)]
  · rw [if_neg h1, if_neg (show ¬ v ≤ 0x7f by omega)]
    by_cases h2 : v < 0x800
    · have hlead := @leading_eq 0xC0 32 (v / 64) (by simp) (by omega)
      rw [if_pos h2, if_pos (show v ≤ 0x7ff by omega)]
      norm_num [hlead]
    · rw [if_neg h2, if_neg (show ¬ v ≤ 0x7ff by omega)]
      by_cases h3 : v < 0x10000
      · have hlead := @leading_eq 0xE0 16 (v / 4096) (by simp) (by omega)
        rw [if_pos h3, if_pos (show v ≤ 0xffff by omega)]
        norm_num [hlead]
      · have hlead := @leading_eq 0xF0 8 (v / 262144) (by simp) (by omega)
        rw [if_neg h3, if_neg (show ¬ v ≤ 0xffff by omega), if_pos (show v ≤ 0x10FFFF by omega)]
        norm_num [hlead]

/-- A surrogate pair gives back the code point. -/
theorem surrogates {v : Nat} (hlow : 0x10000 ≤ v) (hhigh : v < 0x110000) :
    0x10000 + (((0xD800 + (v - 0x10000) / 0x400 &&& 0x3FF) <<< 10) |||
      (0xDC00 + (v - 0x10000) % 0x400 &&& 0x3FF)) = v := by
  have hmask (n : Nat) : n &&& 0x3FF = n % 1024 := Nat.and_two_pow_sub_one_eq_mod n 10
  have hlt : (0xDC00 + (v - 0x10000) % 0x400) % 1024 < 2 ^ 10 := Nat.mod_lt _ (by omega)
  rw [hmask, hmask, ← Nat.shiftLeft_add_eq_or_of_lt hlt, Nat.shiftLeft_eq]
  omega

/-- A literal of one or two code units is read as the character, in UTF-8. -/
theorem Utf16Escape.utf16LiteralToUtf8 {c : Char} {x : Bytes} (h : Utf16Escape c x)
    (hc : c.val.toNat ≠ 0) (t : Bytes) :
    utf16LiteralToUtf8 (x ++ t) = some (String.utf8EncodeChar c, x.length) := by
  have henc := encodeUtf8_char c
  have hvalid : c.val.toNat < 0xD800 ∨ 0xDFFF < c.val.toNat ∧ c.val.toNat < 0x110000 := c.valid
  cases h with
  | @unit x hsmall hx =>
    generalize c.val.toNat = v at *
    have hcode : parseHex4 ((92 :: 117 :: x ++ t).drop 2) = v := hx.parseHex4 (by omega) t
    have hlen : ¬ (92 :: 117 :: x ++ t).length < 6 := by simp [hx.length]
    rw [Cjson.utf16LiteralToUtf8, if_neg hlen]
    simp only [hcode]
    rw [if_neg (by omega), if_neg (by omega), henc, List.length_cons, List.length_cons, hx.length]
    rfl
  | @pair hi lo hlarge hhi hlo =>
    generalize c.val.toNat = v at *
    have hdrop : (hi ++ 92 :: 117 :: lo ++ t).drop 4 = 92 :: 117 :: lo ++ t := by
      rw [List.append_assoc, ← hhi.length, List.drop_left]
    generalize hhi' : 0xD800 + (v - 0x10000) / 0x400 = first at hhi
    generalize hlo' : 0xDC00 + (v - 0x10000) % 0x400 = second at hlo
    have hsum : 0x10000 + (((first &&& 0x3FF) <<< 10) ||| (second &&& 0x3FF)) = v := by
      rw [← hhi', ← hlo']
      exact surrogates hlarge (by omega)
    have hcode : parseHex4 ((92 :: 117 :: hi ++ 92 :: 117 :: lo ++ t).drop 2) = first := by
      rw [List.append_assoc]
      exact hhi.parseHex4 (by omega) (92 :: 117 :: lo ++ t)
    have hsecond : (92 :: 117 :: hi ++ 92 :: 117 :: lo ++ t).drop 6 = 92 :: 117 :: lo ++ t := hdrop
    have hcode' : parseHex4 ((92 :: 117 :: lo ++ t).drop 2) = second := hlo.parseHex4 (by omega) t
    have hlen : ¬ (92 :: 117 :: hi ++ 92 :: 117 :: lo ++ t).length < 6 := by simp [hhi.length]
    have hlen' : ¬ (92 :: 117 :: lo ++ t).length < 6 := by simp [hlo.length]
    have hmark : ¬ ((92 :: 117 :: lo ++ t).getD 0 0 ≠ ch '\\' ∨
        (92 :: 117 :: lo ++ t).getD 1 0 ≠ ch 'u') := by
      rw [not_or, not_not, not_not]
      exact ⟨rfl, rfl⟩
    have hall : (92 :: 117 :: hi ++ 92 :: 117 :: lo).length = 12 := by simp [hhi.length, hlo.length]
    rw [Cjson.utf16LiteralToUtf8, if_neg hlen]
    simp only [hcode, hsecond, hcode', if_neg hlen', if_neg hmark, hsum]
    rw [if_neg (by omega), if_pos (by omega), if_neg (by omega), henc, hall]
    rfl

/-! ## Texts of other writers -/

theorem Hex4.isPlain {n : Nat} {x : Bytes} (h : Hex4 n x) : ∀ b ∈ x, IsPlain b := by
  obtain ⟨ha, hb, hc, hd⟩ := h
  intro b hmem
  simp only [List.mem_cons, List.not_mem_nil, or_false] at hmem
  rcases hmem with rfl | rfl | rfl | rfl
  · exact hexDigitValue_ne_backslash ha.value
  · exact hexDigitValue_ne_backslash hb.value
  · exact hexDigitValue_ne_backslash hc.value
  · exact hexDigitValue_ne_backslash hd.value

theorem findEnd_plains {p : Bytes} (hp : ∀ b ∈ p, IsPlain b) (s : Bytes) :
    findEnd (p ++ s) = (findEnd s).map fun (body, skipped, rest) => (p ++ body, skipped, rest) := by
  induction p with
  | nil =>
    rw [List.nil_append]
    cases findEnd s <;> rfl
  | cons b p ih =>
    rw [List.cons_append, findEnd_plain (hp b List.mem_cons_self),
      ih fun c hc => hp c (List.mem_cons_of_mem b hc)]
    cases findEnd s <;> rfl

theorem Hex4.findEnd {n : Nat} {x : Bytes} (h : Hex4 n x) (s : Bytes) :
    findEnd (92 :: 117 :: x ++ s) = (findEnd s).map fun (body, skipped, rest) =>
      (92 :: 117 :: x ++ body, skipped + 1, rest) := by
  rw [List.cons_append, List.cons_append, findEnd_pair, findEnd_plains h.isPlain]
  cases Cjson.findEnd s <;> rfl

theorem Utf16Escape.findEnd {c : Char} {x : Bytes} (h : Utf16Escape c x) (s : Bytes) :
    ∃ k, findEnd (x ++ s) = (findEnd s).map fun (body, skipped, rest) =>
      (x ++ body, skipped + k, rest) := by
  cases h with
  | unit _ hx => exact ⟨1, hx.findEnd s⟩
  | pair _ hhi hlo =>
    refine ⟨2, ?_⟩
    rw [List.append_assoc, hhi.findEnd, hlo.findEnd]
    cases Cjson.findEnd s with
    | none => rfl
    | some r => simp

/-- A text in which every character is escaped. -/
theorem findEnd_unicode {s : List Char} {xs : List Bytes} (h : List.Forall₂ Utf16Escape s xs)
    (rest : Bytes) : ∃ k, findEnd (xs.flatten ++ 34 :: rest) = some (xs.flatten, k, rest) := by
  induction h with
  | nil => exact ⟨0, rfl⟩
  | @cons c x s xs hx _ ih =>
    obtain ⟨k, hk⟩ := ih
    obtain ⟨k', hk'⟩ := hx.findEnd (xs.flatten ++ 34 :: rest)
    refine ⟨k + k', ?_⟩
    rw [List.flatten_cons, List.append_assoc, hk', hk]
    rfl

theorem Utf16Escape.head {c : Char} {x : Bytes} (h : Utf16Escape c x) : ∃ t, x = 92 :: 117 :: t := by
  cases h with
  | unit => exact ⟨_, rfl⟩
  | pair => exact ⟨_, rfl⟩

theorem unescapeLoop_unicode {s : List Char} {xs : List Bytes} (h : List.Forall₂ Utf16Escape s xs)
    (hs : ∀ c ∈ s, c.val.toNat ≠ 0) {fuel : Nat} (hfuel : xs.flatten.length ≤ fuel) :
    unescapeLoop fuel xs.flatten = (s.flatMap String.utf8EncodeChar, true) := by
  induction h generalizing fuel with
  | nil => cases fuel <;> rfl
  | @cons c x s xs hx _ ih =>
    obtain ⟨t, rfl⟩ := hx.head
    have hone : unescapeOne 92 (117 :: (t ++ xs.flatten)) =
        some (String.utf8EncodeChar c, (92 :: 117 :: t).length) :=
      hx.utf16LiteralToUtf8 (hs c List.mem_cons_self) _
    rw [List.flatten_cons, List.length_append, List.length_cons] at hfuel
    obtain ⟨fuel, rfl⟩ : ∃ f, fuel = f + 1 := ⟨fuel - 1, by omega⟩
    have hrest := ih (fun d hd => hs d (List.mem_cons_of_mem c hd)) (show _ ≤ fuel by omega)
    have hdrop : (92 :: 117 :: (t ++ xs.flatten)).drop (92 :: 117 :: t).length = xs.flatten :=
      List.drop_left
    rw [List.flatten_cons, List.cons_append, List.cons_append]
    simp only [unescapeLoop, hone, hdrop, hrest]
    rfl

/-- `parse_string` decodes every Unicode text: from escaped code units to UTF-8. -/
theorem parseString_unicode {s : List Char} {xs : List Bytes} (h : List.Forall₂ Utf16Escape s xs)
    (hs : ∀ c ∈ s, c.val.toNat ≠ 0) (rest : Bytes) :
    parseString (34 :: xs.flatten ++ 34 :: rest) = some (s.flatMap String.utf8EncodeChar, rest) := by
  obtain ⟨k, hend⟩ := findEnd_unicode h rest
  rw [List.cons_append]
  simp only [parseString, hend, unescapeLoop_unicode h hs le_rfl]

/-- An accent, an arrow and a character outside the basic plane. -/
theorem parseString_unicode_three :
    parseString (34 :: [ascii "\\u00E9", ascii "\\u2192", ascii "\\ud83D\\uDe00"].flatten ++
        34 :: ascii ", x") =
      some (['é', '→', '😀'].flatMap String.utf8EncodeChar, ascii ", x") := by
  have haccent : Utf16Escape 'é' (ascii "\\u00E9") :=
    .unit (by decide) (.mk (.inl (by decide)) (.inl (by decide)) (.inr (by decide)) (.inl (by decide)))
  have harrow : Utf16Escape '→' (ascii "\\u2192") :=
    .unit (by decide) (.mk (.inl (by decide)) (.inl (by decide)) (.inl (by decide)) (.inl (by decide)))
  have hface : Utf16Escape '😀' (ascii "\\ud83D\\uDe00") :=
    .pair (by decide) (.mk (.inl (by decide)) (.inl (by decide)) (.inl (by decide)) (.inr (by decide)))
      (.mk (.inr (by decide)) (.inl (by decide)) (.inl (by decide)) (.inl (by decide)))
  exact parseString_unicode (.cons haccent (.cons harrow (.cons hface .nil))) (by simp) _

end Cjson

end Aprsc
