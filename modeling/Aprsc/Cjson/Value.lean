-- SUMMARY: How cJSON prints and parses values, and what a printed value is read back as.
import Aprsc.Cjson.Number
import Aprsc.Cjson.Text
import Mathlib.Data.List.TakeWhile

/-!
# Values in JSON

A value is printed without or with line breaks and tabs, and parsed by one function for
each type. Printing and parsing gives the value back, but for what the decimal
representation of a number loses.
-/

namespace Aprsc

namespace Cjson

mutual

/-- A `cJSON` item, by its type. -/
inductive Item where
  | null
  | false
  | true
  | number (valuedouble : Double)
  | string (valuestring : CStr)
  | array (child : Items)
  | object (child : Items)

/-- A list of items, each with its name. -/
inductive Items where
  | nil
  | cons (string : Option CStr) (item : Item) (next : Items)

end

/-! ## Printing -/

def tabs (depth : Nat) : Bytes := List.replicate depth (ch '\t')

/-- What is only printed with `fmt`. -/
def formatted (fmt : Bool) (s : Bytes) : Bytes := if fmt then s else []

def Items.isNil : Items → Bool
  | .nil => Bool.true
  | .cons .. => Bool.false

mutual

/-- `print_value`, without a buffer, together with `print_array` and `print_object`. -/
def printValue (fmt : Bool) (depth : Nat) : Item → Bytes
  | .null => ascii "null"
  | .false => ascii "false"
  | .true => ascii "true"
  | .number d => printNumber d
  | .string s => printStringPtr (some s)
  | .array .nil => ascii "[]"
  | .array (.cons name item next) =>
    ch '[' :: printElements fmt (depth + 1) (.cons name item next) ++ [ch ']']
  | .object .nil => ch '{' :: formatted fmt (ch '\n' :: tabs depth) ++ [ch '}']
  | .object (.cons name item next) =>
    ch '{' :: formatted fmt [ch '\n'] ++ printMembers fmt (depth + 1) (.cons name item next) ++
      formatted fmt (tabs depth) ++ [ch '}']

/-- The loop of `print_array` that composes the output. -/
def printElements (fmt : Bool) (depth : Nat) : Items → Bytes
  | .nil => []
  | .cons _ item next =>
    printValue fmt depth item ++ (if next.isNil then [] else ch ',' :: formatted fmt [ch ' ']) ++
      printElements fmt depth next

/-- The loop of `print_object` that composes the output. -/
def printMembers (fmt : Bool) (depth : Nat) : Items → Bytes
  | .nil => []
  | .cons name item next =>
    formatted fmt (tabs depth) ++ printStringPtr name ++ ch ':' :: formatted fmt [ch '\t'] ++
      printValue fmt depth item ++ (if next.isNil then [] else [ch ',']) ++ formatted fmt [ch '\n'] ++
      printMembers fmt depth next

end

/-- `cJSON_Print`. -/
def cJSONPrint (item : Item) : Bytes := printValue Bool.true 0 item

/-- `cJSON_PrintUnformatted`. -/
def cJSONPrintUnformatted (item : Item) : Bytes := printValue Bool.false 0 item

/-! ## Parsing -/

/-- The string that starts at a pointer ends with the first NUL. -/
def CStr.ofBytes (s : Bytes) : CStr where
  bytes := s.takeWhile (· ≠ 0)
  nul := fun h => by simpa using List.mem_takeWhile_imp h

def skip (s : Bytes) : Bytes := s.dropWhile fun b => b != 0 && b ≤ 32

mutual

/-- `parse_value`, with the starts of `parse_array` and `parse_object`. Two turns take
at least one byte, so `fuel` need not be more than twice the number of bytes. -/
def parseValue : (fuel : Nat) → (input : Bytes) → Option (Item × Bytes)
  | 0, _ => none
  | fuel + 1, input =>
    if (ascii "null").isPrefixOf input then some (.null, input.drop 4)
    else if (ascii "false").isPrefixOf input then some (.false, input.drop 5)
    else if (ascii "true").isPrefixOf input then some (.true, input.drop 4)
    else
      match input with
      | [] => none
      | c :: s =>
        if c = ch '"' then
          (parseString input).map fun (out, rest) => (.string (.ofBytes out), rest)
        else if c = ch '-' ∨ isdigit c then
          (parseNumber input).map fun (d, rest) => (.number d, rest)
        else if c = ch '[' then
          match skip s with
          | 93 :: rest => some (.array .nil, rest)
          | s => (parseElements fuel s).map fun (child, rest) => (.array child, rest)
        else if c = ch '{' then
          match skip s with
          | 125 :: rest => some (.object .nil, rest)
          | s => (parseMembers fuel s).map fun (child, rest) => (.object child, rest)
        else none

/-- The loop of `parse_array`, at a value. -/
def parseElements : (fuel : Nat) → (input : Bytes) → Option (Items × Bytes)
  | 0, _ => none
  | fuel + 1, input =>
    match parseValue fuel input with
    | none => none
    | some (item, s) =>
      match skip s with
      | 44 :: s => (parseElements fuel (skip s)).map fun (next, rest) => (.cons none item next, rest)
      | 93 :: rest => some (.cons none item .nil, rest)
      | _ => none

/-- The loop of `parse_object`, at a name. -/
def parseMembers : (fuel : Nat) → (input : Bytes) → Option (Items × Bytes)
  | 0, _ => none
  | fuel + 1, input =>
    match parseString input with
    | none => none
    | some (name, s) =>
      match skip s with
      | 58 :: s =>
        match parseValue fuel (skip s) with
        | none => none
        | some (item, s) =>
          match skip s with
          | 44 :: s =>
            (parseMembers fuel (skip s)).map fun (next, rest) =>
              (.cons (some (.ofBytes name)) item next, rest)
          | 125 :: rest => some (.cons (some (.ofBytes name)) item .nil, rest)
          | _ => none
      | _ => none

end

/-- `cJSON_Parse`. -/
def cJSONParse (value : Bytes) : Option Item :=
  (parseValue (2 * value.length + 1) (skip value)).map (·.1)

/-! ## What is read back -/

/-- A number that is printed and parsed; what is not finite becomes a null. -/
def rereadNumber (d : Double) : Item :=
  match d with
  | .finite q _ => .number (.ofRat (printed d q))
  | .nan => .null
  | .inf _ => .null

mutual

def Item.reread : Item → Item
  | .null => .null
  | .false => .false
  | .true => .true
  | .number d => rereadNumber d
  | .string s => .string s
  | .array child => .array child.rereadElements
  | .object child => .object child.rereadMembers

def Items.rereadElements : Items → Items
  | .nil => .nil
  | .cons _ item next => .cons none item.reread next.rereadElements

def Items.rereadMembers : Items → Items
  | .nil => .nil
  | .cons name item next => .cons (some (name.getD ⟨[], by simp⟩)) item.reread next.rereadMembers

end

open Floats Numerals

/-! ## Blanks -/

/-- Bytes that `skip` passes. -/
def Blank (w : Bytes) : Prop := ∀ b ∈ w, b ≠ 0 ∧ b ≤ 32

theorem Blank.singleton {b : UInt8} (hb : b ≠ 0 ∧ b ≤ 32) : Blank [b] := by
  intro c hc
  rw [List.mem_singleton.1 hc]
  exact hb

/-- A text that `skip` does not touch. -/
def Starts (s : Bytes) : Prop := ∃ b t, s = b :: t ∧ 32 < b

theorem skip_append {w : Bytes} (hw : Blank w) (s : Bytes) : skip (w ++ s) = skip s := by
  apply List.dropWhile_append_of_pos
  intro b hb
  simpa using hw b hb

theorem Starts.skip_eq {s : Bytes} (h : Starts s) : skip s = s := by
  obtain ⟨b, t, rfl, hb⟩ := h
  have hle : ¬ b ≤ 32 := UInt8.not_le.mpr hb
  simp [skip, hle]

theorem Starts.append {s : Bytes} (h : Starts s) (t : Bytes) : Starts (s ++ t) := by
  obtain ⟨b, u, rfl, hb⟩ := h
  exact ⟨b, u ++ t, rfl, hb⟩

theorem blank_tabs (depth : Nat) : Blank (tabs depth) := by
  intro b hb
  rw [List.eq_of_mem_replicate hb]
  decide

theorem Blank.formatted {w : Bytes} (hw : Blank w) (fmt : Bool) : Blank (formatted fmt w) := by
  cases fmt with
  | true => exact hw
  | false => exact fun b hb => absurd hb List.not_mem_nil

theorem Blank.ends {w s : Bytes} (hw : Blank w) (hs : Ends s) : Ends (w ++ s) := by
  cases w with
  | nil => exact hs
  | cons b w =>
    rintro c hc
    cases hc
    exact .inr (.inr (.inr (UInt8.le_iff_toNat_le.mp (hw b List.mem_cons_self).2)))

theorem ends_cons {b : UInt8} (hb : b = ch ',' ∨ b = ch ']' ∨ b = ch '}') (s : Bytes) : Ends (b :: s) := by
  rintro c hc
  cases hc
  rcases hb with rfl | rfl | rfl
  · exact .inl rfl
  · exact .inr (.inl rfl)
  · exact .inr (.inr (.inl rfl))

/-! ## The first byte of a value -/

/-- A number starts with a digit or a sign. -/
theorem printNumber_head {q : ℚ} (has : binary64.Has q) :
    ∃ b t, printNumber (.finite q has) = b :: t ∧ (b = ch '-' ∨ isdigit b = true) := by
  have hnumeral (n : Nat) (tail : Bytes) : ∃ b t, numeral n ++ tail = b :: t ∧ isdigit b = true := by
    obtain ⟨d, t, heq, hd, -⟩ := numeral_cases n
    exact ⟨d, t ++ tail, by rw [heq]; rfl, (isdigit_iff d).mpr hd⟩
  have hsigned (x : ℚ) (n : Nat) (tail : Bytes) :
      ∃ b t, sign x ++ (numeral n ++ tail) = b :: t ∧ (b = ch '-' ∨ isdigit b = true) := by
    rw [sign]
    split
    · exact ⟨_, _, rfl, .inl rfl⟩
    · obtain ⟨b, t, heq, hb⟩ := hnumeral n tail
      exact ⟨b, t, heq, .inr hb⟩
  rw [printNumber]
  split_ifs
  · exact ⟨_, _, rfl, .inr rfl⟩
  · have h := hsigned (Double.finite q has).valueint (Double.finite q has).valueint.natAbs []
    rwa [List.append_nil] at h
  · have h := hsigned q (units 0 q) []
    rwa [List.append_nil] at h
  · rw [sprintfE]
    generalize scientific q = mx
    have h := hsigned q (mx.1 / 10 ^ 6) (ch '.' :: padded 6 mx.1 ++ exponentBytes mx.2)
    simpa using h
  · have h := hsigned q (units 6 q / 10 ^ 6) (ch '.' :: padded 6 (units 6 q))
    rw [← List.append_assoc] at h
    exact h

/-- The bytes that a printed value may start with. -/
theorem printValue_head (fmt : Bool) (depth : Nat) (item : Item) :
    ∃ b t, printValue fmt depth item = b :: t ∧ 32 < b ∧ b ≠ 93 := by
  have hdigit : ∀ n < 256, isdigit (UInt8.ofNat n) = true → 32 < UInt8.ofNat n ∧ UInt8.ofNat n ≠ 93 := by
    decide +kernel
  cases item with
  | null => exact ⟨_, _, rfl, by decide⟩
  | false => exact ⟨_, _, rfl, by decide⟩
  | true => exact ⟨_, _, rfl, by decide⟩
  | number d =>
    rw [printValue]
    cases d with
    | nan => exact ⟨_, _, rfl, by decide⟩
    | inf neg => exact ⟨_, _, rfl, by decide⟩
    | finite q has =>
      obtain ⟨b, t, heq, hb⟩ := printNumber_head has
      refine ⟨b, t, heq, ?_⟩
      rcases hb with rfl | hb
      · decide
      · have h := hdigit b.toNat b.toNat_lt
        rw [UInt8.ofNat_toNat] at h
        exact h hb
  | string s =>
    rw [printValue, printStringPtr_some]
    exact ⟨_, _, rfl, by decide⟩
  | array child =>
    cases child <;> exact ⟨_, _, by rw [printValue]; rfl, by decide⟩
  | object child =>
    cases child <;> exact ⟨_, _, by rw [printValue]; rfl, by decide⟩

/-! ## Parsing by the first byte -/

theorem isPrefixOf_ascii {c d : UInt8} {w s : Bytes} (hne : d ≠ c) : (d :: w).isPrefixOf (c :: s) = false := by
  rw [List.isPrefixOf_cons_cons, beq_eq_false_iff_ne.mpr hne, Bool.false_and]

theorem parseValue_cons {c : UInt8} (s : Bytes) (fuel : Nat) (hn : ch 'n' ≠ c) (hf : ch 'f' ≠ c)
    (ht : ch 't' ≠ c) :
    parseValue (fuel + 1) (c :: s) =
      if c = ch '"' then
        (parseString (c :: s)).map fun (out, rest) => (.string (.ofBytes out), rest)
      else if c = ch '-' ∨ isdigit c then
        (parseNumber (c :: s)).map fun (d, rest) => (.number d, rest)
      else if c = ch '[' then
        match skip s with
        | 93 :: rest => some (.array .nil, rest)
        | s => (parseElements fuel s).map fun (child, rest) => (.array child, rest)
      else if c = ch '{' then
        match skip s with
        | 125 :: rest => some (.object .nil, rest)
        | s => (parseMembers fuel s).map fun (child, rest) => (.object child, rest)
      else none := by
  have h1 : (ascii "null").isPrefixOf (c :: s) = false := isPrefixOf_ascii hn
  have h2 : (ascii "false").isPrefixOf (c :: s) = false := isPrefixOf_ascii hf
  have h3 : (ascii "true").isPrefixOf (c :: s) = false := isPrefixOf_ascii ht
  rw [parseValue, h1, h2, h3]
  rfl

theorem CStr.ofBytes_bytes (s : CStr) : CStr.ofBytes s.bytes = s := by
  have h : s.bytes.takeWhile (· ≠ 0) = s.bytes := by
    rw [List.takeWhile_eq_self_iff]
    intro b hb
    exact decide_eq_true fun h => s.nul (h ▸ hb)
  cases s with
  | mk bytes nul => simpa [CStr.ofBytes] using h

theorem parseValue_string (s : CStr) (rest : Bytes) (fuel : Nat) :
    parseValue (fuel + 1) (printStringPtr (some s) ++ rest) = some (.string s, rest) := by
  have hparse := parseString_printStringPtr s rest
  rw [printStringPtr_some, List.append_assoc, List.cons_append] at hparse ⊢
  rw [parseValue_cons _ _ (by decide) (by decide) (by decide), if_pos (by decide), hparse]
  simp [CStr.ofBytes_bytes]

theorem parseValue_number (d : Double) {rest : Bytes} (h : Ends rest) (fuel : Nat) :
    parseValue (fuel + 1) (printNumber d ++ rest) = some (rereadNumber d, rest) := by
  cases d with
  | nan => rfl
  | inf neg => rfl
  | finite q has =>
    have hparse := parseNumber_printNumber has h
    obtain ⟨b, t, heq, hb⟩ := printNumber_head has
    have hall : ∀ n < 256, (UInt8.ofNat n = ch '-' ∨ isdigit (UInt8.ofNat n) = true) →
        ch 'n' ≠ UInt8.ofNat n ∧ ch 'f' ≠ UInt8.ofNat n ∧ ch 't' ≠ UInt8.ofNat n ∧
          UInt8.ofNat n ≠ ch '"' := by
      decide +kernel
    have hne := hall b.toNat b.toNat_lt
    rw [UInt8.ofNat_toNat] at hne
    obtain ⟨hn, hf, ht, hq⟩ := hne hb
    rw [heq, List.cons_append] at hparse ⊢
    rw [parseValue_cons _ _ hn hf ht, if_neg hq, if_pos hb, hparse]
    rfl

/-! ## Printing and parsing -/

/-- The bytes of a value that is not the first on its line start a text. -/
theorem starts_printValue (fmt : Bool) (depth : Nat) (item : Item) (s : Bytes) :
    Starts (printValue fmt depth item ++ s) := by
  obtain ⟨b, t, heq, hb, -⟩ := printValue_head fmt depth item
  exact ⟨b, t ++ s, by rw [heq]; rfl, hb⟩

theorem parseString_name (name : Option CStr) (rest : Bytes) :
    ∃ out, parseString (printStringPtr name ++ rest) = some (out, rest) ∧
      CStr.ofBytes out = name.getD ⟨[], by simp⟩ := by
  cases name with
  | none => exact ⟨[], rfl, rfl⟩
  | some name => exact ⟨name.bytes, parseString_printStringPtr name rest, CStr.ofBytes_bytes name⟩

theorem skip_cons {b : UInt8} (hb : 32 < b) (s : Bytes) : skip (b :: s) = b :: s :=
  Starts.skip_eq ⟨b, s, rfl, hb⟩

/-! ### One turn of a loop -/

section Turns

variable {fuel : Nat} {s s' s'' w w' out rest : Bytes} {item : Item} {next : Items}

theorem parseElements_last (h : parseValue fuel s = some (item, 93 :: rest)) :
    parseElements (fuel + 1) s = some (.cons none item .nil, rest) := by
  rw [parseElements, h]
  simp only [skip_cons (show (32 : UInt8) < 93 by decide)]

theorem parseElements_next (h : parseValue fuel s = some (item, 44 :: (w ++ s'))) (hw : Blank w)
    (hs : Starts s') (hnext : parseElements fuel s' = some (next, rest)) :
    parseElements (fuel + 1) s = some (.cons none item next, rest) := by
  rw [parseElements, h]
  simp only [skip_cons (show (32 : UInt8) < 44 by decide), skip_append hw, hs.skip_eq, hnext,
    Option.map_some]

theorem parseMembers_last (hname : parseString s = some (out, 58 :: (w ++ s'))) (hw : Blank w)
    (hs : Starts s') (h : parseValue fuel s' = some (item, w' ++ 125 :: rest)) (hw' : Blank w') :
    parseMembers (fuel + 1) s = some (.cons (some (.ofBytes out)) item .nil, rest) := by
  rw [parseMembers, hname]
  simp only [skip_cons (show (32 : UInt8) < 58 by decide), skip_append hw, hs.skip_eq, h,
    skip_append hw', skip_cons (show (32 : UInt8) < 125 by decide)]

theorem parseMembers_next (hname : parseString s = some (out, 58 :: (w ++ s'))) (hw : Blank w)
    (hs : Starts s') (h : parseValue fuel s' = some (item, 44 :: (w' ++ s''))) (hw' : Blank w')
    (hs' : Starts s'') (hnext : parseMembers fuel s'' = some (next, rest)) :
    parseMembers (fuel + 1) s = some (.cons (some (.ofBytes out)) item next, rest) := by
  rw [parseMembers, hname]
  simp only [skip_cons (show (32 : UInt8) < 58 by decide), skip_append hw, hs.skip_eq, h,
    skip_cons (show (32 : UInt8) < 44 by decide), skip_append hw', hs'.skip_eq, hnext, Option.map_some]

theorem parseValue_array (hs : Starts s) (hne : s.head? ≠ some 93)
    (h : parseElements fuel s = some (next, rest)) :
    parseValue (fuel + 1) (91 :: s) = some (.array next, rest) := by
  rw [parseValue_cons _ _ (by decide) (by decide) (by decide), if_neg (by decide), if_neg (by decide),
    if_pos (by decide), hs.skip_eq]
  split
  · exact absurd rfl hne
  · rw [h]
    rfl

theorem parseValue_object (hw : Blank w) (hs : Starts s) (hne : s.head? ≠ some 125)
    (h : parseMembers fuel s = some (next, rest)) :
    parseValue (fuel + 1) (123 :: (w ++ s)) = some (.object next, rest) := by
  rw [parseValue_cons _ _ (by decide) (by decide) (by decide), if_neg (by decide), if_neg (by decide),
    if_neg (by decide), if_pos (by decide), skip_append hw, hs.skip_eq]
  split
  · exact absurd rfl hne
  · rw [h]
    rfl

theorem parseValue_object_nil (hw : Blank w) :
    parseValue (fuel + 1) (123 :: (w ++ 125 :: rest)) = some (.object .nil, rest) := by
  rw [parseValue_cons _ _ (by decide) (by decide) (by decide), if_neg (by decide), if_neg (by decide),
    if_neg (by decide), if_pos (by decide), skip_append hw, skip_cons (by decide)]
  rfl

end Turns

/-! ### The text of a member -/

/-- A member without its tabs. -/
def memberText (fmt : Bool) (depth : Nat) (name : Option CStr) (item : Item) (next : Items) : Bytes :=
  printStringPtr name ++ ch ':' :: formatted fmt [ch '\t'] ++ printValue fmt depth item ++
    (if next.isNil then [] else [ch ',']) ++ formatted fmt [ch '\n'] ++ printMembers fmt depth next

theorem printMembers_cons (fmt : Bool) (depth : Nat) (name : Option CStr) (item : Item) (next : Items) :
    printMembers fmt depth (.cons name item next) =
      formatted fmt (tabs depth) ++ memberText fmt depth name item next := by
  rw [printMembers, memberText]
  simp only [List.append_assoc, List.cons_append]

theorem memberText_last (fmt : Bool) (depth : Nat) (name : Option CStr) (item : Item) (s : Bytes) :
    memberText fmt depth name item .nil ++ s =
      printStringPtr name ++ 58 :: (formatted fmt [ch '\t'] ++
        (printValue fmt depth item ++ (formatted fmt [ch '\n'] ++ s))) := by
  simp [memberText, Items.isNil, printMembers, show ch ':' = 58 from rfl]

theorem memberText_next (fmt : Bool) (depth : Nat) (name name' : Option CStr) (item item' : Item)
    (next : Items) (s : Bytes) :
    memberText fmt depth name item (.cons name' item' next) ++ s =
      printStringPtr name ++ 58 :: (formatted fmt [ch '\t'] ++ (printValue fmt depth item ++
        44 :: (formatted fmt [ch '\n'] ++ formatted fmt (tabs depth) ++
          (memberText fmt depth name' item' next ++ s)))) := by
  rw [memberText, printMembers_cons]
  simp [Items.isNil, show ch ':' = 58 from rfl, show ch ',' = 44 from rfl]

theorem starts_memberText (fmt : Bool) (depth : Nat) (name : Option CStr) (item : Item) (next : Items)
    (s : Bytes) : Starts (memberText fmt depth name item next ++ s) ∧
      (memberText fmt depth name item next ++ s).head? ≠ some 125 := by
  obtain ⟨t, ht⟩ : ∃ t, printStringPtr name = 34 :: t := by
    cases name with
    | none => exact ⟨_, rfl⟩
    | some name =>
      rw [printStringPtr_some]
      exact ⟨_, rfl⟩
  rw [memberText, ht]
  simp only [List.append_assoc, List.cons_append]
  exact ⟨⟨_, _, rfl, by decide⟩, by simp⟩

theorem blank_formatted_tab (fmt : Bool) : Blank (formatted fmt [ch '\t']) :=
  Blank.formatted (.singleton (by decide)) fmt

theorem blank_formatted_newline (fmt : Bool) : Blank (formatted fmt [ch '\n']) :=
  Blank.formatted (.singleton (by decide)) fmt

theorem Blank.append {w w' : Bytes} (hw : Blank w) (hw' : Blank w') : Blank (w ++ w') := by
  intro b hb
  rcases List.mem_append.mp hb with hb | hb
  · exact hw b hb
  · exact hw' b hb

/-! ### The whole text -/

mutual

/-- The recursion is that of the value: a list is parsed item by item, and each item
ends where a separator or a blank stands. -/
theorem parseValue_printValue (fmt : Bool) : ∀ (item : Item) (depth : Nat) {rest : Bytes}, Ends rest →
    ∀ {fuel : Nat}, 2 * (printValue fmt depth item).length < fuel →
      parseValue fuel (printValue fmt depth item ++ rest) = some (item.reread, rest)
  | .null, _, _, _, fuel + 1, _ => rfl
  | .false, _, _, _, fuel + 1, _ => rfl
  | .true, _, _, _, fuel + 1, _ => rfl
  | .number d, _, _, h, fuel + 1, _ => parseValue_number d h fuel
  | .string s, _, rest, _, fuel + 1, _ => parseValue_string s rest fuel
  | .array .nil, _, _, _, fuel + 1, _ => rfl
  | .array (.cons name item next), depth, rest, _, fuel + 1, hfuel => by
    simp only [printValue, List.length_cons, List.length_append, List.length_nil] at hfuel
    have helements := parseElements_printElements fmt next name item (depth + 1) rest
      (show 2 * (printElements fmt (depth + 1) (.cons name item next)).length + 1 < fuel by omega)
    obtain ⟨b, t, heq, hb, hne⟩ := printValue_head fmt (depth + 1) item
    rw [printValue, List.append_assoc, List.cons_append]
    rw [printElements, heq] at helements ⊢
    exact parseValue_array ⟨b, _, rfl, hb⟩ (by simpa using hne) helements
  | .object .nil, depth, rest, _, fuel + 1, _ => by
    rw [printValue, List.append_assoc, List.cons_append]
    have hblank : Blank (formatted fmt (ch '\n' :: tabs depth)) :=
      Blank.formatted (Blank.append (w := [ch '\n']) (.singleton (by decide)) (blank_tabs depth)) fmt
    exact parseValue_object_nil hblank
  | .object (.cons name item next), depth, rest, _, fuel + 1, hfuel => by
    simp only [printValue, printMembers_cons, List.length_cons, List.length_append,
      List.length_nil] at hfuel
    have hclosing : Blank (formatted fmt (tabs depth)) := Blank.formatted (blank_tabs depth) fmt
    have hmembers := parseMembers_memberText fmt next name item (depth + 1) hclosing rest
      (show 2 * (memberText fmt (depth + 1) name item next).length + 1 < fuel by omega)
    obtain ⟨hstarts, hne⟩ := starts_memberText fmt (depth + 1) name item next
      (formatted fmt (tabs depth) ++ 125 :: rest)
    have hblank : Blank (formatted fmt [ch '\n'] ++ formatted fmt (tabs (depth + 1))) :=
      (blank_formatted_newline fmt).append (Blank.formatted (blank_tabs _) fmt)
    have hvalue := parseValue_object hblank hstarts hne hmembers
    rw [printValue, printMembers_cons]
    simp only [List.append_assoc, List.cons_append, List.nil_append] at hvalue ⊢
    exact hvalue

theorem parseElements_printElements (fmt : Bool) : ∀ (next : Items) (name : Option CStr) (item : Item)
    (depth : Nat) (rest : Bytes) {fuel : Nat},
    2 * (printElements fmt depth (.cons name item next)).length + 1 < fuel →
      parseElements fuel (printElements fmt depth (.cons name item next) ++ 93 :: rest) =
        some ((Items.cons name item next).rereadElements, rest)
  | .nil, name, item, depth, rest, fuel + 1, hfuel => by
    have htext : printElements fmt depth (.cons name item .nil) = printValue fmt depth item := by
      simp [printElements, Items.isNil]
    rw [htext] at hfuel ⊢
    have hvalue := parseValue_printValue fmt item depth (ends_cons (.inr (.inl rfl)) rest)
      (show 2 * (printValue fmt depth item).length < fuel by omega)
    exact parseElements_last hvalue
  | .cons name' item' next, name, item, depth, rest, fuel + 1, hfuel => by
    have htext : printElements fmt depth (.cons name item (.cons name' item' next)) =
        printValue fmt depth item ++ 44 :: (formatted fmt [ch ' '] ++
          printElements fmt depth (.cons name' item' next)) := by
      rw [printElements]
      simp [Items.isNil, show ch ',' = 44 from rfl]
    rw [htext] at hfuel ⊢
    simp only [List.length_append, List.length_cons] at hfuel
    have hvalue := parseValue_printValue fmt item depth
      (ends_cons (.inl rfl) (formatted fmt [ch ' '] ++
        (printElements fmt depth (.cons name' item' next) ++ 93 :: rest)))
      (show 2 * (printValue fmt depth item).length < fuel by omega)
    have hnext := parseElements_printElements fmt next name' item' depth rest
      (show 2 * (printElements fmt depth (.cons name' item' next)).length + 1 < fuel by omega)
    have hstarts : Starts (printElements fmt depth (.cons name' item' next) ++ 93 :: rest) := by
      rw [printElements, List.append_assoc, List.append_assoc]
      exact starts_printValue ..
    simp only [List.append_assoc, List.cons_append]
    exact parseElements_next hvalue (Blank.formatted (.singleton (by decide)) fmt) hstarts hnext

theorem parseMembers_memberText (fmt : Bool) : ∀ (next : Items) (name : Option CStr) (item : Item)
    (depth : Nat) {w : Bytes}, Blank w → ∀ (rest : Bytes) {fuel : Nat},
    2 * (memberText fmt depth name item next).length + 1 < fuel →
      parseMembers fuel (memberText fmt depth name item next ++ (w ++ 125 :: rest)) =
        some ((Items.cons name item next).rereadMembers, rest)
  | .nil, name, item, depth, w, hw, rest, fuel + 1, hfuel => by
    have hlen := congrArg List.length (memberText_last fmt depth name item [])
    simp only [List.length_append, List.length_cons] at hlen
    have hclosing := (blank_formatted_newline fmt).append hw
    obtain ⟨out, hname, hout⟩ := parseString_name name (58 :: (formatted fmt [ch '\t'] ++
      (printValue fmt depth item ++ (formatted fmt [ch '\n'] ++ w ++ 125 :: rest))))
    have hvalue := parseValue_printValue fmt item depth
      (hclosing.ends (ends_cons (.inr (.inr rfl)) rest))
      (show 2 * (printValue fmt depth item).length < fuel by omega)
    rw [memberText_last, ← List.append_assoc (formatted fmt [ch '\n']),
      parseMembers_last hname (blank_formatted_tab fmt) (starts_printValue ..) hvalue hclosing, hout]
    rfl
  | .cons name' item' next, name, item, depth, w, hw, rest, fuel + 1, hfuel => by
    have hlen := congrArg List.length (memberText_next fmt depth name name' item item' next [])
    simp only [List.length_append, List.length_cons, List.length_nil] at hlen
    have hline := (blank_formatted_newline fmt).append (Blank.formatted (blank_tabs depth) fmt)
    obtain ⟨out, hname, hout⟩ := parseString_name name (58 :: (formatted fmt [ch '\t'] ++
      (printValue fmt depth item ++ 44 :: (formatted fmt [ch '\n'] ++ formatted fmt (tabs depth) ++
        (memberText fmt depth name' item' next ++ (w ++ 125 :: rest))))))
    have hvalue := parseValue_printValue fmt item depth
      (ends_cons (.inl rfl) (formatted fmt [ch '\n'] ++ formatted fmt (tabs depth) ++
        (memberText fmt depth name' item' next ++ (w ++ 125 :: rest))))
      (show 2 * (printValue fmt depth item).length < fuel by omega)
    have hnext := parseMembers_memberText fmt next name' item' depth hw rest
      (show 2 * (memberText fmt depth name' item' next).length + 1 < fuel by omega)
    rw [memberText_next, parseMembers_next hname (blank_formatted_tab fmt) (starts_printValue ..) hvalue
      hline (starts_memberText ..).1 hnext, hout]
    rfl

end

/-- What is printed is parsed, with line breaks or without, and nothing else is lost
than what a decimal number loses. -/
theorem cJSONParse_printValue (fmt : Bool) (item : Item) :
    cJSONParse (printValue fmt 0 item) = some item.reread := by
  have hends : Ends [] := fun b hb => by cases hb
  have hparse := parseValue_printValue fmt item 0 hends
    (show 2 * (printValue fmt 0 item).length < 2 * (printValue fmt 0 item).length + 1 by omega)
  have hstarts := starts_printValue fmt 0 item []
  rw [List.append_nil] at hparse hstarts
  rw [cJSONParse, hstarts.skip_eq, hparse]
  rfl

/-! ## What is not lost -/

mutual

/-- Only whole numbers of at most sixty digits, and names just where they are printed. -/
def Item.Whole : Item → Prop
  | .number d => ∃ n : ℤ, ∃ has : binary64.Has n, d = .finite n has ∧ |(n : ℚ)| < binary64.nearest (10 ^ 60)
  | .array child => child.WholeElements
  | .object child => child.WholeMembers
  | _ => True

def Items.WholeElements : Items → Prop
  | .nil => True
  | .cons name item next => name = none ∧ item.Whole ∧ next.WholeElements

def Items.WholeMembers : Items → Prop
  | .nil => True
  | .cons name item next => name.isSome ∧ item.Whole ∧ next.WholeMembers

end

theorem rereadNumber_whole {n : ℤ} (has : binary64.Has n) (hn : |(n : ℚ)| < binary64.nearest (10 ^ 60)) :
    rereadNumber (.finite n has) = .number (.finite n has) := by
  rw [rereadNumber, printed_intCast has hn, Double.ofRat_of_has has]

mutual

theorem Item.Whole.reread_eq : ∀ {item : Item}, item.Whole → item.reread = item
  | .null, _ => rfl
  | .false, _ => rfl
  | .true, _ => rfl
  | .number _, ⟨_, has, rfl, hn⟩ => rereadNumber_whole has hn
  | .string _, _ => rfl
  | .array _, h => by
    rw [Item.reread, Items.WholeElements.reread_eq h]
  | .object _, h => by
    rw [Item.reread, Items.WholeMembers.reread_eq h]

theorem Items.WholeElements.reread_eq : ∀ {items : Items}, items.WholeElements →
    items.rereadElements = items
  | .nil, _ => rfl
  | .cons _ _ _, ⟨hname, hitem, hnext⟩ => by
    rw [Items.rereadElements, Item.Whole.reread_eq hitem, Items.WholeElements.reread_eq hnext, hname]

theorem Items.WholeMembers.reread_eq : ∀ {items : Items}, items.WholeMembers →
    items.rereadMembers = items
  | .nil, _ => rfl
  | .cons _ _ _, ⟨hname, hitem, hnext⟩ => by
    obtain ⟨name, rfl⟩ := Option.isSome_iff_exists.mp hname
    rw [Items.rereadMembers, Item.Whole.reread_eq hitem, Items.WholeMembers.reread_eq hnext,
      Option.getD_some]

end

/-- What is printed is parsed, with line breaks or without. Values whose numbers are
whole come back as they were; of other numbers from a millionth to a billion at most
half a millionth is lost before the result is rounded to a `double`. -/
theorem cJSON_reread (fmt : Bool) (item : Item) :
    cJSONParse (printValue fmt 0 item) = some item.reread ∧
    (item.Whole → item.reread = item) ∧
    ∀ (q : ℚ) (has : binary64.Has q), binary64.nearest (1 / 10 ^ 6) ≤ |q| → |q| ≤ 10 ^ 9 →
      ∃ p, rereadNumber (.finite q has) = .number (.ofRat p) ∧ |p - q| ≤ 1 / 2 / 10 ^ 6 :=
  ⟨cJSONParse_printValue fmt item, Item.Whole.reread_eq,
    fun _ has hlow hhigh => ⟨_, rfl, abs_printed_sub_le has hlow hhigh⟩⟩

end Cjson

end Aprsc
