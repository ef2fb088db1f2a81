-- SUMMARY: The lines of a configuration file and the words of a line.
import Aprsc.Historydb
import Aprsc.Worker.Handlers

/-!
# Configuration files

`cfgfile.c` and the readers built on it take a file line by line through a buffer of
fixed size and cut each line into words. A word may stand in quotes, with escapes.
-/

namespace Aprsc

/-! ## Lines -/

/-- The number of bytes `fgets` takes: a line with its newline, as far as it fits the
buffer with the NUL after it. -/
def fgetsLength (size : Nat) (file : Bytes) : Nat :=
  min ((file.takeWhile (· != ch '\n')).length + 1) (size - 1)

/-- The buffers that `while (fgets(buf, size, fp))` sees, for at most `fuel` rounds. -/
def fgetsRounds (size : Nat) : (fuel : Nat) → Bytes → List Bytes
  | 0, _ => []
  | fuel + 1, file =>
      if file.isEmpty then []
      else file.take (fgetsLength size file) ::
        fgetsRounds size fuel (file.drop (fgetsLength size file))

/-- The buffers of a file. A round takes at least one byte. -/
def fgetsLines (size : Nat) (file : Bytes) : List Bytes := fgetsRounds size file.length file

section
variable {size fuel fuel' : Nat} {file line : Bytes}

theorem bne_of_mem {c : UInt8} (h : c ∉ line) : ∀ b ∈ line, (b != c) = true := by
  intro b hb
  simp only [bne_iff_ne, ne_eq]
  rintro rfl
  exact h hb

theorem fgetsRounds_congr (hsize : 2 ≤ size) (h : file.length ≤ fuel) (h' : file.length ≤ fuel') :
    fgetsRounds size fuel file = fgetsRounds size fuel' file := by
  induction fuel generalizing fuel' file with
  | zero =>
    obtain rfl := List.eq_nil_of_length_eq_zero (Nat.le_zero.mp h)
    cases fuel' <;> simp [fgetsRounds]
  | succ fuel ih =>
    cases file with
    | nil => cases fuel' <;> simp [fgetsRounds]
    | cons b file =>
      cases fuel' with
      | zero => simp at h'
      | succ fuel' =>
        -- A round takes at least one byte of the file.
        have hpos : 1 ≤ fgetsLength size (b :: file) := by
          unfold fgetsLength
          omega
        have hdrop := List.length_drop (i := fgetsLength size (b :: file)) (l := b :: file)
        rw [List.length_cons] at h h' hdrop
        simp only [fgetsRounds, List.isEmpty_cons, Bool.false_eq_true, if_false]
        rw [@ih fuel' _ (by omega) (by omega)]

/-- A line that fits the buffer. -/
theorem fgetsLines_line (hline : ch '\n' ∉ line) (hsize : line.length + 1 < size) (file : Bytes) :
    fgetsLines size (line ++ ch '\n' :: file) = (line ++ [ch '\n']) :: fgetsLines size file := by
  have htake : (line ++ ch '\n' :: file).takeWhile (· != ch '\n') = line := by
    rw [List.takeWhile_append_of_pos (bne_of_mem hline)]
    simp
  have hlen : fgetsLength size (line ++ ch '\n' :: file) = line.length + 1 := by
    rw [fgetsLength, htake]
    omega
  have hsplit : line ++ ch '\n' :: file = (line ++ [ch '\n']) ++ file := by simp
  have hlength : (line ++ ch '\n' :: file).length = line.length + file.length + 1 := by
    simp only [List.length_append, List.length_cons]
    omega
  rw [fgetsLines, hlength, fgetsRounds, hlen, hsplit]
  rw [if_neg (by simp), List.take_left' (by simp), List.drop_left' (by simp),
    fgetsRounds_congr (by omega) (by omega) (Nat.le_refl _), fgetsLines]

/-- The last line may lack its newline. -/
theorem fgetsLines_last (hline : ch '\n' ∉ line) (hne : line ≠ []) (hsize : line.length < size) :
    fgetsLines size line = [line] := by
  have htake : line.takeWhile (· != ch '\n') = line := by
    exact List.takeWhile_eq_self_iff.mpr (bne_of_mem hline)
  have hlen : line.length ≤ fgetsLength size line := by
    rw [fgetsLength, htake]
    omega
  obtain ⟨b, tail, rfl⟩ := List.exists_cons_of_ne_nil hne
  rw [fgetsLines, List.length_cons, fgetsRounds, List.take_of_length_le hlen,
    List.drop_of_length_le hlen]
  cases tail.length <;> simp [fgetsRounds]

end

/-- The text up to a character: `strchr` and a NUL at what it finds. -/
def cutAt (c : Char) (s : Bytes) : Bytes := s.takeWhile (· != ch c)

/-! ## Words -/

/-- A digit in base 8. -/
def isOctal (b : UInt8) : Bool := ch '0' ≤ b && b ≤ ch '7'

/-- The value of the digits in base 8 as `strtoul` returns it, narrowed to a byte. -/
def strtoulOctal (digits : Bytes) : UInt8 :=
  (min (digits.foldl (fun n (b : UInt8) => 8 * n + (b.toNat - 48)) 0) (2 ^ 64 - 1)).toUInt8

/-- The character that a letter after a backslash stands for. -/
def escaped (e : UInt8) : UInt8 :=
  if e == ch 'n' then 0x0A
  else if e == ch 't' then 0x09
  else if e == ch 'v' then 0x0B
  else if e == ch 'b' then 0x08
  else if e == ch 'r' then 0x0D
  else if e == ch 'f' then 0x0C
  else if e == ch 'a' then 0x07
  else e

/-- `parse_string`: the text up to the closing quote, and what follows the quote. -/
def parseString : Bytes → Option (Bytes × Bytes)
  | [] => some ([], [])
  | c :: str =>
      if c == ch '"' then some ([], str)
      else if c == ch '\\' then
        match str with
        | [] => none
        | e :: tail =>
            -- `strtoul` finds no number in front of an `x` and stays where it is.
            if e == ch 'x' then (parseString (e :: tail)).map fun r => (0 :: r.1, r.2)
            else if isOctal e then
              (parseString (tail.dropWhile isOctal)).map fun r =>
                (strtoulOctal (e :: tail.takeWhile isOctal) :: r.1, r.2)
            else (parseString tail).map fun r => (escaped e :: r.1, r.2)
      else (parseString str).map fun r => (c :: r.1, r.2)
termination_by str => str.length
decreasing_by
  · simp
  · have := (List.dropWhile_sublist isOctal (l := tail)).length_le
    simp only [List.length_cons]
    omega
  · simp only [List.length_cons]
    omega
  · simp

/-- The loop of `parse_args` over the text that is left, for at most `ct` words. -/
def parseArgsFrom : (ct : Nat) → Bytes → Option (List Bytes)
  | 0, _ => some []
  | ct + 1, cmd =>
      match cmd.dropWhile isspace with
      | [] => some []
      | c :: str =>
          if c == ch '"' then do
            let (arg, rest) ← parseString str
            let args ← parseArgsFrom ct (rest.drop 1)
            -- An escape may put a NUL into the word.
            pure (cString arg :: args)
          else do
            let args ← parseArgsFrom ct (((c :: str).dropWhile fun b => !isspace b).drop 1)
            pure ((c :: str).takeWhile (fun b => !isspace b) :: args)

/-- `parse_args`: a backslash at the end of a quoted word leaves no words. -/
def parseArgs (cmd : Bytes) : List Bytes := (parseArgsFrom 255 cmd).getD []

/-- A word as it stands on a line: as it is, or in quotes. -/
inductive Word : (text written : Bytes) → Prop
  | plain {text : Bytes} (ne : text ≠ []) (word : ∀ b ∈ text, isspace b = false)
      (unquoted : text.head? ≠ some (ch '"')) : Word text text
  | quoted {text : Bytes} (word : ∀ b ∈ text, b ≠ 0 ∧ b ≠ ch '"' ∧ b ≠ ch '\\') :
      Word text (ch '"' :: text ++ [ch '"'])

section
variable {ct : Nat} {blank text written rest : Bytes}

theorem parseString_quoted (h : ∀ b ∈ text, b ≠ 0 ∧ b ≠ ch '"' ∧ b ≠ ch '\\') :
    parseString (text ++ ch '"' :: rest) = some (text, rest) := by
  induction text with
  | nil =>
    rw [List.nil_append, parseString.eq_def]
    simp
  | cons b text ih =>
    obtain ⟨-, hquote, hslash⟩ := h b (by simp)
    rw [List.cons_append, parseString.eq_def]
    dsimp only
    rw [ih fun b hb => h b (by simp [hb])]
    simp [hquote, hslash]

/-- `parse_args` takes a word and the character after it. -/
theorem parseArgsFrom_word (hblank : ∀ b ∈ blank, isspace b = true) (hword : Word text written)
    (hrest : ∀ b ∈ rest.head?, isspace b = true) :
    parseArgsFrom (ct + 1) (blank ++ written ++ rest) =
      (parseArgsFrom ct (rest.drop 1)).map (text :: ·) := by
  rw [List.append_assoc]
  cases hword with
  | plain ne word unquoted =>
    obtain ⟨c, tail, rfl⟩ := List.exists_cons_of_ne_nil ne
    have hstop : rest.takeWhile (fun b => !isspace b) = [] ∧
        rest.dropWhile (fun b => !isspace b) = rest := by
      cases rest with
      | nil => simp
      | cons r rest => simp [hrest r (by simp)]
    have hdrop : (blank ++ (c :: tail ++ rest)).dropWhile isspace = c :: (tail ++ rest) := by
      rw [List.dropWhile_append_of_pos hblank, List.cons_append, List.dropWhile_cons_of_neg]
      simp [word c (by simp)]
    have hpos : ∀ b ∈ c :: tail, (!isspace b) = true := fun b hb => by simp [word b hb]
    have hc : (c == ch '"') = false := by simpa using unquoted
    rw [parseArgsFrom, hdrop]
    dsimp only
    rw [hc, ← List.cons_append, List.dropWhile_append_of_pos hpos, List.takeWhile_append_of_pos hpos,
      hstop.1, hstop.2, List.append_nil]
    cases parseArgsFrom ct (rest.drop 1) <;> rfl
  | quoted word =>
    have hnul : cString text = text :=
      List.takeWhile_eq_self_iff.mpr fun b hb => by simpa using (word b hb).1
    have hdrop : (blank ++ (ch '"' :: text ++ [ch '"'] ++ rest)).dropWhile isspace =
        ch '"' :: (text ++ ch '"' :: rest) := by
      rw [List.dropWhile_append_of_pos hblank]
      simp only [List.append_assoc, List.cons_append, List.nil_append]
      exact List.dropWhile_cons_of_neg (by decide)
    rw [parseArgsFrom, hdrop]
    dsimp only
    rw [beq_self_eq_true, if_pos rfl, parseString_quoted word]
    simp only [Option.bind_eq_bind, Option.bind_some, hnul]
    cases parseArgsFrom ct (rest.drop 1) <;> rfl

/-- A character goes in front of a word that is no longer than the text it is read from. -/
theorem length_consString_le {c : UInt8} {r : Option (Bytes × Bytes)} {arg rest : Bytes} {n : Nat}
    (hr : ∀ {arg rest : Bytes}, r = some (arg, rest) → arg.length + rest.length ≤ n)
    (h : r.map (fun r => (c :: r.1, r.2)) = some (arg, rest)) :
    arg.length + rest.length ≤ n + 1 := by
  obtain ⟨⟨arg', rest'⟩, hsome, heq⟩ := Option.map_eq_some_iff.mp h
  cases heq
  have hle := hr hsome
  simp only [List.length_cons]
  omega

theorem parseString_length_le {s arg rest : Bytes} (h : parseString s = some (arg, rest)) :
    arg.length + rest.length ≤ s.length := by
  fun_induction parseString s generalizing arg rest with
  | case1 =>
    cases h
    simp
  | case2 c str hquote =>
    cases h
    simp
  | case3 c str hquote => cases h
  | case4 c hquote hslash e tail hx ih => exact length_consString_le ih h
  | case5 c hquote hslash e tail hx hoct ih =>
    have hdrop := (List.dropWhile_sublist isOctal (l := tail)).length_le
    have hle := length_consString_le ih h
    simp only [List.length_cons]
    omega
  | case6 c hquote hslash e tail hx hoct ih =>
    have hle := length_consString_le ih h
    simp only [List.length_cons]
    omega
  | case7 c str hquote hslash ih => exact length_consString_le ih h

theorem parseArgsFrom_length_le {cmd : Bytes} {args : List Bytes}
    (h : parseArgsFrom ct cmd = some args) : (args.map List.length).sum ≤ cmd.length := by
  induction ct generalizing cmd args with
  | zero =>
    cases h
    exact Nat.zero_le _
  | succ ct ih =>
    have hblank := (List.dropWhile_sublist isspace (l := cmd)).length_le
    rw [parseArgsFrom] at h
    split at h
    · cases h
      exact Nat.zero_le _
    · rename_i c str hcmd
      rw [hcmd] at hblank
      split at h
      · obtain ⟨⟨arg, rest⟩, hstring, h⟩ := Option.bind_eq_some_iff.mp h
        obtain ⟨tail, htail, h⟩ := Option.bind_eq_some_iff.mp h
        cases h
        have hword := parseString_length_le hstring
        have hnul := (List.takeWhile_sublist (· != 0) (l := arg)).length_le
        have hrest := ih htail
        rw [List.length_drop] at hrest
        simp only [List.map_cons, List.sum_cons, List.length_cons, cString] at hblank ⊢
        omega
      · obtain ⟨tail, htail, h⟩ := Option.bind_eq_some_iff.mp h
        cases h
        have hrest := ih htail
        have hsplit := congrArg List.length
          (List.takeWhile_append_dropWhile (p := fun b => !isspace b) (l := c :: str))
        rw [List.length_drop] at hrest
        rw [List.length_append] at hsplit
        rw [List.map_cons, List.sum_cons]
        omega

/-- The words of a text are no longer than the text. -/
theorem length_parseArgs_le (cmd : Bytes) :
    ((parseArgs cmd).map List.length).sum ≤ cmd.length := by
  unfold parseArgs
  cases h : parseArgsFrom 255 cmd with
  | none => exact Nat.zero_le _
  | some args => exact parseArgsFrom_length_le h

/-- There is nothing but blanks. -/
theorem parseArgsFrom_blank (hblank : ∀ b ∈ blank, isspace b = true) :
    parseArgsFrom ct blank = some [] := by
  cases ct with
  | zero => rfl
  | succ ct =>
    have hdrop : blank.dropWhile isspace = [] := List.dropWhile_eq_nil_iff.mpr hblank
    rw [parseArgsFrom, hdrop]

end

end Aprsc
