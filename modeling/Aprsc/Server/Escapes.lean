-- SUMMARY: The words of a configuration line decoded in place, and which quoted words decode to what their escapes denote.
import Aprsc.Base.Traced
import Aprsc.Server.Cfgfile

/-!
# Escapes

`parse_args` cuts a line into words in the buffer of the line, and `parse_string` decodes the escapes
of a quoted word there: it reads at one pointer and writes at another one behind it. Each byte that is written is
traced, with both pointers.

The escapes of C are described without the code, as the pieces of a text. A round of `parse_string` takes
one piece, unless the piece is a hexadecimal escape or octal digits follow it.
-/

namespace Aprsc

/-! ## In the buffer -/

/-- A byte that is written at `cp`, in a round that has read from `start` up to `str`. -/
structure LineWrite where
  start : Nat
  str : Nat
  cp : Nat
  byte : UInt8
deriving Repr, DecidableEq

/-- The byte is written no further than the round has come, which is not beyond the NUL at `nul`. -/
def LineWrite.InBounds (nul : Nat) (w : LineWrite) : Prop :=
  w.cp ≤ w.str ∧ w.str ≤ nul ∧ w.cp ≤ nul

/-- A buffer with the pointers of `parse_string`. -/
structure Decode where
  mem : Bytes
  cp : Nat
  str : Nat

/-- A round of `parse_string` on the bytes at `str`: how many are read, and the byte that is written. A
backslash before the NUL makes it return. -/
def stringRound : Bytes → Option (Nat × UInt8)
  | [] => none
  | c :: str =>
      if c = ch '\\' then
        let e := str.headD 0
        if e = 0 then none
        -- `strtoul` finds no number in front of an `x` and stays where it is.
        else if e = ch 'x' then some (1, 0)
        else if isOctal e then
          some (1 + (str.takeWhile isOctal).length, strtoulOctal (str.takeWhile isOctal))
        else some (2, escaped e)
      else some (1, c)

/-- `*cp++ = b`, after `n` bytes were read. -/
def Decode.put (s : Decode) (n : Nat) (b : UInt8) : Traced LineWrite Decode := do
  Traced.tell ⟨s.str, s.str + n, s.cp, b⟩
  pure ⟨s.mem.set s.cp b, s.cp + 1, s.str + n⟩

/-- The loop of `parse_string`, for some rounds: it is still running, it returns `NULL`, or it is at
the end of the word. -/
def stringLoop : (rounds : Nat) → Decode → Traced LineWrite (Option (Option Decode))
  | 0, _ => pure none
  | rounds + 1, s =>
      let str := s.mem.drop s.str
      if str.headD 0 = 0 ∨ str.headD 0 = ch '"' then pure (some (some s))
      else
        match stringRound str with
        | none => pure (some none)
        | some (n, b) => do
            let s ← s.put n b
            stringLoop rounds s

/-- The end of `parse_string`: the final quote is skipped and the string is terminated. -/
def stringEnd (s : Decode) : Traced LineWrite Decode := do
  let str := if s.mem.getD s.str 0 = ch '"' then s.str + 1 else s.str
  Traced.tell ⟨s.str, str, s.cp, 0⟩
  pure ⟨s.mem.set s.cp 0, s.cp, str⟩

/-- A word of `argv`: where it starts, and the rounds that decoded it if it was quoted. -/
structure ArgWord where
  start : Nat
  rounds : Option (List LineWrite)
deriving Repr, DecidableEq

/-- The end of a round of `parse_args`: `*cmd++ = 0`. -/
def endWord (mem : Bytes) (cmd : Nat) : Traced LineWrite (Bytes × Nat) :=
  if mem.getD cmd 0 = 0 then pure (mem, cmd)
  else do
    Traced.tell ⟨cmd, cmd, cmd, 0⟩
    pure (mem.set cmd 0, cmd + 1)

/-- The words and the buffer in the end, unless the function is still running or returns early. -/
abbrev ArgsRun := Traced LineWrite (Option (Option (List ArgWord × Bytes)))

/-- The end of a round of `parse_args`, and the loop after it. -/
def afterWord (loop : Bytes → Nat → ArgsRun) (a : ArgWord) (mem : Bytes) (cmd : Nat) : ArgsRun := do
  let cut ← endWord mem cmd
  let rest ← loop cut.1 cut.2
  pure (rest.map (·.map fun rest => (a :: rest.1, rest.2)))

/-- A round of `parse_args` with a quoted word, from after the quote on. -/
def quotedWord (loop : Bytes → Nat → ArgsRun) (mem : Bytes) (cmd : Nat) : ArgsRun := do
  let r ← (stringLoop mem.length ⟨mem, cmd, cmd⟩).listen
  match r.1 with
  | none => pure none
  | some none => pure (some none)
  | some (some s) => do
      let s ← stringEnd s
      afterWord loop ⟨cmd, some r.2⟩ s.mem s.str

/-- The loop of `parse_args` from `cmd` on, for at most `ct` words. -/
def argsLoop : (ct : Nat) → (mem : Bytes) → (cmd : Nat) → ArgsRun
  | 0, mem, _ => pure (some (some ([], mem)))
  | ct + 1, mem, cmd =>
      let cmd := cmd + ((mem.drop cmd).takeWhile isspace).length
      if mem.getD cmd 0 = 0 then pure (some (some ([], mem)))
      else if mem.getD cmd 0 = ch '"' then quotedWord (argsLoop ct) mem (cmd + 1)
      else
        let stop := cmd + ((mem.drop cmd).takeWhile fun b => b != 0 && !isspace b).length
        afterWord (argsLoop ct) ⟨cmd, none⟩ mem stop

/-- `parse_args` on the buffer of a line. -/
def parseArgsIn (buf : Bytes) : ArgsRun :=
  argsLoop 255 (buf ++ [0]) 0

/-! ## The escapes of C -/

/-- The escapes that are a single letter or mark, and their bytes. -/
def letterEscapes : List (Char × UInt8) :=
  [('a', 0x07), ('b', 0x08), ('t', 0x09), ('n', 0x0A), ('v', 0x0B), ('f', 0x0C), ('r', 0x0D),
    ('\\', 0x5C), ('"', 0x22), ('\'', 0x27), ('?', 0x3F)]

/-- The byte of such an escape. -/
def letterByte (e : UInt8) : Option UInt8 :=
  letterEscapes.findSome? fun c => if e = ch c.1 then some c.2 else none

/-- The value of a digit in base 16. -/
def hexDigit (b : UInt8) : Option Nat :=
  if ch '0' ≤ b ∧ b ≤ ch '9' then some (b.toNat - 48)
  else if ch 'a' ≤ b ∧ b ≤ ch 'f' then some (b.toNat - 87)
  else if ch 'A' ≤ b ∧ b ≤ ch 'F' then some (b.toNat - 55)
  else none

/-- The value of digits in base 8. -/
def octalValue (digits : Bytes) : Nat := digits.foldl (fun n b => 8 * n + (b.toNat - 48)) 0

/-- A piece of a quoted word: a character or an escape. -/
inductive Piece where
  | char (b : UInt8)
  | letter (e : UInt8)
  | hex (high low : UInt8)
  | octal (digits : Bytes)
deriving Repr, DecidableEq

namespace Piece

/-- How the piece is written. -/
def text : Piece → Bytes
  | .char b => [b]
  | .letter e => [ch '\\', e]
  | .hex high low => [ch '\\', ch 'x', high, low]
  | .octal digits => ch '\\' :: digits

/-- The byte that the piece denotes. -/
def byte : Piece → UInt8
  | .char b => b
  | .letter e => (letterByte e).getD 0
  | .hex high low => (16 * (hexDigit high).getD 0 + (hexDigit low).getD 0).toUInt8
  | .octal digits => (octalValue digits).toUInt8

/-- The text starts with a digit in base 8. -/
def OctalFollows (following : Bytes) : Prop := ∃ b ∈ following.head?, isOctal b = true

/-- The piece is one of C, before the following text. An octal escape has up to three digits, as many as
there are. -/
def Valid (following : Bytes) : Piece → Prop
  | .char b => b ≠ 0 ∧ b ≠ ch '"' ∧ b ≠ ch '\\'
  | .letter e => (letterByte e).isSome
  | .hex high low => (hexDigit high).isSome ∧ (hexDigit low).isSome
  | .octal digits => digits ≠ [] ∧ digits.length ≤ 3 ∧ (∀ b ∈ digits, isOctal b = true) ∧
      octalValue digits ≤ 255 ∧ (digits.length < 3 → ¬OctalFollows following)

/-- The piece is not hexadecimal, and not octal before a digit. -/
def Kept (following : Bytes) : Piece → Prop
  | .hex _ _ => False
  | .octal _ => ¬OctalFollows following
  | _ => True

end Piece

/-- How the pieces are written. -/
def piecesText (pieces : List Piece) : Bytes := pieces.flatMap Piece.text

/-- Each piece is one of C before the text that follows it. -/
def ValidPieces : List Piece → (tail : Bytes) → Prop
  | [], _ => True
  | p :: ps, tail => p.Valid (piecesText ps ++ tail) ∧ ValidPieces ps tail

/-- No piece is hexadecimal, or octal before a digit. -/
def KeptPieces : List Piece → (tail : Bytes) → Prop
  | [], _ => True
  | p :: ps, tail => p.Kept (piecesText ps ++ tail) ∧ KeptPieces ps tail

/-- The rounds that take the pieces one by one, and write the byte of each. -/
def pieceRounds : (str cp : Nat) → List Piece → List LineWrite
  | _, _, [] => []
  | str, cp, p :: ps =>
      ⟨str, str + p.text.length, cp, p.byte⟩ :: pieceRounds (str + p.text.length) (cp + 1) ps

/-- What follows the text of a quoted word: its quote, or the end of the line. -/
def EndsWord (tail : Bytes) : Prop := tail = [] ∨ tail.head? = some (ch '"')

/-- The pieces of the word were decoded one by one, and their bytes are in the buffer. -/
def ArgWord.Decodes (a : ArgWord) (mem : Bytes) (pieces : List Piece) : Prop :=
  a.rounds = some (pieceRounds a.start a.start pieces) ∧
    (mem.drop a.start).take (pieces.length + 1) = pieces.map Piece.byte ++ [0]

/-! ## Text in the buffer -/

/-- The string at a position of the buffer. -/
def StringAt (mem : Bytes) (pos : Nat) (t : Bytes) : Prop := 0 ∉ t ∧ t ++ [0] <+: mem.drop pos

namespace StringAt

variable {mem t : Bytes} {pos n : Nat} {b : UInt8}

theorem lt_length (h : StringAt mem pos t) : pos + t.length < mem.length := by
  have hlen := h.2.length_le
  rw [List.length_append, List.length_drop, List.length_singleton] at hlen
  omega

theorem exists_drop (h : StringAt mem pos t) : ∃ junk, mem.drop pos = t ++ 0 :: junk := by
  obtain ⟨junk, heq⟩ := h.2
  exact ⟨junk, by rw [← heq, List.append_assoc]; rfl⟩

theorem headD (h : StringAt mem pos t) : (mem.drop pos).headD 0 = t.headD 0 := by
  obtain ⟨junk, heq⟩ := h.exists_drop
  rw [heq]
  cases t <;> rfl

theorem getD (h : StringAt mem pos t) : mem.getD pos 0 = t.headD 0 := by
  rw [← h.headD, List.headD_eq_head?_getD, List.head?_drop, List.getD_eq_getElem?_getD]

theorem drop (h : StringAt mem pos t) (hn : n ≤ t.length) : StringAt mem (pos + n) (t.drop n) := by
  obtain ⟨junk, heq⟩ := h.exists_drop
  refine ⟨fun hmem => h.1 (List.mem_of_mem_drop hmem), ⟨junk, ?_⟩⟩
  rw [← List.drop_drop, heq, List.drop_append_of_le_length hn, List.append_assoc]
  rfl

/-- What is written before the text leaves it alone. -/
theorem set (h : StringAt mem pos t) (hn : n < pos) : StringAt (mem.set n b) pos t := by
  refine ⟨h.1, ?_⟩
  rw [List.drop_set_of_lt hn]
  exact h.2

theorem eq_zero_iff (h : StringAt mem pos t) : mem.getD pos 0 = 0 ↔ t = [] := by
  rw [h.getD]
  cases t with
  | nil => exact iff_of_true rfl rfl
  | cons c t =>
    refine iff_of_false (fun hc => h.1 ?_) (List.cons_ne_nil c t)
    rw [show c = 0 from hc]
    exact List.mem_cons_self

end StringAt

/-- A loop over the bytes that stops at the NUL does not see what follows it. -/
theorem takeWhile_append_nul {f : UInt8 → Bool} (hf : f 0 = false) (t junk : Bytes) :
    (t ++ 0 :: junk).takeWhile f = t.takeWhile f := by
  induction t with
  | nil => rw [List.nil_append, List.takeWhile_cons_of_neg (by simp [hf]), List.takeWhile_nil]
  | cons c t ih => rw [List.cons_append, List.takeWhile_cons, List.takeWhile_cons, ih]

/-- The bytes up to one that is written. -/
theorem take_set_succ {mem : Bytes} {n : Nat} (b : UInt8) (hn : n < mem.length) :
    (mem.set n b).take (n + 1) = mem.take n ++ [b] := by
  rw [List.set_eq_take_append_cons_drop, if_pos hn]
  have hlen : (mem.take n).length = n := List.length_take_of_le hn.le
  have htake : (mem.take n ++ b :: mem.drop (n + 1)).take ((mem.take n).length + 1) = mem.take n ++ [b] :=
    List.take_length_add_append 1
  rwa [hlen] at htake

/-! ## Rounds -/

section
variable {c e : UInt8} {t str : Bytes}

theorem stringRound_char (hslash : c ≠ ch '\\') : stringRound (c :: str) = some (1, c) :=
  if_neg hslash

theorem stringRound_hex (str : Bytes) : stringRound (ch '\\' :: ch 'x' :: str) = some (1, 0) := by
  rw [stringRound, if_pos rfl]
  rfl

theorem stringRound_octal (he : isOctal e = true) (str : Bytes) :
    stringRound (ch '\\' :: e :: str) =
      some (1 + ((e :: str).takeWhile isOctal).length, strtoulOctal ((e :: str).takeWhile isOctal)) := by
  have hzero : e ≠ 0 := by
    rintro rfl
    exact absurd he (by decide)
  have hx : e ≠ ch 'x' := by
    rintro rfl
    exact absurd he (by decide)
  rw [stringRound, if_pos rfl, List.headD_cons, if_neg hzero, if_neg hx, if_pos he]

theorem stringRound_letter (hzero : e ≠ 0) (hx : e ≠ ch 'x') (he : isOctal e = false) :
    stringRound (ch '\\' :: e :: str) = some (2, escaped e) := by
  rw [stringRound, if_pos rfl, List.headD_cons, if_neg hzero, if_neg hx, if_neg (by simp [he])]

theorem parseString_char (hquote : c ≠ ch '"') (hslash : c ≠ ch '\\') :
    parseString (c :: t) = (parseString t).map fun r => (c :: r.1, r.2) := by
  rw [parseString.eq_def]
  simp [hquote, hslash]

theorem parseString_hex (t : Bytes) :
    parseString (ch '\\' :: ch 'x' :: t) =
      (parseString (ch 'x' :: t)).map fun r => (0 :: r.1, r.2) := by
  rw [parseString.eq_def]
  rfl

theorem parseString_octal (he : isOctal e = true) :
    parseString (ch '\\' :: e :: t) = (parseString (t.dropWhile isOctal)).map fun r =>
      (strtoulOctal (e :: t.takeWhile isOctal) :: r.1, r.2) := by
  have hx : (e == ch 'x') = false := by
    rw [beq_eq_false_iff_ne]
    rintro rfl
    exact absurd he (by decide)
  rw [parseString.eq_def]
  simp only [hx, he]
  rfl

theorem parseString_letter (hx : e ≠ ch 'x') (he : isOctal e = false) :
    parseString (ch '\\' :: e :: t) = (parseString t).map fun r => (escaped e :: r.1, r.2) := by
  rw [parseString.eq_def]
  simp only [beq_eq_false_iff_ne.mpr hx, he]
  rfl

/-- A round is one of `parse_string` on the string, and stays before its NUL. -/
theorem stringRound_cases (ht : 0 ∉ t) (hends : ¬EndsWord t) (junk : Bytes) :
    (stringRound (t ++ 0 :: junk) = none ∧ parseString t = none) ∨
    ∃ n b, stringRound (t ++ 0 :: junk) = some (n, b) ∧ 1 ≤ n ∧ n ≤ t.length ∧
      parseString t = (parseString (t.drop n)).map fun r => (b :: r.1, r.2) := by
  cases t with
  | nil => exact absurd (.inl rfl) hends
  | cons c t =>
    have hquote : c ≠ ch '"' := fun hc => hends (.inr (by rw [hc]; rfl))
    by_cases hslash : c = ch '\\'
    · subst hslash
      cases t with
      | nil => exact .inl ⟨rfl, by rw [parseString.eq_def]; rfl⟩
      | cons e t =>
        have hzero : e ≠ 0 := fun h => ht (by rw [h]; simp)
        by_cases hx : e = ch 'x'
        · subst hx
          exact .inr ⟨1, 0, stringRound_hex _, by omega, by simp, parseString_hex t⟩
        · by_cases he : isOctal e = true
          · have hround := stringRound_octal he (t ++ 0 :: junk)
            rw [← List.cons_append, takeWhile_append_nul (by decide), List.takeWhile_cons_of_pos he] at hround
            refine .inr ⟨_, _, hround, by omega, ?_, ?_⟩
            · have hle := (List.takeWhile_sublist isOctal (l := t)).length_le
              simp only [List.length_cons]
              omega
            · rw [parseString_octal he]
              have hdrop : (ch '\\' :: e :: t).drop (1 + (e :: t.takeWhile isOctal).length) =
                  t.dropWhile isOctal := by
                rw [List.length_cons, Nat.add_comm 1, List.drop_succ_cons, List.drop_succ_cons]
                nth_rewrite 2 [← List.takeWhile_append_dropWhile (p := isOctal) (l := t)]
                exact List.drop_left
              rw [hdrop]
          · have he := eq_false_of_ne_true he
            exact .inr ⟨2, escaped e, stringRound_letter hzero hx he, by omega, by simp,
              parseString_letter hx he⟩
    · exact .inr ⟨1, c, stringRound_char hslash, by omega, by simp, parseString_char hquote hslash⟩

end

/-! ## The loop of `parse_string` -/

/-- The loop has stopped at the end of a word, after these writes. -/
structure LoopEnd (s : Decode) (t : Bytes) (log : List LineWrite) (s' : Decode) (t' : Bytes) : Prop where
  text : StringAt s'.mem s'.str t'
  ends : EndsWord t'
  le_str : s.str ≤ s'.str
  le_nul : s'.str ≤ s.str + t.length
  suffix : t' = t.drop (s'.str - s.str)
  cp_le : s'.cp ≤ s'.str
  le_cp : s.cp ≤ s'.cp
  /-- The bytes that were written are in the buffer. -/
  taken : s'.mem.take s'.cp = s.mem.take s.cp ++ log.map LineWrite.byte
  length : s'.mem.length = s.mem.length
  parse : parseString t = some (log.map LineWrite.byte, t'.drop 1)

theorem endsWord_iff {mem t : Bytes} {pos : Nat} (h : StringAt mem pos t) :
    (mem.drop pos).headD 0 = 0 ∨ (mem.drop pos).headD 0 = ch '"' ↔ EndsWord t := by
  rw [h.headD]
  cases t with
  | nil => exact iff_of_true (.inl rfl) (.inl rfl)
  | cons c t =>
    have hc : c ≠ 0 := fun hc => h.1 (by rw [hc]; simp)
    simp [EndsWord, hc]

theorem parseString_endsWord {t : Bytes} (h : EndsWord t) : parseString t = some ([], t.drop 1) := by
  rcases h with rfl | hquote
  · rw [parseString.eq_def]
    rfl
  · cases t with
    | nil => cases hquote
    | cons c t =>
      cases hquote
      rw [parseString.eq_def]
      rfl

/-- One round writes at `cp` what it has read, and goes on behind it. -/
theorem Decode.put_spec {s : Decode} {t : Bytes} {n : Nat} (b : UInt8) (h : StringAt s.mem s.str t)
    (hcp : s.cp ≤ s.str) (hn : 1 ≤ n) (hle : n ≤ t.length) :
    (s.put n b).All (LineWrite.InBounds (s.str + t.length)) ∧
    StringAt (s.put n b).val.mem (s.str + n) (t.drop n) ∧
    (s.put n b).val.mem.take (s.cp + 1) = s.mem.take s.cp ++ [b] := by
  have hlen := h.lt_length
  refine ⟨?_, ?_, take_set_succ b (by omega)⟩
  · rw [Decode.put, Traced.all_bind, Traced.all_tell, Traced.all_pure, and_true]
    exact ⟨show s.cp ≤ s.str + n by omega, show s.str + n ≤ s.str + t.length by omega,
      show s.cp ≤ s.str + t.length by omega⟩
  · exact (h.drop hle).set (by omega)

/-- The loop ends before its rounds are used up. It stays inside of the string, and decodes it as
`parse_string` does. -/
theorem stringLoop_spec {s : Decode} {t : Bytes} {rounds : Nat} (h : StringAt s.mem s.str t)
    (hcp : s.cp ≤ s.str) (hrounds : t.length < rounds) :
    (stringLoop rounds s).All (LineWrite.InBounds (s.str + t.length)) ∧
    (((stringLoop rounds s).val = some none ∧ parseString t = none) ∨
      ∃ s' t', (stringLoop rounds s).val = some (some s') ∧
        LoopEnd s t (stringLoop rounds s).log s' t') := by
  induction rounds generalizing s t with
  | zero => omega
  | succ rounds ih =>
    rw [stringLoop]
    by_cases hends : EndsWord t
    · rw [if_pos ((endsWord_iff h).mpr hends)]
      refine ⟨(Traced.all_pure _ _).mpr trivial, .inr ⟨s, t, rfl, ?_⟩⟩
      exact ⟨h, hends, Nat.le_refl _, Nat.le_add_right _ _, by simp, hcp, Nat.le_refl _,
        (List.append_nil _).symm, rfl, parseString_endsWord hends⟩
    · rw [if_neg fun hhead => hends ((endsWord_iff h).mp hhead)]
      obtain ⟨junk, hdrop⟩ := h.exists_drop
      rw [hdrop]
      obtain ⟨hround, hparse⟩ | ⟨n, b, hround, hn, hle, hparse⟩ := stringRound_cases h.1 hends junk
      · rw [hround]
        exact ⟨(Traced.all_pure _ _).mpr trivial, .inl ⟨rfl, hparse⟩⟩
      · rw [hround]
        dsimp only
        obtain ⟨hput, htext, htaken⟩ := Decode.put_spec b h hcp hn hle
        have hnul : s.str + n + (t.drop n).length = s.str + t.length := by
          rw [List.length_drop]
          omega
        have hnext : (s.put n b).val.cp ≤ (s.put n b).val.str := by
          show s.cp + 1 ≤ s.str + n
          omega
        have hrest : (t.drop n).length < rounds := by
          rw [List.length_drop]
          omega
        obtain ⟨hall, hval⟩ := ih (s := (s.put n b).val) htext hnext hrest
        rw [show (s.put n b).val.str = s.str + n from rfl, hnul] at hall
        refine ⟨(Traced.all_bind _ _ _).mpr ⟨hput, hall⟩, ?_⟩
        rw [Traced.val_bind]
        rcases hval with ⟨hnull, hnone⟩ | ⟨s', t', hsome, hend⟩
        · exact .inl ⟨hnull, by rw [hparse, hnone]; rfl⟩
        · refine .inr ⟨s', t', hsome, ?_⟩
          have hlog : (s.put n b >>= stringLoop rounds).log =
              ⟨s.str, s.str + n, s.cp, b⟩ :: (stringLoop rounds (s.put n b).val).log := rfl
          rw [hlog]
          have hstr : s.str + n ≤ s'.str := hend.le_str
          have hle_nul : s'.str ≤ s.str + n + (t.drop n).length := hend.le_nul
          refine ⟨hend.text, hend.ends, by omega, by omega, ?_, hend.cp_le,
            Nat.le_of_succ_le hend.le_cp, ?_, hend.length.trans List.length_set, ?_⟩
          · rw [hend.suffix, List.drop_drop, show (s.put n b).val.str = s.str + n from rfl]
            congr 1
            omega
          · have htake := hend.taken
            rw [show (s.put n b).val.cp = s.cp + 1 from rfl, htaken, List.append_assoc] at htake
            exact htake
          · rw [hparse, hend.parse]
            rfl

/-! ## Pieces -/

section
variable {p : Piece} {following : Bytes}

/-- The letters are not taken for numbers, and the code has the same table. -/
theorem letterByte_spec {e b : UInt8} (h : letterByte e = some b) :
    e ≠ 0 ∧ e ≠ ch 'x' ∧ isOctal e = false ∧ escaped e = b := by
  obtain ⟨c, hc, heq⟩ := List.exists_of_findSome?_eq_some h
  have htable : ∀ c ∈ letterEscapes, ch c.1 ≠ 0 ∧ ch c.1 ≠ ch 'x' ∧ isOctal (ch c.1) = false ∧
      escaped (ch c.1) = c.2 := forall_mem_of_all (by decide +kernel)
  by_cases he : e = ch c.1
  · rw [if_pos he] at heq
    cases heq
    rw [he]
    exact htable c hc
  · rw [if_neg he] at heq
    cases heq

theorem Piece.text_ne_nil (p : Piece) : p.text ≠ [] := by cases p <;> simp [Piece.text]

/-- A piece does not start like the end of a word. -/
theorem Piece.not_endsWord (h : p.Valid following) (t : Bytes) : ¬EndsWord (p.text ++ t) := by
  rintro (hnil | hquote)
  · exact p.text_ne_nil (List.append_eq_nil_iff.mp hnil).1
  · cases p with
    | char b => exact h.2.1 (Option.some.inj hquote)
    | letter e => exact absurd (Option.some.inj hquote) (by decide)
    | hex high low => exact absurd (Option.some.inj hquote) (by decide)
    | octal digits => exact absurd (Option.some.inj hquote) (by decide)

theorem takeWhile_isOctal_eq_nil_iff (junk : Bytes) :
    (following ++ 0 :: junk).takeWhile isOctal = [] ↔ ¬Piece.OctalFollows following := by
  rw [takeWhile_append_nul (by decide)]
  cases following with
  | nil => exact iff_of_true rfl (by rintro ⟨b, hb, -⟩; cases hb)
  | cons c following =>
    rw [List.takeWhile_cons]
    cases hc : isOctal c with
    | true =>
      refine iff_of_false (by simp) (not_not_intro ⟨c, rfl, hc⟩)
    | false =>
      refine iff_of_true (by simp) ?_
      rintro ⟨b, hb, hoctal⟩
      cases hb
      cases hc.symm.trans hoctal

theorem strtoulOctal_eq {digits : Bytes} (h : octalValue digits ≤ 255) :
    strtoulOctal digits = (octalValue digits).toUInt8 := by
  have hmin : min (octalValue digits) (2 ^ 64 - 1) = octalValue digits := Nat.min_eq_left (by omega)
  exact congrArg Nat.toUInt8 hmin

/-- A round takes the piece and writes its byte exactly if the piece is kept. -/
theorem Piece.round_iff (h : p.Valid following) (junk : Bytes) :
    ∃ n b, stringRound (p.text ++ (following ++ 0 :: junk)) = some (n, b) ∧
      ((n = p.text.length ∧ b = p.byte) ↔ p.Kept following) := by
  cases p with
  | char c => exact ⟨1, c, stringRound_char h.2.2, iff_of_true ⟨rfl, rfl⟩ trivial⟩
  | letter e =>
    obtain ⟨b, hb⟩ := Option.isSome_iff_exists.mp h
    obtain ⟨hzero, hx, hoctal, hescaped⟩ := letterByte_spec hb
    refine ⟨2, escaped e, stringRound_letter hzero hx hoctal, iff_of_true ⟨rfl, ?_⟩ trivial⟩
    rw [Piece.byte, hb, hescaped]
    rfl
  | hex high low =>
    refine ⟨1, 0, stringRound_hex _, iff_of_false ?_ id⟩
    rintro ⟨hlen, -⟩
    exact absurd hlen (by simp [Piece.text])
  | octal digits =>
    obtain ⟨hne, -, hdigits, hvalue, -⟩ := h
    have htake : (digits ++ (following ++ 0 :: junk)).takeWhile isOctal =
        digits ++ (following ++ 0 :: junk).takeWhile isOctal := List.takeWhile_append_of_pos hdigits
    cases digits with
    | nil => exact absurd rfl hne
    | cons e digits =>
      have hround := stringRound_octal (hdigits e List.mem_cons_self) (digits ++ (following ++ 0 :: junk))
      rw [← List.cons_append, htake] at hround
      refine ⟨_, _, hround, ?_⟩
      rw [Piece.Kept, ← takeWhile_isOctal_eq_nil_iff junk]
      constructor
      · rintro ⟨hlen, -⟩
        refine List.eq_nil_of_length_eq_zero ?_
        simp only [Piece.text, List.length_append, List.length_cons] at hlen
        omega
      · intro hnil
        rw [hnil, List.append_nil]
        refine ⟨?_, strtoulOctal_eq hvalue⟩
        simp only [Piece.text, List.length_cons]
        omega

end

/-- The rounds of a word are its pieces exactly if the pieces are kept. -/
theorem stringLoop_rounds_iff {s : Decode} {pieces : List Piece} {tail : Bytes} {rounds : Nat}
    (h : StringAt s.mem s.str (piecesText pieces ++ tail)) (hcp : s.cp ≤ s.str)
    (hvalid : ValidPieces pieces tail) (htail : EndsWord tail)
    (hrounds : (piecesText pieces ++ tail).length < rounds) :
    (stringLoop rounds s).log = pieceRounds s.str s.cp pieces ↔ KeptPieces pieces tail := by
  induction pieces generalizing s rounds with
  | nil =>
    cases rounds with
    | zero => omega
    | succ rounds =>
      rw [stringLoop, if_pos ((endsWord_iff h).mpr htail)]
      exact iff_of_true rfl trivial
  | cons p pieces ih =>
    have htext : piecesText (p :: pieces) ++ tail = p.text ++ (piecesText pieces ++ tail) := by
      rw [piecesText, List.flatMap_cons, List.append_assoc]
      rfl
    rw [htext] at h hrounds
    cases rounds with
    | zero => omega
    | succ rounds =>
      have hends := p.not_endsWord hvalid.1 (piecesText pieces ++ tail)
      rw [stringLoop, if_neg fun hhead => hends ((endsWord_iff h).mp hhead)]
      obtain ⟨junk, hdrop⟩ := h.exists_drop
      obtain ⟨n, b, hround, hiff⟩ := Piece.round_iff hvalid.1 junk
      rw [hdrop, List.append_assoc, hround]
      dsimp only
      have hlog : (s.put n b >>= stringLoop rounds).log =
          ⟨s.str, s.str + n, s.cp, b⟩ :: (stringLoop rounds (s.put n b).val).log := rfl
      rw [hlog, pieceRounds, List.cons_eq_cons, KeptPieces, ← hiff]
      have hhead : (⟨s.str, s.str + n, s.cp, b⟩ : LineWrite) =
          ⟨s.str, s.str + p.text.length, s.cp, p.byte⟩ ↔ n = p.text.length ∧ b = p.byte := by
        rw [LineWrite.mk.injEq]
        simp
      rw [hhead]
      refine and_congr_right ?_
      rintro ⟨rfl, rfl⟩
      have hpos := List.length_pos_of_ne_nil p.text_ne_nil
      have hle : p.text.length ≤ (p.text ++ (piecesText pieces ++ tail)).length := by
        rw [List.length_append]
        exact Nat.le_add_right _ _
      obtain ⟨-, hnext, -⟩ := Decode.put_spec p.byte h hcp hpos hle
      rw [List.drop_left] at hnext
      refine ih (s := (s.put p.text.length p.byte).val) hnext ?_ hvalid.2 ?_
      · show s.cp + 1 ≤ s.str + p.text.length
        omega
      · rw [List.length_append] at hrounds
        omega

/-! ## Words -/

/-- The text at `cmd` is read and written, but nothing before it. If it is empty, nothing is. -/
structure WritesFrom (cmd : Nat) (t mem mem' : Bytes) : Prop where
  length : mem'.length = mem.length
  take : mem'.take cmd = mem.take cmd
  nil : t = [] → mem' = mem

/-- What is before the text, or before its end if it is empty, stays. -/
theorem WritesFrom.take_eq {cmd n : Nat} {t mem mem' : Bytes} (h : WritesFrom cmd t mem mem')
    (hn : n ≤ cmd ∨ t = []) : mem'.take n = mem.take n := by
  rcases hn with hle | hnil
  · have htake := congrArg (List.take n) h.take
    rwa [List.take_take, List.take_take, Nat.min_eq_left hle] at htake
  · rw [h.nil hnil]

theorem WritesFrom.trans {cmd cmd' : Nat} {t t' mem mem' mem'' : Bytes} (h : WritesFrom cmd t mem mem')
    (h' : WritesFrom cmd' t' mem' mem'') (hle : cmd ≤ cmd') (hnil : t = [] → t' = []) :
    WritesFrom cmd t mem mem'' where
  length := h'.length.trans h.length
  take := (h'.take_eq (.inl hle)).trans h.take
  nil ht := (h'.nil (hnil ht)).trans (h.nil ht)

theorem StringAt.take_succ_of_nil {mem : Bytes} {pos : Nat} (h : StringAt mem pos []) :
    mem.take (pos + 1) = mem.take pos ++ [0] := by
  have hlen := h.lt_length
  have hget := h.getD
  rw [List.getD_eq_getElem?_getD, List.getElem?_eq_getElem (by omega), Option.getD_some] at hget
  rw [List.take_succ_eq_append_getElem (by omega), hget]
  rfl

/-- The NUL of the text may be written again. -/
theorem StringAt.set_nul {mem : Bytes} {pos n : Nat} (h : StringAt mem pos []) (hn : n ≤ pos) :
    StringAt (mem.set n 0) pos [] := by
  rcases Nat.lt_or_eq_of_le hn with hlt | rfl
  · exact h.set hlt
  · obtain ⟨junk, hdrop⟩ := h.exists_drop
    refine ⟨h.1, junk, ?_⟩
    rw [List.drop_set, if_neg (Nat.lt_irrefl n), hdrop, Nat.sub_self]
    rfl

/-- The end of a string: the text after its quote is left, or nothing. -/
theorem stringEnd_spec {s : Decode} {t : Bytes} (h : StringAt s.mem s.str t) (hends : EndsWord t)
    (hcp : s.cp ≤ s.str) :
    (stringEnd s).All (LineWrite.InBounds (s.str + t.length)) ∧
    (stringEnd s).val.str = s.str + min 1 t.length ∧
    StringAt (stringEnd s).val.mem (stringEnd s).val.str (t.drop 1) ∧
    (stringEnd s).val.mem.take (s.cp + 1) = s.mem.take s.cp ++ [0] ∧
    (s.cp + 1 ≤ (stringEnd s).val.str ∨ t.drop 1 = []) := by
  have hlen := h.lt_length
  have htake : (stringEnd s).val.mem.take (s.cp + 1) = s.mem.take s.cp ++ [0] :=
    take_set_succ 0 (by omega)
  have hall : ∀ str, str = s.str + min 1 t.length →
      LineWrite.InBounds (s.str + t.length) ⟨s.str, str, s.cp, 0⟩ := by
    rintro str rfl
    exact ⟨show s.cp ≤ s.str + min 1 t.length by omega,
      show s.str + min 1 t.length ≤ s.str + t.length by omega, show s.cp ≤ s.str + t.length by omega⟩
  have hstr : (stringEnd s).val.str = s.str + min 1 t.length := by
    show (if s.mem.getD s.str 0 = ch '"' then s.str + 1 else s.str) = _
    rw [h.getD]
    rcases hends with rfl | hquote
    · rfl
    · cases t with
      | nil => cases hquote
      | cons c t =>
        cases hquote
        rw [List.headD_cons, if_pos rfl, List.length_cons]
        omega
  refine ⟨?_, hstr, ?_, htake, ?_⟩
  · rw [stringEnd, Traced.all_bind, Traced.all_tell, Traced.all_pure, and_true]
    exact hall _ hstr
  · rw [hstr]
    cases t with
    | nil => exact h.set_nul hcp
    | cons c t =>
      rw [List.length_cons, show min 1 (t.length + 1) = 1 by omega]
      exact (h.drop (by simp)).set (by omega)
  · rw [hstr]
    cases t with
    | nil => exact .inr rfl
    | cons c t =>
      rw [List.length_cons]
      omega

/-- The byte after a word is set to NUL, unless it is already. -/
theorem endWord_spec {mem t : Bytes} {cmd : Nat} (h : StringAt mem cmd t) :
    (endWord mem cmd).All (LineWrite.InBounds (cmd + t.length)) ∧
    (endWord mem cmd).val.2 = cmd + min 1 t.length ∧
    StringAt (endWord mem cmd).val.1 (endWord mem cmd).val.2 (t.drop 1) ∧
    (endWord mem cmd).val.1.take (cmd + 1) = mem.take cmd ++ [0] ∧
    WritesFrom cmd t mem (endWord mem cmd).val.1 := by
  rw [endWord]
  by_cases hnil : t = []
  · rw [if_pos (h.eq_zero_iff.mpr hnil)]
    subst hnil
    exact ⟨(Traced.all_pure _ _).mpr trivial, rfl, h, h.take_succ_of_nil, rfl, rfl, fun _ => rfl⟩
  · rw [if_neg fun hzero => hnil (h.eq_zero_iff.mp hzero)]
    have hpos := List.length_pos_of_ne_nil hnil
    have hlen := h.lt_length
    have htake : (mem.set cmd 0).take (cmd + 1) = mem.take cmd ++ [0] := take_set_succ 0 (by omega)
    refine ⟨?_, show cmd + 1 = _ by omega, ?_, htake, List.length_set, ?_, fun ht => absurd ht hnil⟩
    · rw [Traced.all_bind, Traced.all_tell, Traced.all_pure, and_true]
      exact ⟨Nat.le_refl _, Nat.le_add_right _ _, Nat.le_add_right _ _⟩
    · exact (h.drop hpos).set (Nat.lt_succ_self cmd)
    · exact List.take_set_of_le (Nat.le_refl cmd)

/-! ## Lines -/

/-- The words as they are in the buffer. -/
def wordTexts (r : List ArgWord × Bytes) : List Bytes := r.1.map fun a => cString (r.2.drop a.start)

/-- If the text of a word is made of pieces, they decode exactly if they are kept. -/
def DecodesKept (line mem : Bytes) (a : ArgWord) : Prop :=
  ∀ pieces tail, ValidPieces pieces tail → EndsWord tail →
    line.drop a.start = piecesText pieces ++ tail →
    (a.Decodes mem pieces ↔ KeptPieces pieces tail)

/-- What is known of a buffer in which the words from `cmd` on have been cut. -/
structure ArgsEnd (line : Bytes) (ct cmd : Nat) (mem : Bytes) (r : Option (List ArgWord × Bytes)) :
    Prop where
  texts : r.map wordTexts = parseArgsFrom ct (line.drop cmd)
  writes : ∀ args mem', r = some (args, mem') → WritesFrom cmd (line.drop cmd) mem mem'
  quoted : ∀ args mem', r = some (args, mem') → ∀ a ∈ args, a.rounds.isSome → DecodesKept line mem' a

/-- The loop ends and stays inside of the line. -/
def ArgsSpec (line : Bytes) (ct : Nat) : Prop :=
  ∀ mem cmd, StringAt mem cmd (line.drop cmd) → cmd ≤ line.length →
    (argsLoop ct mem cmd).All (LineWrite.InBounds line.length) ∧
      ∃ r, (argsLoop ct mem cmd).val = some r ∧ ArgsEnd line ct cmd mem r

section
variable {line mem : Bytes} {ct stop : Nat}

theorem drop_add_min (line : Bytes) (n : Nat) :
    line.drop (n + min 1 (line.drop n).length) = (line.drop n).drop 1 := by
  rw [← List.drop_drop]
  cases line.drop n with
  | nil => rfl
  | cons c t =>
    rw [List.length_cons, show min 1 (t.length + 1) = 1 by omega]

theorem afterWord_spec (ih : ArgsSpec line ct) (a : ArgWord) (h : StringAt mem stop (line.drop stop))
    (hstop : stop ≤ line.length) :
    (afterWord (argsLoop ct) a mem stop).All (LineWrite.InBounds line.length) ∧
    ∃ r, (afterWord (argsLoop ct) a mem stop).val = some (r.map fun rest => (a :: rest.1, rest.2)) ∧
      r.map wordTexts = parseArgsFrom ct ((line.drop stop).drop 1) ∧
      ∀ args mem', r = some (args, mem') →
        WritesFrom stop (line.drop stop) mem mem' ∧
        mem'.take (stop + 1) = mem.take stop ++ [0] ∧
        ∀ a ∈ args, a.rounds.isSome → DecodesKept line mem' a := by
  have hnul : stop + (line.drop stop).length = line.length := by
    rw [List.length_drop]
    omega
  obtain ⟨hall, hcmd, htext, htake, hwrites⟩ := endWord_spec h
  rw [hnul] at hall
  have hdrop : line.drop (endWord mem stop).val.2 = (line.drop stop).drop 1 := by
    rw [hcmd, drop_add_min]
  rw [← hdrop] at htext
  obtain ⟨hall', r, hval, hend⟩ := ih _ _ htext (by omega)
  refine ⟨?_, r, ?_, ?_, ?_⟩
  · rw [afterWord, Traced.all_bind, Traced.all_bind, Traced.all_pure, and_true]
    exact ⟨hall, hall'⟩
  · rw [afterWord, Traced.val_bind, Traced.val_bind, hval]
    rfl
  · rw [hend.texts, hdrop]
  · intro args mem' hr
    have hwrites' := hend.writes args mem' hr
    rw [hdrop] at hwrites'
    refine ⟨hwrites.trans hwrites' (by omega) (by rintro hnil; rw [hnil]; rfl), ?_,
      hend.quoted args mem' hr⟩
    rw [← htake]
    refine hwrites'.take_eq ?_
    by_cases hnil : line.drop stop = []
    · exact .inr (by rw [hnil]; rfl)
    · have hpos := List.length_pos_of_ne_nil hnil
      exact .inl (by omega)

/-- A word that was cut is read up to its NUL. -/
theorem exists_drop_of_take {mem m w : Bytes} (h : mem.take (m.length + w.length + 1) = m ++ w ++ [0]) :
    ∃ rest, mem.drop m.length = w ++ 0 :: rest := by
  refine ⟨mem.drop (m.length + w.length + 1), ?_⟩
  have hsplit := List.take_append_drop (m.length + w.length + 1) mem
  rw [h] at hsplit
  nth_rewrite 1 [← hsplit]
  rw [List.append_assoc, List.append_assoc, List.drop_left]
  rfl

theorem cString_append_nul (w rest : Bytes) : cString (w ++ 0 :: rest) = cString w :=
  takeWhile_append_nul (by decide) w rest

theorem pieceRounds_byte (str cp : Nat) (pieces : List Piece) :
    (pieceRounds str cp pieces).map LineWrite.byte = pieces.map Piece.byte := by
  induction pieces generalizing str cp with
  | nil => rfl
  | cons p pieces ih => rw [pieceRounds, List.map_cons, List.map_cons, ih]

/-- The buffer has the bytes of a word at its start. -/
theorem drop_start_of_take {mem mem' w : Bytes} {start : Nat} (hstart : start ≤ mem.length)
    (h : mem'.take (start + w.length + 1) = mem.take start ++ w ++ [0]) :
    ∃ rest, mem'.drop start = w ++ 0 :: rest := by
  have hlen : (mem.take start).length = start := List.length_take_of_le hstart
  have hrest : ∃ rest, mem'.drop (mem.take start).length = w ++ 0 :: rest :=
    exists_drop_of_take (by rw [hlen]; exact h)
  rwa [hlen] at hrest

/-- A quoted word has its bytes where it starts. -/
theorem decodesKept_of_loop {mem' : Bytes} {start rounds : Nat}
    (h : StringAt mem start (line.drop start)) (hrounds : (line.drop start).length < rounds)
    {log : List LineWrite} (hlog : log = (stringLoop rounds ⟨mem, start, start⟩).log)
    (hdrop : ∃ rest, mem'.drop start = log.map LineWrite.byte ++ 0 :: rest) :
    DecodesKept line mem' ⟨start, some log⟩ := by
  intro pieces tail hvalid htail htext
  rw [show (⟨start, some log⟩ : ArgWord).start = start from rfl] at htext
  rw [htext] at h hrounds
  have hiff := stringLoop_rounds_iff (s := ⟨mem, start, start⟩) h (Nat.le_refl start) hvalid htail hrounds
  rw [← hlog] at hiff
  rw [ArgWord.Decodes, ← hiff]
  constructor
  · exact fun hdecodes => Option.some.inj hdecodes.1
  · intro hrounds'
    refine ⟨congrArg some hrounds', ?_⟩
    obtain ⟨rest, hrest⟩ := hdrop
    have hbytes : log.map LineWrite.byte = pieces.map Piece.byte := by
      rw [hrounds', pieceRounds_byte]
    rw [hrest, hbytes]
    have hlen : pieces.length = (pieces.map Piece.byte).length := by rw [List.length_map]
    rw [hlen]
    exact List.take_length_add_append 1

/-- A quoted word is decoded, and then the loop goes on behind its quote. -/
theorem quotedWord_spec (ih : ArgsSpec line ct) {start : Nat} (h : StringAt mem start (line.drop start))
    (hstart : start ≤ line.length) :
    (quotedWord (argsLoop ct) mem start).All (LineWrite.InBounds line.length) ∧
    ∃ r, (quotedWord (argsLoop ct) mem start).val = some r ∧
      r.map wordTexts = (parseString (line.drop start)).bind (fun w =>
        (parseArgsFrom ct (w.2.drop 1)).map (cString w.1 :: ·)) ∧
      ∀ args mem', r = some (args, mem') →
        mem'.length = mem.length ∧ mem'.take start = mem.take start ∧
        ∀ a ∈ args, a.rounds.isSome → DecodesKept line mem' a := by
  have hnul : start + (line.drop start).length = line.length := by
    rw [List.length_drop]
    omega
  have hmem := h.lt_length
  obtain ⟨hall, hloop⟩ := stringLoop_spec (s := ⟨mem, start, start⟩) h (Nat.le_refl _)
    (show (line.drop start).length < mem.length by omega)
  rw [show (⟨mem, start, start⟩ : Decode).str = start from rfl, hnul] at hall
  rw [quotedWord, Traced.all_bind, Traced.all_listen, Traced.val_bind, Traced.val_listen]
  generalize hlog : (stringLoop mem.length ⟨mem, start, start⟩).log = log at hloop
  rcases hloop with ⟨hnull, hparse⟩ | ⟨s, t, hval, hend⟩
  · rw [hnull, hparse]
    exact ⟨⟨hall, (Traced.all_pure _ _).mpr trivial⟩, none, rfl, rfl, fun _ _ hr => by cases hr⟩
  · rw [hval]
    dsimp only
    have ht : t = line.drop s.str := by
      rw [hend.suffix, List.drop_drop]
      exact congrArg (line.drop ·) (Nat.add_sub_cancel' hend.le_str)
    have hle : s.str ≤ line.length := hend.le_nul.trans_eq hnul
    have hnul' : s.str + t.length = line.length := by
      rw [ht, List.length_drop]
      omega
    obtain ⟨hall', hstr, htext, htake, hcp⟩ := stringEnd_spec hend.text hend.ends hend.cp_le
    rw [hnul'] at hall'
    have hdrop : t.drop 1 = line.drop (stringEnd s).val.str := by
      rw [hstr, ht, drop_add_min]
    rw [hdrop] at htext hcp
    obtain ⟨hafter, r, hr, htexts, hwords⟩ := afterWord_spec ih ⟨start, some log⟩ htext (by omega)
    have htaken : s.mem.take s.cp = mem.take start ++ log.map LineWrite.byte := hend.taken
    have hwritten : s.cp = start + (log.map LineWrite.byte).length := by
      have hlen := congrArg List.length htaken
      have hbound := hend.text.lt_length
      have hcp_le := hend.cp_le
      rw [List.length_append, List.length_take_of_le (by omega), List.length_take_of_le (by omega)] at hlen
      exact hlen
    -- The bytes are not touched after the word was terminated.
    have hbytes : ∀ args mem', r = some (args, mem') →
        mem'.take (s.cp + 1) = mem.take start ++ log.map LineWrite.byte ++ [0] := by
      intro args mem' hsome
      rw [(hwords args mem' hsome).1.take_eq hcp, htake, htaken]
    have hstart' : ∀ args mem', r = some (args, mem') →
        ∃ rest, mem'.drop start = log.map LineWrite.byte ++ 0 :: rest := by
      intro args mem' hsome
      have htake' := hbytes args mem' hsome
      rw [hwritten] at htake'
      exact drop_start_of_take (by omega) htake'
    refine ⟨⟨hall, (Traced.all_bind _ _ _).mpr ⟨hall', hafter⟩⟩, _, hr, ?_, ?_⟩
    · rw [hend.parse, Option.bind_some, hdrop, ← htexts]
      cases r with
      | none => rfl
      | some rest =>
        obtain ⟨junk, hjunk⟩ := hstart' rest.1 rest.2 rfl
        rw [Option.map_some, Option.map_some, Option.map_some, Option.map_some, wordTexts, wordTexts,
          List.map_cons, hjunk, cString_append_nul]
    · intro args mem' hsome
      cases r with
      | none => cases hsome
      | some rest =>
        cases hsome
        obtain ⟨hwrites, -, hquoted⟩ := hwords rest.1 rest.2 rfl
        refine ⟨?_, ?_, ?_⟩
        · rw [hwrites.length]
          exact List.length_set.trans hend.length
        · have htake' := congrArg (List.take start) (hbytes rest.1 rest.2 rfl)
          rw [List.take_take, Nat.min_eq_left (by omega), List.append_assoc] at htake'
          rw [htake', List.take_append_of_le_length (by rw [List.length_take_of_le (by omega)]),
            List.take_take, Nat.min_self]
        · intro a ha hsome
          rcases List.mem_cons.mp ha with rfl | ha
          · exact decodesKept_of_loop h (by omega) hlog.symm (hstart' rest.1 rest.2 rfl)
          · exact hquoted a ha hsome

/-- What a loop over bytes leaves. -/
theorem drop_takeWhile_length (f : UInt8 → Bool) (t : Bytes) :
    t.drop (t.takeWhile f).length = t.dropWhile f := by
  nth_rewrite 2 [← List.takeWhile_append_dropWhile (p := f) (l := t)]
  exact List.drop_left

theorem takeWhile_word {t : Bytes} (ht : 0 ∉ t) :
    (t.takeWhile fun b => b != 0 && !isspace b) = t.takeWhile fun b => !isspace b := by
  induction t with
  | nil => rfl
  | cons c t ih =>
    have hc : (c != 0) = true := by
      rw [bne_iff_ne]
      exact fun hc => ht (by rw [hc]; exact List.mem_cons_self)
    rw [List.takeWhile_cons, List.takeWhile_cons, ih fun hmem => ht (List.mem_cons_of_mem c hmem), hc,
      Bool.true_and]

/-- A word without quotes is where it was, and ends where it is cut. -/
theorem plainWord_spec (ih : ArgsSpec line ct) {cmd : Nat} (h : StringAt mem cmd (line.drop cmd))
    (hcmd : cmd ≤ line.length) {word : Bytes} (hword : word = (line.drop cmd).takeWhile fun b => !isspace b) :
    (afterWord (argsLoop ct) ⟨cmd, none⟩ mem (cmd + word.length)).All (LineWrite.InBounds line.length) ∧
    ∃ r, (afterWord (argsLoop ct) ⟨cmd, none⟩ mem (cmd + word.length)).val = some r ∧
      r.map wordTexts =
        (parseArgsFrom ct (((line.drop cmd).dropWhile fun b => !isspace b).drop 1)).map (word :: ·) ∧
      ∀ args mem', r = some (args, mem') →
        mem'.length = mem.length ∧ mem'.take cmd = mem.take cmd ∧
        ∀ a ∈ args, a.rounds.isSome → DecodesKept line mem' a := by
  have hcut : word <+: line.drop cmd := hword ▸ List.takeWhile_prefix _
  have hlen := hcut.length_le
  have hmem := h.lt_length
  have hstop : StringAt mem (cmd + word.length) (line.drop (cmd + word.length)) := by
    rw [← List.drop_drop]
    exact h.drop hlen
  have hle : cmd + word.length ≤ line.length := by
    rw [List.length_drop] at hlen
    omega
  have hdrop : line.drop (cmd + word.length) = (line.drop cmd).dropWhile fun b => !isspace b := by
    rw [← List.drop_drop, hword, drop_takeWhile_length]
  have hnul : (0 : UInt8) ∉ word := fun hmem => h.1 (hcut.subset hmem)
  -- The word is in the buffer before the NUL that ends it.
  have htake : mem.take (cmd + word.length) = mem.take cmd ++ word := by
    obtain ⟨junk, hjunk⟩ := h.exists_drop
    rw [List.take_add, hjunk, List.take_append_of_le_length hlen, ← List.prefix_iff_eq_take.mp hcut]
  obtain ⟨hall, r, hr, htexts, hwords⟩ := afterWord_spec ih ⟨cmd, none⟩ hstop hle
  refine ⟨hall, _, hr, ?_, ?_⟩
  · rw [← hdrop, ← htexts]
    cases r with
    | none => rfl
    | some rest =>
      obtain ⟨-, hcut, -⟩ := hwords rest.1 rest.2 rfl
      rw [htake] at hcut
      obtain ⟨junk, hjunk⟩ := drop_start_of_take (by omega) hcut
      rw [Option.map_some, Option.map_some, Option.map_some, Option.map_some, wordTexts, wordTexts,
        List.map_cons, hjunk, cString_append_nul, cString_eq_self hnul]
  · intro args mem' hsome
    cases r with
    | none => cases hsome
    | some rest =>
      cases hsome
      obtain ⟨hwrites, -, hquoted⟩ := hwords rest.1 rest.2 rfl
      refine ⟨hwrites.length, hwrites.take_eq (.inl (Nat.le_add_right _ _)), fun a ha hsome => ?_⟩
      rcases List.mem_cons.mp ha with rfl | ha
      · cases hsome
      · exact hquoted a ha hsome

theorem parseArgsFrom_succ {cmd str : Bytes} {c : UInt8} (h : cmd.dropWhile isspace = c :: str) :
    parseArgsFrom (ct + 1) cmd = if c = ch '"' then
      (parseString str).bind (fun w => (parseArgsFrom ct (w.2.drop 1)).map (cString w.1 :: ·))
    else (parseArgsFrom ct (((c :: str).dropWhile fun b => !isspace b).drop 1)).map
      ((c :: str).takeWhile (fun b => !isspace b) :: ·) := by
  rw [parseArgsFrom, h]
  dsimp only
  by_cases hquote : c = ch '"'
  · rw [if_pos (by simpa using hquote), if_pos hquote]
    cases parseString str with
    | none => rfl
    | some w =>
      rw [Option.bind_eq_bind, Option.bind_some, Option.bind_some]
      cases parseArgsFrom ct (w.2.drop 1) <;> rfl
  · rw [if_neg (by simpa using hquote), if_neg hquote]
    cases parseArgsFrom ct (((c :: str).dropWhile fun b => !isspace b).drop 1) <;> rfl

/-- No words are left. -/
theorem ArgsEnd.nil {cmd : Nat} (h : parseArgsFrom ct (line.drop cmd) = some []) :
    ArgsEnd line ct cmd mem (some ([], mem)) := by
  refine ⟨h.symm, fun args mem' hr => ?_, fun args mem' hr => ?_⟩
  · cases hr
    exact ⟨rfl, rfl, fun _ => rfl⟩
  · cases hr
    exact fun a ha => by cases ha

/-- A round that found a word from `start` on. -/
theorem ArgsEnd.word {cmd start : Nat} {r : Option (List ArgWord × Bytes)} (hle : cmd ≤ start)
    (hne : line.drop cmd ≠ []) (htexts : r.map wordTexts = parseArgsFrom ct (line.drop cmd))
    (hwords : ∀ args mem', r = some (args, mem') →
      mem'.length = mem.length ∧ mem'.take start = mem.take start ∧
      ∀ a ∈ args, a.rounds.isSome → DecodesKept line mem' a) :
    ArgsEnd line ct cmd mem r := by
  refine ⟨htexts, fun args mem' hr => ?_, fun args mem' hr => (hwords args mem' hr).2.2⟩
  obtain ⟨hlen, htake, -⟩ := hwords args mem' hr
  refine ⟨hlen, ?_, fun hnil => absurd hnil hne⟩
  have htake' := congrArg (List.take cmd) htake
  rwa [List.take_take, List.take_take, Nat.min_eq_left hle] at htake'

/-- The loop of `parse_args` ends and stays inside of the line, and decodes the words that are made
of kept pieces. -/
theorem argsLoop_spec (line : Bytes) (ct : Nat) : ArgsSpec line ct := by
  induction ct with
  | zero =>
    intro mem cmd _ _
    exact ⟨(Traced.all_pure _ _).mpr trivial, _, rfl, .nil rfl⟩
  | succ ct ih =>
    intro mem cmd h hcmd
    obtain ⟨junk, hjunk⟩ := h.exists_drop
    have hblank : (mem.drop cmd).takeWhile isspace = (line.drop cmd).takeWhile isspace := by
      rw [hjunk, takeWhile_append_nul (by decide)]
    have hlen := (List.takeWhile_sublist isspace (l := line.drop cmd)).length_le
    have h' := h.drop hlen
    have hskip : line.drop (cmd + ((line.drop cmd).takeWhile isspace).length) =
        (line.drop cmd).dropWhile isspace := by
      rw [← List.drop_drop, drop_takeWhile_length]
    rw [drop_takeWhile_length, ← hskip] at h'
    rw [List.length_drop] at hlen
    have hstart : cmd + ((line.drop cmd).takeWhile isspace).length ≤ line.length := by omega
    have hle : cmd ≤ cmd + ((line.drop cmd).takeWhile isspace).length := Nat.le_add_right _ _
    rw [argsLoop, hblank]
    generalize cmd + ((line.drop cmd).takeWhile isspace).length = start at *
    dsimp only
    cases ht : line.drop start with
    | nil =>
      rw [ht] at h' hskip
      rw [if_pos (h'.eq_zero_iff.mpr rfl)]
      refine ⟨(Traced.all_pure _ _).mpr trivial, _, rfl, .nil ?_⟩
      rw [parseArgsFrom, ← hskip]
    | cons c str =>
      have hzero : mem.getD start 0 ≠ 0 := by
        intro hzero
        cases ht.symm.trans (h'.eq_zero_iff.mp hzero)
      have hne : line.drop cmd ≠ [] := by
        intro hnil
        rw [hnil, ht] at hskip
        cases hskip
      have hparse : parseArgsFrom (ct + 1) (line.drop cmd) = _ :=
        parseArgsFrom_succ (hskip.symm.trans ht)
      rw [if_neg hzero, h'.getD, ht, List.headD_cons]
      by_cases hquote : c = ch '"'
      · rw [if_pos hquote] at hparse ⊢
        have hlt : start < line.length :=
          Nat.lt_of_not_le fun hge => by cases ht.symm.trans (List.drop_eq_nil_of_le hge)
        have hstr : line.drop (start + 1) = str := by
          rw [← List.drop_drop, ht]
          rfl
        have htext : StringAt mem (start + 1) (line.drop (start + 1)) := by
          rw [← List.drop_drop]
          exact h'.drop (by rw [ht]; simp)
        obtain ⟨hall, r, hr, htexts, hwords⟩ := quotedWord_spec ih htext hlt
        rw [hstr, ← hparse] at htexts
        exact ⟨hall, r, hr, .word (Nat.le_succ_of_le hle) hne htexts hwords⟩
      · rw [if_neg hquote] at hparse ⊢
        obtain ⟨junk', hjunk'⟩ := h'.exists_drop
        have hword : ((mem.drop start).takeWhile fun b => b != 0 && !isspace b) =
            (line.drop start).takeWhile fun b => !isspace b := by
          rw [hjunk', takeWhile_append_nul (by decide), takeWhile_word h'.1]
        rw [hword]
        obtain ⟨hall, r, hr, htexts, hwords⟩ := plainWord_spec ih h' hstart rfl
        rw [ht, ← hparse] at htexts
        exact ⟨hall, r, hr, .word hle hne htexts hwords⟩

theorem stringAt_buf (buf : Bytes) : StringAt (buf ++ [0]) 0 (cString buf) := by
  induction buf with
  | nil => exact ⟨by simp [cString], List.prefix_refl _⟩
  | cons b buf ih =>
    unfold cString
    rw [List.takeWhile_cons]
    by_cases hb : b = 0
    · rw [if_neg (by simpa using hb), hb]
      exact ⟨by simp, ⟨buf ++ [0], rfl⟩⟩
    · rw [if_pos (by simpa using hb)]
      refine ⟨?_, (List.prefix_cons_inj b).mpr ih.2⟩
      rw [List.mem_cons, not_or]
      exact ⟨Ne.symm hb, ih.1⟩

end

/-- `parse_args` returns, its writes stay behind what it reads and before the NUL, and it finds the
words of the line. A quoted word that is made of characters and C escapes is decoded escape by escape exactly if it has
no hexadecimal escape, and no octal escape with another digit after it. -/
theorem quoted_words_decode_iff (buf : Bytes) :
    (parseArgsIn buf).All (LineWrite.InBounds (cString buf).length) ∧
    ∃ r, (parseArgsIn buf).val = some r ∧ (r.map wordTexts).getD [] = parseArgs (cString buf) ∧
      ∀ args mem, r = some (args, mem) → ∀ a ∈ args, a.rounds.isSome →
        ∀ pieces tail, ValidPieces pieces tail → EndsWord tail →
          (cString buf).drop a.start = piecesText pieces ++ tail →
          (a.Decodes mem pieces ↔ KeptPieces pieces tail) := by
  obtain ⟨hall, r, hr, hend⟩ := argsLoop_spec (cString buf) 255 (buf ++ [0]) 0 (stringAt_buf buf)
    (Nat.zero_le _)
  refine ⟨hall, r, hr, ?_, hend.quoted⟩
  rw [hend.texts]
  rfl

/-- An `A` that is written in hexadecimal becomes a NUL, and its digits stay. -/
theorem hex_escape_not_decoded :
    (parseArgsIn (ascii "\"\\x41\"")).val = some (some
      ([⟨1, some [⟨1, 2, 1, 0⟩, ⟨2, 3, 2, ch 'x'⟩, ⟨3, 4, 3, ch '4'⟩, ⟨4, 5, 4, ch '1'⟩]⟩],
        [ch '"', 0, ch 'x', ch '4', ch '1', 0, 0])) ∧
    ValidPieces [.hex (ch '4') (ch '1')] [ch '"'] ∧ EndsWord [ch '"'] ∧
    (cString (ascii "\"\\x41\"")).drop 1 = piecesText [.hex (ch '4') (ch '1')] ++ [ch '"'] ∧
    [Piece.hex (ch '4') (ch '1')].map Piece.byte = ascii "A" ∧
    ¬ArgWord.Decodes
      ⟨1, some [⟨1, 2, 1, 0⟩, ⟨2, 3, 2, ch 'x'⟩, ⟨3, 4, 3, ch '4'⟩, ⟨4, 5, 4, ch '1'⟩]⟩
      [ch '"', 0, ch 'x', ch '4', ch '1', 0, 0] [.hex (ch '4') (ch '1')] := by
  refine ⟨by decide +kernel, ⟨⟨by decide, by decide⟩, trivial⟩, .inr rfl, by decide, by decide, ?_⟩
  rintro ⟨-, hmem⟩
  exact absurd hmem (by decide)

end Aprsc
