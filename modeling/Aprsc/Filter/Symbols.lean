-- SUMMARY: The symbol filter matches the symbols of its lists if the lists survive the 16 bits of their offsets and lengths.
import Aprsc.Filter.Merge
import Mathlib.Algebra.Ring.Int.Defs

/-!
# The symbol filter

A symbol filter keeps no lists. It keeps offsets into its text and lengths, which are of
type `int16_t`, and searches the text with `memchr`. The text is in memory, and a search
with a bad offset or length sees what else is there.
-/

namespace Aprsc

/-! ## Memory -/

/-- The text is at address 0, with a NUL after it. -/
def TextAt (mem : Int → UInt8) (text : Bytes) : Prop :=
  ∀ i : Nat, i ≤ text.length → mem i = text.getD i 0

/-- `memchr`: whether the byte is one of the next `n`. -/
def memchr (mem : Int → UInt8) (c : UInt8) : (n : Nat) → (s : Int) → Bool
  | 0, _ => false
  | n + 1, s => mem s == c || memchr mem c n (s + 1)

/-- The conversion to `size_t`. -/
def sizeT (n : Int) : Nat := (n % 2 ^ 64).toNat

/-- A text alone in memory. -/
def textMem (text : Bytes) (i : Int) : UInt8 := if i < 0 then 0 else text.getD i.toNat 0

theorem memchr_iff {mem : Int → UInt8} {c : UInt8} {n : Nat} {s : Int} :
    memchr mem c n s = true ↔ ∃ i : Nat, i < n ∧ mem (s + i) = c := by
  induction n generalizing s with
  | zero => simp [memchr]
  | succ n ih =>
    rw [memchr, Bool.or_eq_true, beq_iff_eq, ih]
    constructor
    · rintro (h | ⟨i, hi, h⟩)
      · exact ⟨0, by omega, by simpa using h⟩
      · refine ⟨i + 1, by omega, ?_⟩
        rw [← h]
        congr 1
        omega
    · rintro ⟨i, hi, h⟩
      cases i with
      | zero => exact .inl (by simpa using h)
      | succ i =>
        refine .inr ⟨i, by omega, ?_⟩
        rw [← h]
        congr 1
        omega

theorem textAt_textMem (text : Bytes) : TextAt (textMem text) text := by
  intro i hi
  rw [textMem, if_neg (by omega), Int.toNat_natCast]

/-- A search inside the text is one in a part of it. -/
theorem memchr_text {mem : Int → UInt8} {text : Bytes} (hmem : TextAt mem text) {o l : Nat}
    (h : o + l ≤ text.length) (c : UInt8) :
    memchr mem c l o = true ↔ c ∈ (text.drop o).take l := by
  rw [memchr_iff, List.mem_take_iff_getElem]
  constructor
  · rintro ⟨i, hi, hc⟩
    have hget := hmem (o + i) (by omega)
    refine ⟨i, by simp; omega, ?_⟩
    rw [List.getElem_drop, ← hc]
    push_cast at hget
    rw [hget, List.getD_eq_getElem?_getD, List.getElem?_eq_getElem (by omega), Option.getD_some]
  · rintro ⟨i, hi, hc⟩
    simp only [List.length_drop] at hi
    have hget := hmem (o + i) (by omega)
    refine ⟨i, by omega, ?_⟩
    rw [List.getElem_drop] at hc
    push_cast at hget
    rw [hget, List.getD_eq_getElem?_getD, List.getElem?_eq_getElem (by omega), Option.getD_some,
      hc]

/-! ## The filter -/

/-- The offsets and lengths of the lists of a symbol filter. -/
structure SymbolLens where
  len1s : Int
  len1 : Int
  len2s : Int
  len2 : Int
  len3s : Int
  len3 : Int
deriving Repr, DecidableEq

/-- `s` at the next slash, or at the end of the text. -/
def toSlash (text : Bytes) (s : Nat) : Nat := s + ((text.drop s).takeWhile (· != ch '/')).length

/-- The lists of `filter_parse_one_s`, from `s` on. -/
def symbolLens (filt0 : Bytes) (s : Nat) : Option SymbolLens :=
  let len1 := s
  let len2 := toSlash filt0 len1
  if filt0.getD len2 0 = 0 then
    some ⟨int16 len1, int16 (len2 - len1 : Nat), 0, 0, 0, 0⟩
  else
    let len3 := len2 + 1
    let len4 := toSlash filt0 len3
    if filt0.getD len4 0 = 0 then
      some ⟨int16 len1, int16 (len2 - len1 : Nat), int16 len3, int16 (len4 - len3 : Nat), 0, 0⟩
    else
      let len5 := len4 + 1
      let len6 := filt0.length
      if len6 - len5 > 0 ∧ len4 - len3 = 0 then none
      else
        some ⟨int16 len1, int16 (len2 - len1 : Nat), int16 len3, int16 (len4 - len3 : Nat),
          int16 len5, int16 (len6 - len5 : Nat)⟩

/-- `filter_parse_one_s`, as it stores the lists. -/
def filterParseOneSLens (filt0 : Bytes) : Option SymbolLens :=
  let s := if filt0.getD 0 0 = ch '-' then 1 else 0
  let s := if filt0.getD s 0 = ch 's' ∨ filt0.getD s 0 = ch 'S' then s + 1 else s
  if filt0.getD s 0 ≠ ch '/' then none else symbolLens filt0 (s + 1)

/-- `filter_process_one_s`, on the text of the filter in memory. -/
def filterProcessOneSAt (mem : Int → UInt8) (h : SymbolLens) (symbol : UInt8 × UInt8) : Bool :=
  let symtable := if symbol.1 = ch '/' then ch '/' else ch '\\'
  let symcode := symbol.2
  let symolay := if symbol.1 ≠ symtable then symbol.1 else 0
  if h.len1 ≠ 0 ∧ symtable = ch '/' ∧ memchr mem symcode (sizeT h.len1) h.len1s = true then true
  else if h.len3 ≠ 0 then
    memchr mem symolay (sizeT h.len3) h.len3s && memchr mem symcode (sizeT h.len2) h.len2s
  else
    h.len2 ≠ 0 && symtable = ch '\\' && memchr mem symcode (sizeT h.len2) h.len2s

/-! ## What it is for -/

/-- A character that stands for an overlay. -/
def IsOverlay (b : UInt8) : Prop := b ≠ ch '/' ∧ b ≠ ch '\\'

/-- The symbols of three lists. -/
def SymbolIn (pri alt olay : Bytes) (symbol : UInt8 × UInt8) : Prop :=
  (symbol.1 = ch '/' ∧ symbol.2 ∈ pri) ∨
    (olay = [] ∧ symbol.1 ≠ ch '/' ∧ symbol.2 ∈ alt) ∨
    (olay ≠ [] ∧ IsOverlay symbol.1 ∧ symbol.1 ∈ olay ∧ symbol.2 ∈ alt)

/-- The part of the text that an offset and a length of 16 bits give. -/
def part16 (text : Bytes) (o l : Nat) : Bytes :=
  (text.drop (int16 o).toNat).take (int16 l).toNat

/-- An offset and a length of 16 bits delimit the characters of a list, as far as they
matter. -/
def Delimits (text : Bytes) (Matters : UInt8 → Prop) (o : Nat) (list : Bytes) : Prop :=
  list = [] ∨ 0 ≤ int16 o ∧ 0 < int16 list.length ∧
    ∀ b, Matters b → (b ∈ part16 text o list.length ↔ b ∈ list)

/-- There is no character for an overlay in the list. -/
def OnlySlashes (olay : Bytes) : Prop := olay ≠ [] ∧ ∀ b ∈ olay, ¬IsOverlay b

/-- The offsets and lengths delimit the characters of the lists. If there are only slashes
in place of overlays, the alternate table does not come up. -/
def ListsFit (text : Bytes) (o : Nat) (pri alt olay : Bytes) : Prop :=
  Delimits text (fun _ => True) o pri ∧
    (OnlySlashes olay ∧
        (int16 alt.length = 0 ∨
          Delimits text IsOverlay (o + pri.length + 1 + alt.length + 1) olay) ∨
      ¬OnlySlashes olay ∧ Delimits text (fun _ => True) (o + pri.length + 1) alt ∧
        Delimits text IsOverlay (o + pri.length + 1 + alt.length + 1) olay)

/-! ## Searches with 16 bits -/

theorem int16_lower (n : Int) : -2 ^ 15 ≤ int16 n ∧ int16 n < 2 ^ 15 := by
  simp only [int16, Int.bmod]
  omega

/-- A length of 16 bits as a size. -/
theorem sizeT_int16 (n : Nat) :
    (int16 n < 0 → 2 ^ 63 ≤ sizeT (int16 n)) ∧ (0 ≤ int16 n → sizeT (int16 n) = (int16 n).toNat) := by
  have hlower := int16_lower n
  unfold sizeT
  omega

section
variable {text list : Bytes} {mem : Int → UInt8} {o : Nat}

/-- What a search for a byte of a list comes to. -/
def finds (mem : Int → UInt8) (o : Nat) (list : Bytes) (b : UInt8) : Bool :=
  memchr mem b (sizeT (int16 list.length)) (int16 o)

/-- An offset and a length that are not negative stay in the text. -/
theorem finds_of_nonneg (hmem : TextAt mem text) (hspan : o + list.length ≤ text.length)
    (ho : 0 ≤ int16 o) (hl : 0 ≤ int16 list.length) (b : UInt8) :
    finds mem o list b = true ↔ b ∈ part16 text o list.length := by
  have hole := int16_le o
  have hlle := int16_le list.length
  rw [finds, (sizeT_int16 list.length).2 hl, part16, ← memchr_text hmem (by omega),
    Int.toNat_of_nonneg ho]

theorem finds_nil (mem : Int → UInt8) (o : Nat) (b : UInt8) : finds mem o [] b = false := rfl

theorem memchr_zero (mem : Int → UInt8) (o s : Nat) (b : UInt8) :
    memchr mem b (sizeT 0) s = finds mem o [] b := by
  rw [finds_nil]
  rfl

/-- A text of a list that is not delimited well is searched for too long or in front of the
text, where there is a NUL. -/
theorem finds_nul (hlen : text.length < 2 ^ 31) (hspan : o + list.length ≤ text.length)
    (hl : int16 list.length ≠ 0) (hbad : int16 o < 0 ∨ int16 list.length < 0) :
    finds (textMem text) o list 0 = true := by
  have hole := int16_le o
  have holower := (int16_lower o).1
  rw [finds, memchr_iff]
  obtain hneg | ho := Int.lt_or_le (int16 o) 0
  · refine ⟨0, ?_, ?_⟩
    · have hsize := sizeT_int16 list.length
      omega
    · rw [textMem, if_pos (by omega)]
  · have hsize := (sizeT_int16 list.length).1 (by omega)
    refine ⟨text.length - (int16 o).toNat, by omega, ?_⟩
    have hend : int16 o + (text.length - (int16 o).toNat : Nat) = text.length := by omega
    rw [hend, textAt_textMem text text.length (Nat.le_refl _), List.getD_eq_getElem?_getD,
      List.getElem?_eq_none (Nat.le_refl _)]
    rfl

/-- In a text alone in memory, the searches find a list only if its offset and length
delimit it. -/
theorem delimits_of_finds {Matters : UInt8 → Prop} (hnul : Matters 0) (h0 : 0 ∉ list)
    (hlen : text.length < 2 ^ 31) (hspan : o + list.length ≤ text.length)
    (hl : int16 list.length ≠ 0)
    (h : ∀ b, Matters b → (finds (textMem text) o list b = true ↔ b ∈ list)) :
    Delimits text Matters o list := by
  have hgood : ¬(int16 o < 0 ∨ int16 list.length < 0) := fun hbad =>
    h0 ((h 0 hnul).mp (finds_nul hlen hspan hl hbad))
  refine .inr ⟨by omega, by omega, fun b hb => ?_⟩
  rw [← finds_of_nonneg (textAt_textMem text) hspan (by omega) (by omega), h b hb]

/-- The searches find a list that is delimited, whatever else is in memory. -/
theorem Delimits.finds {Matters : UInt8 → Prop} (h : Delimits text Matters o list)
    (hmem : TextAt mem text) (hspan : list ≠ [] → o + list.length ≤ text.length) {b : UInt8}
    (hb : Matters b) : finds mem o list b = true ↔ b ∈ list := by
  obtain rfl | ⟨ho, hl, hsame⟩ := h
  · rw [finds_nil]
    simp
  · have hne : list ≠ [] := by
      rintro rfl
      exact absurd hl (by decide)
    rw [finds_of_nonneg hmem (hspan hne) ho (by omega), hsame b hb]

theorem finds_of_zero (hl : int16 list.length = 0) (b : UInt8) : finds mem o list b = false := by
  rw [Aprsc.finds, hl]
  rfl

/-- A search of some length finds something. -/
theorem exists_finds (hl : int16 list.length ≠ 0) : ∃ b, finds mem o list b = true := by
  have hsize := sizeT_int16 list.length
  refine ⟨mem (int16 o + (0 : Nat)), memchr_iff.mpr ⟨0, ?_, rfl⟩⟩
  omega

end

/-! ## The lists -/

/-- The overlay that is looked for. -/
def symolay (table : UInt8) : UInt8 := if table = ch '/' ∨ table = ch '\\' then 0 else table

theorem symolay_eq (table : UInt8) :
    (if table ≠ (if table = ch '/' then ch '/' else ch '\\') then table else 0) =
      symolay table := by
  unfold symolay
  by_cases h1 : table = ch '/'
  · simp [h1]
  · by_cases h2 : table = ch '\\' <;> simp [h1, h2]

theorem isOverlay_symolay (table : UInt8) : IsOverlay (symolay table) := by
  unfold symolay
  split
  · exact ⟨by decide, by decide⟩
  · rename_i h
    exact not_or.mp h

theorem symolay_of_isOverlay {table : UInt8} (h : IsOverlay table) : symolay table = table :=
  if_neg (not_or.mpr h)

theorem symolay_mem_iff {olay : Bytes} (h0 : 0 ∉ olay) (table : UInt8) :
    symolay table ∈ olay ↔ IsOverlay table ∧ table ∈ olay := by
  unfold symolay
  split
  · rename_i h
    exact iff_of_false h0 fun hin => not_or.mpr hin.1 h
  · rename_i h
    exact ⟨fun hin => ⟨not_or.mp h, hin⟩, fun hin => hin.2⟩

/-- The offsets and lengths are those of the lists. -/
structure LensOf (h : SymbolLens) (o : Nat) (pri alt olay : Bytes) : Prop where
  pri_eq : ∀ mem c, memchr mem c (sizeT h.len1) h.len1s = finds mem o pri c
  alt_eq : ∀ mem c, memchr mem c (sizeT h.len2) h.len2s = finds mem (o + pri.length + 1) alt c
  olay_eq : ∀ mem c, memchr mem c (sizeT h.len3) h.len3s =
    finds mem (o + pri.length + 1 + alt.length + 1) olay c
  len3_eq : h.len3 = int16 olay.length

section
variable {h : SymbolLens} {text pri alt olay : Bytes} {o : Nat}

/-- The searches that decide a match. -/
theorem LensOf.process_iff (hlens : LensOf h o pri alt olay) (mem : Int → UInt8)
    (symbol : UInt8 × UInt8) :
    filterProcessOneSAt mem h symbol = true ↔
      (symbol.1 = ch '/' ∧ finds mem o pri symbol.2 = true) ∨
        (int16 olay.length ≠ 0 ∧
          finds mem (o + pri.length + 1 + alt.length + 1) olay (symolay symbol.1) = true ∧
          finds mem (o + pri.length + 1) alt symbol.2 = true) ∨
        (int16 olay.length = 0 ∧ symbol.1 ≠ ch '/' ∧
          finds mem (o + pri.length + 1) alt symbol.2 = true) := by
  obtain ⟨table, code⟩ := symbol
  have hzero : ∀ n s c, memchr mem c (sizeT n) s = true → n ≠ 0 := by
    rintro n s c hfound rfl
    cases hfound
  have hslash : ¬ch '\\' = ch '/' := by decide
  rw [← hlens.pri_eq, ← hlens.alt_eq, ← hlens.olay_eq, ← hlens.len3_eq]
  unfold filterProcessOneSAt
  dsimp only
  rw [symolay_eq]
  by_cases htable : table = ch '/'
  · rw [if_pos htable]
    split
    · rename_i hpri
      exact iff_of_true rfl (.inl ⟨htable, hpri.2.2⟩)
    · rename_i hpri
      have hno : ¬memchr mem code (sizeT h.len1) h.len1s = true := fun hfound =>
        hpri ⟨hzero _ _ _ hfound, rfl, hfound⟩
      split
      · rename_i h3
        simp [hno, h3]
      · rename_i h3
        simp [hno, not_not.mp h3, htable, Ne.symm hslash]
  · rw [if_neg htable, if_neg fun hpri => hslash hpri.2.1]
    split
    · rename_i h3
      simp [htable, h3]
    · rename_i h3
      have hgate : ∀ c, (h.len2 ≠ 0 ∧ memchr mem c (sizeT h.len2) h.len2s = true) ↔
          memchr mem c (sizeT h.len2) h.len2s = true := fun c =>
        and_iff_right_of_imp (hzero _ _ _)
      simpa [htable, not_not.mp h3] using hgate code

theorem Delimits.length_pos {Matters : UInt8 → Prop} {list : Bytes}
    (hfit : Delimits text Matters o list) (hne : list ≠ []) : 0 < int16 list.length :=
  (hfit.resolve_left hne).2.1

/-- The lists are in the text. -/
structure InText (text : Bytes) (o : Nat) (pri alt olay : Bytes) : Prop where
  length_lt : text.length < 2 ^ 31
  pri_nul : 0 ∉ pri
  alt_nul : 0 ∉ alt
  olay_nul : 0 ∉ olay
  pri_le : o + pri.length ≤ text.length
  alt_le : alt ≠ [] → o + pri.length + 1 + alt.length ≤ text.length
  olay_le : olay ≠ [] → o + pri.length + 1 + alt.length + 1 + olay.length ≤ text.length
  pri_text : (text.drop o).take pri.length = pri
  alt_text : alt ≠ [] → (text.drop (o + pri.length + 1)).take alt.length = alt
  olay_text : olay ≠ [] →
    (text.drop (o + pri.length + 1 + alt.length + 1)).take olay.length = olay
  /-- An overlay goes with a symbol of the alternate table. -/
  alt_ne : olay ≠ [] → alt ≠ []

/-- Every list of a text that is not too long is delimited. -/
theorem InText.listsFit (hin : InText text o pri alt olay) (hshort : text.length ≤ 32767) :
    ListsFit text o pri alt olay := by
  have hdelim : ∀ (Matters : UInt8 → Prop) (o : Nat) (list : Bytes),
      (list ≠ [] → o + list.length ≤ text.length) →
      (list ≠ [] → (text.drop o).take list.length = list) → Delimits text Matters o list := by
    intro Matters o list hle hpart
    refine or_iff_not_imp_left.mpr fun hne => ?_
    have hle' := hle hne
    have hpos := List.length_pos_of_ne_nil hne
    have ho : int16 o = o := int16_of_le (by omega) (by unfold int16Max; omega)
    have hl : int16 list.length = list.length := int16_of_le (by omega) (by unfold int16Max; omega)
    rw [part16, ho, hl, Int.toNat_natCast, Int.toNat_natCast, hpart hne]
    exact ⟨by omega, by omega, fun _ _ => Iff.rfl⟩
  refine ⟨hdelim _ _ _ (fun _ => hin.pri_le) fun _ => hin.pri_text, ?_⟩
  by_cases honly : OnlySlashes olay
  · exact .inl ⟨honly, .inr (hdelim _ _ _ hin.olay_le hin.olay_text)⟩
  · exact .inr ⟨honly, hdelim _ _ _ hin.alt_le hin.alt_text,
      hdelim _ _ _ hin.olay_le hin.olay_text⟩

/-- The model of the filter on its lists. -/
theorem InText.filterProcessOneS_iff (hin : InText text o pri alt olay) (pb : FilterPacket) :
    filterProcessOneS pb pri alt olay = true ↔ SymbolIn pri alt olay pb.symbol := by
  have hslash : ¬ch '\\' = ch '/' := by decide
  unfold filterProcessOneS SymbolIn
  generalize pb.symbol = symbol
  obtain ⟨table, code⟩ := symbol
  dsimp only
  have holay := symolay_mem_iff hin.olay_nul table
  rw [symolay_eq]
  by_cases htable : table = ch '/'
  · have hno : ¬IsOverlay table := fun h => h.1 htable
    have hmem : symolay table ∉ olay := fun h => hno (holay.mp h).1
    simp [htable, Ne.symm hslash, htable ▸ hmem, htable ▸ hno]
  · by_cases hne : olay = []
    · simp [htable, hslash, hne]
    · simp [htable, hslash, hne, holay, and_assoc]

/-- The filter matches the symbols of lists that are delimited. -/
theorem LensOf.process_of_listsFit (hlens : LensOf h o pri alt olay)
    (hin : InText text o pri alt olay) (hfit : ListsFit text o pri alt olay)
    {mem : Int → UInt8} (hmem : TextAt mem text) (symbol : UInt8 × UInt8) :
    filterProcessOneSAt mem h symbol = true ↔ SymbolIn pri alt olay symbol := by
  obtain ⟨hdpri, hlists⟩ := hfit
  have holay : ∀ table, Delimits text IsOverlay (o + pri.length + 1 + alt.length + 1) olay →
      (finds mem (o + pri.length + 1 + alt.length + 1) olay (symolay table) = true ↔
        IsOverlay table ∧ table ∈ olay) := fun table hd =>
    (hd.finds hmem hin.olay_le (isOverlay_symolay table)).trans (symolay_mem_iff hin.olay_nul table)
  rw [hlens.process_iff, hdpri.finds hmem (fun _ => hin.pri_le) trivial]
  unfold SymbolIn
  refine or_congr Iff.rfl ?_
  obtain ⟨⟨hne, honly⟩, hempty⟩ | ⟨-, hdalt, hdolay⟩ := hlists
  · refine iff_of_false ?_ ?_
    · rintro (⟨-, hs, ha⟩ | ⟨hzero, -, ha⟩)
      · obtain hzero | hdolay := hempty
        · rw [finds_of_zero hzero] at ha
          cases ha
        · obtain ⟨h1, h2⟩ := (holay _ hdolay).mp hs
          exact honly _ h2 h1
      · obtain hzero' | hdolay := hempty
        · rw [finds_of_zero hzero'] at ha
          cases ha
        · exact absurd hzero (Int.ne_of_gt (hdolay.length_pos hne))
    · rintro (⟨hnil, -⟩ | ⟨-, h1, h2, -⟩)
      · exact hne hnil
      · exact honly _ h2 h1
  · rw [hdalt.finds hmem hin.alt_le trivial, holay _ hdolay]
    by_cases hne : olay = []
    · subst hne
      simp [int16]
    · have hpos := hdolay.length_pos hne
      simp [hne, Int.ne_of_gt hpos, and_assoc]

/-! ### Searches that match the listed symbols -/

/-- In the text alone, the searches find the symbols of the lists. -/
def SearchesMatch (text : Bytes) (o : Nat) (pri alt olay : Bytes) : Prop :=
  ∀ table code,
    (table = ch '/' ∧ finds (textMem text) o pri code = true) ∨
      (int16 olay.length ≠ 0 ∧
        finds (textMem text) (o + pri.length + 1 + alt.length + 1) olay (symolay table) = true ∧
        finds (textMem text) (o + pri.length + 1) alt code = true) ∨
      (int16 olay.length = 0 ∧ table ≠ ch '/' ∧
        finds (textMem text) (o + pri.length + 1) alt code = true) ↔
    SymbolIn pri alt olay (table, code)

/-- A symbol of the alternate table without an overlay does not match if there are overlays. -/
theorem not_symbolIn_plain (hne : olay ≠ []) (code : UInt8) :
    ¬SymbolIn pri alt olay (ch '\\', code) := by
  rintro (⟨ht, -⟩ | ⟨hemp, -⟩ | ⟨-, ht, -⟩)
  · exact absurd (show ch '\\' = ch '/' from ht) (by decide)
  · exact hne hemp
  · exact ht.2 rfl

theorem int16_length_ne_zero {o : Nat} {list : Bytes} {b : UInt8}
    (hfound : finds (textMem text) o list b = true) : int16 list.length ≠ 0 := by
  intro hzero
  rw [finds_of_zero hzero] at hfound
  cases hfound

/-- A list whose characters are found is delimited. -/
theorem delimits_of_finds_iff {Matters : UInt8 → Prop} {o : Nat} {list : Bytes} (hm : Matters 0)
    (hlen : text.length < 2 ^ 31) (h0 : 0 ∉ list) (hle : list ≠ [] → o + list.length ≤ text.length)
    (hl : list ≠ [] → int16 list.length ≠ 0)
    (hfound : ∀ b, Matters b → (finds (textMem text) o list b = true ↔ b ∈ list)) :
    Delimits text Matters o list := by
  by_cases hne : list = []
  · exact .inl hne
  · exact delimits_of_finds hm h0 hlen (hle hne) (hl hne) hfound

namespace SearchesMatch

variable (hs : SearchesMatch text o pri alt olay)
include hs

/-- With overlays, the search for symbols without one finds nothing. -/
theorem no_plain (hne : olay ≠ []) {code : UInt8}
    (hcode : finds (textMem text) (o + pri.length + 1) alt code = true) :
    int16 olay.length ≠ 0 ∧
      finds (textMem text) (o + pri.length + 1 + alt.length + 1) olay 0 = false := by
  have hplain := mt (hs (ch '\\') code).mp (not_symbolIn_plain hne code)
  have hback : symolay (ch '\\') = 0 := by decide
  rw [hback] at hplain
  have hlen : int16 olay.length ≠ 0 := fun hzero =>
    hplain (.inr (.inr ⟨hzero, by decide, hcode⟩))
  refine ⟨hlen, Bool.eq_false_iff.mpr fun hfound => ?_⟩
  exact hplain (.inr (.inl ⟨hlen, hfound, hcode⟩))

theorem pri_iff (b : UInt8) : finds (textMem text) o pri b = true ↔ b ∈ pri := by
  have hb := hs (ch '/') b
  constructor
  · intro hfound
    obtain ⟨-, hin⟩ | ⟨-, ht, -⟩ | ⟨-, ht, -⟩ := hb.mp (.inl ⟨rfl, hfound⟩)
    · exact hin
    · exact absurd rfl ht
    · exact absurd rfl ht.1
  · intro hin
    obtain ⟨-, hfound⟩ | ⟨hlen, hsearch, hcode⟩ | ⟨-, ht, -⟩ := hb.mpr (.inl ⟨rfl, hin⟩)
    · exact hfound
    · have hne : olay ≠ [] := by
        rintro rfl
        exact hlen rfl
      have hfront : symolay (ch '/') = 0 := by decide
      rw [hfront, (hs.no_plain hne hcode).2] at hsearch
      cases hsearch
    · exact absurd rfl ht

theorem delimits_pri (hin : InText text o pri alt olay) : Delimits text (fun _ => True) o pri := by
  refine delimits_of_finds_iff trivial hin.length_lt hin.pri_nul (fun _ => hin.pri_le)
    (fun hne => ?_) fun b _ => hs.pri_iff b
  obtain ⟨b, hb⟩ := List.exists_mem_of_ne_nil pri hne
  exact int16_length_ne_zero ((hs.pri_iff b).mpr hb)

/-- Without overlays, the symbols of the alternate table are looked for. -/
theorem delimits_alt (hin : InText text o pri alt olay) (hnil : olay = []) :
    Delimits text (fun _ => True) (o + pri.length + 1) alt := by
  have halt : ∀ b, finds (textMem text) (o + pri.length + 1) alt b = true ↔ b ∈ alt := by
    intro b
    have hslash : ¬ch '\\' = ch '/' := by decide
    have hb := hs (ch '\\') b
    subst hnil
    simpa [SymbolIn, hslash, int16] using hb
  refine delimits_of_finds_iff trivial hin.length_lt hin.alt_nul hin.alt_le (fun hne => ?_)
    fun b _ => halt b
  obtain ⟨b, hb⟩ := List.exists_mem_of_ne_nil alt hne
  exact int16_length_ne_zero ((halt b).mpr hb)

/-- With overlays, a symbol with one is looked for in both lists. -/
theorem overlay_iff (hlen : int16 olay.length ≠ 0) {table : UInt8} (hov : IsOverlay table)
    (code : UInt8) :
    finds (textMem text) (o + pri.length + 1 + alt.length + 1) olay table = true ∧
        finds (textMem text) (o + pri.length + 1) alt code = true ↔
      table ∈ olay ∧ code ∈ alt := by
  have hne : olay ≠ [] := by
    rintro rfl
    exact hlen rfl
  have hb := hs table code
  rw [symolay_of_isOverlay hov] at hb
  simpa [SymbolIn, hov, hov.1, hne, hlen] using hb

/-- The list of overlays is delimited if a symbol of the alternate table is found. -/
theorem delimits_olay (hin : InText text o pri alt olay) (hne : olay ≠ []) {code : UInt8}
    (hcode : finds (textMem text) (o + pri.length + 1) alt code = true)
    (halt : (∀ b ∈ olay, ¬IsOverlay b) ∨ code ∈ alt) :
    Delimits text IsOverlay (o + pri.length + 1 + alt.length + 1) olay := by
  have hlen := (hs.no_plain hne hcode).1
  refine delimits_of_finds_iff ⟨by decide, by decide⟩ hin.length_lt hin.olay_nul hin.olay_le
    (fun _ => hlen) fun b hb => ?_
  constructor
  · exact fun hfound => ((hs.overlay_iff hlen hb code).mp ⟨hfound, hcode⟩).1
  · intro hmem
    have hin := halt.resolve_left fun hnone => hnone b hmem hb
    exact ((hs.overlay_iff hlen hb code).mpr ⟨hmem, hin⟩).1

theorem listsFit (hin : InText text o pri alt olay) : ListsFit text o pri alt olay := by
  refine ⟨hs.delimits_pri hin, ?_⟩
  by_cases hne : olay = []
  · exact .inr ⟨fun h => h.1 hne, hs.delimits_alt hin hne, .inl hne⟩
  by_cases honly : ∀ b ∈ olay, ¬IsOverlay b
  · refine .inl ⟨⟨hne, honly⟩, or_iff_not_imp_left.mpr fun hz => ?_⟩
    obtain ⟨code, hcode⟩ := exists_finds hz
    exact hs.delimits_olay hin hne hcode (.inl honly)
  · obtain ⟨table, htable, hov⟩ : ∃ b ∈ olay, IsOverlay b := by
      by_contra hno
      exact honly fun b hb hov => hno ⟨b, hb, hov⟩
    obtain ⟨code, hcode⟩ := List.exists_mem_of_ne_nil alt (hin.alt_ne hne)
    -- A symbol that is listed with its overlay is found in both lists.
    obtain ⟨hlen, hsearch, ha⟩ : int16 olay.length ≠ 0 ∧
        finds (textMem text) (o + pri.length + 1 + alt.length + 1) olay table = true ∧
        finds (textMem text) (o + pri.length + 1) alt code = true := by
      have hb := (hs table code).mpr (.inr (.inr ⟨hne, hov, htable, hcode⟩))
      rw [symolay_of_isOverlay hov] at hb
      obtain ⟨ht, -⟩ | hfound | ⟨hzero, -, ha⟩ := hb
      · exact absurd ht hov.1
      · exact hfound
      · exact absurd hzero (hs.no_plain hne ha).1
    refine .inr ⟨fun h => h.2 table htable hov, ?_, hs.delimits_olay hin hne ha (.inr hcode)⟩
    refine delimits_of_finds_iff trivial hin.length_lt hin.alt_nul hin.alt_le
      (fun _ => int16_length_ne_zero ha) fun b _ => ?_
    constructor
    · exact fun hb => ((hs.overlay_iff hlen hov b).mp ⟨hsearch, hb⟩).2
    · exact fun hb => ((hs.overlay_iff hlen hov b).mpr ⟨htable, hb⟩).2

end SearchesMatch

/-- A filter that matches the symbols of its lists has them delimited. -/
theorem LensOf.listsFit_of_process (hlens : LensOf h o pri alt olay)
    (hin : InText text o pri alt olay)
    (hmatch : ∀ symbol, filterProcessOneSAt (textMem text) h symbol = true ↔
      SymbolIn pri alt olay symbol) : ListsFit text o pri alt olay := by
  have hs : SearchesMatch text o pri alt olay := fun table code =>
    (hlens.process_iff (textMem text) (table, code)).symm.trans (hmatch (table, code))
  exact hs.listsFit hin

end

/-! ## The text -/

section
variable {filt0 rest pri alt olay : Bytes} {o : Nat}

/-- The text up to a slash, and what is after it. -/
theorem dropWhile_slash (s : Bytes) :
    s.dropWhile (· != ch '/') = [] ∨ ∃ t, s.dropWhile (· != ch '/') = ch '/' :: t := by
  induction s with
  | nil => exact .inl rfl
  | cons b s ih =>
    by_cases hb : b = ch '/'
    · exact .inr ⟨s, by simp [hb]⟩
    · simpa [hb] using ih

/-- A part of the text is followed by a slash or by the end. -/
theorem toSlash_of_drop {s : Nat} (hdrop : filt0.drop s = rest) :
    toSlash filt0 s = s + (rest.takeWhile (· != ch '/')).length ∧
      filt0.drop (toSlash filt0 s) = rest.dropWhile (· != ch '/') := by
  have hlen : rest.drop (rest.takeWhile (· != ch '/')).length = rest.dropWhile (· != ch '/') := by
    conv_lhs => arg 2; rw [← List.takeWhile_append_dropWhile (p := (· != ch '/')) (l := rest)]
    exact List.drop_left
  rw [toSlash, hdrop]
  exact ⟨rfl, by rw [← List.drop_drop, hdrop, hlen]⟩

theorem getD_zero_of_drop {s : Nat} (hdrop : filt0.drop s = rest) :
    filt0.getD s 0 = rest.headD 0 := by
  rw [← hdrop, List.getD_eq_getElem?_getD, List.headD_eq_head?_getD, List.head?_drop]

theorem take_length_takeWhile (s : Bytes) :
    s.take (s.takeWhile (· != ch '/')).length = s.takeWhile (· != ch '/') := by
  conv_lhs => arg 2; rw [← List.takeWhile_append_dropWhile (p := (· != ch '/')) (l := s)]
  exact List.take_left

theorem length_takeWhile_add (s : Bytes) :
    (s.takeWhile (· != ch '/')).length + (s.dropWhile (· != ch '/')).length = s.length := by
  rw [← List.length_append, List.takeWhile_append_dropWhile]

/-- The offsets and lengths are those of the lists of `filter_parse_one_s`. -/
theorem lens_of_lists (hdrop : filt0.drop o = rest) (h0 : 0 ∉ filt0)
    (hlen : filt0.length < 2 ^ 31) (ho : o ≤ filt0.length)
    (hs : filterParseOneS (ch '/' :: rest) = some (.symbols pri alt olay)) :
    ∃ h, symbolLens filt0 o = some h ∧ LensOf h o pri alt olay ∧ InText filt0 o pri alt olay := by
  have hsub : ∀ {s : Bytes}, s.Sublist rest → 0 ∉ s := fun hsub hin =>
    h0 (List.mem_of_mem_drop (hdrop ▸ hsub.mem hin))
  have hrest : rest.length = filt0.length - o := by rw [← hdrop, List.length_drop]
  obtain ⟨hlen2, hdrop2⟩ := toSlash_of_drop hdrop
  have hpri := length_takeWhile_add rest
  have hpritext : (filt0.drop o).take (rest.takeWhile (· != ch '/')).length =
      rest.takeWhile (· != ch '/') := by
    rw [hdrop, take_length_takeWhile]
  unfold symbolLens
  dsimp only
  rw [getD_zero_of_drop hdrop2]
  unfold filterParseOneS at hs
  rw [List.head?_cons, if_neg (not_not_intro rfl), List.drop_succ_cons, List.drop_zero] at hs
  obtain hnil | ⟨r1, hr1⟩ := dropWhile_slash rest
  · rw [hnil, List.drop_nil] at hs
    cases hs
    rw [hnil, List.headD_nil, if_pos rfl, hlen2, Nat.add_sub_cancel_left]
    rw [hnil, List.length_nil] at hpri
    refine ⟨_, rfl, ⟨fun _ _ => by rw [finds], fun mem => memchr_zero mem _ 0,
      fun mem => memchr_zero mem _ 0, rfl⟩, ?_⟩
    exact ⟨hlen, hsub (List.takeWhile_sublist _), nofun, nofun, by omega,
      fun h => absurd rfl h, fun h => absurd rfl h, hpritext, fun h => absurd rfl h,
      fun h => absurd rfl h, fun h => absurd rfl h⟩
  · have hdrop3 : filt0.drop (toSlash filt0 o + 1) = r1 := by
      rw [← List.drop_drop, hdrop2, hr1, List.drop_succ_cons, List.drop_zero]
    obtain ⟨hlen4, hdrop4⟩ := toSlash_of_drop hdrop3
    have halt := length_takeWhile_add r1
    have halttext : (filt0.drop (o + (rest.takeWhile (· != ch '/')).length + 1)).take
        (r1.takeWhile (· != ch '/')).length = r1.takeWhile (· != ch '/') := by
      rw [← hlen2, hdrop3, take_length_takeWhile]
    have hsub1 : r1.Sublist rest :=
      (List.sublist_cons_self _ _).trans (hr1 ▸ List.dropWhile_sublist _)
    rw [hr1, List.length_cons] at hpri
    rw [hr1, List.drop_succ_cons, List.drop_zero] at hs
    dsimp only at hs
    rw [hr1, List.headD_cons, if_neg (by decide), getD_zero_of_drop hdrop4]
    obtain hnil | ⟨r2, hr2⟩ := dropWhile_slash r1
    · rw [hnil, List.drop_nil] at hs
      cases hs
      rw [hnil, List.headD_nil, if_pos rfl, hlen4, hlen2, Nat.add_sub_cancel_left,
        Nat.add_sub_cancel_left]
      rw [hnil, List.length_nil] at halt
      refine ⟨_, rfl, ⟨fun _ _ => by rw [finds], fun _ _ => by rw [finds], fun mem => memchr_zero mem _ 0, rfl⟩, ?_⟩
      exact ⟨hlen, hsub (List.takeWhile_sublist _),
        hsub ((List.takeWhile_sublist _).trans hsub1), nofun, by omega, fun _ => by omega,
        fun h => absurd rfl h, hpritext, fun _ => halttext, fun h => absurd rfl h,
        fun h => absurd rfl h⟩
    · have hdrop5 : filt0.drop (toSlash filt0 (toSlash filt0 o + 1) + 1) = r2 := by
        rw [← List.drop_drop, hdrop4, hr2, List.drop_succ_cons, List.drop_zero]
      have hsub2 : r2.Sublist rest :=
        ((List.sublist_cons_self _ _).trans (hr2 ▸ List.dropWhile_sublist _)).trans hsub1
      have holay : filt0.length - (toSlash filt0 (toSlash filt0 o + 1) + 1) = r2.length := by
        rw [← hdrop5, List.length_drop]
      have holaytext : (filt0.drop (o + (rest.takeWhile (· != ch '/')).length + 1 +
          (r1.takeWhile (· != ch '/')).length + 1)).take r2.length = r2 := by
        rw [← hlen2, ← hlen4, hdrop5, List.take_length]
      rw [hr2, List.length_cons] at halt
      rw [hr2, List.drop_succ_cons, List.drop_zero] at hs
      split at hs
      · cases hs
      · rename_i hboth
        cases hs
        rw [hr2, List.headD_cons, if_neg (by decide), holay, hlen4, hlen2,
          Nat.add_sub_cancel_left, Nat.add_sub_cancel_left, if_neg ?_]
        · refine ⟨_, rfl, ⟨fun _ _ => by rw [finds], fun _ _ => by rw [finds], fun _ _ => by rw [finds],
            by dsimp only⟩, ?_⟩
          exact ⟨hlen, hsub (List.takeWhile_sublist _),
            hsub ((List.takeWhile_sublist _).trans hsub1), hsub hsub2, by omega,
            fun _ => by omega, fun _ => by omega, hpritext, fun _ => halttext,
            fun _ => holaytext, fun h1 h2 => hboth ⟨h1, h2⟩⟩
        · rintro ⟨hpos, hzero⟩
          exact hboth ⟨List.ne_nil_of_length_pos hpos, List.length_eq_zero_iff.mp hzero⟩

theorem filterParseOneS_cons {s : Bytes} (hs : filterParseOneS s = some (.symbols pri alt olay)) :
    ∃ rest, s = ch '/' :: rest := by
  cases s with
  | nil => cases hs
  | cons b s =>
    unfold filterParseOneS at hs
    split at hs
    · cases hs
    · rename_i hb
      exact ⟨s, by simpa using hb⟩

theorem tolower_eq_s {b : UInt8} (h : tolower b = ch 's') : b = ch 's' ∨ b = ch 'S' := by
  have hall : ∀ n : Fin 256, tolower (UInt8.ofNat n) = ch 's' →
      UInt8.ofNat n = ch 's' ∨ UInt8.ofNat n = ch 'S' := by decide +kernel
  have hb := hall ⟨b.toNat, b.toNat_lt⟩
  rw [UInt8.ofNat_toNat] at hb
  exact hb h

/-- A symbol filter that is accepted starts with its letter and a slash. -/
theorem ownFilter_symbols {env : FilterEnv} {f : FilterT} (hf : ownFilter env filt0 = some f)
    (hbody : f.body = .symbols pri alt olay) :
    ∃ b rest, (b = ch 's' ∨ b = ch 'S') ∧
      (if filt0.head? = some (ch '-') then filt0.drop 1 else filt0) = b :: ch '/' :: rest ∧
      filterParseOneS (ch '/' :: rest) = some (.symbols pri alt olay) := by
  unfold ownFilter at hf
  generalize (if filt0.head? = some (ch '-') then filt0.drop 1 else filt0) = s at hf ⊢
  dsimp only at hf
  have hnames : ∀ wildok, ((filterParseOneCallsignset s wildok).map fun refs =>
      ({ toFilterText := filterText filt0, type := s.headD 0,
         body := .callsigns refs (int16 refs.length) } : FilterT)) = some f → False := by
    intro wildok h
    obtain ⟨refs, -, rfl⟩ := Option.map_eq_some_iff.mp h
    cases hbody
  split at hf
  · split at hf
    · cases hf
      cases hbody
    · cases hf
  split at hf
  · exact (hnames _ hf).elim
  split at hf
  · exact (hnames _ hf).elim
  split at hf
  · obtain ⟨body, hq, rfl⟩ := Option.map_eq_some_iff.mp hf
    obtain ⟨flags, rfl⟩ := filterParseOneQ_isSet hq
    cases hbody
  split at hf
  · rename_i hletter
    obtain ⟨body, hs, rfl⟩ := Option.map_eq_some_iff.mp hf
    obtain rfl : body = .symbols pri alt olay := hbody
    obtain ⟨rest, hrest⟩ := filterParseOneS_cons hs
    cases s with
    | nil => cases hrest
    | cons b s =>
      obtain rfl : s = ch '/' :: rest := hrest
      exact ⟨b, rest, tolower_eq_s (beq_iff_eq.mp hletter), rfl, hs⟩
  split at hf
  · obtain ⟨r, hr, rfl⟩ := Option.map_eq_some_iff.mp hf
    obtain ⟨flags, hflags, -⟩ := filterParseOneT_isSet hr
    obtain ⟨type, body⟩ := r
    cases hflags
    cases hbody
  split at hf
  · cases hf
    cases hbody
  · cases hf

/-- The primary list is after the letter and a slash. -/
def priStart (filt0 : Bytes) : Nat := if filt0.head? = some (ch '-') then 3 else 2

/-- What `filter_parse_one_s` stores for a filter that is accepted. -/
theorem lens_of_ownFilter {env : FilterEnv} {f : FilterT} (hf : ownFilter env filt0 = some f)
    (hbody : f.body = .symbols pri alt olay) (h0 : 0 ∉ filt0) (hlen : filt0.length < 2 ^ 31) :
    ∃ h, filterParseOneSLens filt0 = some h ∧ LensOf h (priStart filt0) pri alt olay ∧
      InText filt0 (priStart filt0) pri alt olay := by
  obtain ⟨b, rest, hb, hfilt, hs⟩ := ownFilter_symbols hf hbody
  have hminus : ¬b = ch '-' := by
    rintro rfl
    obtain hb | hb := hb <;> exact absurd hb (by decide)
  have hstart : filterParseOneSLens filt0 = symbolLens filt0 (priStart filt0) ∧
      filt0.drop (priStart filt0) = rest ∧ priStart filt0 ≤ filt0.length := by
    unfold priStart filterParseOneSLens
    split at hfilt
    · rename_i hhead
      cases filt0 with
      | nil => cases hhead
      | cons c s =>
        obtain rfl : c = ch '-' := by simpa using hhead
        obtain rfl : s = b :: ch '/' :: rest := hfilt
        simp [hb]
    · subst hfilt
      simp [hb, hminus]
  rw [hstart.1]
  exact lens_of_lists hstart.2.1 h0 hlen hstart.2.2 hs

end

/-- The filter matches the symbols of the lists, whatever else is in memory, if and only if
the offsets and lengths of its lists delimit them in 16 bits. -/
theorem filter_process_one_s_iff {env : FilterEnv} {filt0 pri alt olay : Bytes} {f : FilterT}
    (h0 : 0 ∉ filt0) (hlen : filt0.length < 2 ^ 31) (hf : ownFilter env filt0 = some f)
    (hbody : f.body = .symbols pri alt olay) :
    ∃ h, filterParseOneSLens filt0 = some h ∧
      ((∀ mem, TextAt mem filt0 → ∀ symbol,
          filterProcessOneSAt mem h symbol = true ↔ SymbolIn pri alt olay symbol) ↔
        ListsFit filt0 (priStart filt0) pri alt olay) := by
  obtain ⟨h, hparse, hlens, hin⟩ := lens_of_ownFilter hf hbody h0 hlen
  refine ⟨h, hparse, fun hmatch => ?_, fun hfit mem hmem symbol => ?_⟩
  · exact hlens.listsFit_of_process hin (hmatch _ (textAt_textMem filt0))
  · exact hlens.process_of_listsFit hin hfit hmem symbol

/-- Two lists without slashes. -/
theorem filterParseOneS_two {pri alt : Bytes} (hpri : ch '/' ∉ pri) (halt : ch '/' ∉ alt) :
    filterParseOneS (ch '/' :: (pri ++ ch '/' :: alt)) = some (.symbols pri alt []) := by
  have hkeep : ∀ s : Bytes, ch '/' ∉ s → ∀ b ∈ s, (b != ch '/') = true := fun s hs b hb =>
    bne_iff_ne.mpr fun heq => hs (heq ▸ hb)
  have htake := @List.takeWhile_append_of_pos _ _ _ (ch '/' :: alt) (hkeep pri hpri)
  have hdrop := @List.dropWhile_append_of_pos _ _ _ (ch '/' :: alt) (hkeep pri hpri)
  have halt' := @List.takeWhile_append_of_pos _ _ _ [] (hkeep alt halt)
  have hend := @List.dropWhile_append_of_pos _ _ _ [] (hkeep alt halt)
  rw [List.append_nil] at halt' hend
  simp only [filterParseOneS, List.head?_cons, List.drop_succ_cons, List.drop_zero, htake, hdrop]
  simp [halt', hend]

theorem ownFilter_s (env : FilterEnv) {rest : Bytes} {body : FilterBody}
    (hs : filterParseOneS (ch '/' :: rest) = some body) :
    ownFilter env (ch 's' :: ch '/' :: rest) =
      some ⟨filterText (ch 's' :: ch '/' :: rest), ch 's', body⟩ := by
  have hstart : (if (ch 's' :: ch '/' :: rest).head? = some (ch '-')
      then (ch 's' :: ch '/' :: rest).drop 1 else ch 's' :: ch '/' :: rest) =
        ch 's' :: ch '/' :: rest := if_neg (by decide : ¬some (ch 's') = some (ch '-'))
  unfold ownFilter
  rw [hstart]
  dsimp only
  rw [List.headD_cons, List.drop_succ_cons, List.drop_zero, hs]
  rfl

private def symbolsEnv : FilterEnv where
  parseGeometry _ := false
  parseRange _ := false
  inRange _ _ := false
  filterEntrycallLookup _ := false
  filterWxLookup _ := false

theorem filter_process_one_s_digi :
    ∃ h, filterParseOneSLens (ascii "s/->/#/T") = some h ∧
      ((∀ mem, TextAt mem (ascii "s/->/#/T") → ∀ symbol,
          filterProcessOneSAt mem h symbol = true ↔
            SymbolIn (ascii "->") (ascii "#") (ascii "T") symbol) ↔
        ListsFit (ascii "s/->/#/T") (priStart (ascii "s/->/#/T")) (ascii "->") (ascii "#")
          (ascii "T")) :=
  @filter_process_one_s_iff symbolsEnv _ _ _ _ _ (by decide) (by decide) rfl rfl

/-- The length of the primary list is negative, and the search for `x` goes on to the
alternate list. -/
theorem long_list_runs_over :
    ¬∀ (env : FilterEnv) (filt0 pri alt olay : Bytes) (f : FilterT) (h : SymbolLens)
      (mem : Int → UInt8) (symbol : UInt8 × UInt8),
      0 ∉ filt0 → filt0.length < 2 ^ 31 → ownFilter env filt0 = some f →
      f.body = .symbols pri alt olay → filterParseOneSLens filt0 = some h → TextAt mem filt0 →
      (filterProcessOneSAt mem h symbol = true ↔ SymbolIn pri alt olay symbol) := by
  intro hall
  -- `s/aaa…/x`, with 32768 characters in the primary list.
  obtain ⟨pri, hpri, hlen⟩ : ∃ pri : Bytes, (∀ b ∈ pri, b = ch 'a') ∧ pri.length = 32768 :=
    ⟨List.replicate 32768 (ch 'a'), fun _ => List.eq_of_mem_replicate, List.length_replicate⟩
  have hchar : ∀ b : UInt8, b ≠ ch 'a' → b ∉ pri := fun b hb hin => hb (hpri b hin)
  generalize hfilt : ch 's' :: ch '/' :: (pri ++ ch '/' :: [ch 'x']) = filt0
  have hown : ownFilter symbolsEnv filt0 = some ⟨filterText filt0, ch 's', .symbols pri [ch 'x'] []⟩ :=
    hfilt ▸ ownFilter_s _ (filterParseOneS_two (hchar _ (by decide)) (by decide))
  have hnul : 0 ∉ filt0 := by
    have h0 := hchar 0 (by decide)
    rw [← hfilt]
    simp [ch, h0]
  have hlength : filt0.length = 32772 := by
    rw [← hfilt]
    simp [hlen]
  obtain ⟨h, hlens, hof, -⟩ := lens_of_ownFilter hown rfl hnul (by omega)
  have hx := hall _ _ _ _ _ _ h (textMem filt0) (ch '/', ch 'x') hnul (by omega) hown rfl
    hlens (textAt_textMem _)
  have hyes : filterProcessOneSAt (textMem filt0) h (ch '/', ch 'x') = true := by
    refine (hof.process_iff _ _).mpr (.inl ⟨rfl, memchr_iff.mpr ⟨32769, ?_, ?_⟩⟩)
    · rw [hlen]
      decide
    · have hstart : priStart filt0 = 2 := by
        rw [← hfilt]
        rfl
      have hget : filt0.getD 32771 0 = ch 'x' := by
        rw [← hfilt, List.getD_eq_getElem?_getD, List.getElem?_cons_succ, List.getElem?_cons_succ,
          List.getElem?_append_right (by omega), hlen]
        rfl
      have hat := textAt_textMem filt0 32771 (by omega)
      rw [hstart]
      exact hat.trans hget
  have hno : ¬SymbolIn pri [ch 'x'] [] (ch '/', ch 'x') := by
    rintro (⟨-, hin⟩ | ⟨-, ht, -⟩ | ⟨hne, -⟩)
    · exact hchar _ (by decide) hin
    · exact ht rfl
    · exact hne rfl
  exact hno (hx.mp hyes)

end Aprsc
