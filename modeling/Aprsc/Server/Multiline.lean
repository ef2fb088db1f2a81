-- SUMMARY: Continued lines of a configuration file are read safely if what is kept and the piece after it always fit the buffer.
import Aprsc.Base.Area
import Aprsc.Server.Cfgfile

/-!
# Continued lines

`fgets_multiline` reads a line, takes the white space off its end, and goes on at its end
with the next line if there is a backslash. The space for the next line is worked out from
the length of the last one only. `fgets` stores a piece of at most that size and a NUL.
-/

namespace Aprsc

/-! ## Buffers -/

section
variable {m : Area UInt8} {a p : Int} {xs ys : Bytes}

theorem At.write_before (h : m.At a xs) (hp : a + xs.length ≤ p) : (m.write p ys).At a xs := by
  rw [Area.at_iff] at h ⊢
  intro i x hx
  have hlt := (List.getElem?_eq_some_iff.mp hx).1
  have hnot : ¬p ≤ a + (i : Int) := by omega
  simpa [Area.write, hnot] using h i x hx

theorem at_write (m : Area UInt8) (p : Int) (ys : Bytes) : (m.write p ys).At p ys := by
  rw [Area.at_iff]
  intro i x hx
  have hle : p ≤ p + (i : Int) := by omega
  have hi : (p + (i : Int) - p).toNat = i := by omega
  simp only [Area.write, hi]
  simp [hle, hx]

end

/-! ## The loop -/

/-- A character that is taken off the end of a line. -/
def isTrailing (b : UInt8) : Bool := b == ch '\r' || b == ch '\n' || b == ch ' ' || b == ch '\t'

/-- A line without the white space at its end. -/
def strip (s : Bytes) : Bytes := (s.reverse.dropWhile isTrailing).reverse

/-- What the loop of `fgets_multiline` keeps of a piece: its first character stays. -/
def trimTail : Bytes → Bytes
  | [] => []
  | b :: s => b :: strip s

/-- The loop of `fgets_multiline`, with the place and the size that `fgets` is called with,
and what is left of the file: the memory if it returns the buffer. -/
def fgetsMultilineLoop (buflen : Nat) : (fuel : Nat) → Area UInt8 → (p left : Int) →
    (file : Bytes) → Traced Access (Option (Option (Area UInt8)))
  | 0, _, _, _, _ => pure none
  | fuel + 1, m, p, left, file =>
      -- `fgets` fails without space, or at the end of the file.
      if left ≤ 0 ∨ (1 < left ∧ file = []) then pure (some none)
      else do
        let len := fgetsLength left.toNat file
        let piece := file.take len
        Traced.tell (.span p (piece.length + 1))
        let s := trimTail (cString piece)
        let m := (m.write p (piece ++ [0])).set (p + s.length) 0
        if (← m.read (p + s.length - 1)) == ch '\\' then do
          Traced.tell (.span (p + s.length - 1) 1)
          fgetsMultilineLoop buflen fuel (m.set (p + s.length - 1) 0) (p + s.length - 1)
            (buflen - (s.length - 1)) (file.drop len)
        else pure (some (some m))

/-- `fgets_multiline`, on a buffer at 0. A round takes at least one byte of the file, unless
it is out of the buffer. -/
def fgetsMultiline (m : Area UInt8) (buflen : Nat) (file : Bytes) :
    Traced Access (Option (Option (Area UInt8))) :=
  fgetsMultilineLoop buflen (file.length + 1) m 0 buflen file

/-! ## What it is for -/

/-- The first line of a file, with its newline. -/
def rawLine (file : Bytes) : Bytes := file.take ((file.takeWhile (· != ch '\n')).length + 1)

/-- The line goes on with the next one. -/
def isContinued (line : Bytes) : Bool := line.getLast? == some (ch '\\')

/-- The lines that are continued and the one after them, without white space at their ends
and without the backslashes. -/
def joinLines : (fuel : Nat) → Bytes → Bytes
  | 0, _ => []
  | fuel + 1, file =>
      let line := strip (rawLine file)
      if isContinued line then line.dropLast ++ joinLines fuel (file.drop (rawLine file).length)
      else line

/-- Each line fits the buffer after those before it. -/
def PiecesFit (buflen : Nat) : (fuel : Nat) → (off : Nat) → Bytes → Prop
  | 0, _, _ => True
  | fuel + 1, off, file =>
      off + (rawLine file).length < buflen ∧
        (isContinued (strip (rawLine file)) = true →
          PiecesFit buflen fuel (off + (strip (rawLine file)).length - 1)
            (file.drop (rawLine file).length))

/-- A continued line is not the last one of the file, no line is blank, and there is no
NUL. -/
def LinesClean : (fuel : Nat) → Bytes → Prop
  | 0, _ => True
  | fuel + 1, file =>
      0 ∉ rawLine file ∧ strip (rawLine file) ≠ [] ∧
        (isContinued (strip (rawLine file)) = true →
          file.drop (rawLine file).length ≠ [] ∧
            LinesClean fuel (file.drop (rawLine file).length))

/-- In each round, what has been kept and the piece after it fit the buffer, and they are
not both empty. The size of a piece is bounded by what the last one leaves. -/
def RoundsFit (buflen : Nat) : (fuel : Nat) → (kept : Bytes) → (left : Int) → Bytes → Prop
  | 0, _, _, _ => True
  | fuel + 1, kept, left, file =>
      file ≠ [] →
        let len := fgetsLength left.toNat file
        let s := trimTail (cString (file.take len))
        kept.length + (file.take len).length < buflen ∧ kept ++ s ≠ [] ∧
          ∀ kept', kept ++ s = kept' ++ [ch '\\'] →
            RoundsFit buflen fuel kept' (buflen - (s.length - 1)) (file.drop len)

/-- The text that is returned in the buffer, or none. -/
def Returned : Option (Option (Area UInt8)) → Option Bytes → Prop
  | some none, none => True
  | some (some m), some s => m.At 0 (s ++ [0]) ∧ 0 ∉ s
  | _, _ => False

/-- What is returned for a file: nothing at its end. -/
def expectedText (file : Bytes) : Option Bytes :=
  if file = [] then none else some (joinLines (file.length + 1) file)

/-- The lines are read inside the buffer, and returned if they fit. -/
structure ReadsSafely (buflen : Nat) (file : Bytes) (t : Traced Access (Option (Option (Area UInt8)))) :
    Prop where
  within : t.All (Access.Within (buflen - 1) fun _ => True)
  ends : t.val ≠ none
  value : PiecesFit buflen (file.length + 1) 0 file → Returned t.val (expectedText file)

/-! ## One round -/

theorem strip_prefix_self (s : Bytes) : strip s <+: s := by
  have h := List.dropWhile_suffix (p := isTrailing) (l := s.reverse)
  rw [← List.reverse_prefix, List.reverse_reverse] at h
  exact h

theorem trimTail_prefix_self (s : Bytes) : trimTail s <+: s := by
  cases s with
  | nil => exact List.prefix_refl []
  | cons b s => exact List.cons_prefix_cons.mpr ⟨rfl, strip_prefix_self s⟩

section
variable {m : Area UInt8} {kept piece : Bytes}

/-- The memory after a round: what was kept, the piece and a NUL. -/
theorem round_at (hm : m.At 0 kept) (piece : Bytes) :
    ((m.write kept.length (piece ++ [0])).set
      (kept.length + (trimTail (cString piece)).length) 0).At 0
        (kept ++ (trimTail (cString piece) ++ [0])) := by
  have hpref : trimTail (cString piece) <+: piece :=
    (trimTail_prefix_self _).trans (List.takeWhile_prefix _)
  generalize trimTail (cString piece) = s at hpref ⊢
  obtain ⟨r, rfl⟩ := hpref
  have hpiece := at_write m kept.length (s ++ r ++ [0])
  obtain ⟨x, tl, htl⟩ := List.exists_cons_of_ne_nil (l := r ++ [0]) (by simp)
  rw [List.append_assoc, htl] at hpiece
  have hset := hpiece.set_mid (y := 0) rfl
  have hsplit : (0 : UInt8) :: tl = [0] ++ tl := rfl
  rw [hsplit, ← List.append_assoc, Area.at_append] at hset
  rw [Area.at_append]
  refine ⟨(At.write_before hm (by omega)).set (.inr (by omega)), ?_⟩
  rw [Int.zero_add, List.append_assoc, htl]
  exact hset.1

/-- The last character that is kept. -/
theorem round_last {s kept' : Bytes} {c : UInt8} (hm : m.At 0 (kept ++ (s ++ [0])))
    (h : kept ++ s = kept' ++ [c]) :
    m.byte (kept.length + s.length - 1) = c ∧ (kept.length : Int) + s.length - 1 = kept'.length := by
  have hlen := congrArg List.length h
  simp only [List.length_append, List.length_singleton] at hlen
  have hpos : (kept.length : Int) + s.length - 1 = kept'.length := by omega
  refine ⟨?_, hpos⟩
  rw [← List.append_assoc, h] at hm
  rw [hpos]
  have hget := hm.byte_eq (i := kept'.length) (x := c) (by simp)
  simpa using hget

end

/-! ## Safety -/

section
variable {m : Area UInt8} {kept file : Bytes} {buflen : Nat} {left : Int}

theorem round_cases (kept s : Bytes) :
    kept ++ s = [] ∨ ∃ kept' c, kept ++ s = kept' ++ [c] := by
  obtain h | ⟨kept', c, h⟩ := List.eq_nil_or_concat (kept ++ s)
  · exact .inl h
  · exact .inr ⟨kept', c, by rw [h, List.concat_eq_append]⟩

/-- The next round has space for a character and a NUL. -/
theorem left_ge {piece : Bytes} (h : kept.length + piece.length < buflen) :
    2 ≤ (buflen : Int) - ((trimTail (cString piece)).length - 1) := by
  have hle := ((trimTail_prefix_self (cString piece)).trans (List.takeWhile_prefix _)).length_le
  omega

/-- The loop stays inside the buffer if and only if its rounds fit. -/
theorem loop_within_iff (fuel : Nat) (hm : m.At 0 kept) (hleft : 2 ≤ left) :
    (fgetsMultilineLoop buflen fuel m kept.length left file).All
        (Access.Within (buflen - 1) fun _ => True) ↔ RoundsFit buflen fuel kept left file := by
  induction fuel generalizing m kept left file with
  | zero => simp [fgetsMultilineLoop, RoundsFit]
  | succ fuel ih =>
    rw [fgetsMultilineLoop, RoundsFit]
    by_cases hfile : file = []
    · rw [if_pos (.inr ⟨by omega, hfile⟩)]
      simp [hfile]
    · rw [if_neg (not_or.mpr ⟨by omega, fun h => hfile h.2⟩), forall_prop_of_true hfile]
      generalize fgetsLength left.toNat file = len
      dsimp only
      rw [Traced.all_bind, Traced.all_tell, Traced.all_bind, Area.all_read, Area.val_read]
      have hround := round_at hm (file.take len)
      have hleft' := @left_ge kept buflen (file.take len)
      have hle := ((trimTail_prefix_self (cString (file.take len))).trans
        (List.takeWhile_prefix _)).length_le
      generalize file.take len = piece at hround hleft' hle ⊢
      generalize hm₂ : (m.write kept.length (piece ++ [0])).set
        (kept.length + (trimTail (cString piece)).length) 0 = m₂ at hround ⊢
      generalize trimTail (cString piece) = s at hround hleft' hle ⊢
      have hfits : Access.Within (buflen - 1) (fun _ => True)
          (.span kept.length (piece.length + 1)) ↔ kept.length + piece.length < buflen := by
        unfold Access.Within
        omega
      rw [hfits]
      refine and_congr_right fun hfit => ?_
      obtain hnil | ⟨kept', c, hc⟩ := round_cases kept s
      · -- the character before the buffer is looked at
        obtain ⟨rfl, rfl⟩ := List.append_eq_nil_iff.mp hnil
        refine iff_of_false (fun h => ?_) fun h => h.1 hnil
        have hstart := h.1.2.1
        dsimp only [List.length_nil] at hstart
        omega
      · obtain ⟨hbyte, hpos⟩ := round_last hround hc
        have hread : Access.Within (buflen - 1) (fun _ => True)
            (.span kept'.length 1) := ⟨by omega, by omega, by omega⟩
        have hne : kept ++ s ≠ [] := by
          rw [hc]
          simp
        rw [hbyte, hpos, and_iff_right hread, and_iff_right hne]
        by_cases hback : c = ch '\\'
        · subst hback
          have hkept : (m₂.set kept'.length 0).At 0 kept' := by
            rw [← List.append_assoc, hc, List.append_assoc, Area.at_append] at hround
            exact hround.1.set (.inr (by omega))
          rw [if_pos (beq_self_eq_true _), Traced.all_bind, Traced.all_tell, and_iff_right hread,
            ih hkept (hleft' hfit)]
          constructor
          · intro h kept'' heq
            obtain ⟨rfl, -⟩ := List.append_inj' (hc.symm.trans heq) rfl
            exact h
          · intro h
            exact h kept' hc
        · rw [if_neg (by simpa using hback)]
          refine iff_of_true (Traced.all_pure _ _ |>.mpr trivial) fun kept'' heq => ?_
          obtain ⟨-, hsame⟩ := List.append_inj' (hc.symm.trans heq) rfl
          exact absurd (List.cons.inj hsame).1 hback

/-- A round goes on with the next line, or returns. -/
theorem loop_round (fuel : Nat) (hm : m.At 0 kept) (hleft : 2 ≤ left) (hfile : file ≠ [])
    {len : Nat} (hlen : fgetsLength left.toNat file = len) {s : Bytes}
    (hs : trimTail (cString (file.take len)) = s) (hne : kept ++ s ≠ []) :
    (∃ kept' m', kept ++ s = kept' ++ [ch '\\'] ∧ m'.At 0 kept' ∧
      (fgetsMultilineLoop buflen (fuel + 1) m kept.length left file).val =
        (fgetsMultilineLoop buflen fuel m' kept'.length (buflen - (s.length - 1))
          (file.drop len)).val) ∨
      ∃ kept' c m', kept ++ s = kept' ++ [c] ∧ c ≠ ch '\\' ∧ m'.At 0 (kept ++ (s ++ [0])) ∧
        (fgetsMultilineLoop buflen (fuel + 1) m kept.length left file).val = some (some m') := by
  rw [fgetsMultilineLoop, if_neg (not_or.mpr ⟨by omega, fun h => hfile h.2⟩), hlen]
  dsimp only
  have hround := round_at hm (file.take len)
  rw [hs] at hround ⊢
  rw [Traced.val_bind, Traced.val_bind, Area.val_read]
  generalize (m.write kept.length (file.take len ++ [0])).set
    (kept.length + s.length) 0 = m₂ at hround ⊢
  obtain ⟨kept', c, hc⟩ := (round_cases kept s).resolve_left hne
  obtain ⟨hbyte, hpos⟩ := round_last hround hc
  rw [hbyte, hpos]
  by_cases hback : c = ch '\\'
  · subst hback
    have hkept : (m₂.set kept'.length 0).At 0 kept' := by
      rw [← List.append_assoc, hc, List.append_assoc, Area.at_append] at hround
      exact hround.1.set (.inr (by omega))
    rw [if_pos (beq_self_eq_true _)]
    exact .inl ⟨kept', _, hc, hkept, rfl⟩
  · rw [if_neg (by simpa using hback)]
    exact .inr ⟨kept', c, m₂, hc, hback, hround, rfl⟩

theorem fgetsLength_pos (hleft : 2 ≤ left) : 0 < fgetsLength left.toNat file := by
  unfold fgetsLength
  omega

/-- Every round takes something of the file. -/
theorem loop_ends {fuel : Nat} (hfuel : file.length < fuel) (hm : m.At 0 kept) (hleft : 2 ≤ left)
    (hfit : RoundsFit buflen fuel kept left file) :
    (fgetsMultilineLoop buflen fuel m kept.length left file).val ≠ none := by
  induction fuel generalizing m kept left file with
  | zero => omega
  | succ fuel ih =>
    by_cases hfile : file = []
    · rw [fgetsMultilineLoop, if_pos (.inr ⟨by omega, hfile⟩)]
      simp
    · obtain ⟨hspace, hne, hnext⟩ := hfit hfile
      obtain ⟨kept', m', hc, hkept, hval⟩ | ⟨-, -, m', -, -, -, hval⟩ :=
        loop_round fuel hm hleft hfile rfl rfl hne
      · rw [hval]
        refine ih ?_ hkept (left_ge hspace) (hnext kept' hc)
        have hpos := @fgetsLength_pos file _ hleft
        have hfpos := List.length_pos_of_ne_nil hfile
        rw [List.length_drop]
        omega
      · rw [hval]
        simp

end

/-! ## Lines that fit -/

section
variable {m : Area UInt8} {kept file : Bytes} {buflen : Nat} {left : Int}

/-- A line that fits is one piece. -/
theorem piece_eq_rawLine {n : Nat} (h : (rawLine file).length + 1 ≤ n) :
    file.take (fgetsLength n file) = rawLine file ∧
      file.drop (fgetsLength n file) = file.drop (rawLine file).length := by
  have htw := (List.takeWhile_sublist (· != ch '\n') (l := file)).length_le
  have hlen : (rawLine file).length =
      min ((file.takeWhile (· != ch '\n')).length + 1) file.length := List.length_take
  by_cases hend : (file.takeWhile (· != ch '\n')).length + 1 ≤ file.length
  · have heq : fgetsLength n file = (file.takeWhile (· != ch '\n')).length + 1 := by
      unfold fgetsLength
      omega
    rw [heq, hlen, Nat.min_eq_left hend]
    exact ⟨rfl, rfl⟩
  · have hge : file.length ≤ fgetsLength n file := by
      unfold fgetsLength
      omega
    rw [rawLine, List.take_of_length_le hge, List.take_of_length_le (by omega),
      List.drop_of_length_le hge, List.drop_of_length_le (Nat.le_refl _)]
    exact ⟨rfl, rfl⟩

theorem rawLine_ne_nil (hfile : file ≠ []) : rawLine file ≠ [] := by
  obtain ⟨b, tl, rfl⟩ := List.exists_cons_of_ne_nil hfile
  rw [rawLine, List.take_succ_cons]
  exact List.cons_ne_nil _ _

/-- The loop keeps a first character only of a blank line. -/
theorem trimTail_cases {s : Bytes} (hs : s ≠ []) :
    (strip s ≠ [] ∧ trimTail s = strip s) ∨
      (strip s = [] ∧ ∃ b, isTrailing b = true ∧ trimTail s = [b]) := by
  obtain ⟨b, tl, rfl⟩ := List.exists_cons_of_ne_nil hs
  have hcons : strip (b :: tl) =
      if (tl.reverse.dropWhile isTrailing).isEmpty then strip [b] else b :: strip tl := by
    unfold strip
    rw [List.reverse_cons, List.dropWhile_append]
    split
    · rfl
    · simp
  rw [hcons]
  split
  · rename_i hempty
    have htl : strip tl = [] := by
      rw [strip, List.isEmpty_iff.mp hempty]
      rfl
    cases hb : isTrailing b with
    | true => exact .inr ⟨by simp [strip, hb], b, hb, by rw [trimTail, htl]⟩
    | false => exact .inl ⟨by simp [strip, hb], by rw [trimTail, htl]; simp [strip, hb]⟩
  · exact .inl ⟨List.cons_ne_nil _ _, rfl⟩

/-- A NUL is not taken off the end of a line. -/
theorem nul_mem_strip {s : Bytes} (h : 0 ∈ s) : 0 ∈ strip s := by
  rw [← List.mem_reverse, ← List.takeWhile_append_dropWhile (p := isTrailing) (l := s.reverse),
    List.mem_append] at h
  obtain h | h := h
  · exact absurd (List.mem_takeWhile_imp h) (by decide)
  · exact List.mem_reverse.mpr h

theorem isContinued_iff {line : Bytes} :
    isContinued line = true ↔ ∃ init, line = init ++ [ch '\\'] := by
  rw [isContinued, beq_iff_eq, List.getLast?_eq_some_iff]

theorem not_returned_of_nul {r : Option (Option (Area UInt8))} {t : Bytes} (h : 0 ∈ t) :
    ¬Returned r (some t) := by
  intro hr
  obtain _ | _ | m := r
  · exact hr
  · exact hr
  · exact hr.2 h

theorem loop_eof (fuel : Nat) (m : Area UInt8) (p : Int) (hleft : 1 < left) :
    (fgetsMultilineLoop buflen (fuel + 1) m p left []).val = some none := by
  rw [fgetsMultilineLoop, if_pos (.inr ⟨hleft, rfl⟩)]
  rfl

/-- Lines that fit are returned if and only if they are clean. -/
theorem loop_value_iff {fuel : Nat} (hfuel : file.length < fuel) (hm : m.At 0 kept)
    (h0 : 0 ∉ kept) (hleft : (buflen : Int) - kept.length ≤ left) (hfile : file ≠ [])
    (hfit : PiecesFit buflen fuel kept.length file) :
    Returned (fgetsMultilineLoop buflen fuel m kept.length left file).val
        (some (kept ++ joinLines fuel file)) ↔ LinesClean fuel file := by
  induction fuel generalizing m kept left file with
  | zero => omega
  | succ fuel ih =>
    obtain ⟨hspace, hnext⟩ := hfit
    have hraw := rawLine_ne_nil hfile
    have hrawpos := List.length_pos_of_ne_nil hraw
    rw [joinLines, LinesClean]
    by_cases hnul : 0 ∈ rawLine file
    · -- the text has a NUL, which no string has
      refine iff_of_false (not_returned_of_nul (List.mem_append_right _ ?_)) fun h => h.1 hnul
      have hstrip := nul_mem_strip hnul
      split
      · rename_i hcont
        obtain ⟨init, hinit⟩ := isContinued_iff.mp hcont
        rw [hinit, List.mem_append] at hstrip
        rw [hinit, List.dropLast_concat]
        refine List.mem_append_left _ (hstrip.resolve_right fun h => ?_)
        exact absurd (List.mem_singleton.mp h) (by decide)
      · exact hstrip
    obtain ⟨htake, hdrop⟩ := @piece_eq_rawLine file left.toNat (by omega)
    have htrim : trimTail (cString (file.take (fgetsLength left.toNat file))) =
        trimTail (rawLine file) := by
      rw [htake, cString_eq_self hnul]
    obtain ⟨hne, hline⟩ | ⟨hblank, b, hb, hline⟩ := trimTail_cases hraw
    · rw [hline] at htrim
      have hlinenul : 0 ∉ strip (rawLine file) := fun h =>
        hnul ((strip_prefix_self _).subset h)
      have hlinelen := (strip_prefix_self (rawLine file)).length_le
      generalize strip (rawLine file) = line at hne htrim hnext hlinenul hlinelen ⊢
      obtain ⟨kept', m', hc, hkept, hval⟩ | ⟨kept', c, m', hc, hback, hat, hval⟩ :=
        loop_round fuel hm (by omega) hfile rfl htrim (by simp [hne])
      · -- the line goes on with the next one
        obtain ⟨init, rfl⟩ : ∃ init, line = init ++ [ch '\\'] := by
          obtain ⟨init, b, rfl⟩ := (List.eq_nil_or_concat line).resolve_left hne
          rw [List.concat_eq_append, ← List.append_assoc] at hc
          obtain ⟨-, hb⟩ := List.append_inj' hc rfl
          exact ⟨init, by rw [List.concat_eq_append, hb]⟩
        have hkept' : kept' = kept ++ init := by
          rw [← List.append_assoc] at hc
          exact (List.append_inj' hc rfl).1.symm
        have hcont : isContinued (init ++ [ch '\\']) = true := isContinued_iff.mpr ⟨init, rfl⟩
        rw [if_pos hcont, List.dropLast_concat, hval, hdrop, ← List.append_assoc, ← hkept']
        by_cases hrest : file.drop (rawLine file).length = []
        · -- the file ends
          refine iff_of_false ?_ fun h => (h.2.2 hcont).1 hrest
          obtain ⟨fuel, rfl⟩ : ∃ n, fuel = n + 1 := Nat.exists_eq_add_one_of_ne_zero (by
            have hfpos := List.length_pos_of_ne_nil hfile
            omega)
          rw [hrest, loop_eof fuel m' _ (by omega)]
          exact id
        · have hlen : kept'.length = kept.length + init.length := by
            rw [hkept', List.length_append]
          have hnext' := hnext hcont
          have hoff : kept.length + (init ++ [ch '\\']).length - 1 = kept'.length := by
            rw [hlen, List.length_append]
            rfl
          rw [hoff] at hnext'
          have h0' : 0 ∉ kept' := by
            rw [hkept', List.mem_append]
            exact not_or.mpr ⟨h0, fun h => hlinenul (List.mem_append_left _ h)⟩
          have hrestlen : (file.drop (rawLine file).length).length < fuel := by
            rw [List.length_drop]
            have hfpos := List.length_pos_of_ne_nil hfile
            omega
          rw [List.length_append, List.length_singleton]
          rw [ih hrestlen hkept h0' (by omega) hrest hnext']
          exact ⟨fun h => ⟨hnul, hne, fun _ => ⟨hrest, h⟩⟩, fun h => (h.2.2 hcont).2⟩
      · -- the last line
        have hlast : ¬isContinued line = true := by
          intro hcont
          obtain ⟨init, rfl⟩ := isContinued_iff.mp hcont
          rw [← List.append_assoc] at hc
          exact hback (List.cons.inj (List.append_inj' hc rfl).2).1.symm
        rw [if_neg hlast, hval]
        refine iff_of_true ⟨?_, ?_⟩ ⟨hnul, hne, fun h => absurd h hlast⟩
        · rw [List.append_assoc]
          exact hat
        · rw [List.mem_append]
          exact not_or.mpr ⟨h0, hlinenul⟩
    · -- a blank line
      rw [hline] at htrim
      have hback : b ≠ ch '\\' := by
        rintro rfl
        exact absurd hb (by decide)
      obtain ⟨kept', m', hc, -⟩ | ⟨kept', c, m', hc, -, hat, hval⟩ :=
        loop_round fuel hm (by omega) hfile rfl htrim (by simp)
      · exact absurd (List.cons.inj (List.append_inj' hc rfl).2).1 hback
      · rw [hblank, hval]
        refine iff_of_false (fun hr => ?_) fun h => h.2.1 rfl
        have hempty : m'.At 0 (kept ++ [] ++ [0]) := hr.1
        have h1 := hat.byte_eq (i := kept.length) (x := b) (by simp)
        have h2 := hempty.byte_eq (i := kept.length) (x := 0) (by simp)
        rw [← h1, h2] at hb
        exact absurd hb (by decide)

end

/-- The lines of a file are read safely if and only if the rounds fit the buffer and lines
that fit it are clean. -/
theorem fgets_multiline_iff (m : Area UInt8) {buflen : Nat} (hbuf : 2 ≤ buflen) (file : Bytes) :
    ReadsSafely buflen file (fgetsMultiline m buflen file) ↔
      RoundsFit buflen (file.length + 1) [] buflen file ∧
        (PiecesFit buflen (file.length + 1) 0 file →
          file = [] ∨ LinesClean (file.length + 1) file) := by
  have hwithin := @loop_within_iff m [] file buflen buflen (file.length + 1) (Area.at_nil m 0)
    (by omega)
  have hvalue : PiecesFit buflen (file.length + 1) 0 file →
      (Returned (fgetsMultiline m buflen file).val (expectedText file) ↔
        file = [] ∨ LinesClean (file.length + 1) file) := by
    intro hfit
    unfold expectedText
    by_cases hfile : file = []
    · subst hfile
      rw [if_pos rfl, fgetsMultiline, List.length_nil, loop_eof 0 m 0 (by omega)]
      exact iff_of_true trivial (.inl rfl)
    · rw [if_neg hfile, or_iff_right hfile]
      exact @loop_value_iff m [] file buflen buflen _ (Nat.lt_succ_self _) (Area.at_nil m 0) nofun
        (by rw [List.length_nil]; omega) hfile hfit
  constructor
  · intro h
    exact ⟨hwithin.mp h.within, fun hfit => (hvalue hfit).mp (h.value hfit)⟩
  · rintro ⟨hrounds, hclean⟩
    refine ⟨hwithin.mpr hrounds, ?_, fun hfit => (hvalue hfit).mpr (hclean hfit)⟩
    exact @loop_ends m [] file buflen buflen _ (Nat.lt_succ_self _) (Area.at_nil m 0) (by omega)
      hrounds

/-- Two lines, read into the buffer of the configuration. -/
theorem fgets_multiline_iff_two :
    ReadsSafely 102400 (ascii "MyEmail \\\n a@b\n")
        (fgetsMultiline ⟨fun _ => 0, fun _ => none⟩ 102400 (ascii "MyEmail \\\n a@b\n")) ↔
      RoundsFit 102400 ((ascii "MyEmail \\\n a@b\n").length + 1) [] (102400 : Nat)
          (ascii "MyEmail \\\n a@b\n") ∧
        (PiecesFit 102400 ((ascii "MyEmail \\\n a@b\n").length + 1) 0
            (ascii "MyEmail \\\n a@b\n") →
          ascii "MyEmail \\\n a@b\n" = [] ∨
            LinesClean ((ascii "MyEmail \\\n a@b\n").length + 1) (ascii "MyEmail \\\n a@b\n")) :=
  fgets_multiline_iff _ (by decide) _

section
variable {init rest kept : Bytes} {buflen : Nat} {left : Int}

theorem rawLine_line (hline : ch '\n' ∉ init) (rest : Bytes) :
    rawLine (init ++ ch '\n' :: rest) = init ++ [ch '\n'] := by
  have htake : (init ++ ch '\n' :: rest).takeWhile (· != ch '\n') = init := by
    rw [List.takeWhile_append_of_pos (bne_of_mem hline)]
    simp
  rw [rawLine, htake, List.append_cons]
  exact List.take_left' (by simp)

/-- A round with a line that is continued. -/
theorem RoundsFit.continued {fuel : Nat}
    (h : RoundsFit buflen (fuel + 1) kept left (init ++ [ch '\\'] ++ ch '\n' :: rest))
    (hline : ch '\n' ∉ init) (h0 : 0 ∉ init) (hleft : init.length + 3 ≤ left) :
    RoundsFit buflen fuel (kept ++ init) (buflen - init.length) rest := by
  have hline' : ch '\n' ∉ init ++ [ch '\\'] := by
    rw [List.mem_append]
    exact not_or.mpr ⟨hline, by decide⟩
  have hraw := rawLine_line hline' rest
  have hlen : (rawLine (init ++ [ch '\\'] ++ ch '\n' :: rest)).length = init.length + 2 := by
    rw [hraw]
    simp
  obtain ⟨htake, hdrop⟩ := @piece_eq_rawLine (init ++ [ch '\\'] ++ ch '\n' :: rest)
    left.toNat (by omega)
  have hnul : 0 ∉ init ++ [ch '\\'] ++ [ch '\n'] := by
    rw [List.mem_append, List.mem_append]
    exact not_or.mpr ⟨not_or.mpr ⟨h0, by decide⟩, by decide⟩
  have hstrip : strip (init ++ [ch '\\'] ++ [ch '\n']) = init ++ [ch '\\'] := by
    have hn : isTrailing (ch '\n') = true := by decide
    have hb : isTrailing (ch '\\') = false := by decide
    simp [strip, hn, hb]
  have hs : trimTail (cString ((init ++ [ch '\\'] ++ ch '\n' :: rest).take
      (fgetsLength left.toNat (init ++ [ch '\\'] ++ ch '\n' :: rest)))) = init ++ [ch '\\'] := by
    rw [htake, hraw, cString_eq_self hnul]
    obtain ⟨-, h⟩ | ⟨h, -⟩ := trimTail_cases (s := init ++ [ch '\\'] ++ [ch '\n']) (by simp)
    · rw [h, hstrip]
    · rw [hstrip] at h
      simp at h
  have hafter : (init ++ [ch '\\'] ++ ch '\n' :: rest).drop (init.length + 2) = rest := by
    rw [List.append_cons]
    exact List.drop_left' (by simp)
  obtain ⟨-, -, hnext⟩ := h (by simp)
  rw [hs] at hnext
  have hgo := hnext (kept ++ init) (by rw [List.append_assoc])
  rw [hdrop, hlen, hafter, List.length_append, List.length_singleton] at hgo
  have hleft' : (buflen : Int) - ((init.length + 1 : Nat) - 1) = buflen - init.length := by omega
  rwa [hleft'] at hgo

end

/-- The buffer of the configuration has 102400 bytes, and three lines of 50000 run over its
end: the space for the third is what the second one leaves. -/
theorem third_line_overflows :
    ¬∀ (m : Area UInt8) (buflen : Nat) (file : Bytes), 2 ≤ buflen →
      ReadsSafely buflen file (fgetsMultiline m buflen file) := by
  intro hall
  obtain ⟨line, hchar, hlen⟩ : ∃ line : Bytes, (∀ b ∈ line, b = ch 'a') ∧ line.length = 50000 :=
    ⟨List.replicate 50000 (ch 'a'), fun _ => List.eq_of_mem_replicate, List.length_replicate⟩
  have hno : ∀ b : UInt8, b ≠ ch 'a' → b ∉ line := fun b hb hin => hb (hchar b hin)
  generalize hfile : line ++ [ch '\\'] ++ ch '\n' :: (line ++ [ch '\\'] ++ ch '\n' ::
    (line ++ [ch '\n'])) = file
  have hsafe := hall ⟨fun _ => 0, fun _ => none⟩ 102400 file (by decide)
  have hrounds := (@loop_within_iff _ [] file _ _ (file.length + 1) (Area.at_nil _ 0)
    (by decide)).mp hsafe.within
  obtain ⟨fuel, hfuel⟩ : ∃ fuel, file.length = fuel + 2 := by
    refine ⟨file.length - 2, ?_⟩
    have hpos : 2 ≤ file.length := by
      rw [← hfile]
      simp only [List.length_append, hlen]
      omega
    omega
  rw [hfuel, ← hfile] at hrounds
  have hsecond := hrounds.continued (hno _ (by decide)) (hno _ (by decide)) (by omega)
  have hthird := hsecond.continued (hno _ (by decide)) (hno _ (by decide)) (by omega)
  have htake : (line ++ [ch '\n']).takeWhile (· != ch '\n') = line := by
    rw [List.takeWhile_append_of_pos (bne_of_mem (hno _ (by decide)))]
    simp
  have hfit := (hthird (by simp)).1
  simp only [List.nil_append, List.length_append, List.length_take, fgetsLength, htake, hlen,
    List.length_singleton] at hfit
  omega

end Aprsc
