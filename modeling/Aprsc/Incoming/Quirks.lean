-- SUMMARY: Quirks mode takes blanks out of the header of a line, and nothing else; without them it makes no difference.
import Aprsc.Base.Removes
import Aprsc.Incoming.Unverified

/-!
# Quirks mode

For some clients `incoming_parse` works on a copy of the line, without the blanks before
it and the spaces after the callsigns of its header. The copy is written into a buffer on
the stack, byte by byte, by loops that share one pointer into the line.
-/

namespace Aprsc

/-! ## The loops -/

/-- Why the rewriting ends without a copy. -/
inductive QuirkStop where
  /-- `incoming_parse` returns. -/
  | rejected (rc : Int)
  /-- A byte is written behind the buffer. -/
  | overflow
  /-- The loop that copies the path is not done. -/
  | outOfFuel
deriving Repr, DecidableEq

/-- The size of `quirked`. -/
def quirkedLen : Nat := packetlenMax + 2

/-- `*np++ = b`, where `out` is what has been written. -/
def putQuirked (out : Bytes) (b : UInt8) : Except QuirkStop Bytes :=
  if out.length < quirkedLen then .ok (out ++ [b]) else .error .overflow

/-- `while (p < packet_end && cond) *np++ = *p++`, where `rest` is the line from `p` on. -/
def copyWhile (cond : UInt8 → Bool) : (rest out : Bytes) → Except QuirkStop (Bytes × Bytes)
  | [], out => .ok ([], out)
  | b :: rest, out =>
      if cond b then do
        let out ← putQuirked out b
        copyWhile cond rest out
      else .ok (b :: rest, out)

/-- The loop that copies the path. At the end of the line, `*p` is the byte after it. -/
def copyPath (after : UInt8) : (fuel : Nat) → (rest out : Bytes) → Except QuirkStop (Bytes × Bytes)
  | 0, _, _ => .error .outOfFuel
  | fuel + 1, rest, out =>
      if rest.isEmpty || rest.head? == some (ch ':') then .ok (rest, out)
      else do
        let stops := fun b => b == comma || b == ch ':' || b == ch ' '
        let r ← copyWhile (! stops ·) rest out
        let rest := r.1.dropWhile (· == ch ' ')
        if rest.head? == some comma then do
          let out ← putQuirked r.2 comma
          copyPath after fuel (rest.drop 1) out
        else if rest.headD after == ch ':' then copyPath after fuel rest r.2
        else .error (.rejected inerrInvPathCall)

/-- The first part of `incoming_parse`, in quirks mode. -/
def rewriteQuirks (after : UInt8) (fuel : Nat) (s : Bytes) : Except QuirkStop Bytes :=
  let rest := s.dropWhile fun b => b == ch ' ' || b == 0
  if rest.isEmpty then .error (.rejected inerrEmpty)
  else do
    let stops := fun b => b == ch '>' || b == ch ' '
    let r ← copyWhile (! stops ·) rest []
    let rest := r.1.dropWhile (· == ch ' ')
    if rest.headD after != ch '>' then .error (.rejected inerrNoDst)
    else do
      let r ← copyPath after fuel rest r.2
      let r ← copyWhile (fun _ => true) r.1 r.2
      let _ ← putQuirked r.2 0
      .ok r.2

/-! ## The parts of a line -/

/-- A line from its first `:` on. -/
def bodyText (line : Bytes) : Bytes := line.dropWhile (· != ch ':')

/-- What stands before the first `:` after the `>`. -/
def headPart (line : Bytes) : Bytes :=
  line.takeWhile (· != ch '>') ++ headerText (line.dropWhile (· != ch '>'))

/-- A line from the first `:` after the `>` on. -/
def bodyPart (line : Bytes) : Bytes := bodyText (line.dropWhile (· != ch '>'))

/-- Some spaces of the header, and the blanks before it, are left out. -/
def BlanksRemoved (line s : Bytes) : Prop :=
  ∃ blanks head copy, headPart line = blanks ++ head ∧ (∀ b ∈ blanks, b = ch ' ' ∨ b = 0) ∧
    Removes (· = ch ' ') head copy ∧ s = copy ++ bodyPart line

/-- The packet is dropped with an error. -/
def Rejects (r : Incoming) : Prop := ∃ rc < 0, r = .dropped rc

theorem headerText_append_bodyText (line : Bytes) : headerText line ++ bodyText line = line :=
  List.takeWhile_append_dropWhile

theorem headPart_append_bodyPart (line : Bytes) : headPart line ++ bodyPart line = line := by
  rw [headPart, bodyPart, List.append_assoc, headerText_append_bodyText,
    List.takeWhile_append_dropWhile]

theorem bodyText_append {xs ys : Bytes} (h : ch ':' ∉ xs) : bodyText (xs ++ ys) = bodyText ys := by
  have hparts := headerText_append_bodyText (xs ++ ys)
  rw [headerText_append h, List.append_assoc, List.append_cancel_left_eq] at hparts
  exact List.append_cancel_left (hparts.trans (headerText_append_bodyText ys).symm)

theorem bodyText_of_end {rest : Bytes} (hend : headerText rest = []) : bodyText rest = rest := by
  have hparts := headerText_append_bodyText rest
  rwa [hend, List.nil_append] at hparts

/-- The parts of a line whose `>` has been found. -/
theorem parts_of_split {pre rest : Bytes} (hpre : ch '>' ∉ pre)
    (hrest : rest = [] ∨ rest.head? = some (ch '>')) :
    headPart (pre ++ rest) = pre ++ headerText rest ∧ bodyPart (pre ++ rest) = bodyText rest := by
  have hall : ∀ b ∈ pre, (b != ch '>') = true := by
    intro b hb
    rw [bne_iff_ne]
    rintro rfl
    exact hpre hb
  have hstop : rest.takeWhile (· != ch '>') = [] ∧ rest.dropWhile (· != ch '>') = rest := by
    cases rest with
    | nil => exact ⟨rfl, rfl⟩
    | cons b rest =>
      have hb : b = ch '>' := by simpa using hrest
      simp [hb]
  rw [headPart, bodyPart, List.takeWhile_append_of_pos hall, List.dropWhile_append_of_pos hall,
    hstop.1, hstop.2, List.append_nil]
  exact ⟨rfl, rfl⟩

theorem BlanksRemoved.length_le {line s : Bytes} (h : BlanksRemoved line s) :
    s.length ≤ line.length := by
  obtain ⟨blanks, head, copy, hhead, _, hcopy, rfl⟩ := h
  have hle := hcopy.length_le
  have hparts := congrArg List.length (headPart_append_bodyPart line)
  rw [hhead] at hparts
  simp only [List.length_append] at hparts ⊢
  omega

/-- A line without blanks is copied as it is. -/
theorem BlanksRemoved.eq_of_clean {line s : Bytes} (h : BlanksRemoved line s)
    (hfirst : ∀ b ∈ line.head?, b ≠ ch ' ' ∧ b ≠ 0) (hspace : ch ' ' ∉ headPart line) :
    s = line := by
  obtain ⟨blanks, head, copy, hhead, hblanks, hcopy, rfl⟩ := h
  have hnone : blanks = [] := by
    cases blanks with
    | nil => rfl
    | cons b blanks =>
      have hline := headPart_append_bodyPart line
      rw [hhead] at hline
      have hhead : line.head? = some b := by rw [← hline]; rfl
      have hb := hfirst b hhead
      cases hblanks b List.mem_cons_self with
      | inl h => exact absurd h hb.1
      | inr h => exact absurd h hb.2
  rw [hnone, List.nil_append] at hhead
  have hsame : copy = head := by
    apply hcopy.eq_of_forall_not
    intro b hb
    rw [← hhead] at hb
    rintro rfl
    exact hspace hb
  rw [hsame, ← hhead, headPart_append_bodyPart]

/-! ## What the copy is -/

section

variable {after : UInt8}

/-- The path is copied without some of its spaces, up to the first `:`. -/
theorem quirkPath_removes {fuel : Nat} {rest : Bytes} {r : Bytes × Bytes}
    (hfuel : rest.length < fuel) (hok : quirkPath after fuel rest = .ok r) :
    Removes (· = ch ' ') (headerText rest) r.1 ∧ r.2 = bodyText rest := by
  induction fuel generalizing rest r with
  | zero => exact absurd hfuel (Nat.not_lt_zero _)
  | succ fuel ih =>
    rcases quirkPath_cases hok with ⟨hend, rfl⟩ | ⟨elem, spaces, rest₁, helem, hturn⟩
    · rw [hend, bodyText_of_end hend]
      exact ⟨.nil, rfl⟩
    · have hbody : ∀ ys, bodyText (elem ++ (spaces ++ ys)) = bodyText ys := by
        intro ys
        rw [bodyText_append helem.no_colon,
          bodyText_append fun h => absurd (helem.spaces _ h) (by decide)]
      rcases hturn with ⟨rfl, r₁, hrec, rfl⟩ | ⟨rfl, hend, rfl⟩
      · have hlt : rest₁.length < fuel := by
          simp only [List.length_append, List.length_cons] at hfuel
          omega
        obtain ⟨hcopy, hrest⟩ := ih hlt hrec
        rw [helem.headerText_eq, hbody]
        exact ⟨((hcopy.keep comma).skip helem.spaces).append_left elem, hrest⟩
      · rw [helem.headerText_eq, hbody, hend, bodyText_of_end hend]
        have hspaces := (Removes.nil (p := (· = ch ' '))).skip helem.spaces
        exact ⟨by simpa using hspaces.append_left elem, rfl⟩

theorem quirked_removes {line s : Bytes} (hok : quirked after line = .ok s) :
    BlanksRemoved line s := by
  obtain ⟨blanks, src, spaces, rest, r, rfl, hblanks, hsrc, hspaces, hhead, hpath, rfl⟩ :=
    quirked_cases hok
  obtain ⟨hcopy, hrest⟩ := quirkPath_removes (Nat.lt_succ_self _) hpath
  have hpre : ch '>' ∉ blanks ++ (src ++ spaces) := by
    simp only [List.mem_append, not_or]
    exact ⟨fun h => absurd (hblanks _ h) (by decide), hsrc,
      fun h => absurd (hspaces _ h) (by decide)⟩
  have hgt : rest = [] ∨ rest.head? = some (ch '>') := by
    cases rest with
    | nil => exact .inl rfl
    | cons b rest => exact .inr (congrArg some hhead)
  obtain ⟨hhead, hbody⟩ := parts_of_split hpre hgt
  rw [List.append_assoc, List.append_assoc] at hhead hbody
  refine ⟨blanks, src ++ (spaces ++ headerText rest), src ++ r.1, ?_, hblanks,
    (hcopy.skip hspaces).append_left src, ?_⟩
  · rw [hhead, List.append_assoc, List.append_assoc]
  · rw [hbody, hrest, List.append_assoc]

/-! ## The loops end, in the buffer -/

/-- A loop that copies stops at the first byte that does not meet the condition. -/
theorem copyWhile_eq (cond : UInt8 → Bool) {rest out : Bytes}
    (hfit : out.length + rest.length ≤ quirkedLen) :
    copyWhile cond rest out = .ok (rest.dropWhile cond, out ++ rest.takeWhile cond) := by
  induction rest generalizing out with
  | nil => simp [copyWhile]
  | cons b rest ih =>
    rw [List.length_cons] at hfit
    rw [copyWhile]
    split
    next hb =>
      have hlt : out.length < quirkedLen := by omega
      have hrest := @ih (out ++ [b])
        (by simp only [List.length_append, List.length_singleton]; omega)
      rw [putQuirked, if_pos hlt]
      simpa [bind, Except.bind, hb] using hrest
    next hb => simp [hb]

theorem copyPath_end {rest : Bytes} (hend : headerText rest = []) (fuel : Nat) (out : Bytes) :
    copyPath after (fuel + 1) rest out = .ok (rest, out) := by
  have hstop : (rest.isEmpty || rest.head? == some (ch ':')) = true := by
    simpa using headerText_eq_nil.mp hend
  simp [copyPath, hstop]

/-- Each turn of the loop over the path takes a byte of the line, or is the last one. -/
theorem copyPath_eq {fuel fuel' : Nat} {rest out : Bytes} (hfuel : rest.length < fuel)
    (hfuel' : rest.length < fuel') (hfit : out.length + rest.length ≤ quirkedLen) :
    copyPath after fuel rest out =
      ((quirkPath after fuel' rest).map fun r => (r.2, out ++ r.1)).mapError .rejected := by
  induction fuel generalizing fuel' rest out with
  | zero => exact absurd hfuel (Nat.not_lt_zero _)
  | succ fuel ih =>
    cases fuel' with
    | zero => exact absurd hfuel' (Nat.not_lt_zero _)
    | succ fuel' =>
    simp only [copyPath, quirkPath]
    split
    next => simp [Except.map, Except.mapError]
    next hmore =>
    have hpos : 0 < rest.length := by
      rw [List.length_pos_iff]
      rintro rfl
      exact hmore rfl
    obtain ⟨spaces, -, hrest⟩ := quirk_split rest rfl
    rw [copyWhile_eq _ hfit]
    simp only [bind, Except.bind]
    generalize rest.takeWhile _ = elem at hrest ⊢
    generalize (rest.dropWhile _).dropWhile _ = rest₁ at hrest ⊢
    have hlen : rest.length = elem.length + (spaces.length + rest₁.length) := by
      simp [hrest]
    split
    next hnext =>
      cases rest₁ with
      | nil => simp at hnext
      | cons b rest₂ =>
        rw [List.length_cons] at hlen
        have hput : putQuirked (out ++ elem) comma = .ok (out ++ elem ++ [comma]) := by
          rw [putQuirked, if_pos]
          rw [List.length_append]
          omega
        have hrec := @ih fuel' rest₂ (out ++ elem ++ [comma]) (by omega) (by omega)
          (by simp only [List.length_append, List.length_singleton]; omega)
        simp only [hput, List.drop_succ_cons, List.drop_zero, hrec]
        cases quirkPath after fuel' rest₂ with
        | error rc => rfl
        | ok r => simp [Except.map, Except.mapError]
    next =>
    split
    next hnext =>
      have hend : headerText rest₁ = [] := by
        cases rest₁ with
        | nil => rfl
        | cons b rest₁ => exact headerText_eq_nil.mpr (.inr (congrArg some (by simpa using hnext)))
      obtain ⟨fuel, rfl⟩ : ∃ n, fuel = n + 1 := ⟨fuel - 1, by omega⟩
      rw [copyPath_end hend, quirkPath_end hend]
      simp [Except.map, Except.mapError]
    next => rfl

/-- The loops write what `incoming_parse` is modelled with, and nothing behind the buffer. -/
theorem rewriteQuirks_eq {fuel : Nat} {s : Bytes} (hlen : s.length < quirkedLen)
    (hfuel : s.length < fuel) :
    rewriteQuirks after fuel s = (quirked after s).mapError .rejected := by
  simp only [rewriteQuirks, quirked]
  have htext := (List.dropWhile_sublist (fun b => b == ch ' ' || b == 0) (l := s)).length_le
  generalize s.dropWhile _ = text at htext ⊢
  split
  next => rfl
  next =>
  rw [copyWhile_eq _ (by rw [List.length_nil]; omega)]
  simp only [bind, Except.bind, List.nil_append]
  have hparts := congrArg List.length (List.takeWhile_append_dropWhile
    (p := (! (fun b => b == ch '>' || b == ch ' ') ·)) (l := text))
  have htail := (List.dropWhile_sublist (· == ch ' ')
    (l := text.dropWhile (! (fun b => b == ch '>' || b == ch ' ') ·))).length_le
  rw [List.length_append] at hparts
  generalize text.takeWhile _ = src at hparts ⊢
  generalize (text.dropWhile _).dropWhile _ = rest at htail ⊢
  split
  next => rfl
  next =>
  rw [copyPath_eq (by omega) (Nat.lt_succ_self _) (by omega)]
  cases hpath : quirkPath after (rest.length + 1) rest with
  | error rc => rfl
  | ok r =>
    obtain ⟨hcopy, hbody⟩ := quirkPath_removes (Nat.lt_succ_self _) hpath
    have hle := hcopy.length_le
    have hrest := congrArg List.length (headerText_append_bodyText rest)
    rw [List.length_append, ← hbody] at hrest
    simp only [Except.map, Except.mapError]
    rw [copyWhile_eq _ (by rw [List.length_append]; omega)]
    have hall : r.2.takeWhile (fun _ => true) = r.2 := by simp
    simp only [hall, putQuirked]
    rw [if_pos (by simp only [List.length_append]; omega)]

end

/-! ## Lines without blanks -/

section

variable {after : UInt8}

/-- Without spaces, the loop over the path ends early only where there is no `:`. -/
theorem quirkPath_error {fuel : Nat} {rest : Bytes} {rc : Int}
    (herr : quirkPath after fuel rest = .error rc) :
    rc = inerrInvPathCall ∧ (bodyText rest = [] ∨ ch ' ' ∈ headerText rest) := by
  induction fuel generalizing rest with
  | zero => cases herr
  | succ fuel ih =>
    simp only [quirkPath] at herr
    split at herr
    next => cases herr
    next =>
    obtain ⟨spaces, helem, hrest⟩ := quirk_split rest rfl
    have hsplit : rest = rest.takeWhile _ ++ rest.dropWhile _ :=
      (List.takeWhile_append_dropWhile
        (p := (! (fun b => b == comma || b == ch ':' || b == ch ' ') ·))).symm
    have hstop := List.head?_dropWhile_not
      (! (fun b => b == comma || b == ch ':' || b == ch ' ') ·) rest
    generalize rest.takeWhile _ = elem at herr hrest helem hsplit
    generalize rest.dropWhile _ = tail at herr hrest hsplit hstop
    split at herr
    next hnext =>
      cases hrest₁ : tail.dropWhile (· == ch ' ') with
      | nil => simp [hrest₁] at hnext
      | cons b rest₂ =>
        have hb : b = comma := by simpa [hrest₁] using hnext
        rw [hrest₁, hb] at hrest
        rw [hrest₁, List.drop_succ_cons, List.drop_zero] at herr
        cases hrec : quirkPath after fuel rest₂ with
        | ok r =>
          rw [hrec] at herr
          cases herr
        | error rc' =>
          rw [hrec] at herr
          cases herr
          obtain ⟨hrc, hcases⟩ := ih hrec
          have hspaces : ch ':' ∉ spaces := fun h => absurd (helem.spaces _ h) (by decide)
          have hbody : bodyText rest = bodyText rest₂ := by
            rw [hrest, bodyText_append helem.no_colon, bodyText_append hspaces]
            rfl
          have hhead : headerText rest = elem ++ (spaces ++ comma :: headerText rest₂) := by
            rw [hrest, helem.headerText_eq]
            rfl
          rw [hbody, hhead]
          exact ⟨hrc, hcases.imp_right fun h => by simp [h]⟩
    next hcomma =>
    split at herr
    next hnext =>
      have hend : headerText (tail.dropWhile (· == ch ' ')) = [] := by
        cases hrest₁ : tail.dropWhile (· == ch ' ') with
        | nil => rfl
        | cons b rest₂ =>
          rw [hrest₁] at hnext
          exact headerText_eq_nil.mpr (.inr (congrArg some (by simpa using hnext)))
      rw [quirkPath_end hend] at herr
      cases herr
    next hcolon =>
      cases herr
      refine ⟨rfl, ?_⟩
      rw [hsplit]
      cases tail with
      | nil => exact .inl (bodyText_append helem.no_colon)
      | cons b tail =>
        have hb : b = comma ∨ b = ch ':' ∨ b = ch ' ' := by
          simpa [Classical.or_iff_not_imp_left] using hstop
        rcases hb with rfl | rfl | rfl
        · exact absurd rfl hcomma
        · exact absurd rfl hcolon
        · right
          rw [headerText_append helem.no_colon]
          exact List.mem_append_right _ List.mem_cons_self

/-- A line without blanks is rejected only if it has no `:` after the `>`. -/
theorem quirked_error {line : Bytes} {rc : Int} (herr : quirked after line = .error rc)
    (hfirst : ∀ b ∈ line.head?, b ≠ ch ' ' ∧ b ≠ 0) (hspace : ch ' ' ∉ headPart line) :
    rc < 0 ∧ bodyPart line = [] := by
  have hline : line.dropWhile (fun b => b == ch ' ' || b == 0) = line := by
    cases line with
    | nil => rfl
    | cons b line =>
      have hb := hfirst b rfl
      simp [hb.1, hb.2]
  simp only [quirked, hline] at herr
  split at herr
  next hempty =>
    cases herr
    rw [List.isEmpty_iff.mp hempty]
    exact ⟨by decide, rfl⟩
  next =>
  have hsrc : ∀ b ∈ line.takeWhile (! (fun b => b == ch '>' || b == ch ' ') ·), b ≠ ch '>' := by
    intro b hb
    have := List.mem_takeWhile_imp hb
    rintro rfl
    simp at this
  have hsplit := (List.takeWhile_append_dropWhile
    (p := (! (fun b => b == ch '>' || b == ch ' ') ·)) (l := line)).symm
  have hstop := List.head?_dropWhile_not (! (fun b => b == ch '>' || b == ch ' ') ·) line
  generalize line.takeWhile _ = src at herr hsrc hsplit
  generalize line.dropWhile _ = tail at herr hsplit hstop
  have hgt : tail = [] ∨ tail.head? = some (ch '>') := by
    cases tail with
    | nil => exact .inl rfl
    | cons b tail =>
      have hb : b = ch '>' ∨ b = ch ' ' := by
        simpa [Classical.or_iff_not_imp_left] using hstop
      rcases hb with rfl | rfl
      · exact .inr rfl
      · refine absurd ?_ hspace
        have hkeep : ∀ x ∈ src, (x != ch '>') = true := fun x hx => bne_iff_ne.mpr (hsrc x hx)
        rw [headPart, hsplit, List.takeWhile_append_of_pos hkeep,
          List.takeWhile_cons_of_pos (by decide)]
        simp
  have hskip : tail.dropWhile (· == ch ' ') = tail := by
    cases tail with
    | nil => rfl
    | cons b tail =>
      have hb : b = ch '>' := by simpa using hgt
      rw [hb]
      rfl
  obtain ⟨hhead, hbody⟩ := parts_of_split (fun h => hsrc _ h rfl) hgt
  rw [hsplit] at hspace ⊢
  rw [hhead] at hspace
  rw [hbody]
  rw [hskip] at herr
  split at herr
  next hne =>
    cases herr
    refine ⟨by decide, ?_⟩
    cases tail with
    | nil => rfl
    | cons b tail =>
      have hb : b = ch '>' := by simpa using hgt
      simp [hb] at hne
  next =>
  cases hpath : quirkPath after (tail.length + 1) tail with
  | ok r =>
    rw [hpath] at herr
    cases herr
  | error rc' =>
    rw [hpath] at herr
    cases herr
    obtain ⟨rfl, hcases⟩ := quirkPath_error hpath
    refine ⟨by decide, hcases.resolve_right fun h => hspace ?_⟩
    exact List.mem_append_right _ h

end

/-! ## Rejected lines -/

section

variable {env : IncomingEnv} {c : Client} {line s : Bytes}

/-- A header ends at a `:` after the `>`. -/
theorem parseHeader_error (cfg : Config) (hbody : bodyPart s = []) :
    ∃ rc < 0, parseHeader cfg s = .error rc := by
  unfold parseHeader
  split
  next => exact ⟨_, by decide, rfl⟩
  next =>
  split
  next => exact ⟨_, by decide, rfl⟩
  next pathlen hcolon =>
  split
  next => exact ⟨_, by decide, rfl⟩
  next srcLen hgt =>
  exfalso
  obtain ⟨-, hs, -⟩ := findIdx?_beq_eq_some hcolon
  obtain ⟨-, hsrc, hno⟩ := findIdx?_beq_eq_some hgt
  obtain ⟨more, hmore⟩ : s.take (min pathlen (callsignlenMax + 1)) <+: s.take pathlen :=
    List.take_prefix_take_left (Nat.min_le_left _ _)
  rw [← hmore, hsrc] at hs
  rw [hs] at hbody
  simp only [List.append_assoc, List.cons_append] at hbody
  rw [(parts_of_split hno (.inr rfl)).2] at hbody
  have hmem := List.dropWhile_eq_nil_iff.mp hbody (ch ':') (by simp)
  exact absurd hmem (by decide)

/-- A line without such a `:` is rejected. -/
theorem rejects_of_bodyPart (hbody : bodyPart s = []) : Rejects (incomingParseLine env c s) := by
  obtain ⟨rc, hrc, herr⟩ := parseHeader_error env.cfg hbody
  exact ⟨rc, hrc, by simp [incomingParseLine, herr]⟩

/-- In quirks mode, `incoming_parse` goes on with the copy. -/
theorem incomingParse_quirks {fuel : Nat} (hquirks : c.quirksMode = true)
    (hlen : line.length < quirkedLen) (hfuel : line.length < fuel) :
    incomingParse env c line =
      match rewriteQuirks (env.mem.byte line.length) fuel line with
      | .ok s => incomingParseLine env c s
      | .error (.rejected rc) => .dropped rc
      | .error _ => .dropped 0 := by
  rw [rewriteQuirks_eq hlen hfuel, incomingParse, lineOf, if_pos hquirks]
  cases quirked (env.mem.byte line.length) line with
  | error rc => rfl
  | ok s => rfl

/-- Quirks mode only removes blanks: the rewriting ends and rejects the line, or takes blanks
out of its header, within its buffer. A line without blanks stays as it is, unless it is
rejected with and without quirks mode. -/
theorem quirks_only_remove_blanks (env : IncomingEnv) (c : Client) (line : Bytes) (fuel : Nat)
    (hlen : line.length ≤ packetlenMax - 2) (hfuel : line.length < fuel) :
    ((∃ rc, rewriteQuirks (env.mem.byte line.length) fuel line = .error (.rejected rc)) ∨
      ∃ s, rewriteQuirks (env.mem.byte line.length) fuel line = .ok s ∧ BlanksRemoved line s ∧
        s.length ≤ line.length ∧ s.length < quirkedLen) ∧
    ((∀ b ∈ line.head?, b ≠ ch ' ' ∧ b ≠ 0) → ch ' ' ∉ headPart line →
      rewriteQuirks (env.mem.byte line.length) fuel line = .ok line ∨
        (Rejects (incomingParse env { c with quirksMode := true } line) ∧
          Rejects (incomingParse env { c with quirksMode := false } line))) := by
  have hfits : line.length < quirkedLen := by
    rw [quirkedLen]
    omega
  rw [rewriteQuirks_eq hfits hfuel]
  cases hquirked : quirked (env.mem.byte line.length) line with
  | ok s =>
    have hremoved := quirked_removes hquirked
    have hle := hremoved.length_le
    refine ⟨.inr ⟨s, rfl, hremoved, hle, by omega⟩, fun hfirst hspace => .inl ?_⟩
    rw [hremoved.eq_of_clean hfirst hspace]
    rfl
  | error rc =>
    refine ⟨.inl ⟨rc, rfl⟩, fun hfirst hspace => .inr ?_⟩
    obtain ⟨hrc, hbody⟩ := quirked_error hquirked hfirst hspace
    constructor
    · exact ⟨rc, hrc, by simp [incomingParse, lineOf, hquirked]⟩
    · exact rejects_of_bodyPart hbody

theorem quirks_only_remove_blanks_src :
    ((∃ rc, rewriteQuirks 0 40 (ascii " SRC >DST,GATE :>a b") = .error (.rejected rc)) ∨
      ∃ s, rewriteQuirks 0 40 (ascii " SRC >DST,GATE :>a b") = .ok s ∧
        BlanksRemoved (ascii " SRC >DST,GATE :>a b") s ∧
        s.length ≤ (ascii " SRC >DST,GATE :>a b").length ∧ s.length < quirkedLen) ∧
    (rewriteQuirks 0 40 (ascii "SRC>DST:>a b") = .ok (ascii "SRC>DST:>a b") ∨
      Rejects (incomingParse .unrestricted { Client.verifiedInbound with quirksMode := true }
        (ascii "SRC>DST:>a b")) ∧
      Rejects (incomingParse .unrestricted { Client.verifiedInbound with quirksMode := false }
        (ascii "SRC>DST:>a b"))) := by
  have hblanks := quirks_only_remove_blanks .unrestricted .verifiedInbound
    (ascii " SRC >DST,GATE :>a b") 40 (by decide) (by decide)
  have hclean := quirks_only_remove_blanks .unrestricted .verifiedInbound (ascii "SRC>DST:>a b") 40
    (by decide) (by decide)
  refine ⟨hblanks.1, hclean.2 (fun b hb => ?_) (by decide)⟩
  have hfirst : ch 'S' = b := Option.some.inj hb
  rw [← hfirst]
  decide

example : rewriteQuirks 0 40 (ascii " SRC >DST,GATE :>a b") = .ok (ascii "SRC>DST,GATE:>a b") := by
  decide

end

end Aprsc
