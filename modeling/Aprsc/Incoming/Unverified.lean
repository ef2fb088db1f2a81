-- SUMMARY: What the checks of `disallow_unverified` find in a queued packet, in its header as it was received and in its construct.
import Aprsc.Incoming.Forwarded

/-!
# Unverified packets

With `disallow_unverified` a packet is dropped that some server on its way has marked as
unverified, by a `TCPXX` entry in its path or by a construct of type `X`. The path is
searched late, after quirks mode has made a copy of the line and `q_process` has written
into it, and the type of the construct is looked at in `q_dropcheck`.
-/

namespace Aprsc

/-! ## Quirks mode -/

/-- The header of a line, up to the first `:`. -/
def headerText (line : Bytes) : Bytes := line.takeWhile (· != ch ':')

theorem headerText_append {xs ys : Bytes} (h : ch ':' ∉ xs) :
    headerText (xs ++ ys) = xs ++ headerText ys := by
  unfold headerText
  rw [List.takeWhile_append_of_pos]
  intro b hb
  rw [bne_iff_ne]
  rintro rfl
  exact h hb

theorem headerText_append_of_mem {xs ys : Bytes} (h : ch ':' ∈ xs) :
    headerText (xs ++ ys) = headerText xs := by
  obtain ⟨pre, post, rfl, hpre⟩ := List.eq_append_cons_of_mem h
  rw [List.append_assoc, headerText_append hpre, headerText_append hpre]
  simp [headerText]

theorem head?_headerText {xs : Bytes} {b : UInt8} (h : b ∈ (headerText xs).head?) : b ∈ xs.head? := by
  unfold headerText at h
  cases xs with
  | nil => simp at h
  | cons x xs =>
    rw [List.takeWhile_cons] at h
    split at h
    next => simpa using h
    next => simp at h

section

variable {after : UInt8} {needle : Bytes}

/-- Spaces at the end of a callsign are no part of an entry. -/
theorem prefix_of_prefix_spaces {elem spaces rest : Bytes} (hn : ch ' ' ∉ needle ∧ comma ∉ needle)
    (hs : ∀ b ∈ spaces, b = ch ' ') (hrest : ∀ b ∈ rest.head?, b = comma)
    (h : needle <+: elem ++ (spaces ++ rest)) : needle <+: elem := by
  cases List.prefix_or_prefix_of_prefix h (List.prefix_append elem _) with
  | inl h => exact h
  | inr helem =>
    obtain ⟨t, rfl⟩ := helem
    rw [List.prefix_append_right_inj] at h
    cases t with
    | nil => simp
    | cons b t =>
      have hb : b = ch ' ' ∨ b = comma := by
        cases spaces with
        | nil =>
          obtain ⟨u, hu⟩ := h
          exact .inr (hrest b (by simp [← show b :: t ++ u = rest from hu]))
        | cons x spaces =>
          rw [List.cons_append, List.cons_prefix_cons] at h
          exact .inl (h.1 ▸ hs x List.mem_cons_self)
      cases hb with
      | inl hb => exact absurd (by simp [hb]) hn.1
      | inr hb => exact absurd (by simp [hb]) hn.2

/-- An entry that starts with `needle` does so in the copy, too. -/
structure KeepsEntry (needle rest copy : Bytes) : Prop where
  first : needle <+: headerText rest → needle <+: headerText copy
  later : comma :: needle <:+: headerText rest → comma :: needle <:+: headerText copy

/-- An element of the path and the spaces after it. -/
structure QuirkElem (elem spaces : Bytes) : Prop where
  no_comma : comma ∉ elem
  no_colon : ch ':' ∉ elem
  spaces : ∀ b ∈ spaces, b = ch ' '

namespace QuirkElem

variable {elem spaces : Bytes}

theorem not_mem_append (he : QuirkElem elem spaces) : comma ∉ elem ++ spaces := by
  rw [List.mem_append]
  rintro (h | h)
  · exact he.no_comma h
  · exact absurd (he.spaces _ h) (by decide)

theorem headerText_eq (he : QuirkElem elem spaces) (rest : Bytes) :
    headerText (elem ++ (spaces ++ rest)) = elem ++ (spaces ++ headerText rest) := by
  have hspaces : ch ':' ∉ spaces := fun h => absurd (he.spaces _ h) (by decide)
  rw [headerText_append he.no_colon, headerText_append hspaces]

/-- An element that is followed by others. -/
theorem keeps_comma (he : QuirkElem elem spaces) (hn : ch ' ' ∉ needle ∧ comma ∉ needle)
    {rest copy : Bytes} (hrest : KeepsEntry needle rest copy) :
    KeepsEntry needle (elem ++ (spaces ++ comma :: rest)) (elem ++ comma :: copy) := by
  have hcomma : ∀ xs, headerText (comma :: xs) = comma :: headerText xs := fun _ => rfl
  constructor
  · intro hfirst
    rw [he.headerText_eq, hcomma] at hfirst
    rw [headerText_append he.no_colon]
    exact (prefix_of_prefix_spaces hn he.spaces (by simp) hfirst).trans (List.prefix_append _ _)
  · intro hlater
    rw [he.headerText_eq, hcomma, ← List.append_assoc, infix_append_of_not_mem he.not_mem_append,
      List.infix_cons_iff, List.cons_prefix_cons] at hlater
    rw [headerText_append he.no_colon, hcomma, infix_append_of_not_mem he.no_comma,
      List.infix_cons_iff, List.cons_prefix_cons]
    exact hlater.imp (fun h => ⟨rfl, hrest.first h.2⟩) hrest.later

/-- The last element: the header ends after it. -/
theorem keeps_last (he : QuirkElem elem spaces) (hn : ch ' ' ∉ needle ∧ comma ∉ needle)
    {rest : Bytes} (hend : headerText rest = []) (copy : Bytes) :
    KeepsEntry needle (elem ++ (spaces ++ rest)) (elem ++ copy) := by
  constructor
  · intro hfirst
    rw [he.headerText_eq, hend] at hfirst
    rw [headerText_append he.no_colon]
    exact (prefix_of_prefix_spaces hn he.spaces (by simp) hfirst).trans (List.prefix_append _ _)
  · intro hlater
    rw [he.headerText_eq, hend, List.append_nil] at hlater
    exact absurd (hlater.subset List.mem_cons_self) he.not_mem_append

end QuirkElem

/-- The parts of the text at one turn of the loop: an element, spaces, and the rest. -/
theorem quirk_split (rest : Bytes) {stops : UInt8 → Bool}
    (hstops : stops = fun b => b == comma || b == ch ':' || b == ch ' ') :
    ∃ spaces, QuirkElem (rest.takeWhile (! stops ·)) spaces ∧
      rest = rest.takeWhile (! stops ·) ++
        (spaces ++ (rest.dropWhile (! stops ·)).dropWhile (· == ch ' ')) := by
  have hstop : ∀ b ∈ rest.takeWhile (! stops ·), stops b = false := by
    intro b hb
    simpa using List.mem_takeWhile_imp hb
  refine ⟨(rest.dropWhile (! stops ·)).takeWhile (· == ch ' '), ⟨?_, ?_, ?_⟩, ?_⟩
  · intro hb
    have := hstop _ hb
    simp [hstops] at this
  · intro hb
    have := hstop _ hb
    simp [hstops] at this
  · intro b hb
    simpa using List.mem_takeWhile_imp hb
  · rw [List.takeWhile_append_dropWhile, List.takeWhile_append_dropWhile]

theorem headerText_eq_nil {rest : Bytes} :
    headerText rest = [] ↔ rest = [] ∨ rest.head? = some (ch ':') := by
  cases rest with
  | nil => simp [headerText]
  | cons b rest =>
    rw [headerText, List.takeWhile_cons]
    split
    next hb => simpa using hb
    next hb => simpa using hb

/-- The loop ends where the header does. -/
theorem quirkPath_end {rest : Bytes} (hend : headerText rest = []) (fuel : Nat) :
    quirkPath after fuel rest = .ok ([], rest) := by
  cases fuel with
  | zero => rfl
  | succ fuel =>
    have hstop : (rest.isEmpty || rest.head? == some (ch ':')) = true := by
      simpa using headerText_eq_nil.mp hend
    simp [quirkPath, hstop]

/-- One turn of the loop: the path ends here, an element is followed by others, or it is
the last one. -/
theorem quirkPath_cases {fuel : Nat} {rest : Bytes} {r : Bytes × Bytes}
    (hok : quirkPath after (fuel + 1) rest = .ok r) :
    headerText rest = [] ∧ r = ([], rest) ∨
    ∃ elem spaces rest₁, QuirkElem elem spaces ∧
      ((rest = elem ++ (spaces ++ comma :: rest₁) ∧
          ∃ r₁, quirkPath after fuel rest₁ = .ok r₁ ∧ r = (elem ++ comma :: r₁.1, r₁.2)) ∨
        rest = elem ++ (spaces ++ rest₁) ∧ headerText rest₁ = [] ∧ r = (elem, rest₁)) := by
  simp only [quirkPath] at hok
  split at hok
  next hstop =>
    cases hok
    exact .inl ⟨headerText_eq_nil.mpr (by simpa using hstop), rfl⟩
  next =>
  obtain ⟨spaces, helem, hrest⟩ := quirk_split rest rfl
  generalize rest.takeWhile _ = elem at hok hrest helem
  generalize (rest.dropWhile _).dropWhile _ = rest₁ at hok hrest
  right
  split at hok
  next hnext =>
    cases rest₁ with
    | nil => simp at hnext
    | cons b rest₂ =>
      simp only [List.head?_cons, beq_iff_eq, Option.some.injEq] at hnext
      subst hnext
      simp only [List.drop_succ_cons, List.drop_zero] at hok
      cases hrec : quirkPath after fuel rest₂ with
      | error rc =>
        rw [hrec] at hok
        cases hok
      | ok r₂ =>
        rw [hrec] at hok
        cases hok
        exact ⟨elem, spaces, rest₂, helem, .inl ⟨hrest, r₂, hrec, rfl⟩⟩
  next =>
  split at hok
  next hnext =>
    have hend : headerText rest₁ = [] := by
      cases rest₁ with
      | nil => rfl
      | cons b rest₁ =>
        simp only [List.headD_cons, beq_iff_eq] at hnext
        simp [headerText, hnext]
    rw [quirkPath_end hend] at hok
    cases hok
    exact ⟨elem, spaces, rest₁, helem, .inr ⟨hrest, hend, by rw [List.append_nil]⟩⟩
  next => cases hok

theorem quirkPath_keeps (hn : ch ' ' ∉ needle ∧ comma ∉ needle) (fuel : Nat) (rest : Bytes)
    {r : Bytes × Bytes} (hok : quirkPath after fuel rest = .ok r) :
    KeepsEntry needle rest (r.1 ++ r.2) := by
  induction fuel generalizing rest r with
  | zero =>
    cases hok
    exact ⟨id, id⟩
  | succ fuel ih =>
    rcases quirkPath_cases hok with ⟨_, rfl⟩ | ⟨elem, spaces, rest₁, helem, hturn⟩
    · exact ⟨id, id⟩
    · rcases hturn with ⟨rfl, r₁, hrec, rfl⟩ | ⟨rfl, hend, rfl⟩
      · rw [List.append_assoc, List.cons_append]
        exact helem.keeps_comma hn (ih rest₁ hrec)
      · exact helem.keeps_last hn hend rest₁

/-- The parts of a line that quirks mode copies: what stands before the source callsign and
the spaces after it are left out. -/
theorem quirked_cases {line s : Bytes} (hok : quirked after line = .ok s) :
    ∃ blanks src spaces rest r, line = blanks ++ (src ++ (spaces ++ rest)) ∧
      (∀ b ∈ blanks, b = ch ' ' ∨ b = 0) ∧ ch '>' ∉ src ∧ (∀ b ∈ spaces, b = ch ' ') ∧
      rest.headD after = ch '>' ∧
      quirkPath after (rest.length + 1) rest = .ok r ∧ s = src ++ (r.1 ++ r.2) := by
  simp only [quirked] at hok
  split at hok
  next => cases hok
  next =>
  split at hok
  next => cases hok
  next hgt =>
  generalize htext : line.dropWhile (fun b => b == ch ' ' || b == 0) = text at hok hgt
  generalize htail : text.dropWhile (! (fun b => b == ch '>' || b == ch ' ') ·) = tail at hok hgt
  cases hpath : quirkPath after ((tail.dropWhile (· == ch ' ')).length + 1)
      (tail.dropWhile (· == ch ' ')) with
  | error rc =>
    rw [hpath] at hok
    cases hok
  | ok r =>
  rw [hpath] at hok
  cases hok
  refine ⟨line.takeWhile (fun b => b == ch ' ' || b == 0), _, tail.takeWhile (· == ch ' '), _, r,
    ?_, ?_, ?_, ?_, by simpa using hgt, hpath, List.append_assoc _ _ _⟩
  · rw [List.takeWhile_append_dropWhile, ← htail, List.takeWhile_append_dropWhile, ← htext,
      List.takeWhile_append_dropWhile]
  · intro b hb
    simpa using List.mem_takeWhile_imp hb
  · intro hmem
    simpa using List.mem_takeWhile_imp hmem
  · intro b hb
    simpa using List.mem_takeWhile_imp hb

/-- Quirks mode does not hide an entry. -/
theorem quirked_keeps {line s : Bytes} (hn : ch ' ' ∉ needle ∧ comma ∉ needle)
    (hgt : ch '>' ∉ needle) (hok : quirked after line = .ok s)
    (hin : comma :: needle <:+: headerText line) : comma :: needle <:+: headerText s := by
  obtain ⟨blanks, src, spaces, rest, r, rfl, hblanks, _, hspaces, hhead, hpath, rfl⟩ :=
    quirked_cases hok
  have hblank : comma ∉ blanks ∧ ch ':' ∉ blanks :=
    ⟨fun h => absurd (hblanks _ h) (by decide), fun h => absurd (hblanks _ h) (by decide)⟩
  have hspace : comma ∉ spaces ∧ ch ':' ∉ spaces :=
    ⟨fun h => absurd (hspaces _ h) (by decide), fun h => absurd (hspaces _ h) (by decide)⟩
  rw [headerText_append hblank.2, infix_append_of_not_mem hblank.1] at hin
  cases Classical.em (ch ':' ∈ src) with
  | inl hcolon =>
    -- the header ends in the source callsign
    rw [headerText_append_of_mem hcolon] at hin ⊢
    exact hin
  | inr hcolon =>
    rw [headerText_append hcolon] at hin ⊢
    have hnext : ∀ b ∈ (headerText (spaces ++ rest)).head?, b ∉ comma :: needle := by
      intro b hb
      have hb : b = ch '>' ∨ b = ch ' ' := by
        have hb := head?_headerText hb
        cases spaces with
        | nil =>
          cases rest with
          | nil => simp at hb
          | cons x rest => exact .inl (by simpa [← hhead, eq_comm] using hb)
        | cons x spaces =>
          have hx : x = b := by simpa using hb
          exact .inr (hx ▸ hspaces x List.mem_cons_self)
      rw [List.mem_cons, not_or]
      rcases hb with rfl | rfl
      · exact ⟨by decide, hgt⟩
      · exact ⟨by decide, hn.1⟩
    cases infix_append_cases hnext hin with
    | inl hsrc => exact hsrc.trans (List.prefix_append _ _).isInfix
    | inr hrest =>
      rw [headerText_append hspace.2, infix_append_of_not_mem hspace.1] at hrest
      exact ((quirkPath_keeps hn _ rest hpath).later hrest).trans (List.suffix_append _ _).isInfix

end

/-! ## The path that is searched -/

section

variable {cfg : Config} {clientlist : List ClientEntry} {c : Client} {m : Area UInt8} {s : Bytes}
  {h : Header} {originated : Bool} {out : QOut}

theorem headerText_admitted (had : h.Admitted s) :
    headerText s = h.src s ++ ch '>' :: (h.dst s ++ joinFields comma (h.path s)) := by
  have hsrc : ch ':' ∉ h.src s := not_mem_callsign had.src_valid (by decide) (by decide)
  have hdst : ch ':' ∉ h.dst s := not_mem_callsign had.dst_valid (by decide) (by decide)
  have hpath : ch ':' ∉ joinFields comma (h.path s) := by
    intro hmem
    obtain ⟨e, he, hb⟩ := List.mem_flatMap.mp hmem
    cases hb with
    | tail _ hb => exact had.no_colon e he hb
  have hall : ch ':' ∉ h.src s ++ ch '>' :: (h.dst s ++ joinFields comma (h.path s)) := by
    simp only [List.mem_append, List.mem_cons, not_or]
    exact ⟨hsrc, by decide, hdst, hpath⟩
  have hline : s = (h.src s ++ ch '>' :: (h.dst s ++ joinFields comma (h.path s))) ++
      ch ':' :: h.info s := by
    conv_lhs => rw [had.line_eq]
    simp
  conv_lhs => rw [hline, headerText_append hall]
  simp [headerText]

/-- The path in memory, for a line with these entries. -/
theorem slice_lineWith (had : h.Admitted s) {es : List Bytes} (hat : m.At 0 (h.lineWith s es))
    (hlen : (joinFields comma es).length = (joinFields comma (h.path s)).length) :
    m.slice h.viaStart (h.pathlen - h.viaStart) = joinFields comma es := by
  have hsplit : h.lineWith s es =
      (h.src s ++ ch '>' :: h.dst s) ++ (joinFields comma es ++ ch ':' :: h.info s) := by
    simp [Header.lineWith]
  rw [hsplit, Area.at_append] at hat
  have hpath := hat.2
  rw [Area.at_append] at hpath
  have hstart : (0 : Int) + (h.src s ++ ch '>' :: h.dst s).length = h.viaStart := by
    have h1 := had.srcLen_eq
    have h2 := had.viaStart_eq
    simp only [List.length_append, List.length_cons]
    omega
  have hn : h.pathlen - h.viaStart = (joinFields comma es).length := by
    have := had.pathlen_eq
    omega
  rw [hn, ← hstart]
  exact hpath.1

/-- The path that is searched has all entries of the line, but for the construct. -/
theorem Loaded.searched_path (hl : Loaded m s h)
    (hout : Outcome cfg clientlist c m s h originated out) :
    ∃ es, out.area.slice h.viaStart (h.pathlen - h.viaStart) = joinFields comma es ∧
      (∀ e ∈ es, comma ∉ e) ∧ ∀ e ∈ h.path s, startsQ e = false → e ∈ es := by
  have hsame : ∃ es, m.slice h.viaStart (h.pathlen - h.viaStart) = joinFields comma es ∧
      (∀ e ∈ es, comma ∉ e) ∧ ∀ e ∈ h.path s, startsQ e = false → e ∈ es :=
    ⟨h.path s, slice_lineWith hl.admitted hl.at_lineWith rfl, hl.admitted.no_comma,
      fun e he _ => he⟩
  cases hout with
  | @kept proto type after m' t view keeps passed edited =>
    have harea : (keptOut cfg c m' (h.pos (beforeQ (h.path s))) h.pathlen proto t after).area = m' := by
      unfold keptOut
      split <;> rfl
    rw [harea]
    refine ⟨_, slice_lineWith hl.admitted (hl.edited_at view edited) (length_edited view),
      fun e he => (edited_chars hl view edited.type_eq e he).1, fun e he hq => ?_⟩
    rw [(eq_of_good view).1] at he
    simp only [List.mem_append, List.mem_cons] at he ⊢
    rcases he with he | rfl | he
    · exact .inl he
    · simp [startsQ] at hq
    · exact .inr (.inr he)
  | generated _ _ follows =>
    rw [follows.area_eq]
    exact hsame
  | missing => exact hsame

end

/-- A queued packet was not marked as unverified by an entry of its path, in the line as it
was received. -/
theorem Passage.no_tcpxx {env : IncomingEnv} {c : Client} {line s : Bytes} {pb : Pbuf} {h : Header}
    {out : QOut} {qc : Int} {cls : UInt16} {f : AprsFields}
    (hp : Passage env c line pb s h out qc cls f) (hset : env.cfg.disallowUnverified = true) :
    ¬ ascii ",TCPXX" <:+: headerText line := by
  intro hin
  have hl := Loaded.of_parseHeader env.mem hp.header_eq
  have hin : comma :: ascii "TCPXX" <:+: headerText s := by
    have hline := hp.line_eq
    unfold lineOf at hline
    split at hline
    next => exact quirked_keeps (by decide) (by decide) hline hin
    next =>
      cases hline
      exact hin
  have hfront : comma ∉ h.src s ++ ch '>' :: h.dst s := by
    simp only [List.mem_append, List.mem_cons, not_or]
    exact ⟨not_mem_callsign hl.admitted.src_valid (by decide) (by decide), by decide,
      hl.admitted.dst_no_comma⟩
  rw [headerText_admitted hl.admitted, ← List.cons_append, ← List.append_assoc,
    infix_append_of_not_mem hfront, infix_joinFields_iff (by decide) hl.admitted.no_comma] at hin
  obtain ⟨e, he, hpre⟩ := hin
  obtain ⟨es, hslice, hcomma, hmem⟩ := hl.searched_path (hl.qProcess_outcome hp.q_eq)
  have hnone := (hp.verified hset).2
  rw [hslice] at hnone
  have hnot : startsQ e = false := by
    obtain ⟨tail, rfl⟩ := hpre
    rfl
  exact findSub_eq_none hnone
    ((infix_joinFields_iff (by decide) hcomma).mpr ⟨e, hmem e he hnot, hpre⟩)

/-! ## The construct -/

/-- The type of the construct that `q_process` kept or generated. `qconst_start` points to
the construct, or to the `TCPIP*` or `TCPXX*` entry that was generated with it. -/
def Pbuf.qType (pb : Pbuf) : UInt8 :=
  ((pb.viaText.drop (pb.qconstStart - pb.dstcallEnd)).dropWhile (· != ch 'q')).getD 2 0

theorem Pbuf.qType_eq {pb : Pbuf} {before : List Bytes} {tcp rest : Bytes} {proto type : UInt8}
    (htext : pb.viaText = joinFields comma before ++ comma :: (tcp ++ ch 'q' :: proto :: type :: rest))
    (hstart : pb.qconstStart = pb.dstcallEnd + (joinFields comma before).length + 1)
    (htcp : ch 'q' ∉ tcp) : pb.qType = type := by
  have hsplit : pb.viaText =
      (joinFields comma before ++ [comma]) ++ (tcp ++ ch 'q' :: proto :: type :: rest) := by
    rw [htext]
    simp
  have hlen : pb.qconstStart - pb.dstcallEnd = (joinFields comma before ++ [comma]).length := by
    simp only [List.length_append, List.length_cons, List.length_nil]
    omega
  have hpass : ∀ b ∈ tcp, (b != ch 'q') = true := by
    intro b hb
    rw [bne_iff_ne]
    rintro rfl
    exact htcp hb
  unfold Pbuf.qType
  rw [hsplit, hlen, List.drop_left, List.dropWhile_append_of_pos hpass]
  rfl

/-- Only packets of unverified clients get a construct of type `X`. -/
theorem NewCase.type_ne_X {cfg : Config} {c : Client} {path : List Bytes} {originated : Bool} {n : NewQ}
    (h : NewCase cfg c path originated n) (hval : c.validated = true) : n.type ≠ ch 'X' := by
  cases h with
  | replaced =>
    simp only [newReplaced, hval, if_true]
    decide
  | udp => exact show ch 'U' ≠ ch 'X' by decide
  | unverified _ _ unverified => simp [hval] at unverified
  | clientOnlyOwn => exact show ch 'C' ≠ ch 'X' by decide
  | @login t _ _ _ type =>
    have hall : ∀ t ∈ ['O', 'S'], ch t ≠ ch 'X' := forall_mem_of_all (by decide)
    exact hall t type
  | @viacall t _ _ _ _ _ _ type =>
    have hall : ∀ t ∈ ['o', 'R', 'r'], ch t ≠ ch 'X' := forall_mem_of_all (by decide)
    exact hall t type
  | address => exact show ch 'S' ≠ ch 'X' by decide
  | own => exact show ch 'C' ≠ ch 'X' by decide

/-- A construct of type `X` is not kept. -/
theorem type_ne_X_of_kept {cfg : Config} {clientlist : List ClientEntry} {s : Bytes} {c : Client}
    {proto type t : UInt8} {after : List Bytes} (hset : cfg.disallowUnverified = true)
    (hpassed : ¬ Refused cfg clientlist s c proto type after)
    (hedit : t = type ∨ clientOnlyType type = some t) : t ≠ ch 'X' := by
  cases hedit with
  | inl hedit =>
    rw [hedit]
    exact fun hX => hpassed (.unverified hX hset)
  | inr hedit => rcases clientOnlyType_cases hedit with rfl | rfl <;> decide

/-- The text of a construct that is generated, after the entry for the client. -/
theorem NewCase.joinFields_added {cfg : Config} {c : Client} {path : List Bytes} {originated : Bool}
    {n : NewQ} (h : NewCase cfg c path originated n) :
    ∃ tcp, joinFields comma n.added =
      comma :: (tcp ++ ch 'q' :: n.proto :: n.type :: comma :: n.call) ∧ ch 'q' ∉ tcp := by
  unfold NewQ.added
  rcases h.tcp_cases with htcp | htcp | htcp
  · exact ⟨[], by simp [htcp], by simp⟩
  · exact ⟨ascii "TCPIP*" ++ [comma], by simp [htcp], by decide⟩
  · exact ⟨ascii "TCPXX*" ++ [comma], by simp [htcp], by decide⟩

section

variable {env : IncomingEnv} {c : Client} {line s : Bytes} {pb : Pbuf} {h : Header} {out : QOut}
  {qc : Int} {cls : UInt16} {f : AprsFields} (hp : Passage env c line pb s h out qc cls f)
include hp

/-- The construct that was kept. -/
theorem Passage.qType_kept {proto type t : UInt8} {after : List Bytes} {m' : Area UInt8}
    (hv : qView (h.path s) = .good proto type after)
    (hedit : Edited (env.mem.load s) (h.pos (beforeQ (h.path s))) type m' t)
    (hout : out = keptOut env.cfg c m' (h.pos (beforeQ (h.path s))) h.pathlen proto t after) :
    pb.qType = t := by
  have hl := Loaded.of_parseHeader env.mem hp.header_eq
  have hstart : pb.qconstStart =
      pb.dstcallEnd + (joinFields comma (beforeQ (h.path s))).length + 1 := by
    have hqc := hp.qconst_eq
    rw [hout] at hqc
    rw [hp.qconstStart_eq, hp.dstcallEnd_eq, qconstStart_keptOut hqc]
    unfold Header.pos
    omega
  obtain ⟨rest, htext⟩ : ∃ rest, pb.viaText =
      joinFields comma (beforeQ (h.path s)) ++ comma :: ([] ++ ch 'q' :: proto :: t :: rest) := by
    cases decEq t (ch 'I') with
    | isTrue hI =>
      subst hI
      cases hedit with
      | inr hedit => exact absurd rfl (plainType_of_clientOnlyType hedit.1).2.2.2.2
      | inl hedit =>
        obtain ⟨rfl, rfl⟩ := hedit
        rw [hp.viaText_eq (hout ▸ hl.copies_trace hv), hout]
        exact ⟨_, by simp [keptOut]; rfl⟩
    | isFalse hI =>
      rw [hp.viaText_eq (hout ▸ hl.copies_kept hv hedit hI), hout]
      exact ⟨joinFields comma after, by simp [keptOut, hI]⟩
  exact Pbuf.qType_eq htext hstart (by simp)

/-- The construct that was generated. -/
theorem Passage.qType_generated {n : NewQ}
    (hnew : NewCase env.cfg c (h.path s) (originatedByClient c h s) n)
    (hfollows : Follows (env.mem.load s) h n out) : pb.qType = n.type := by
  have hl := Loaded.of_parseHeader env.mem hp.header_eq
  obtain ⟨rest, hpath⟩ := hnew.prefix_uncut.trans (prefix_uncutPath (h.path s))
  obtain ⟨tcp, hadded, htcp⟩ := hnew.joinFields_added
  have htext := hp.viaText_eq (hl.copies_generated hpath.symm hfollows.area_eq hfollows.cut_eq)
  rw [hfollows.newQ_eq, hadded] at htext
  have hstart : pb.qconstStart = pb.dstcallEnd + (joinFields comma n.kept).length + 1 := by
    have hqc := hp.qconst_eq
    have hlen : out.newQ.length > 0 := by simp [hfollows.newQ_eq, hadded]
    simp only [QOut.qconstStart, hfollows.start_eq, hlen, if_true, hfollows.cut_eq,
      Option.some.injEq] at hqc
    rw [hp.qconstStart_eq, hp.dstcallEnd_eq, ← hqc]
    unfold Header.pos
    omega
  exact Pbuf.qType_eq htext hstart htcp

/-- A queued packet has no construct of type `X`, whether it was kept or generated. -/
theorem Passage.qType_ne_X (hset : env.cfg.disallowUnverified = true) : pb.qType ≠ ch 'X' := by
  have hl := Loaded.of_parseHeader env.mem hp.header_eq
  cases hl.qProcess_outcome hp.q_eq with
  | kept view _ passed edited =>
    rw [hp.qType_kept view edited rfl]
    exact type_ne_X_of_kept hset (fun href => passed (.inr href)) edited.type_eq
  | generated _ new follows =>
    have hnew := newConstruct_cases new
    rw [hp.qType_generated hnew follows]
    exact hnew.type_ne_X (hp.verified hset).1
  | missing lost =>
    have hqc := hp.qconst_eq
    rw [lost] at hqc
    cases hqc

end

end Aprsc
