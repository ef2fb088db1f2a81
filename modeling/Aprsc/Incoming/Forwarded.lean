-- SUMMARY: The path of a queued packet, entry by entry.
import Aprsc.Incoming.Rewrite

/-!
# Forwarded paths

The path of a packet that is queued, as the next server will split it at its commas:
the received path with its construct, the same with the login and the serverid added to a
trace, or the entries that stay and the ones that are generated.
-/

namespace Aprsc

/-! ## Entries that are added -/

/-- The construct that is written, which a `,` for the protocol splits in two. -/
def NewQ.construct (n : NewQ) : List Bytes :=
  if n.proto = comma then [[ch 'q'], [n.type]] else [[ch 'q', n.proto, n.type]]

/-- The entries that are added, as they are read again. -/
def NewQ.entries (n : NewQ) : List Bytes := n.tcp ++ n.construct ++ [n.call]

theorem NewQ.joinFields_entries (n : NewQ) : joinFields comma n.entries = joinFields comma n.added := by
  unfold NewQ.entries NewQ.construct NewQ.added
  split
  next hcomma => simp [hcomma]
  next => simp

/-- The entries that are added to a trace. -/
def traceEntries (cfg : Config) (c : Client) (after : List Bytes) : List Bytes :=
  fields comma (tracedLogin c (callTexts maxQCalls after)) ++ [cfg.serverid]

theorem tracedLogin_head {c : Client} {calls : List Bytes} :
    ∀ x ∈ (tracedLogin c calls).head?, x = comma := by
  intro x hx
  unfold tracedLogin at hx
  split at hx
  next => simpa using hx.symm
  next => simp at hx

theorem joinFields_traceEntries (cfg : Config) (c : Client) (after : List Bytes) :
    joinFields comma (traceEntries cfg c after) =
      tracedLogin c (callTexts maxQCalls after) ++ comma :: cfg.serverid := by
  simp [traceEntries, joinFields_fields tracedLogin_head]

theorem comma_not_mem_traceEntries {cfg : Config} {c : Client} {after : List Bytes} {e : Bytes}
    (he : e ∈ traceEntries cfg c after) : comma ∉ e := by
  unfold traceEntries at he
  rw [List.mem_append, List.mem_singleton] at he
  cases he with
  | inl he => exact not_mem_of_mem_fields he
  | inr he =>
    rw [he]
    exact cfg.comma_not_mem_serverid

/-! ## The check of igate calls -/

/-- `check_igate_calls` finds nothing in these entries. -/
def IgatePasses (cfg : Config) (es : List Bytes) : Prop :=
  ∀ set, cfg.disallowIgateGlob = some set →
    ∀ e ∈ dropFinalEmpty es, checkCallGlobMatch cfg.fnmatch set e = false

theorem checkIgateCallsLoop_eq (cfg : Config) (set : List Bytes) (fuel : Nat) (rest : Bytes) :
    checkIgateCallsLoop cfg set fuel rest =
      (visitFields comma fuel rest).any (checkCallGlobMatch cfg.fnmatch set) := by
  induction fuel generalizing rest with
  | zero => rfl
  | succ fuel ih =>
    simp only [checkIgateCallsLoop, visitFields]
    split
    next => rfl
    next =>
      simp only [List.any_cons]
      split
      next hmatch => simp [hmatch]
      next hmatch => simp [hmatch, ih]

/-- The check of a construct that is kept. -/
theorem igatePasses_of_kept {cfg : Config} {out : QOut} {q : Int} {e : Bytes} {es : List Bytes}
    (hstart : out.newQStart = .at (q + 1)) (hq : 0 ≤ q)
    (hat : out.area.At (q + 1) (e ++ joinFields comma es))
    (hend : out.pathEnd = q + 1 + (e ++ joinFields comma es).length) (he : e ≠ [])
    (hc : ∀ f ∈ e :: es, comma ∉ f) (hok : disallowedIgate cfg out = false) :
    IgatePasses cfg (e :: es) := by
  intro set hset f hf
  have hpos : 0 < (e ++ joinFields comma es).length := by
    have := List.length_pos_of_ne_nil he
    rw [List.length_append]
    omega
  unfold disallowedIgate at hok
  simp only [hset, hstart] at hok
  rw [if_pos (by omega)] at hok
  have hslice : out.area.slice (q + 1) (out.pathEnd - (q + 1)).toNat = e ++ joinFields comma es := by
    rw [show (out.pathEnd - (q + 1)).toNat = (e ++ joinFields comma es).length by omega]
    exact hat
  rw [hslice, checkIgateCallsLoop_eq, visitFields_joinFields (hc e List.mem_cons_self)
    (fun g hg => hc g (List.mem_cons_of_mem _ hg)) (Nat.le_refl _), List.any_eq_false] at hok
  simpa using hok f hf

/-! ## The path of a queued packet -/

/-- The entries of the path of a queued packet. -/
inductive Forwarded (cfg : Config) (clientlist : List ClientEntry) (c : Client) (s : Bytes)
    (h : Header) (originated : Bool) : List Bytes → Prop where
  | kept {proto type t : UInt8} {after : List Bytes}
      (view : qView (h.path s) = .good proto type after)
      (keeps : Keeps c (h.path s) originated proto)
      (passed : ¬ Refused cfg clientlist s c proto type after)
      (edited : t = type ∨ clientOnlyType type = some t) (plain : t ≠ ch 'I')
      (igate : IgatePasses cfg ([ch 'q', proto, t] :: after)) :
      Forwarded cfg clientlist c s h originated
        (beforeQ (h.path s) ++ [ch 'q', proto, t] :: after)
  | trace {proto : UInt8} {after : List Bytes}
      (view : qView (h.path s) = .good proto (ch 'I') after)
      (keeps : Keeps c (h.path s) originated proto)
      (passed : ¬ Refused cfg clientlist s c proto (ch 'I') after)
      (igate : IgatePasses cfg ([ch 'q', proto, ch 'I'] :: after)) :
      Forwarded cfg clientlist c s h originated (h.path s ++ traceEntries cfg c after)
  | generated {n : NewQ} (new : newConstruct cfg c (h.path s) originated = some n) :
      Forwarded cfg clientlist c s h originated (n.kept ++ n.entries)

/-- No trace is edited. -/
theorem type_ne_of_plain {type t : UInt8} (hedit : t = type ∨ clientOnlyType type = some t)
    (hplain : t ≠ ch 'I') : type ≠ ch 'I' := by
  rintro rfl
  cases hedit with
  | inl h => exact hplain h
  | inr h => exact absurd rfl (plainType_of_clientOnlyType h).1.2.2.2

section

variable {cfg : Config} {clientlist : List ClientEntry} {c : Client} {m : Area UInt8} {s : Bytes}
  {h : Header} {originated : Bool} {out : QOut} (hl : Loaded m s h)
include hl

theorem comma_not_mem_entries {n : NewQ} (hnew : NewCase cfg c (h.path s) originated n) {e : Bytes}
    (he : e ∈ n.kept ++ n.entries) : comma ∉ e := by
  obtain ⟨t, ht, htype⟩ := hnew.type_mem
  have htype : n.type ≠ comma := htype ▸ (type_ok ht).1
  simp only [NewQ.entries, List.mem_append, List.mem_singleton] at he
  rcases he with he | (he | he) | he
  · obtain ⟨rest, hpath⟩ := hnew.prefix_uncut.trans (prefix_uncutPath (h.path s))
    exact hl.admitted.no_comma e (hpath ▸ List.mem_append_left _ he)
  · rcases hnew.tcp_cases with htcp | htcp | htcp
    · simp [htcp] at he
    · rw [htcp, List.mem_singleton] at he
      subst he
      decide
    · rw [htcp, List.mem_singleton] at he
      subst he
      decide
  · have hq : comma ≠ ch 'q' := by decide
    unfold NewQ.construct at he
    split at he
    next =>
      simp only [List.mem_cons, List.not_mem_nil, or_false] at he
      rcases he with rfl | rfl
      · simpa using hq
      · simpa using htype.symm
    next hproto =>
      rw [List.mem_singleton] at he
      subst he
      simpa using ⟨hq, Ne.symm hproto, htype.symm⟩
  · rw [he]
    exact (hl.newCase_call_ok hnew).2.1

theorem Forwarded.comma_not_mem {es : List Bytes}
    (hfwd : Forwarded cfg clientlist c s h originated es) {e : Bytes} (he : e ∈ es) : comma ∉ e := by
  cases hfwd with
  | kept view _ _ edited _ _ => exact (edited_chars hl view edited e he).1
  | trace view =>
    rw [List.mem_append] at he
    cases he with
    | inl he => exact hl.admitted.no_comma e he
    | inr he => exact comma_not_mem_traceEntries he
  | generated new => exact comma_not_mem_entries hl (newConstruct_cases new) he

/-- The path of a packet that keeps its construct. -/
theorem forwarded_kept {proto type t : UInt8} {after : List Bytes} {m' : Area UInt8}
    (hv : qView (h.path s) = .good proto type after) (hkeeps : Keeps c (h.path s) originated proto)
    (hpassed : ¬ Refused cfg clientlist s c proto type after)
    (hedit : Edited m (h.pos (beforeQ (h.path s))) type m' t)
    (higate : disallowedIgate cfg
      (keptOut cfg c m' (h.pos (beforeQ (h.path s))) h.pathlen proto t after) = false) :
    ∃ es via, Forwarded cfg clientlist c s h originated es ∧
      Copies h s (keptOut cfg c m' (h.pos (beforeQ (h.path s))) h.pathlen proto t after) via ∧
      joinFields comma es =
        via ++ (keptOut cfg c m' (h.pos (beforeQ (h.path s))) h.pathlen proto t after).newQ := by
  obtain ⟨hat, hend⟩ := hl.at_construct hv
  have hat := hedit.at_construct hat
  have hpos := h.viaStart_le_pos (beforeQ (h.path s))
  have hpasses : IgatePasses cfg ([ch 'q', proto, t] :: after) := by
    have hsame : (keptOut cfg c m' (h.pos (beforeQ (h.path s))) h.pathlen proto t after).newQStart =
          .at (h.pos (beforeQ (h.path s)) + 1) ∧
        (keptOut cfg c m' (h.pos (beforeQ (h.path s))) h.pathlen proto t after).area = m' ∧
        (keptOut cfg c m' (h.pos (beforeQ (h.path s))) h.pathlen proto t after).pathEnd =
          h.pathlen := by
      unfold keptOut
      split <;> exact ⟨rfl, rfl, rfl⟩
    refine igatePasses_of_kept hsame.1 (by omega) ?_ ?_ (by simp) ?_ higate
    · rw [hsame.2.1]
      exact hat
    · rw [hsame.2.2, hend]
      simp only [List.length_append, List.length_cons, List.length_nil]
      omega
    · intro f hf
      exact (edited_chars hl hv hedit.type_eq f (List.mem_append_right _ hf)).1
  cases decEq t (ch 'I') with
  | isTrue hI =>
    subst hI
    -- an edited construct is no trace
    cases hedit with
    | inr hedit => exact absurd rfl (plainType_of_clientOnlyType hedit.1).2.2.2.2
    | inl hedit =>
      obtain ⟨rfl, rfl⟩ := hedit
      refine ⟨_, _, .trace hv hkeeps hpassed hpasses, hl.copies_trace hv, ?_⟩
      rw [joinFields_append, joinFields_traceEntries]
      conv_lhs => rw [(eq_of_good hv).1]
      simp [keptOut]
  | isFalse hI =>
    refine ⟨_, _, .kept hv hkeeps hpassed hedit.type_eq hI hpasses, hl.copies_kept hv hedit hI, ?_⟩
    simp [keptOut, hI]

end

/-- The path of a queued packet is one of these. -/
theorem Passage.forwarded {env : IncomingEnv} {c : Client} {line s : Bytes} {pb : Pbuf} {h : Header}
    {out : QOut} {qc : Int} {cls : UInt16} {f : AprsFields}
    (hp : Passage env c line pb s h out qc cls f) :
    ∃ es, Forwarded env.cfg env.clientlist c s h (originatedByClient c h s) es ∧
      pb.viaText = joinFields comma es ∧ fields comma pb.viaText = es := by
  have hl := Loaded.of_parseHeader env.mem hp.header_eq
  obtain ⟨es, via, hfwd, hcopies, hjoin⟩ : ∃ es via,
      Forwarded env.cfg env.clientlist c s h (originatedByClient c h s) es ∧
        Copies h s out via ∧ joinFields comma es = via ++ out.newQ := by
    have higate := hp.igate_ok
    cases hl.qProcess_outcome hp.q_eq with
    | kept view keeps passed edited =>
      exact forwarded_kept hl view keeps (fun href => passed (.inr href)) edited higate
    | @generated n _ _ new follows =>
      have hnew := newConstruct_cases new
      obtain ⟨rest, hpath⟩ := hnew.prefix_uncut.trans (prefix_uncutPath (h.path s))
      refine ⟨_, _, .generated new, hl.copies_generated hpath.symm follows.area_eq follows.cut_eq, ?_⟩
      rw [joinFields_append, n.joinFields_entries, follows.newQ_eq]
    | missing lost => exact absurd hp.qconst_eq (by rw [lost]; simp)
  have htext := hp.viaText_eq hcopies
  rw [← hjoin] at htext
  refine ⟨es, hfwd, htext, ?_⟩
  rw [htext]
  exact fields_joinFields fun e he => hfwd.comma_not_mem hl he

/-! ## The entries from the construct on -/

/-- The entries of a path from its construct on. -/
def fromQ (path : List Bytes) : List Bytes := path.dropWhile (! startsQ ·)

theorem fromQ_kept (path after : List Bytes) (proto t : UInt8) :
    fromQ (beforeQ path ++ [ch 'q', proto, t] :: after) = [ch 'q', proto, t] :: after := by
  unfold fromQ
  rw [List.dropWhile_append_of_pos]
  · rfl
  · intro e he
    simpa using startsQ_of_mem_beforeQ he

theorem fromQ_append {path es : List Bytes} (h : fromQ path ≠ []) :
    fromQ (path ++ es) = fromQ path ++ es := by
  unfold fromQ at h ⊢
  rw [List.dropWhile_append, if_neg (by simpa using h)]

theorem NewQ.fromQ_construct (n : NewQ) : fromQ (n.construct ++ [n.call]) = n.construct ++ [n.call] := by
  unfold NewQ.construct
  split <;> rfl

section

variable {cfg : Config} {c : Client} {path : List Bytes} {originated : Bool} {n : NewQ}

theorem NewCase.startsQ_tcp (h : NewCase cfg c path originated n) :
    ∀ e ∈ n.tcp, (!startsQ e) = true := by
  rcases h.tcp_cases with htcp | htcp | htcp <;> rw [htcp] <;> decide

theorem NewQ.entries_eq (n : NewQ) : n.entries = n.tcp ++ (n.construct ++ [n.call]) := by
  simp [NewQ.entries]

/-- No other construct stands before the one that is generated. -/
theorem NewCase.fromQ_of_not_nul (h : NewCase cfg c path originated n)
    (hnul : ¬ ∃ type after, NulForwarded c path originated type after) :
    fromQ (n.kept ++ n.entries) = n.construct ++ [n.call] := by
  rw [← h.nul_iff] at hnul
  have hkept : ∀ f ∈ n.kept ++ n.tcp, (!startsQ f) = true := by
    intro f hf
    rw [List.mem_append] at hf
    cases hf with
    | inl hf =>
      apply Classical.byContradiction
      intro hstarts
      exact hnul ⟨f, hf, by simpa using hstarts⟩
    | inr hf => exact h.startsQ_tcp f hf
  rw [n.entries_eq, ← List.append_assoc, fromQ, List.dropWhile_append_of_pos hkept]
  exact n.fromQ_construct

/-- A construct with a NUL protocol is the first one of the path that is sent on. -/
theorem NewCase.fromQ_nul (h : NewCase cfg c path originated n) {type : UInt8} {after : List Bytes}
    (hnul : NulForwarded c path originated type after) :
    ∃ rest, fromQ n.kept = [ch 'q', 0, type] :: rest := by
  obtain ⟨rest, hpath⟩ := h.prefix_uncut.trans (prefix_uncutPath path)
  obtain ⟨f, hf, hstarts⟩ := h.nul_iff.mpr ⟨type, after, hnul⟩
  have hsplit := (eq_of_good hnul.view).1
  -- the entries that stay reach beyond the construct
  have hin : f ∉ beforeQ path := fun hmem => by
    rw [startsQ_of_mem_beforeQ hmem] at hstarts
    cases hstarts
  rcases List.append_eq_append_iff.mp (hpath.trans hsplit) with ⟨more, hbefore, -⟩ | ⟨more, hkept, hmore⟩
  · exact absurd (hbefore ▸ List.mem_append_left _ hf) hin
  · cases more with
    | nil =>
      rw [List.append_nil] at hkept
      exact absurd (hkept ▸ hf) hin
    | cons x more =>
      rw [List.cons_append, List.cons.injEq] at hmore
      refine ⟨more, ?_⟩
      rw [hkept, ← hmore.1]
      exact fromQ_kept _ _ _ _

/-- What stands from the construct on, when one is generated. -/
theorem NewCase.mem_fromQ (h : NewCase cfg c path originated n) {e : Bytes} :
    e ∈ fromQ (n.kept ++ n.entries) ↔
      e ∈ n.construct ++ [n.call] ∨
        (∃ type after, NulForwarded c path originated type after) ∧ e ∈ fromQ n.kept ++ n.tcp := by
  cases Classical.em (∃ type after, NulForwarded c path originated type after) with
  | inl hnul =>
    obtain ⟨type, after, hforwarded⟩ := hnul
    obtain ⟨rest, hfrom⟩ := h.fromQ_nul hforwarded
    rw [fromQ_append (by simp [hfrom]), n.entries_eq]
    simp only [show ∃ type after, NulForwarded c path originated type after from
      ⟨type, after, hforwarded⟩, true_and, List.mem_append]
    tauto
  | inr hnul =>
    rw [h.fromQ_of_not_nul hnul]
    simp [hnul]

end

end Aprsc
