-- SUMMARY: When the path of a queued packet passes the path checks again.
import Aprsc.Incoming.Forwarded

/-!
# Closure of the path grammar

A packet that is queued is sent to servers that check its path as this one did. The path
is put together from entries that have passed these checks, from a login, a serverid or
an address that have passed other ones, and from what `check_path_calls` does not see.
-/

namespace Aprsc

/-- `check_path_calls` accepts the path of the packet, and no element of it is empty. -/
def PathClosed (pb : Pbuf) : Prop :=
  (checkPathCalls pb.viaText).isSome = true ∧ [] ∉ fields comma pb.viaText

theorem pathClosed_iff_goodEntries {pb : Pbuf} {es : List Bytes} (hc : ∀ e ∈ es, comma ∉ e)
    (htext : pb.viaText = joinFields comma es) :
    PathClosed pb ↔ goodEntries false es = true := by
  unfold PathClosed
  rw [htext, checkPathCalls_isSome hc, fields_joinFields hc]
  constructor
  · rintro ⟨hgood, hne⟩
    rwa [dropFinalEmpty_of_not_mem hne] at hgood
  · intro hgood
    have hne : [] ∉ es := fun hmem => ne_nil_of_goodEntries hgood hmem rfl
    exact ⟨by rwa [dropFinalEmpty_of_not_mem hne], hne⟩

/-! ## The parts of a path -/

/-- Entries at the start of a path that was accepted are good unless one is empty. -/
theorem goodEntries_prefix {path kept rest : List Bytes}
    (hgood : goodEntries false (dropFinalEmpty path) = true) (hp : path = kept ++ rest) :
    goodEntries false kept = true ↔ [] ∉ kept := by
  constructor
  · intro h hmem
    exact ne_nil_of_goodEntries h hmem rfl
  · intro hne
    cases rest with
    | nil =>
      rw [List.append_nil] at hp
      rwa [hp, dropFinalEmpty_of_not_mem hne] at hgood
    | cons e es =>
      rw [hp, dropFinalEmpty_append (by simp), goodEntries_append, Bool.and_eq_true] at hgood
      exact hgood.1

theorem isQConstruct_construct (proto type : UInt8) : isQConstruct [ch 'q', proto, type] = true := rfl

/-- The type of a construct makes no difference. -/
theorem goodEntries_edited (es fs : List Bytes) (proto type t : UInt8) :
    goodEntries false (es ++ [ch 'q', proto, t] :: fs) =
      goodEntries false (es ++ [ch 'q', proto, type] :: fs) := by
  simp [goodEntries_append, goodEntries, goodEntry, isQConstruct_construct]

/-- Entries after a construct. -/
theorem goodEntries_after (es : List Bytes) : goodEntries true es = es.all (goodEntry true) := by
  induction es with
  | nil => rfl
  | cons e es ih => simp [goodEntries, ih]

/-- The call of a generated construct is read after a construct. -/
def NewQ.afterQ (n : NewQ) : Bool := n.proto != comma || n.kept.any isQConstruct

/-- Of what is added to the path only the call may be bad. -/
theorem goodEntries_entries {cfg : Config} {c : Client} {path : List Bytes} {originated : Bool}
    {n : NewQ} (hnew : NewCase cfg c path originated n) :
    goodEntries (n.kept.any isQConstruct) n.entries = goodEntry n.afterQ n.call := by
  have htcp : ∀ b, goodEntries b n.tcp = true ∧ n.tcp.any isQConstruct = false := by
    intro b
    rcases hnew.tcp_cases with htcp | htcp | htcp
    · rw [htcp]
      exact ⟨rfl, rfl⟩
    · rw [htcp]
      cases b <;> decide
    · rw [htcp]
      cases b <;> decide
  have htype : ∀ b, goodEntry b [n.type] = true ∧ isQConstruct [n.type] = false := by
    have hall : ∀ t ∈ ['C', 'X', 'U', 'O', 'o', 'R', 'r', 'S'], ∀ b,
        goodEntry b [ch t] = true ∧ isQConstruct [ch t] = false := forall_mem_of_all (by decide)
    obtain ⟨t, ht, htype⟩ := hnew.type_mem
    rw [htype]
    exact hall t ht
  have hq : ∀ b, goodEntry b [ch 'q'] = true ∧ isQConstruct [ch 'q'] = false := by decide
  unfold NewQ.entries NewQ.afterQ NewQ.construct
  rw [goodEntries_append, goodEntries_append, (htcp _).1, List.any_append, (htcp false).2]
  split
  next hproto => simp [goodEntries, (hq _).1, (hq false).2, (htype _).1, (htype false).2, hproto]
  next hproto =>
    have hne : (n.proto != comma) = true := by simpa using hproto
    simp [goodEntries, goodEntry, isQConstruct_construct, hne]

/-! ## Broken paths -/

/-- The packets whose path is sent on but not accepted again. -/
inductive PathBroken (cfg : Config) (c : Client) (path : List Bytes) (originated : Bool) : Prop where
  /-- The construct is kept, and the path ends with a comma. -/
  | emptyKept {proto type : UInt8} {after : List Bytes} (view : qView path = .good proto type after)
      (keeps : Keeps c path originated proto) (empty : [] ∈ path)
  /-- A login that is added to a trace is no path entry. -/
  | traceLogin {proto : UInt8} {after : List Bytes} (view : qView path = .good proto (ch 'I') after)
      (keeps : Keeps c path originated proto)
      (bad : ∃ e ∈ fields comma (tracedLogin c (callTexts maxQCalls after)), goodEntry true e = false)
  /-- The serverid that is added to a trace is no path entry. -/
  | traceServer {proto : UInt8} {after : List Bytes} (view : qView path = .good proto (ch 'I') after)
      (keeps : Keeps c path originated proto) (bad : goodEntry true cfg.serverid = false)
  /-- A construct is generated after a comma at the end of the path. -/
  | emptyGenerated {n : NewQ} (new : newConstruct cfg c path originated = some n)
      (empty : [] ∈ n.kept)
  /-- The call of a generated construct is no path entry. -/
  | call {n : NewQ} (new : newConstruct cfg c path originated = some n)
      (bad : goodEntry n.afterQ n.call = false)

section

variable {cfg : Config} {clientlist : List ClientEntry} {c : Client} {path : List Bytes}
  {originated : Bool} {proto type : UInt8} {after : List Bytes} {n : NewQ}

theorem pathBroken_of_keeps (hv : qView path = .good proto type after)
    (hkeeps : Keeps c path originated proto) :
    PathBroken cfg c path originated ↔
      [] ∈ path ∨ type = ch 'I' ∧ ∃ e ∈ traceEntries cfg c after, goodEntry true e = false := by
  constructor
  · intro hbroken
    cases hbroken with
    | emptyKept _ _ empty => exact .inl empty
    | traceLogin view _ bad =>
      rw [hv] at view
      cases view
      obtain ⟨e, he, hbad⟩ := bad
      exact .inr ⟨rfl, e, List.mem_append_left _ he, hbad⟩
    | traceServer view _ bad =>
      rw [hv] at view
      cases view
      exact .inr ⟨rfl, _, by simp [traceEntries], bad⟩
    | emptyGenerated new => exact absurd hkeeps ((newConstruct_cases new).regenerates _ _ _ hv)
    | call new => exact absurd hkeeps ((newConstruct_cases new).regenerates _ _ _ hv)
  · rintro (hempty | ⟨rfl, e, he, hbad⟩)
    · exact .emptyKept hv hkeeps hempty
    · rw [traceEntries, List.mem_append, List.mem_singleton] at he
      cases he with
      | inl he => exact .traceLogin hv hkeeps ⟨e, he, hbad⟩
      | inr he => exact .traceServer hv hkeeps (he ▸ hbad)

theorem pathBroken_of_new (hnew : newConstruct cfg c path originated = some n) :
    PathBroken cfg c path originated ↔ [] ∈ n.kept ∨ goodEntry n.afterQ n.call = false := by
  have hregen := (newConstruct_cases hnew).regenerates
  constructor
  · intro hbroken
    cases hbroken with
    | emptyKept view keeps => exact absurd keeps (hregen _ _ _ view)
    | traceLogin view keeps => exact absurd keeps (hregen _ _ _ view)
    | traceServer view keeps => exact absurd keeps (hregen _ _ _ view)
    | emptyGenerated new empty =>
      rw [hnew] at new
      cases new
      exact .inl empty
    | call new bad =>
      rw [hnew] at new
      cases new
      exact .inr bad
  · rintro (hempty | hbad)
    · exact .emptyGenerated hnew hempty
    · exact .call hnew hbad

end

theorem forwarded_goodEntries {cfg : Config} {clientlist : List ClientEntry} {c : Client} {s : Bytes}
    {h : Header} {originated : Bool} {es : List Bytes}
    (hgood : goodEntries false (dropFinalEmpty (h.path s)) = true)
    (hfwd : Forwarded cfg clientlist c s h originated es) :
    goodEntries false es = true ↔ ¬ PathBroken cfg c (h.path s) originated := by
  have hpath : goodEntries false (h.path s) = true ↔ [] ∉ h.path s :=
    goodEntries_prefix hgood (List.append_nil _).symm
  cases hfwd with
  | @kept proto type t after view keeps passed edited plain igate =>
    have htype := type_ne_of_plain edited plain
    rw [pathBroken_of_keeps view keeps, goodEntries_edited _ _ _ type, ← (eq_of_good view).1, hpath]
    simp [htype]
  | @trace proto after view keeps passed igate =>
    have hany : (h.path s).any isQConstruct = true := by
      rw [(eq_of_good view).1]
      simp [isQConstruct_construct]
    rw [pathBroken_of_keeps view keeps, goodEntries_append, hany, Bool.and_eq_true, hpath,
      Bool.or_true, goodEntries_after, List.all_eq_true]
    simp
  | @generated n new =>
    have hnew := newConstruct_cases new
    obtain ⟨rest, hrest⟩ := hnew.prefix_uncut.trans (prefix_uncutPath (h.path s))
    rw [pathBroken_of_new new, goodEntries_append, Bool.and_eq_true, Bool.false_or,
      goodEntries_entries hnew, goodEntries_prefix hgood hrest.symm]
    simp

/-- The path of a queued packet passes the path checks again, unless the packet is of one of
the kinds of `PathBroken`. For those it does not. -/
theorem path_closed_iff (env : IncomingEnv) (c : Client) (line s : Bytes) (h : Header) (rc : Int)
    (pb : Pbuf) (hline : lineOf env c line = .ok s) (hok : parseHeader env.cfg s = .ok h)
    (hq : incomingParse env c line = .queued rc pb) :
    PathClosed pb ↔ ¬ PathBroken env.cfg c (h.path s) (originatedByClient c h s) := by
  have hl := Loaded.of_parseHeader env.mem hok
  obtain ⟨out, qc, cls, f, hp⟩ := queued_passage_of hline hok hq
  obtain ⟨es, hfwd, htext, -⟩ := hp.forwarded
  rw [pathClosed_iff_goodEntries (fun e he => hfwd.comma_not_mem hl he) htext]
  exact forwarded_goodEntries (parseHeader_goodEntries hok) hfwd

private def closureEnv : IncomingEnv := .unrestricted

private def closureClient : Client := .verifiedInbound

/-- `,qAS,OH7AA` after a path without an empty entry. -/
theorem path_closed_after_login :
    ∃ pb, incomingParse closureEnv closureClient (ascii "OH7AB>APRS,WIDE2-1:>test") =
      .queued 0 pb ∧ PathClosed pb := by
  obtain ⟨pb, hpb⟩ : ∃ pb, incomingParse closureEnv closureClient
      (ascii "OH7AB>APRS,WIDE2-1:>test") = .queued 0 pb := ⟨_, rfl⟩
  refine ⟨pb, hpb, (path_closed_iff closureEnv closureClient (ascii "OH7AB>APRS,WIDE2-1:>test") _
    ⟨5, 10, 10, 18⟩ 0 pb rfl rfl hpb).mpr ?_⟩
  have hnew : newConstruct closureEnv.cfg closureClient
      (Header.path ⟨5, 10, 10, 18⟩ (ascii "OH7AB>APRS,WIDE2-1:>test")) false =
        some ⟨[ascii "WIDE2-1"], [], ch 'A', ch 'S', ascii "OH7AA"⟩ := rfl
  exact fun hbroken => absurd ((pathBroken_of_new hnew).mp hbroken) (by decide)

/-- The path ends with a comma, which `check_path_calls` does not see: `,qAS,OH7AA` is
appended after an empty element. -/
theorem path_not_closed_after_comma :
    ¬ ∀ (env : IncomingEnv) (c : Client) (line : Bytes) (rc : Int) (pb : Pbuf),
      incomingParse env c line = .queued rc pb → PathClosed pb := by
  intro hall
  have hclosed := hall closureEnv closureClient (ascii "OH7AB>APRS,WIDE2-1,:>test") 0 _ rfl
  exact absurd hclosed.2 (by decide)

end Aprsc
