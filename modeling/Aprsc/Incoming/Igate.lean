-- SUMMARY: When `DisallowIgateCall` holds of the packets that are queued.
import Aprsc.Incoming.Forwarded

/-!
# Disallowed igates

`incoming_parse` compares the entries from the construct on with the patterns of
`DisallowIgateCall`, when the construct was in the received header. What `q_process`
generates, or adds to a trace, is not compared.
-/

namespace Aprsc

/-- One of the patterns matches the entry. -/
def globMatch (fnmatch : Bytes → Bytes → Bool) (set : List Bytes) (e : Bytes) : Bool :=
  set.any fun s => fnmatch s (printed e)

/-- None of the entries of the path of the packet, from its construct to the `:`, matches
one of the patterns. -/
def IgateAllowed (cfg : Config) (set : List Bytes) (pb : Pbuf) : Prop :=
  ∀ e ∈ fromQ (fields comma pb.viaText), globMatch cfg.fnmatch set e = false

theorem checkCallGlobMatch_of_le {fnmatch : Bytes → Bytes → Bool} {set : List Bytes} {e : Bytes}
    (h : e.length ≤ maxTestCallLen) : checkCallGlobMatch fnmatch set e = globMatch fnmatch set e := by
  unfold checkCallGlobMatch
  rw [if_neg (by omega)]
  rfl

/-! ## Entries that are not compared -/

/-- The packets with an entry that matches a pattern, and is not compared with it. -/
inductive IgateMissed (cfg : Config) (c : Client) (path : List Bytes) (originated : Bool)
    (set : List Bytes) : Prop where
  /-- An entry that is empty or longer than `MAX_TEST_CALL_LEN` is passed over. -/
  | passedOver {proto type : UInt8} {after : List Bytes} {e : Bytes}
      (view : qView path = .good proto type after) (keeps : Keeps c path originated proto)
      (mem : e ∈ after) (skipped : e = [] ∨ maxTestCallLen < e.length)
      (hit : globMatch cfg.fnmatch set e = true)
  /-- The login or the serverid that is added to a trace. -/
  | trace {proto : UInt8} {after : List Bytes} {e : Bytes}
      (view : qView path = .good proto (ch 'I') after) (keeps : Keeps c path originated proto)
      (mem : e ∈ traceEntries cfg c after) (hit : globMatch cfg.fnmatch set e = true)
  /-- The generated construct and its call. -/
  | generated {n : NewQ} {e : Bytes} (new : newConstruct cfg c path originated = some n)
      (mem : e ∈ n.construct ++ [n.call]) (hit : globMatch cfg.fnmatch set e = true)
  /-- A construct with a NUL protocol, and what follows it. -/
  | nul {n : NewQ} {type : UInt8} {after : List Bytes} {e : Bytes}
      (new : newConstruct cfg c path originated = some n)
      (nul : NulForwarded c path originated type after) (mem : e ∈ fromQ n.kept ++ n.tcp)
      (hit : globMatch cfg.fnmatch set e = true)

section

variable {cfg : Config} {c : Client} {path : List Bytes} {originated : Bool} {set : List Bytes}
  {proto type : UInt8} {after : List Bytes} {n : NewQ}

theorem igateMissed_of_keeps (hv : qView path = .good proto type after)
    (hkeeps : Keeps c path originated proto) :
    IgateMissed cfg c path originated set ↔
      (∃ e ∈ after, (e = [] ∨ maxTestCallLen < e.length) ∧ globMatch cfg.fnmatch set e = true) ∨
      type = ch 'I' ∧ ∃ e ∈ traceEntries cfg c after, globMatch cfg.fnmatch set e = true := by
  constructor
  · intro hmissed
    cases hmissed with
    | passedOver view _ mem skipped hit =>
      rw [hv] at view
      cases view
      exact .inl ⟨_, mem, skipped, hit⟩
    | trace view _ mem hit =>
      rw [hv] at view
      cases view
      exact .inr ⟨rfl, _, mem, hit⟩
    | generated new => exact absurd hkeeps ((newConstruct_cases new).regenerates _ _ _ hv)
    | nul new => exact absurd hkeeps ((newConstruct_cases new).regenerates _ _ _ hv)
  · rintro (⟨e, mem, skipped, hit⟩ | ⟨rfl, e, mem, hit⟩)
    · exact .passedOver hv hkeeps mem skipped hit
    · exact .trace hv hkeeps mem hit

theorem igateMissed_of_new (hnew : newConstruct cfg c path originated = some n) :
    IgateMissed cfg c path originated set ↔
      ∃ e ∈ fromQ (n.kept ++ n.entries), globMatch cfg.fnmatch set e = true := by
  have hcase := newConstruct_cases hnew
  have hregen := hcase.regenerates
  constructor
  · intro hmissed
    cases hmissed with
    | passedOver view keeps => exact absurd keeps (hregen _ _ _ view)
    | trace view keeps => exact absurd keeps (hregen _ _ _ view)
    | generated new mem hit =>
      rw [hnew] at new
      cases new
      exact ⟨_, hcase.mem_fromQ.mpr (.inl mem), hit⟩
    | nul new nul mem hit =>
      rw [hnew] at new
      cases new
      exact ⟨_, hcase.mem_fromQ.mpr (.inr ⟨⟨_, _, nul⟩, mem⟩), hit⟩
  · rintro ⟨e, he, hit⟩
    cases hcase.mem_fromQ.mp he with
    | inl mem => exact .generated hnew mem hit
    | inr mem =>
      obtain ⟨⟨type, after, nul⟩, mem⟩ := mem
      exact .nul hnew nul mem hit

/-- An entry of a kept construct that matches is passed over by the comparison. -/
theorem passedOver_of_igatePasses {t : UInt8} (hset : cfg.disallowIgateGlob = some set)
    (higate : IgatePasses cfg ([ch 'q', proto, t] :: after)) :
    (∀ e ∈ [ch 'q', proto, t] :: after, globMatch cfg.fnmatch set e = false) ↔
      ¬ ∃ e ∈ after, (e = [] ∨ maxTestCallLen < e.length) ∧
        globMatch cfg.fnmatch set e = true := by
  constructor
  · rintro hall ⟨e, he, -, hit⟩
    rw [hall e (List.mem_cons_of_mem _ he)] at hit
    cases hit
  · intro hno e he
    have hcheck : e ≠ [] → e.length ≤ maxTestCallLen → globMatch cfg.fnmatch set e = false := by
      intro hne hle
      rw [← checkCallGlobMatch_of_le hle]
      exact higate set hset e (mem_dropFinalEmpty he hne)
    rw [List.mem_cons] at he
    cases he with
    | inl he =>
      subst he
      exact hcheck (by simp) (show 3 ≤ maxTestCallLen by decide)
    | inr he =>
      apply Bool.eq_false_iff.mpr
      intro hit
      apply hno
      refine ⟨e, he, ?_, hit⟩
      apply Classical.byContradiction
      intro hover
      rw [not_or] at hover
      rw [hcheck hover.1 (by omega)] at hit
      cases hit

end

theorem forwarded_igate {cfg : Config} {clientlist : List ClientEntry} {c : Client} {s : Bytes}
    {h : Header} {originated : Bool} {es set : List Bytes} (hset : cfg.disallowIgateGlob = some set)
    (hfwd : Forwarded cfg clientlist c s h originated es) :
    (∀ e ∈ fromQ es, globMatch cfg.fnmatch set e = false) ↔
      ¬ IgateMissed cfg c (h.path s) originated set := by
  cases hfwd with
  | @kept proto type t after view keeps passed edited plain igate =>
    have htype := type_ne_of_plain edited plain
    rw [igateMissed_of_keeps view keeps, fromQ_kept, passedOver_of_igatePasses hset igate]
    simp [htype]
  | @trace proto after view keeps passed igate =>
    have hfrom : fromQ (h.path s) = [ch 'q', proto, ch 'I'] :: after := by
      conv_lhs => rw [(eq_of_good view).1]
      exact fromQ_kept _ _ _ _
    rw [igateMissed_of_keeps view keeps, fromQ_append (by simp [hfrom]), hfrom, not_or,
      ← passedOver_of_igatePasses hset igate, List.forall_mem_append]
    simp
  | @generated n new =>
    rw [igateMissed_of_new new]
    simp

/-- `DisallowIgateCall` holds of a queued packet, unless the packet is of one of the kinds of
`IgateMissed`. Of those it does not. -/
theorem igate_allowed_iff (env : IncomingEnv) (c : Client) (line s : Bytes) (h : Header) (rc : Int)
    (pb : Pbuf) (set : List Bytes) (hset : env.cfg.disallowIgateGlob = some set)
    (hline : lineOf env c line = .ok s) (hok : parseHeader env.cfg s = .ok h)
    (hq : incomingParse env c line = .queued rc pb) :
    IgateAllowed env.cfg set pb ↔
      ¬ IgateMissed env.cfg c (h.path s) (originatedByClient c h s) set := by
  obtain ⟨out, qc, cls, f, hp⟩ := queued_passage_of hline hok hq
  obtain ⟨es, hfwd, -, hfields⟩ := hp.forwarded
  unfold IgateAllowed
  rw [hfields]
  exact forwarded_igate hset hfwd

/-- A server that does not want to see `OH7XX`. A pattern without wildcards matches the text
itself, in upper or lower case. -/
private def igateEnv : IncomingEnv :=
  { IncomingEnv.unrestricted with
    cfg :=
      { Config.unrestricted with disallowIgateGlob := some [ascii "OH7XX"], fnmatch := caseEq } }

private def igateClient : Client := .verifiedInbound

/-- `,OH7AC,I` at the end of the path becomes `,qAr,OH7AC`. -/
theorem igate_allowed_other :
    ∃ pb, incomingParse igateEnv igateClient (ascii "OH7AB>APRS,OH7AC,I:>test") = .queued 0 pb ∧
      IgateAllowed igateEnv.cfg [ascii "OH7XX"] pb := by
  obtain ⟨pb, hpb⟩ : ∃ pb, incomingParse igateEnv igateClient
      (ascii "OH7AB>APRS,OH7AC,I:>test") = .queued 0 pb := ⟨_, rfl⟩
  refine ⟨pb, hpb, (igate_allowed_iff igateEnv igateClient (ascii "OH7AB>APRS,OH7AC,I:>test") _
    ⟨5, 10, 10, 18⟩ 0 pb [ascii "OH7XX"] rfl rfl rfl hpb).mpr ?_⟩
  have hnew : newConstruct igateEnv.cfg igateClient
      (Header.path ⟨5, 10, 10, 18⟩ (ascii "OH7AB>APRS,OH7AC,I:>test")) false =
        some ⟨[], [], ch 'A', ch 'r', ascii "OH7AC"⟩ := rfl
  exact fun hmissed => absurd ((igateMissed_of_new hnew).mp hmissed) (by decide)

/-- `,OH7XX,I` at the end of the path becomes `,qAr,OH7XX`, which is not compared. -/
theorem igate_missed_viacall :
    ¬ ∀ (env : IncomingEnv) (c : Client) (line : Bytes) (rc : Int) (pb : Pbuf) (set : List Bytes),
      env.cfg.disallowIgateGlob = some set → incomingParse env c line = .queued rc pb →
        IgateAllowed env.cfg set pb := by
  intro hall
  have hallowed := hall igateEnv igateClient (ascii "OH7AB>APRS,OH7XX,I:>test") 0 _
    [ascii "OH7XX"] rfl rfl
  exact absurd (hallowed (ascii "OH7XX") (by decide)) (by decide)

end Aprsc
