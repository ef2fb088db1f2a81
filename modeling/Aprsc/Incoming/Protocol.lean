-- SUMMARY: When every construct that leaves the server has its own protocol.
import Aprsc.Incoming.Forwarded

/-!
# Protocols of constructs

A server with `disallow_other_protocol_id` drops packets whose construct has another
protocol. `check_path_calls` lets every element of three characters that starts with `q`
through, whatever its characters are, and `q_process` takes a NUL protocol for no
construct.
-/

namespace Aprsc

/-- `isalpha` in the C locale. -/
def isalpha (b : UInt8) : Bool := (ch 'A' ≤ b && b ≤ ch 'Z') || (ch 'a' ≤ b && b ≤ ch 'z')

/-- The first element of the path that starts with `q` is a construct of this server's
protocol, with a letter for its type, and a callsign follows it. -/
def ProtocolOk (cfg : Config) (pb : Pbuf) : Prop :=
  ∃ type call rest, fromQ (fields comma pb.viaText) = [ch 'q', cfg.qProtocolId, type] :: call :: rest ∧
    isalpha type = true ∧ CallOk call

/-- The packets that are sent with another element. -/
inductive ProtocolLost (cfg : Config) (c : Client) (path : List Bytes) (originated : Bool) :
    Prop where
  /-- A construct with a NUL protocol is sent on. -/
  | nul {type : UInt8} {after : List Bytes} (nul : NulForwarded c path originated type after)
  /-- The type of the construct that is kept is no letter. -/
  | type {proto type : UInt8} {after : List Bytes} (view : qView path = .good proto type after)
      (keeps : Keeps c path originated proto) (other : isalpha type = false)
  /-- The configured protocol splits the construct that is generated. -/
  | comma (generates : Regenerates c path originated) (bad : cfg.qProtocolId = Aprsc.comma)

/-- An edited type is a letter, and was one. -/
theorem isalpha_of_edited {type t : UInt8} (hedit : t = type ∨ clientOnlyType type = some t) :
    isalpha t = isalpha type := by
  cases hedit with
  | inl h => rw [h]
  | inr h =>
    unfold clientOnlyType at h
    simp only [Bool.or_eq_true, beq_iff_eq] at h
    split at h
    next hR => rcases hR with rfl | rfl <;> cases h <;> decide
    next =>
    split at h
    next hS =>
      subst hS
      cases h
      decide
    next =>
    split at h
    next hC =>
      subst hC
      cases h
      decide
    next => cases h

section

variable {cfg : Config} {c : Client} {path : List Bytes} {originated : Bool} {proto type : UInt8}
  {after : List Bytes} {n : NewQ}

theorem NulForwarded.not_keeps (hnul : NulForwarded c path originated type after) :
    ¬ Keeps c path originated 0 := by
  intro hkeeps
  cases hnul.forwarded with
  | inl hudp => exact absurd (hkeeps.passedOn.2 hudp.1).1 (by simp [hudp.2])
  | inr hpass =>
    have hpeer := hkeeps.proto.resolve_left (by simp)
    exact hpass.2.1.elim hpeer.1 (by simp [hpeer.2])

theorem protocolLost_of_keeps (hv : qView path = .good proto type after)
    (hkeeps : Keeps c path originated proto) :
    ProtocolLost cfg c path originated ↔ isalpha type = false := by
  constructor
  · intro hlost
    cases hlost with
    | nul nul =>
      have hview := nul.view
      rw [hv] at hview
      cases hview
      exact absurd hkeeps nul.not_keeps
    | type view _ other =>
      rw [hv] at view
      cases view
      exact other
    | comma generates => exact absurd hkeeps (generates _ _ _ hv)
  · exact .type hv hkeeps

theorem protocolLost_of_new (hnew : NewCase cfg c path originated n) :
    ProtocolLost cfg c path originated ↔
      (∃ type after, NulForwarded c path originated type after) ∨ cfg.qProtocolId = comma := by
  constructor
  · intro hlost
    cases hlost with
    | nul nul => exact .inl ⟨_, _, nul⟩
    | type view keeps => exact absurd keeps (hnew.regenerates _ _ _ view)
    | comma _ bad => exact .inr bad
  · rintro (⟨type, after, nul⟩ | bad)
    · exact .nul nul
    · exact .comma hnew.regenerates bad

end

/-- A construct that is kept has the protocol of the server, or it is dropped. -/
theorem proto_eq_of_passed {cfg : Config} {clientlist : List ClientEntry} {s : Bytes} {c : Client}
    {proto type : UInt8} {after : List Bytes} (hset : cfg.disallowOtherProtocolId = true)
    (hpassed : ¬ Refused cfg clientlist s c proto type after) : proto = cfg.qProtocolId := by
  apply Classical.byContradiction
  intro hother
  exact hpassed (.protocol hother hset)

theorem forwarded_protocol {cfg : Config} {clientlist : List ClientEntry} {c : Client} {m : Area UInt8}
    {s : Bytes} {h : Header} {originated : Bool} {es : List Bytes} (hl : Loaded m s h)
    (hset : cfg.disallowOtherProtocolId = true)
    (hfwd : Forwarded cfg clientlist c s h originated es) :
    (∃ type call rest, fromQ es = [ch 'q', cfg.qProtocolId, type] :: call :: rest ∧
      isalpha type = true ∧ CallOk call) ↔ ¬ ProtocolLost cfg c (h.path s) originated := by
  cases hfwd with
  | @kept proto type t after view keeps passed edited plain igate =>
    rw [protocolLost_of_keeps view keeps, fromQ_kept, proto_eq_of_passed hset passed,
      ← isalpha_of_edited edited]
    obtain ⟨hpath, next, more, hafter, hnext⟩ := eq_of_good view
    constructor
    · rintro ⟨type', call, rest, heq, halpha, -⟩
      cases heq
      simp [halpha]
    · intro halpha
      subst hafter
      have hmem : next ∈ h.path s := by
        rw [hpath]
        simp
      exact ⟨t, next, more, rfl, by simpa using halpha, hnext, hl.admitted.no_comma next hmem,
        hl.admitted.no_colon next hmem⟩
  | @trace proto after view keeps passed igate =>
    have hfrom : fromQ (h.path s) = [ch 'q', proto, ch 'I'] :: after := by
      conv_lhs => rw [(eq_of_good view).1]
      exact fromQ_kept _ _ _ _
    rw [protocolLost_of_keeps view keeps, fromQ_append (by simp [hfrom]), hfrom,
      proto_eq_of_passed hset passed]
    obtain ⟨hpath, next, more, hafter, hnext⟩ := eq_of_good view
    refine iff_of_true ?_ (by decide)
    subst hafter
    have hmem : next ∈ h.path s := by
      rw [hpath]
      simp
    exact ⟨ch 'I', next, more ++ traceEntries cfg c (next :: more), rfl, by decide, hnext,
      hl.admitted.no_comma next hmem, hl.admitted.no_colon next hmem⟩
  | @generated n new =>
    have hnew := newConstruct_cases new
    rw [protocolLost_of_new hnew]
    cases Classical.em (∃ type after, NulForwarded c (h.path s) originated type after) with
    | inl hnul =>
      simp only [hnul, true_or, not_true_eq_false, iff_false]
      obtain ⟨type, after, hnul⟩ := hnul
      obtain ⟨rest, hfrom⟩ := hnew.fromQ_nul hnul
      rintro ⟨type', call, rest', heq, -⟩
      rw [fromQ_append (by simp [hfrom]), hfrom] at heq
      simp only [List.cons_append, List.cons.injEq] at heq
      exact cfg.qProtocolId_ne heq.1.2.1.symm
    | inr hnul =>
      have hproto := hnew.proto_cases.resolve_right hnul
      have hfrom : fromQ (n.kept ++ n.entries) = n.construct ++ [n.call] := hnew.fromQ_of_not_nul hnul
      rw [hfrom]
      unfold NewQ.construct
      simp only [hnul, false_or]
      rw [hproto]
      split
      next hcomma =>
        simp only [hcomma, not_true_eq_false, iff_false]
        rintro ⟨type', call, rest', heq, -⟩
        simp at heq
      next hcomma =>
        simp only [hcomma, not_false_eq_true, iff_true]
        have hall : ∀ t ∈ ['C', 'X', 'U', 'O', 'o', 'R', 'r', 'S'], isalpha (ch t) = true :=
          forall_mem_of_all (by decide)
        obtain ⟨t, ht, htype⟩ := hnew.type_mem
        exact ⟨n.type, n.call, [], rfl, htype ▸ hall t ht, hl.newCase_call_ok hnew⟩

/-- With `disallow_other_protocol_id` the construct of a queued packet has the protocol of
this server, unless the packet is of one of the kinds of `ProtocolLost`. For those it has
not. -/
theorem protocol_ok_iff (env : IncomingEnv) (c : Client) (line s : Bytes) (h : Header) (rc : Int)
    (pb : Pbuf) (hset : env.cfg.disallowOtherProtocolId = true) (hline : lineOf env c line = .ok s)
    (hok : parseHeader env.cfg s = .ok h) (hq : incomingParse env c line = .queued rc pb) :
    ProtocolOk env.cfg pb ↔ ¬ ProtocolLost env.cfg c (h.path s) (originatedByClient c h s) := by
  have hl := Loaded.of_parseHeader env.mem hok
  obtain ⟨out, qc, cls, f, hp⟩ := queued_passage_of hline hok hq
  obtain ⟨es, hfwd, -, hfields⟩ := hp.forwarded
  unfold ProtocolOk
  rw [hfields]
  exact forwarded_protocol hl hset hfwd

/-- A server that drops constructs of other protocols. -/
private def protocolEnv : IncomingEnv :=
  { IncomingEnv.unrestricted with cfg := { Config.unrestricted with disallowOtherProtocolId := true } }

private def protocolClient : Client := .verifiedInbound

/-- A construct of this protocol is kept. -/
theorem protocol_ok_kept :
    ∃ pb, incomingParse protocolEnv protocolClient (ascii "OH7AB>APRS,WIDE2-1,qAR,OH7AC:>test") =
      .queued 0 pb ∧ ProtocolOk protocolEnv.cfg pb := by
  obtain ⟨pb, hpb⟩ : ∃ pb, incomingParse protocolEnv protocolClient
      (ascii "OH7AB>APRS,WIDE2-1,qAR,OH7AC:>test") = .queued 0 pb := ⟨_, rfl⟩
  refine ⟨pb, hpb, (protocol_ok_iff protocolEnv protocolClient
    (ascii "OH7AB>APRS,WIDE2-1,qAR,OH7AC:>test") _ ⟨5, 10, 10, 28⟩ 0 pb rfl rfl rfl hpb).mpr ?_⟩
  have hv : qView (Header.path ⟨5, 10, 10, 28⟩ (ascii "OH7AB>APRS,WIDE2-1,qAR,OH7AC:>test")) =
      .good (ch 'A') (ch 'R') [ascii "OH7AC"] := rfl
  have hkeeps : Keeps protocolClient
      (Header.path ⟨5, 10, 10, 28⟩ (ascii "OH7AB>APRS,WIDE2-1,qAR,OH7AC:>test")) false (ch 'A') :=
    ⟨⟨fun h => absurd h.1 (by decide), fun _ => ⟨by decide, fun h => absurd h (by decide)⟩⟩,
      .inl (by decide)⟩
  exact fun hlost => absurd ((protocolLost_of_keeps hv hkeeps).mp hlost) (by decide)

/-- A construct with a NUL protocol is taken for none, and sent on before `,qAS,OH7AA`. -/
theorem protocol_lost_nul :
    ¬ ∀ (env : IncomingEnv) (c : Client) (line : Bytes) (rc : Int) (pb : Pbuf),
      env.cfg.disallowOtherProtocolId = true → incomingParse env c line = .queued rc pb →
        ProtocolOk env.cfg pb := by
  intro hall
  obtain ⟨type, call, rest, hfrom, -⟩ := hall protocolEnv protocolClient
    (ascii "OH7AB>APRS,q\x00R,OH7AC:>test") 0 _ rfl rfl
  have hfirst : (some [ch 'q', 0, ch 'R'] : Option Bytes) = some [ch 'q', ch 'A', type] :=
    congrArg List.head? hfrom
  simp only [Option.some.injEq, List.cons.injEq] at hfirst
  exact absurd hfirst.2.1 (by decide)

end Aprsc
