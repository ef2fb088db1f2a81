-- SUMMARY: The kinds of packets that `q_process` generates a construct for, and constructs with a NUL protocol.
import Aprsc.Incoming.QNew

/-!
# Kinds of generated constructs

Every packet that gets a generated construct is of one of a few kinds, and what holds of
all generated constructs is shown for each kind here. `q_process` uses the protocol of a
construct to tell whether there is one, so that a construct with a NUL protocol may stay
in the path before the one that is generated.
-/

namespace Aprsc

/-! ## The kinds of generated constructs -/

/-- The kinds of packets that a construct is generated for. -/
inductive NewCase (cfg : Config) (c : Client) (path : List Bytes) (originated : Bool) :
    NewQ → Prop where
  | replaced (replaces : ReplacesPath c path originated) :
      NewCase cfg c path originated (newReplaced cfg c)
  | udp (inbound : c.inbound) (udp : c.has clflagsUdpsubmit = true) :
      NewCase cfg c path originated
        ⟨uncutPath path, tcpipUnlessLast (uncutPath path), cfg.qProtocolId, ch 'U', cfg.serverid⟩
  | unverified (inbound : c.inbound) (tcp : c.has clflagsUdpsubmit = false)
      (unverified : c.validated = false) (own : originated = true) :
      NewCase cfg c path originated
        ⟨[], [ascii "TCPXX*"], cfg.qProtocolId, ch 'X', cfg.serverid⟩
  | clientOnlyOwn (keeps : ¬ ReplacesPath c path originated) (inbound : c.inbound)
      (tcp : c.has clflagsUdpsubmit = false) (verified : c.validated = true)
      (only : c.has clflagsClientonly = true) (own : originated = true) :
      NewCase cfg c path originated ⟨beforeQ path, [], cfg.qProtocolId, ch 'C', cfg.serverid⟩
  | login {t : Char} (passed : PassedOn c path originated) (inbound : c.inbound)
      (lacks : hasConstruct path = false) (type : t ∈ ['O', 'S'])
      (noVia : ∀ front prev, viaI (uncutPath path) ≠ .viacall front prev) :
      NewCase cfg c path originated ⟨uncutPath path, [], cfg.qProtocolId, ch t, c.username⟩
  | viacall {t : Char} {front : List Bytes} {prev call : Bytes} (passed : PassedOn c path originated)
      (generates : c.inbound ∨ c.has clflagsUplinkport = true) (lacks : hasConstruct path = false)
      (type : t ∈ ['o', 'R', 'r']) (via : viaI (uncutPath path) = .viacall front prev)
      (call_eq : c.inbound ∧ call = c.username ∨ call = printed prev) :
      NewCase cfg c path originated ⟨front, [], cfg.qProtocolId, ch t, call⟩
  | address (passed : PassedOn c path originated) (uplink : c.has clflagsUplinkport = true)
      (lacks : hasConstruct path = false) (absent : viaI (uncutPath path) = .absent) :
      NewCase cfg c path originated ⟨uncutPath path, [], cfg.qProtocolId, ch 'S', c.addrHex⟩
  /-- Of the packets of the client itself only one with a construct of type `I` gets here. -/
  | own (passed : PassedOn c path originated) (inbound : c.inbound)
      (lacks : hasConstruct path = false) (absent : viaI (uncutPath path) = .absent)
      (own : originated = true) :
      NewCase cfg c path originated
        ⟨uncutPath path, tcpipUnlessLast (uncutPath path), ch 'A', ch 'C', cfg.serverid⟩

section

variable {cfg : Config} {c : Client} {path : List Bytes} {originated : Bool} {n : NewQ}

theorem newInbound_cases (passed : PassedOn c path originated) (hin : c.inbound)
    (lacks : hasConstruct path = false) (hnew : newInbound cfg c path originated = some n) :
    NewCase cfg c path originated n := by
  unfold newInbound at hnew
  cases hI : viaI (uncutPath path) with
  | noViacall => simp [hI] at hnew
  | viacall front prev =>
    simp only [hI] at hnew
    split at hnew
    next =>
      cases hnew
      exact .viacall passed (.inl hin) lacks (by decide) hI (.inl ⟨hin, rfl⟩)
    next =>
      cases hnew
      exact .viacall passed (.inl hin) lacks (by decide) hI (.inr rfl)
  | absent =>
    simp only [hI] at hnew
    split at hnew
    next horig =>
      cases hnew
      exact .own passed hin lacks hI horig
    next =>
      cases hnew
      exact .login passed hin lacks (by decide) (by simp [hI])

theorem newClientOnly_cases (passed : PassedOn c path originated) (hin : c.inbound)
    (lacks : hasConstruct path = false) :
    NewCase cfg c path originated (newClientOnly cfg c path) := by
  unfold newClientOnly
  cases hI : viaI (uncutPath path) with
  | noViacall => exact .login passed hin lacks (by decide) (by simp [hI])
  | viacall front prev => exact .viacall passed (.inl hin) lacks (by decide) hI (.inr rfl)
  | absent => exact .login passed hin lacks (by decide) (by simp [hI])

theorem newUplink_cases (passed : PassedOn c path originated)
    (huplink : c.has clflagsUplinkport = true) (lacks : hasConstruct path = false)
    (hnew : newUplink cfg c path = some n) : NewCase cfg c path originated n := by
  unfold newUplink at hnew
  cases hI : viaI (uncutPath path) with
  | noViacall => simp [hI] at hnew
  | viacall front prev =>
    simp only [hI] at hnew
    cases hnew
    exact .viacall passed (.inr huplink) lacks (by decide) hI (.inr rfl)
  | absent =>
    simp only [hI] at hnew
    cases hnew
    exact .address passed huplink lacks hI

theorem newConstruct_cases (hnew : newConstruct cfg c path originated = some n) :
    NewCase cfg c path originated n := by
  unfold newConstruct at hnew
  split at hnew
  next hrep =>
    cases hnew
    exact .replaced hrep
  next hrep =>
  split at hnew
  next hin =>
    split at hnew
    next hudp =>
      cases hnew
      exact .udp hin hudp
    next hudp =>
    simp only [Bool.not_eq_true] at hudp
    split at hnew
    next hunver =>
      simp only [Bool.and_eq_true, Bool.not_eq_true'] at hunver
      cases hnew
      exact .unverified hin hudp hunver.1 hunver.2
    next hunver =>
    split at hnew
    next hown =>
      simp only [Bool.and_eq_true] at hown
      cases hnew
      exact .clientOnlyOwn hrep hin hudp hown.1.1 hown.1.2 hown.2
    next hown =>
    have passed : PassedOn c path originated := by
      refine ⟨hrep, fun _ => ⟨hudp, fun ho => ?_⟩⟩
      have hver : c.validated = true := by simpa [ho] using hunver
      exact ⟨hver, by simpa [ho, hver] using hown⟩
    split at hnew
    next => cases hnew
    next lacks =>
    simp only [Bool.not_eq_true] at lacks
    split at hnew
    next =>
      cases hnew
      exact newClientOnly_cases passed hin lacks
    next => exact newInbound_cases passed hin lacks hnew
  next hout =>
    split at hnew
    next huplink =>
      simp only [Bool.and_eq_true, Bool.not_eq_true'] at huplink
      exact newUplink_cases ⟨hrep, fun hin => absurd hin hout⟩ huplink.1 huplink.2 hnew
    next => cases hnew

/-- The entries that stay are a start of the path. -/
theorem NewCase.prefix_uncut (h : NewCase cfg c path originated n) : n.kept <+: uncutPath path := by
  have hbefore : beforeQ path <+: uncutPath path := by
    unfold uncutPath
    split
    next =>
      split
      next => exact prefix_beforeQ path
      next => exact List.prefix_rfl
    next => exact List.prefix_rfl
  cases h with
  | replaced replaces =>
    unfold newReplaced
    split <;> exact List.nil_prefix
  | udp => exact List.prefix_rfl
  | unverified => exact List.nil_prefix
  | clientOnlyOwn => exact hbefore
  | login => exact List.prefix_rfl
  | viacall _ _ _ _ via _ =>
    rw [viaI_viacall via]
    exact List.prefix_append _ _
  | address => exact List.prefix_rfl
  | own => exact List.prefix_rfl

theorem NewCase.type_mem (h : NewCase cfg c path originated n) :
    ∃ t ∈ ['C', 'X', 'U', 'O', 'o', 'R', 'r', 'S'], n.type = ch t := by
  cases h with
  | replaced replaces =>
    unfold newReplaced
    split
    next => exact ⟨'C', by decide, rfl⟩
    next => exact ⟨'X', by decide, rfl⟩
  | udp => exact ⟨'U', by decide, rfl⟩
  | unverified => exact ⟨'X', by decide, rfl⟩
  | clientOnlyOwn => exact ⟨'C', by decide, rfl⟩
  | login _ _ _ type _ =>
    have hsub : ∀ u ∈ ['O', 'S'], u ∈ ['C', 'X', 'U', 'O', 'o', 'R', 'r', 'S'] :=
      forall_mem_of_all (by decide)
    exact ⟨_, hsub _ type, rfl⟩
  | viacall _ _ _ type _ _ =>
    have hsub : ∀ u ∈ ['o', 'R', 'r'], u ∈ ['C', 'X', 'U', 'O', 'o', 'R', 'r', 'S'] :=
      forall_mem_of_all (by decide)
    exact ⟨_, hsub _ type, rfl⟩
  | address => exact ⟨'S', by decide, rfl⟩
  | own => exact ⟨'C', by decide, rfl⟩

theorem tcpipUnlessLast_cases (path : List Bytes) :
    tcpipUnlessLast path = [] ∨ tcpipUnlessLast path = [ascii "TCPIP*"] := by
  unfold tcpipUnlessLast
  split
  next => exact .inl rfl
  next => exact .inr rfl

theorem NewCase.tcp_cases (h : NewCase cfg c path originated n) :
    n.tcp = [] ∨ n.tcp = [ascii "TCPIP*"] ∨ n.tcp = [ascii "TCPXX*"] := by
  cases h with
  | replaced replaces =>
    unfold newReplaced
    split
    next => exact .inr (.inl rfl)
    next => exact .inr (.inr rfl)
  | udp => exact (tcpipUnlessLast_cases _).imp_right .inl
  | unverified => exact .inr (.inr rfl)
  | clientOnlyOwn => exact .inl rfl
  | login => exact .inl rfl
  | viacall => exact .inl rfl
  | address => exact .inl rfl
  | own => exact (tcpipUnlessLast_cases _).imp_right .inl

end

/-- A construct is generated where none is kept. -/
theorem NewCase.regenerates {cfg : Config} {c : Client} {path : List Bytes} {originated : Bool}
    {n : NewQ} (h : NewCase cfg c path originated n) : Regenerates c path originated := by
  intro proto type after hv hkeeps
  have hlacks : hasConstruct path = false → (c.inbound ∨ c.has clflagsUplinkport = true) →
      False := by
    intro lacks generates
    cases hkeeps.proto with
    | inl hp => exact hp (hasConstruct_eq_false lacks hv)
    | inr hout => exact generates.elim hout.1 (by simp [hout.2])
  cases h with
  | replaced replaces => exact hkeeps.passedOn.1 replaces
  | udp inbound udp => simp [(hkeeps.passedOn.2 inbound).1] at udp
  | unverified inbound _ unverified own =>
    simp [((hkeeps.passedOn.2 inbound).2 own).1] at unverified
  | clientOnlyOwn _ inbound _ _ only own => simp [((hkeeps.passedOn.2 inbound).2 own).2] at only
  | login _ inbound lacks _ _ => exact hlacks lacks (.inl inbound)
  | viacall _ generates lacks _ _ _ => exact hlacks lacks generates
  | address _ uplink lacks _ => exact hlacks lacks (.inr uplink)
  | own _ inbound lacks _ _ => exact hlacks lacks (.inl inbound)

/-! ## Constructs with a NUL protocol -/

/-- A construct with a NUL protocol is sent on, before the generated one: `q_process` does
not see it. It is not sent on as the `VIACALL` of a final `,VIACALL,I`. -/
structure NulForwarded (c : Client) (path : List Bytes) (originated : Bool) (type : UInt8)
    (after : List Bytes) : Prop where
  view : qView path = .good 0 type after
  forwarded : c.inbound ∧ c.has clflagsUdpsubmit = true ∨
    PassedOn c path originated ∧ (c.inbound ∨ c.has clflagsUplinkport = true) ∧
      after ≠ [[ch 'I']]

theorem not_startsQ_beforeQ (path : List Bytes) : ¬ ∃ e ∈ beforeQ path, startsQ e = true := by
  rintro ⟨e, he, hq⟩
  rw [startsQ_of_mem_beforeQ he] at hq
  cases hq

/-- Of the entries that a construct may follow only one with a NUL protocol starts with
`q`. -/
theorem startsQ_uncutPath_iff {path : List Bytes} :
    (∃ e ∈ uncutPath path, startsQ e = true) ↔ ∃ type after, qView path = .good 0 type after := by
  unfold uncutPath
  cases hv : qView path with
  | none => simpa using not_startsQ_beforeQ path
  | malformed => simpa using not_startsQ_beforeQ path
  | good proto type after =>
    cases decEq proto 0 with
    | isFalse hp => simpa [hp] using not_startsQ_beforeQ path
    | isTrue hp =>
      subst hp
      refine ⟨fun _ => ⟨type, after, rfl⟩, fun _ => ⟨[ch 'q', 0, type], ?_, rfl⟩⟩
      simp only [if_true]
      rw [(eq_of_good hv).1]
      simp

theorem viaI_snoc (front : List Bytes) (prev : Bytes) :
    viaI (front ++ [prev, [ch 'I']]) = .viacall front prev := by
  simp [viaI]

/-- The construct is among the entries before `,VIACALL,I`, unless it is the call. -/
theorem nul_mem_front {path front after : List Bytes} {prev : Bytes} {type : UInt8}
    (hv : qView path = .good 0 type after) (hI : viaI (uncutPath path) = .viacall front prev) :
    after = [[ch 'I']] ∧ front = beforeQ path ∨ after ≠ [[ch 'I']] ∧ [ch 'q', 0, type] ∈ front := by
  obtain ⟨hpath, next, more, hafter, -⟩ := eq_of_good hv
  have hends : beforeQ path ++ [ch 'q', 0, type] :: after = front ++ [prev] ++ [[ch 'I']] := by
    rw [← hpath]
    simpa [uncutPath, hv] using viaI_viacall hI
  cases after.eq_nil_or_concat' with
  | inl hnil => simp [hnil] at hafter
  | inr hsnoc =>
    obtain ⟨a, l, rfl⟩ := hsnoc
    rw [← List.cons_append, ← List.append_assoc] at hends
    obtain ⟨hinit, hl⟩ := List.append_inj' hends rfl
    cases hl
    cases a.eq_nil_or_concat' with
    | inl hnil =>
      subst hnil
      exact .inl ⟨rfl, (List.append_inj' hinit rfl).1.symm⟩
    | inr hsnoc =>
      obtain ⟨a, l, rfl⟩ := hsnoc
      rw [← List.cons_append, ← List.append_assoc] at hinit
      refine .inr ⟨fun hone => by simpa using congrArg List.length hone, ?_⟩
      rw [← (List.append_inj' hinit rfl).1]
      simp

section

variable {cfg : Config} {c : Client} {path : List Bytes} {originated : Bool} {n : NewQ}

/-- A path that goes on to the checks, and stays as it is. -/
theorem nulForwarded_iff_uncut (passed : PassedOn c path originated)
    (generates : c.inbound ∨ c.has clflagsUplinkport = true)
    (noVia : ∀ front prev, viaI (uncutPath path) ≠ .viacall front prev) :
    (∃ e ∈ uncutPath path, startsQ e = true) ↔
      ∃ type after, NulForwarded c path originated type after := by
  rw [startsQ_uncutPath_iff]
  constructor
  · rintro ⟨type, after, hv⟩
    refine ⟨type, after, hv, .inr ⟨passed, generates, ?_⟩⟩
    intro hafter
    apply noVia (beforeQ path) [ch 'q', 0, type]
    have hpath := (eq_of_good hv).1
    rw [hafter] at hpath
    have huncut : uncutPath path = path := by simp [uncutPath, hv]
    rw [huncut, hpath, viaI_snoc, ← hpath]
  · rintro ⟨type, after, hnul⟩
    exact ⟨type, after, hnul.view⟩

theorem NewCase.nul_iff (h : NewCase cfg c path originated n) :
    (∃ e ∈ n.kept, startsQ e = true) ↔
      ∃ type after, NulForwarded c path originated type after := by
  have hnil : (∃ e ∈ ([] : List Bytes), startsQ e = true) ↔ False := by simp
  cases h with
  | replaced replaces =>
    have hkept : (newReplaced cfg c).kept = [] := by
      unfold newReplaced
      split <;> rfl
    rw [hkept, hnil, false_iff]
    rintro ⟨type, after, hnul⟩
    cases hnul.forwarded with
    | inl hudp => simp [replaces.2.1] at hudp
    | inr hpass => exact hpass.1.1 replaces
  | udp inbound udp =>
    refine startsQ_uncutPath_iff.trans ⟨?_, ?_⟩
    · rintro ⟨type, after, hv⟩
      exact ⟨type, after, hv, .inl ⟨inbound, udp⟩⟩
    · rintro ⟨type, after, hnul⟩
      exact ⟨type, after, hnul.view⟩
  | unverified inbound tcp unverified own =>
    rw [hnil, false_iff]
    rintro ⟨type, after, hnul⟩
    cases hnul.forwarded with
    | inl hudp => simp [tcp] at hudp
    | inr hpass => exact absurd ((hpass.1.2 inbound).2 own).1 (by simp [unverified])
  | clientOnlyOwn keeps inbound tcp verified only own =>
    refine ⟨fun hq => absurd hq (not_startsQ_beforeQ path), ?_⟩
    rintro ⟨type, after, hnul⟩
    cases hnul.forwarded with
    | inl hudp => simp [tcp] at hudp
    | inr hpass => exact absurd ((hpass.1.2 inbound).2 own).2 (by simp [only])
  | login passed inbound _ _ noVia => exact nulForwarded_iff_uncut passed (.inl inbound) noVia
  | @viacall t front prev call passed generates _ _ via _ =>
    constructor
    · rintro ⟨e, he, hq⟩
      have hmem : e ∈ uncutPath path := by
        rw [viaI_viacall via]
        exact List.mem_append_left _ he
      obtain ⟨type, after, hv⟩ := startsQ_uncutPath_iff.mp ⟨e, hmem, hq⟩
      cases nul_mem_front hv via with
      | inl h =>
        have he : e ∈ beforeQ path := h.2 ▸ he
        rw [startsQ_of_mem_beforeQ he] at hq
        cases hq
      | inr h => exact ⟨type, after, hv, .inr ⟨passed, generates, h.1⟩⟩
    · rintro ⟨type, after, hnul⟩
      cases nul_mem_front hnul.view via with
      | inr h => exact ⟨_, h.2, rfl⟩
      | inl h =>
        -- a UDP submission does not get here
        cases hnul.forwarded with
        | inl hudp => exact absurd (passed.2 hudp.1).1 (by simp [hudp.2])
        | inr hpass => exact absurd h.1 hpass.2.2
  | address passed uplink _ absent =>
    exact nulForwarded_iff_uncut passed (.inr uplink) (by simp [absent])
  | own passed inbound _ absent _ =>
    exact nulForwarded_iff_uncut passed (.inl inbound) (by simp [absent])

/-- A packet of the client itself that is not replaced has a construct of type `I`. -/
theorem nulForwarded_of_own (passed : PassedOn c path originated) (inbound : c.inbound)
    (lacks : hasConstruct path = false) (absent : viaI (uncutPath path) = .absent)
    (own : originated = true) : ∃ type after, NulForwarded c path originated type after := by
  have hI : qTypeOf path = ch 'I' := by
    apply Classical.byContradiction
    intro hI
    have hboth := (passed.2 inbound).2 own
    exact passed.1 ⟨own, (passed.2 inbound).1, .inr ⟨hboth.1, inbound.2, hI⟩⟩
  unfold qTypeOf at hI
  split at hI
  next proto type after hv =>
    cases hasConstruct_eq_false lacks hv
    exact (nulForwarded_iff_uncut passed (.inl inbound) (by simp [absent])).mp
      (startsQ_uncutPath_iff.mpr ⟨type, after, hv⟩)
  next => exact absurd hI (by decide)

/-- The construct has the protocol of this server, but for the one that is generated after
a construct with a NUL protocol. -/
theorem NewCase.proto_cases (h : NewCase cfg c path originated n) :
    n.proto = cfg.qProtocolId ∨ ∃ type after, NulForwarded c path originated type after := by
  cases h with
  | replaced replaces =>
    left
    unfold newReplaced
    split <;> rfl
  | own passed inbound lacks absent own =>
    exact .inr (nulForwarded_of_own passed inbound lacks absent own)
  | udp => exact .inl rfl
  | unverified => exact .inl rfl
  | clientOnlyOwn => exact .inl rfl
  | login => exact .inl rfl
  | viacall => exact .inl rfl
  | address => exact .inl rfl

end

/-! ## Calls -/

/-- A call that fits in a path. -/
def CallOk (call : Bytes) : Prop := call ≠ [] ∧ comma ∉ call ∧ ch ':' ∉ call

theorem callOk_of_valid {call : Bytes} (hvalid : checkInvalidQCallsign call = false) :
    CallOk call := by
  refine ⟨?_, ?_, ?_⟩
  · intro hnil
    rw [hnil] at hvalid
    exact absurd hvalid (by decide)
  · intro hmem
    exact absurd (checkInvalidQCallsign_chars hvalid hmem) (by decide)
  · intro hmem
    exact absurd (checkInvalidQCallsign_chars hvalid hmem) (by decide)

theorem Config.serverid_ok (cfg : Config) : CallOk cfg.serverid :=
  callOk_of_valid cfg.serverid_valid

theorem Client.username_ok {c : Client} (hin : c.inbound) : CallOk c.username :=
  callOk_of_valid (c.username_valid hin.1 (by simpa [Client.has] using hin.2))

theorem Client.addrHex_ok {c : Client} (huplink : c.has clflagsUplinkport = true) :
    CallOk c.addrHex := by
  obtain ⟨hne, hall⟩ := c.addrHex_valid (by simpa [Client.has] using huplink)
  rw [List.all_eq_true] at hall
  exact ⟨hne, fun hmem => absurd (hall _ hmem) (by decide),
    fun hmem => absurd (hall _ hmem) (by decide)⟩

namespace Loaded

variable {m : Area UInt8} {s : Bytes} {h : Header} (hl : Loaded m s h)
include hl

/-- An entry of the path that another one follows is a callsign, or a construct. -/
theorem entry_ok {front rest : List Bytes} {e f : Bytes} (hp : h.path s = front ++ e :: f :: rest) :
    CallOk (printed e) := by
  have hmem : e ∈ h.path s := by
    rw [hp]
    simp
  have hne : e ≠ [] := by
    apply hl.admitted.inner_ne
    rw [hp, List.dropLast_append_of_ne_nil (by simp), List.dropLast_cons_cons]
    simp
  have hsub : ∀ b ∈ printed e, b ∈ e := fun b hb => (List.takeWhile_sublist _).subset hb
  refine ⟨?_, fun hb => hl.admitted.no_comma e hmem (hsub _ hb),
    fun hb => hl.admitted.no_colon e hmem (hsub _ hb)⟩
  cases e with
  | nil => exact absurd rfl hne
  | cons b e =>
    have hb : b ≠ 0 := by
      intro hzero
      subst hzero
      cases hl.admitted.entries_ok _ hmem hne with
      | inl hq =>
        simp only [isQConstruct, List.head?_cons, Bool.and_eq_true] at hq
        exact absurd hq.1 (by decide)
      | inr hq =>
        obtain ⟨afterQ, hq⟩ := hq
        exact absurd (checkInvalidPathCallsign_chars hq List.mem_cons_self) (by decide)
    simp [printed, hb]

/-- The call of a generated construct. -/
theorem newCase_call_ok {cfg : Config} {c : Client} {originated : Bool} {n : NewQ}
    (hnew : NewCase cfg c (h.path s) originated n) : CallOk n.call := by
  cases hnew with
  | replaced replaces =>
    unfold newReplaced
    split <;> exact cfg.serverid_ok
  | udp => exact cfg.serverid_ok
  | unverified => exact cfg.serverid_ok
  | clientOnlyOwn => exact cfg.serverid_ok
  | login _ inbound _ _ _ => exact Client.username_ok inbound
  | @viacall t front prev call _ _ _ _ via call_eq =>
    cases call_eq with
    | inl h =>
      rw [h.2]
      exact Client.username_ok h.1
    | inr h =>
      obtain ⟨rest, hpath⟩ := prefix_uncutPath (Header.path _ s)
      rw [h]
      exact hl.entry_ok (eq_front_append hpath.symm via)
  | address _ uplink _ _ => exact Client.addrHex_ok uplink
  | own => exact cfg.serverid_ok

end Loaded

end Aprsc
