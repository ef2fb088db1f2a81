-- SUMMARY: When the gauges of the port accounts are the numbers of open clients, and what makes them drift.
import Aprsc.Server.Accounts
import Mathlib.Algebra.BigOperators.Group.List.Basic
import Mathlib.Algebra.Ring.Int.Defs
import Mathlib.Data.List.Perm.Basic

/-!
# Balance of the accounts

Each open client is charged to the accounts that count it. The drift of an account is the
difference between its gauge and what the open clients are charged to it. A step either
leaves the drift as it is, or it slips by an amount that can be read off the event and the
state before.
-/

namespace Aprsc

/-! ## Charges -/

/-- How often an open client counts in an account. -/
def OpenClient.charge (c : OpenClient) : AccountId → Int
  | .inboundConnects => if c.isInbound then 1 else 0
  | .uplinkConnects => if c.isUplink then 1 else 0
  | .listener n => (if c.listener = some n then 1 else 0) + (if c.feeds n then 1 else 0)

/-- How often the open clients count in an account. -/
def Accounts.charged (s : Accounts) (a : AccountId) : Int := (s.clients.map (·.charge a)).sum

/-- The gauge of an account, less what it should be. -/
def Accounts.drift (s : Accounts) (a : AccountId) : Int := (s.account a).gauge - s.charged a

/-- The gauges are the numbers of open clients: of all inbound ones, of the uplinks, and
of those that were accepted by a listener or are fed through its socket. -/
structure Accounts.Balanced (s : Accounts) : Prop where
  inbound : (s.account .inboundConnects).gauge = s.clients.countP (·.isInbound)
  uplink : (s.account .uplinkConnects).gauge = s.clients.countP (·.isUplink)
  listener : ∀ n, (s.account (.listener n)).gauge =
    s.clients.countP (·.listener = some n) + s.clients.countP (·.feeds n)

theorem sum_map_indicator {α : Type} (p : α → Bool) (l : List α) :
    (l.map fun c => if p c then (1 : Int) else 0).sum = l.countP p := by
  induction l with
  | nil => rfl
  | cons c l ih =>
    rw [List.map_cons, List.sum_cons, ih, List.countP_cons]
    split <;> omega

theorem Accounts.charged_listener (s : Accounts) (n : Nat) :
    s.charged (.listener n) =
      s.clients.countP (·.listener = some n) + s.clients.countP (·.feeds n) := by
  simp only [charged, OpenClient.charge, List.sum_map_add, ← sum_map_indicator, decide_eq_true_eq]

theorem Accounts.balanced_iff {s : Accounts} : s.Balanced ↔ ∀ a, s.drift a = 0 := by
  have hin : s.charged .inboundConnects = s.clients.countP (·.isInbound) := sum_map_indicator ..
  have hup : s.charged .uplinkConnects = s.clients.countP (·.isUplink) := sum_map_indicator ..
  constructor
  · intro h a
    cases a with
    | inboundConnects => rw [drift, hin, h.inbound, Int.sub_self]
    | uplinkConnects => rw [drift, hup, h.uplink, Int.sub_self]
    | listener n => rw [drift, s.charged_listener, h.listener, Int.sub_self]
  · intro h
    refine ⟨?_, ?_, fun n => ?_⟩
    · rw [← hin]; exact Int.sub_eq_zero.1 (h _)
    · rw [← hup]; exact Int.sub_eq_zero.1 (h _)
    · rw [← s.charged_listener]; exact Int.sub_eq_zero.1 (h _)

/-! ## What the operations do to a gauge -/

@[simp] theorem Accounts.clients_modify (s : Accounts) (p : AccountId)
    (f : PortAccount → PortAccount) : (s.modify p f).clients = s.clients := rfl

/-- Changing the gauge of one account by `d`. -/
theorem Accounts.gauge_modify (s : Accounts) (p a : AccountId) {f : PortAccount → PortAccount}
    {d : Int} (hf : ∀ x, (f x).gauge = x.gauge + d) :
    ((s.modify p f).account a).gauge = (s.account a).gauge + if a = p then d else 0 := by
  by_cases h : a = p
  · rw [modify, if_pos h, ← hf, h]
    exact congrArg PortAccount.gauge (Function.update_self ..)
  · rw [modify, if_neg h, Int.add_zero]
    exact congrArg PortAccount.gauge (Function.update_of_ne h ..)

@[simp] theorem clients_inboundConnectsAccount (add : Int) (p : Option AccountId) (s : Accounts) :
    (inboundConnectsAccount add p s).clients = s.clients := by
  unfold inboundConnectsAccount
  cases p <;> dsimp only <;> split <;> rfl

/-- What a call of `inbound_connects_account` adds to the gauge of `inbound_connects`. -/
def inboundDelta (add : Int) : Int :=
  if add < 2 then if add = -1 then 0 else if add ≠ 0 then 1 else -1 else 0

/-- What it adds to the gauge of the port. -/
def portDelta (add : Int) : Int := if add = -1 then 0 else if add % 2 = 1 then 1 else -1

theorem gauge_account (add : Int) (p a : AccountId) (s : Accounts) :
    ((inboundConnectsAccount add (some p) s).account a).gauge =
      (s.account a).gauge + (if a = .inboundConnects then inboundDelta add else 0) +
        (if a = p then portDelta add else 0) := by
  unfold inboundConnectsAccount
  rw [Accounts.gauge_modify _ _ _ (d := portDelta add)]
  · congr 1
    by_cases h : add < 2
    · rw [if_pos h, Accounts.gauge_modify _ _ _ (d := inboundDelta add)]
      intro x
      simp only [inboundDelta, if_pos h]
      split
      · exact (Int.add_zero _).symm
      · split <;> rfl
    · simp only [inboundDelta, if_neg h, ite_self, Int.add_zero]
  · intro x
    simp only [portDelta, PortAccount.reject, PortAccount.add, PortAccount.drop]
    split
    · exact (Int.add_zero _).symm
    · split <;> rfl

/-! ## What the operations do to the drift -/

/-- The accounts that a client of a listener is charged to when it has no UDP feed. -/
def accepted (n : Nat) (a : AccountId) : Int :=
  (if a = .inboundConnects then 1 else 0) + (if a = .listener n then 1 else 0)

theorem Accounts.drift_account (add : Int) (p a : AccountId) (s : Accounts) :
    (inboundConnectsAccount add (some p) s).drift a =
      s.drift a + (if a = .inboundConnects then inboundDelta add else 0) +
        (if a = p then portDelta add else 0) := by
  simp only [drift, charged, gauge_account, clients_inboundConnectsAccount]
  omega

theorem Accounts.drift_push (s : Accounts) (c : OpenClient) (a : AccountId) :
    (s.push c).drift a = s.drift a - c.charge a := by
  simp only [drift, charged, push, List.map_cons, List.sum_cons]
  omega

theorem Accounts.drift_modify (s : Accounts) (p a : AccountId) {f : PortAccount → PortAccount}
    {d : Int} (hf : ∀ x, (f x).gauge = x.gauge + d) :
    (s.modify p f).drift a = s.drift a + if a = p then d else 0 := by
  simp only [drift, charged, clients_modify, s.gauge_modify p a hf]
  omega

theorem Accounts.drift_set (s : Accounts) {k : Nat} {c : OpenClient} (h : s.clients[k]? = some c)
    (c' : OpenClient) (a : AccountId) :
    ({ s with clients := s.clients.set k c' } : Accounts).drift a =
      s.drift a + c.charge a - c'.charge a := by
  obtain ⟨hk, rfl⟩ := List.getElem?_eq_some_iff.1 h
  have hset := ((List.set_perm_cons_eraseIdx hk c').map (·.charge a)).sum_eq
  have hget := ((List.getElem_cons_eraseIdx_perm hk).map (·.charge a)).sum_eq
  rw [List.map_cons, List.sum_cons] at hset hget
  simp only [drift, charged, hset, ← hget]
  omega

theorem Accounts.drift_eraseIdx (s : Accounts) {k : Nat} {c : OpenClient}
    (h : s.clients[k]? = some c) (a : AccountId) :
    ({ s with clients := s.clients.eraseIdx k } : Accounts).drift a = s.drift a + c.charge a := by
  obtain ⟨hk, rfl⟩ := List.getElem?_eq_some_iff.1 h
  have hget := ((List.getElem_cons_eraseIdx_perm hk).map (·.charge a)).sum_eq
  rw [List.map_cons, List.sum_cons] at hget
  simp only [drift, charged, ← hget]
  omega

/-! ## Well-formed clients -/

/-- Inbound clients are counted by their listener, uplinks by `uplink_connects`, and core
peers only by the listener of their socket. -/
structure OpenClient.Wf (c : OpenClient) : Prop where
  inbound : c.isInbound → ∃ n, c.listener = some n ∧ c.portaccount = some (.listener n)
  uplink : c.isUplink →
    c.listener = none ∧ c.portaccount = some .uplinkConnects ∧ c.udpclient = none
  peer : c.isInbound = false → c.isUplink = false → c.listener = none ∧ c.portaccount = none

theorem OpenClient.isUplink_eq_false_of_isInbound {c : OpenClient} (h : c.isInbound) :
    c.isUplink = false := by
  have hflags : c.flags &&& clflagsUplinkport = 0 := by simpa [isInbound] using h
  simp [isUplink, hflags]

/-- The part of a charge that is for a UDP feed. -/
def OpenClient.feedCharge (c : OpenClient) (a : AccountId) : Int :=
  match c.udpclient with
  | none => 0
  | some u => if c.udpPort ≠ 0 ∧ a = .listener u.listener then 1 else 0

theorem OpenClient.charge_feed (c : OpenClient) (n : Nat) :
    (if c.feeds n then 1 else 0) = c.feedCharge (.listener n) := by
  unfold feeds feedCharge
  cases c.udpclient with
  | none => simp
  | some u => simp [@eq_comm _ n]

theorem OpenClient.feedCharge_of_ne (c : OpenClient) {a : AccountId} (h : ∀ n, a ≠ .listener n) :
    c.feedCharge a = 0 := by
  unfold feedCharge
  cases c.udpclient with
  | none => rfl
  | some u => exact if_neg fun hu => h _ hu.2

theorem OpenClient.charge_inbound {c : OpenClient} {n : Nat} (hin : c.isInbound)
    (hl : c.listener = some n) (a : AccountId) : c.charge a = accepted n a + c.feedCharge a := by
  cases a with
  | inboundConnects => simp [charge, accepted, hin, c.feedCharge_of_ne]
  | uplinkConnects =>
    simp [charge, accepted, isUplink_eq_false_of_isInbound hin, c.feedCharge_of_ne]
  | listener m => simp [charge, accepted, hl, c.charge_feed, @eq_comm _ n]

theorem OpenClient.charge_uplink {c : OpenClient} (hwf : c.Wf) (hup : c.isUplink) (a : AccountId) :
    c.charge a = if a = .uplinkConnects then 1 else 0 := by
  obtain ⟨hl, -, hu⟩ := hwf.uplink hup
  have hin : c.isInbound = false := by
    by_contra h
    simp [isUplink_eq_false_of_isInbound (Bool.not_eq_false _ ▸ h)] at hup
  cases a with
  | inboundConnects => simp [charge, hin]
  | uplinkConnects => simp [charge, hup]
  | listener m => simp [charge, hl, feeds, hu]

theorem OpenClient.charge_peer {c : OpenClient} (hwf : c.Wf) (hin : c.isInbound = false)
    (hup : c.isUplink = false) (a : AccountId) : c.charge a = c.feedCharge a := by
  obtain ⟨hl, -⟩ := hwf.peer hin hup
  cases a with
  | inboundConnects => simp [charge, hin, c.feedCharge_of_ne]
  | uplinkConnects => simp [charge, hup, c.feedCharge_of_ne]
  | listener m => simp [charge, hl, c.charge_feed]

/-! ## Closing a client -/

theorem drift_closeFeed (c : OpenClient) (s : Accounts) (a : AccountId) :
    (closeFeed c s).drift a = s.drift a - c.feedCharge a := by
  unfold closeFeed OpenClient.feedCharge
  cases c.udpclient with
  | none => simp
  | some u =>
    by_cases hport : c.udpPort = 0
    · simp [hport]
    · simp only [hport, ne_eq, not_false_eq_true, if_true, true_and, Accounts.drift_account,
        inboundDelta, portDelta]
      grind

/-- What an uplink is counted out too often: `uplink_close` has counted it out already, and
it was never counted as inbound. -/
def uplinkSlip (a : AccountId) : Int :=
  (if a = .inboundConnects then 1 else 0) + (if a = .uplinkConnects then 1 else 0)

theorem drift_closeAccounts {c : OpenClient} (hwf : c.Wf) (s : Accounts) (a : AccountId) :
    (closeAccounts c s).drift a =
      s.drift a - c.charge a - if c.isUplink then uplinkSlip a else 0 := by
  unfold closeAccounts
  rw [drift_closeFeed]
  cases hup : c.isUplink with
  | true =>
    obtain ⟨-, hp, hu⟩ := hwf.uplink hup
    have hfeed : c.feedCharge a = 0 := by simp [OpenClient.feedCharge, hu]
    have hclose : (uplinkClose s).drift a = s.drift a + if a = .uplinkConnects then -1 else 0 :=
      s.drift_modify _ _ fun _ => rfl
    rw [OpenClient.charge_uplink hwf hup, hfeed]
    simp only [hp, Option.isSome_some, if_true, Accounts.drift_account, hclose, uplinkSlip]
    simp only [inboundDelta, portDelta]
    grind
  | false =>
    simp only [if_false, Bool.false_eq_true, Int.sub_zero]
    cases hin : c.isInbound with
    | true =>
      obtain ⟨n, hl, hp⟩ := hwf.inbound hin
      rw [OpenClient.charge_inbound hin hl]
      simp only [hp, Option.isSome_some, if_true, Accounts.drift_account, accepted]
      simp only [inboundDelta, portDelta]
      grind
    | false =>
      obtain ⟨-, hp⟩ := hwf.peer hin hup
      rw [OpenClient.charge_peer hwf hin hup]
      simp [hp]

/-! ## Logins -/

/-- The ports of the `udp` options that are read. -/
def feedPorts (udpPorts : List Int) : List Int :=
  udpPorts.takeWhile fun port => 1024 ≤ port ∧ port ≤ 65535

theorem loginUdpOptions_none {c : OpenClient} (hu : c.udpclient = none) (udpPorts : List Int)
    (s : Accounts) : loginUdpOptions udpPorts c s = (c, s) := by
  induction udpPorts with
  | nil => rfl
  | cons port rest ih =>
    simp only [loginUdpOptions, loginSetupUdpFeed, hu, ih, ite_self]

/-- Every option counts the client in once more, and the last one decides the port. -/
theorem loginUdpOptions_some {c : OpenClient} {u : ClientUdp} (hu : c.udpclient = some u)
    (udpPorts : List Int) (s : Accounts) (a : AccountId) :
    (loginUdpOptions udpPorts c s).1 =
        { c with udpPort := (feedPorts udpPorts).getLastD c.udpPort } ∧
      (loginUdpOptions udpPorts c s).2.clients = s.clients ∧
      (loginUdpOptions udpPorts c s).2.drift a =
        s.drift a + if a = .listener u.listener then ((feedPorts udpPorts).length : Int) else 0 := by
  induction udpPorts generalizing c s with
  | nil => simp [loginUdpOptions, feedPorts]
  | cons port rest ih =>
    by_cases hport : 1024 ≤ port ∧ port ≤ 65535
    · have hrange : ¬(port < 1024 ∨ port > 65535) := by omega
      have hread : feedPorts (port :: rest) = port :: feedPorts rest :=
        List.takeWhile_cons_of_pos (by simpa using hport)
      obtain ⟨h1, h2, h3⟩ := ih (c := { c with udpPort := port }) hu
        (inboundConnectsAccount 3 (some (.listener u.listener)) s)
      simp only [loginUdpOptions, loginSetupUdpFeed, hu, if_neg hrange] at *
      refine ⟨?_, ?_, ?_⟩
      · rw [h1, hread]
        cases feedPorts rest <;> rfl
      · rw [h2, clients_inboundConnectsAccount]
      · rw [h3, hread, Accounts.drift_account, List.length_cons]
        simp only [inboundDelta, portDelta]
        grind
    · have hrange : port < 1024 ∨ port > 65535 := by omega
      have hread : feedPorts (port :: rest) = [] :=
        List.takeWhile_cons_of_neg (by simpa using hport)
      simp [loginUdpOptions, hrange, hread]

/-- What a login counts in too often: it is only counted out once. -/
def OpenClient.loginSlip (c : OpenClient) (udpPorts : List Int) (a : AccountId) : Int :=
  match c.udpclient with
  | none => 0
  | some u =>
      if a = .listener u.listener ∧ feedPorts udpPorts ≠ [] then
        (feedPorts udpPorts).length - 1 + (if c.udpPort ≠ 0 then 1 else 0)
      else 0

theorem feedPorts_getLastD {udpPorts : List Int} (h : feedPorts udpPorts ≠ []) (d : Int) :
    (feedPorts udpPorts).getLastD d ≠ 0 := by
  have hmem : (feedPorts udpPorts).getLastD d ∈ feedPorts udpPorts := by
    rw [List.getLastD_eq_getLast?, List.getLast?_eq_some_getLast h]
    exact List.getLast_mem h
  have hport := List.mem_takeWhile_imp hmem
  rw [decide_eq_true_eq] at hport
  omega

theorem drift_login {s : Accounts} {k : Nat} {c : OpenClient} (h : s.clients[k]? = some c)
    (hwf : c.Wf) (hin : c.isInbound) (udpPorts : List Int) (a : AccountId) :
    ({ (loginUdpOptions udpPorts c s).2 with
        clients := (loginUdpOptions udpPorts c s).2.clients.set k (loginUdpOptions udpPorts c s).1 }
      : Accounts).drift a = s.drift a + c.loginSlip udpPorts a := by
  obtain ⟨n, hl, -⟩ := hwf.inbound hin
  cases hu : c.udpclient with
  | none =>
    rw [loginUdpOptions_none hu, Accounts.drift_set s h]
    simp [OpenClient.loginSlip, hu]
  | some u =>
    obtain ⟨hc, hclients, hdrift⟩ := loginUdpOptions_some hu udpPorts s a
    have hbefore := OpenClient.charge_inbound hin hl a
    have hafter := OpenClient.charge_inbound
      (c := { c with udpPort := (feedPorts udpPorts).getLastD c.udpPort }) hin hl a
    rw [Accounts.drift_set _ (hclients ▸ h), hc, hdrift, hbefore, hafter]
    simp only [OpenClient.loginSlip, OpenClient.feedCharge, hu]
    by_cases hread : feedPorts udpPorts = []
    · simp [hread]
    · have hlast := feedPorts_getLastD hread c.udpPort
      grind

/-! ## Steps -/

/-- A client that is restored with a UDP feed is dropped afterwards. -/
def Restore.leaks (r : Restore) : Bool :=
  !r.allocFails && r.state.isSome && r.feedPort.isSome && r.dropped

/-- The account of the listener that opened a UDP socket. -/
def udpCharge (u : Option ClientUdp) (a : AccountId) : Int :=
  match u with
  | none => 0
  | some u => if a = .listener u.listener then 1 else 0

/-- What a step adds to the drift of an account. -/
def Accounts.slip (ports : Ports) (s : Accounts) (a : AccountId) : AccountEvent → Int
  | .accept l x =>
      if s.full ports l ∨ x.refused l then 0 else if x.tlsLost l then accepted l.id a else 0
  | .restore l r =>
      if r.leaks then udpCharge (clientUdpFind ports.udpclients r.af l.portnum) a else 0
  | .login k udpPorts =>
      match s.clients[k]? with
      | none => 0
      | some c => if c.isInbound then c.loginSlip udpPorts a else 0
  | .uplink _ _ => 0
  | .peer pe passFails =>
      if passFails then udpCharge (clientUdpFind ports.udppeers pe.af pe.localPort) a else 0
  | .close k =>
      match s.clients[k]? with
      | none => 0
      | some c => if c.isUplink then - uplinkSlip a else 0

theorem drift_account_reject (p a : AccountId) (s : Accounts) :
    (inboundConnectsAccount (-1) (some p) s).drift a = s.drift a := by
  simp only [Accounts.drift_account, inboundDelta, portDelta]
  grind

theorem drift_account_drop (n : Nat) (a : AccountId) (s : Accounts) :
    (inboundConnectsAccount 0 (some (.listener n)) s).drift a = s.drift a - accepted n a := by
  simp only [Accounts.drift_account, accepted, inboundDelta, portDelta]
  grind

section Listen

variable (ports : Ports) (l : Listen) (af : Nat)

@[simp] theorem acceptClientForListener_fst (s : Accounts) :
    (acceptClientForListener ports l af s).1 = l.newClient ports af := rfl

@[simp] theorem portaccount_newClient :
    (l.newClient ports af).portaccount = some (.listener l.id) := rfl

theorem isInbound_newClient (st : CState) (port : Int) :
    ({ l.newClient ports af with state := st, udpPort := port } : OpenClient).isInbound := by
  simp [OpenClient.isInbound, Listen.newClient, l.not_uplink]

theorem wf_newClient (st : CState) (port : Int) :
    ({ l.newClient ports af with state := st, udpPort := port } : OpenClient).Wf := by
  have hin := isInbound_newClient ports l af st port
  refine ⟨fun _ => ⟨l.id, rfl, rfl⟩, fun hup => ?_, fun hout => ?_⟩
  · rw [OpenClient.isUplink_eq_false_of_isInbound hin] at hup
    cases hup
  · rw [hin] at hout
    cases hout

theorem charge_newClient (st : CState) (port : Int) (a : AccountId) :
    ({ l.newClient ports af with state := st, udpPort := port } : OpenClient).charge a =
      accepted l.id a +
        match clientUdpFind ports.udpclients af l.portnum with
        | none => 0
        | some u => if port ≠ 0 ∧ a = .listener u.listener then 1 else 0 :=
  OpenClient.charge_inbound (isInbound_newClient ports l af st port) rfl a

theorem drift_acceptClientForListener (s : Accounts) (a : AccountId) :
    (acceptClientForListener ports l af s).2.drift a = s.drift a + accepted l.id a := by
  simp only [acceptClientForListener, Listen.newClient, Accounts.drift_account, accepted,
    inboundDelta, portDelta]
  grind

end Listen

theorem drift_push_newClient (ports : Ports) (l : Listen) (af : Nat) (st : CState) (s : Accounts)
    (a : AccountId) :
    ((acceptClientForListener ports l af s).2.push { l.newClient ports af with state := st }).drift
      a = s.drift a := by
  have hcharge := charge_newClient ports l af st 0 a
  rw [Accounts.drift_push, drift_acceptClientForListener]
  simp only [Listen.newClient] at hcharge ⊢
  rw [hcharge]
  cases clientUdpFind ports.udpclients af l.portnum <;> simp

theorem drift_doAccept (ports : Ports) (l : Listen) (x : Attempt) (s : Accounts) (a : AccountId) :
    (doAccept ports l x s).drift a = s.drift a + s.slip ports a (.accept l x) := by
  unfold doAccept Accounts.slip
  cases hfull : s.full ports l with
  | true => simp [hfull, drift_account_reject]
  | false =>
    cases href : x.refused l with
    | true => simp [href, drift_account_reject]
    | false =>
      have hacc := drift_acceptClientForListener ports l x.af s a
      cases htls : x.tlsLost l with
      | true => simp [hfull, href, htls, drift_account_reject, hacc]
      | false =>
        cases hdropped : x.dropped with
        | true =>
          have hdrop := drift_account_drop l.id a (acceptClientForListener ports l x.af s).2
          rw [hacc] at hdrop
          simpa [hfull, href, htls] using hdrop
        | false =>
          have hpush := drift_push_newClient ports l x.af .login s a
          simpa [hfull, href, htls] using hpush

/-- A client that is restored with a UDP feed, or without one. -/
theorem drift_push_feed (ports : Ports) (l : Listen) (af : Nat) (st : CState) {port : Int}
    (hport : port ≠ 0) (s : Accounts) (a : AccountId) :
    let r := loginSetupUdpFeed port { l.newClient ports af with state := st }
      (acceptClientForListener ports l af s).2
    (r.2.push r.1).drift a = s.drift a ∧
      (inboundConnectsAccount 0 r.1.portaccount r.2).drift a = s.drift a + udpCharge (clientUdpFind ports.udpclients af l.portnum) a := by
  have hacc := drift_acceptClientForListener ports l af s a
  intro r
  cases hu : clientUdpFind ports.udpclients af l.portnum with
  | none =>
    have hr : r = ({ l.newClient ports af with state := st },
        (acceptClientForListener ports l af s).2) := by
      simp only [r, loginSetupUdpFeed, Listen.newClient, hu]
    rw [hr]
    refine ⟨drift_push_newClient ports l af st s a, ?_⟩
    simp [drift_account_drop, hacc, udpCharge]
  | some u =>
    have hr : r = ({ l.newClient ports af with state := st, udpPort := port },
        inboundConnectsAccount 3 (some (.listener u.listener))
          (acceptClientForListener ports l af s).2) := by
      simp only [r, loginSetupUdpFeed, Listen.newClient, hu]
    have hfeed : r.2.drift a =
        s.drift a + accepted l.id a + if a = .listener u.listener then 1 else 0 := by
      rw [hr, Accounts.drift_account, hacc]
      simp [inboundDelta, portDelta]
    have hcharge := charge_newClient ports l af st port a
    constructor
    · rw [Accounts.drift_push, hfeed, hr, hcharge, hu]
      simp [hport]
    · rw [hr] at hfeed ⊢
      simp only [portaccount_newClient, drift_account_drop, hfeed, udpCharge]
      omega

theorem Restore.feedPort_ne_zero {r : Restore} {port : Int} (h : r.feedPort = some port) :
    port ≠ 0 := by
  have hrange := (Option.filter_eq_some_iff.1 h).2
  rw [decide_eq_true_eq] at hrange
  omega

theorem drift_acceptLiveupgradeSingle (ports : Ports) (l : Listen) (r : Restore) (s : Accounts)
    (a : AccountId) :
    (acceptLiveupgradeSingle ports l r s).drift a = s.drift a + s.slip ports a (.restore l r) := by
  have hacc := drift_acceptClientForListener ports l r.af s a
  have hdrop := drift_account_drop l.id a (acceptClientForListener ports l r.af s).2
  rw [hacc] at hdrop
  by_cases halloc : r.allocFails
  · simp [acceptLiveupgradeSingle, Accounts.slip, Restore.leaks, halloc]
  cases hst : r.state with
  | none =>
    simpa [acceptLiveupgradeSingle, Accounts.slip, Restore.leaks, halloc, hst] using hdrop
  | some st =>
    cases hport : r.feedPort with
    | none =>
      have hpush := drift_push_newClient ports l r.af st.toCState s a
      simp only [acceptLiveupgradeSingle, Accounts.slip, Restore.leaks, halloc, hst, hport]
      by_cases hdropped : r.dropped
      · simpa [hdropped] using hdrop
      · simpa [hdropped] using hpush
    | some port =>
      obtain ⟨hpush, hleak⟩ := drift_push_feed ports l r.af st.toCState
        (Restore.feedPort_ne_zero hport) s a
      simp only [acceptLiveupgradeSingle, Accounts.slip, Restore.leaks, halloc, hst, hport]
      by_cases hdropped : r.dropped
      · simpa [hdropped] using hleak
      · simpa [hdropped] using hpush

theorem isUplink_newClient (l : UplinkConfig) : l.newClient.isUplink := by
  simp [OpenClient.isUplink, UplinkConfig.newClient, l.is_uplink]

theorem wf_uplink (l : UplinkConfig) : l.newClient.Wf := by
  have hup := isUplink_newClient l
  refine ⟨fun hin => ?_, fun _ => ⟨rfl, rfl, rfl⟩, fun _ hnot => ?_⟩
  · rw [OpenClient.isUplink_eq_false_of_isInbound hin] at hup
    cases hup
  · rw [hup] at hnot
    cases hnot

theorem isInbound_peer (pe : PeeripConfig) (u : ClientUdp) :
    (pe.newClient u).isInbound = false := by
  simp [OpenClient.isInbound, PeeripConfig.newClient, clflagsUplinkport]

theorem isUplink_peer (pe : PeeripConfig) (u : ClientUdp) : (pe.newClient u).isUplink = false := by
  simp [OpenClient.isUplink, PeeripConfig.newClient]

theorem wf_peer (pe : PeeripConfig) (u : ClientUdp) : (pe.newClient u).Wf where
  inbound h := by simp [isInbound_peer] at h
  uplink h := by simp [isUplink_peer] at h
  peer _ _ := ⟨rfl, rfl⟩

theorem drift_makeUplink (l : UplinkConfig) (fails : Bool) (s : Accounts) (a : AccountId) :
    (makeUplink l fails s).drift a = s.drift a := by
  unfold makeUplink
  cases fails with
  | true => rfl
  | false =>
    simp only [Bool.false_eq_true, if_false]
    rw [Accounts.drift_modify _ _ _ (d := 1) fun _ => rfl, Accounts.drift_push,
      OpenClient.charge_uplink (wf_uplink l) (isUplink_newClient l)]
    omega

theorem drift_peeripClientConfig (ports : Ports) (pe : PeeripConfig) (passFails : Bool)
    (s : Accounts) (a : AccountId) :
    (peeripClientConfig ports pe passFails s).drift a =
      s.drift a + s.slip ports a (.peer pe passFails) := by
  unfold peeripClientConfig Accounts.slip
  cases hu : clientUdpFind ports.udppeers pe.af pe.localPort with
  | none => simp [hu, udpCharge]
  | some u =>
    have hfeed := s.drift_account 3 (.listener u.listener) a
    have hcharge := OpenClient.charge_peer (wf_peer pe u) (isInbound_peer pe u) (isUplink_peer pe u) a
    cases passFails with
    | true =>
      simp only [if_true, hfeed, hu, udpCharge, inboundDelta, portDelta]
      grind
    | false =>
      have hport : pe.remotePort ≠ 0 := Int.ne_of_gt pe.remotePort_pos
      simp only [Bool.false_eq_true, if_false, Accounts.drift_push, hfeed, hcharge, inboundDelta,
        portDelta]
      simp [OpenClient.feedCharge, PeeripConfig.newClient, hport]

/-- One step changes the drift by its slip. -/
theorem Accounts.drift_step (ports : Ports) {s : Accounts} (hwf : ∀ c ∈ s.clients, c.Wf)
    (e : AccountEvent) (a : AccountId) :
    (s.step ports e).drift a = s.drift a + s.slip ports a e := by
  cases e with
  | accept l x => exact drift_doAccept ports l x s a
  | restore l r => exact drift_acceptLiveupgradeSingle ports l r s a
  | login k udpPorts =>
    simp only [step, slip]
    cases hc : s.clients[k]? with
    | none => simp
    | some c =>
      have hmem := hwf c (List.mem_of_getElem? hc)
      by_cases hin : c.isInbound
      · simpa [hin] using drift_login hc hmem hin udpPorts a
      · simp [hin]
  | uplink l fails => exact (drift_makeUplink l fails s a).trans (Int.add_zero _).symm
  | peer pe passFails => exact drift_peeripClientConfig ports pe passFails s a
  | close k =>
    simp only [step, slip]
    cases hc : s.clients[k]? with
    | none => simp
    | some c =>
      have hmem := hwf c (List.mem_of_getElem? hc)
      simp only [drift_closeAccounts hmem, s.drift_eraseIdx hc]
      split <;> omega

/-! ### The clients after a step -/

theorem clients_doAccept (ports : Ports) (l : Listen) (x : Attempt) (s : Accounts) :
    (doAccept ports l x s).clients =
      if s.full ports l || x.refused l || x.tlsLost l || x.dropped then s.clients
      else { l.newClient ports x.af with state := .login } :: s.clients := by
  unfold doAccept
  cases s.full ports l <;> cases x.refused l <;> cases x.tlsLost l <;> cases x.dropped <;>
    simp [acceptClientForListener, Accounts.push]

theorem loginSetupUdpFeed_newClient (ports : Ports) (l : Listen) (af : Nat) (st : CState)
    (port : Int) (s : Accounts) :
    (∃ port', (loginSetupUdpFeed port { l.newClient ports af with state := st } s).1 =
        { l.newClient ports af with state := st, udpPort := port' }) ∧
      (loginSetupUdpFeed port { l.newClient ports af with state := st } s).2.clients =
        s.clients := by
  unfold loginSetupUdpFeed
  split
  · exact ⟨⟨0, rfl⟩, rfl⟩
  · exact ⟨⟨port, rfl⟩, clients_inboundConnectsAccount ..⟩

theorem clients_acceptLiveupgradeSingle (ports : Ports) (l : Listen) (r : Restore) (s : Accounts) :
    (acceptLiveupgradeSingle ports l r s).clients = s.clients ∨
      ∃ st port, (acceptLiveupgradeSingle ports l r s).clients =
        { l.newClient ports r.af with state := st, udpPort := port } :: s.clients := by
  unfold acceptLiveupgradeSingle
  split
  · exact .inl rfl
  cases r.state with
  | none => exact .inl (by simp [acceptClientForListener])
  | some st =>
    cases r.feedPort with
    | none =>
      dsimp only
      split
      · exact .inl (by simp [acceptClientForListener])
      · exact .inr ⟨st.toCState, 0, by simp [acceptClientForListener, Accounts.push, Listen.newClient]⟩
    | some port =>
      obtain ⟨⟨port', hc⟩, hclients⟩ := loginSetupUdpFeed_newClient ports l r.af st.toCState port
        (acceptClientForListener ports l r.af s).2
      dsimp only [acceptClientForListener_fst]
      split
      · exact .inl (by rw [clients_inboundConnectsAccount, hclients]; simp [acceptClientForListener])
      · exact .inr ⟨st.toCState, port', by
          rw [Accounts.push, hc, hclients]
          simp [acceptClientForListener]⟩

theorem clients_closeAccounts (c : OpenClient) (s : Accounts) :
    (closeAccounts c s).clients = s.clients := by
  unfold closeAccounts closeFeed uplinkClose
  cases c.udpclient <;> cases c.portaccount <;> cases c.isUplink <;> simp <;> split <;> simp

theorem wf_loginUdpOptions {c : OpenClient} (hwf : c.Wf) (udpPorts : List Int) (s : Accounts) :
    (loginUdpOptions udpPorts c s).1.Wf ∧
      (loginUdpOptions udpPorts c s).2.clients = s.clients := by
  cases hu : c.udpclient with
  | none =>
    rw [loginUdpOptions_none hu]
    exact ⟨hwf, rfl⟩
  | some u =>
    obtain ⟨hc, hclients, -⟩ := loginUdpOptions_some hu udpPorts s .inboundConnects
    rw [hc]
    exact ⟨⟨hwf.inbound, hwf.uplink, hwf.peer⟩, hclients⟩

/-- Every client is made well-formed and stays so. -/
theorem Accounts.wf_step (ports : Ports) (s : Accounts) (e : AccountEvent)
    (hwf : ∀ c ∈ s.clients, c.Wf) : ∀ c ∈ (s.step ports e).clients, c.Wf := by
  cases e with
  | accept l x =>
    rw [step, clients_doAccept]
    split
    · exact hwf
    · exact List.forall_mem_cons.2 ⟨wf_newClient ports l x.af .login 0, hwf⟩
  | restore l r =>
    obtain h | ⟨st, port, h⟩ := clients_acceptLiveupgradeSingle ports l r s
    · rw [step, h]
      exact hwf
    · rw [step, h]
      exact List.forall_mem_cons.2 ⟨wf_newClient ports l r.af st port, hwf⟩
  | login k udpPorts =>
    simp only [step]
    split
    · exact hwf
    next c hc =>
      split
      · obtain ⟨hc', hclients⟩ := wf_loginUdpOptions (hwf c (List.mem_of_getElem? hc)) udpPorts s
        intro d hd
        obtain hd | rfl := List.mem_or_eq_of_mem_set hd
        · exact hwf d (hclients ▸ hd)
        · exact hc'
      · exact hwf
  | uplink l fails =>
    cases fails with
    | true => exact hwf
    | false => exact List.forall_mem_cons.2 ⟨wf_uplink l, hwf⟩
  | peer pe passFails =>
    simp only [step, peeripClientConfig]
    split
    · exact hwf
    · cases passFails with
      | true => simpa using hwf
      | false => simpa [push] using ⟨wf_peer pe _, hwf⟩
  | close k =>
    simp only [step]
    split
    · exact hwf
    · rw [clients_closeAccounts]
      exact fun d hd => hwf d (List.mem_of_mem_eraseIdx hd)

/-! ## Balance -/

/-- The step is one that the accounts can be trusted after: TLS can be set up for an
accepted client, a client that is restored with a UDP feed and a core peer can be handed
to a worker, a client asks for a UDP feed only once, and no uplink is closed. -/
def Accounts.Counted (ports : Ports) (s : Accounts) : AccountEvent → Prop
  | .accept l x => s.full ports l ∨ x.refused l ∨ x.tlsLost l = false
  | .restore l r => r.leaks → clientUdpFind ports.udpclients r.af l.portnum = none
  | .login k udpPorts => ∀ c, s.clients[k]? = some c → c.isInbound → c.udpclient ≠ none →
      feedPorts udpPorts = [] ∨ (feedPorts udpPorts).length = 1 ∧ c.udpPort = 0
  | .uplink _ _ => True
  | .peer pe passFails => passFails → clientUdpFind ports.udppeers pe.af pe.localPort = none
  | .close k => ∀ c, s.clients[k]? = some c → c.isUplink = false

theorem udpCharge_eq_zero_iff (u : Option ClientUdp) : (∀ a, udpCharge u a = 0) ↔ u = none := by
  constructor
  · intro h
    cases u with
    | none => rfl
    | some u => simpa [udpCharge] using h (.listener u.listener)
  · rintro rfl a
    rfl

theorem accepted_ne_zero (n : Nat) : ¬∀ a, accepted n a = 0 := by
  intro h
  simpa [accepted] using h .inboundConnects

theorem OpenClient.loginSlip_eq_zero_iff (c : OpenClient) (udpPorts : List Int) :
    (∀ a, c.loginSlip udpPorts a = 0) ↔ (c.udpclient ≠ none →
      feedPorts udpPorts = [] ∨ (feedPorts udpPorts).length = 1 ∧ c.udpPort = 0) := by
  unfold loginSlip
  cases hu : c.udpclient with
  | none => simp
  | some u =>
    by_cases hread : feedPorts udpPorts = []
    · simp [hread]
    · have hlen := List.length_pos_iff.2 hread
      simp only [hread, ne_eq, not_false_eq_true, and_true, reduceCtorEq, false_or, forall_const]
      constructor
      · intro h
        have hslip := h (.listener u.listener)
        rw [if_pos rfl] at hslip
        split at hslip <;> omega
      · intro h a
        split
        · simp [h.1, h.2]
        · rfl

theorem Accounts.slip_eq_zero_iff (ports : Ports) (s : Accounts) (e : AccountEvent) :
    (∀ a, s.slip ports a e = 0) ↔ s.Counted ports e := by
  cases e with
  | accept l x =>
    have hne := accepted_ne_zero l.id
    simp only [slip, Counted]
    by_cases hfull : s.full ports l
    · simp [hfull]
    by_cases href : x.refused l
    · simp [href]
    by_cases htls : x.tlsLost l
    · simpa [hfull, href, htls] using hne
    · simp [htls]
  | restore l r =>
    simp only [slip, Counted]
    by_cases hleak : r.leaks
    · simpa [hleak] using udpCharge_eq_zero_iff _
    · simp [hleak]
  | login k udpPorts =>
    simp only [slip, Counted]
    cases hc : s.clients[k]? with
    | none => simp
    | some c =>
      by_cases hin : c.isInbound
      · simpa [hin] using c.loginSlip_eq_zero_iff udpPorts
      · simp [hin]
  | uplink l fails => simp [slip, Counted]
  | peer pe passFails =>
    simp only [slip, Counted]
    cases passFails with
    | true => simpa using udpCharge_eq_zero_iff _
    | false => simp
  | close k =>
    simp only [slip, Counted]
    cases hc : s.clients[k]? with
    | none => simp
    | some c =>
      by_cases hup : c.isUplink
      · simp only [hup, if_true, Option.some.injEq, forall_eq', Bool.true_eq_false, iff_false]
        intro h
        simpa [uplinkSlip] using h .uplinkConnects
      · simp [hup]

theorem Accounts.balanced_init : Accounts.init.Balanced :=
  ⟨rfl, rfl, fun _ => rfl⟩

theorem Accounts.balanced_step_iff (ports : Ports) {s : Accounts} (hwf : ∀ c ∈ s.clients, c.Wf)
    (h : s.Balanced) (e : AccountEvent) : (s.step ports e).Balanced ↔ s.Counted ports e := by
  rw [balanced_iff] at h
  rw [balanced_iff, ← slip_eq_zero_iff]
  simp only [drift_step ports hwf, h, Int.zero_add]

/-- The number of clients that a listener has: those it accepted, and those that are fed
through its socket. -/
def Accounts.openOn (s : Accounts) (n : Nat) : Int :=
  s.clients.countP (·.listener = some n) + s.clients.countP (·.feeds n)

/-- The gauges are the numbers of open clients, and `do_accept` goes by these numbers: a
connection that nothing else stops becomes a client when there is room for it. -/
structure Accounts.Accurate (ports : Ports) (s : Accounts) : Prop extends s.Balanced where
  admits : ∀ l x, x.refused l = false → x.tlsLost l = false → x.dropped = false →
    ((doAccept ports l x s).clients.length = s.clients.length + 1 ↔
      (s.clients.countP (·.isInbound) : Int) < ports.maxclients ∧ s.openOn l.id < l.clientsMax)

theorem Accounts.accurate_iff (ports : Ports) {s : Accounts} :
    s.Accurate ports ↔ s.Balanced := by
  refine ⟨fun h => h.toBalanced, fun h => ⟨h, fun l x href htls hdropped => ?_⟩⟩
  have hfull : s.full ports l = false ↔
      (s.clients.countP (·.isInbound) : Int) < ports.maxclients ∧ s.openOn l.id < l.clientsMax := by
    rw [full, h.inbound, h.listener, openOn, Bool.or_eq_false_iff, decide_eq_false_iff_not,
      decide_eq_false_iff_not]
    omega
  rw [← hfull, clients_doAccept, href, htls, hdropped]
  cases s.full ports l <;> simp

/-- The gauges are accurate in every state of a run exactly when every step of the run is
counted right. -/
theorem accurate_iff_counted (ports : Ports) (es : List AccountEvent) :
    Runs.Always (Accounts.step ports) (Accounts.Accurate ports) .init es ↔
      Runs.Meets (Accounts.step ports) (Accounts.Counted ports) .init es := by
  have hinit : ∀ c ∈ Accounts.init.clients, c.Wf := nofun
  refine Runs.always_iff_meets (Accounts.wf_step ports) (fun s e hwf h => ?_) hinit
    ((Accounts.accurate_iff ports).2 Accounts.balanced_init) es
  rw [Accounts.accurate_iff] at h ⊢
  exact Accounts.balanced_step_iff ports hwf h e

/-- The uplink is counted out twice, and of the inbound clients as well. -/
theorem uplink_closed_not_accurate :
    ¬Runs.Always (Accounts.step ⟨10, [], []⟩) (Accounts.Accurate ⟨10, [], []⟩) .init
      [.uplink ⟨clflagsUplinkport, by decide⟩ false, .close 0] := by
  intro h
  have hin := h.2.2.inbound
  revert hin
  decide

end Aprsc
