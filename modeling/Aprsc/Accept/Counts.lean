-- SUMMARY: The server counts its clients as the accounts do that are modelled without their memory, call by call.
import Aprsc.Accept.Thread
import Aprsc.Server.Balance

/-!
# The accounts of the server

The accounts of `Aprsc.Accounts` are never freed, and a client there has its socket in it.
The server has both by their addresses. What is known of a call there holds of the call of
the server: afterwards the accounts that are still there have the same counts, and the
client that was made is the same.
-/

namespace Aprsc.Accept

open Counted

/-! ## What is the same -/

/-- The socket at `u`. The account that it has is that of its listener. -/
def Sockets.Shows (k : Sockets) (u : Nat) (v : ClientUdp) : Prop :=
  ∃ x, k.heap.cells u = some x ∧ x.af = v.af ∧ x.portnum = v.portnum ∧ x.portaccount = v.listener

/-- A client, wherever it is. -/
structure Server.Shows (s : Server) (c : ClientT) (d : OpenClient) : Prop where
  flags : d.flags = c.flags
  state : d.state = c.state
  portaccount : d.portaccount = c.portaccount.map .listener
  udpPort : d.udpPort = c.udpPort
  udpclient : Option.Rel s.sockets.Shows c.udpclient d.udpclient

/-- A listener is known by the address of its account. -/
structure ListenT.Shows (l : ListenT) (m : Listen) : Prop where
  id : m.id = l.portaccount
  portnum : l.portnum = m.portnum
  clientsMax : m.clientsMax = l.clientsMax
  clientFlags : m.clientFlags = l.clientFlags
  acl : m.acl = l.acl.isSome
  ssl : m.ssl = l.ssl

/-- The accounts that are there have these counts. -/
structure Server.Counts (s : Server) (b : Accounts) : Prop where
  inbound : b.account .inboundConnects = s.inboundConnects
  port : ∀ {a p}, s.accounts.cells a = some p → b.account (.listener a) = p

/-- The calls hand on the same client, or none. -/
def Server.HandsOn (s s' : Server) (b b' : Accounts) : Prop :=
  s'.queue = s.queue ∧ b'.clients = b.clients ∨
    ∃ c d, s'.queue = s.queue ++ [.client c] ∧ b'.clients = d :: b.clients ∧ s'.Shows c d

def Connection.attempt (l : ListenT) (a : Connection) : Attempt where
  af := a.addr.family
  aclDenies := l.acl.any (!aclCheck · a.addr)
  allocFails := a.allocFails
  tlsFails := a.tlsFails
  sockoptFails := a.passFails
  passFails := false

def Restored.restore (r : Restored) : Restore where
  af := r.addr.family
  allocFails := r.allocFails
  state := r.state
  udpPort := r.udpPort
  sockoptFails := r.passFails
  passFails := false

/-! ## The accounts -/

section

variable {s s' : Server} {b b' : Accounts}

theorem Server.Counts.congr (h : s.Counts b) (haccounts : s'.accounts = s.accounts)
    (hinbound : s'.inboundConnects = s.inboundConnects) (hb : b'.account = b.account) :
    s'.Counts b' where
  inbound := by rw [hb, hinbound, h.inbound]
  port hx := by
    rw [haccounts] at hx
    rw [hb, h.port hx]

/-- What `inbound_connects_account` does to the account of a port. -/
def portChange (add : Int) (p : PortAccount) : PortAccount :=
  if add = -1 then p.reject else if add % 2 = 1 then p.add else p.drop

theorem cells_countPort_of_ne {add : Int} {a p : Nat} {accounts : Heap PortAccount} (hne : a ≠ p) :
    (countPort add p accounts).cells a = accounts.cells a := by
  unfold countPort portAccounterDrop
  split
  · exact Heap.cells_modify_of_ne _ _ hne
  · split
    · exact Heap.cells_modify_of_ne _ _ hne
    · exact Heap.cells_drop_of_ne _ _ hne

theorem cells_countPort_self {add : Int} {p : Nat} {accounts : Heap PortAccount} {x : PortAccount}
    (hx : (countPort add p accounts).cells p = some x) :
    (accounts.cells p).map (portChange add) = some x := by
  unfold countPort portAccounterDrop at hx
  unfold portChange
  split at hx
  next hadd =>
    rw [Heap.cells_modify_self] at hx
    simpa [hadd] using hx
  next hadd =>
    split at hx
    next hodd =>
      rw [Heap.cells_modify_self] at hx
      simpa [hadd, hodd] using hx
    next hodd =>
      rw [Heap.cells_drop_self] at hx
      simpa [hadd, hodd] using (Option.filter_eq_some_iff.mp hx).1

theorem account_inboundConnects (add : Int) (p : Option Nat) (b : Accounts) :
    (Aprsc.inboundConnectsAccount add (p.map .listener) b).account .inboundConnects =
      countInbound add (b.account .inboundConnects) := by
  unfold Aprsc.inboundConnectsAccount countInbound
  cases p <;> by_cases hadd : add < 2 <;> simp [hadd, Accounts.modify] <;> rfl

theorem account_listener (add : Int) (p : Option Nat) (b : Accounts) (a : Nat) :
    (Aprsc.inboundConnectsAccount add (p.map .listener) b).account (.listener a) =
      if p = some a then portChange add (b.account (.listener a)) else b.account (.listener a) := by
  have hrest : (Aprsc.inboundConnectsAccount add none b).account (.listener a) =
      b.account (.listener a) := by
    unfold Aprsc.inboundConnectsAccount
    split <;> simp [Accounts.modify]
  cases p with
  | none => exact hrest
  | some p =>
    have hp : (Aprsc.inboundConnectsAccount add (some (.listener p)) b).account =
        Function.update (Aprsc.inboundConnectsAccount add none b).account (.listener p)
          (portChange add ((Aprsc.inboundConnectsAccount add none b).account (.listener p))) := rfl
    by_cases hap : p = a
    · subst hap
      rw [Option.map_some, hp, Function.update_self, if_pos rfl, hrest]
    · rw [Option.map_some, hp, Function.update_of_ne (by simpa using Ne.symm hap), hrest,
        if_neg (by simpa using hap)]

/-- `inbound_connects_account`. -/
theorem Server.Counts.inboundConnectsAccount (h : s.Counts b) (add : Int) (p : Option Nat) :
    (s.inboundConnectsAccount add p).Counts
      (Aprsc.inboundConnectsAccount add (p.map .listener) b) where
  inbound := by
    rw [account_inboundConnects, h.inbound]
    rfl
  port {a x} hx := by
    rw [account_listener]
    cases p with
    | none => exact h.port hx
    | some p =>
      by_cases hap : a = p
      · -- the account is there still, so it was there before
        subst hap
        obtain ⟨y, hy, rfl⟩ := Option.map_eq_some_iff.mp (cells_countPort_self hx)
        rw [if_pos rfl, h.port hy]
      · rw [if_neg fun hpa => hap (Option.some.inj hpa).symm]
        exact h.port ((cells_countPort_of_ne hap).symm.trans hx)

end

/-! ## Sockets -/

section

variable {s s' : Server} {b b' : Accounts} {k : Sockets} {u : Nat} {v : ClientUdp} {c : ClientT}
  {d : OpenClient}

theorem Sockets.Shows.take (h : k.Shows u v) (w : Nat) :
    { k with heap := k.heap.modify w fun x => { x with refcount := x.refcount + 1 } }.Shows u v := by
  obtain ⟨x, hx, hsame⟩ := h
  by_cases huw : u = w
  · subst huw
    exact ⟨{ x with refcount := x.refcount + 1 }, by rw [Heap.cells_modify_self, hx]; rfl, hsame⟩
  · exact ⟨x, by rw [Heap.cells_modify_of_ne _ _ huw, hx], hsame⟩

/-- `client_udp_find` finds the same socket. -/
theorem findSocket_shows (af portnum : Nat) {us : List Nat} {vs : List ClientUdp}
    (h : List.Forall₂ k.Shows us vs) :
    Option.Rel { k with heap := (findSocket af portnum k.heap us).2 }.Shows
      (findSocket af portnum k.heap us).1 (Aprsc.clientUdpFind vs af portnum) := by
  induction h with
  | nil => exact .none
  | @cons u v us vs huv hrest ih =>
    obtain ⟨x, hx, haf, hport, hacc⟩ := huv
    by_cases hhit : x.portnum = portnum ∧ x.af = af
    · have hv : v.portnum = portnum ∧ v.af = af := by
        refine ⟨?_, haf ▸ hhit.2⟩
        exact_mod_cast hport.symm.trans hhit.1
      have hfind : Aprsc.clientUdpFind (v :: vs) af portnum = some v := by
        simp [Aprsc.clientUdpFind, hv]
      rw [findSocket, hx, hfind]
      simp only [if_pos hhit]
      exact .some (Sockets.Shows.take ⟨x, hx, haf, hport, hacc⟩ u)
    · have hv : ¬(v.portnum = portnum ∧ v.af = af) := by
        rintro ⟨h1, h2⟩
        exact hhit ⟨by rw [hport, h1], by rw [haf, h2]⟩
      have hfind : Aprsc.clientUdpFind (v :: vs) af portnum = Aprsc.clientUdpFind vs af portnum := by
        simp only [Aprsc.clientUdpFind, List.find?_cons]
        rw [show (v.portnum == portnum && v.af == af) = false by simpa using hv]
      rw [findSocket, hx, hfind]
      simp only [if_neg hhit]
      exact ih

theorem Server.Shows.congr (h : s.Shows c d) (hsockets : s'.sockets = s.sockets) : s'.Shows c d :=
  ⟨h.flags, h.state, h.portaccount, h.udpPort, hsockets ▸ h.udpclient⟩

/-! ## Clients -/

/-- `accept_client_for_listener`. -/
theorem Server.Counts.acceptClientForListener (h : s.Counts b) {l : ListenT} {m : Listen}
    (hl : l.Shows m) {ports : Ports} {root : Option Nat}
    (hroot : List.Forall₂ s.sockets.Shows (s.sockets.chain root) ports.udpclients) (af worker : Nat) :
    (s.acceptClientForListener root l af worker).2.Counts
        (Aprsc.acceptClientForListener ports m af b).2 ∧
      (s.acceptClientForListener root l af worker).2.Shows
        (s.acceptClientForListener root l af worker).1
        (Aprsc.acceptClientForListener ports m af b).1 := by
  have hfind := findSocket_shows af m.portnum hroot
  rw [← hl.portnum] at hfind
  refine ⟨?_, ?_⟩
  · have hcount := h.inboundConnectsAccount 1 (some l.portaccount)
    simp only [Aprsc.acceptClientForListener, Listen.newClient, hl.id]
    exact hcount.congr rfl rfl rfl
  · exact ⟨hl.clientFlags, rfl, by simp [Aprsc.acceptClientForListener, Listen.newClient, hl.id,
      Server.acceptClientForListener], rfl, hfind⟩

/-- Both have a socket, or none. -/
theorem Server.Shows.socket (hc : s.Shows c d) :
    c.udpclient = none ∧ d.udpclient = none ∨
      ∃ u v x, c.udpclient = some u ∧ d.udpclient = some v ∧ s.sockets.heap.cells u = some x ∧
        x.portaccount = v.listener := by
  have hu := hc.udpclient
  cases hcu : c.udpclient with
  | none =>
    rw [hcu] at hu
    cases hdu : d.udpclient with
    | none => exact .inl ⟨rfl, rfl⟩
    | some v =>
      rw [hdu] at hu
      cases hu
  | some u =>
    rw [hcu] at hu
    cases hdu : d.udpclient with
    | none =>
      rw [hdu] at hu
      cases hu
    | some v =>
      rw [hdu] at hu
      obtain ⟨x, hx, -, -, hacc⟩ := Option.rel_some_some.mp hu
      exact .inr ⟨u, v, x, rfl, rfl, hx, hacc⟩

/-- `login_setup_udp_feed`. -/
theorem Server.Counts.loginSetupUdpFeed (h : s.Counts b) (hc : s.Shows c d) (port : Int) :
    (s.loginSetupUdpFeed port c).2.Counts (Aprsc.loginSetupUdpFeed port d b).2 ∧
      (s.loginSetupUdpFeed port c).2.Shows (s.loginSetupUdpFeed port c).1
        (Aprsc.loginSetupUdpFeed port d b).1 := by
  unfold Server.loginSetupUdpFeed Aprsc.loginSetupUdpFeed
  obtain ⟨hcu, hdu⟩ | ⟨u, v, x, hcu, hdu, hx, hacc⟩ := hc.socket
  · simp only [hcu, hdu, Option.isNone_none, if_true]
    exact ⟨h, hc⟩
  · simp only [hcu, hdu, Option.isNone_some, Bool.false_eq_true, if_false, Server.withSocket, hx,
      ← hacc]
    have hcount := h.inboundConnectsAccount 3 (some x.portaccount)
    have hshows : s.Shows { c with udpPort := port } { d with udpPort := port } :=
      ⟨hc.flags, hc.state, hc.portaccount, rfl, hc.udpclient⟩
    rw [hcu, hdu] at *
    split
    · exact ⟨hcount, hshows.congr rfl⟩
    -- a feed that is set up once more loses a reference, which the counts do not see
    · exact ⟨hcount.congr rfl rfl rfl, hshows.congr rfl⟩

theorem Server.Counts.loginUdpOptions (h : s.Counts b) (hc : s.Shows c d) (udpPorts : List Int) :
    (Accept.loginUdpOptions udpPorts c s).2.Counts (Aprsc.loginUdpOptions udpPorts d b).2 ∧
      (Accept.loginUdpOptions udpPorts c s).2.Shows (Accept.loginUdpOptions udpPorts c s).1
        (Aprsc.loginUdpOptions udpPorts d b).1 := by
  induction udpPorts generalizing s b c d with
  | nil => exact ⟨h, hc⟩
  | cons port rest ih =>
    unfold Accept.loginUdpOptions Aprsc.loginUdpOptions
    by_cases hport : port < 1024 ∨ port > 65535
    · simp only [if_pos hport]
      exact ⟨h, hc⟩
    · simp only [if_neg hport]
      obtain ⟨h', hc'⟩ := h.loginSetupUdpFeed hc port
      exact ih h' hc'

/-- The UDP feed of a client that is closed. -/
theorem Server.Counts.closeFeed (h : s.Counts b) (hc : s.Shows c d) :
    (if c.udpPort ≠ 0 then
        s.withSocket c.udpclient fun _ x => Server.inboundConnectsAccount 2 (some x.portaccount)
      else s).Counts (Aprsc.closeFeed d b) := by
  unfold Aprsc.closeFeed
  obtain ⟨hcu, hdu⟩ | ⟨u, v, x, hcu, hdu, hx, hacc⟩ := hc.socket
  · simp only [hcu, hdu, Server.withSocket]
    split
    · exact h.congr rfl rfl rfl
    · exact h
  · simp only [hcu, hdu, Server.withSocket, hx, hc.udpPort, ← hacc]
    split
    · exact h.inboundConnectsAccount 2 (some x.portaccount)
    · exact h

/-- `client_close`. -/
theorem Server.Counts.clientClose (h : s.Counts b) (hc : s.Shows c d) (hup : d.isUplink = false) :
    (s.clientClose c).Counts (closeAccounts d b) := by
  unfold Server.clientClose closeAccounts
  simp only [hup, Bool.false_eq_true, if_false, hc.portaccount, Option.isSome_map]
  have hgone : { s with clients := s.clients.eraseP (·.key = c.key) }.Counts b :=
    h.congr rfl rfl rfl
  have hshows : { s with clients := s.clients.eraseP (·.key = c.key) }.Shows c d := hc.congr rfl
  refine Server.Counts.congr (Server.Counts.closeFeed ?_ ?_) rfl rfl rfl
  · split
    · exact hgone.inboundConnectsAccount 0 c.portaccount
    · exact hgone
  · split
    · exact hshows.congr rfl
    · exact hshows

/-- A client that did not get to a worker. -/
theorem Server.Counts.clientDiscard (h : s.Counts b) (hc : s.Shows c d) :
    (s.clientDiscard c).Counts (Aprsc.inboundConnectsAccount 0 d.portaccount b) ∧
      (s.clientDiscard c).queue = s.queue := by
  have hcount := h.inboundConnectsAccount 0 c.portaccount
  rw [← hc.portaccount] at hcount
  unfold Server.clientDiscard Server.clientFree Server.withSocket
  split
  · split
    · exact ⟨hcount.congr rfl rfl rfl, rfl⟩
    · split <;> exact ⟨hcount.congr rfl rfl rfl, rfl⟩
  · exact ⟨hcount.congr rfl rfl rfl, rfl⟩

/-! ## The calls of the accept thread -/

/-- The end of `do_accept` and of `accept_liveupgrade_single`. -/
theorem Server.Counts.finish {s₁ : Server} {b₁ : Accounts} (h : s₁.Counts b₁) (hc : s₁.Shows c d)
    (hqueue : s₁.queue = s.queue) (hclients : b₁.clients = b.clients) (fails : Bool) :
    (if fails then s₁.clientDiscard c else s₁.passClientToWorker c).Counts
        (if fails then Aprsc.inboundConnectsAccount 0 d.portaccount b₁ else b₁.push d) ∧
      s.HandsOn (if fails then s₁.clientDiscard c else s₁.passClientToWorker c) b
        (if fails then Aprsc.inboundConnectsAccount 0 d.portaccount b₁ else b₁.push d) := by
  cases fails with
  | true =>
    obtain ⟨hcount, hsame⟩ := h.clientDiscard hc
    exact ⟨hcount, .inl ⟨hsame.trans hqueue, (clients_inboundConnectsAccount ..).trans hclients⟩⟩
  | false =>
    refine ⟨h.congr rfl rfl rfl, .inr ⟨c, d, ?_, ?_, hc.congr rfl⟩⟩
    · exact congrArg (· ++ [.client c]) hqueue
    · exact congrArg (d :: ·) hclients

@[simp] theorem queue_loginSetupUdpFeed (port : Int) (c : ClientT) (s : Server) :
    (s.loginSetupUdpFeed port c).2.queue = s.queue := by
  unfold Server.loginSetupUdpFeed Server.withSocket
  split
  · rfl
  · split
    · rfl
    · dsimp only
      split
      · rfl
      · split <;> rfl

@[simp] theorem clients_loginSetupUdpFeed (port : Int) (d : OpenClient) (b : Accounts) :
    (Aprsc.loginSetupUdpFeed port d b).2.clients = b.clients := by
  unfold Aprsc.loginSetupUdpFeed
  split
  · rfl
  · exact clients_inboundConnectsAccount ..

section

variable {l : ListenT} {m : Listen} {ports : Ports} {root : Option Nat}

theorem Server.Counts.full (h : s.Counts b) (hl : l.Shows m)
    (hcell : (s.accounts.cells l.portaccount).isSome) :
    b.full ports m = s.full ports.maxclients l := by
  obtain ⟨p, hp⟩ := Option.isSome_iff_exists.mp hcell
  have hport := h.port hp
  simp only [Accounts.full, Server.full, hl.id, hl.clientsMax, hport, hp, h.inbound, Option.any_some]

theorem refused_attempt (hl : l.Shows m) (a : Connection) :
    (a.attempt l).refused m = (l.acl.any (!aclCheck · a.addr) || a.allocFails) := by
  unfold Attempt.refused Connection.attempt
  rw [hl.acl]
  cases l.acl <;> rfl

/-- `do_accept`, for a connection that is turned away. -/
theorem Server.Counts.doAccept_refused (h : s.Counts b) (hl : l.Shows m) {a : Connection}
    (hcell : (s.accounts.cells l.portaccount).isSome)
    (hrefused : (s.full ports.maxclients l || l.acl.any (!aclCheck · a.addr) || a.allocFails) = true) :
    (s.doAccept ports.maxclients l a).Counts (Aprsc.doAccept ports m (a.attempt l) b) := by
  have hcount := h.inboundConnectsAccount (-1) (some l.portaccount)
  rw [Bool.or_assoc] at hrefused
  unfold Server.doAccept Aprsc.doAccept
  rw [h.full hl hcell, refused_attempt hl, hl.id, Bool.or_assoc, if_pos hrefused]
  split
  · exact hcount
  · next hfull =>
    rw [if_pos ((Bool.or_eq_true _ _).mp hrefused |>.resolve_left hfull)]
    exact hcount

/-- `do_accept`, for a connection that a client is made for. -/
theorem Server.Counts.doAccept (h : s.Counts b) (hl : l.Shows m)
    (hroot : List.Forall₂ s.sockets.Shows (s.sockets.chain root) ports.udpclients) {a : Connection}
    (hcell : (s.accounts.cells l.portaccount).isSome)
    (hmade : (s.full ports.maxclients l || l.acl.any (!aclCheck · a.addr) || a.allocFails) = false) :
    (s.doAcceptClient root l a).Counts (Aprsc.doAccept ports m (a.attempt l) b) ∧
      s.HandsOn (s.doAcceptClient root l a) b (Aprsc.doAccept ports m (a.attempt l) b) := by
  rw [Bool.or_assoc, Bool.or_eq_false_iff, ← refused_attempt hl, ← h.full hl hcell] at hmade
  have hpoll : { s with pc := .polling }.Counts b := h.congr rfl rfl rfl
  have hroot' : List.Forall₂ { s with pc := .polling }.sockets.Shows
      ({ s with pc := .polling }.sockets.chain root) ports.udpclients := hroot
  obtain ⟨hcount, hshows⟩ := hpoll.acceptClientForListener hl hroot' a.addr.family a.worker
  have htls : (a.attempt l).tlsLost m = (l.ssl && a.tlsFails) := by rw [Attempt.tlsLost, hl.ssl]; rfl
  have hdropped : (a.attempt l).dropped = a.passFails := Bool.or_false _
  unfold Server.doAcceptClient Aprsc.doAccept
  simp only [hmade.1, hmade.2, Bool.false_eq_true, if_false, htls, hdropped]
  split
  · -- TLS can not be set up, and the client is left behind
    rw [hl.id]
    refine ⟨(hcount.inboundConnectsAccount (-1) (some l.portaccount)).congr rfl rfl rfl, .inl ⟨rfl, ?_⟩⟩
    simp [Aprsc.acceptClientForListener]
  · refine hcount.finish ?_ rfl (clients_inboundConnectsAccount ..) a.passFails
    exact ⟨hshows.flags, rfl, hshows.portaccount, hshows.udpPort, hshows.udpclient⟩

/-- `accept_liveupgrade_single`, which the accept thread goes through in two steps. -/
theorem Server.Counts.acceptLiveupgradeSingle (h : s.Counts b) (hl : l.Shows m)
    (hroot : List.Forall₂ s.sockets.Shows (s.sockets.chain root) ports.udpclients) {r : Restored}
    (halloc : r.allocFails = false) (hfound : (s.acceptLiveupgradeFound root l r).pc = .restoring c r) :
    ((s.acceptLiveupgradeFound root l r).acceptLiveupgradeClient c r).Counts
        (Aprsc.acceptLiveupgradeSingle ports m r.restore b) ∧
      s.HandsOn ((s.acceptLiveupgradeFound root l r).acceptLiveupgradeClient c r) b
        (Aprsc.acceptLiveupgradeSingle ports m r.restore b) := by
  obtain ⟨hcount, hshows⟩ := h.acceptClientForListener hl hroot r.addr.family r.worker
  obtain rfl : (s.acceptClientForListener root l r.addr.family r.worker).1 = c :=
    (AcceptPc.restoring.inj hfound).1
  have hpoll : { s.acceptLiveupgradeFound root l r with pc := .polling }.Counts
      (Aprsc.acceptClientForListener ports m r.addr.family b).2 := hcount.congr rfl rfl rfl
  have hclients : (Aprsc.acceptClientForListener ports m r.addr.family b).2.clients = b.clients :=
    clients_inboundConnectsAccount ..
  unfold Server.acceptLiveupgradeClient Aprsc.acceptLiveupgradeSingle
  rw [show r.restore.allocFails = false from halloc, show r.restore.state = r.state from rfl]
  simp only [Bool.false_eq_true, if_false]
  cases r.state with
  | none =>
    obtain ⟨hdrop, hqueue⟩ := hpoll.clientDiscard (hshows.congr rfl)
    exact ⟨hdrop, .inl ⟨hqueue, (clients_inboundConnectsAccount ..).trans hclients⟩⟩
  | some st =>
    have hdropped : r.restore.dropped = r.passFails := Bool.or_false _
    have hfeed : r.restore.feedPort = r.feedPort := rfl
    have hstate : { s.acceptLiveupgradeFound root l r with pc := .polling }.Shows
        { (s.acceptClientForListener root l r.addr.family r.worker).1 with state := st.toCState }
        { (Aprsc.acceptClientForListener ports m r.addr.family b).1 with state := st.toCState } :=
      ⟨hshows.flags, rfl, hshows.portaccount, hshows.udpPort, hshows.udpclient⟩
    simp only [hdropped, hfeed]
    cases r.feedPort with
    | none => exact hpoll.finish hstate rfl hclients r.passFails
    | some port =>
      obtain ⟨hcount', hshows'⟩ := hpoll.loginSetupUdpFeed hstate port
      exact hcount'.finish hshows' (queue_loginSetupUdpFeed ..)
        ((clients_loginSetupUdpFeed ..).trans hclients) r.passFails

end

end

end Aprsc.Accept
