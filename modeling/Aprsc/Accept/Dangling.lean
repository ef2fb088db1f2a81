-- SUMMARY: Exactly which runs use an account that was freed with its listener.
import Aprsc.Accept.Accounts

/-!
# Accounts that dangle

A UDP socket has a pointer to the account of the listener that opened it, but no reference.
It may be there when the account is gone: the listener was closed, and clients on the same
port still hold the socket. To set up a feed through it then uses an account that was freed.
Nothing else does.
-/

namespace Aprsc.Accept

open Counted Runs

variable {s : Server} {hand : List ClientT} {c : ClientT} {l : ListenT} {a : Nat}

/-! ## Feeds that are set up -/

/-- The socket through which a step sets up a feed. -/
def Server.feedSocket (s : Server) : Event → Option Nat
  | .accept _ _ => s.pc.feedSocket
  | .login key (port :: _) _ =>
      if port < 1024 ∨ port > 65535 then none
      else
        match s.clients.find? (·.key = key) with
        | none => none
        | some c => if c.state = .login then c.udpclient else none
  | _ => none

/-- A step sets up a feed through a socket whose account nobody has a reference to. -/
def Server.Dangles (s : Server) (e : Event) : Prop :=
  s.exited = false ∧ ∃ u a, s.feedSocket e = some u ∧ s.sockets.account u = some a ∧ ¬s.Referenced a

theorem Server.stands_feedSocket {e : Event} (hexited : s.exited = false) (hok : ¬s.Dangles e) :
    s.Stands s.pc.hand (s.feedSocket e) := by
  intro u a hu ha
  refine Server.accountRefs_pos.mpr (Classical.byContradiction fun hnot => ?_)
  exact hok ⟨hexited, u, a, hu, ha, hnot⟩

theorem Books.withClient (hb : Books s.pc.hand s) (key : Nat) {f : ClientT → Server → Server}
    (hf : ∀ c, s.clients.find? (·.key = key) = some c → c.key = key →
      Books s.pc.hand (f c s)) : Books s.pc.hand (s.withClient key f) := by
  unfold Server.withClient
  split
  · exact hb
  next c hfind => exact hf c hfind (by simpa using List.find?_some hfind)

theorem Books.handleCorepeerReadable (hb : Books s.pc.hand s) (h : Inv s)
    (hexited : s.exited = false) (hfind : s.clients.find? (·.key = c.key) = some c) (peer : Nat) :
    Books s.pc.hand (s.handleCorepeerReadable peer c) := by
  unfold Server.handleCorepeerReadable
  split
  next hready =>
    obtain ⟨hstate, -, hpeer⟩ := hready
    obtain ⟨u, x, hu, hx⟩ := h.held.exists_socket (mem_everyClient hfind) (.inr hstate)
    rw [Server.withSocket_eq hu hx]
    obtain ⟨rc, hrc, hkey⟩ := List.mem_map.mp ((h.peers hexited).mem_iff.mp hpeer)
    obtain ⟨hmem, hcore⟩ := List.mem_filter.mp hrc
    cases hfind' : s.clients.find? (·.key = peer) with
    | none => exact absurd (decide_eq_true hkey) (List.find?_eq_none.mp hfind' rc hmem)
    | some rc' =>
      have hkey' : rc'.key = peer := by simpa using List.find?_some hfind'
      obtain rfl := keys_inj h.held (List.mem_of_find?_eq_some hfind') hmem (hkey'.trans hkey.symm)
      -- a peer has a feed
      have hport := hb.peers rc' (mem_everyClient hfind') (by simpa using hcore)
      exact hb.clientaccountAdd h.held (mem_everyClient hfind') fun _ _ => hport
  next => exact hb

theorem ClientT.udpPort_ne_zero (hfeed : c.hasFeed = true) : c.udpPort ≠ 0 :=
  of_decide_eq_true (Bool.and_eq_true_iff.mp hfeed).1

theorem Books.udpClientWrite (hb : Books hand s) (h : Held hand s) (hc : c ∈ s.everyClient hand)
    (hport : c.udpPort ≠ 0) : Books hand (s.udpClientWrite c) := by
  obtain ⟨u, x, hu, hx⟩ := h.exists_socket hc (.inl hport)
  rw [Server.udpClientWrite, Server.withSocket_eq hu hx]
  exact hb.clientaccountAdd h hc fun _ _ => hport

/-- Whoever is written to over UDP has a reference to the account of its feed. -/
theorem Books.clientWrite (hb : Books hand s) (h : Held hand s) (hc : c ∈ s.everyClient hand)
    (comment : Bool) : Books hand (s.clientWrite comment c) := by
  unfold Server.clientWrite
  split
  next hstate => exact hb.udpClientWrite h hc (hb.peers c hc hstate)
  next =>
    split
    · exact hb.clientaccountAdd h hc nofun
    · unfold Server.tcpClientWrite
      split
      next hfeed =>
        exact hb.udpClientWrite h hc (ClientT.udpPort_ne_zero (Bool.and_eq_true_iff.mp hfeed).1)
      next => exact hb.clientaccountAdd h hc nofun

theorem Books.sendSingle (hb : Books hand s) (h : Held hand s) (hc : c ∈ s.clients) :
    Books hand (s.sendSingle c) := by
  have hmem : c ∈ s.everyClient hand := (clients_sublist hand s).subset hc
  have hsame := (Frame.clientaccountAdd c.hasFeed c s).clients
  have hmem' : c ∈ (s.clientaccountAdd c.hasFeed c).everyClient hand :=
    (clients_sublist hand _).subset (hsame ▸ hc)
  have hcount := hb.clientaccountAdd h hmem fun hfeed _ => ClientT.udpPort_ne_zero hfeed
  exact hcount.clientWrite (h.clientaccountAdd hmem c.hasFeed) hmem' false

/-- A worker that sets up no feed through a dangling account keeps the books. -/
theorem Books.worker (hb : Books s.pc.hand s) (h : Inv s) (maxclients : Int) {e : Event}
    (hworker : e.byWorker = true) (hok : ¬s.Dangles e) :
    Books s.pc.hand (s.step maxclients e) := by
  unfold Server.step
  split
  · exact hb
  next hexited =>
  have hexited : s.exited = false := by simpa using hexited
  cases e with
  | collect w => exact hb.collectNewClients h hexited w
  | login key udpPorts loggedIn =>
    refine hb.withClient key fun c hfind hkey => ?_
    subst hkey
    refine hb.loginHandler h hfind udpPorts loggedIn fun hstate port rest hports hrange => ?_
    have hsocket : s.feedSocket (.login c.key udpPorts loggedIn) = c.udpclient := by
      rw [hports, Server.feedSocket, if_neg hrange, hfind]
      exact if_pos hstate
    exact hsocket ▸ Server.stands_feedSocket hexited hok
  | send key =>
    refine hb.withClient key fun c hfind _ => ?_
    exact hb.sendSingle h.held (List.mem_of_find?_eq_some hfind)
  | write key =>
    refine hb.withClient key fun c hfind _ => ?_
    exact hb.clientWrite h.held (mem_everyClient hfind) true
  | read key =>
    refine hb.withClient key fun c hfind _ => ?_
    exact hb.clientaccountAdd h.held (mem_everyClient hfind) nofun
  | receive key peer =>
    refine hb.withClient key fun c hfind hkey => ?_
    subst hkey
    exact hb.handleCorepeerReadable h hexited hfind peer
  | close key =>
    refine hb.withClient key fun c hfind hkey => ?_
    subst hkey
    split
    · exact hb
    · exact hb.clientClose h.held (h.held.fed_socket (mem_everyClient hfind)) hfind
  | _ => cases hworker

theorem Books.search (hb : Books s.pc.hand s) (hpoll : s.isPolling = true) (w : Search) :
    Books (s.search w).pc.hand (s.search w) := by
  rw [Server.pc_of_isPolling hpoll] at hb
  exact hb.goto rfl rfl rfl rfl rfl

/-- A step that uses no head that was freed, and sets up no feed through a dangling account,
keeps the books. -/
theorem Books.step (hb : Books s.pc.hand s) (h : Inv s) (maxclients : Int) (e : Event)
    (hroot : s.searchesFreed e = false) (hok : ¬s.Dangles e) :
    Books (s.step maxclients e).pc.hand (s.step maxclients e) := by
  by_cases hworker : e.byWorker = true
  · rw [(Still.step hworker maxclients s).pc]
    exact hb.worker h maxclients hworker hok
  unfold Server.step
  split
  · exact hb
  next hexited =>
  have hexited : s.exited = false := by simpa using hexited
  cases e with
  | readConfig listenConfig peeripConfig =>
    dsimp only
    split
    · exact hb
    · exact hb.goto rfl rfl rfl rfl rfl
  | accept o passFails =>
    have hgone : s.rootGone = false := by
      rw [Server.searchesFreed, hexited] at hroot
      exact hroot
    exact hb.acceptThread h maxclients o passFails hgone (Server.stands_feedSocket hexited hok)
  | connect k a =>
    dsimp only
    split
    next l hl =>
      split
      next hpoll =>
        simp only [Bool.and_eq_true] at hpoll
        unfold Server.doAccept
        split
        · exact hb.reject (Server.accountRefs_listener (List.mem_of_getElem? hl) s.pc.hand)
        · exact hb.search hpoll.1.1 _
      next => exact hb
    · exact hb
  | udpRecv k =>
    dsimp only
    split
    next l hl =>
      have hmem := List.mem_of_getElem? hl
      split
      next hpoll =>
        obtain ⟨u, hu⟩ := Option.isSome_iff_exists.mp (Bool.and_eq_true_iff.mp hpoll).2
        obtain ⟨x, hx⟩ := h.exists_listener_socket hmem hu
        rw [Server.withSocket_eq hu hx]
        exact hb.touch (Server.accountRefs_listener hmem s.pc.hand)
      next => exact hb
    · exact hb
  | restore k r =>
    dsimp only
    split
    · split
      next hpoll =>
        unfold Server.acceptLiveupgradeSingle
        split
        · exact hb
        · exact hb.search hpoll _
      next => exact hb
    · exact hb
  | _ => exact absurd rfl hworker

/-! ## Uses after the account was freed -/

theorem misused_inboundConnectsAccount (add : Int) (p : Option Nat)
    (hm : s.accounts.misused = true) :
    (s.inboundConnectsAccount add p).accounts.misused = true := by
  cases p with
  | none => exact hm
  | some p =>
    change (countPort add p s.accounts).misused = true
    unfold countPort portAccounterDrop
    split
    · exact Heap.misused_modify_of hm
    · split
      · exact Heap.misused_modify_of hm
      · exact Heap.misused_drop_of hm

theorem misused_withSocket {f : Nat → ClientUdpT → Server → Server} (v : Option Nat)
    (hf : ∀ u x, (f u x s).accounts.misused = true) (hm : s.accounts.misused = true) :
    (s.withSocket v f).accounts.misused = true := by
  unfold Server.withSocket
  split
  · exact hm
  · split
    · exact hm
    · exact hf ..

theorem misused_clientFree (c : ClientT) (hm : s.accounts.misused = true) :
    (s.clientFree c).accounts.misused = true := by
  unfold Server.clientFree
  dsimp only
  split
  · exact misused_withSocket _ (fun _ _ => hm) hm
  · exact hm

theorem misused_clientDiscard (c : ClientT) (hm : s.accounts.misused = true) :
    (s.clientDiscard c).accounts.misused = true :=
  misused_clientFree c (misused_inboundConnectsAccount 0 c.portaccount hm)

theorem misused_loginSetupUdpFeed (port : Int) (c : ClientT) (hm : s.accounts.misused = true) :
    (s.loginSetupUdpFeed port c).2.accounts.misused = true := by
  unfold Server.loginSetupUdpFeed
  split
  · exact hm
  · refine misused_withSocket _ (fun u x => misused_inboundConnectsAccount _ _ ?_) hm
    split <;> exact hm

theorem misused_loginUdpOptions (ports : List Int) (c : ClientT) (hm : s.accounts.misused = true) :
    (loginUdpOptions ports c s).2.accounts.misused = true := by
  induction ports generalizing c s with
  | nil => exact hm
  | cons port ports ih =>
    rw [loginUdpOptions]
    split
    · exact hm
    · exact ih _ (misused_loginSetupUdpFeed port c hm)

/-- To set up a feed uses the account of the socket. -/
theorem Books.misused_setupFeed (hb : Books (c :: hand) s) {u : Nat} {x : ClientUdpT}
    (hu : c.udpclient = some u) (hx : s.sockets.heap.cells u = some x)
    (ha : s.accountRefs (c :: hand) x.portaccount = 0) (port : Int) :
    (s.loginSetupUdpFeed port c).2.accounts.misused = true := by
  rw [Server.loginSetupUdpFeed_eq hu hx]
  exact hb.accounts.misused_modify ha

/-- The accept thread counts a peer for the account of a socket. -/
theorem Books.misused_peer (hb : Books hand s) {pe : PeeripConfig} {u : Nat} {x : ClientUdpT}
    {rest : List PeeripConfig} (hx : s.sockets.heap.cells u = some x)
    (ha : s.accountRefs hand x.portaccount = 0) (passFails : Bool) :
    (Server.peeripClientConfig pe u passFails { s with pc := .peering rest }).accounts.misused =
      true := by
  unfold Server.peeripClientConfig
  dsimp only
  rw [Server.withSocket_eq rfl (by exact hx)]
  have hmisused : (s.accounts.modify x.portaccount .add).misused = true :=
    hb.accounts.misused_modify ha
  split
  · exact misused_clientFree _ hmisused
  · exact hmisused

theorem Books.misused_login (hb : Books hand s)
    (hfind : s.clients.find? (·.key = c.key) = some c) (hstate : c.state = .login) {u : Nat}
    {x : ClientUdpT} (hu : c.udpclient = some u) (hx : s.sockets.heap.cells u = some x)
    (ha : s.accountRefs hand x.portaccount = 0) {port : Int}
    (hrange : ¬(port < 1024 ∨ port > 65535)) (rest : List Int) (loggedIn : Bool) :
    (s.loginHandler (port :: rest) loggedIn c).accounts.misused = true := by
  have hout : Moved hand (c :: hand) s { s with clients := s.clients.eraseP (·.key = c.key) } :=
    .takeOut hfind
  have hmisused := (hb.moved hout rfl rfl).misused_setupFeed hu hx
    ((hout.accountRefs rfl _).trans ha) port
  rw [loginSetupUdpFeed_clients] at hmisused
  unfold Server.loginHandler
  rw [if_pos hstate, Accept.loginUdpOptions, if_neg hrange]
  exact misused_loginUdpOptions rest _ hmisused

/-- A client of the old process gets its feed back through a socket. -/
theorem Books.misused_restore (hb : Books (c :: hand) s) {r : Restored} {u : Nat} {x : ClientUdpT}
    (hst : r.state.isSome) (hport : r.feedPort.isSome) (hu : c.udpclient = some u)
    (hx : s.sockets.heap.cells u = some x) (ha : s.accountRefs (c :: hand) x.portaccount = 0) :
    (s.acceptLiveupgradeClient c r).accounts.misused = true := by
  obtain ⟨st, hst⟩ := Option.isSome_iff_exists.mp hst
  obtain ⟨port, hport⟩ := Option.isSome_iff_exists.mp hport
  have hbpolling : Books (c :: hand) { s with pc := .polling } := hb.goto rfl rfl rfl rfl rfl
  have hbooks := hbpolling.write (d := { c with state := st.toCState }) rfl rfl rfl
    fun hcore => absurd hcore (toCState_ne_corepeer st)
  have hmisused := hbooks.misused_setupFeed hu hx (by
    rw [Server.accountRefs_cons] at ha ⊢
    exact ha) port
  unfold Server.acceptLiveupgradeClient
  dsimp only
  rw [hst]
  dsimp only
  rw [hport]
  dsimp only
  split
  · exact misused_clientDiscard _ hmisused
  · exact hmisused

/-- The accept thread sets up a feed, for a peer or for a client of the old process. -/
theorem Books.misused_acceptThread (hb : Books s.pc.hand s) (maxclients : Int) (o : Opened)
    (passFails : Bool) {u : Nat} {x : ClientUdpT} (hsocket : s.pc.feedSocket = some u)
    (hx : s.sockets.heap.cells u = some x) (ha : s.accountRefs s.pc.hand x.portaccount = 0) :
    (s.acceptThread maxclients o passFails).accounts.misused = true := by
  unfold Server.acceptThread
  cases hpc : s.pc with
  | found pe v rest =>
    rw [hpc] at hsocket
    cases hsocket
    exact hb.misused_peer hx ha passFails
  | restoring c r =>
    rw [hpc] at hb ha hsocket
    rw [AcceptPc.feedSocket] at hsocket
    split at hsocket
    next hready =>
      obtain ⟨hst, hport⟩ := Bool.and_eq_true_iff.mp hready
      exact hb.misused_restore hst hport hsocket hx ha
    next => cases hsocket
  | _ =>
    rw [hpc] at hsocket
    cases hsocket

/-- A step that sets up a feed through a dangling account uses it. -/
theorem Books.misused_step (hb : Books s.pc.hand s) (maxclients : Int) {e : Event}
    (hdangles : s.Dangles e) : (s.step maxclients e).accounts.misused = true := by
  obtain ⟨hexited, u, a, hsocket, haccount, hfree⟩ := hdangles
  obtain ⟨x, hx, rfl⟩ := Option.map_eq_some_iff.mp haccount
  have ha : s.accountRefs s.pc.hand x.portaccount = 0 :=
    Nat.eq_zero_of_not_pos fun hpos => hfree (Server.accountRefs_pos.mp hpos)
  unfold Server.step
  rw [if_neg (by simp [hexited])]
  cases e with
  | accept o passFails => exact hb.misused_acceptThread maxclients o passFails hsocket hx ha
  | login key udpPorts loggedIn =>
    cases udpPorts with
    | nil => cases hsocket
    | cons port rest =>
      rw [Server.feedSocket] at hsocket
      split at hsocket
      · cases hsocket
      next hrange =>
        split at hsocket
        · cases hsocket
        next c hfind =>
          split at hsocket
          next hstate =>
            have hkey : c.key = key := by simpa using List.find?_some hfind
            subst hkey
            change (s.withClient c.key _).accounts.misused = true
            rw [Server.withClient, hfind]
            exact hb.misused_login hfind hstate hsocket hx ha hrange rest loggedIn
          next => cases hsocket
  | _ => cases hsocket

/-! ## Runs -/

/-- The accounts that are there are those that a listener, a client or a feed refers to, or a
reference that is lost. Each has the count of its references, and none that is gone was
used. -/
structure AccountsHeld (s : Server) : Prop where
  fine : s.accounts.misused = false
  held : ∀ a, (s.accounts.cells a).isSome ↔ s.Referenced a
  count : ∀ a p, s.accounts.cells a = some p → p.refcount = s.accountRefs s.pc.hand a

theorem Books.accountsHeld (hb : Books s.pc.hand s) : AccountsHeld s where
  fine := hb.accounts.fine
  held a := by rw [hb.accounts.isSome_iff, Server.accountRefs_pos]
  count a p hp := hb.accounts.count_eq hp

theorem books_start (listenConfig : List ListenConfigT) (peeripConfig : List PeeripConfig) :
    Books [] (Server.start listenConfig peeripConfig) where
  accounts := owned_empty
  peers _ h := absurd h List.not_mem_nil

/-- Every socket and every account is there exactly as long as it is referred to, and nothing is
used that is gone, exactly in the runs in which the accept thread never searches from a
head that was freed, and no feed is set up through a socket whose account nothing refers
to any more: the socket has outlived the listener that opened it. -/
theorem accounts_of_run (maxclients : Int) (listenConfig : List ListenConfigT)
    (peeripConfig : List PeeripConfig) (es : List Event) :
    Always (Server.step maxclients) (fun s => SocketsHeld s ∧ AccountsHeld s)
        (Server.start listenConfig peeripConfig) es ↔
      Meets (Server.step maxclients) (fun s e => s.searchesFreed e = false ∧ ¬s.Dangles e)
        (Server.start listenConfig peeripConfig) es := by
  refine always_iff_meets_of_breaks (I := fun s => Inv s ∧ Books s.pc.hand s) ?_ ?_ ?_
    ⟨inv_start .., books_start ..⟩ es
  · rintro s e ⟨h, hb⟩ ⟨hroot, hok⟩
    exact ⟨h.step maxclients e hroot, hb.step h maxclients e hroot hok⟩
  · rintro s ⟨h, hb⟩
    exact ⟨h.socketsHeld, hb.accountsHeld⟩
  · rintro s e ⟨h, hb⟩ hbad ⟨hsockets, haccounts⟩
    by_cases hroot : s.searchesFreed e = true
    · have hmisused := Accept.misused_step maxclients hroot
      rw [hsockets.fine.1] at hmisused
      cases hmisused
    · have hdangles : s.Dangles e := Classical.byContradiction fun hnot =>
        hbad ⟨by simpa using hroot, hnot⟩
      have hmisused := hb.misused_step maxclients hdangles
      rw [haccounts.fine] at hmisused
      cases hmisused

-- A client that came over TCP holds the socket of the UDP listener on its port. The listener is
-- closed before the client logs in.
example :
    let listen (id : Int) (proto : String) : ListenConfigT :=
      { id, proto := ascii proto, name := [], host := [], portnum := 14580, clientsMax := 10,
        corepeer := false, hidden := false, tls := fun _ => none, ai := [(.inet 0, 0)], acl := none,
        filters := [], clientFlags := 0 }
    let goesOn : Event := .accept ⟨false, false⟩ false
    let events : List Event :=
      List.replicate 6 goesOn ++
        [.connect 0 ⟨.inet 1, 0, false, false, false⟩, goesOn, .collect 0, .collect 0,
          .readConfig [listen 2 "tcp"] []] ++ List.replicate 3 goesOn ++ [.login 0 [14580] true]
    let start := Server.start [listen 1 "udp", listen 2 "tcp"] []
    (run (Server.step 100) start events).accounts.misused = true := by
  decide +kernel

end Aprsc.Accept
