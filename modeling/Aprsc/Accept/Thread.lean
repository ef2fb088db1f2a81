-- SUMMARY: The accept thread with its listeners, and what the workers do with the sockets and accounts of their clients.
import Aprsc.Base.Counted
import Aprsc.Base.Runs
import Aprsc.Server.Accounts
import Aprsc.Server.Config

/-!
# The accept thread

The accept thread opens and closes the listeners when the configuration has changed, and
takes new clients in. A client is handed to a worker, which closes it. A listener, and the
clients that were accepted by it, share an account. A listener for UDP has a socket, which
is shared with the clients on the same port. The accounts and the sockets are freed with
the last reference, in whichever thread it is dropped.

The accept thread stops wherever it has read something that another thread may change
before it goes on: the head of a list of sockets, which it reads before it locks the list,
and the account of a socket, which it uses after it has unlocked it. Other calls in one step
that lock, such as those of `client_close`, are each about a reference that the thread has
already, and what another thread does between two of them it might as well do before or
after. The outcomes of the calls that may fail are part of the event.
-/

namespace Aprsc.Accept

open Counted

/-! ## Data -/

/-- `struct client_udp_t`. The accounts and the sockets are known by their addresses. -/
structure ClientUdpT where
  portaccount : Nat
  refcount : Int
  polled : Bool
  af : Nat
  portnum : Int

/-- `struct listen_t`. -/
structure ListenT where
  id : Int
  clientFlags : UInt32
  portnum : Int
  clientsMax : Int
  corepeer : Bool
  hidden : Bool
  udp : Option Nat
  portaccount : Nat
  acl : Option Acl
  ssl : Bool
  filters : List Bytes

/-- The fields of `struct client_t` that are about its listener, its sockets and its worker.
The key stands for the address. -/
structure ClientT where
  key : Nat
  worker : Nat
  state : CState
  flags : UInt32
  portaccount : Option Nat
  udpclient : Option Nat
  udpPort : Int
  /-- The worker polls the UDP socket for this client. -/
  xfd : Bool
  ssl : Bool

/-- What is in the queue of a worker. -/
inductive Queued where
  | client (c : ClientT)
  /-- The pseudoclient of `peerip_clients_close`. -/
  | closePeers

/-- Peers are handled by the first worker. -/
def Queued.worker : Queued → Nat
  | .client c => c.worker
  | .closePeers => 0

def Queued.client? : Queued → Option ClientT
  | .client c => some c
  | .closePeers => none

/-- How it goes for a connection that `do_accept` takes. -/
structure Connection where
  addr : Sockaddr
  worker : Nat
  allocFails : Bool
  tlsFails : Bool
  /-- A socket option could not be set, or the worker could not be locked. -/
  passFails : Bool

/-- A client of the old process. Its `state` is none when the name of its state is not a
valid one. -/
structure Restored where
  addr : Sockaddr
  worker : Nat
  allocFails : Bool
  state : Option SavedState
  udpPort : Option Int
  passFails : Bool

/-- What the accept thread looks for a socket for. -/
inductive Search where
  /-- It is in `do_accept`, for a connection on the listener. -/
  | connection (l : ListenT) (a : Connection)
  /-- It is in `accept_liveupgrade_single`, for a client of the listener. -/
  | restored (l : ListenT) (r : Restored)
  /-- It is in `peerip_clients_config`, with the peers after this one to go. -/
  | peer (pe : PeeripConfig) (rest : List PeeripConfig)

/-- The search is among the sockets for peers. -/
def Search.corepeer : Search → Bool
  | .peer .. => true
  | _ => false

/-- Where the accept thread is in its loop. -/
inductive AcceptPc where
  /-- It waits for connections. -/
  | polling
  /-- It calls `client_udp_find` with the head of the list, which is not locked yet. -/
  | searching (root : Option Nat) (w : Search)
  /-- It has made the client in `accept_liveupgrade_single`. -/
  | restoring (c : ClientT) (r : Restored)
  /-- It is in `close_removed_listeners`, with these listeners to go. -/
  | closing (rest : List ListenT)
  /-- It is in `open_missing_listeners`. -/
  | opening (rest : List ListenConfigT) (failed : Nat)
  /-- It is in `peerip_clients_config`. -/
  | peering (rest : List PeeripConfig)
  /-- It has found the socket for a peer there. -/
  | found (pe : PeeripConfig) (u : Nat) (rest : List PeeripConfig)

/-- The clients that it has made and not passed on. -/
def AcceptPc.hand : AcceptPc → List ClientT
  | .restoring c _ => [c]
  | _ => []

/-- The listeners that it has pointers to. -/
def AcceptPc.listeners : AcceptPc → List ListenT
  | .searching _ (.connection l _) => [l]
  | .searching _ (.restored l _) => [l]
  | .closing rest => rest
  | _ => []

/-- It has read the head of a list of sockets. -/
def AcceptPc.isSearching : AcceptPc → Bool
  | .searching .. => true
  | _ => false

/-- It walks the lists of the configuration. -/
def AcceptPc.atConfig : AcceptPc → Bool
  | .polling | .searching _ (.connection ..) | .searching _ (.restored ..) | .restoring .. => false
  | _ => true

/-- The UDP sockets, and the lists of them for clients and for peers. -/
structure Sockets where
  heap : Heap ClientUdpT
  udpclients : List Nat
  udppeers : List Nat

structure Server where
  listenConfig : List ListenConfigT
  peeripConfig : List PeeripConfig
  acceptReconfiguring : Bool
  pc : AcceptPc
  listenList : List ListenT
  sockets : Sockets
  accounts : Heap PortAccount
  inboundConnects : PortAccount
  /-- The references to accounts that nobody is going to drop. -/
  lostRefs : List Nat
  nextClient : Nat
  queue : List Queued
  clients : List ClientT
  /-- `worker_corepeer_clients`. -/
  corepeerClients : List Nat
  /-- A client that is not there was used. -/
  clientMisused : Bool
  /-- The clients that were left behind. -/
  lost : List ClientT
  exited : Bool

/-- The server as it starts, with the configuration that was read. -/
def Server.start (listenConfig : List ListenConfigT) (peeripConfig : List PeeripConfig) :
    Server where
  listenConfig
  peeripConfig
  acceptReconfiguring := true
  pc := .polling
  listenList := []
  sockets := ⟨.empty, [], []⟩
  accounts := .empty
  inboundConnects := ⟨99, 0, 0, 0⟩
  lostRefs := []
  nextClient := 0
  queue := []
  clients := []
  corepeerClients := []
  clientMisused := false
  lost := []
  exited := false

/-! ## Accounts -/

/-- What `inbound_connects_account` does to `inbound_connects`. -/
def countInbound (add : Int) (p : PortAccount) : PortAccount :=
  if add < 2 then
    if add = -1 then p.reject
    else if add ≠ 0 then { p.add with refcount := p.refcount }
    else { p with gauge := p.gauge - 1 }
  else p

/-- `port_accounter_drop`. -/
def portAccounterDrop (p : Nat) (accounts : Heap PortAccount) : Heap PortAccount :=
  accounts.drop (·.refcount) p .drop

/-- What `inbound_connects_account` does to the account of a port. -/
def countPort (add : Int) (p : Nat) (accounts : Heap PortAccount) : Heap PortAccount :=
  if add = -1 then accounts.modify p .reject
  else if add % 2 = 1 then accounts.modify p .add
  else portAccounterDrop p accounts

/-- `inbound_connects_account`. -/
def Server.inboundConnectsAccount (add : Int) (p : Option Nat) (s : Server) : Server :=
  { s with
    inboundConnects := countInbound add s.inboundConnects
    accounts :=
      match p with
      | none => s.accounts
      | some p => countPort add p s.accounts }

/-! ## Sockets -/

/-- `client_udp_free`. -/
def Sockets.clientUdpFree (u : Option Nat) (k : Sockets) : Sockets :=
  match u with
  | none => k
  | some u =>
      let heap := k.heap.drop (·.refcount) u fun x => { x with refcount := x.refcount - 1 }
      if (heap.cells u).isNone then
        { heap, udpclients := k.udpclients.erase u, udppeers := k.udppeers.erase u }
      else { k with heap }

/-- The sockets that a loop by their `next` pointers comes to from `root`. -/
def Sockets.chain (k : Sockets) : Option Nat → List Nat
  | none => []
  | some u => u :: ((k.udpclients.dropWhile (· ≠ u)).tail ++ (k.udppeers.dropWhile (· ≠ u)).tail)

/-- `udpclients` or `udppeers`. -/
def Sockets.list (corepeer : Bool) (k : Sockets) : List Nat :=
  if corepeer then k.udppeers else k.udpclients


/-- The loop of `client_udp_find`. -/
def findSocket (af : Nat) (portnum : Int) (heap : Heap ClientUdpT) :
    List Nat → Option Nat × Heap ClientUdpT
  | [] => (none, heap)
  | u :: next =>
      match heap.cells u with
      | none => (none, { heap with misused := true })
      | some x =>
          if x.portnum = portnum ∧ x.af = af then
            (some u, heap.modify u fun x => { x with refcount := x.refcount + 1 })
          else findSocket af portnum heap next

/-- `client_udp_find`, from the head that the caller has read. -/
def Sockets.clientUdpFind (root : Option Nat) (af : Nat) (portnum : Int) (k : Sockets) :
    Option Nat × Sockets :=
  let (u, heap) := findSocket af portnum k.heap (k.chain root)
  (u, { k with heap })

/-- `client_udp_alloc`, and what `open_udp_listener` writes then. The address of the socket
is `k.heap.next`. -/
def Sockets.clientUdpAlloc (corepeer : Bool) (af : Nat) (portnum : Int) (portaccount : Nat)
    (k : Sockets) : Sockets :=
  let u := k.heap.next
  { heap := k.heap.alloc { portaccount, refcount := 1, polled := false, af, portnum }
    udpclients := if corepeer then k.udpclients else u :: k.udpclients
    udppeers := if corepeer then u :: k.udppeers else k.udppeers }

/-- Follow `c->udpclient`. -/
def Server.withSocket (u : Option Nat) (f : Nat → ClientUdpT → Server → Server) (s : Server) :
    Server :=
  match u with
  | none => { s with sockets.heap.misused := true }
  | some u =>
      match s.sockets.heap.cells u with
      | none => { s with sockets.heap.misused := true }
      | some x => f u x s

/-! ## Listeners -/

/-- `listener_free`. No two listeners have the same account. -/
def Server.listenerFree (l : ListenT) (s : Server) : Server :=
  { s with
    sockets := s.sockets.clientUdpFree l.udp
    accounts := portAccounterDrop l.portaccount s.accounts
    listenList := s.listenList.eraseP (·.portaccount = l.portaccount) }

/-- The family of the first address. -/
def family (lc : ListenConfigT) : Nat :=
  match lc.ai with
  | [] => 0
  | a :: _ => a.1.family

/-- What the calls of `open_listener` return. -/
structure Opened where
  bindFails : Bool
  tlsFails : Bool

/-- The listener that `open_listener` makes. -/
def newListener (maxclients : Int) (lc : ListenConfigT) (portaccount : Nat) : ListenT where
  id := lc.id
  clientFlags := lc.clientFlags
  portnum := lc.portnum
  -- the limit for one listener is not more than that for all
  clientsMax := min lc.clientsMax maxclients
  corepeer := lc.corepeer
  hidden := lc.hidden
  udp := none
  portaccount
  acl := lc.acl.map aclDup
  ssl := (lc.tls .key).isSome && (lc.tls .cert).isSome
  filters := lc.filters

/-- `open_listener`. -/
def Server.openListener (maxclients : Int) (lc : ListenConfigT) (o : Opened) (s : Server) :
    Bool × Server :=
  let l := newListener maxclients lc s.accounts.next
  let s := { s with accounts := s.accounts.alloc portAccounterAlloc }
  if o.bindFails then (false, s.listenerFree l)
  else
    let (l, s) :=
      if lc.proto = ascii "udp" then
        ({ l with udp := some s.sockets.heap.next },
          { s with
            sockets := s.sockets.clientUdpAlloc l.corepeer (family lc) l.portnum l.portaccount })
      else (l, s)
    if l.ssl && o.tlsFails then (false, s.listenerFree l)
    else (true, { s with listenList := l :: s.listenList })

/-- `listener_update_config`. -/
def ListenT.updateConfig (l : ListenT) (lc : ListenConfigT) : ListenT :=
  { l with
    clientsMax := lc.clientsMax
    hidden := lc.hidden
    clientFlags := lc.clientFlags
    filters := lc.filters
    acl := lc.acl.map aclDup }

/-! ## Clients -/

/-- `clientaccount_add_rx` and `clientaccount_add_tx`: the account whose traffic is counted. -/
def Server.clientaccountAdd (udp : Bool) (c : ClientT) (s : Server) : Server :=
  let touch (p : Nat) (s : Server) : Server := { s with accounts := s.accounts.modify p id }
  if udp ∧ c.udpclient.isSome then s.withSocket c.udpclient fun _ x => touch x.portaccount
  else
    match c.portaccount with
    | none => s
    | some p => touch p s

/-- `c->udp_port && c->udpclient`. -/
def ClientT.hasFeed (c : ClientT) : Bool := c.udpPort ≠ 0 && c.udpclient.isSome

/-- `udp_client_write`. -/
def Server.udpClientWrite (c : ClientT) (s : Server) : Server :=
  s.withSocket c.udpclient fun _ _ => Server.clientaccountAdd true c

/-- `tcp_client_write`, of a line that begins with a `#` or of one that does not. -/
def Server.tcpClientWrite (comment : Bool) (c : ClientT) (s : Server) : Server :=
  if c.hasFeed && !comment then s.udpClientWrite c else s.clientaccountAdd false c

/-- `ssl_client_write`. -/
def Server.sslClientWrite (c : ClientT) (s : Server) : Server := s.clientaccountAdd false c

/-- `c->write`. -/
def Server.clientWrite (comment : Bool) (c : ClientT) (s : Server) : Server :=
  if c.state = .corepeer then s.udpClientWrite c
  else if c.ssl then s.sslClientWrite c
  else s.tcpClientWrite comment c

/-- `send_single`. -/
def Server.sendSingle (c : ClientT) (s : Server) : Server :=
  (s.clientaccountAdd c.hasFeed c).clientWrite false c

/-- `client_postread`, before the lines that were read are handled. -/
def Server.clientPostread (c : ClientT) (s : Server) : Server := s.clientaccountAdd false c

/-- `client_close`, and the `client_free` that it ends with. -/
def Server.clientClose (c : ClientT) (s : Server) : Server :=
  let s := { s with clients := s.clients.eraseP (·.key = c.key) }
  let s := if c.portaccount.isSome then s.inboundConnectsAccount 0 c.portaccount else s
  let s :=
    if c.udpPort ≠ 0 then
      s.withSocket c.udpclient fun _ x => Server.inboundConnectsAccount 2 (some x.portaccount)
    else s
  { s with sockets := s.sockets.clientUdpFree c.udpclient }

/-- `accept_client_for_listener`, once there is memory for the client and the head of
`udpclients` was read. -/
def Server.acceptClientForListener (root : Option Nat) (l : ListenT) (af : Nat) (worker : Nat)
    (s : Server) : ClientT × Server :=
  let (udpclient, sockets) := s.sockets.clientUdpFind root af l.portnum
  let c :=
    { key := s.nextClient, worker, state := .init, flags := l.clientFlags,
      portaccount := some l.portaccount, udpclient, udpPort := 0, xfd := false, ssl := false }
  let s := { s with sockets, nextClient := s.nextClient + 1 }
  (c, s.inboundConnectsAccount 1 c.portaccount)

/-- `login_setup_udp_feed`. A client drops one reference when it is closed, however often
it took one here. -/
def Server.loginSetupUdpFeed (port : Int) (c : ClientT) (s : Server) : ClientT × Server :=
  if c.udpclient.isNone then (c, s)
  else
    ({ c with udpPort := port },
      s.withSocket c.udpclient fun _ x s =>
        -- the reference for the port before this one is never dropped
        let s :=
          if c.udpPort = 0 then s
          else { s with lostRefs := x.portaccount :: s.lostRefs }
        s.inboundConnectsAccount 3 (some x.portaccount))

/-- The `udp` options of a login. The rest of the line is not read after a port that is
out of range. -/
def loginUdpOptions : List Int → ClientT → Server → ClientT × Server
  | [], c, s => (c, s)
  | port :: rest, c, s =>
      if port < 1024 ∨ port > 65535 then (c, s)
      else
        let (c, s) := s.loginSetupUdpFeed port c
        loginUdpOptions rest c s

/-- `client_free`, for a client that did not get to a worker. Its UDP feed is not counted
out. -/
def Server.clientFree (c : ClientT) (s : Server) : Server :=
  let s :=
    if c.udpPort ≠ 0 then
      s.withSocket c.udpclient fun _ x s => { s with lostRefs := x.portaccount :: s.lostRefs }
    else s
  { s with sockets := s.sockets.clientUdpFree c.udpclient }

/-- The end of `do_accept` and of `accept_liveupgrade_single` when something failed: the client
that was counted in is counted out and freed. -/
def Server.clientDiscard (c : ClientT) (s : Server) : Server :=
  (s.inboundConnectsAccount 0 c.portaccount).clientFree c

/-- `pass_client_to_worker`. -/
def Server.passClientToWorker (c : ClientT) (s : Server) : Server :=
  { s with queue := s.queue ++ [.client c] }

/-- The tests for room of `do_accept`. -/
def Server.full (maxclients : Int) (l : ListenT) (s : Server) : Bool :=
  (s.accounts.cells l.portaccount).any (·.gauge ≥ l.clientsMax) ||
    s.inboundConnects.gauge ≥ maxclients

/-- The accept thread reads the head of a list of sockets. -/
def Server.search (w : Search) (s : Server) : Server :=
  { s with pc := .searching (s.sockets.list w.corepeer).head? w }

/-- `do_accept`, until it looks for a socket. -/
def Server.doAccept (maxclients : Int) (l : ListenT) (a : Connection) (s : Server) : Server :=
  if s.full maxclients l || l.acl.any (!aclCheck · a.addr) || a.allocFails then
    s.inboundConnectsAccount (-1) (some l.portaccount)
  else s.search (.connection l a)

/-- The rest of `do_accept`. When TLS can not be set up for it, the client is left behind. -/
def Server.doAcceptClient (root : Option Nat) (l : ListenT) (a : Connection) (s : Server) :
    Server :=
  let (c, s) := { s with pc := .polling }.acceptClientForListener root l a.addr.family a.worker
  let c := { c with state := .login, ssl := l.ssl }
  -- the account counts a second connection then, and the client is not counted out
  if l.ssl && a.tlsFails then
    ({ s with lost := c :: s.lost }).inboundConnectsAccount (-1) (some l.portaccount)
  else if a.passFails then s.clientDiscard c
  else s.passClientToWorker c

/-- `accept_liveupgrade_single` from where the listener of the client is found, until it looks
for a socket. -/
def Server.acceptLiveupgradeSingle (l : ListenT) (r : Restored) (s : Server) : Server :=
  if r.allocFails then s else s.search (.restored l r)

/-- `accept_liveupgrade_single` goes on with the client that `accept_client_for_listener`
makes. -/
def Server.acceptLiveupgradeFound (root : Option Nat) (l : ListenT) (r : Restored) (s : Server) :
    Server :=
  let (c, s) := s.acceptClientForListener root l r.addr.family r.worker
  { s with pc := .restoring c r }

/-- The UDP port of the old process, if it is one that can be used. -/
def Restored.feedPort (r : Restored) : Option Int := r.udpPort.filter fun p => 1024 < p ∧ p < 65536

/-- The rest of `accept_liveupgrade_single`. -/
def Server.acceptLiveupgradeClient (c : ClientT) (r : Restored) (s : Server) : Server :=
  let s := { s with pc := .polling }
  match r.state with
  | none => s.clientDiscard c
  | some st =>
      let c := { c with state := st.toCState }
      let (c, s) :=
        match r.feedPort with
        | none => (c, s)
        | some port => s.loginSetupUdpFeed port c
      if r.passFails then s.clientDiscard c else s.passClientToWorker c

/-! ## Core peers -/

/-- `peerip_clients_close`. -/
def Server.peeripClientsClose (s : Server) : Server := { s with queue := s.queue ++ [.closePeers] }

/-- The client that `peerip_clients_config` makes for a peer. -/
def newPeer (pe : PeeripConfig) (u : Nat) (key : Nat) : ClientT where
  key
  worker := 0
  state := .corepeer
  flags := clflagsUplinkport
  portaccount := none
  udpclient := some u
  udpPort := pe.remotePort
  xfd := false
  ssl := false

/-- The search for a socket in the loop of `peerip_clients_config`. -/
def Server.findPeerSocket (root : Option Nat) (pe : PeeripConfig) (rest : List PeeripConfig)
    (s : Server) : Server :=
  match s.sockets.clientUdpFind root pe.af pe.localPort with
  | (none, sockets) => { s with sockets, pc := .peering rest }
  | (some u, sockets) => { s with sockets, pc := .found pe u rest }

/-- The rest of the loop of `peerip_clients_config` once a socket was found. -/
def Server.peeripClientConfig (pe : PeeripConfig) (u : Nat) (passFails : Bool) (s : Server) :
    Server :=
  let c := newPeer pe u s.nextClient
  let s := { s with nextClient := s.nextClient + 1 }
  let s := s.withSocket (some u) fun _ x => Server.inboundConnectsAccount 3 (some x.portaccount)
  if passFails then s.clientFree c else s.passClientToWorker c

/-- The loop of `corepeer_close_all`, for one peer. -/
def Server.closePeer (s : Server) (key : Nat) : Server :=
  match s.clients.find? (·.key = key) with
  | none => { s with clientMisused := true }
  | some c => s.clientClose c

/-- `corepeer_close_all`. -/
def Server.corepeerCloseAll (s : Server) : Server :=
  { s.corepeerClients.foldl Server.closePeer s with corepeerClients := [] }

/-- `MAX_COREPEERS`. -/
def maxCorepeers : Nat := 16

/-- The loop of `collect_new_clients`, for one new client. -/
def Server.collectClient (q : Queued) (s : Server) : Server :=
  match q with
  | .closePeers => s.corepeerCloseAll
  | .client c =>
      if c.state ≠ .corepeer then { s with clients := c :: s.clients }
      -- the program exits if there are too many
      else if s.corepeerClients.length = maxCorepeers then
        { s with clients := c :: s.clients, exited := true }
      else
        let s := { s with corepeerClients := s.corepeerClients ++ [c.key] }
        s.withSocket c.udpclient fun u x s =>
          -- one peer polls the socket for all of them
          if x.polled then { s with clients := c :: s.clients }
          else
            { s with
              sockets.heap := s.sockets.heap.modify u fun x => { x with polled := true }
              clients := { c with xfd := true } :: s.clients }

/-- `collect_new_clients` goes on with the next client that is new to the worker. -/
def Server.collectNewClients (w : Nat) (s : Server) : Server :=
  match s.queue.find? (·.worker = w) with
  | none => s
  | some q => { s with queue := s.queue.eraseP (·.worker = w) }.collectClient q

/-! ## Steps -/

/-- The accept thread goes on with `accept_thread`, to the next place where it stops. -/
def Server.acceptThread (maxclients : Int) (o : Opened) (passFails : Bool) (s : Server) : Server :=
  match s.pc with
  | .polling =>
      if s.acceptReconfiguring then
        { s with acceptReconfiguring := false, pc := .closing s.listenList }
      else s
  | .searching root (.connection l a) => s.doAcceptClient root l a
  | .searching root (.restored l r) => s.acceptLiveupgradeFound root l r
  | .searching root (.peer pe rest) => s.findPeerSocket root pe rest
  | .restoring c r => s.acceptLiveupgradeClient c r
  | .closing [] => { s with pc := .opening s.listenConfig 0 }
  | .closing (l :: rest) =>
      -- the next listener is read before this one may be freed
      let s := { s with pc := .closing rest }
      if s.listenConfig.any (·.id = l.id) then s else s.listenerFree l
  | .opening [] failed =>
      -- the program does not go on without one of its listeners
      if failed > 0 then { s with exited := true }
      else { s.peeripClientsClose with pc := .peering s.peeripConfig }
  | .opening (lc :: rest) failed =>
      match s.listenList.find? (·.id = lc.id) with
      | some l =>
          { s with
            pc := .opening rest failed
            listenList := s.listenList.map fun m =>
              if m.portaccount = l.portaccount then m.updateConfig lc else m }
      | none =>
          let (opened, s) := s.openListener maxclients lc o
          { s with pc := .opening rest (if opened then failed else failed + 1) }
  | .peering [] => { s with pc := .polling }
  | .peering (pe :: rest) => s.search (.peer pe rest)
  | .found pe u rest => { s with pc := .peering rest }.peeripClientConfig pe u passFails

inductive Event where
  /-- The main thread has read the configuration. It frees the old one, so this does not happen
  while the accept thread walks it. -/
  | readConfig (listenConfig : List ListenConfigT) (peeripConfig : List PeeripConfig)
  | accept (o : Opened) (passFails : Bool)
  /-- A connection on the listener at this place of the list. -/
  | connect (k : Nat) (a : Connection)
  /-- Packets on the socket of the listener at this place. -/
  | udpRecv (k : Nat)
  /-- A live upgrade goes on with a client of the listener at this place. -/
  | restore (k : Nat) (r : Restored)
  | collect (w : Nat)
  /-- A line to `login_handler`, with the ports of its `udp` options. -/
  | login (key : Nat) (udpPorts : List Int) (loggedIn : Bool)
  /-- A packet is sent to a client. -/
  | send (key : Nat)
  /-- A line that begins with a `#` is written to a client. -/
  | write (key : Nat)
  /-- Something was read from a client. -/
  | read (key : Nat)
  /-- A packet of a core peer arrives at the client that polls the socket. -/
  | receive (key : Nat) (peer : Nat)
  | close (key : Nat)

/-- Something that a worker does. -/
def Event.byWorker : Event → Bool
  | .readConfig .. | .accept .. | .connect .. | .udpRecv .. | .restore .. => false
  | _ => true

/-- The accept thread is in its `poll`, or looks at what that has returned. -/
def Server.isPolling (s : Server) : Bool :=
  match s.pc with
  | .polling => true
  | _ => false

/-- Do this with the client that has the key. -/
def Server.withClient (key : Nat) (f : ClientT → Server → Server) (s : Server) : Server :=
  match s.clients.find? (·.key = key) with
  | none => s
  | some c => f c s

/-- `login_handler`, as far as the UDP feed goes. -/
def Server.loginHandler (udpPorts : List Int) (loggedIn : Bool) (c : ClientT) (s : Server) :
    Server :=
  if c.state = .login then
    let (d, s) := loginUdpOptions udpPorts c s
    let d := if loggedIn then { d with state := .connected } else d
    { s with clients := s.clients.map fun e => if e.key = c.key then d else e }
  else s

/-- `handle_corepeer_readable`, for a packet of the peer. The socket is polled for `c`. -/
def Server.handleCorepeerReadable (peer : Nat) (c : ClientT) (s : Server) : Server :=
  if c.state = .corepeer ∧ c.xfd ∧ peer ∈ s.corepeerClients then
    s.withSocket c.udpclient fun _ _ s =>
      match s.clients.find? (·.key = peer) with
      | none => { s with clientMisused := true }
      | some rc => s.clientaccountAdd true rc
  else s

def Server.step (maxclients : Int) (s : Server) (e : Event) : Server :=
  if s.exited then s
  else
    match e with
    | .readConfig listenConfig peeripConfig =>
        if s.pc.atConfig then s
        else { s with listenConfig, peeripConfig, acceptReconfiguring := true }
    | .accept o passFails => s.acceptThread maxclients o passFails
    | .connect k a =>
        match s.listenList[k]? with
        | some l =>
            if s.isPolling && !l.corepeer && l.udp.isNone then s.doAccept maxclients l a else s
        | none => s
    | .udpRecv k =>
        match s.listenList[k]? with
        | some l =>
            if s.isPolling && !l.corepeer && l.udp.isSome then
              s.withSocket l.udp fun _ _ s =>
                { s with accounts := s.accounts.modify l.portaccount id }
            else s
        | none => s
    | .restore k r =>
        match s.listenList[k]? with
        | some l => if s.isPolling then s.acceptLiveupgradeSingle l r else s
        | none => s
    | .collect w => s.collectNewClients w
    | .login key udpPorts loggedIn => s.withClient key (Server.loginHandler udpPorts loggedIn)
    | .send key => s.withClient key Server.sendSingle
    | .write key => s.withClient key (Server.clientWrite true)
    | .read key => s.withClient key Server.clientPostread
    | .receive key peer => s.withClient key (Server.handleCorepeerReadable peer)
    | .close key =>
        s.withClient key fun c s => if c.state = .corepeer then s else s.clientClose c

end Aprsc.Accept
