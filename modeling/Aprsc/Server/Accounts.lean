-- SUMMARY: The port accounts, and what connecting, logging in and closing do to them and to the open clients.
import Aprsc.Incoming.Client
import Aprsc.Base.Runs
import Mathlib.Logic.Function.Basic

/-!
# Port accounts

Every listener has an account of its clients, and there is one for all inbound clients
and one for the uplinks. Clients are counted in when they are accepted, restored by a
live upgrade or connected, and counted out when they are closed. A UDP listener counts
the clients that have asked for a UDP feed, and the core peers.

The outcome of each call that may fail is an argument. The clients that are open are a
list, and a client is known by its place in it.
-/

namespace Aprsc

/-! ## Accounts -/

/-- `struct portaccount_t`, without the traffic. -/
structure PortAccount where
  refcount : Int
  counter : Int
  gauge : Int
  gaugeMax : Int
deriving Repr, DecidableEq

/-- `port_accounter_alloc`. -/
def portAccounterAlloc : PortAccount := ⟨1, 0, 0, 0⟩

/-- `port_accounter_reject`. -/
def PortAccount.reject (p : PortAccount) : PortAccount := { p with counter := p.counter + 1 }

/-- `port_accounter_add`. -/
def PortAccount.add (p : PortAccount) : PortAccount :=
  { refcount := p.refcount + 1
    counter := p.counter + 1
    gauge := p.gauge + 1
    gaugeMax := max p.gaugeMax (p.gauge + 1) }

/-- `port_accounter_drop`. -/
def PortAccount.drop (p : PortAccount) : PortAccount :=
  { p with refcount := p.refcount - 1, gauge := p.gauge - 1 }

/-- `inbound_connects`, `uplink_connects`, or the account of a listener. -/
inductive AccountId where
  | inboundConnects
  | uplinkConnects
  | listener (id : Nat)
deriving Repr, DecidableEq

/-! ## Clients, listeners and sockets -/

/-- `struct client_udp_t`. Its `portaccount` is that of the UDP listener that opened it. -/
structure ClientUdp where
  af : Nat
  portnum : Nat
  listener : Nat
deriving Repr, DecidableEq

/-- `client_udp_find`. -/
def clientUdpFind (root : List ClientUdp) (af portnum : Nat) : Option ClientUdp :=
  root.find? fun u => u.portnum == portnum && u.af == af

/-- `struct listen_t`, as far as accepting a client reads it. Only uplinks and peers have
`CLFLAGS_UPLINKPORT`: no type of a `Listen` directive sets it. -/
structure Listen where
  id : Nat
  portnum : Nat
  clientsMax : Int
  clientFlags : UInt32
  acl : Bool
  ssl : Bool
  not_uplink : clientFlags &&& clflagsUplinkport = 0

/-- `struct uplink_config_t`. Its flags start from `CLFLAGS_UPLINKPORT`. -/
structure UplinkConfig where
  clientFlags : UInt32
  is_uplink : clientFlags &&& clflagsUplinkport ≠ 0

/-- `struct peerip_config_t`. A `PeerGroup` directive has ports from 1 to 65535. -/
structure PeeripConfig where
  af : Nat
  localPort : Nat
  remotePort : Int
  remotePort_pos : 0 < remotePort

/-- The fields of `struct client_t` that decide where a client is counted. -/
structure OpenClient where
  /-- The listener with `listener_id`. -/
  listener : Option Nat
  flags : UInt32
  state : CState
  portaccount : Option AccountId
  udpclient : Option ClientUdp
  udpPort : Int
deriving Repr, DecidableEq

/-- The client came in through a listener. -/
def OpenClient.isInbound (c : OpenClient) : Bool := c.flags &&& clflagsUplinkport == 0

/-- The client is an uplink. -/
def OpenClient.isUplink (c : OpenClient) : Bool :=
  c.flags &&& clflagsUplinkport != 0 && c.state != .corepeer

/-- The client is sent packets through the socket of a UDP listener. -/
def OpenClient.feeds (c : OpenClient) (n : Nat) : Bool :=
  c.udpPort != 0 && c.udpclient.any (·.listener == n)

/-- The accounts and the clients that are open. -/
structure Accounts where
  account : AccountId → PortAccount
  clients : List OpenClient

/-- What the server has opened: `maxclients`, `udpclients` and `udppeers`. -/
structure Ports where
  maxclients : Int
  udpclients : List ClientUdp
  udppeers : List ClientUdp

/-- Nobody is connected. The static blocks have a high reference count. -/
def Accounts.init : Accounts where
  account
    | .listener _ => portAccounterAlloc
    | _ => ⟨99, 0, 0, 0⟩
  clients := []

def Accounts.modify (s : Accounts) (p : AccountId) (f : PortAccount → PortAccount) : Accounts :=
  { s with account := Function.update s.account p (f (s.account p)) }

def Accounts.push (s : Accounts) (c : OpenClient) : Accounts := { s with clients := c :: s.clients }

/-- `inbound_connects_account`. -/
def inboundConnectsAccount (add : Int) (p : Option AccountId) (s : Accounts) : Accounts :=
  let s :=
    if add < 2 then
      s.modify .inboundConnects fun i =>
        if add = -1 then { i with counter := i.counter + 1 }
        else if add ≠ 0 then
          { i with
            counter := i.counter + 1
            gauge := i.gauge + 1
            gaugeMax := max i.gaugeMax (i.gauge + 1) }
        else { i with gauge := i.gauge - 1 }
    else s
  match p with
  | none => s
  | some p =>
      s.modify p fun a =>
        if add = -1 then a.reject
        else if add % 2 = 1 then a.add
        else a.drop

/-! ## Accepting clients -/

/-- The client that `accept_client_for_listener` fills in. -/
def Listen.newClient (ports : Ports) (l : Listen) (af : Nat) : OpenClient :=
  { listener := some l.id
    flags := l.clientFlags
    state := .init
    portaccount := some (.listener l.id)
    udpclient := clientUdpFind ports.udpclients af l.portnum
    udpPort := 0 }

/-- `accept_client_for_listener`, once there is memory for the client. -/
def acceptClientForListener (ports : Ports) (l : Listen) (af : Nat) (s : Accounts) :
    OpenClient × Accounts :=
  let c := l.newClient ports af
  (c, inboundConnectsAccount 1 c.portaccount s)

/-- The tests for room of `do_accept`. -/
def Accounts.full (ports : Ports) (l : Listen) (s : Accounts) : Bool :=
  (s.account (.listener l.id)).gauge ≥ l.clientsMax ||
    (s.account .inboundConnects).gauge ≥ ports.maxclients

/-- How it goes for a connection that `do_accept` takes: the address family, and what the
calls on its way return. -/
structure Attempt where
  af : Nat
  aclDenies : Bool
  allocFails : Bool
  tlsFails : Bool
  sockoptFails : Bool
  passFails : Bool
deriving Repr, DecidableEq

/-- The connection is turned away before a client is made for it. -/
def Attempt.refused (l : Listen) (a : Attempt) : Bool := (l.acl && a.aclDenies) || a.allocFails

/-- A client was made for the connection, but TLS can not be set up for it. -/
def Attempt.tlsLost (l : Listen) (a : Attempt) : Bool := l.ssl && a.tlsFails

/-- The client can not be handed to a worker. -/
def Attempt.dropped (a : Attempt) : Bool := a.sockoptFails || a.passFails

/-- `do_accept`. When TLS can not be set up for it, the client is left behind. -/
def doAccept (ports : Ports) (l : Listen) (a : Attempt) (s : Accounts) : Accounts :=
  if s.full ports l then inboundConnectsAccount (-1) (some (.listener l.id)) s
  else if a.refused l then inboundConnectsAccount (-1) (some (.listener l.id)) s
  else
    let (c, s) := acceptClientForListener ports l a.af s
    let c := { c with state := .login }
    if a.tlsLost l then inboundConnectsAccount (-1) (some (.listener l.id)) s
    else if a.dropped then inboundConnectsAccount 0 c.portaccount s
    else s.push c

/-! ## Logins -/

/-- `login_setup_udp_feed`. -/
def loginSetupUdpFeed (port : Int) (c : OpenClient) (s : Accounts) : OpenClient × Accounts :=
  match c.udpclient with
  | none => (c, s)
  | some u => ({ c with udpPort := port }, inboundConnectsAccount 3 (some (.listener u.listener)) s)

/-- The `udp` options of a login. The rest of the line is not read after a port that is
out of range. -/
def loginUdpOptions : List Int → OpenClient → Accounts → OpenClient × Accounts
  | [], c, s => (c, s)
  | port :: rest, c, s =>
      if port < 1024 ∨ port > 65535 then (c, s)
      else
        let (c, s) := loginSetupUdpFeed port c s
        loginUdpOptions rest c s

/-! ## Live upgrade, uplinks and peers -/

/-- The states that a client of the old process can go on in. -/
inductive SavedState where
  | connected | login
deriving Repr, DecidableEq

def SavedState.toCState : SavedState → CState
  | .connected => .connected
  | .login => .login

/-- A client of the old process. Its `state` is none when the name of its state is not a
valid one. -/
structure Restore where
  af : Nat
  allocFails : Bool
  state : Option SavedState
  udpPort : Option Int
  sockoptFails : Bool
  passFails : Bool
deriving Repr, DecidableEq

/-- The port of a UDP feed to set up again. -/
def Restore.feedPort (r : Restore) : Option Int := r.udpPort.filter fun p => 1024 < p ∧ p < 65536

/-- The client can not be handed to a worker. -/
def Restore.dropped (r : Restore) : Bool := r.sockoptFails || r.passFails

/-- `accept_liveupgrade_single`, once the listener of the client is found. -/
def acceptLiveupgradeSingle (ports : Ports) (l : Listen) (r : Restore) (s : Accounts) : Accounts :=
  if r.allocFails then s
  else
    let (c, s) := acceptClientForListener ports l r.af s
    match r.state with
    | none => inboundConnectsAccount 0 c.portaccount s
    | some st =>
        let c := { c with state := st.toCState }
        let (c, s) :=
          match r.feedPort with
          | none => (c, s)
          | some port => loginSetupUdpFeed port c s
        if r.dropped then inboundConnectsAccount 0 c.portaccount s
        else s.push c

/-- The client that `make_uplink` fills in. -/
def UplinkConfig.newClient (l : UplinkConfig) : OpenClient :=
  { listener := none
    flags := l.clientFlags
    state := .init
    portaccount := some .uplinkConnects
    udpclient := none
    udpPort := 0 }

/-- `make_uplink`, once it is connected. -/
def makeUplink (l : UplinkConfig) (fails : Bool) (s : Accounts) : Accounts :=
  if fails then s
  else
    (s.push l.newClient).modify .uplinkConnects fun p =>
      { p with refcount := p.refcount + 1, counter := p.counter + 1, gauge := p.gauge + 1 }

/-- The client that `peerip_clients_config` fills in. -/
def PeeripConfig.newClient (pe : PeeripConfig) (u : ClientUdp) : OpenClient :=
  { listener := none
    flags := clflagsUplinkport
    state := .corepeer
    portaccount := none
    udpclient := some u
    udpPort := pe.remotePort }

/-- `peerip_clients_config`, for one peer. -/
def peeripClientConfig (ports : Ports) (pe : PeeripConfig) (passFails : Bool) (s : Accounts) :
    Accounts :=
  match clientUdpFind ports.udppeers pe.af pe.localPort with
  | none => s
  | some u =>
      let s := inboundConnectsAccount 3 (some (.listener u.listener)) s
      if passFails then s else s.push (pe.newClient u)

/-! ## Closing -/

/-- `uplink_close`. -/
def uplinkClose (s : Accounts) : Accounts :=
  s.modify .uplinkConnects fun p => { p with gauge := p.gauge - 1 }

/-- The UDP feed of a client is counted out. -/
def closeFeed (c : OpenClient) (s : Accounts) : Accounts :=
  match c.udpclient with
  | none => s
  | some u =>
      if c.udpPort ≠ 0 then inboundConnectsAccount 2 (some (.listener u.listener)) s else s

/-- What `client_close` does to the accounts. -/
def closeAccounts (c : OpenClient) (s : Accounts) : Accounts :=
  let s := if c.isUplink then uplinkClose s else s
  let s := if c.portaccount.isSome then inboundConnectsAccount 0 c.portaccount s else s
  closeFeed c s

/-! ## Runs -/

inductive AccountEvent where
  | accept (l : Listen) (a : Attempt)
  | restore (l : Listen) (r : Restore)
  /-- A line to `login_handler`, with the ports of its `udp` options. -/
  | login (k : Nat) (udpPorts : List Int)
  | uplink (l : UplinkConfig) (fails : Bool)
  | peer (pe : PeeripConfig) (passFails : Bool)
  | close (k : Nat)

def Accounts.step (ports : Ports) (s : Accounts) : AccountEvent → Accounts
  | .accept l a => doAccept ports l a s
  | .restore l r => acceptLiveupgradeSingle ports l r s
  | .login k udpPorts =>
      match s.clients[k]? with
      | none => s
      | some c =>
          -- only inbound clients have `login_handler` for their handler
          if c.isInbound then
            let (c, s) := loginUdpOptions udpPorts c s
            { s with clients := s.clients.set k c }
          else s
  | .uplink l fails => makeUplink l fails s
  | .peer pe passFails => peeripClientConfig ports pe passFails s
  | .close k =>
      match s.clients[k]? with
      | none => s
      | some c => closeAccounts c { s with clients := s.clients.eraseIdx k }

end Aprsc
