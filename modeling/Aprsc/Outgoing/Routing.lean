-- SUMMARY: Classes of clients, the send loops of `process_outgoing`, and runs of the whole server as far as routing goes.
import Aprsc.Dupecheck.Justified
import Aprsc.Incoming.Passage

/-!
# Routing

A client is put in a class when it has logged in. A packet carries flags that say whether
it came from upstream or from downstream, and whether it is a duplicate. The send loops of
a worker decide by the two which clients get the packet.

A client structure is known by its address, and an address is used again after the client
was freed. Connections are numbered, so that two clients at the same address can be told
apart; the code cannot do that.
-/

namespace Aprsc

def clflagsPortRo : UInt32 := 0x008
def clflagsFullfeed : UInt32 := 0x100

/-! ## Classes -/

/-- The lists of clients of a worker, by the name of the list. -/
inductive ClientClass where
  | ro | ups | dupe | other
deriving Repr, DecidableEq

/-- The client is an uplink or a core peer. -/
def Client.upstream (c : Client) : Bool := c.state == .corepeer || c.has clflagsUplinkport

/-- `worker_classify_client`: the list that a client is put in, if any. -/
def workerClassifyClient (c : Client) : Option ClientClass :=
  if c.has clflagsPortRo then some .ro
  else if c.upstream then some .ups
  else if c.has clflagsDupefeed then some .dupe
  else if c.has clflagsInport then some .other
  else none

/-! ## The server -/

/-- `struct client_t`, as far as routing goes. -/
structure Connection where
  client : Client
  noTx : Bool
  /-- The worker that has the client. -/
  worker : Nat
  /-- The number of the connection. -/
  number : Nat

/-- A packet on its way, the address of the client that sent it, and this client. -/
structure Routed where
  pb : Pbuf
  origin : Nat
  sender : Connection

/-- A packet was written to a client. -/
structure Sending where
  packet : Routed
  target : Connection
  data : Bytes

/-- The clients by their address, the class lists of the workers, the packets that wait for
the dupecheck thread, those in the global lists, and what was written. -/
structure Net where
  conns : Nat → Option Connection
  classes : Nat → ClientClass → List Nat
  /-- How many connections there were. -/
  count : Nat
  dbs : DrainDbs
  queued : List Routed
  global : List Routed
  sent : List Sending

def Net.init : Net where
  conns := fun _ => none
  classes := fun _ _ => []
  count := 0
  dbs := ⟨.init, .init⟩
  queued := []
  global := []
  sent := []

/-- The client has logged in, or needs not to. Its lines go to `incoming_handler`. -/
def Client.ready (c : Client) : Bool := c.state == .connected || c.state == .corepeer

namespace Net

/-- Link a client at the head of the list of its class. -/
def classify (n : Net) (p : Nat) (c : Connection) : Net :=
  match workerClassifyClient c.client with
  | none => n
  | some cls =>
      { n with
        classes := fun w k =>
          if w = c.worker ∧ k = cls then p :: n.classes w k else n.classes w k }

/-- `collect_new_clients`, for one client that is not there yet. Clients of a live upgrade
and core peers are classified at once. -/
def collect (n : Net) (p : Nat) (client : Client) (noTx : Bool) (w : Nat) : Net :=
  let c : Connection := ⟨client, noTx, w, n.count⟩
  let n := { n with conns := Function.update n.conns p (some c), count := n.count + 1 }
  if client.ready then n.classify p c else n

/-- `pseudoclient_setup`: the clients of the http and udp services are in no list. -/
def pseudoclient (n : Net) (p : Nat) (client : Client) : Net :=
  { n with
    conns := Function.update n.conns p (some ⟨client, false, 0, n.count⟩)
    count := n.count + 1 }

/-- `worker_mark_client_connected`, after a login. The login has set the name of the client
and other fields, but not its flags. -/
def markConnected (n : Net) (p : Nat) (c : Connection) (client : Client) (noTx : Bool) : Net :=
  let c : Connection := { c with client := client, noTx := noTx }
  { n with conns := Function.update n.conns p (some c) }.classify p c

/-- `client_close`: the client is unlinked from its lists, and freed. -/
def close (n : Net) (p : Nat) : Net :=
  { n with
    conns := Function.update n.conns p none
    classes := fun w k => (n.classes w k).filter (· ≠ p) }

/-- `send_single`. The write may find the connection broken, and then closes the client. -/
def sendSingle (lost : Nat → Bool) (r : Routed) (data : Bytes) (n : Net) (p : Nat) (c : Connection) :
    Net :=
  let n := { n with sent := n.sent ++ [⟨r, c, data⟩] }
  if lost p then n.close p else n

/-- One of the loops over a list of clients. Each turn has the next client of the list in
hand before it may close the present one. -/
def sendLoop (lost : Nat → Bool) (wanted : Nat → Connection → Bool) (r : Routed) (data : Bytes) :
    List Nat → Net → Net
  | [], n => n
  | p :: ps, n =>
      match n.conns p with
      | some c =>
          sendLoop lost wanted r data ps
            (if wanted p c then n.sendSingle lost r data p c else n)
      | none => sendLoop lost wanted r data ps n

/-- The prefix of duplicates. -/
def dupTab : Bytes := ascii "dup\t"

/-- The clients that are not full feeds get what their filters pass, but nothing of their
own, and broken ones get nothing. -/
def otherWanted (filterProcess : Nat → Bool) (origin p : Nat) (c : Connection) : Bool :=
  !(!c.client.has clflagsFullfeed && !filterProcess p) && p != origin && !c.noTx

/-- `process_outgoing_single` of worker `w`. -/
def processOutgoingSingle (lost filterProcess : Nat → Bool) (w : Nat) (r : Routed) (n : Net) : Net :=
  if r.pb.isDupe then
    n.sendLoop lost (fun _ _ => true) r (dupTab ++ r.pb.data.take r.pb.packetLen)
      (n.classes w .dupe)
  else
    let data := r.pb.data.take r.pb.packetLen
    let n :=
      if r.pb.flags &&& fFromDownstr ≠ 0 then
        n.sendLoop lost (fun p _ => p != r.origin) r data (n.classes w .ups)
      else n
    n.sendLoop lost (otherWanted filterProcess r.origin) r data (n.classes w .other)

end Net

/-! ## Runs -/

/-- What `incoming_parse` reads from outside. The parsers of positions, objects, items and
telemetry set no flag but that of a position, as `pbuf_fill_pos` does. -/
structure LineEnv extends IncomingEnv where
  leaf_ok : leaf.OnlySetPosition

/-- A server without any restriction. -/
def LineEnv.unrestricted : LineEnv := { IncomingEnv.unrestricted with leaf_ok := fun _ _ _ => .inl rfl }

/-- What may happen next. -/
inductive NetAction where
  | collect (p : Nat) (client : Client) (noTx : Bool) (w : Nat)
  | pseudoclient (p : Nat) (client : Client)
  | markConnected (p : Nat) (client : Client) (noTx : Bool)
  | close (p : Nat)
  /-- A line from a client goes through `incoming_parse`. -/
  | line (p : Nat) (env : LineEnv) (s : Bytes)
  /-- The dupecheck thread checks the `i`-th packet that waits. -/
  | drain (env : DrainEnv) (tick : Int) (i : Nat)
  /-- Worker `w` comes to the `i`-th packet of the global lists in `process_outgoing`. -/
  | outgoing (w i : Nat) (tick : Int) (lost filterProcess : Nat → Bool)

namespace Net

/-- One step. What cannot happen changes nothing. -/
def step (n : Net) : NetAction → Net
  | .collect p client noTx w =>
      if n.conns p = none then n.collect p client noTx w else n
  | .pseudoclient p client => if n.conns p = none then n.pseudoclient p client else n
  | .markConnected p client noTx =>
      match n.conns p with
      | some c =>
          if c.client.ready = false ∧ client.flags = c.client.flags ∧ client.state = .connected then
            n.markConnected p c client noTx
          else n
      | none => n
  | .close p => n.close p
  | .line p env s =>
      match n.conns p with
      | some c =>
          if c.client.ready then
            match incomingParse env.toIncomingEnv c.client s with
            | .queued _ pb => { n with queued := n.queued ++ [⟨pb, p, c⟩] }
            | .dropped _ => n
          else n
      | none => n
  | .drain env tick i =>
      match n.queued[i]? with
      | some r =>
          let d := drainPacket env tick r.pb n.dbs
          { n with
            queued := n.queued.eraseIdx i
            global := n.global ++ [{ r with pb := d.1.2 }]
            dbs := d.2 }
      | none => n
  | .outgoing w i tick lost filterProcess =>
      match n.global[i]? with
      | some r =>
          if Pipeline.disposition tick r.pb.t = .sent then
            n.processOutgoingSingle lost filterProcess w r
          else n
      | none => n

/-- A run. -/
def run (acts : List NetAction) : Net := acts.foldl Net.step .init

end Net

end Aprsc
