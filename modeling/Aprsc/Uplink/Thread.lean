-- SUMMARY: The uplink thread beside the workers that close its clients and the reloads that change its list.
import Aprsc.Base.Runs
import Aprsc.Server.Config
import Mathlib.Data.Nat.ModEq

/-!
# The uplink thread

The thread looks at its list of uplinks every few seconds. Uplinks of which several may be
up are all connected; of the regular ones, one is. A worker that closes the client of an
uplink tells the uplink so. A reload leaves a list for the thread to put in place.

A worker that closes the client of an uplink goes through the list of uplinks and the list
of clients under `uplink_client_mutex`. The thread takes this mutex only where it enters a
client in its list and where it shuts the clients down. It frees its old list, stores
`client_ptr` and takes a client that has failed off the list without it. So these parts of
the thread, and what a worker does under the mutex, have a beginning and an end here, and
where two of them overlap the state is marked as `raced`. Apart from them a step is one store
to what others read, with what the thread does on its own before it.
-/

namespace Aprsc

namespace Uplinks

/-! ## Connecting -/

def uplinkStUnknown : Int := -1
def uplinkStNotLinked : Int := 0
def uplinkStConnecting : Int := 1
def uplinkStConnected : Int := 2

/-- `struct uplink_config_t` in the list of the thread. -/
structure Uplink where
  conf : UplinkConfigT
  ssl : Bool
  state : Int
  /-- `client_ptr`. A client is known by its address, which is used again once it is freed. -/
  client : Option Nat

/-- An uplink as it comes out of the configuration. -/
def Uplink.ofConfig (conf : UplinkConfigT) : Uplink := ⟨conf, false, uplinkStUnknown, none⟩

/-- What the system answers in a call of `make_uplink`. -/
structure Answers where
  /-- `config_uplink_ssl_setup` succeeds. -/
  sslSetup : Bool
  /-- The addresses of the host, if there is an answer: whether each of them can be
  connected to. -/
  ai : Option (List Bool)
  random : Nat
  /-- `client_alloc`. -/
  client : Option Nat
  setSockopt : Bool
  sslConnection : Bool
  /-- `pass_client_to_worker` succeeds. -/
  pass : Bool

/-- The start of `make_uplink`: whether the uplink can be connected at all. A TLS context
that has been set up is kept. -/
def Uplink.checks (env : ConfigEnv) (ans : Answers) (l : Uplink) : Bool × Uplink :=
  let key := (l.conf.tls .key).isSome
  let cert := (l.conf.tls .cert).isSome
  if env.useSsl && key != cert then (false, l)
  else if env.useSsl && key && !l.ssl && !ans.sslSetup then (false, l)
  else
    let l := { l with ssl := l.ssl || env.useSsl && key }
    if (ipProto env l.conf.proto).isNone then (false, l)
    else if atoi l.conf.port < 1 ∨ atoi l.conf.port > 65535 then (false, l)
    else (true, l)

/-- The loop over the addresses, from one of them on and around. An address that has been
tried is no longer in `ap`. It says whether there is a connection. -/
def connectLoop : (fuel i : Nat) → (ap : List (Option Bool)) → Bool
  | 0, _, _ => false
  | fuel + 1, i, ap =>
      match ap[i]? with
      | some (some true) => true
      | some (some false) =>
          connectLoop fuel (if i + 1 = ap.length then 0 else i + 1) (ap.set i none)
      | _ => false

/-- How `make_uplink` gets a connection: of the first 20 addresses, starting at random. -/
def connect (ans : Answers) : Bool :=
  match ans.ai with
  | none => false
  | some ai =>
      let ap := ai.take 20
      if ap.length = 0 then false
      else connectLoop (ap.length + 1) (ans.random % ap.length) (ap.map some)

/-! ## States -/

/-- How far a call of `make_uplink` is. The client is not in the list of clients until it is
`listed`. -/
inductive Stage where
  | checks
  | connecting
  | allocated (c : Nat)
  | listed (c : Nat)
  | connected (c : Nat)
  /-- Behind `err`, the client has been freed. It may be in the list of clients (`uc`). -/
  | freed (uc : Option Nat)
deriving Repr, DecidableEq

/-- Where a call of `make_uplink` returns to. -/
inductive Return where
  | scanned (i has avail : Nat)
  | alarm (has avail : Nat)
deriving Repr, DecidableEq

/-- Where the thread is. -/
inductive Pc where
  | top
  /-- In `close_uplinkers`, before a new list is put in place. -/
  | close
  | free
  /-- In `free_uplink_config`. -/
  | freeing
  /-- At `uplink_config = uplink_config_install`. -/
  | take
  /-- At `uplink_config_install = NULL`. -/
  | wipe
  /-- At `uplink_config_updated = 0`. -/
  | clear
  | check
  /-- In the loop over the list, at an entry. -/
  | scan (i has avail : Nat)
  | scanned (i has avail : Nat)
  | pick (has avail : Nat)
  | make (i : Nat) (stage : Stage) (ret : Return)
  | alarm (has avail : Nat)
  | sleep
  | leave
  | done
deriving Repr, DecidableEq

def Return.pc : Return → Pc
  | .scanned i has avail => .scanned i has avail
  | .alarm has avail => .alarm has avail

/-- The places where the thread is at what the mutex protects without holding it. -/
def Pc.exposed : Pc → Bool
  | .freeing => true
  | .make _ (.freed uc) _ => uc.isSome
  | _ => false

/-- Who has a client. -/
inductive Hands where
  /-- `make_uplink`. -/
  | thread
  | worker
  /-- Its worker is in `client_close`, and has closed the socket. -/
  | closing
  /-- Its worker is done with `uplink_close`. -/
  | closed
deriving Repr, DecidableEq

/-- `struct client_t` of an uplink. -/
structure Client where
  ptr : Nat
  multi : Bool
  /-- Its socket has been shut down, or closed. -/
  shut : Bool
  hands : Hands
deriving Repr, DecidableEq

structure State where
  uplinkConfig : List Uplink
  uplinkConfigInstall : List UplinkConfigT
  uplinkConfigUpdated : Bool
  /-- `read_config` has stored this list to `uplink_config_install`, but not the flag yet. -/
  storing : Option (List UplinkConfigT)
  uplinkReconfiguring : Bool
  uplinkShuttingDown : Bool
  /-- The thread, while it runs. -/
  thread : Option Pc
  nextUplink : Int
  uplinkErrorSet : Int
  /-- The alarm `no_uplink`. -/
  noUplink : Bool
  /-- `uplink_clients`. -/
  uplinkClients : List Nat
  /-- The clients of uplinks that have not been freed. -/
  clients : List Client
  /-- The entries of this list that have been picked, the last one first. -/
  picked : List Nat
  /-- `uplink_client_mutex`, while a worker has it in `uplink_close`: for which client. -/
  mutex : Option Nat
  /-- The thread was at what the mutex protects while a worker had the mutex. What the memory
  holds from then on is not said here. -/
  raced : Bool

def init : State :=
  ⟨[], [], false, none, false, false, none, -1, -1, false, [], [], [], none, false⟩

/-- `shutdown` on the sockets of a list of clients. -/
def markShut (list : List Nat) (cl : Client) : Client :=
  if cl.ptr ∈ list then { cl with shut := true } else cl

/-- `pass_client_to_worker`. -/
def markPassed (c : Nat) (cl : Client) : Client :=
  if cl.ptr = c then { cl with hands := .worker } else cl

/-- `client_close`, as far as the socket. -/
def markClosing (c : Nat) (cl : Client) : Client :=
  if cl.ptr = c then { cl with shut := true, hands := .closing } else cl

def markClosed (c : Nat) (cl : Client) : Client :=
  if cl.ptr = c then { cl with hands := .closed } else cl

namespace State

variable (s : State)

/-! ## The functions -/

def goto (pc : Pc) : State := { s with thread := some pc }

def modifyUplink (i : Nat) (f : Uplink → Uplink) : State :=
  { s with uplinkConfig := s.uplinkConfig.modify i f }

/-- `close_uplinkers`. -/
def closeUplinkers : State :=
  { s with clients := s.clients.map (markShut s.uplinkClients) }

/-- The thread goes at what the mutex protects, without it. -/
def touch : State := { s with raced := s.raced || s.mutex.isSome }

/-- A worker that closes a client comes to `uplink_close`, and gets the mutex. -/
def lock (c : Nat) : State :=
  { s with
    mutex := some c
    raced := s.raced || s.thread.any Pc.exposed }

/-- What `uplink_close` does to an entry of the list. -/
def unlink (c : Nat) (l : Uplink) : Uplink :=
  if l.client = some c then { l with state := uplinkStNotLinked, client := none } else l

/-- The rest of `uplink_close`. -/
def uplinkClose (c : Nat) : State :=
  { s with
    uplinkConfig := s.uplinkConfig.map (unlink c)
    uplinkClients := s.uplinkClients.erase c
    clients := s.clients.map (markClosed c)
    mutex := none }

/-- `client_free`. -/
def clientFree (c : Nat) : State := { s with clients := s.clients.filter (·.ptr ≠ c) }

/-- The next part of a call of `make_uplink`. -/
def makeUplink (env : ConfigEnv) (ans : Answers) (i : Nat) (stage : Stage) (ret : Return) : State :=
  match s.uplinkConfig[i]? with
  | none => s.goto ret.pc
  | some l =>
      match stage with
      | .checks =>
          let (ok, l) := l.checks env ans
          if ok then
            (s.modifyUplink i fun _ => { l with state := uplinkStConnecting }).goto
              (.make i .connecting ret)
          else (s.modifyUplink i fun _ => l).goto ret.pc
      | .connecting =>
          let fail := (s.modifyUplink i fun l => { l with state := uplinkStNotLinked }).goto ret.pc
          if !connect ans then fail
          else
            match ans.client with
            | none => fail
            | some c =>
                -- `client_ptr` is stored without the mutex
                { s.touch.modifyUplink i fun l => { l with client := some c } with
                  clients := ⟨c, l.conf.multi, false, .thread⟩ :: s.clients
                  thread := some (.make i (.allocated c) ret) }
      | .allocated c =>
          -- no worker has got to know the client, and it is in no list
          if !ans.setSockopt then (s.clientFree c).goto (.make i (.freed none) ret)
          -- the thread waits for the mutex
          else if s.mutex.isSome then s
          else { s with uplinkClients := c :: s.uplinkClients }.goto (.make i (.listed c) ret)
      | .listed c =>
          (s.modifyUplink i fun l => { l with state := uplinkStConnected }).goto
            (.make i (.connected c) ret)
      | .connected c =>
          -- `err:` frees the client while `uplink_clients` and the entry still have it
          if l.ssl && !ans.sslConnection || !ans.pass then
            (s.touch.clientFree c).goto (.make i (.freed (some c)) ret)
          else
            { s with
              clients := s.clients.map (markPassed c)
              thread := some ret.pc }
      | .freed uc =>
          { s.modifyUplink i fun l => { l with state := uplinkStNotLinked } with
            uplinkClients := uc.elim s.uplinkClients s.uplinkClients.erase
            thread := some ret.pc }

/-- The entry behind `n` regular ones. -/
def findUplink : (n i : Nat) → List Uplink → Option Nat
  | _, _, [] => none
  | 0, i, _ :: _ => some i
  | n + 1, i, l :: ls => if l.conf.multi then findUplink (n + 1) (i + 1) ls else findUplink n (i + 1) ls

/-- The choice of the next regular uplink, when none is up. -/
def pickUplink (has avail : Nat) : State :=
  if avail ≠ 0 ∧ has = 0 then
    let next := if s.nextUplink + 1 ≥ avail then 0 else s.nextUplink + 1
    let s := { s with nextUplink := next }
    match findUplink next.toNat 0 s.uplinkConfig with
    | none => s.goto (.alarm has avail)
    | some i => { s with picked := i :: s.picked }.goto (.make i .checks (.alarm has avail))
  else s.goto (.alarm has avail)

/-- An entry in the loop over the list. -/
def scanUplink (i has avail : Nat) : State :=
  match s.uplinkConfig[i]? with
  | none => s.goto (.pick has avail)
  | some l =>
      if l.conf.multi then
        if l.state < uplinkStConnecting then s.goto (.make i .checks (.scanned i has avail))
        else s.goto (.scanned i has avail)
      else
        let has := if l.state ≥ uplinkStConnecting then has + 1 else has
        s.goto (.scanned i has (avail + 1))

/-- The next part of `uplink_thread`. -/
def uplinkThread (env : ConfigEnv) (ans : Answers) : Pc → State
  | .top =>
      if s.uplinkShuttingDown then s.goto .leave
      else if s.uplinkReconfiguring || s.uplinkConfigUpdated then
        { s with uplinkReconfiguring := false }.goto .close
      else s.goto .check
  | .close => if s.mutex.isSome then s else s.closeUplinkers.goto .free
  -- the list is freed and replaced in several stores, and none of them is locked
  | .free => s.touch.goto .freeing
  | .freeing => { s with uplinkConfig := [], picked := [] }.goto .take
  | .take =>
      { s with
        uplinkConfig := s.uplinkConfigInstall.map .ofConfig
        picked := [] }.goto .wipe
  | .wipe => { s with uplinkConfigInstall := [] }.goto .clear
  | .clear => { s with uplinkConfigUpdated := false }.goto .check
  | .check =>
      if s.uplinkShuttingDown || s.uplinkReconfiguring then s.goto .top
      else if s.uplinkConfigUpdated then { s with uplinkReconfiguring := true }.goto .top
      else s.goto (.scan 0 0 0)
  | .scan i has avail => s.scanUplink i has avail
  | .scanned i has avail =>
      if s.uplinkShuttingDown then s.goto (.pick has avail) else s.goto (.scan (i + 1) has avail)
  | .pick has avail => s.pickUplink has avail
  | .make i stage ret => s.makeUplink env ans i stage ret
  | .alarm has avail =>
      let s :=
        if avail ≠ 0 ∧ has = 0 then { s with noUplink := true, uplinkErrorSet := 1 }
        else if s.uplinkErrorSet = 1 then { s with noUplink := false, uplinkErrorSet := 0 }
        else s
      s.goto (if s.uplinkShuttingDown then .leave else .sleep)
  | .sleep => s.goto .top
  | .leave => if s.mutex.isSome then s else s.closeUplinkers.goto .done
  | .done => s

/-- The end of `uplink_stop`, when the thread has ended. -/
def uplinkStopped : State :=
  { s with thread := none, uplinkClients := [], uplinkConfig := [], picked := [] }

/-- `read_config`, when it puts the uplinks in place, as far as the list. -/
def installUplinks (ups : List UplinkConfigT) : State :=
  -- a list that waits already is not replaced
  if s.uplinkConfigInstall.isEmpty then
    { s with uplinkConfigInstall := uplinksAllowed ups, storing := some (uplinksAllowed ups) }
  else s

/-- The flag, which is stored behind a barrier. -/
def flagUplinks : State := { s with uplinkConfigUpdated := true, storing := none }

/-- What happens. -/
inductive Event where
  /-- `uplink_start`. -/
  | start
  /-- The thread takes a step. -/
  | thread (ans : Answers)
  /-- A worker begins to close a client. -/
  | close (c : Nat)
  | lock (c : Nat)
  /-- The worker that has the mutex goes on, and gives it back. -/
  | unlock
  | free (c : Nat)
  | reload (ups : List UplinkConfigT)
  | flag
  /-- `uplink_stop` tells the thread to end, and goes on when it has. -/
  | stop
  | join

/-- `client_alloc` gives an address that is not in use. -/
def answers (ans : Answers) : Answers :=
  { ans with client := ans.client.filter fun c => s.clients.all (·.ptr ≠ c) }

/-- A client is in these hands. -/
def InHands (c : Nat) (hands : Hands) : Prop := ∃ cl ∈ s.clients, cl.ptr = c ∧ cl.hands = hands

instance (c : Nat) (hands : Hands) : Decidable (s.InHands c hands) :=
  inferInstanceAs (Decidable (∃ cl ∈ s.clients, cl.ptr = c ∧ cl.hands = hands))

/-- The state after an event. An event that cannot come changes nothing: a worker closes
only clients that it was handed, and files are read one after the other. -/
def step (env : ConfigEnv) : Event → State
  | .start =>
      if s.thread.isSome then s
      else
        { s with
          uplinkShuttingDown := false
          uplinkReconfiguring := true
          nextUplink := -1
          uplinkErrorSet := -1
          thread := some .top }
  | .thread ans =>
      match s.thread with
      | none => s
      | some pc => s.uplinkThread env (s.answers ans) pc
  | .close c =>
      if s.InHands c .worker then { s with clients := s.clients.map (markClosing c) } else s
  | .lock c => if s.InHands c .closing ∧ s.mutex = none then s.lock c else s
  | .unlock =>
      match s.mutex with
      | none => s
      | some c => s.uplinkClose c
  | .free c => if s.InHands c .closed then s.clientFree c else s
  | .reload ups => if s.storing.isSome then s else s.installUplinks ups
  | .flag => if s.storing.isSome then s.flagUplinks else s
  | .stop => if s.thread.isSome then { s with uplinkShuttingDown := true } else s
  | .join => if s.thread = some .done ∧ s.mutex = none then s.uplinkStopped else s

end State

end Uplinks

end Aprsc
