-- SUMMARY: The lists of clients of a worker, through collection, logins and closes, in every order of events.
import Aprsc.Base.LinkedLists
import Aprsc.Outgoing.Routing
import Aprsc.Worker.Validation

/-!
# Client lists of a worker

A worker keeps its clients in one list, and those that packets go out to in one of four
class lists. Both kinds of lists have back pointers to the links. Other threads pass new
clients in a queue, from which the worker collects them one at a time. The iterations of
that loop are events of their own here, so that anything may happen between them.
-/

namespace Aprsc

open PtrQueue Runs

/-! ## What a line does to the state of a client -/

/-- A client whose handler still waits for a login is not connected. -/
def Session.Sound (c : Session) : Prop :=
  c.handlerLineIn ≠ .incoming → c.state ≠ .connected ∧ c.state ≠ .corepeer

/-- The client takes part in the exchange of packets. -/
def Session.active (c : Session) : Bool := c.state == .connected || c.state == .corepeer

/-- The list that `worker_classify_client` picks for a client, if any. -/
def Session.outgoingClass (c : Session) : Option ClientClass :=
  if c.has clflagsPortRo then some .ro
  else if c.state == .corepeer || c.has clflagsUplinkport then some .ups
  else if c.has clflagsDupefeed then some .dupe
  else if c.has clflagsInport then some .other
  else none

/-- It is the list that packets are routed by. -/
theorem outgoingClass_eq_workerClassifyClient (c : Session) (d : Client)
    (hstate : d.state = c.state) (hflags : d.flags = c.flags) :
    c.outgoingClass = workerClassifyClient d := by
  unfold Session.outgoingClass workerClassifyClient Client.upstream Client.has Session.has
  rw [hstate, hflags]

section

open ResM

variable {env : HandlerEnv} {u : Bytes} {v : Nat}

/-- A login leaves a client that applies still, or one whose handler has been switched. -/
def Applied (c : Session) : Prop := (∃ u v, Applying u v c) ∨ c.handlerLineIn = .incoming

theorem loginWithOptions_applied (sslValidated : Bool) (options : List Bytes) :
    Ensures (fun r => Applying u v r.obj) (loginWithOptions env sslValidated options)
      fun _ r => Applied r.obj := by
  refine (loginOptions_passcodeRead none options).bind fun e => ?_
  cases e with
  | failed rc => exact fun r hr => .inl ⟨u, v, failedLogin_applying rc r hr.1⟩
  | lost rc => exact Ensures.pure fun _ h => .inl ⟨u, v, h.1⟩
  | done pass => exact fun r hr => .inr (loginSucceeded_loggedIn sslValidated pass r hr.1).handler

theorem loginHandler_applied (s : Bytes) :
    Ensures (fun r => Applying u v r.obj) (loginHandler env s) fun _ r => Applied r.obj := by
  have hreject : ∀ {u : Bytes} (text : String), Ensures
      (fun r => Applying u v r.obj) (rejectLogin text) fun _ r => Applied r.obj :=
    fun text r hr => .inl ⟨_, v, rejectLogin_applying text r hr⟩
  unfold loginHandler
  generalize (parseArgsNoshell s).1 = argv
  refine Ensures.bind (R := fun _ r => Applying u v r.obj) (fun _ hr => hr) fun _ => ?_
  cases argv with
  | nil => exact Ensures.pure fun _ hr => .inl ⟨u, v, hr⟩
  | cons cmd args =>
    refine .ite (fun _ => Ensures.pure fun _ hr => .inl ⟨u, v, hr⟩) fun _ => ?_
    cases args with
    | nil => exact hreject _
    | cons username options =>
      refine .ite (fun _ => ?_) fun _ => .ite (fun _ => hreject _) fun _ => ?_
      · exact fun r hr => .inl ⟨u, v, Preserves.modify_bind (fun c hc => hc.set rfl rfl rfl rfl)
          (rejectLogin_applying _) r hr⟩
      refine Ensures.bind (R := fun _ r => Applying username v r.obj)
        (fun r hr => ⟨hr.handler, hr.state, rfl, hr.validated⟩) fun _ => ?_
      refine .ite (fun _ => hreject _) fun _ => .ite (fun _ => hreject _) fun _ =>
        .ite (fun _ => hreject _) fun _ => .ite (fun _ => hreject _) fun _ => ?_
      refine .get_obj_bind fun c hc => ?_
      cases c.cert with
      | none => exact loginWithOptions_applied false options
      | some check =>
        refine (loginClientValidateCert_applying check).bind fun a => ?_
        have hfail : ∀ rc, Ensures (fun r => (a = 1 ∧ check.res = 0 ∧
            Applying username validatedStrong r.obj) ∨ (a ≠ 1 ∧ Applying username v r.obj))
            (failedLogin rc) fun _ r => Applied r.obj := by
          rintro rc r (⟨-, -, hr⟩ | ⟨-, hr⟩) <;>
            exact .inl ⟨_, _, failedLogin_applying rc r hr⟩
        refine .ite (fun _ => hfail _) fun _ => .ite (fun _ => hfail _) fun _ => ?_
        rintro r (⟨-, -, hr⟩ | ⟨-, hr⟩) <;> exact loginWithOptions_applied true options r hr

/-- A client that waits for a login keeps its flags, and its state until it is connected. -/
theorem stable_of_login (f : UInt32) (st : CState) :
    LoginStable env fun c => c.flags = f ∧ (c.state = st ∨ c.state = .connected) where
  failedCmds := fun _ _ hc => hc
  username := fun _ _ _ _ hc => hc
  validated := fun _ _ _ hc => hc
  appName := fun _ _ _ hc => hc
  udpPort := fun _ _ _ _ hc => hc
  filters := fun _ _ _ _ hc => hc
  loggedIn := fun _ hc => hc
  connected := fun _ hc => ⟨hc.1, .inr rfl⟩

/-- The flags are kept, and the handler is switched when the client is connected. -/
structure Session.Waits (f : UInt32) (c : Session) : Prop where
  flags : c.flags = f
  state : c.state ≠ .corepeer
  handler : c.handlerLineIn ≠ .incoming → c.state ≠ .connected

theorem uplinkLoginHandler_waits (f : UInt32) (s : Bytes) :
    Preserves (Session.Waits f) (uplinkLoginHandler env s) := by
  have hclose : Preserves (Session.Waits f) (clientClose >>= fun _ => pure (0 : Int)) :=
    Preserves.destroy.bind fun _ => .pure _
  refine .get_bind fun c _ => .ite hclose (.ite hclose (.modify_bind (fun c hc => ?_) ?_))
  · split
    · exact ⟨hc.flags, hc.state, hc.handler⟩
    · exact hc
  · refine (clientWrite_preserves _).bind fun rc => .ite (.pure _) (.modify_bind (fun c hc => ?_) (.pure _))
    exact ⟨hc.flags, nofun, fun _ => nofun⟩

theorem uplinkLogrespHandler_waits (f : UInt32) (s : Bytes) :
    Preserves (Session.Waits f) (uplinkLogrespHandler env s) := by
  have hclose : Preserves (Session.Waits f) (clientClose >>= fun _ => pure (0 : Int)) :=
    Preserves.destroy.bind fun _ => .pure _
  refine Preserves.use.bind fun _ => ?_
  cases uplinkServerName env (parseArgsNoshell s).1 with
  | none => exact hclose
  | some name =>
    refine .modify_bind (fun c hc => ⟨hc.flags, hc.state, hc.handler⟩) (.get_bind fun c _ => ?_)
    refine .ite hclose (.modify_bind (fun c hc => ?_) (.pure _))
    exact ⟨hc.flags, nofun, fun h => absurd rfl h⟩

/-- What a line leaves of its client. A client that is logged in stays in its state. -/
structure Session.After (c c' : Session) : Prop where
  flags : c'.flags = c.flags
  sound : c'.Sound
  incoming : c.handlerLineIn = .incoming → c'.state = c.state
  login : c.handlerLineIn ≠ .incoming → c'.state ≠ .corepeer

theorem handlerLineIn_after (udp : Bool) (s : Bytes) (r : Resource Session WriteOutcome)
    (h : r.obj.Sound) : r.obj.After (handlerLineIn env udp s r).2.obj := by
  have hwaits : ∀ {x : ClientM Int}, r.obj.handlerLineIn ≠ .incoming →
      (∀ f, Preserves (Session.Waits f) x) → ∀ r', r'.obj = r.obj → r.obj.After (x r').2.obj := by
    intro x hne hx r' hr'
    obtain ⟨hconn, hpeer⟩ := h hne
    have hkept := hx r.obj.flags r' (hr'.symm ▸ ⟨rfl, hpeer, fun _ => hconn⟩)
    exact ⟨hkept.flags, fun hin => ⟨hkept.handler hin, hkept.state⟩, fun hin => absurd hin hne,
      fun _ => hkept.state⟩
  have hobj : (ResM.get r).1 = r.obj := rfl
  dsimp only [handlerLineIn, bind]
  rw [hobj]
  cases hhandler : r.obj.handlerLineIn with
  | login =>
    obtain ⟨hconn, hpeer⟩ := h (by rw [hhandler]; exact fun heq => by cases heq)
    have happlied := @loginHandler_applied env _ _ s (ResM.get r).2
      (⟨hhandler, hconn, rfl, rfl⟩ : Applying r.obj.username r.obj.validated r.obj)
    obtain ⟨hflags, hstate⟩ := (@stable_of_login env r.obj.flags r.obj.state).loginHandler s
      (ResM.get r).2 ⟨rfl, .inl rfl⟩
    have hcore : (loginHandler env s (ResM.get r).2).2.obj.state ≠ .corepeer := by
      obtain hst | hst := hstate <;> rw [hst]
      · exact hpeer
      · exact fun heq => by cases heq
    refine ⟨hflags, fun hin => ⟨?_, hcore⟩, fun hin => ?_, fun _ => hcore⟩
    · obtain ⟨u, v, hu⟩ | hin' := happlied
      · exact hu.state
      · exact absurd hin' hin
    · cases hhandler.symm.trans hin
  | incoming =>
    have hkept : Preserves (fun c : Session => c.flags = r.obj.flags ∧ c.state = r.obj.state ∧
        c.handlerLineIn = .incoming) (incomingHandler env udp s) :=
      incomingHandler_preserves (fun _ _ _ _ hc => hc) udp s
    obtain ⟨hflags, hstate, hin⟩ := hkept (ResM.get r).2 ⟨rfl, rfl, hhandler⟩
    exact ⟨hflags, fun hne => absurd hin hne, fun _ => hstate, fun hne => absurd hhandler hne⟩
  | uplinkLogin =>
    exact hwaits (by rw [hhandler]; exact fun heq => by cases heq)
      (fun f => uplinkLoginHandler_waits f s) _ rfl
  | uplinkLogresp =>
    exact hwaits (by rw [hhandler]; exact fun heq => by cases heq)
      (fun f => uplinkLogrespHandler_waits f s) _ rfl

end

/-! ## The worker -/

/-- The variables that hold lists of clients linked by `next`: those of the worker, and the
local variable `new_clients` of `collect_new_clients`. -/
inductive ClientHead where
  | clients | newClients | collecting
deriving Repr, DecidableEq

/-- `struct client_t`, as far as its lists go. A client that the worker has taken from the
queue is marked as collected. -/
structure WorkerClient where
  fd : Int
  session : Session
  collected : Bool

/-- The class list that the client belongs in. -/
def WorkerClient.outClass (r : WorkerClient) : Option ClientClass :=
  if r.collected && r.session.active then r.session.outgoingClass else none

/-- `MAX_COREPEERS`. -/
def maxCorepeers : Nat := 16

/-- The clients in memory by their address, and the fields of `struct worker_t` and of the
clients that make up the lists. `worker_corepeer_clients` is listed up to its count. The
worker stops running when its thread is told to shut down, and when the program exits. -/
structure WorkerClients where
  client : Nat → Option WorkerClient
  list : Links ClientHead Nat
  newClientsLast : Option Nat
  classes : Links ClientClass Nat
  corepeers : List Nat
  clientCount : Int
  running : Bool

/-- What the threads that set clients up pass to a worker. The fields of the client that
are not named here are those of the given one. -/
inductive NewClient where
  | accepted (fd : Int) (c : Session)
  | liveupgraded (fd : Int) (connected : Bool) (c : Session)
  | uplink (fd : Int) (c : Session)
  | corepeer (c : Session)
  | peersClose (c : Session)

/-- The client as `accept`, `accept_liveupgrade_single`, `make_uplink`, `peerip_clients_config`
and `peerip_clients_close` fill it in. The handler of the last one is never called. -/
def NewClient.record : NewClient → WorkerClient
  | .accepted fd c => ⟨fd, { c with state := .login, handlerLineIn := .login }, false⟩
  | .liveupgraded fd true c => ⟨fd, { c with state := .connected, handlerLineIn := .incoming }, false⟩
  | .liveupgraded fd false c => ⟨fd, { c with state := .login, handlerLineIn := .login }, false⟩
  | .uplink fd c => ⟨fd, { c with state := .init, handlerLineIn := .uplinkLogin }, false⟩
  | .corepeer c =>
      ⟨-1, { c with state := .corepeer, flags := clflagsUplinkport, handlerLineIn := .incoming }, false⟩
  | .peersClose c => ⟨-2, { c with state := .corepeer, flags := 0, handlerLineIn := .incoming }, false⟩

namespace WorkerClients

/-- A worker that has just been started. -/
def init : WorkerClients where
  client := fun _ => none
  list := .empty
  newClientsLast := none
  classes := .empty
  corepeers := []
  clientCount := 0
  running := true

/-- `client_alloc` clears the memory of a new client, and `pass_client_to_worker` appends
it to the queue. -/
def passClientToWorker (c : Nat) (n : NewClient) (w : WorkerClients) : WorkerClients :=
  if w.client c = none then
    { w with
      client := Function.update w.client c (some n.record)
      classes := w.classes.clear c
      list := (w.list.clear c).append .newClients w.newClientsLast c
      newClientsLast := some c }
  else w

/-- `client_free`. -/
def clientFree (c : Nat) (w : WorkerClients) : WorkerClients :=
  { w with client := Function.update w.client c none }

/-- `client_close`. `class_prevp` is only followed if it is not null. -/
def clientClose (c : Nat) (w : WorkerClients) : WorkerClients :=
  clientFree c
    { w with
      list := w.list.unlink c
      classes := w.classes.unlink c
      clientCount := w.clientCount - 1 }

/-- `corepeer_close_all`. -/
def corepeerCloseAll (w : WorkerClients) : WorkerClients :=
  { w.corepeers.foldl (fun w c => w.clientClose c) w with corepeers := [] }

/-- `worker_classify_client`. -/
def workerClassifyClient (c : Nat) (session : Session) (w : WorkerClients) : WorkerClients :=
  match session.outgoingClass with
  | some k => { w with classes := w.classes.push k c }
  | none => w

/-- `collect_new_clients` up to its loop: the queue is moved to the local variable. -/
def takeNewClients (w : WorkerClients) : WorkerClients :=
  if w.list.mem (.head .collecting) = none then
    { w with list := w.list.take .collecting .newClients, newClientsLast := none }
  else w

/-- The loop of `collect_new_clients` for a client that is not a marker, up to the polling
list. -/
def joinClients (c : Nat) (r : WorkerClient) (w : WorkerClients) : WorkerClients :=
  let w := { w with
    client := Function.update w.client c (some { r with collected := true })
    list := w.list.push .clients c
    clientCount := w.clientCount + 1 }
  if r.session.active then w.workerClassifyClient c r.session else w

/-- The rest of the iteration for a core peer. The program exits when there are too many. -/
def addCorepeer (c : Nat) (r : WorkerClient) (w : WorkerClients) : WorkerClients :=
  if w.corepeers.length = maxCorepeers then { w with running := false }
  else
    { w with
      client := Function.update w.client c
        (some { r with fd := -(w.corepeers.length : Int) - 100, collected := true })
      corepeers := w.corepeers ++ [c] }

/-- One iteration of the loop of `collect_new_clients`. `xpoll_add` may find no room, and the
first write to the client may be lost. -/
def collectNewClient (room : Bool) (o : WriteOutcome) (w : WorkerClients) : WorkerClients :=
  match w.list.mem (.head .collecting) with
  | none => w
  | some c =>
    match w.client c with
    | none => w
    | some r =>
      let w := { w with list := w.list.advance .collecting c }
      if r.fd < -1 then
        (if r.fd = -2 then w.corepeerCloseAll else w).clientFree c
      else
        let w := w.joinClients c r
        if r.session.state = .corepeer then w.addCorepeer c r
        else if room && r.session.has clflagsInport && o.lost then w.clientClose c
        else w

/-- A line of a client goes to its handler. A login ends with `worker_mark_client_connected`.
The handler may close the client, and a reply may. -/
def lineIn (c : Nat) (env : HandlerEnv) (udp : Bool) (cert : Option CertCheck)
    (outs : Nat → WriteOutcome) (s : Bytes) (r : WorkerClient) (w : WorkerClients) : WorkerClients :=
  let res := (handlerLineIn env udp s ⟨{ r.session with cert := cert }, true, false, outs, []⟩).2
  if res.alive then
    let w := { w with client := Function.update w.client c (some { r with session := res.obj }) }
    if r.session.handlerLineIn ≠ .incoming ∧ res.obj.state = .connected then
      w.workerClassifyClient c res.obj
    else w
  else w.clientClose c

end WorkerClients

/-- What the threads do with the clients of a worker. A core peer is not closed by itself: its
`write` is `udp_client_write`, its reader `handle_corepeer_readable`, and neither closes it,
and `send_keepalives` skips it. -/
inductive WorkerEvent where
  | pass (c : Nat) (n : NewClient)
  | take
  | collect (room : Bool) (o : WriteOutcome)
  | line (c : Nat) (env : HandlerEnv) (udp : Bool) (cert : Option CertCheck)
      (outs : Nat → WriteOutcome) (s : Bytes)
  | close (c : Nat)
  | shutdown
  | shutdownClose (c : Nat)

/-- One event. -/
def workerStep (w : WorkerClients) : WorkerEvent → WorkerClients
  | .pass c n => w.passClientToWorker c n
  | .take => if w.running then w.takeNewClients else w
  | .collect room o => if w.running then w.collectNewClient room o else w
  | .line c env udp cert outs s =>
      match w.client c with
      | some r =>
          if w.running ∧ r.collected ∧ r.session.state ≠ .corepeer then
            w.lineIn c env udp cert outs s r
          else w
      | none => w
  | .close c =>
      match w.client c with
      | some r =>
          if w.running ∧ r.collected ∧ r.session.state ≠ .corepeer then w.clientClose c else w
      | none => w
  | .shutdown => { w with running := false }
  | .shutdownClose c =>
      match w.client c with
      | some r => if w.running = false ∧ r.collected then w.clientClose c else w
      | none => w

/-! ## What the lists hold -/

/-- The class lists that the clients in memory belong in. -/
def classesOf (client : Nat → Option WorkerClient) (c : Nat) : Option ClientClass :=
  (client c).bind WorkerClient.outClass

theorem classesOf_update (client : Nat → Option WorkerClient) (c : Nat) (x : Option WorkerClient) :
    classesOf (Function.update client c x) =
      Function.update (classesOf client) c (x.bind WorkerClient.outClass) := by
  funext a
  by_cases ha : a = c
  · subst ha
    simp [classesOf]
  · simp [classesOf, ha]

theorem outClass_of_not_collected {r : WorkerClient} (h : r.collected = false) :
    r.outClass = none := by
  simp [WorkerClient.outClass, h]

/-- Put a client in a class list, if it belongs in one. -/
def enlist (s : Links ClientClass Nat) (c : Nat) : Option ClientClass → Links ClientClass Nat
  | some k => s.push k c
  | none => s

theorem enlist_filed {s : Links ClientClass Nat} {cls : Nat → Option ClientClass} {c : Nat}
    (hs : s.Filed cls) (hc : cls c = none) (o : Option ClientClass) :
    (enlist s c o).Filed (Function.update cls c o) ∧
      ∀ k, Function.update cls c o k = none → (enlist s c o).prevp k = s.prevp k := by
  cases o with
  | none =>
    have hsame : Function.update cls c none = cls := hc ▸ Function.update_eq_self c cls
    rw [hsame]
    exact ⟨hs, fun _ _ => rfl⟩
  | some k =>
    obtain ⟨hfiled, hprevp⟩ := hs.push hc k
    refine ⟨hfiled, fun a ha => ?_⟩
    by_cases hac : a = c
    · subst hac
      simp at ha
    · rw [Function.update_of_ne hac] at ha
      exact hprevp a hac ha

namespace WorkerClients

/-- The lists of the worker, its queue and its local variable hold the clients in memory, each
of them once, but for the one that the loop holds. -/
structure Wf (w : WorkerClients) (q : ClientHead → List Nat) (held : Option Nat) : Prop where
  list : w.list.Rep q (· ≠ .collecting)
  classes : w.classes.Filed (classesOf w.client)
  unclassified : ∀ c, w.client c ≠ none → classesOf w.client c = none → w.classes.prevp c = none
  client : ∀ c, w.client c ≠ none ↔ (∃ h, c ∈ q h) ∨ held = some c
  held : ∀ c, held = some c → ∀ h, c ∉ q h
  collected : ∀ c r, w.client c = some r → (r.collected = true ↔ c ∈ q .clients)
  sound : ∀ c r, w.client c = some r → r.session.Sound
  count : w.clientCount = (q .clients).length
  last : w.newClientsLast = (q .newClients).getLast?

/-- The core peers among the clients of the worker. -/
def peer (w : WorkerClients) (c : Nat) : Bool :=
  (w.client c).any fun r => r.collected && r.session.state == .corepeer

/-- The list names the core peers, each of them once. -/
structure PeersAre (w : WorkerClients) (ps : List Nat) : Prop where
  nodup : ps.Nodup
  mem : ∀ c, c ∈ ps ↔ w.peer c = true

/-- The invariant of a worker between two events. -/
def Inv (w : WorkerClients) : Prop :=
  ∃ q, w.Wf q none ∧ (w.running = true → w.PeersAre w.corepeers)

theorem PeersAre.congr {w w' : WorkerClients} {ps : List Nat} (h : w.PeersAre ps)
    (heq : ∀ c, w'.peer c = w.peer c) : w'.PeersAre ps :=
  ⟨h.nodup, fun c => (heq c).symm ▸ h.mem c⟩

theorem init_inv : init.Inv := by
  refine ⟨fun _ => [], ?_, fun _ => ⟨List.nodup_nil, by simp [init, peer]⟩⟩
  exact {
    list := Links.rep_empty _
    classes := Links.filed_empty
    unclassified := fun _ h => absurd rfl h
    client := by simp [init]
    held := fun c h => absurd h.symm (Option.some_ne_none c)
    collected := fun _ r h => absurd (show some r = none from h.symm) (Option.some_ne_none r)
    sound := fun _ r h => absurd (show some r = none from h.symm) (Option.some_ne_none r)
    count := rfl
    last := rfl }

section

variable {w : WorkerClients} {q : ClientHead → List Nat} {held : Option Nat} {c : Nat}
  {r : WorkerClient}

theorem Wf.not_collected (hw : w.Wf q held) (hr : w.client c = some r) (hc : c ∉ q .clients) :
    classesOf w.client c = none := by
  have hcoll : r.collected = false := by
    rw [← Bool.not_eq_true]
    exact mt (hw.collected c r hr).mp hc
  simp [classesOf, hr, outClass_of_not_collected hcoll]

/-! ### The queue -/

theorem record_sound (n : NewClient) : n.record.session.Sound := by
  unfold Session.Sound
  cases n with
  | liveupgraded fd connected c => cases connected <;> simp [NewClient.record]
  | _ => simp [NewClient.record]

theorem record_not_collected (n : NewClient) : n.record.collected = false := by
  cases n with
  | liveupgraded fd connected c => cases connected <;> rfl
  | _ => rfl

theorem Wf.pass (hw : w.Wf q held) (hc : w.client c = none) (n : NewClient) :
    (w.passClientToWorker c n).Wf
      (Function.update q .newClients (q .newClients ++ [c])) held := by
  have hnew : ¬ ((∃ h, c ∈ q h) ∨ held = some c) := fun h => (hw.client c).mpr h hc
  rw [not_or, not_exists] at hnew
  have hnone : classesOf w.client c = none := by simp [classesOf, hc]
  have hcls : classesOf (Function.update w.client c (some n.record)) = classesOf w.client := by
    rw [classesOf_update, Option.bind_some, outClass_of_not_collected (record_not_collected n),
      ← hnone, Function.update_eq_self]
  have hclients : Function.update q .newClients (q .newClients ++ [c]) .clients = q .clients :=
    Function.update_of_ne (by decide) ..
  simp only [passClientToWorker, if_pos hc]
  exact {
    list := (hw.list.clear hnew.1).append .newClients hw.last hnew.1
    classes := by
      rw [hcls]
      exact hw.classes.clear hnone
    unclassified := by
      intro a ha hcls'
      rw [hcls] at hcls'
      by_cases hac : a = c
      · subst hac
        exact Function.update_self ..
      · simp only [Function.update_of_ne hac] at ha
        simp only [Links.clear, Function.update_of_ne hac]
        exact hw.unclassified a ha hcls'
    client := by
      intro a
      simp only [mem_update_append]
      by_cases hac : a = c
      · subst hac
        simp
      · simp only [Function.update_of_ne hac, hac, and_false, or_false]
        exact hw.client a
    held := by
      intro a ha h hmem
      obtain hq | ⟨-, rfl⟩ := mem_update_append.mp hmem
      · exact hw.held a ha h hq
      · exact hnew.2 ha
    collected := by
      intro a r hr
      rw [hclients]
      by_cases hac : a = c
      · subst hac
        simp only [Function.update_self] at hr
        obtain rfl := Option.some.inj hr
        simp [record_not_collected, hnew.1]
      · simp only [Function.update_of_ne hac] at hr
        exact hw.collected a r hr
    sound := by
      intro a r hr
      by_cases hac : a = c
      · subst hac
        simp only [Function.update_self] at hr
        obtain rfl := Option.some.inj hr
        exact record_sound n
      · simp only [Function.update_of_ne hac] at hr
        exact hw.sound a r hr
    count := by
      rw [hclients]
      exact hw.count
    last := by simp }

theorem Wf.take (hw : w.Wf q held) (hnull : w.list.mem (.head .collecting) = none) :
    (w.takeNewClients).Wf (moved q .collecting .newClients) held := by
  have hne : ClientHead.collecting ≠ .newClients := nofun
  have hnil : q .collecting = [] := hw.list.lists.queues.eq_nil hnull
  have hclients : moved q .collecting .newClients .clients = q .clients := moved_of_ne nofun nofun
  simp only [takeNewClients, if_pos hnull]
  exact {
    hw with
    list := hw.list.take hne (fun h => h rfl) hnil
    client := fun a => by rw [exists_mem_moved hne]; exact hw.client a
    held := by
      intro a ha h hmem
      obtain ⟨h', hmem'⟩ := (exists_mem_moved hne).mp ⟨h, hmem⟩
      exact hw.held a ha h' hmem'
    collected := by rw [hclients]; exact hw.collected
    count := by rw [hclients]; exact hw.count
    last := by simp }

theorem Wf.advance (hw : w.Wf q none) {ns : List Nat} (hq : q .collecting = c :: ns) :
    ({ w with list := w.list.advance .collecting c } : WorkerClients).Wf
      (Function.update q .collecting ns) (some c) := by
  have hqs := hw.list.lists.queues
  exact {
    hw with
    list := hw.list.advance (fun h => h rfl) hq
    client := by
      intro a
      rw [hw.client a, hqs.exists_mem_update_tail hq]
      by_cases hac : a = c
      · subst hac
        simp only [ne_eq, not_true_eq_false, false_and, false_or, iff_true]
        exact .inl ⟨.collecting, hq ▸ List.mem_cons_self⟩
      · simp [hac, Ne.symm hac]
    held := by
      rintro a ha h hmem
      obtain rfl := Option.some.inj ha
      exact hqs.not_mem_update_tail hq h hmem
    collected := hw.collected
    count := hw.count
    last := hw.last }

/-! ### Clients that come and go -/

theorem Wf.free (hw : w.Wf q (some c)) : (w.clientFree c).Wf q none := by
  have hfree := hw.held c rfl
  have hcls : classesOf (Function.update w.client c none) = classesOf w.client := by
    rw [classesOf_update, Option.bind_none]
    cases hr : w.client c with
    | none => rw [show none = classesOf w.client c by simp [classesOf, hr], Function.update_eq_self]
    | some r => rw [← hw.not_collected hr (hfree _), Function.update_eq_self]
  have hother : ∀ {a r}, Function.update w.client c none a = some r → w.client a = some r := by
    intro a r hr
    by_cases hac : a = c
    · subst hac
      simp at hr
    · rwa [Function.update_of_ne hac] at hr
  exact {
    list := hw.list
    classes := by
      simp only [clientFree, hcls]
      exact hw.classes
    unclassified := by
      intro a ha hnone
      simp only [clientFree, hcls] at ha hnone
      refine hw.unclassified a (fun h => ha ?_) hnone
      by_cases hac : a = c
      · subst hac
        exact Function.update_self ..
      · rwa [Function.update_of_ne hac]
    client := by
      intro a
      simp only [clientFree]
      by_cases hac : a = c
      · subst hac
        simp [hfree]
      · rw [Function.update_of_ne hac, hw.client a]
        simp [Ne.symm hac]
    held := nofun
    collected := fun a r hr => hw.collected a r (hother hr)
    sound := fun a r hr => hw.sound a r (hother hr)
    count := hw.count
    last := hw.last }

/-- A client of the worker is closed: both lists are linked together over it. -/
theorem Wf.close (hw : w.Wf q held) (hc : c ∈ q .clients) :
    (w.clientClose c).Wf (Function.update q .clients ((q .clients).erase c)) held := by
  have hqs := hw.list.lists.queues
  have hhere : w.client c ≠ none := (hw.client c).mpr (.inl ⟨_, hc⟩)
  have hheld : held ≠ some c := fun h => hw.held c h _ hc
  have hclasses : (w.classes.unlink c).Filed (Function.update (classesOf w.client) c none) ∧
      ∀ k, classesOf w.client k = none → (w.classes.unlink c).prevp k = w.classes.prevp k := by
    cases hcls : classesOf w.client c with
    | none =>
      rw [Links.unlink_of_none (hw.unclassified c hhere hcls), ← hcls, Function.update_eq_self]
      exact ⟨hw.classes, fun _ _ => rfl⟩
    | some k => exact hw.classes.unlink hcls
  have hother : ∀ {a r}, Function.update w.client c none a = some r →
      a ≠ c ∧ w.client a = some r := by
    intro a r hr
    by_cases hac : a = c
    · subst hac
      simp at hr
    · exact ⟨hac, by rwa [Function.update_of_ne hac] at hr⟩
  exact {
    list := hw.list.unlink nofun hc
    classes := by
      simp only [clientClose, clientFree, classesOf_update, Option.bind_none]
      exact hclasses.1
    unclassified := by
      intro a ha hnone
      obtain ⟨r, hr⟩ := Option.ne_none_iff_exists'.mp ha
      obtain ⟨hac, hr'⟩ := hother hr
      simp only [clientClose, clientFree, classesOf_update, Function.update_of_ne hac] at hnone
      exact (hclasses.2 a hnone).trans (hw.unclassified a (by simp [hr']) hnone)
    client := by
      intro a
      simp only [clientClose, clientFree, hqs.mem_update_erase hc]
      by_cases hac : a = c
      · subst hac
        simp [hheld]
      · simp only [Function.update_of_ne hac, ne_eq, hac, not_false_eq_true, and_true]
        exact hw.client a
    held := fun a ha h hmem => hw.held a ha h ((hqs.mem_update_erase hc).mp hmem).1
    collected := by
      intro a r hr
      obtain ⟨hac, hr'⟩ := hother hr
      rw [hqs.mem_update_erase hc, hw.collected a r hr']
      exact ⟨fun h => ⟨h, hac⟩, fun h => h.1⟩
    sound := fun a r hr => hw.sound a r (hother hr).2
    count := by
      have hpos := List.length_pos_of_mem hc
      simp only [clientClose, clientFree, Function.update_self, List.length_erase_of_mem hc, hw.count]
      omega
    last := by
      rw [Function.update_of_ne (by decide)]
      exact hw.last }

/-! ### Classification -/

theorem workerClassifyClient_eq (c : Nat) (s : Session) (w : WorkerClients) :
    w.workerClassifyClient c s = { w with classes := enlist w.classes c s.outgoingClass } := by
  unfold workerClassifyClient
  cases s.outgoingClass <;> rfl

theorem joinClients_eq (c : Nat) (r : WorkerClient) (w : WorkerClients) :
    w.joinClients c r =
      { w with
        client := Function.update w.client c (some { r with collected := true })
        list := w.list.push .clients c
        classes := enlist w.classes c (WorkerClient.outClass { r with collected := true })
        clientCount := w.clientCount + 1 } := by
  unfold joinClients
  by_cases hactive : r.session.active = true
  · rw [if_pos hactive, workerClassifyClient_eq]
    simp [WorkerClient.outClass, hactive]
  · rw [if_neg hactive]
    simp [WorkerClient.outClass, hactive, enlist]

/-- The client that the loop holds joins the clients of the worker. -/
theorem Wf.join (hw : w.Wf q (some c)) (hr : w.client c = some r) :
    (w.joinClients c r).Wf (Function.update q .clients (c :: q .clients)) none := by
  have hfree := hw.held c rfl
  obtain ⟨hfiled, hprevp⟩ := enlist_filed hw.classes (hw.not_collected hr (hfree _))
    (WorkerClient.outClass { r with collected := true })
  rw [joinClients_eq]
  exact {
    list := hw.list.push .clients hfree
    classes := by
      rw [classesOf_update]
      exact hfiled
    unclassified := by
      intro a ha hnone
      rw [classesOf_update] at hnone
      refine (hprevp a hnone).trans ?_
      by_cases hac : a = c
      · subst hac
        exact hw.unclassified a (by simp [hr]) (hw.not_collected hr (hfree _))
      · simp only [Function.update_of_ne hac] at ha hnone
        exact hw.unclassified a ha hnone
    client := by
      intro a
      simp only [mem_update_cons]
      by_cases hac : a = c
      · subst hac
        simp
      · simp only [Function.update_of_ne hac, hac, and_false, or_false]
        rw [hw.client a]
        simp [Ne.symm hac]
    held := nofun
    collected := by
      intro a r' hr'
      rw [mem_update_cons]
      by_cases hac : a = c
      · subst hac
        simp only [Function.update_self] at hr'
        obtain rfl := Option.some.inj hr'
        simp
      · simp only [Function.update_of_ne hac] at hr'
        simp [hac, hw.collected a r' hr']
    sound := by
      intro a r' hr'
      by_cases hac : a = c
      · subst hac
        simp only [Function.update_self] at hr'
        obtain rfl := Option.some.inj hr'
        exact hw.sound a r hr
      · simp only [Function.update_of_ne hac] at hr'
        exact hw.sound a r' hr'
    count := by
      simp only [Function.update_self, List.length_cons, hw.count]
      omega
    last := by
      rw [Function.update_of_ne (by decide)]
      exact hw.last }

/-- The record of a client of the worker changes, and the client is put in the class list that
it belongs in now. -/
theorem Wf.reclass (hw : w.Wf q held) (hr : w.client c = some r) {r' : WorkerClient}
    {o : Option ClientClass} (hcoll : r'.collected = r.collected) (hsound : r'.session.Sound)
    (ho : r'.outClass = o.or r.outClass) (hnone : o ≠ none → r.outClass = none) :
    ({ w with
      client := Function.update w.client c (some r')
      classes := enlist w.classes c o } : WorkerClients).Wf q held := by
  have hold : classesOf w.client c = r.outClass := by simp [classesOf, hr]
  have hclasses : (enlist w.classes c o).Filed (Function.update (classesOf w.client) c r'.outClass) ∧
      ∀ k, Function.update (classesOf w.client) c r'.outClass k = none →
        (enlist w.classes c o).prevp k = w.classes.prevp k := by
    cases o with
    | none =>
      rw [ho, Option.none_or, ← hold, Function.update_eq_self]
      exact ⟨hw.classes, fun _ _ => rfl⟩
    | some k =>
      rw [ho, Option.some_or]
      exact enlist_filed hw.classes (hold.trans (hnone nofun)) (some k)
  have hrecord : ∀ {a x}, Function.update w.client c (some r') a = some x →
      (a = c ∧ x = r') ∨ (a ≠ c ∧ w.client a = some x) := by
    intro a x hx
    by_cases hac : a = c
    · subst hac
      rw [Function.update_self] at hx
      exact .inl ⟨rfl, (Option.some.inj hx).symm⟩
    · exact .inr ⟨hac, by rwa [Function.update_of_ne hac] at hx⟩
  exact {
    hw with
    classes := by
      rw [classesOf_update]
      exact hclasses.1
    unclassified := by
      intro a ha hcls
      rw [classesOf_update] at hcls
      refine (hclasses.2 a hcls).trans ?_
      by_cases hac : a = c
      · subst hac
        rw [Function.update_self, Option.bind_some, ho, Option.or_eq_none_iff] at hcls
        exact hw.unclassified a (by simp [hr]) (hold.trans hcls.2)
      · simp only [Function.update_of_ne hac] at ha hcls
        exact hw.unclassified a ha hcls
    client := by
      intro a
      by_cases hac : a = c
      · subst hac
        have hhere := (hw.client a).mp (by simp [hr])
        simp [hhere]
      · simp only [Function.update_of_ne hac]
        exact hw.client a
    collected := by
      intro a x hx
      obtain ⟨rfl, rfl⟩ | ⟨-, hx'⟩ := hrecord hx
      · rw [hcoll]
        exact hw.collected a r hr
      · exact hw.collected a x hx'
    sound := by
      intro a x hx
      obtain ⟨-, rfl⟩ | ⟨-, hx'⟩ := hrecord hx
      · exact hsound
      · exact hw.sound a x hx' }

/-! ### Routing -/

/-- Packets are routed by the class lists of the worker, which has this number. -/
def Routes (w : WorkerClients) (n : Net) (i : Nat) : Prop :=
  ∀ k c, c ∈ n.classes i k ↔ classesOf w.client c = some k

section

variable {n : Net} {i : Nat}

theorem Routes.classify (conn : Connection) (h : w.Routes n conn.worker) (hc : classesOf w.client c = none)
    (hstate : conn.client.state = r.session.state) (hflags : conn.client.flags = r.session.flags)
    (hcoll : r.collected = true) (hactive : r.session.active = true) :
    WorkerClients.Routes { w with client := Function.update w.client c (some r) }
      (n.classify c conn) conn.worker := by
  intro k a
  have hout : r.outClass = Aprsc.workerClassifyClient conn.client := by
    rw [WorkerClient.outClass, hcoll, hactive,
      ← outgoingClass_eq_workerClassifyClient _ _ hstate hflags]
    rfl
  rw [classesOf_update, Option.bind_some, hout]
  unfold Net.classify
  by_cases hac : a = c
  · subst hac
    have hno : ∀ k, a ∉ n.classes conn.worker k := by
      intro k hmem
      rw [(h k a).mp hmem] at hc
      cases hc
    cases Aprsc.workerClassifyClient conn.client with
    | none => simp [hno]
    | some cls =>
      by_cases hk : k = cls
      · simp [hk]
      · simp [hno, hk, Ne.symm hk]
  · rw [Function.update_of_ne hac, ← h k a]
    cases Aprsc.workerClassifyClient conn.client with
    | none => rfl
    | some cls =>
      dsimp only
      split <;> simp [hac]

/-- The loop of `collect_new_clients`. -/
theorem Routes.collect (h : w.Routes n i) (hc : classesOf w.client c = none) {d : Client}
    (hstate : d.state = r.session.state) (hflags : d.flags = r.session.flags) (noTx : Bool) :
    (w.joinClients c r).Routes (n.collect c d noTx i) i := by
  have hready : d.ready = r.session.active := by rw [Client.ready, Session.active, hstate]
  rw [joinClients_eq]
  unfold Net.collect
  dsimp only
  rw [hready]
  split
  next hactive =>
    exact Routes.classify (r := { r with collected := true }) ⟨d, noTx, i, n.count⟩ h hc hstate
      hflags rfl hactive
  next hactive =>
    intro k a
    have hout : WorkerClient.outClass { r with collected := true } = none := by
      simp [WorkerClient.outClass, hactive]
    rw [classesOf_update, Option.bind_some, hout, ← hc, Function.update_eq_self]
    exact h k a

/-- `worker_mark_client_connected`. -/
theorem Routes.markConnected {conn : Connection} (h : w.Routes n conn.worker)
    (hc : classesOf w.client c = none) {d : Client} (hstate : d.state = r.session.state) (hflags : d.flags = r.session.flags)
    (hcoll : r.collected = true) (hactive : r.session.active = true) (noTx : Bool) :
    WorkerClients.Routes { w with client := Function.update w.client c (some r) }
      (n.markConnected c conn d noTx) conn.worker :=
  Routes.classify { conn with client := d, noTx := noTx } h hc hstate hflags hcoll hactive

/-- `client_close`. -/
theorem Routes.close (h : w.Routes n i) (c : Nat) :
    (w.clientClose c).Routes (n.close c) i := by
  intro k a
  simp only [Net.close, clientClose, clientFree, classesOf_update, List.mem_filter, h k a]
  by_cases hac : a = c <;> simp [hac]

end

/-! ### Core peers -/

theorem PeersAre.update {w' : WorkerClients} {ps : List Nat} (h : w.PeersAre ps)
    {x : Option WorkerClient} (hclient : w'.client = Function.update w.client c x)
    (hx : (x.any fun r => r.collected && r.session.state == .corepeer) = w.peer c) :
    w'.PeersAre ps := by
  refine h.congr fun a => ?_
  by_cases hac : a = c
  · subst hac
    simp [peer, hclient] at hx ⊢
    exact hx
  · simp [peer, hclient, hac]

theorem PeersAre.close {ps : List Nat} (h : w.PeersAre (c :: ps)) : (w.clientClose c).PeersAre ps := by
  obtain ⟨hnot, hnodup⟩ := List.nodup_cons.mp h.nodup
  refine ⟨hnodup, fun a => ?_⟩
  by_cases hac : a = c
  · subst hac
    simp [peer, clientClose, clientFree, hnot]
  · have hmem := h.mem a
    simp only [List.mem_cons, hac, false_or] at hmem
    simpa [peer, clientClose, clientFree, hac] using hmem

theorem peer_eq_false (hr : w.client c = some r) (h : r.collected = false ∨ r.session.state ≠ .corepeer) :
    w.peer c = false := by
  obtain h | h := h <;> simp [peer, hr, h]

theorem Wf.mem_of_peer (hw : w.Wf q held) (h : w.peer c = true) : c ∈ q .clients := by
  cases hr : w.client c with
  | none => simp [peer, hr] at h
  | some r =>
    simp only [peer, hr, Option.any_some, Bool.and_eq_true] at h
    exact (hw.collected c r hr).mp h.1

/-- All core peers are closed, one after the other. -/
theorem Wf.closeAll {ps : List Nat} (hw : w.Wf q held) (hps : w.PeersAre ps) :
    ∃ q', (ps.foldl (fun w c => w.clientClose c) w).Wf q' held ∧
      (ps.foldl (fun w c => w.clientClose c) w).PeersAre [] := by
  induction ps generalizing w q with
  | nil => exact ⟨q, hw, hps⟩
  | cons c ps ih =>
    have hc : c ∈ q .clients := hw.mem_of_peer ((hps.mem c).mp List.mem_cons_self)
    exact ih (hw.close hc) hps.close

/-! ### Events -/

theorem inv_pass (h : w.Inv) (c : Nat) (n : NewClient) : (w.passClientToWorker c n).Inv := by
  obtain ⟨q, hw, hps⟩ := h
  by_cases hc : w.client c = none
  · refine ⟨_, hw.pass hc n, ?_⟩
    simp only [passClientToWorker, if_pos hc]
    intro hrun
    refine (hps hrun).update rfl ?_
    simp [peer, hc, record_not_collected]
  · rw [passClientToWorker, if_neg hc]
    exact ⟨q, hw, hps⟩

theorem inv_take (h : w.Inv) : w.takeNewClients.Inv := by
  obtain ⟨q, hw, hps⟩ := h
  by_cases hnull : w.list.mem (.head .collecting) = none
  · refine ⟨_, hw.take hnull, ?_⟩
    simp only [takeNewClients, if_pos hnull]
    exact fun hrun => (hps hrun).congr fun _ => rfl
  · rw [takeNewClients, if_neg hnull]
    exact ⟨q, hw, hps⟩

theorem inv_close (h : w.Inv) (hr : w.client c = some r) (hcoll : r.collected = true)
    (hstate : r.session.state ≠ .corepeer) : (w.clientClose c).Inv := by
  obtain ⟨q, hw, hps⟩ := h
  refine ⟨_, hw.close ((hw.collected c r hr).mp hcoll), fun hrun => (hps hrun).update rfl ?_⟩
  exact (peer_eq_false hr (.inr hstate)).symm

/-- A marker, or a client with an odd descriptor, is freed. -/
theorem inv_free (hw : w.Wf q (some c)) (hr : w.client c = some r)
    (hps : w.running = true → w.PeersAre w.corepeers) : (w.clientFree c).Inv := by
  refine ⟨q, hw.free, fun hrun => (hps hrun).update rfl (peer_eq_false hr (.inl ?_)).symm⟩
  rw [← Bool.not_eq_true]
  exact mt (hw.collected c r hr).mp (hw.held c rfl _)

theorem inv_addCorepeer (hw : w.Wf q held) (hheld : held = none) (hr : w.client c = some r)
    (hcoll : r.collected = true) (hstate : r.session.state = .corepeer) {ps : List Nat}
    (hcore : w.corepeers = ps) (hps : ps.Nodup) (hmem : ∀ a, a ∈ ps ↔ a ≠ c ∧ w.peer a = true) :
    (w.addCorepeer c r).Inv := by
  subst hheld hcore
  unfold addCorepeer
  split
  · exact ⟨q, { hw with }, nofun⟩
  · have hreclass := @Wf.reclass _ _ _ _ _ hw hr
      { r with fd := -(w.corepeers.length : Int) - 100, collected := true } none
      hcoll.symm (hw.sound c r hr) (by simp [WorkerClient.outClass, hcoll]) (fun h => absurd rfl h)
    refine ⟨q, { hreclass with }, fun _ => ⟨?_, fun a => ?_⟩⟩
    · rw [List.nodup_append]
      refine ⟨hps, List.nodup_singleton c, ?_⟩
      rintro a ha b hb rfl
      exact ((hmem a).mp ha).1 (List.mem_singleton.mp hb)
    · rw [List.mem_append, List.mem_singleton, hmem]
      by_cases hac : a = c
      · subst hac
        simp [peer, hstate]
      · simp [peer, hac]

theorem inv_collect (h : w.Inv) (hrun : w.running = true) (room : Bool) (o : WriteOutcome) :
    (w.collectNewClient room o).Inv := by
  have hinv := h
  obtain ⟨q, hw, hps⟩ := h
  unfold collectNewClient
  split
  · exact hinv
  next c hhead =>
    split
    · exact hinv
    next r hr =>
      obtain ⟨ns, hq⟩ := hw.list.lists.queues.eq_cons (hw.list.lists.terminated _) hhead
      have hadv := hw.advance hq
      have hfree := hadv.held c rfl
      have hcoll : r.collected = false := by
        rw [← Bool.not_eq_true]
        exact mt (hadv.collected c r hr).mp (hfree _)
      dsimp only
      by_cases hfd : r.fd < -1
      · rw [if_pos hfd]
        by_cases hmark : r.fd = -2
        · rw [if_pos hmark]
          obtain ⟨q', hall, hnone⟩ := @Wf.closeAll _ _ _ w.corepeers hadv
            ((hps hrun).congr fun _ => rfl)
          -- The marker is in no list, and none of the closes frees it.
          obtain ⟨r', hr'⟩ := Option.ne_none_iff_exists'.mp ((hall.client c).mpr (.inr rfl))
          exact inv_free (q := q') { hall with } hr' fun _ => hnone.congr fun _ => rfl
        · rw [if_neg hmark]
          exact inv_free hadv hr fun hrun => (hps hrun).congr fun _ => rfl
      · rw [if_neg hfd]
        have hjoin := hadv.join hr
        have hnew : (({ w with list := w.list.advance .collecting c } : WorkerClients).joinClients
            c r).client = Function.update w.client c (some { r with collected := true }) := by
          rw [joinClients_eq]
        have hkeep : (({ w with list := w.list.advance .collecting c } : WorkerClients).joinClients
            c r).corepeers = w.corepeers := by
          rw [joinClients_eq]
        generalize ({ w with list := w.list.advance .collecting c } : WorkerClients).joinClients c r = w₁
          at hjoin hnew hkeep
        have hr₁ : w₁.client c = some { r with collected := true } := by
          rw [hnew, Function.update_self]
        have hnot : w.peer c = false := peer_eq_false hr (.inl hcoll)
        by_cases hstate : r.session.state = .corepeer
        · rw [if_pos hstate]
          have hadd := inv_addCorepeer hjoin rfl hr₁ rfl hstate hkeep (hps hrun).nodup (by
            intro a
            rw [(hps hrun).mem]
            by_cases hac : a = c
            · subst hac
              simp [hnot]
            · simp [peer, hnew, hac])
          exact hadd
        · rw [if_neg hstate]
          have hinv₁ : w₁.Inv := by
            refine ⟨_, hjoin, fun _ => ?_⟩
            rw [hkeep]
            exact (hps hrun).update hnew (by simp [hnot, hstate])
          split
          · exact inv_close hinv₁ hr₁ rfl hstate
          · exact hinv₁

theorem inv_line (h : w.Inv) (hr : w.client c = some r) (hcoll : r.collected = true)
    (hstate : r.session.state ≠ .corepeer) (env : HandlerEnv) (udp : Bool)
    (cert : Option CertCheck) (outs : Nat → WriteOutcome) (s : Bytes) :
    (w.lineIn c env udp cert outs s r).Inv := by
  have hinv := h
  obtain ⟨q, hw, hps⟩ := h
  have hafter := @handlerLineIn_after env udp s
    ⟨{ r.session with cert := cert }, true, false, outs, []⟩ (hw.sound c r hr)
  unfold lineIn
  dsimp only
  generalize (handlerLineIn env udp s
    ⟨{ r.session with cert := cert }, true, false, outs, []⟩).2 = res at hafter
  cases halive : res.alive with
  | false =>
    rw [if_neg nofun]
    exact inv_close hinv hr hcoll hstate
  | true =>
    rw [if_pos rfl]
    have hclass : r.session.state = res.obj.state →
        WorkerClient.outClass { r with session := res.obj } = r.outClass := by
      intro heq
      have hflags : res.obj.flags = r.session.flags := hafter.flags
      simp [WorkerClient.outClass, Session.active, Session.outgoingClass, Session.has, hflags, heq]
    have hpeers : ∀ {w' : WorkerClients}, w'.client =
        Function.update w.client c (some { r with session := res.obj }) →
        w'.corepeers = w.corepeers → w'.running = w.running →
        res.obj.state ≠ .corepeer → w'.running = true → w'.PeersAre w'.corepeers := by
      intro w' hclient hcore hrun hres hrun'
      rw [hcore]
      refine (hps (hrun ▸ hrun')).update hclient ?_
      rw [peer_eq_false hr (.inr hstate)]
      simp [hres]
    by_cases hin : r.session.handlerLineIn = .incoming
    · have hst : res.obj.state = r.session.state := hafter.incoming hin
      rw [if_neg (fun h => h.1 hin)]
      refine ⟨q, ?_, hpeers rfl rfl rfl (hst ▸ hstate)⟩
      have hre := @Wf.reclass _ _ _ _ _ hw hr { r with session := res.obj } none rfl hafter.sound
        (by rw [hclass hst.symm, Option.none_or]) (fun h => absurd rfl h)
      exact { hre with }
    · have hres : res.obj.state ≠ .corepeer := hafter.login hin
      obtain ⟨hconn, -⟩ := hw.sound c r hr hin
      have hold : r.outClass = none := by
        simp [WorkerClient.outClass, Session.active, hconn, hstate]
      by_cases hmark : res.obj.state = .connected
      · rw [if_pos ⟨hin, hmark⟩, workerClassifyClient_eq]
        refine ⟨q, ?_, hpeers rfl rfl rfl hres⟩
        exact @Wf.reclass _ _ _ _ _ hw hr { r with session := res.obj } _ rfl hafter.sound
          (by rw [hold, Option.or_none]; simp [WorkerClient.outClass, hcoll, Session.active, hmark])
          (fun _ => hold)
      · rw [if_neg (fun h => hmark h.2)]
        refine ⟨q, ?_, hpeers rfl rfl rfl hres⟩
        have hre := @Wf.reclass _ _ _ _ _ hw hr { r with session := res.obj } none rfl hafter.sound
          (by simp [WorkerClient.outClass, Session.active, hmark, hres, hconn, hstate])
          (fun h => absurd rfl h)
        exact { hre with }

/-- Every event keeps the invariant. -/
theorem workerStep_inv (w : WorkerClients) (e : WorkerEvent) (h : w.Inv) : (workerStep w e).Inv := by
  cases e with
  | pass c n => exact inv_pass h c n
  | take =>
    simp only [workerStep]
    split
    · exact inv_take h
    · exact h
  | collect room o =>
    simp only [workerStep]
    split
    next hrun => exact inv_collect h hrun room o
    · exact h
  | line c env udp cert outs s =>
    simp only [workerStep]
    split
    next r hr =>
      split
      next hg => exact inv_line h hr hg.2.1 hg.2.2 env udp cert outs s
      · exact h
    · exact h
  | close c =>
    simp only [workerStep]
    split
    next r hr =>
      split
      next hg => exact inv_close h hr hg.2.1 hg.2.2
      · exact h
    · exact h
  | shutdown =>
    obtain ⟨q, hw, -⟩ := h
    exact ⟨q, { hw with }, nofun⟩
  | shutdownClose c =>
    simp only [workerStep]
    split
    next r hr =>
      split
      next hg =>
        obtain ⟨q, hw, -⟩ := h
        refine ⟨_, hw.close ((hw.collected c r hr).mp hg.2), fun hrun => ?_⟩
        rw [show (w.clientClose c).running = w.running from rfl, hg.1] at hrun
        cases hrun
      · exact h
    · exact h

end

/-! ## Result -/

/-- A client of the worker that has been collected and not closed. -/
def LiveClient (w : WorkerClients) (c : Nat) (r : WorkerClient) : Prop :=
  w.client c = some r ∧ r.collected = true

/-- `self->clients` leads to the clients of the worker, each of them once, and the class lists
to the clients that belong in them. The back pointers are the addresses of the links to the
clients, and the counter is the length of the list. -/
structure Consistent (w : WorkerClients) (clients : List Nat) (classes : ClientClass → List Nat) :
    Prop where
  chain : Chain w.list.mem (.head .clients) clients
  ends : w.list.mem (endLoc (.head .clients) clients) = none
  nodup : clients.Nodup
  live : ∀ c, c ∈ clients ↔ ∃ r, w.LiveClient c r
  class_chain : ∀ k, Chain w.classes.mem (.head k) (classes k)
  class_ends : ∀ k, w.classes.mem (endLoc (.head k) (classes k)) = none
  class_nodup : ∀ k, (classes k).Nodup
  classified : ∀ k c, c ∈ classes k ↔
    ∃ r, w.LiveClient c r ∧ r.session.active = true ∧ r.session.outgoingClass = some k
  prevp : ∀ c ∈ clients, ∃ l, w.list.prevp c = some l ∧ w.list.mem l = some c
  class_prevp : ∀ k, ∀ c ∈ classes k, ∃ l, w.classes.prevp c = some l ∧ w.classes.mem l = some c
  unclassified : ∀ c ∈ clients, (∀ k, c ∉ classes k) → w.classes.prevp c = none
  count : w.clientCount = clients.length

theorem Wf.consistent {w : WorkerClients} {q : ClientHead → List Nat} (hw : w.Wf q none) :
    ∃ clients classes, w.Consistent clients classes := by
  obtain ⟨classes, hr, hmem⟩ := hw.classes
  have hout : ∀ c k, classesOf w.client c = some k ↔
      ∃ r, w.LiveClient c r ∧ r.session.active = true ∧ r.session.outgoingClass = some k := by
    intro c k
    simp only [classesOf, LiveClient, Option.bind_eq_some_iff, WorkerClient.outClass]
    constructor
    · rintro ⟨r, hr, hk⟩
      split at hk
      next hboth =>
        rw [Bool.and_eq_true] at hboth
        exact ⟨r, ⟨hr, hboth.1⟩, hboth.2, hk⟩
      · cases hk
    · rintro ⟨r, ⟨hr, hcoll⟩, hactive, hk⟩
      exact ⟨r, hr, by simp [hcoll, hactive, hk]⟩
  refine ⟨q .clients, classes, ?_⟩
  exact {
    chain := hw.list.lists.queues.chain _
    ends := hw.list.lists.terminated _
    nodup := hw.list.lists.queues.nodup _
    live := by
      intro c
      constructor
      · intro hc
        obtain ⟨r, hr⟩ := Option.ne_none_iff_exists'.mp ((hw.client c).mpr (.inl ⟨_, hc⟩))
        exact ⟨r, hr, (hw.collected c r hr).mpr hc⟩
      · rintro ⟨r, hr, hcoll⟩
        exact (hw.collected c r hr).mp hcoll
    class_chain := hr.lists.queues.chain
    class_ends := hr.lists.terminated
    class_nodup := hr.lists.queues.nodup
    classified := fun k c => (hmem c k).trans (hout c k)
    prevp := fun c hc => hw.list.link (h := .clients) nofun hc
    class_prevp := fun k c hc => hr.link trivial hc
    unclassified := by
      intro c hc hnot
      refine hw.unclassified c ((hw.client c).mpr (.inl ⟨_, hc⟩)) ?_
      cases hcls : classesOf w.client c with
      | none => rfl
      | some k => exact absurd ((hmem c k).mpr hcls) (hnot k)
    count := hw.count }

end WorkerClients

/-- Whatever is passed to a worker, collected, logged in and closed, and in whatever order, its
lists are consistent after every event. -/
theorem client_lists_consistent (events : List WorkerEvent) :
    Always workerStep (fun w => ∃ clients classes, w.Consistent clients classes)
      WorkerClients.init events := by
  refine Always.imp (P := WorkerClients.Inv) ?_
    (always_of_step WorkerClients.workerStep_inv WorkerClients.init_inv events)
  rintro w ⟨q, hw, -⟩
  exact hw.consistent

end Aprsc
