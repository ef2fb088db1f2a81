-- SUMMARY: What a line from a client does to the whole server: the queue, the tables, and the client itself.
import Aprsc.Outgoing.Routing
import Aprsc.Server.Tables
import Aprsc.Worker.Handlers

/-!
# Lines and the server

`incoming_parse` decides late whether a packet is queued. Before that it may reply to the
client or take down its position; after that it inserts the packet into the tables of the
filters and into the heard list of the client. The packets and the tables are shared by
all clients, and the rest belongs to the client that sent the line.
-/

namespace Aprsc

/-! ## The server -/

/-- What all clients share: the clients and the packets, the tables of the filters, and the
heard lists of the clients. -/
structure Shared where
  net : Net
  entrycall : FilterTable
  wx : FilterTable
  heard : Nat → HeardList

/-- What a client has to itself: its location, if `loc_known`, and what the line handlers
read and write. -/
structure Own where
  loc : Option Position
  session : Resource Session WriteOutcome

/-- The server. Clients are known by their address. -/
structure Site where
  shared : Shared
  own : Nat → Own

/-- The session of a client that has just connected. -/
def freshSession (c : Session) : Resource Session WriteOutcome :=
  { obj := c, alive := true, misused := false, outs := fun _ => .sent, made := [] }

/-- What the handler of a line reads from outside. -/
structure SiteEnv extends LineEnv where
  haveFilteredListeners : Bool
  /-- There is a cell for an entry igate, or for a weather station. -/
  entrycallCell : Bool
  wxCell : Bool
  /-- The cell for an entry of a heard list, if there is one. -/
  heardCell : Option Bytes
  parseAprsMessage : Pbuf → Option AprsMessage
  handlers : HandlerEnv
  /-- The line came by UDP. -/
  udp : Bool
  /-- What the writes to the client will do. -/
  writes : Nat → WriteOutcome

/-! ## incoming_parse -/

/-- A packet after `parse_aprs`: its path, whether its source is the client, what the parser
returned, and the buffer. -/
structure Parsed where
  via : Bytes
  originated : Bool
  rc : Int
  pb : Pbuf

/-- `incoming_parse` up to the return of `parse_aprs`. -/
def parsedPacket (env : IncomingEnv) (c : Client) (line : Bytes) : Except Int Parsed :=
  match lineOf env c line with
  | .error rc => .error rc
  | .ok s =>
  match parseHeader env.cfg s with
  | .error rc => .error rc
  | .ok h =>
      let originated := c.username == h.src s
      match (qProcess env.cfg env.clientlist (env.mem.load s) c h.viaStart h.pathlen originated).val with
      | .error rc => .error rc
      | .ok q =>
          match rewritePacket env c h s.length originated (h.src s) q with
          | .error rc => .error rc
          | .ok pb =>
              let r := (parseAprsPbuf env pb).val.getD (0, pb.aprsFields)
              .ok ⟨q.area.slice h.viaStart (h.pathlen - h.viaStart), originated, r.1, pb.withAprs r.2⟩

/-- A line that `incoming_handler` passes to `incoming_parse`. -/
def isPacket (s : Bytes) : Bool := s.length ≤ packetlenMax - 2 && s.head? != some (ch '#')

/-- The packet is queued after it has left its marks in the tables. -/
def Shared.queue (env : SiteEnv) (p : Nat) (c : Connection) (pb : Pbuf) (g : Shared) : Shared where
  net := { g.net with queued := g.net.queued ++ [⟨pb, p, c⟩] }
  entrycall :=
    if env.haveFilteredListeners then
      filterEntrycallInsert env.tick env.entrycallCell pb g.entrycall
    else g.entrycall
  wx := if env.haveFilteredListeners then filterWxInsert env.tick env.wxCell pb g.wx else g.wx
  heard :=
    if c.client.has clflagsIgate then
      Function.update g.heard p (clientHeardUpdate env.heardCell pb (g.heard p))
    else g.heard

namespace Site

/-- Write what belongs to one client. -/
def setOwn (w : Site) (p : Nat) (o : Own) : Site := { w with own := Function.update w.own p o }

/-- `client_loc_update`. -/
def clientLocUpdate (w : Site) (p : Nat) (pos : Position) : Site :=
  w.setOwn p { w.own p with loc := some pos }

/-- A client that has sent its own position is there. -/
def noteLocation (p : Nat) (q : Parsed) (w : Site) : Site :=
  if q.originated && q.pb.packettype &&& tPosition != 0 then
    w.clientLocUpdate p q.pb.position
  else w

/-- Run a handler on the client at `p`. -/
def runHandler (w : Site) (p : Nat) (writes : Nat → WriteOutcome) (x : ClientM Int) : Site :=
  w.setOwn p
    { w.own p with session := (x { (w.own p).session with outs := writes, made := [] }).2 }

/-- `incoming_parse`. A reply to a message to `SERVER` is left to the caller. -/
def incomingParse (env : SiteEnv) (p : Nat) (c : Connection) (line : Bytes) (w : Site) :
    ParseEnd × Site :=
  match parsedPacket env.toIncomingEnv c.client line with
  | .error rc => (.done rc, w)
  | .ok q =>
      if q.rc < 0 then (.done q.rc, w)
      else if toServer q.rc q.pb then
        if q.originated then
          (.toServer ((q.pb.data.drop q.pb.srcname).take q.pb.srcnameLen)
            (env.parseAprsMessage q.pb), w)
        else (.done q.rc, w)
      else if q.pb.packettype &&& tQuery != 0 then (.done inerrGeneralQuery, w)
      else
        -- also for clients whose packets are not allowed, whose `m` filter needs it
        let w := w.noteLocation p q
        if env.cfg.disallowUnverified && !c.client.validated then (.done inerrDisallowUnverified, w)
        else if env.cfg.disallowUnverified && (findSub (ascii ",TCPXX") q.via).isSome then
          (.done inerrDisallowUnverifiedPath, w)
        else
          (.done q.rc,
            { w with shared := w.shared.queue env p c (filterPreprocessDupefilter q.pb) })

/-- `incoming_handler`. -/
def incomingHandler (env : SiteEnv) (p : Nat) (c : Connection) (s : Bytes) (w : Site) : Site :=
  let r := if isPacket s then w.incomingParse env p c s else (.done 0, w)
  r.2.runHandler p env.writes
    (Aprsc.incomingHandler { env.handlers with incomingParse := fun _ _ => r.1 } env.udp s)

end Site

/-! ## Runs -/

/-- What may happen next. -/
inductive SiteAction where
  | collect (p : Nat) (client : Client) (noTx : Bool) (w : Nat) (session : Session)
  /-- A step of routing other than a new client or a line. -/
  | net (act : NetAction)
  | line (p : Nat) (env : SiteEnv) (s : Bytes)
  /-- The main thread cleans up the tables. -/
  | cleanup (env : HistorydbEnv) (tick : Int)
  | dupecheckCleanup (env : DupecheckEnv) (tick : Int)
  /-- `client_heard_expire`, for the client at `p`. -/
  | heardExpire (p : Nat) (storetime tick : Int)

namespace Site

/-- A line from the client at `p`. Before the client is logged in, its lines go to another
handler. -/
def line (w : Site) (p : Nat) (env : SiteEnv) (s : Bytes) : Site :=
  match w.shared.net.conns p with
  | none => w
  | some c =>
      if c.client.ready then w.incomingHandler env p c s
      else w.runHandler p env.writes (handlerLineIn env.handlers env.udp s)

/-- One step. What cannot happen changes nothing. A client that a handler has closed is taken
off the lists by a step of its own. -/
def step (w : Site) : SiteAction → Site
  | .collect p client noTx wk session =>
      if w.shared.net.conns p = none then
        { shared :=
            { w.shared with
              net := w.shared.net.collect p client noTx wk
              heard := Function.update w.shared.heard p .init }
          own := Function.update w.own p ⟨none, freshSession session⟩ }
      else w
  | .net act =>
      match act with
      | .collect .. => w
      | .line .. => w
      | act => { w with shared := { w.shared with net := w.shared.net.step act } }
  | .line p env s => w.line p env s
  | .cleanup env tick =>
      { w with
        shared :=
          { w.shared with
            net :=
              { w.shared.net with
                dbs :=
                  { w.shared.net.dbs with
                    history := historydbCleanup env tick w.shared.net.dbs.history } }
            wx := filterWxCleanup tick w.shared.wx
            entrycall := filterEntrycallCleanup tick w.shared.entrycall } }
  | .dupecheckCleanup env tick =>
      { w with
        shared :=
          { w.shared with
            net :=
              { w.shared.net with
                dbs :=
                  { w.shared.net.dbs with
                    dupe := Aprsc.dupecheckCleanup env tick w.shared.net.dbs.dupe } } } }
  | .heardExpire p storetime tick =>
      { w with
        shared :=
          { w.shared with
            heard := Function.update w.shared.heard p
              (heardExpireSingle storetime tick (w.shared.heard p)) } }

/-- A run. -/
def run (w : Site) (acts : List SiteAction) : Site := acts.foldl step w

end Site

/-! ## What a line does -/

/-- `incoming_parse` ends with the last checks on the packet. -/
theorem incomingParse_eq (env : IncomingEnv) (c : Client) (line : Bytes) :
    incomingParse env c line =
      match parsedPacket env c line with
      | .error rc => .dropped rc
      | .ok q => queuePbuf env c q.via q.originated q.rc q.pb := by
  unfold incomingParse parsedPacket
  cases hline : lineOf env c line with
  | error rc => rfl
  | ok s =>
  simp only
  unfold incomingParseLine
  cases hheader : parseHeader env.cfg s with
  | error rc => rfl
  | ok h =>
  simp only
  cases hq : (qProcess env.cfg env.clientlist (env.mem.load s) c h.viaStart h.pathlen
      (c.username == h.src s)).val with
  | error rc => rfl
  | ok q =>
  simp only
  cases hpb : rewritePacket env c h s.length (c.username == h.src s) (h.src s) q with
  | error rc => rfl
  | ok pb => rfl

namespace Site

theorem runHandler_shared (w : Site) (p : Nat) (writes : Nat → WriteOutcome) (x : ClientM Int) :
    (w.runHandler p writes x).shared = w.shared := rfl

theorem noteLocation_shared (p : Nat) (q : Parsed) (w : Site) :
    (w.noteLocation p q).shared = w.shared := by
  unfold noteLocation
  split <;> rfl

theorem noteLocation_own (p : Nat) (q : Parsed) (w : Site) :
    ∃ o, (w.noteLocation p q).own = Function.update w.own p o := by
  unfold noteLocation
  split
  next => exact ⟨_, rfl⟩
  next => exact ⟨w.own p, by simp⟩

/-- What `incoming_parse` shares is the packet that it queues, with its marks. -/
theorem incomingParse_shared (env : SiteEnv) (p : Nat) (c : Connection) (line : Bytes) (w : Site) :
    (w.incomingParse env p c line).2.shared =
      match Aprsc.incomingParse env.toIncomingEnv c.client line with
      | .dropped _ => w.shared
      | .queued _ pb => w.shared.queue env p c pb := by
  rw [incomingParse_eq]
  unfold incomingParse
  cases parsedPacket env.toIncomingEnv c.client line with
  | error rc => rfl
  | ok q =>
  simp only
  unfold queuePbuf
  split
  next => rfl
  next =>
  split
  next => split <;> rfl
  next =>
  split
  next => rfl
  next =>
  split
  next => exact w.noteLocation_shared p q
  next =>
  split
  next => exact w.noteLocation_shared p q
  next => simp only [noteLocation_shared]

/-- What `incoming_parse` does not share belongs to the client. -/
theorem incomingParse_own (env : SiteEnv) (p : Nat) (c : Connection) (line : Bytes) (w : Site) :
    ∃ o, (w.incomingParse env p c line).2.own = Function.update w.own p o := by
  have hsame : ∃ o, w.own = Function.update w.own p o := ⟨w.own p, by simp⟩
  unfold incomingParse
  split
  next => exact hsame
  next q _ =>
  split
  next => exact hsame
  next =>
  split
  next => split <;> exact hsame
  next =>
  split
  next => exact hsame
  next =>
  simp only
  split
  next => exact w.noteLocation_own p q
  next => split <;> exact w.noteLocation_own p q

end Site

end Aprsc
