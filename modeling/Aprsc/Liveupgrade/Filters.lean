-- SUMMARY: The filters of a client over a connection, what a live upgrade saves of them, and how they are restored.
import Aprsc.Filter.Model
import Aprsc.Server.Cfgfile

/-!
# Filters over a live upgrade

The filters of a client are those of its listener and those that the user gives in the
login and in filter commands. Only the text that is shown on the status page is saved in
a live upgrade. The new process parses the filters of the listener and then the words of
the saved text, as filters of the user.

There is memory for every filter here.
-/

namespace Aprsc

/-! ## Clients and listeners -/

/-- The position that a client has sent, in some format of numbers. -/
structure ClientLoc (F : Type) where
  lat : F
  lng : F
  cosLat : F
deriving DecidableEq

/-- What the filters of a client use of the rest of the server. -/
structure ClientEnv (F : Type) extends FilterEnv where
  /-- The packet is in the range of an m filter, from the position of the client or from
  the history when it has sent none. -/
  inMyRange : Option (ClientLoc F) → Bytes → FilterPacket → Bool
  /-- A number that is printed by cJSON and parsed again. -/
  jsonNumber : F → F

/-- The specification is one of type m. -/
def isMyRange (filt0 : Bytes) : Bool :=
  let filt := if filt0.head? = some (ch '-') then filt0.drop 1 else filt0
  tolower (filt.headD 0) == ch 'm'

variable {F : Type}

/-- Filters are evaluated for a client at a position. -/
def ClientEnv.located (env : ClientEnv F) (loc : Option (ClientLoc F)) : FilterEnv :=
  { env.toFilterEnv with
    inRange := fun text pb =>
      if isMyRange text then env.inMyRange loc text pb else env.inRange text pb }

/-- The fields of `struct listen_t` that `filter_process` depends on. -/
structure FilterListener where
  filters : List Bytes
  /-- `CLFLAGS_USERFILTEROK`. -/
  userfilterok : Bool
  /-- `CLFLAGS_IGATE`. -/
  igate : Bool

/-- `l->filter_s`, as `listener_copy_filters` builds it. Filters are joined as they are in
a login. -/
def FilterListener.filterS (l : FilterListener) : Bytes :=
  sanitizeAsciiString (loginFilterS [] l.filters)

/-- The fields of `struct client_t` that filters depend on. -/
structure FilterClient (F : Type) where
  filters : FilterState
  filterS : Bytes
  /-- The position, when `loc_known`. -/
  loc : Option (ClientLoc F)
  /-- `handler_line_in` is `incoming_handler`. -/
  loggedIn : Bool

/-! ## Filters of a connection -/

/-- `filter_parse` on one text after the other. -/
def filterParseAll (env : FilterEnv) (userfilterok isUserFilter : Bool) (filts : List Bytes)
    (s : FilterState) : Option FilterState :=
  filts.foldlM (fun s filt => filterParse env userfilterok s ⟨filt, isUserFilter, true⟩) s

/-- `filter_free` on the chains of the user. -/
def FilterState.freeUser (s : FilterState) : FilterState where
  chains := { s.chains with neguserfilters := [], posuserfilters := [] }
  accepted := s.accepted.filter (!·.isUserFilter)

/-- `accept_client_for_listener`. -/
def FilterListener.acceptClientForListener (l : FilterListener) (env : ClientEnv F) :
    Option (FilterClient F) :=
  (filterParseAll env.toFilterEnv l.userfilterok false l.filters .init).map fun filters =>
    { filters, filterS := l.filterS, loc := none, loggedIn := false }

/-- What a filter command asks for. -/
inductive FilterCommand where
  /-- The filters stay as they are. -/
  | other
  | reset
  | set (text : Bytes)
deriving Repr, DecidableEq

/-- The branches of `filter_commands`. The text is used as a C string. -/
def filterCommand (s : Bytes) : FilterCommand :=
  let s := s.drop 6
  if s = ascii "?" then .other
  else if s.head? ≠ some (ch ' ') then .other
  else if caseEq (s.drop 1) (ascii "default") then .reset
  else .set ((s.drop 1).takeWhile (· != 0))

/-- The copy of the text of a filter command. -/
def statusCopy (text : Bytes) : Bytes := sanitizeAsciiString (text.take (filterSSize - 1))

section
variable (env : ClientEnv F) (l : FilterListener) (c : FilterClient F)

/-- `filter_commands` without its replies. -/
def FilterClient.filterCommands (s : Bytes) : Option (FilterClient F) :=
  match filterCommand s with
  | .other => some c
  | .reset => some { c with filters := c.filters.freeUser }
  | .set text =>
      (filterParseAll env.toFilterEnv l.userfilterok true (parseArgs text) c.filters.freeUser).map
        fun filters => { c with filters, filterS := statusCopy text }

/-- What `login_handler` does with the words after the filter option, if there is one. -/
def FilterClient.login (filters : Option (List Bytes)) : Option (FilterClient F) :=
  match filters, l.userfilterok with
  | some args, true =>
      (filterParseAll env.toFilterEnv l.userfilterok true args c.filters).map fun filters =>
        { c with
          filters
          filterS := sanitizeAsciiString (loginFilterS c.filterS args)
          loggedIn := true }
  | _, _ => some { c with filterS := sanitizeAsciiString c.filterS, loggedIn := true }

end

inductive ClientEvent (F : Type) where
  /-- A login that succeeds, with the words after its filter option. -/
  | login (filters : Option (List Bytes))
  /-- A line or a message to the server, from the word `filter` on. -/
  | command (inMessage : Bool) (s : Bytes)
  /-- A packet with the position of the client. -/
  | position (loc : ClientLoc F)

/-- What the line handlers do with the filters of a client. Messages are not checked for
`CLFLAGS_USERFILTEROK`. -/
def clientEvent (env : ClientEnv F) (l : FilterListener) (c : FilterClient F) :
    ClientEvent F → Option (FilterClient F)
  | .login filters => if c.loggedIn then some c else c.login env l filters
  | .command inMessage s =>
      if c.loggedIn && (inMessage || l.userfilterok) then c.filterCommands env l s else some c
  | .position loc => if c.loggedIn then some { c with loc := some loc } else some c

/-! ## Live upgrade -/

/-- The items of the JSON of a client that its filters are restored from. -/
structure ClientJson (F : Type) where
  connected : Bool
  filter : Bytes
  /-- `lat` and `lng`. -/
  loc : Option (F × F)

/-- `worker_client_json`. -/
def FilterClient.workerClientJson (c : FilterClient F) : ClientJson F where
  connected := c.loggedIn
  filter := c.filterS
  loc := c.loc.map fun loc => (loc.lat, loc.lng)

/-- The position of a restored client. `cos_lat` is left at zero. -/
def ClientEnv.restoredLoc [Zero F] (env : ClientEnv F) (loc : F × F) : ClientLoc F :=
  { lat := env.jsonNumber loc.1, lng := env.jsonNumber loc.2, cosLat := 0 }

/-- `accept_liveupgrade_single`. -/
def FilterListener.acceptLiveupgradeSingle [Zero F] (l : FilterListener) (env : ClientEnv F)
    (json : ClientJson F) : Option (FilterClient F) := do
  let c ← l.acceptClientForListener env
  let c := { c with loggedIn := json.connected, loc := json.loc.map env.restoredLoc }
  if l.userfilterok && !json.filter.isEmpty then
    let filters ← filterParseAll env.toFilterEnv l.userfilterok true (parseArgs json.filter) c.filters
    pure { c with filters, filterS := statusCopy json.filter }
  else pure c

end Aprsc
