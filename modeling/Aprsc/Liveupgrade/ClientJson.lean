-- SUMMARY: The JSON dump of a client for a live upgrade, and the client that is restored from it.
import Aprsc.Liveupgrade.Heard
import Aprsc.Liveupgrade.Buffers
import Aprsc.Outgoing.Routing
import Aprsc.Server.Config
import Aprsc.Worker.Login
import Mathlib.Algebra.Ring.Int.Defs

/-!
# Clients in a live upgrade

`worker_client_json` writes a client as a JSON object, and `accept_liveupgrade_single`
makes a client of the listener and fills it in from the object. The two list the items by
hand. Numbers are printed and parsed by cJSON in between.
-/

namespace Aprsc

/-! ## cJSON -/

/-- A number that is added to an object: an integer or a `float`. -/
inductive JsonNumber where
  | int (n : Int)
  | float (f : FloatBits)
deriving Repr, DecidableEq

inductive JsonItem where
  | number (n : JsonNumber)
  | string (s : Bytes)
  | array (items : List JsonItem)

/-- The items of an object, with their names. -/
abbrev JsonObject := List (String × JsonItem)

/-- `cJSON_GetObjectItem`. Names are compared without regard to case. All of them are in
lower case here. -/
def getObjectItem : (tree : JsonObject) → (key : String) → Option JsonItem
  | [], _ => none
  | (name, item) :: rest, key => if name = key then some item else getObjectItem rest key

/-- What is read from a number that was printed and parsed. -/
structure CJson where
  valueint : JsonNumber → Int
  /-- `valuedouble`, as a `long long`. -/
  valuedouble : JsonNumber → Int
  /-- `valuedouble`, as a `float`. -/
  valuefloat : JsonNumber → FloatBits
  valueint_int : ∀ n : Int, -2 ^ 31 ≤ n → n < 2 ^ 31 → valueint (.int n) = n
  valuedouble_int : ∀ n : Int, -2 ^ 31 ≤ n → n < 2 ^ 31 → valuedouble (.int n) = n

/-- The type `cJSON_Number`. -/
def JsonItem.number? : JsonItem → Option JsonNumber
  | .number n => some n
  | _ => none

/-- The type `cJSON_String`. -/
def JsonItem.string? : JsonItem → Option Bytes
  | .string s => some s
  | _ => none

/-- The type `cJSON_Array`. -/
def JsonItem.array? : JsonItem → Option (List JsonItem)
  | .array items => some items
  | _ => none

/-! ## Clients -/

/-- `localaccount`. -/
structure Traffic where
  rxbytes : Int
  txbytes : Int
  rxpackets : Int
  txpackets : Int
  rxdrops : Int
  rxdupes : Int
  rxerrs : List Int
deriving Repr, DecidableEq

def inerrBuckets : Nat := 37

/-- The account of a new client. -/
def Traffic.init : Traffic := ⟨0, 0, 0, 0, 0, 0, List.replicate inerrBuckets 0⟩

/-- `clientaccount_add_rx`. -/
def Traffic.addRx (rxbytes rxpackets rxerr rxdupes : Int) (a : Traffic) : Traffic :=
  let bucket := if rxerr < 1 - (inerrBuckets : Int) then 0 else (-rxerr).toNat
  { a with
    rxbytes := a.rxbytes + rxbytes
    rxpackets := a.rxpackets + rxpackets
    rxdupes := a.rxdupes + rxdupes
    rxdrops := if rxerr < 0 then a.rxdrops + 1 else a.rxdrops
    rxerrs := if rxerr < 0 then a.rxerrs.modify bucket (· + 1) else a.rxerrs }

/-- `clientaccount_add_tx`. -/
def Traffic.addTx (txbytes txpackets : Int) (a : Traffic) : Traffic :=
  { a with txbytes := a.txbytes + txbytes, txpackets := a.txpackets + txpackets }

/-- The fields of `struct client_t` that a live upgrade writes down. -/
structure LiveClient where
  fd : Int
  listenerId : Int
  /-- `ai_protocol` is SCTP. -/
  sctp : Bool
  addrRem : Bytes
  addrLoc : Bytes
  connectTime : Int
  connectTick : Int
  lastRead : Int
  localaccount : Traffic
  login : LoginClient
  iobufs : Iobufs
  heard : HeardList
  courtesy : HeardList
  /-- The location, if `loc_known`. -/
  loc : Option Position
  certSubject : Bytes
  certIssuer : Bytes

abbrev LiveClient.session (c : LiveClient) : Session := c.login.session

/-- `listen_t`, as far as its clients are concerned. -/
structure LiveListener where
  listenerId : Int
  clientFlags : UInt32
  sctp : Bool
  /-- `client_udp_find` finds a socket on its port. -/
  udpclient : Bool
  filterS : Bytes
  /-- `listener_id` is an `int`. -/
  id_range : -2 ^ 31 ≤ listenerId ∧ listenerId < 2 ^ 31
  /-- The flags of every type of port start from `CLFLAGS_INPORT`. -/
  inport : clientFlags &&& clflagsInport ≠ 0

/-! ## Writing -/

/-- `client_state_string`. -/
def clientStateString : CState → Bytes
  | .connected => ascii "connected"
  | .init => ascii "init"
  | .login => ascii "login"
  | .logresp => ascii "logresp"
  | .udp => ascii "udp"
  | .corepeer => ascii "corepeer"

/-- The address without its port. -/
def cutPort (addr : Bytes) : Bytes :=
  let s := addr.take 79
  if s.contains (ch ':') then ((s.reverse.dropWhile (· != ch ':')).drop 1).reverse else s

/-- The client has asked for a UDP feed. -/
def LiveClient.hasFeed (c : LiveClient) : Bool := c.session.udpPort != 0 && c.session.udpclient

def jsonInt (n : Int) : JsonItem := .number (.int n)

/-- An item that is there under a condition. -/
def itemIf (cond : Bool) (key : String) (item : JsonItem) : JsonObject :=
  if cond then [(key, item)] else []

def itemOf (key : String) : Option Bytes → JsonObject
  | none => []
  | some s => [(key, .string s)]

/-- The location, if it is known. -/
def locItems (loc : Option Position) : JsonObject :=
  match loc with
  | none => []
  | some loc => [("lat", .number (.float loc.lat)), ("lng", .number (.float loc.lng))]

section
variable (tick : Int) (below : Int → UInt8) (c : LiveClient)

/-- The additional items for a live upgrade. -/
def liveupItems : JsonObject :=
  let saved := workerClientJsonBuffers below c.iobufs
  [("listener_id", jsonInt c.listenerId),
    ("state", .string (clientStateString c.session.state))] ++
  itemIf c.hasFeed "udp_port" (jsonInt c.session.udpPort) ++
  itemOf "obuf" saved.obuf ++
  itemOf "ibuf" saved.ibuf ++
  itemIf (c.session.has clflagsIgate) "client_heard"
    (.array ((clientHeardJson c.heard).map JsonItem.string))

/-- The counters and the names that are always there. -/
def accountItems : JsonObject :=
  [("t_connect", jsonInt c.connectTime),
    ("t_connect_tick", jsonInt c.connectTick),
    ("since_connect", jsonInt (tick - c.connectTick)),
    ("since_last_read", jsonInt (tick - c.lastRead)),
    ("username", .string c.session.username),
    ("app_name", .string c.session.appName),
    ("app_version", .string c.session.appVersion),
    ("verified", jsonInt c.session.validated),
    ("obuf_q", jsonInt (c.iobufs.obuf.obufEnd - c.iobufs.obuf.obufStart)),
    ("bytes_rx", jsonInt c.localaccount.rxbytes),
    ("bytes_tx", jsonInt c.localaccount.txbytes),
    ("pkts_rx", jsonInt c.localaccount.rxpackets),
    ("pkts_tx", jsonInt c.localaccount.txpackets),
    ("pkts_ign", jsonInt c.localaccount.rxdrops),
    ("pkts_dup", jsonInt c.localaccount.rxdupes),
    ("heard_count", jsonInt c.heard.entrycount),
    ("courtesy_count", jsonInt c.courtesy.entrycount)]

/-- The filters of a client, or the mode of an uplink or a peer. -/
def modeItems : JsonObject :=
  if c.session.state = .corepeer then [("mode", .string (ascii "peer"))]
  else if c.session.has clflagsInport then [("filter", .string c.session.filterS)]
  else if c.session.has clflagsUplinkmulti then [("mode", .string (ascii "multiro"))]
  else if c.session.has clflagsPortRo then [("mode", .string (ascii "ro"))]
  else [("mode", .string (ascii "full"))]

/-- `worker_client_json`, with the information for a live upgrade. -/
def workerClientJson : JsonObject :=
  let addr := fun s => if c.session.state = .corepeer then cutPort s else s
  [("fd", jsonInt c.fd), ("id", jsonInt c.fd)] ++
  liveupItems below c ++
  [("addr_rem", .string (addr c.addrRem)), ("addr_loc", .string (addr c.addrLoc))] ++
  itemIf c.hasFeed "udp_downstream" (jsonInt 1) ++
  accountItems tick c ++
  locItems c.loc ++
  itemIf c.session.quirksMode "quirks_mode" (jsonInt 1) ++
  itemIf c.login.noTx "no_tx" (jsonInt 1) ++
  [("rx_errs", .array (c.localaccount.rxerrs.map jsonInt))] ++
  modeItems c ++
  itemIf c.sctp "proto" (.string (ascii "sctp")) ++
  itemIf (!c.certSubject.isEmpty) "cert_subject" (.string c.certSubject) ++
  itemIf (!c.certIssuer.isEmpty) "cert_issuer" (.string c.certIssuer)

end

/-! ## Reading -/

/-- What the new process knows, and what the calls return that it makes for a client. -/
structure UpgradeEnv where
  cjson : CJson
  handlers : HandlerEnv
  listeners : List LiveListener
  tick : Int
  now : Int
  /-- The text of the address that `getpeername` returns. -/
  getpeername : Int → Option Bytes
  /-- The text of the address that `getsockname` returns, or of that of the listener. -/
  addrLoc : Bytes
  /-- `client_alloc` returns a client, with these buffers. -/
  clientAlloc : Option (Bytes × Bytes)
  /-- The gauge of the UDP service. -/
  udpGauge : Int
  /-- The cells for the entries of the heard list. -/
  heardCell : Nat → Bytes
  /-- `accept_rx_err_map`: the new index of each old error, if it has one. -/
  rxerrMap : List (Option Nat)
  /-- `set_client_sockopt` and `pass_client_to_worker` succeed. -/
  sockopt : Bool
  passed : Bool

/-- `accept_client_for_listener`. The caller sets the state and the handler. -/
def LiveListener.newClient (l : LiveListener) (fd : Int) (addrRem addrLoc : Bytes) (now tick : Int)
    (bufs : Bytes × Bytes) (udpGauge : Int) : LiveClient where
  fd
  listenerId := l.listenerId
  sctp := l.sctp
  addrRem := addrRem.take 79
  addrLoc := addrLoc.take 79
  connectTime := now
  connectTick := tick
  lastRead := tick
  localaccount := .init
  login :=
    { session :=
        { handlerLineIn := .login
          state := .init
          flags := l.clientFlags
          username := []
          validated := 0
          failedCmds := 0
          quirksMode := false
          appName := []
          appVersion := []
          udpclient := l.udpclient
          udpPort := 0
          cert := none
          filterS := l.filterS
          negUserFilters := []
          posUserFilters := [] }
      noTx := false
      udpGauge }
  iobufs := .init bufs.1 bufs.2
  heard := .init
  courtesy := .init
  loc := none
  certSubject := []
  certIssuer := []

/-- `accept_rx_err_load`. -/
def acceptRxErrLoad (j : CJson) (rxerrMap : List (Option Nat)) (rxErrs : List JsonItem)
    (rxerrs : List Int) : List Int :=
  (rxerrMap.zip rxErrs).foldl (fun rxerrs (index, item) =>
    match index, item.number? with
    | some i, some val =>
        if i < inerrBuckets ∧ j.valuedouble val > 0 then rxerrs.set i (j.valuedouble val) else rxerrs
    | _, _ => rxerrs) rxerrs

/-- The names of the stations of a dump. Items of another type are skipped. -/
def heardNames (items : List JsonItem) : List Bytes := items.filterMap JsonItem.string?

/-- A client goes on in the state that it was in. -/
def resumeState (state username : Bytes) (c : Session) : Option Session :=
  if state = ascii "connected" then
    some { c with
      state := .connected
      handlerLineIn := .incoming
      username := cString (username.take 15) }
  else if state = ascii "login" then some { c with state := .login, handlerLineIn := .login }
  else none

/-- The filters of the user are parsed again. -/
def resumeFilters (env : HandlerEnv) (filter : Bytes) (c : Session) : Session :=
  if c.has clflagsUserfilterok && !filter.isEmpty then
    (env.parseArgs filter).foldl (fun c arg => c.filterParse env arg)
      { c with filterS := sanitizeAsciiString (filter.take (filterSSize - 1)) }
  else c

/-- The UDP feed is set up again. -/
def resumeFeed (j : CJson) (udpPort : Option JsonItem) (c : LoginClient) : LoginClient :=
  match udpPort.bind JsonItem.number? with
  | none => c
  | some n =>
      if j.valueint n > 1024 ∧ j.valueint n < 65536 ∧ c.session.udpclient = true then
        c.setupUdpFeed (j.valueint n)
      else c

/-- The location is known if both coordinates are there. -/
def resumeLoc (j : CJson) (lat lng : Option JsonItem) (loc : Option Position) : Option Position :=
  match lat.bind JsonItem.number?, lng.bind JsonItem.number? with
  | some lat, some lng =>
      some { lat := j.valuefloat lat
             lng := j.valuefloat lng
             cosLat := (loc.getD .zero).cosLat }
  | _, _ => loc

/-- The items that `accept_liveupgrade_single` gets from the object. The last seven are
optional, and their types are checked where they are used. -/
structure ClientItems where
  fd : JsonNumber
  listenerId : JsonNumber
  state : Bytes
  username : Bytes
  timeConnect : JsonNumber
  addrLoc : Bytes
  appName : Bytes
  appVersion : Bytes
  verified : JsonNumber
  obufQ : JsonNumber
  bytesRx : JsonNumber
  bytesTx : JsonNumber
  pktsRx : JsonNumber
  pktsTx : JsonNumber
  pktsIgn : JsonNumber
  rxErrs : List JsonItem
  filter : Bytes
  tickConnect : Option JsonItem
  udpPort : Option JsonItem
  ibuf : Option JsonItem
  obuf : Option JsonItem
  clientHeard : Option JsonItem
  lat : Option JsonItem
  lng : Option JsonItem

/-- The first half of `accept_liveupgrade_single`. -/
def clientItems (client : JsonObject) : Option ClientItems := do
  let get := getObjectItem client
  return {
    fd := ← (get "fd").bind JsonItem.number?
    listenerId := ← (get "listener_id").bind JsonItem.number?
    state := ← (get "state").bind JsonItem.string?
    username := ← (get "username").bind JsonItem.string?
    timeConnect := ← (get "t_connect").bind JsonItem.number?
    addrLoc := ← (get "addr_loc").bind JsonItem.string?
    appName := ← (get "app_name").bind JsonItem.string?
    appVersion := ← (get "app_version").bind JsonItem.string?
    verified := ← (get "verified").bind JsonItem.number?
    obufQ := ← (get "obuf_q").bind JsonItem.number?
    bytesRx := ← (get "bytes_rx").bind JsonItem.number?
    bytesTx := ← (get "bytes_tx").bind JsonItem.number?
    pktsRx := ← (get "pkts_rx").bind JsonItem.number?
    pktsTx := ← (get "pkts_tx").bind JsonItem.number?
    pktsIgn := ← (get "pkts_ign").bind JsonItem.number?
    rxErrs := ← (get "rx_errs").bind JsonItem.array?
    filter := ← (get "filter").bind JsonItem.string?
    tickConnect := get "t_connect_tick"
    udpPort := get "udp_port"
    ibuf := get "ibuf"
    obuf := get "obuf"
    clientHeard := get "client_heard"
    lat := get "lat"
    lng := get "lng" }

/-- The session and the login of a client, in the state it was in. -/
def resumeLogin (env : UpgradeEnv) (i : ClientItems) (c : LoginClient) : Option LoginClient := do
  let session ← resumeState i.state i.username c.session
  let c := c.setSession { session with validated := (env.cjson.valueint i.verified).toNat }
  let c := c.setAppName env.handlers i.appName i.appVersion
  let c := c.setSession (resumeFilters env.handlers i.filter c.session)
  return resumeFeed env.cjson i.udpPort c

/-- The client that `accept_client_for_listener` makes, if the peer is still connected, the
listener is there and there is memory. -/
def upgradeNewClient (env : UpgradeEnv) (i : ClientItems) : Option LiveClient := do
  let fd := env.cjson.valueint i.fd
  if fd < 0 then failure
  let addrRem ← env.getpeername fd
  let l ← env.listeners.find? fun l => l.listenerId == env.cjson.valueint i.listenerId
  let bufs ← env.clientAlloc
  return l.newClient fd addrRem env.addrLoc env.now env.tick bufs env.udpGauge

/-- The other fields of a client are filled in. -/
def fillClient (env : UpgradeEnv) (i : ClientItems) (login : LoginClient) (c : LiveClient) :
    LiveClient :=
  let j := env.cjson
  { c with
    connectTime := j.valueint i.timeConnect
    connectTick :=
      match i.tickConnect.bind JsonItem.number? with
      | some n => j.valueint n
      -- the dump of an old version
      | none => env.tick - (env.now - j.valueint i.timeConnect)
    localaccount :=
      { c.localaccount with
        rxbytes := j.valuedouble i.bytesRx
        txbytes := j.valuedouble i.bytesTx
        rxpackets := j.valuedouble i.pktsRx
        txpackets := j.valuedouble i.pktsTx
        rxdrops := j.valuedouble i.pktsIgn
        rxerrs := acceptRxErrLoad j env.rxerrMap i.rxErrs c.localaccount.rxerrs }
    login
    iobufs :=
      acceptBuffers ⟨i.obuf.bind JsonItem.string?, i.ibuf.bind JsonItem.string?⟩ c.iobufs
    heard :=
      match i.clientHeard.bind JsonItem.array? with
      | none => c.heard
      | some items => clientHeardJsonLoad env.heardCell env.tick 0 (heardNames items) c.heard
    loc := resumeLoc j i.lat i.lng c.loc }

/-- The second half of `accept_liveupgrade_single`. -/
def resumeClient (env : UpgradeEnv) (i : ClientItems) : Option LiveClient := do
  let c ← upgradeNewClient env i
  let login ← resumeLogin env i c.login
  if env.sockopt && env.passed then some (fillClient env i login c) else none

/-- `accept_liveupgrade_single`. There is no client either if one of the items is missing that
have to be there. -/
def LiveClient.acceptLiveupgradeSingle (env : UpgradeEnv) (client : JsonObject) : Option LiveClient :=
  (clientItems client).bind (resumeClient env)

/-! ## Items -/

@[simp] theorem getObjectItem_nil (key : String) : getObjectItem [] key = none := rfl

@[simp] theorem getObjectItem_cons (name : String) (item : JsonItem) (rest : JsonObject)
    (key : String) :
    getObjectItem ((name, item) :: rest) key =
      if name = key then some item else getObjectItem rest key := rfl

@[simp] theorem getObjectItem_append (a b : JsonObject) (key : String) :
    getObjectItem (a ++ b) key = (getObjectItem a key).or (getObjectItem b key) := by
  induction a with
  | nil => rfl
  | cons i a ih =>
    obtain ⟨name, item⟩ := i
    simp only [List.cons_append, getObjectItem_cons, ih]
    split <;> rfl

@[simp] theorem getObjectItem_itemIf (cond : Bool) (name : String) (item : JsonItem) (key : String) :
    getObjectItem (itemIf cond name item) key =
      if cond = true ∧ name = key then some item else none := by
  cases cond <;> simp [itemIf]

@[simp] theorem getObjectItem_itemOf (name : String) (s : Option Bytes) (key : String) :
    getObjectItem (itemOf name s) key = if name = key then s.map JsonItem.string else none := by
  cases s <;> simp [itemOf]

@[simp] theorem getObjectItem_locItems (loc : Option Position) (key : String) :
    getObjectItem (locItems loc) key =
      if "lat" = key then loc.map fun loc => .number (.float loc.lat)
      else if "lng" = key then loc.map fun loc => .number (.float loc.lng) else none := by
  unfold locItems
  cases loc <;> simp

@[simp] theorem number?_jsonInt (n : Int) : (jsonInt n).number? = some (.int n) := rfl

end Aprsc
