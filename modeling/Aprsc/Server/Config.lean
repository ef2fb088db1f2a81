-- SUMMARY: The configuration: its variables and lists, the directives of a configuration file, and how a file is read and put in place.
import Aprsc.Filter.Model
import Aprsc.Outgoing.Routing
import Aprsc.Server.Acl

/-!
# Configuration

`read_config` reads a file at the start and on every reload. A directive writes to a
variable that is in use, or to one with the name `new_...` that is put in place when the
file has been read to its end. Listeners, uplinks, peers and HTTP ports are collected in
lists of the second kind.
-/

namespace Aprsc

/-! ## Variables and lists -/

/-- The numbers that directives write to directly. -/
inductive ConfigVar where
  | logRotateSize | logRotateNum | workersConfigured
  | statsInterval | expiryInterval | lastpositionStoretime
  | upstreamTimeout | clientTimeout | clientLoginTimeout
  | newFilenoLimit | maxclients | ibufSize | obufSize
  | qProtocolId | disallowOtherProtocolId | disallowUnverified | quirksMode
  | listenLowPorts
deriving Repr, DecidableEq

/-- The strings that have a new value beside the one in use. -/
inductive ConfigString where
  | rundir | serverid | passcode | myemail | myadmin | httpStatusOptions | fakeVersion
deriving Repr, DecidableEq

/-- The lists of callsigns that are disallowed. -/
inductive ConfigGlob where
  | srccall | login | igate
deriving Repr, DecidableEq

/-- An address and a port. -/
abbrev Addr := Sockaddr × Nat

inductive TlsFile where
  | key | cert | ca | crl
deriving Repr, DecidableEq

/-- `struct listen_config_t`. -/
structure ListenConfigT where
  id : Int
  proto : Bytes
  name : Bytes
  host : Bytes
  portnum : Int
  clientsMax : Int
  corepeer : Bool
  hidden : Bool
  tls : TlsFile → Option Bytes
  ai : List Addr
  acl : Option Acl
  filters : List Bytes
  clientFlags : UInt32

/-- `struct peerip_config_t`. Its name is the host, too. -/
structure PeeripConfigT where
  host : Bytes
  serverid : Bytes
  ai : List Addr
  localPort : Int
  remotePort : Int

/-- `struct uplink_config_t`, as far as it is configured. -/
structure UplinkConfigT where
  name : Bytes
  proto : Bytes
  host : Bytes
  port : Bytes
  tls : TlsFile → Option Bytes
  clientFlags : UInt32

/-- `struct http_config_t`. -/
structure HttpConfigT where
  host : Bytes
  port : Int
  uploadPort : Bool

/-- The configuration in use. -/
structure ServerConfig where
  vars : ConfigVar → Int
  uplinkBindV4 : Option Addr
  uplinkBindV6 : Option Addr
  strings : ConfigString → Option Bytes
  globs : ConfigGlob → Option (List Bytes)
  /-- `log_dir`, which comes from the command line. -/
  logDir : Option Bytes
  listenConfig : List ListenConfigT
  uplinkConfig : List UplinkConfigT
  /-- What the uplink thread puts in place when it is told to. -/
  uplinkConfigInstall : List UplinkConfigT
  uplinkConfigUpdated : Bool
  peeripConfig : List PeeripConfigT
  httpConfig : List HttpConfigT

/-- The variables of the second kind. -/
structure NewConfig where
  strings : ConfigString → Option Bytes
  globs : ConfigGlob → Option (List Bytes)
  listenConfigNew : List ListenConfigT
  newUplinkConfig : List UplinkConfigT
  newPeeripConfig : List PeeripConfigT
  newHttpConfig : List HttpConfigT

def NewConfig.empty : NewConfig := ⟨fun _ => none, fun _ => none, [], [], [], []⟩

structure ConfigState where
  running : ServerConfig
  new : NewConfig

/-- What a directive writes. -/
inductive ConfigWrite where
  | var (dest : ConfigVar) (value : Int)
  | uplinkBindV4 (addr : Addr)
  | uplinkBindV6 (addr : Addr)
  | string (dest : ConfigString) (value : Bytes)
  | globs (dest : ConfigGlob) (values : List Bytes)
  | listen (l : ListenConfigT)
  | uplink (l : UplinkConfigT)
  | peer (pe : PeeripConfigT)
  | http (l : HttpConfigT)

/-- An assignment to one of a family of variables. -/
def assign {κ : Type} [DecidableEq κ] {α : Type} (f : κ → α) (dest : κ) (value : α) : κ → α :=
  fun k => if k = dest then value else f k

/-- Uplinks go to the end of their list and the others to the front. -/
def ConfigState.write (s : ConfigState) : ConfigWrite → ConfigState
  | .var dest value => { s with running.vars := assign s.running.vars dest value }
  | .uplinkBindV4 addr => { s with running.uplinkBindV4 := some addr }
  | .uplinkBindV6 addr => { s with running.uplinkBindV6 := some addr }
  | .string dest value => { s with new.strings := assign s.new.strings dest (some value) }
  | .globs dest values => { s with new.globs := assign s.new.globs dest (some values) }
  | .listen l => { s with new.listenConfigNew := l :: s.new.listenConfigNew }
  | .uplink l => { s with new.newUplinkConfig := s.new.newUplinkConfig ++ [l] }
  | .peer pe => { s with new.newPeeripConfig := pe :: s.new.newPeeripConfig }
  | .http l => { s with new.newHttpConfig := l :: s.new.newHttpConfig }

def ConfigState.writes (s : ConfigState) (ws : List ConfigWrite) : ConfigState :=
  ws.foldl ConfigState.write s

/-! ## Directives -/

inductive IpProto where
  | tcp | udp | sctp
deriving Repr, DecidableEq

/-- What reading a file depends on besides the file and the configuration. -/
structure ConfigEnv where
  useSsl : Bool
  useSctp : Bool
  filter : FilterEnv
  getaddrinfo : IpProto → (host port : Bytes) → Option (List Addr)
  /-- `acl_load` on the file of that name. -/
  aclLoad : Bytes → Option Acl
  /-- `random` for the line of that number. -/
  random : Nat → Int
  /-- `test_directory`. -/
  isDirectory : Bytes → Bool

/-- What a directive returns, and what it has written by then. -/
abbrev CmdResult := Int × List ConfigWrite

/-- `do_string`. The words are those after the name of the directive. -/
def doString (dest : ConfigString) : List Bytes → CmdResult
  | [] => (-1, [])
  | value :: _ => (0, [.string dest value])

/-- `do_string_array`. -/
def doStringArray (dest : ConfigGlob) : List Bytes → CmdResult
  | [] => (-1, [])
  | values => (0, [.globs dest values])

/-- `do_char`. -/
def doChar (dest : ConfigVar) : List Bytes → CmdResult
  | [[c]] => (0, [.var dest c.toNat])
  | _ => (-1, [])

/-- `do_int`. -/
def doInt (dest : ConfigVar) : List Bytes → CmdResult
  | [] => (-1, [])
  | value :: _ => (0, [.var dest (atoi value)])

/-- `do_boolean`. -/
def doBoolean (dest : ConfigVar) : List Bytes → CmdResult
  | [] => (-1, [])
  | value :: _ =>
      if ["yes", "true", "on", "enable", "enabled"].any fun s => caseEq value (ascii s) then
        (0, [.var dest 1])
      else if ["no", "false", "off", "disable", "disabled"].any fun s => caseEq value (ascii s) then
        (0, [.var dest 0])
      else (-1, [])

/-- The seconds of a unit. -/
def intervalUnit (c : UInt8) : Int :=
  let c := tolower c
  if c == ch 's' then 1
  else if c == ch 'm' then 60
  else if c == ch 'h' then 60 * 60
  else if c == ch 'd' then 24 * 60 * 60
  else 0

/-- The loop of `parse_interval`, with the digits since the last unit. -/
def parseIntervalFrom : (t : Int) → (np : Bytes) → Bytes → Int
  | t, np, [] => t + atoi np
  | t, np, c :: s =>
      if isDigit c then parseIntervalFrom t (np ++ [c]) s
      else parseIntervalFrom (t + intervalUnit c * atoi np) [] s

/-- `do_interval`. -/
def doInterval (dest : ConfigVar) : List Bytes → CmdResult
  | [] => (-1, [])
  | value :: _ => (0, [.var dest (cInt (parseIntervalFrom 0 [] value))])

/-- `do_logrotate`. The size is written before the count is looked at. -/
def doLogrotate : List Bytes → CmdResult
  | [size, num] =>
      if atoi size < 1 then (-1, [])
      else if atoi num < 1 then
        (-1, [.var .logRotateSize (cInt (atoi size * 1024 * 1024)), .var .logRotateSize 0])
      else
        (0, [.var .logRotateSize (cInt (atoi size * 1024 * 1024)), .var .logRotateNum (atoi num)])
  | _ => (-1, [])

/-- `do_http_listener`. -/
def doHttpListener (uploadType : Bool) : List Bytes → CmdResult
  | [host, port] => (0, [.http { host, port := atoi port, uploadPort := uploadType }])
  | _ => (-1, [])

/-- `do_uplinkbind`: one address after the other. -/
def doUplinkbindFrom (env : ConfigEnv) : List Bytes → CmdResult
  | [] => (0, [])
  | host :: args =>
      match env.getaddrinfo .tcp host (ascii "0") with
      | some [(.inet a, port)] =>
          let r := doUplinkbindFrom env args
          (r.1, .uplinkBindV4 (.inet a, port) :: r.2)
      | some [(.inet6 a, port)] =>
          let r := doUplinkbindFrom env args
          (r.1, .uplinkBindV6 (.inet6 a, port) :: r.2)
      | _ => (-2, [])

def doUplinkbind (env : ConfigEnv) (args : List Bytes) : CmdResult :=
  if args.isEmpty then (-1, []) else doUplinkbindFrom env args

/-! ### Listeners -/

/-- The type of the port: the flags of its clients, and how many there may be. An unknown
type is only logged. -/
def listenType (type : Bytes) : UInt32 × Int :=
  let is := fun s => caseEq type (ascii s)
  let clflags := clflagsInport
  if is "userfilter" then (clflags ||| clflagsUserfilterok ||| clflagsIgate, 200)
  else if is "igate" then (clflags ||| clflagsUserfilterok ||| clflagsIgate, 200)
  else if is "fullfeed" then (clflags ||| clflagsFullfeed, 200)
  else if is "dupefeed" then (clflags ||| clflagsDupefeed, 200)
  else if is "clientonly" then
    (clflags ||| clflagsClientonly ||| clflagsUserfilterok ||| clflagsIgate, 200)
  else if is "udpsubmit" then (clflags ||| clflagsClientonly ||| clflagsUdpsubmit, 1)
  else (clflags, 200)

/-- The protocol of a word. -/
def ipProto (env : ConfigEnv) (proto : Bytes) : Option IpProto :=
  if caseEq proto (ascii "tcp") then some .tcp
  else if caseEq proto (ascii "udp") then some .udp
  else if env.useSctp && caseEq proto (ascii "sctp") then some .sctp
  else none

def listenMaxFilters : Nat := 10

/-- `config_parse_listen_filter`. Filters of an earlier option stay behind the new ones. -/
def configParseListenFilter (env : ConfigEnv) (filters : List Bytes) (filtString : Bytes) :
    Option (List Bytes) :=
  let args := (parseArgsNoshell filtString).1
  if args.length = 0 ∨ args.length > listenMaxFilters then none
  else if args.all fun arg => (ownFilter env.filter arg).isSome then
    some (args ++ filters.drop args.length)
  else none

/-- The file that an option names. -/
def tlsOption (opt : Bytes) : Option TlsFile :=
  let is := fun s => caseEq opt (ascii s)
  if is "tlskey" || is "sslkey" then some .key
  else if is "tlscert" || is "sslcert" then some .cert
  else if is "tlsca" || is "sslca" then some .ca
  else if is "tlscrl" || is "sslcrl" then some .crl
  else none

/-- The options of a listener. -/
def listenOptions (env : ConfigEnv) : ListenConfigT → List Bytes → Option ListenConfigT
  | l, [] => some l
  | l, opt :: args =>
      if caseEq opt (ascii "filter") then
        match args with
        | [] => none
        | filt :: args =>
            if l.clientFlags &&& (clflagsFullfeed ||| clflagsUdpsubmit ||| clflagsDupefeed) ≠ 0 then
              none
            else
              match configParseListenFilter env l.filters filt with
              | none => none
              | some filters => listenOptions env { l with filters } args
      else if caseEq opt (ascii "maxclients") then
        match args with
        | [] => none
        | max :: args => listenOptions env { l with clientsMax := atoi max } args
      else if caseEq opt (ascii "acl") then
        match args with
        | [] => none
        | path :: args =>
            if l.acl.isSome then none
            else
              match env.aclLoad path with
              | none => none
              | some acl => listenOptions env { l with acl := some acl } args
      else if caseEq opt (ascii "hidden") then listenOptions env { l with hidden := true } args
      else
        match tlsOption opt, args with
        | some which, file :: args =>
            if !env.useSsl || (l.tls which).isSome then none
            else listenOptions env { l with tls := assign l.tls which (some file) } args
        | _, _ => none

/-- `find_listen_config`. -/
def findListenConfig (ls : List ListenConfigT) (proto host : Bytes) (portnum : Int) :
    Option ListenConfigT :=
  ls.find? fun l => l.portnum == portnum && l.host == host && l.proto == proto

/-- The end of `do_listen`: what the type of the port and the configuration in use say. -/
def listenEntry (env : ConfigEnv) (listenConfig : List ListenConfigT) (n : Nat)
    (l : ListenConfigT) : ListenConfigT :=
  { l with
    hidden := l.hidden || l.clientFlags &&& clflagsDupefeed ≠ 0
    clientsMax := if l.clientFlags &&& clflagsUdpsubmit ≠ 0 then 1 else l.clientsMax
    id := match findListenConfig listenConfig l.proto l.host l.portnum with
      | some old => old.id
      | none => env.random n }

/-- `do_listen`. -/
def doListen (env : ConfigEnv) (listenConfig : List ListenConfigT) (n : Nat) :
    List Bytes → CmdResult
  | name :: type :: proto :: host :: port :: args =>
      let (clflags, clientsMax) := listenType type
      match ipProto env proto with
      | none => (-2, [])
      | some ip =>
          if clflags &&& clflagsUdpsubmit ≠ 0 ∧ ip ≠ .udp then (-2, [])
          else if atoi port < 1 ∨ atoi port > 65535 then (-2, [])
          else
            match env.getaddrinfo ip host port with
            | none => (-2, [])
            | some ai =>
                let l : ListenConfigT :=
                  { id := 0, proto, name, host, portnum := atoi port, clientsMax, corepeer := false
                    hidden := false, tls := fun _ => none, ai, acl := none, filters := []
                    clientFlags := clflags }
                match listenOptions env l args with
                | none => (-2, [])
                | some l =>
                    if (l.tls .cert).isSome ≠ (l.tls .key).isSome then (-2, [])
                    else
                      (0, (if atoi port < 1024 then [.var .listenLowPorts 1] else []) ++
                        [.listen (listenEntry env listenConfig n l)])
  | _ => (-1, [])

/-! ### Uplinks and peers -/

def clflagsUplinkmulti : UInt32 := 0x2000

/-- The options of an uplink. -/
def uplinkOptions (env : ConfigEnv) : UplinkConfigT → List Bytes → Option UplinkConfigT
  | l, [] => some l
  | l, opt :: args =>
      match tlsOption opt, args with
      | some which, file :: args =>
          if !env.useSsl || (l.tls which).isSome then none
          else uplinkOptions env { l with tls := assign l.tls which (some file) } args
      | _, _ => none

/-- The flags of an uplink of that type. -/
def uplinkType (type : Bytes) : Option UInt32 :=
  let is := fun s => caseEq type (ascii s)
  if is "ro" then some (clflagsUplinkport ||| clflagsPortRo)
  else if is "multiro" then some (clflagsUplinkport ||| clflagsPortRo ||| clflagsUplinkmulti)
  else if is "full" then some clflagsUplinkport
  else none

/-- `do_uplink`. With four words `atoi` gets a null pointer, and the process does not go on. -/
def doUplink (env : ConfigEnv) : List Bytes → Option CmdResult
  | [_, type, proto, _] =>
      if (uplinkType type).isSome && (ipProto env proto).isSome then none else some (-2, [])
  | name :: type :: proto :: host :: port :: args =>
      match uplinkType type, ipProto env proto with
      | some clflags, some _ =>
          if atoi port < 1 ∨ atoi port > 65535 then some (-2, [])
          else
            let l : UplinkConfigT :=
              { name, proto, host, port, tls := fun _ => none, clientFlags := clflags }
            match uplinkOptions env l args with
            | none => some (-2, [])
            | some l => some (0, [.uplink l])
      | _, _ => some (-2, [])
  | _ => some (-1, [])

/-- The text around the last occurrence of a character. -/
def splitLast (c : UInt8) (s : Bytes) : Option (Bytes × Bytes) :=
  let port := s.reverse.takeWhile (· != c)
  if port.length < s.length then
    some (s.take (s.length - port.length - 1), port.reverse)
  else none

/-- `parse_hostport`. -/
def parseHostport (s : Bytes) : Option (Bytes × Bytes) := do
  let (host, port) ← splitLast (ch ':') s
  if host.head? = some (ch '[') then
    let (inner, _) ← splitLast (ch ']') host
    pure (inner.drop 1, port)
  else pure (host, port)

/-- `ai_family`. -/
def Sockaddr.family : Sockaddr → Nat
  | .inet _ => 2
  | .inet6 _ => 10
  | .other => 0

/-- `ai_comp`. -/
def aiComp (a b : List Addr) : Bool :=
  a.any fun ap => b.any fun bp => ap.1 ≠ .other && ap == bp

/-- The loop of `do_peergroup` over pairs of a server and its address, with the peers that
are there. It returns the new ones. -/
def peergroupPeers (env : ConfigEnv) (ip : IpProto) (mine : Addr) (localport : Int) :
    (peers : List PeeripConfigT) → List Bytes → Int × List PeeripConfigT
  | _, [] => (0, [])
  | _, [_] => (-2, [])
  | peers, peerid :: addr :: args =>
      match parseHostport addr with
      | none => (-2, [])
      | some (host, port) =>
          if atoi port < 1 ∨ atoi port > 65535 then (-2, [])
          else
            match env.getaddrinfo ip host port with
            | some [a] =>
                if a.1.family ≠ mine.1.family then (-2, [])
                else if aiComp [a] [mine] then peergroupPeers env ip mine localport peers args
                else if peers.any fun pe => aiComp [a] pe.ai then (-2, [])
                else
                  let pe : PeeripConfigT :=
                    { host, serverid := peerid, ai := [a], localPort := localport
                      remotePort := atoi port }
                  let r := peergroupPeers env ip mine localport (pe :: peers) args
                  (r.1, pe :: r.2)
            | _ => (-2, [])

/-- `do_peergroup`. The listener is in the list before the peers are looked at. -/
def doPeergroup (env : ConfigEnv) (newPeeripConfig : List PeeripConfigT) (n : Nat) :
    List Bytes → CmdResult
  | name :: proto :: addr :: args =>
      match ipProto env proto, parseHostport addr with
      | some .tcp, _ => (-2, [])
      | some ip, some (host, port) =>
          match env.getaddrinfo ip host port with
          | some [mine] =>
              let li : ListenConfigT :=
                { id := env.random n, proto := ascii "udp", name, host := addr
                  portnum := atoi port, clientsMax := 1, corepeer := true, hidden := false
                  tls := fun _ => none, ai := [mine], acl := none, filters := []
                  clientFlags := 0 }
              let r := peergroupPeers env ip mine (atoi port) newPeeripConfig args
              (r.1, .listen li :: r.2.map .peer)
          | _ => (-2, [])
      | _, _ => (-2, [])
  | _ => (-1, [])

/-! ## Files -/

/-- The functions of `cfg_cmds` with where they write to. -/
inductive Directive where
  | string (dest : ConfigString)
  | stringArray (dest : ConfigGlob)
  | int (dest : ConfigVar)
  | interval (dest : ConfigVar)
  | boolean (dest : ConfigVar)
  | char (dest : ConfigVar)
  | logrotate | httpstatus | httpupload | listen | uplinkbind | uplink | peergroup
deriving Repr, DecidableEq

def cfgCmds : List (String × Directive) :=
  [("rundir", .string .rundir),
   ("logrotate", .logrotate),
   ("serverid", .string .serverid),
   ("passcode", .string .passcode),
   ("myemail", .string .myemail),
   ("myadmin", .string .myadmin),
   ("workerthreads", .int .workersConfigured),
   ("statsinterval", .interval .statsInterval),
   ("expiryinterval", .interval .expiryInterval),
   ("lastpositioncache", .interval .lastpositionStoretime),
   ("upstreamtimeout", .interval .upstreamTimeout),
   ("clienttimeout", .interval .clientTimeout),
   ("logintimeout", .interval .clientLoginTimeout),
   ("filelimit", .int .newFilenoLimit),
   ("maxclients", .int .maxclients),
   ("ibufsize", .int .ibufSize),
   ("obufsize", .int .obufSize),
   ("httpstatus", .httpstatus),
   ("httpupload", .httpupload),
   ("httpstatusoptions", .string .httpStatusOptions),
   ("listen", .listen),
   ("uplinkbind", .uplinkbind),
   ("uplink", .uplink),
   ("peergroup", .peergroup),
   ("q_protocol_id", .char .qProtocolId),
   ("disallow_other_q_protocols", .boolean .disallowOtherProtocolId),
   ("disallow_unverified", .boolean .disallowUnverified),
   ("quirks_mode", .boolean .quirksMode),
   ("fake_version", .string .fakeVersion),
   ("disallowlogincall", .stringArray .login),
   ("disallowsourcecall", .stringArray .srccall),
   ("disallowigatecall", .stringArray .igate)]

section
variable (env : ConfigEnv) (listenConfig : List ListenConfigT)
  (newPeeripConfig : List PeeripConfigT) (n : Nat)

/-- The directive of a line, which is the `n`-th one. It depends on the listeners in use and
on the peers that have been read. -/
def Directive.handle (args : List Bytes) : Directive → Option CmdResult
  | .string dest => some (doString dest args)
  | .stringArray dest => some (doStringArray dest args)
  | .int dest => some (doInt dest args)
  | .interval dest => some (doInterval dest args)
  | .boolean dest => some (doBoolean dest args)
  | .char dest => some (doChar dest args)
  | .logrotate => some (doLogrotate args)
  | .httpstatus => some (doHttpListener false args)
  | .httpupload => some (doHttpListener true args)
  | .listen => some (doListen env listenConfig n args)
  | .uplinkbind => some (doUplinkbind env args)
  | .uplink => doUplink env args
  | .peergroup => some (doPeergroup env newPeeripConfig n args)

/-- `cmdparse`. -/
def cmdparse (line : Bytes) : Option CmdResult :=
  match parseArgs line with
  | [] => some (0, [])
  | cmd :: args =>
      if cmd.head? = some (ch '#') then some (0, [])
      else
        match cfgCmds.find? fun c => caseEq (ascii c.1) cmd with
        | none => some (-1, [])
        | some (_, directive) => directive.handle env listenConfig newPeeripConfig n args

end

/-- The loop of `read_cfgfile`, from the `n`-th line on. -/
def readLines (env : ConfigEnv) : (n : Nat) → ConfigState → List Bytes → Option (Int × ConfigState)
  | _, s, [] => some (0, s)
  | n, s, line :: lines =>
      match cmdparse env s.running.listenConfig s.new.newPeeripConfig n line with
      | none => none
      | some (ret, ws) =>
          if ret < 0 then some (2, s.writes ws) else readLines env (n + 1) (s.writes ws) lines

/-! ## Putting a file in place -/

/-- `serverid` is good for a server. -/
def validServerid (id : Bytes) : Bool :=
  !checkInvalidQCallsign id && 3 ≤ id.length && id.length ≤ callsignlenMax

/-- The strings in use after a file has been read. The first two are only set at the start. -/
def putStrings (running new : ConfigString → Option Bytes) : ConfigString → Option Bytes
  | .rundir => (running .rundir).or (new .rundir)
  | .serverid => (running .serverid).or (((new .serverid).filter validServerid).map (·.map toupper))
  | .passcode => (new .passcode).or (running .passcode)
  | .myadmin => (new .myadmin).or (running .myadmin)
  | .myemail => (new .myemail).or (running .myemail)
  | .httpStatusOptions => new .httpStatusOptions
  | .fakeVersion => new .fakeVersion

/-- Something that is required of the strings is missing. -/
def stringsFail (env : ConfigEnv) (s : ConfigState) : Bool :=
  let running := s.running.strings
  let new := s.new.strings
  ((running .rundir).isNone && !(new .rundir).any env.isDirectory) ||
  s.running.logDir.isNone ||
  ((running .serverid).isNone && !(new .serverid).any validServerid) ||
  (new .passcode).isNone || (new .myadmin).isNone || (new .myemail).isNone

def UplinkConfigT.multi (up : UplinkConfigT) : Bool := up.clientFlags &&& clflagsUplinkmulti ≠ 0

/-- Both kinds of uplinks are configured. -/
def uplinksMixed (ups : List UplinkConfigT) : Bool :=
  ups.any (·.multi) && ups.any fun up => !up.multi

/-- The uplinks that are not discarded because of a loop. -/
def uplinksAllowed (ups : List UplinkConfigT) : List UplinkConfigT :=
  if uplinksMixed ups || ups.any fun up => up.multi && up.clientFlags &&& clflagsPortRo = 0 then []
  else ups

/-- `read_config` after the file has been read to its end. -/
def putInPlace (env : ConfigEnv) (s : ConfigState) : Int × ConfigState :=
  let running := s.running
  let new := s.new
  let failed := stringsFail env s || uplinksMixed new.newUplinkConfig || new.listenConfigNew.isEmpty
  let busy := !running.uplinkConfigInstall.isEmpty
  (if failed then -1 else 0,
    { running :=
        { running with
          strings := putStrings running.strings new.strings
          globs := new.globs
          vars := assign running.vars .workersConfigured
            (if running.vars .workersConfigured > 32 then 32 else running.vars .workersConfigured)
          listenConfig :=
            if new.listenConfigNew.isEmpty then running.listenConfig else new.listenConfigNew
          -- The uplink thread has not taken the last ones yet: the new ones are discarded.
          uplinkConfigInstall :=
            if busy then running.uplinkConfigInstall else uplinksAllowed new.newUplinkConfig
          uplinkConfigUpdated := if busy then running.uplinkConfigUpdated else true
          peeripConfig := new.newPeeripConfig
          httpConfig := new.newHttpConfig }
      new :=
        { NewConfig.empty with
          strings := fun k =>
            if k = .serverid && (running.strings .serverid).isNone then
              (new.strings .serverid).filter fun id => !validServerid id
            else none } })

/-- `read_config`. There is no file, or its lines are those that `fgets_multiline` returns. -/
def readConfig (env : ConfigEnv) (file : Option (List Bytes)) (s : ConfigState) :
    Option (Int × ConfigState) :=
  match file with
  | none => some (-1, s)
  | some lines =>
      match readLines env 1 s lines with
      | none => none
      | some (ret, s) => if ret ≠ 0 then some (-1, s) else some (putInPlace env s)

/-- What the uplink thread does when it is told of new uplinks. -/
def uplinkReconfigure (s : ConfigState) : ConfigState :=
  if s.running.uplinkConfigUpdated then
    { s with
      running.uplinkConfig := s.running.uplinkConfigInstall
      running.uplinkConfigInstall := []
      running.uplinkConfigUpdated := false }
  else s

end Aprsc
