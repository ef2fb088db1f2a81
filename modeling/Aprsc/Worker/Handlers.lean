-- SUMMARY: The line handlers of a client: logins, packets and filter commands, messages to SERVER, and uplink logins.
import Aprsc.Base.Resource
import Aprsc.Incoming.Header
import Aprsc.Pbuf

/-!
# Line handlers

Each line that a client sends goes to its handler. A handler reads and writes the
client, replies to it, and may close it. A reply may find that the connection is
broken, and then the client is closed and its structure freed by the writing function.
The handlers are told so by the value that the writing function returns.
-/

namespace Aprsc

/-! ## Clients -/

/-- The functions that `handler_line_in` points to. -/
inductive HandlerKind where
  | login | incoming | uplinkLogin | uplinkLogresp
deriving Repr, DecidableEq

/-- The results of the two phases of the validation of a certificate, 0 when it is good. -/
structure CertCheck where
  phase1 : Int
  phase2 : Int
deriving Repr, DecidableEq

/-- The second phase is only reached after the first. -/
def CertCheck.res (cert : CertCheck) : Int := if cert.phase1 = 0 then cert.phase2 else cert.phase1

/-- The fields of `struct client_t` that the line handlers read and write. -/
structure Session where
  handlerLineIn : HandlerKind
  state : CState
  flags : UInt32
  username : Bytes
  validated : Nat
  failedCmds : Nat
  quirksMode : Bool
  appName : Bytes
  appVersion : Bytes
  /-- There is a UDP service socket. -/
  udpclient : Bool
  udpPort : Int
  /-- The check of the certificate, when `c->ssl_con && c->ssl_con->validate`. -/
  cert : Option CertCheck
  filterS : Bytes
  negUserFilters : List Bytes
  posUserFilters : List Bytes
deriving Repr, DecidableEq

def Session.has (c : Session) (flag : UInt32) : Bool := c.flags &&& flag != 0

/-- What `c->write` does: the data is buffered or sent, or the kernel's buffer is full,
or the client is closed because of a broken connection, of another error or of a full
output buffer, or by the TLS library. -/
inductive WriteOutcome where
  | sent | again | epipe | failed | full | tlsFailed
deriving Repr, DecidableEq

/-- The client was closed. -/
def WriteOutcome.lost : WriteOutcome → Bool
  | .sent => false
  | .again => false
  | _ => true

/-- The value that `c->write` returns for `len` bytes. -/
def WriteOutcome.rc (len : Nat) : WriteOutcome → Int
  | .sent => len
  | .again => -1
  | .epipe => -9
  | .failed => -11
  | .full => -12
  | .tlsFailed => -13

/-- A function that is given a client. -/
abbrev ClientM := ResM Session WriteOutcome

/-- `c->write`. -/
def clientWrite (p : Bytes) : ClientM Int := do
  let o ← ResM.call WriteOutcome.lost
  pure (o.rc p.length)

/-- `client_printf`, with the text that `vsnprintf` writes. -/
def clientPrintf (text : Bytes) : ClientM Int := do
  ResM.use
  if text.length ≥ packetlenMax then pure (-1) else clientWrite text

/-- `client_close`. -/
def clientClose : ClientM PUnit := ResM.destroy

def crlf : Bytes := [0x0D, 0x0A]

/-! ## The rest of the server -/

/-- `struct aprs_message_t`. -/
structure AprsMessage where
  body : Bytes
  msgid : Option Bytes
  isAck : Bool
deriving Repr, DecidableEq

/-- What `incoming_parse` does with a line, as far as replies are concerned: it is done
with it and returns a code, or it is a message to `SERVER` that the client itself sent,
from the given source, which `parse_aprs_message` may find invalid. -/
inductive ParseEnd where
  | done (rc : Int)
  | toServer (srcname : Bytes) (message : Option AprsMessage)
deriving Repr, DecidableEq

/-- What the handlers use of the configuration and of the other parts of the server. -/
structure HandlerEnv where
  serverid : Bytes
  passcode : Bytes
  verstrAprsis : Bytes
  quirksMode : Bool
  /-- `check_call_glob_match(disallow_login_glob, ...)`, when there is such a list. -/
  disallowLogin : Bytes → Bool
  incomingParse : Session → Bytes → ParseEnd
  /-- The line as `incoming_parse` leaves it: it may edit the type of a Q construct. -/
  incomingEdits : Session → Bytes → Bytes
  /-- `filter_parse`: the negative and the positive filters of the user with a new one
  added, and the return value. -/
  filterParse : List Bytes → List Bytes → Bytes → (List Bytes × List Bytes) × Int
  /-- `parse_args`, which honours quotes. -/
  parseArgs : Bytes → List Bytes
  sslStrerror : Int → Bytes
  /-- `X509_verify_cert_error_string`. -/
  x509Error : Bytes
  /-- What `messaging_generate_msgid` makes up. -/
  msgid : Bytes

/-! ## Messages and filter commands -/

def aprscTocall : String := "APSC20"

/-- `%-9s`. -/
def padTo9 (s : Bytes) : Bytes := s ++ List.replicate (9 - s.length) (ch ' ')

/-- `messaging_ack`. -/
def messagingAck (env : HandlerEnv) (srcname msgid : Bytes) : ClientM Int :=
  clientPrintf (ascii "SERVER>" ++ ascii aprscTocall ++ ascii ",TCPIP*,qAZ," ++ env.serverid ++
    ascii "::" ++ padTo9 srcname ++ ascii ":ack" ++ msgid ++ crlf)

/-- `messaging_message_client`. -/
def messagingMessageClient (env : HandlerEnv) (text : Bytes) : ClientM Int := do
  let c ← ResM.get
  clientPrintf (ascii "SERVER>" ++ ascii aprscTocall ++ ascii ",TCPIP*,qAZ," ++ env.serverid ++
    ascii "::" ++ padTo9 c.username ++ ascii ":" ++ text.take (packetlenMax - 1) ++ [ch '\x7b'] ++
    env.msgid ++ crlf)

/-- `filter_command_reply`. -/
def filterCommandReply (env : HandlerEnv) (inMessage : Bool) (text : Bytes) : ClientM Int :=
  if !inMessage then clientPrintf (ascii "# " ++ text.take (packetlenMax - 1) ++ crlf)
  else messagingMessageClient env text

/-- `sanitize_ascii_string`, which looks for control characters and for bytes that are
not ASCII. -/
def sanitizeAsciiString (s : Bytes) : Bytes :=
  s.map fun b => if b < 32 || b ≥ 127 then ch '_' else b

def filterSSize : Nat := 256

/-- The texts of the filters, as the reply to a query lists them. -/
def filterTexts (c : Session) : Bytes :=
  (c.negUserFilters ++ c.posUserFilters).flatMap fun f => f ++ ascii " "

/-- `filter_parse` on a client. -/
def Session.filterParse (env : HandlerEnv) (arg : Bytes) (c : Session) : Session :=
  let r := env.filterParse c.negUserFilters c.posUserFilters arg
  { c with negUserFilters := r.1.1, posUserFilters := r.1.2 }

/-- New filters replace the ones of the user. The text is used as a C string. -/
def newFilters (env : HandlerEnv) (s : Bytes) (c : Session) : Session :=
  let b := s.takeWhile (· != 0)
  (env.parseArgs b).foldl (fun c arg => c.filterParse env arg)
    { c with
      negUserFilters := []
      posUserFilters := []
      filterS := sanitizeAsciiString (b.take (filterSSize - 1)) }

/-- `filter_commands`. -/
def filterCommands (env : HandlerEnv) (inMessage : Bool) (s : Bytes) : ClientM Int := do
  let c ← ResM.get
  let s := s.drop 6
  if s = ascii "?" then clientWrite (ascii "# filters: " ++ filterTexts c ++ crlf)
  else if s.head? ≠ some (ch ' ') then
    filterCommandReply env inMessage
      (ascii "Filter: Bad input, no space character after filter command")
  else if caseEq (s.drop 1) (ascii "default") then do
    ResM.modify fun c => { c with negUserFilters := [], posUserFilters := [] }
    filterCommandReply env inMessage (ascii "User filters reset to default")
  else do
    ResM.modify (newFilters env (s.drop 1))
    let c ← ResM.get
    filterCommandReply env inMessage (ascii "filter " ++ c.filterS ++ ascii " active")

/-! ## Packets -/

/-- `strncasecmp(s, text, strlen(text)) == 0`. -/
def startsCase (text s : Bytes) : Bool := caseEq (s.take text.length) text

/-- A message with an id is acknowledged. -/
def ackMessage (env : HandlerEnv) (srcname : Bytes) : (msgid : Option Bytes) → ClientM Int
  | none => pure 0
  | some msgid => messagingAck env srcname msgid

/-- `incoming_server_message`. -/
def incomingServerMessage (env : HandlerEnv) (srcname : Bytes) (message : Option AprsMessage) :
    ClientM Int :=
  match message with
  | none => pure 0
  | some am =>
      if am.isAck then pure 0
      else do
        let e ← ackMessage env srcname am.msgid
        if e < 0 then pure e
        else if startsCase (ascii "filter?") am.body then do
          let c ← ResM.get
          messagingMessageClient env (ascii "filter " ++ c.filterS ++ ascii " active")
        else if startsCase (ascii "filter") am.body then filterCommands env true am.body
        else messagingMessageClient env (ascii "Unknown command")

/-- `memcasestr`: the loop over the haystack at offset `hp`, with the rest of the needle
and the start of the match. -/
def memcasestrLoop (needle : Bytes) : (haystack : Bytes) → (hp : Nat) → (np : Bytes) →
    (matchStart : Option Nat) → Option Nat
  | [], _, _, _ => none
  | b :: haystack, hp, np, matchStart =>
      if toupper b == toupper (np.headD 0) then
        let matchStart := matchStart.getD hp
        if (np.drop 1).isEmpty then some matchStart
        else memcasestrLoop needle haystack (hp + 1) (np.drop 1) (some matchStart)
      else memcasestrLoop needle haystack (hp + 1) needle none

def memcasestr (needle haystack : Bytes) : Option Nat :=
  memcasestrLoop needle haystack 0 needle none

/-- The end of `incoming_handler`: the packet is accounted for. -/
def accountPacket : ClientM Int := do
  ResM.use
  pure 0

/-- `incoming_handler`. -/
def incomingHandler (env : HandlerEnv) (udp : Bool) (s : Bytes) : ClientM Int :=
  if s.length > packetlenMax - 2 then accountPacket
  else if s.head? = some (ch '#') then do
    let c ← ResM.get
    match if !udp && c.has clflagsUserfilterok then memcasestr (ascii "filter") s else none with
    | some off => filterCommands env false (s.drop off)
    | none => pure 0
  else do
    let c ← ResM.get
    match env.incomingParse c s with
    | .done _ => accountPacket
    | .toServer srcname message => do
        let _ ← incomingServerMessage env srcname message
        accountPacket

/-! ## Arguments -/

/-- `isspace` in the C locale. -/
def isspace (b : UInt8) : Bool := b == 0x20 || (0x09 ≤ b && b ≤ 0x0D)

/-- The loop of `parse_args_noshell`, over the text that is left: the arguments, and the
text with a NUL after each of them. -/
def parseArgsLoop : (ct : Nat) → Bytes → List Bytes × Bytes
  | 0, cmd => ([], cmd)
  | ct + 1, cmd =>
      let space := cmd.takeWhile isspace
      let cmd' := cmd.dropWhile isspace
      if cmd'.headD 0 == 0 then ([], cmd)
      else
        let arg := cmd'.takeWhile fun b => b != 0 && !isspace b
        let rest := cmd'.dropWhile fun b => b != 0 && !isspace b
        if rest.headD 0 == 0 then ([arg], cmd)
        else
          let r := parseArgsLoop ct (rest.drop 1)
          (arg :: r.1, space ++ arg ++ 0 :: r.2)

/-- `parse_args_noshell`. -/
def parseArgsNoshell (cmd : Bytes) : List Bytes × Bytes := parseArgsLoop 255 cmd

/-- The digits of a number, up to the first other character. -/
def atoiDigits (s : Bytes) : Nat :=
  (s.takeWhile fun b => ch '0' ≤ b && b ≤ ch '9').foldl (fun n b => 10 * n + (b.toNat - 48)) 0

/-- A value that is stored to an `int`. -/
def cInt (n : Int) : Int := Int.bmod n 4294967296

/-- `strtol` with base 10: a number that no `long` holds becomes the nearest one. -/
def strtol (s : Bytes) : Int :=
  let s := s.dropWhile isspace
  let n : Int :=
    if s.head? = some (ch '-') then -(atoiDigits (s.drop 1) : Int)
    else if s.head? = some (ch '+') then atoiDigits (s.drop 1)
    else atoiDigits s
  max (-9223372036854775808) (min 9223372036854775807 n)

/-- `atoi`. -/
def atoi (s : Bytes) : Int := cInt (strtol s)

theorem cInt_of_fits {n : Int} (lo : -2147483648 ≤ n) (hi : n < 2147483648) : cInt n = n :=
  Int.bmod_eq_of_le_mul_two (by omega) (by omega)

/-- The loop of `aprs_passcode`, over two bytes at a time. -/
def passcodeLoop : UInt16 → Bytes → UInt16
  | hash, [] => hash
  | hash, [a] => hash ^^^ (a.toUInt16 <<< 8)
  | hash, a :: b :: rest => passcodeLoop (hash ^^^ (a.toUInt16 <<< 8) ^^^ b.toUInt16) rest

/-- `aprs_passcode`. -/
def aprsPasscode (call : Bytes) : Int :=
  let rootCall := ((call.takeWhile (· != ch '-')).take 9).map toupper
  (passcodeLoop 0x73e2 rootCall &&& 0x7fff).toNat

/-! ## Logins -/

def validatedWeak : Nat := 1
def validatedStrong : Nat := 3

/-- `disallow_login_usernames`. -/
def disallowLoginUsernames : List Bytes := [ascii "pass"]

/-- `quirks_mode_blacklist`. -/
def quirksModeBlacklist : List Bytes :=
  [ascii "HR-IXPWIND", ascii "HR-IXP-WIND", ascii "IXP-WIND", ascii "Oww/"]

/-- `login_set_app_name`, without the flag for broken igates. -/
def loginSetAppName (env : HandlerEnv) (appName appVer : Bytes) (c : Session) : Session :=
  let name := sanitizeAsciiString (appName.take 31)
  { c with
    appName := name
    appVersion := sanitizeAsciiString (appVer.take 31)
    quirksMode := env.quirksMode || quirksModeBlacklist.any (·.isPrefixOf name) }

/-- `failed_login` of `login_handler`. -/
def failedLogin (rc : Int) : ClientM Int :=
  if rc < -2 then pure rc
  else do
    ResM.modify fun c => { c with failedCmds := c.failedCmds + 1 }
    let c ← ResM.get
    if c.failedCmds ≥ 3 then do
      clientClose
      pure (-3)
    else pure rc

/-- A reply, and `goto failed_login`. -/
def rejectLogin (text : String) : ClientM Int := do
  let rc ← clientPrintf (ascii text ++ crlf)
  failedLogin rc

def sslValidateClientCertUnverified : Int := -2

/-- `login_client_validate_cert`. -/
def loginClientValidateCert (env : HandlerEnv) (cert : CertCheck) : ClientM Int := do
  let sslRes := cert.res
  if sslRes = 0 then do
    ResM.modify fun c => { c with validated := validatedStrong }
    pure 1
  else do
    let rc ← clientPrintf <|
      if sslRes = sslValidateClientCertUnverified then
        ascii "# Client certificate not accepted: " ++ env.x509Error ++ crlf
      else
        ascii "# Client certificate authentication failed: " ++ env.sslStrerror sslRes ++ crlf
    ResM.modify fun c => { c with failedCmds := 10 }
    if rc < 0 then pure rc else pure 0

/-- Where the loop over the options of a login ends. -/
inductive LoginEnd where
  /-- All options were read, and the passcode, if any, is known. -/
  | done (pass : Option Bytes)
  /-- `goto failed_login`. -/
  | failed (rc : Int)
  /-- `return rc`. -/
  | lost (rc : Int)
deriving Repr, DecidableEq

/-- The loop over the filters of a login. -/
def loginFilters (env : HandlerEnv) (pass : Option Bytes) : List Bytes → ClientM LoginEnd
  | [] => pure (.done pass)
  | arg :: args => do
      let c ← ResM.get
      ResM.modify fun c => c.filterParse env arg
      if (env.filterParse c.negUserFilters c.posUserFilters arg).2 ≠ 0 then do
        let rc ← clientPrintf (ascii "# Parse errors on filter spec: '" ++ arg ++ ascii "'" ++ crlf)
        if rc < -2 then pure (.lost rc) else loginFilters env pass args
      else loginFilters env pass args

/-- The text of the filters that is kept for the status page. The old text stays when no
filter fits. -/
def loginFilterS (old : Bytes) (args : List Bytes) : Bytes :=
  let text := args.foldl (fun fs arg =>
    if fs.length + arg.length + 2 < filterSSize then
      if fs.isEmpty then fs ++ arg else fs ++ ch ' ' :: arg
    else fs) []
  if text.isEmpty then old else text

/-- `strcasestr(s, text)`. -/
def hasCase (text s : Bytes) : Bool := (findSub (text.map tolower) (s.map tolower)).isSome

/-- The loop over the options of a login. -/
def loginOptions (env : HandlerEnv) : (pass : Option Bytes) → List Bytes → ClientM LoginEnd
  | pass, [] => pure (.done pass)
  | pass, arg :: args =>
      if caseEq arg (ascii "pass") then
        match args with
        | [] => pure (.done pass)
        | p :: args => loginOptions env (some p) args
      else if caseEq arg (ascii "vers") then
        match args with
        | [] => pure (.done pass)
        | [app] => do
            ResM.modify (loginSetAppName env app [])
            let c ← ResM.get
            if c.quirksMode then pure (.done pass)
            else do
              let rc ← clientPrintf (ascii
                "# Invalid login: software name and version are not separated by a space" ++ crlf)
              pure (.failed rc)
        | app :: ver :: args => do
            ResM.modify (loginSetAppName env app ver)
            let c ← ResM.get
            if caseEq ver (ascii "filter") && !c.quirksMode then do
              let rc ← clientPrintf (ascii
                "# Invalid login: software name and version are not separated by a space" ++ crlf)
              pure (.failed rc)
            else loginOptions env pass args
      else if caseEq arg (ascii "udp") then
        match args with
        | [] => pure (.done pass)
        | port :: args =>
            if atoi port < 1024 ∨ atoi port > 65535 then pure (.done pass)
            else do
              let c ← ResM.get
              if c.udpclient then do
                ResM.modify fun c => { c with udpPort := atoi port }
                loginOptions env pass args
              else do
                let rc ← clientPrintf (ascii "# No UDP service available on this port" ++ crlf)
                if rc < -2 then pure (.lost rc) else loginOptions env pass args
      else if hasCase (ascii "filter") arg then do
        let c ← ResM.get
        if !c.has clflagsUserfilterok then do
          let rc ← clientPrintf (ascii "# No user-specified filters on this port" ++ crlf)
          if rc < -2 then pure (.lost rc) else pure (.done pass)
        else do
          ResM.modify fun c => { c with filterS := loginFilterS c.filterS args }
          loginFilters env pass args
      else loginOptions env pass args

/-- The client is logged in: the handler is switched, the client told so, and classified. -/
def loginSucceeded (env : HandlerEnv) (sslValidated : Bool) (pass : Option Bytes) :
    ClientM Int := do
  ResM.modify fun c =>
    { c with
      validated :=
        if !sslValidated && pass.any fun p => 0 ≤ atoi p && atoi p == aprsPasscode c.username then
          validatedWeak
        else c.validated
      filterS := sanitizeAsciiString c.filterS
      handlerLineIn := .incoming }
  let c ← ResM.get
  let rc ← clientPrintf (ascii "# logresp " ++ c.username ++ ascii " " ++
    ascii (if c.validated ≠ 0 then "verified" else "unverified") ++ ascii ", server " ++
    env.serverid ++ crlf)
  if rc < -2 then pure rc
  else do
    ResM.modify fun c => { c with state := .connected }
    pure 0

/-- `login_handler` from the loop over the options on. -/
def loginWithOptions (env : HandlerEnv) (sslValidated : Bool) (args : List Bytes) : ClientM Int := do
  match ← loginOptions env none args with
  | .failed rc => failedLogin rc
  | .lost rc => pure rc
  | .done pass => loginSucceeded env sslValidated pass

/-- `login_handler`, for the arguments of a line. -/
def loginArgs (env : HandlerEnv) (argv : List Bytes) : ClientM Int := do
  ResM.use
  match argv with
  | [] => pure 0
  | cmd :: args =>
      if cmd.head? = some (ch '#') then pure 0
      else match args with
      | [] => rejectLogin "# Invalid login string, too few arguments"
      | username :: args =>
          if !caseEq cmd (ascii "user") then do
            ResM.modify fun c =>
              { c with
                failedCmds := (if caseEq cmd (ascii "GET") then 10 else c.failedCmds) + 1 }
            rejectLogin "# Invalid login command"
          else if username.length > callsignlenMax then rejectLogin "# Invalid username format"
          else do
            ResM.modify fun c => { c with username := username }
            if disallowLoginUsernames.any (caseEq username ·) then
              rejectLogin "# Login by user not allowed"
            else if env.disallowLogin username then rejectLogin "# Login by user not allowed"
            else if checkInvalidQCallsign username then
              rejectLogin "# Invalid username format, not allowed"
            else if caseEq username env.serverid then
              rejectLogin "# Login by user not allowed (our serverid)"
            else do
              let c ← ResM.get
              match c.cert with
              | none => loginWithOptions env false args
              | some cert => do
                  let sslValidated ← loginClientValidateCert env cert
                  if sslValidated = -1 then failedLogin (-1)
                  else if sslValidated ≠ 1 then failedLogin 0
                  else loginWithOptions env true args

/-- `login_handler`. -/
def loginHandler (env : HandlerEnv) (s : Bytes) : ClientM Int :=
  loginArgs env (parseArgsNoshell s).1

/-! ## Uplinks -/

/-- The certificate of the other server is not good, in the given phase. -/
def certFails (phase : CertCheck → Int) (c : Session) : Bool := c.cert.any fun cert => phase cert != 0

/-- The welcome message is one of a server. -/
def uplinkWelcomes (argv : List Bytes) : Bool := (argv.head?.bind List.head?) == some (ch '#')

/-- `uplink_login_handler`. -/
def uplinkLoginHandler (env : HandlerEnv) (s : Bytes) : ClientM Int := do
  let c ← ResM.get
  if certFails CertCheck.phase1 c then do
    clientClose
    pure 0
  else
    let argv := (parseArgsNoshell s).1
    if !uplinkWelcomes argv then do
      clientClose
      pure 0
    else do
      ResM.modify fun c =>
        if argv.length ≥ 3 then
          { c with appName := (argv.getD 1 []).take 31, appVersion := (argv.getD 2 []).take 31 }
        else c
      let rc ← clientWrite (ascii "user " ++ env.serverid ++ ascii " pass " ++ env.passcode ++
        ascii " vers " ++ env.verstrAprsis ++ crlf)
      if rc < -2 then pure rc
      else do
        ResM.modify fun c => { c with handlerLineIn := .uplinkLogresp, state := .logresp }
        pure 0

/-- The name of the other server, when the login response is a good one. -/
def uplinkServerName (env : HandlerEnv) (argv : List Bytes) : Option Bytes :=
  match argv with
  | hash :: logresp :: call :: verified :: server :: name :: _ =>
      let name := name.takeWhile (· != comma)
      if hash.head? = some (ch '#') ∧ logresp = ascii "logresp" ∧ call = env.serverid ∧
          verified = ascii "verified," ∧ server = ascii "server" ∧
          name.length ≤ callsignlenMax ∧ caseEq name env.serverid = false then some name
      else none
  | _ => none

/-- `uplink_logresp_handler`. -/
def uplinkLogrespHandler (env : HandlerEnv) (s : Bytes) : ClientM Int := do
  ResM.use
  match uplinkServerName env (parseArgsNoshell s).1 with
  | none => do
      clientClose
      pure 0
  | some name => do
      ResM.modify fun c => { c with username := name, validated := validatedWeak }
      let c ← ResM.get
      if certFails CertCheck.phase2 c then do
        clientClose
        pure 0
      else do
        ResM.modify fun c =>
          { c with
            validated := if c.cert.isSome then validatedStrong else c.validated
            handlerLineIn := .incoming
            state := .connected }
        pure 0

/-! ## The current handler -/

/-- `c->handler_line_in`. -/
def handlerLineIn (env : HandlerEnv) (udp : Bool) (s : Bytes) : ClientM Int := do
  let c ← ResM.get
  match c.handlerLineIn with
  | .login => loginHandler env s
  | .incoming => incomingHandler env udp s
  | .uplinkLogin => uplinkLoginHandler env s
  | .uplinkLogresp => uplinkLogrespHandler env s

/-- What a handler leaves of a line and its terminator. Handlers that split a line into
arguments write NULs into it and over its terminator. -/
def lineAfter (env : HandlerEnv) (c : Session) (line : Bytes) (eol : UInt8) : Bytes :=
  match c.handlerLineIn with
  | .incoming => (env.incomingEdits c line).take line.length ++ [eol]
  | _ => (parseArgsNoshell line).2 ++ [0]

/-! ## What the handlers keep of a client -/

section

variable {I : Session → Prop} {env : HandlerEnv}

open ResM

theorem clientWrite_preserves (p : Bytes) : Preserves I (clientWrite p) :=
  (Preserves.call _).bind fun _ => .pure _

theorem clientPrintf_preserves (text : Bytes) : Preserves I (clientPrintf text) :=
  Preserves.use.bind fun _ => .ite (.pure _) (clientWrite_preserves text)

section
variable (hfailed : ∀ c, I c → I { c with failedCmds := c.failedCmds + 1 })
include hfailed

theorem failedLogin_preserves (rc : Int) : Preserves I (failedLogin rc) := by
  refine .ite (.pure _) (.modify_bind hfailed (.get_bind fun c _ => ?_))
  exact .ite (Preserves.destroy.bind fun _ => .pure _) (.pure _)

theorem rejectLogin_preserves (text : String) : Preserves I (rejectLogin text) :=
  (clientPrintf_preserves _).bind fun rc => failedLogin_preserves hfailed rc

end

theorem loginFilters_preserves
    (hfilters : ∀ c neg pos, I c → I { c with negUserFilters := neg, posUserFilters := pos })
    (pass : Option Bytes) (args : List Bytes) : Preserves I (loginFilters env pass args) := by
  induction args with
  | nil => exact .pure _
  | cons arg args ih =>
    refine .get_bind fun c _ => .modify_bind (fun c hc => hfilters c _ _ hc) (.ite ?_ ih)
    exact (clientPrintf_preserves _).bind fun rc => .ite (.pure _) ih

theorem messagingMessageClient_preserves (text : Bytes) :
    Preserves I (messagingMessageClient env text) :=
  .get_bind fun _ _ => clientPrintf_preserves _

theorem filterCommandReply_preserves (inMessage : Bool) (text : Bytes) :
    Preserves I (filterCommandReply env inMessage text) :=
  .ite (clientPrintf_preserves _) (messagingMessageClient_preserves text)

section
variable (hfilters : ∀ c neg pos s, I c →
  I { c with negUserFilters := neg, posUserFilters := pos, filterS := s })
include hfilters

theorem filterParses_preserves (args : List Bytes) {c : Session} (hc : I c) :
    I (args.foldl (fun c arg => c.filterParse env arg) c) := by
  induction args generalizing c with
  | nil => exact hc
  | cons arg args ih => exact ih (hfilters c _ _ c.filterS hc)

theorem newFilters_preserves (s : Bytes) {c : Session} (hc : I c) : I (newFilters env s c) :=
  filterParses_preserves hfilters _ (hfilters c _ _ _ hc)

theorem filterCommands_preserves (inMessage : Bool) (s : Bytes) :
    Preserves I (filterCommands env inMessage s) := by
  refine .get_bind fun c _ => .ite (clientWrite_preserves _) (.ite ?_ (.ite ?_ ?_))
  · exact filterCommandReply_preserves inMessage _
  · refine .modify_bind (fun c hc => hfilters c _ _ c.filterS hc) ?_
    exact filterCommandReply_preserves inMessage _
  · refine .modify_bind (fun c hc => newFilters_preserves hfilters _ hc) (.get_bind fun c _ => ?_)
    exact filterCommandReply_preserves inMessage _

theorem incomingServerMessage_preserves (srcname : Bytes) (message : Option AprsMessage) :
    Preserves I (incomingServerMessage env srcname message) := by
  cases message with
  | none => exact .pure 0
  | some am =>
    have hack : Preserves I (ackMessage env srcname am.msgid) := by
      cases am.msgid with
      | none => exact .pure 0
      | some msgid => exact clientPrintf_preserves _
    refine .ite (.pure 0) (hack.bind fun e => .ite (.pure e) (.ite ?_ (.ite ?_ ?_)))
    · exact .get_bind fun c _ => messagingMessageClient_preserves _
    · exact filterCommands_preserves hfilters true am.body
    · exact messagingMessageClient_preserves _

/-- Of a client that is logged in, a line changes nothing but the filters. -/
theorem incomingHandler_preserves (udp : Bool) (s : Bytes) :
    Preserves I (incomingHandler env udp s) := by
  have hdone : Preserves I accountPacket := Preserves.use.bind fun _ => .pure 0
  refine .ite hdone (.ite (.get_bind fun c _ => ?_) (.get_bind fun c _ => ?_))
  · split
    · exact filterCommands_preserves hfilters false _
    · exact .pure 0
  · split
    · exact hdone
    · exact (incomingServerMessage_preserves hfilters _ _).bind fun _ => hdone

end

/-- The arguments of a line are C strings. -/
theorem no_nul_parseArgsLoop {ct : Nat} {cmd arg : Bytes} (h : arg ∈ (parseArgsLoop ct cmd).1) :
    (0 : UInt8) ∉ arg := by
  induction ct generalizing cmd with
  | zero => simp [parseArgsLoop] at h
  | succ ct ih =>
    have hword : (0 : UInt8) ∉ (cmd.dropWhile isspace).takeWhile fun b => b != 0 && !isspace b := by
      intro hmem
      simpa using List.mem_takeWhile_imp hmem
    simp only [parseArgsLoop] at h
    split at h
    · cases h
    · split at h
      · rw [List.mem_singleton.mp h]
        exact hword
      · obtain rfl | hrest := List.mem_cons.mp h
        · exact hword
        · exact ih hrest

/-- No write of a login breaks the property. By then the length of a name and the range of a
port have been checked. -/
structure LoginStable (env : HandlerEnv) (I : Session → Prop) : Prop where
  failedCmds : ∀ c n, I c → I { c with failedCmds := n }
  username : ∀ c u, u.length ≤ callsignlenMax → (0 : UInt8) ∉ u → I c → I { c with username := u }
  validated : ∀ c v, v ≤ validatedStrong → I c → I { c with validated := v }
  appName : ∀ c app ver, I c → I (loginSetAppName env app ver c)
  udpPort : ∀ c (port : Int), 1024 ≤ port → port ≤ 65535 → I c → I { c with udpPort := port }
  filters : ∀ c neg pos s, I c →
    I { c with negUserFilters := neg, posUserFilters := pos, filterS := s }
  loggedIn : ∀ c, I c → I { c with handlerLineIn := .incoming }
  connected : ∀ c, I c → I { c with state := .connected }

section
variable (hI : LoginStable env I)
include hI

theorem LoginStable.failedLogin (rc : Int) : Preserves I (failedLogin rc) :=
  failedLogin_preserves (fun c hc => hI.failedCmds c _ hc) rc

theorem LoginStable.rejectLogin (text : String) : Preserves I (rejectLogin text) :=
  rejectLogin_preserves (fun c hc => hI.failedCmds c _ hc) text

theorem LoginStable.loginOptions (pass : Option Bytes) (args : List Bytes) :
    Preserves I (loginOptions env pass args) := by
  -- the cases follow the loop: the options that are known, in their order
  induction pass, args using loginOptions.induct with
  | case1 pass => exact .pure _
  | case2 pass arg hpass =>
    simp only [Aprsc.loginOptions, if_pos hpass]
    exact .pure _
  | case3 pass arg hpass p args ih =>
    simp only [Aprsc.loginOptions, if_pos hpass]
    exact ih
  | case4 pass arg hpass hvers =>
    simp only [Aprsc.loginOptions, if_neg hpass, if_pos hvers]
    exact .pure _
  | case5 pass arg hpass hvers app =>
    simp only [Aprsc.loginOptions, if_neg hpass, if_pos hvers]
    refine .modify_bind (fun c hc => hI.appName c _ _ hc) (.get_bind fun c _ => .ite (.pure _) ?_)
    exact (clientPrintf_preserves _).bind fun rc => .pure _
  | case6 pass arg hpass hvers app ver args ih =>
    simp only [Aprsc.loginOptions, if_neg hpass, if_pos hvers]
    refine .modify_bind (fun c hc => hI.appName c _ _ hc) (.get_bind fun c _ => .ite ?_ ih)
    exact (clientPrintf_preserves _).bind fun rc => .pure _
  | case7 pass arg hpass hvers hudp =>
    simp only [Aprsc.loginOptions, if_neg hpass, if_neg hvers, if_pos hudp]
    exact .pure _
  | case8 pass arg hpass hvers hudp port args hport =>
    simp only [Aprsc.loginOptions, if_neg hpass, if_neg hvers, if_pos hudp, if_pos hport]
    exact .pure _
  | case9 pass arg hpass hvers hudp port args hport ih =>
    simp only [Aprsc.loginOptions, if_neg hpass, if_neg hvers, if_pos hudp, if_neg hport]
    refine .get_bind fun c _ => .ite (.modify_bind (fun c hc => ?_) ih) ?_
    · exact hI.udpPort c _ (by omega) (by omega) hc
    · exact (clientPrintf_preserves _).bind fun rc => .ite (.pure _) ih
  | case10 pass arg args hpass hvers hudp hfilter =>
    unfold Aprsc.loginOptions
    rw [if_neg hpass, if_neg hvers, if_neg hudp, if_pos hfilter]
    refine .get_bind fun c _ => .ite ?_ (.modify_bind (fun c hc => ?_) ?_)
    · exact (clientPrintf_preserves _).bind fun rc => .ite (.pure _) (.pure _)
    · exact hI.filters c _ _ _ hc
    · exact loginFilters_preserves (fun c _ _ hc => hI.filters c _ _ c.filterS hc) pass args
  | case11 pass arg args hpass hvers hudp hfilter ih =>
    unfold Aprsc.loginOptions
    rw [if_neg hpass, if_neg hvers, if_neg hudp, if_neg hfilter]
    exact ih

theorem LoginStable.loginClientValidateCert (cert : CertCheck) :
    Preserves I (loginClientValidateCert env cert) := by
  refine .ite (.modify_bind (fun c hc => hI.validated c _ (Nat.le_refl _) hc) (.pure _)) ?_
  refine (clientPrintf_preserves _).bind fun rc => ?_
  exact .modify_bind (fun c hc => hI.failedCmds c _ hc) (.ite (.pure _) (.pure _))

theorem LoginStable.loginSucceeded (sslValidated : Bool) (pass : Option Bytes) :
    Preserves I (loginSucceeded env sslValidated pass) := by
  refine .modify_bind (fun c hc => ?_) (.get_bind fun c _ => ?_)
  · have hfilterS := hI.filters _ c.negUserFilters c.posUserFilters (sanitizeAsciiString c.filterS) hc
    split
    · exact hI.loggedIn _ (hI.validated _ validatedWeak (by decide) hfilterS)
    · exact hI.loggedIn _ hfilterS
  · refine (clientPrintf_preserves _).bind fun rc => .ite (.pure _) ?_
    exact .modify_bind hI.connected (.pure _)

theorem LoginStable.loginWithOptions (sslValidated : Bool) (args : List Bytes) :
    Preserves I (loginWithOptions env sslValidated args) := by
  refine (hI.loginOptions none args).bind fun e => ?_
  cases e with
  | failed rc => exact hI.failedLogin rc
  | lost rc => exact .pure rc
  | done pass => exact hI.loginSucceeded sslValidated pass

theorem LoginStable.loginArgs {argv : List Bytes} (hargv : ∀ arg ∈ argv, (0 : UInt8) ∉ arg) :
    Preserves I (loginArgs env argv) := by
  refine Preserves.use.bind fun _ => ?_
  cases argv with
  | nil => exact .pure 0
  | cons cmd args =>
    refine .ite (.pure 0) ?_
    cases args with
    | nil => exact hI.rejectLogin _
    | cons username args =>
      refine .ite (.modify_bind (fun c hc => hI.failedCmds c _ hc) (hI.rejectLogin _)) ?_
      by_cases hlen : username.length > callsignlenMax
      · simp only [if_pos hlen]
        exact hI.rejectLogin _
      simp only [if_neg hlen]
      refine .modify_bind (fun c hc => hI.username c _ (by omega) (hargv _ (by simp)) hc) ?_
      refine .ite (hI.rejectLogin _) (.ite (hI.rejectLogin _) (.ite (hI.rejectLogin _)
        (.ite (hI.rejectLogin _) (.get_bind fun c _ => ?_))))
      cases c.cert with
      | none => exact hI.loginWithOptions false args
      | some cert =>
        refine (hI.loginClientValidateCert cert).bind fun sslValidated => ?_
        exact .ite (hI.failedLogin _) (.ite (hI.failedLogin _) (hI.loginWithOptions true args))

theorem LoginStable.loginHandler (s : Bytes) : Preserves I (loginHandler env s) :=
  hI.loginArgs fun _ harg => no_nul_parseArgsLoop harg

theorem LoginStable.incomingHandler (udp : Bool) (s : Bytes) :
    Preserves I (incomingHandler env udp s) :=
  incomingHandler_preserves (fun c _ _ _ hc => hI.filters c _ _ _ hc) udp s

end

end

end Aprsc
