-- SUMMARY: `q_process` and `q_dropcheck` of `parse_qc.c`, with every read of the header they make.
import Aprsc.Incoming.Header

/-!
# The Q construct

`q_process` looks for a Q construct in the path of a packet, decides what to do
with it by the kind of the client, and generates a new one where needed. Unless
the packet is to be replaced outright, `q_dropcheck` then looks for loops in the
calls after the construct.

Pointers are offsets from `pdata`, the start of the packet. The header is read
through `Area`, so that every read and every length passed to a C function is in
the log of the result.
-/

namespace Aprsc

def maxQCalls : Nat := 64

/-- `PATH_APPEND_LEN`, the size of the buffer for a new construct. -/
def pathAppendLen : Int := 600

/-! ## q_dropcheck -/

/-- The loop that fills `qcallv`: the starts of at most the given number of calls
between `p` and `pathEnd`, and the pointer where the loop stops. -/
def qcallv (m : Area UInt8) (pathEnd : Int) : Nat → Int → Traced Access (List Int × Int)
  | 0, p => pure ([], p)
  | n + 1, p =>
      if p < pathEnd then do
        let p ← m.scanUntil (· != comma) (pathEnd - p).toNat p
        if p = pathEnd then pure ([], p)
        else do
          let e ← m.scanUntil (· == comma) (pathEnd - p).toNat p
          let r ← qcallv m pathEnd n e
          pure (p :: r.1, r.2)
      else pure ([], p)

/-- The calls that the array delimits: a call ends one before the next pointer of
the array, and the last pointer is one past the end of the scan. -/
def qcalls : List Int → Int → List (Int × Int)
  | [], _ => []
  | [a], p => [(a, p + 1 - a - 1)]
  | a :: b :: rest, p => (a, b - a - 1) :: qcalls (b :: rest) p

/-- The calls after the construct. -/
def qcallsAfter (m : Area UInt8) (qStart : Option Int) (pathEnd : Int) :
    Traced Access (List (Int × Int)) :=
  match qStart with
  | none => pure []
  | some q => do
      let r ← qcallv m pathEnd maxQCalls (q + 4)
      pure (qcalls r.1 r.2)

/-- The serverid is found after the construct. Only the first place where it
occurs is looked at. -/
def serverInPath (m : Area UInt8) (serverid : Bytes) (qStart : Option Int) (pathEnd : Int) :
    Traced Access Bool :=
  match qStart with
  | none => pure false
  | some q => do
      match ← m.memmem (q + 4) (pathEnd - q - 4) serverid with
      | none => pure false
      | some p =>
          let e := p + serverid.length
          if (← m.read (p - 1)) == comma then do
            if (← m.read e) == comma then pure true
            else if e = pathEnd then pure true
            else pure ((← m.read e) == ch ':')
          else pure false

/-- Step 1): one of the later calls equals the call of length `l` at `a`. -/
def callTwice (m : Area UInt8) (a l : Int) : List (Int × Int) → Traced Access Bool
  | [] => pure false
  | (b, l') :: rest =>
      if l = l' then do
        if (← m.bytes a l) == (← m.bytes b l) then pure true else callTwice m a l rest
      else callTwice m a l rest

/-- The call of length `l` at `a` is the login of the client. -/
def callIsLogin (m : Area UInt8) (c : Client) (a l : Int) : Traced Access Bool :=
  if l = c.username.length then do pure (caseEq (← m.bytes a l) c.username) else pure false

/-- Steps 2) and 3): the call is the login but not the last call, or it belongs to
another client, or it is no callsign. -/
def checkQCall (clientlist : List ClientEntry) (m : Area UInt8) (c : Client) (a l : Int)
    (isLogin last : Bool) : Traced Access (Option Int) :=
  if isLogin then
    if c.state = .connected ∧ c.has clflagsInport ∧ !last then pure (some inerrQPathLoginNotLast)
    else pure none
  else do
    let call ← m.bytes a l
    if clientlistCheckIfValidatedClient clientlist call ≠ -1 then
      pure (some inerrQPathCallIsLocalClient)
    else if checkInvalidQCallsign call then pure (some inerrQPathCallIsInvalid)
    else pure none

/-- A call after `qAU` is the source callsign. -/
def qauSrccall (m : Area UInt8) (qType : UInt8) (a l : Int) : Traced Access Bool :=
  if qType == ch 'U' then do
    if (← m.bytes a l) == (← m.bytes 0 l) then pure ((← m.read l) == ch '>') else pure false
  else pure false

/-- The loop over the calls: the code to drop the packet with, or whether the login
was found. -/
def checkQCalls (clientlist : List ClientEntry) (m : Area UInt8) (c : Client) (qType : UInt8) :
    List (Int × Int) → (loginInPath : Bool) → Traced Access (Except Int Bool)
  | [], loginInPath => pure (.ok loginInPath)
  | (a, l) :: rest, loginInPath => do
      if ← callTwice m a l rest then pure (.error inerrQQpathCallTwice)
      else do
        let isLogin ← callIsLogin m c a l
        match ← checkQCall clientlist m c a l isLogin rest.isEmpty with
        | some rc => pure (.error rc)
        | none => do
            if ← qauSrccall m qType a l then pure (.error inerrQQauPathCallIsSrccall)
            else checkQCalls clientlist m c qType rest (loginInPath || isLogin)

/-- The regenerated `qAI` trace: the existing one, the login and the serverid. Of
the two `snprintf` calls the first one may be cut short by the end of the buffer,
but then the check after it fails. -/
def appendTrace (cfg : Config) (m : Area UInt8) (c : Client) (q pathEnd : Int)
    (loginInPath : Bool) : Traced Access (Except Int Bytes) :=
  if pathEnd - q - 1 > pathAppendLen then pure (.error inerrQNewqBufferSmall)
  else do
    let trace ← m.bytes (q + 1) (pathEnd - q - 1)
    let trace :=
      if c.validated && !loginInPath && c.state != .corepeer then trace ++ comma :: c.username
      else trace
    if pathAppendLen - trace.length < 20 then pure (.error inerrQNewqBufferSmall)
    else pure (.ok (trace ++ comma :: cfg.serverid))

/-- `q_dropcheck`: the code to drop the packet with, or the construct to append and
where to replace the old one from. -/
def qDropcheck (cfg : Config) (clientlist : List ClientEntry) (m : Area UInt8) (c : Client)
    (newQ : Bytes) (qProto qType : UInt8) (qStart : Option Int) (pathEnd : Int) :
    Traced Access (Except Int (Bytes × Option Int)) :=
  if qProto != cfg.qProtocolId && cfg.disallowOtherProtocolId then
    pure (.error inerrQDisallowProtocol)
  else if qType == ch 'X' && cfg.disallowUnverified then pure (.error inerrQQax)
  else if qType == ch 'Z' then pure (.error inerrQQaz)
  else do
    let calls ← qcallsAfter m qStart pathEnd
    if ← serverInPath m cfg.serverid qStart pathEnd then pure (.error inerrQQpathMycall)
    else do
      match ← checkQCalls clientlist m c qType calls false with
      | .error rc => pure (.error rc)
      | .ok loginInPath =>
          match qStart with
          | some q =>
              if qType == ch 'I' then do
                match ← appendTrace cfg m c q pathEnd loginInPath with
                | .error rc => pure (.error rc)
                | .ok newQ => pure (.ok (newQ, some (q + 1)))
              else pure (.ok (newQ, none))
          -- a construct of type `I` was found in the path, so there is a start
          | none => pure (.ok (newQ, none))

/-! ## q_process -/

/-- The pointer `new_q_start` that `q_process` sets, or leaves as `NULL`. -/
inductive QPtr where
  | null
  /-- `NULL + 1`, below every packet. -/
  | low
  | at (off : Int)
deriving Repr, DecidableEq

/-- `q_start + 1`. -/
def QPtr.after : Option Int → QPtr
  | none => .low
  | some q => .at (q + 1)

/-- The construct found in the path. A malformed one has protocol and type 0, and
the path ends before it. -/
structure QFound where
  qStart : Option Int
  qNextcallEnd : Int
  qProto : UInt8
  qType : UInt8
  pathEnd : Int
deriving Repr, DecidableEq

/-- What `q_process` returns when it does not drop the packet. -/
structure QOut where
  /-- The packet, where the type of the construct may have been edited in place. -/
  area : Area UInt8
  /-- `path_append`. -/
  newQ : Bytes
  pathEnd : Int
  newQStart : QPtr
  qReplace : Option Int

/-- The first block of `q_process`: find a construct, and a call after it. -/
def findQConstruct (m : Area UInt8) (viaStart pathEnd : Int) : Traced Access QFound := do
  match ← m.memmem viaStart (pathEnd - viaStart) (ascii ",q") with
  | none => pure ⟨none, 0, 0, 0, pathEnd⟩
  | some q =>
      match ← m.memchr (q + 1) comma (pathEnd - q - 1) with
      | none => pure ⟨some q, 0, 0, 0, q⟩
      | some nextcall =>
          if nextcall - q ≠ 4 then pure ⟨some q, 0, 0, 0, q⟩
          else do
            let qProto ← m.read (q + 2)
            let qType ← m.read (q + 3)
            let e ← m.scanUntil (fun b => b == comma || b == ch ':')
              (pathEnd - (nextcall + 1)).toNat (nextcall + 1)
            if nextcall + 1 = e then pure ⟨some q, e, 0, 0, q⟩
            else pure ⟨some q, e, qProto, qType, pathEnd⟩

/-- A construct as `snprintf` writes it. -/
def qText (qProto : UInt8) (qType : Char) (call : Bytes) : Bytes :=
  comma :: ch 'q' :: qProto :: ch qType :: comma :: call

/-- The path ends with `,TCPIP*`. -/
def pathEndsTcpip (m : Area UInt8) (pathEnd pathlen : Int) : Traced Access Bool :=
  if pathlen > 7 then do pure ((← m.bytes (pathEnd - 7) 7) == ascii ",TCPIP*") else pure false

/-- The end of a path, as the three places that look for `,VIACALL,I` see it. -/
inductive ITail where
  /-- There is no `,I`. -/
  | absent
  /-- There is no call before the `,I`. -/
  | noViacall
  /-- The comma before the call. -/
  | viacall (p : Int)
deriving Repr, DecidableEq

/-- Go back from the `,I` to the comma before the call. -/
def prevComma (m : Area UInt8) (viaStart pathEnd : Int) : Traced Access Int :=
  if viaStart < pathEnd - 3 then
    m.scanBack (· == comma) viaStart (pathEnd - 3 - viaStart).toNat
  else pure (pathEnd - 3)

/-- Look for `,VIACALL,I` at the end of the path. -/
def pathEndsI (m : Area UInt8) (viaStart pathEnd pathlen : Int) : Traced Access ITail :=
  if pathlen > 2 then do
    if (← m.read (pathEnd - 1)) == ch 'I' then do
      if (← m.read (pathEnd - 2)) == comma then do
        let p ← prevComma m viaStart pathEnd
        if (← m.read p) == comma then pure (.viacall p) else pure .noViacall
      else pure .absent
    else pure .absent
  else pure .absent

/-- The call between a comma and the `,I`. -/
def viacall (m : Area UInt8) (p pathEnd : Int) : Traced Access Bytes :=
  m.bytes (p + 1) (pathEnd - 2 - (p + 1))

/-- Text that `%.*s` prints: up to the first NUL. -/
def printed (s : Bytes) : Bytes := s.takeWhile (· != 0)

section

variable (cfg : Config) (clientlist : List ClientEntry) (m : Area UInt8) (c : Client)

/-- Skip to "All packets with q constructs". -/
def skipToDropcheck (newQ : Bytes) (qProto qType : UInt8) (qStart : Option Int) (pathEnd : Int)
    (newQStart : QPtr) : Traced Access (Except Int QOut) := do
  match ← qDropcheck cfg clientlist m c newQ qProto qType qStart pathEnd with
  | .error rc => pure (.error rc)
  | .ok (newQ, qReplace) => pure (.ok ⟨m, newQ, pathEnd, newQStart, qReplace⟩)

/-- Return a generated construct that is appended at `pathEnd`. -/
def appendQ (newQ : Bytes) (pathEnd : Int) (qReplace : Option Int) :
    Traced Access (Except Int QOut) :=
  pure (.ok ⟨m, newQ, pathEnd, .null, qReplace⟩)

/-- The type that a client-only connection changes a construct to, when it changes
it. -/
def clientOnlyType (qType : UInt8) : Option UInt8 :=
  if qType == ch 'R' || qType == ch 'r' then some (ch 'o')
  else if qType == ch 'S' then some (ch 'O')
  else if qType == ch 'C' then some (ch 'O')
  else none

/-- A packet from a verified client-only connection that someone else originated. -/
def qClientOnly (f : QFound) (viaStart pathlen : Int) : Traced Access (Except Int QOut) := do
  if f.qProto != 0 then
    match clientOnlyType f.qType, f.qStart with
    | some t, some q =>
        skipToDropcheck cfg clientlist (m.set (q + 3) t) c [] f.qProto t f.qStart f.pathEnd
          (.after f.qStart)
    | _, _ =>
        skipToDropcheck cfg clientlist m c [] f.qProto f.qType f.qStart f.pathEnd
          (.after f.qStart)
  else do
    let addQAO := skipToDropcheck cfg clientlist m c (qText cfg.qProtocolId 'O' c.username)
      cfg.qProtocolId (ch 'O') f.qStart f.pathEnd .null
    match ← pathEndsI m viaStart f.pathEnd pathlen with
    | .absent => addQAO
    | .noViacall => do
        Traced.tell (.span 0 pathlen)
        addQAO
    | .viacall p => do
        Traced.tell (.span 0 pathlen)
        let prevcall ← viacall m p f.pathEnd
        skipToDropcheck cfg clientlist m c (qText cfg.qProtocolId 'o' (printed prevcall))
          cfg.qProtocolId (ch 'o') f.qStart p .null

/-- A packet from an inbound connection. -/
def qInbound (f : QFound) (viaStart pathlen : Int) (originated : Bool) :
    Traced Access (Except Int QOut) := do
  if c.has clflagsUdpsubmit then do
    let pathEnd := if f.qProto != 0 then f.qStart.getD f.pathEnd else f.pathEnd
    if ← pathEndsTcpip m pathEnd pathlen then
      appendQ m (qText cfg.qProtocolId 'U' cfg.serverid) pathEnd none
    else
      appendQ m (ascii ",TCPIP*" ++ qText cfg.qProtocolId 'U' cfg.serverid) pathEnd none
  else if !c.validated && originated then
    let newQ := ascii ",TCPXX*" ++ qText cfg.qProtocolId 'X' cfg.serverid
    if f.qProto != 0 && f.qNextcallEnd == f.pathEnd then appendQ m newQ viaStart none
    else if f.qProto != 0 && f.qNextcallEnd < f.pathEnd then
      pure (.error inerrQNonvalMultiQCalls)
    else appendQ m newQ viaStart none
  else if c.validated && c.has clflagsClientonly && originated then
    appendQ m (qText cfg.qProtocolId 'C' cfg.serverid) (f.qStart.getD viaStart) none
  else if c.validated && c.has clflagsClientonly && !originated then
    qClientOnly cfg clientlist m c f viaStart pathlen
  else if f.qProto != 0 then
    skipToDropcheck cfg clientlist m c [] f.qProto f.qType f.qStart f.pathEnd (.after f.qStart)
  else do
    match ← pathEndsI m viaStart f.pathEnd pathlen with
    | .noViacall => pure (.error inerrQINoViacall)
    | .viacall p => do
        let prevcall ← viacall m p f.pathEnd
        if c.username.length == prevcall.length && caseEq c.username prevcall then
          skipToDropcheck cfg clientlist m c (qText cfg.qProtocolId 'R' c.username)
            cfg.qProtocolId (ch 'R') f.qStart p .null
        else
          skipToDropcheck cfg clientlist m c (qText cfg.qProtocolId 'r' (printed prevcall))
            cfg.qProtocolId (ch 'r') f.qStart p .null
    | .absent =>
        if originated then do
          if ← pathEndsTcpip m f.pathEnd pathlen then
            appendQ m (qText (ch 'A') 'C' cfg.serverid) f.pathEnd none
          else
            appendQ m (ascii ",TCPIP*" ++ qText (ch 'A') 'C' cfg.serverid) f.pathEnd none
        else
          skipToDropcheck cfg clientlist m c (qText cfg.qProtocolId 'S' c.username)
            cfg.qProtocolId (ch 'S') f.qStart f.pathEnd .null

/-- The packet is logged when there is no construct and none was generated. -/
def logMissing (qStart : Option Int) : Traced Access PUnit :=
  if qStart = none then Traced.tell (.cstr 0) else pure ⟨⟩

/-- A packet that is not from an inbound connection. -/
def qOutbound (f : QFound) (viaStart pathlen : Int) : Traced Access (Except Int QOut) := do
  if f.qProto == 0 && c.has clflagsUplinkport then do
    match ← pathEndsI m viaStart f.pathEnd pathlen with
    | .noViacall => pure (.error inerrQINoViacall)
    | .viacall p => do
        let prevcall ← viacall m p f.pathEnd
        skipToDropcheck cfg clientlist m c (qText cfg.qProtocolId 'r' (printed prevcall))
          cfg.qProtocolId (ch 'r') f.qStart p .null
    | .absent =>
        skipToDropcheck cfg clientlist m c (qText cfg.qProtocolId 'S' c.addrHex)
          cfg.qProtocolId (ch 'S') f.qStart f.pathEnd .null
  else do
    logMissing f.qStart
    skipToDropcheck cfg clientlist m c [] f.qProto f.qType f.qStart f.pathEnd (.after f.qStart)

/-- `q_process`. -/
def qProcess (viaStart pathlen : Int) (originated : Bool) : Traced Access (Except Int QOut) := do
  let f ← findQConstruct m viaStart pathlen
  if f.qStart = none ∧ originated ∧ !c.has clflagsUdpsubmit then
    if c.validated then
      appendQ m (ascii ",TCPIP*" ++ qText cfg.qProtocolId 'C' cfg.serverid) f.pathEnd (some viaStart)
    else
      appendQ m (ascii ",TCPXX*" ++ qText cfg.qProtocolId 'X' cfg.serverid) f.pathEnd (some viaStart)
  else if c.validated && originated && c.has clflagsInport && f.qType != ch 'I' &&
      !c.has clflagsUdpsubmit then
    appendQ m (ascii ",TCPIP*" ++ qText cfg.qProtocolId 'C' cfg.serverid) f.pathEnd (some viaStart)
  else if c.state = .connected ∧ c.has clflagsInport then
    qInbound cfg clientlist m c f viaStart pathlen originated
  else
    qOutbound cfg clientlist m c f viaStart pathlen

end

end Aprsc
