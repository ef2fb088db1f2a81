-- SUMMARY: `incoming_parse`: quirks, the rewritten packet buffer, and the decision to queue it.
import Aprsc.Incoming.Qconst
import Aprsc.ParseAprs.Body

/-!
# Incoming packets

`incoming_parse` takes a line from a client. It checks the header, has the Q
construct processed, builds a packet buffer from the parts, parses the payload
and puts the buffer in the incoming queue of the worker, unless one of the steps
drops the packet.
-/

namespace Aprsc

/-! ## Quirks mode -/

/-- The loop that copies the path without the spaces after its callsigns. `after` is
the byte after the packet. -/
def quirkPath (after : UInt8) : (fuel : Nat) → Bytes → Except Int (Bytes × Bytes)
  | 0, rest => .ok ([], rest)
  | fuel + 1, rest =>
      if rest.isEmpty || rest.head? == some (ch ':') then .ok ([], rest)
      else
        let stops := fun b => b == comma || b == ch ':' || b == ch ' '
        let elem := rest.takeWhile (! stops ·)
        let rest := (rest.dropWhile (! stops ·)).dropWhile (· == ch ' ')
        if rest.head? == some comma then do
          let r ← quirkPath after fuel (rest.drop 1)
          .ok (elem ++ comma :: r.1, r.2)
        else if rest.headD after == ch ':' then do
          let r ← quirkPath after fuel rest
          .ok (elem ++ r.1, r.2)
        else .error inerrInvPathCall

/-- The copy of a packet that quirks mode parses instead. -/
def quirked (after : UInt8) (s : Bytes) : Except Int Bytes :=
  let s := s.dropWhile fun b => b == ch ' ' || b == 0
  if s.isEmpty then .error inerrEmpty
  else
    let stops := fun b => b == ch '>' || b == ch ' '
    let src := s.takeWhile (! stops ·)
    let rest := (s.dropWhile (! stops ·)).dropWhile (· == ch ' ')
    if rest.headD after != ch '>' then .error inerrNoDst
    else do
      let r ← quirkPath after (rest.length + 1) rest
      .ok (src ++ r.1 ++ r.2)

/-! ## The packet buffer -/

/-- The loop of `check_igate_calls` over the text that is left. -/
def checkIgateCallsLoop (cfg : Config) (set : List Bytes) : (fuel : Nat) → Bytes → Bool
  | 0, _ => false
  | fuel + 1, rest =>
      if rest.isEmpty then false
      else
        let e := rest.takeWhile (· != comma)
        if checkCallGlobMatch cfg.fnmatch set e then true
        else checkIgateCallsLoop cfg set fuel (rest.drop (e.length + 1))

/-- The check of the construct and the calls after it against
`disallow_igate_glob`. -/
def disallowedIgate (cfg : Config) (q : QOut) : Bool :=
  match cfg.disallowIgateGlob, q.newQStart with
  | some set, .at off =>
      if 0 ≤ off ∧ off < q.pathEnd then
        let text := q.area.slice off (q.pathEnd - off).toNat
        checkIgateCallsLoop cfg set text.length text
      else false
  | _, _ => false

/-- `new_len`, the size of the packet buffer. -/
def newLen (len : Nat) (q : QOut) : Int :=
  match q.qReplace with
  | some r => len + q.newQ.length - (q.pathEnd - r) + 3
  | none => len + q.newQ.length + 3

/-- The end of the part of the header that is copied. -/
def QOut.cut (q : QOut) : Int := q.qReplace.getD q.pathEnd

/-- `pb->qconst_start`, when a construct was found or generated. -/
def QOut.qconstStart (q : QOut) : Option Int :=
  match q.newQStart with
  | .null => if q.newQ.length > 0 then some (q.cut + 1) else none
  | .low => none
  | .at off => if 0 < off ∧ off < q.pathEnd then some off else none

/-- The bytes of the packet buffer: the unmodified part of the header, the appended
part, the unmodified end of the packet, and CRLF. -/
def QOut.data (q : QOut) (len pathlen : Nat) : Bytes :=
  q.area.slice 0 q.cut.toNat ++ q.newQ ++ q.area.slice pathlen (len - pathlen) ++ [0x0D, 0x0A]

/-- The offset of the information field in the packet buffer. -/
def QOut.infoStart (q : QOut) : Nat := q.cut.toNat + q.newQ.length + 1

/-- The packet buffer, before the payload is parsed. -/
def QOut.pbuf (q : QOut) (h : Header) (len : Nat) (flags : UInt16) (qconstStart : Int) (tick : Int) :
    Pbuf where
  data := q.data len h.pathlen
  packetLen := (q.data len h.pathlen).length
  packettype := 0
  flags := flags
  srcname := 0
  srcnameLen := h.srcLen
  dstname := none
  dstnameLen := 0
  srccallEnd := h.srcLen
  dstcallEndOrSsid := h.dstcallEndOrSsid
  dstcallEnd := h.viaStart
  dstcallLen := h.viaStart - h.srcLen - 1
  qconstStart := qconstStart.toNat
  infoStart := q.infoStart
  t := tick

/-! ## incoming_parse -/

/-- What `incoming_parse` reads from outside of the packet and the client. -/
structure IncomingEnv where
  cfg : Config
  clientlist : List ClientEntry
  /-- The memory around the line. -/
  mem : Area UInt8
  /-- The memory around the packet buffer. -/
  pbMem : Area UInt8
  /-- `pbuf_get` has a buffer. -/
  pbufGet : Bool
  tick : Int
  leaf : AprsLeaves
  /-- The result of `incoming_server_message`. -/
  serverMessage : Pbuf → Int

/-- A server without any restriction, whose parsers find nothing. -/
def IncomingEnv.unrestricted : IncomingEnv where
  cfg := .unrestricted
  clientlist := []
  mem := ⟨fun _ => 0, fun _ => none⟩
  pbMem := ⟨fun _ => 0, fun _ => none⟩
  pbufGet := true
  tick := 0
  leaf := fun _ _ f => (0, f)
  serverMessage := fun _ => 0

/-- The result of `incoming_parse`. -/
inductive Incoming where
  /-- The packet is not queued. -/
  | dropped (rc : Int)
  | queued (rc : Int) (pb : Pbuf)
deriving Repr, DecidableEq

/-- The class of a packet, by the client it came from, or the code it is dropped
with. -/
def classify (c : Client) : Except Int UInt16 :=
  if c.state = .corepeer ∨ c.has clflagsUplinkport then .ok fFromUpstr
  else if c.has clflagsDupefeed then .error 0
  else if c.has clflagsInport then .ok fFromDownstr
  else .error inerrClassFail

/-- The fields that `parse_aprs` sees. -/
def Pbuf.aprsFields (pb : Pbuf) : AprsFields :=
  ⟨pb.packettype, pb.flags, pb.srcname, pb.srcnameLen, none, 0, pb.position⟩

/-- The packet buffer with the fields that `parse_aprs` has set. -/
def Pbuf.withAprs (pb : Pbuf) (f : AprsFields) : Pbuf :=
  { pb with
    packettype := f.packettype
    flags := f.flags
    srcname := f.srcname.toNat
    srcnameLen := f.srcnameLen.toNat
    dstname := f.dstname.map Int.toNat
    dstnameLen := f.dstnameLen.toNat
    position := f.position }

/-- The packet is a message to `SERVER`. -/
def toServer (rc : Int) (pb : Pbuf) : Bool :=
  rc == 0 && pb.packettype &&& tMessage != 0 && pb.dstnameLen == 6 &&
    pb.dstname.any fun off => caseEq ((pb.data.drop off).take 6) (ascii "SERVER")

/-- `filter_preprocess_dupefilter`: only its flag is part of the buffer's model. -/
def filterPreprocessDupefilter (pb : Pbuf) : Pbuf :=
  let via := (pb.data.drop pb.dstcallEnd).take (pb.qconstStart - pb.dstcallEnd)
  if (findSub (ascii ",TCPIP*,") (via.takeWhile (· != 0))).isSome then
    { pb with flags := pb.flags ||| fHasTcpip }
  else pb

/-- The last steps of `incoming_parse`, on a parsed packet. -/
def queuePbuf (env : IncomingEnv) (c : Client) (via : Bytes) (originated : Bool) (rc : Int)
    (pb : Pbuf) : Incoming :=
  if rc < 0 then .dropped rc
  else if toServer rc pb then
    if originated then .dropped (env.serverMessage pb) else .dropped rc
  else if pb.packettype &&& tQuery != 0 then .dropped inerrGeneralQuery
  else if env.cfg.disallowUnverified && !c.validated then .dropped inerrDisallowUnverified
  else if env.cfg.disallowUnverified && (findSub (ascii ",TCPXX") via).isSome then
    .dropped inerrDisallowUnverifiedPath
  else .queued rc (filterPreprocessDupefilter pb)

/-- `incoming_parse` from the result of `q_process` on. -/
def rewritePacket (env : IncomingEnv) (c : Client) (h : Header) (len : Nat) (originated : Bool)
    (src : Bytes) (q : QOut) : Except Int Pbuf :=
  if disallowedIgate env.cfg q then .error inerrDisIgatecall
  else if newLen len q > packetlenMax then .error inerrLongPacket
  else if !env.pbufGet then .error inerrOutOfPbufs
  else match classify c with
  | .error rc => .error rc
  | .ok flags =>
      let dupe := !originated && clientlistCheckIfValidatedClient env.clientlist src != -1
      match q.qconstStart with
      | none => .error inerrQBug
      | some qc =>
          .ok (q.pbuf h len (if dupe then flags ||| fDupe else flags) qc env.tick)

/-- `parse_aprs` on a packet buffer. A packet holds fewer frames than bytes, so the
parser does not run out of fuel. -/
def parseAprsPbuf (env : IncomingEnv) (pb : Pbuf) : Traced Access (Option (Int × AprsFields)) :=
  parseAprs env.leaf (env.pbMem.load (pb.data ++ [0])) pb.packetLen pb.infoStart pb.aprsFields

/-- `incoming_parse`, after quirks mode. -/
def incomingParseLine (env : IncomingEnv) (c : Client) (s : Bytes) : Incoming :=
  match parseHeader env.cfg s with
  | .error rc => .dropped rc
  | .ok h =>
      let originated := c.username == h.src s
      match (qProcess env.cfg env.clientlist (env.mem.load s) c h.viaStart h.pathlen originated).val with
      | .error rc => .dropped rc
      | .ok q =>
          match rewritePacket env c h s.length originated (h.src s) q with
          | .error rc => .dropped rc
          | .ok pb =>
              let r := (parseAprsPbuf env pb).val.getD (0, pb.aprsFields)
              queuePbuf env c (q.area.slice h.viaStart (h.pathlen - h.viaStart)) originated r.1
                (pb.withAprs r.2)

/-- The line that is parsed: quirks mode parses a copy. -/
def lineOf (env : IncomingEnv) (c : Client) (s : Bytes) : Except Int Bytes :=
  if c.quirksMode then quirked (env.mem.byte s.length) s else .ok s

/-- `incoming_parse`. -/
def incomingParse (env : IncomingEnv) (c : Client) (s : Bytes) : Incoming :=
  match lineOf env c s with
  | .error rc => .dropped rc
  | .ok s => incomingParseLine env c s

end Aprsc
