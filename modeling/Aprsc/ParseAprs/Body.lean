-- SUMMARY: `parse_aprs` and the functions that unwrap third-party frames and look at messages, with every read of the packet they make.
import Aprsc.Incoming.Header
import Aprsc.Pbuf

/-!
# The APRS payload

`parse_aprs` looks at the information field of a packet to learn its type. A
third-party frame holds another packet, whose own information field is parsed in
turn, to any depth. The length that the checks of `parse_aprs_body` use stays that
of the outer packet, while the pointer to the field moves into the inner one.

Pointers are offsets from `pb->data`, which the CRLF and a NUL terminate. The
parsers of positions, objects, items and telemetry are parameters: they set only
fields of `AprsFields`.
-/

namespace Aprsc

/-- The fields of `struct pbuf_t` that `parse_aprs` sets. -/
structure AprsFields where
  packettype : UInt16
  flags : UInt16
  srcname : Int
  srcnameLen : Int
  dstname : Option Int
  dstnameLen : Int
  position : Position
deriving Repr, DecidableEq

/-- Add a type. -/
def AprsFields.mark (f : AprsFields) (t : UInt16) : AprsFields :=
  { f with packettype := f.packettype ||| t }

/-- The parsers that `parse_aprs_body` calls at the end. -/
inductive AprsLeaf where
  | mice | compressed | uncompressed | nmea | object | item | telem
deriving Repr, DecidableEq

/-- What the parsers return and set, for a body that starts at an offset. -/
abbrev AprsLeaves := AprsLeaf → Int → AprsFields → Int × AprsFields

/-! ## Messages -/

/-- `disallow_msg_recipients`. -/
def disallowMsgRecipients : List Bytes :=
  [ascii "javaMSG", ascii "JAVATITLE", ascii "JAVATITL2", ascii "USERLIST", ascii "KIPSS"]

/-- `memcmp` of the memory at `a` with a literal finds them equal. -/
def memcmpEq (m : Area UInt8) (a : Int) (lit : Bytes) : Traced Access Bool := do
  pure ((← m.bytes a lit.length) == lit)

/-- The message names parameters, units, equations or bits of telemetry. The five
bytes are compared with up to four texts. -/
def isTelemetryMessage (m : Area UInt8) (body bodyLen : Int) : Traced Access Bool := do
  if (← m.read (body + 9)) == ch ':' then
    if bodyLen ≥ 10 + 6 then do
      let text ← m.bytes (body + 10) 5
      pure ([ascii "PARM.", ascii "UNIT.", ascii "EQNS.", ascii "BITS."].contains text)
    else pure false
  else pure false

/-- `preparse_aprs_message`. -/
def preparseAprsMessage (m : Area UInt8) (body bodyLen : Int) (f : AprsFields) :
    Traced Access (Int × AprsFields) := do
  let nws ← memcmpEq m body (ascii "NWS-")
  let nws' ← memcmpEq m body (ascii "NWS_")
  let sky ← memcmpEq m body (ascii "SKY")
  let telemetry ← isTelemetryMessage m body bodyLen
  -- the recipient is padded with spaces
  let e ← m.scanUntil (fun b => b == ch ' ' || b == ch ':' || b == 0) callsignlenMax body
  let recipient ← m.bytes body (e - body)
  let f := if nws || nws' || sky then f.mark tNws else f
  let f :=
    if telemetry then
      { f with packettype := (f.packettype &&& ~~~tMessage) ||| tTelemetry }
    else f
  let f := { f with dstname := some body, dstnameLen := e - body }
  pure (if disallowMsgRecipients.contains recipient then inerrDisMsgDst else 0, f)

/-! ## Third-party frames -/

/-- What the header of a third-party frame amounts to. -/
inductive ThirdParty where
  /-- It is not one; the packet is not dropped. -/
  | noMatch
  | invalid (rc : Int)
  /-- The end of the source callsign, and the `:` after the path. -/
  | frame (srcEnd body : Int)
deriving Repr, DecidableEq

/-- `check_path_calls` on the path between two offsets. It reads the element at the
end of the path, too. -/
def pathCalls (m : Area UInt8) (viaStart pathEnd : Int) : Traced Access (Option Nat) :=
  if viaStart + 1 < pathEnd then do
    Traced.tell (.span (viaStart + 1) (pathEnd - viaStart))
    pure (checkPathCalls (m.slice viaStart (pathEnd - viaStart).toNat))
  else pure (checkPathCalls (m.slice viaStart (pathEnd - viaStart).toNat))

/-- The checks of `parse_aprs_3rdparty` on the callsigns of the header at `s`. -/
def check3rdpartyCalls (m : Area UInt8) (s srcEnd body : Int) : Traced Access ThirdParty := do
  if checkInvalidSrcDst (← m.bytes s (srcEnd - s)) then pure (.invalid inerrInvSrccall)
  else do
    let dstcallEnd ← m.scanUntil (fun b => b == comma || b == ch ':')
      (body - (srcEnd + 1)).toNat (srcEnd + 1)
    if checkInvalidSrcDst (← m.bytes (srcEnd + 1) (dstcallEnd - (srcEnd + 1))) then
      pure (.invalid inerrInvDstcall)
    else do
      match ← pathCalls m dstcallEnd body with
      | some (_ + 2) => pure (.frame srcEnd body)
      | _ => pure (.invalid inerrInv3rdParty)

/-- `parse_aprs_3rdparty`, up to the call of `parse_aprs_body`: the header at `s`. -/
def parse3rdpartyHeader (m : Area UInt8) (packetLen s : Int) : Traced Access ThirdParty := do
  match ← m.memchr s (ch ':') (packetLen - 2 - s) with
  | none => pure .noMatch
  | some body =>
      match ← m.memchr s (ch '>')
          (if body - s < callsignlenMax + 1 then body - s else callsignlenMax + 1) with
      | none => pure .noMatch
      | some srcEnd =>
          if srcEnd + 1 ≥ body then pure (.invalid inerrInv3rdParty)
          else check3rdpartyCalls m s srcEnd body

/-! ## Bodies -/

/-- `valid_sym_table_compressed`. -/
def validSymTableCompressed (b : UInt8) : Bool :=
  b == ch '/' || b == ch '\\' || (0x41 ≤ b && b ≤ 0x5A) || (0x61 ≤ b && b ≤ 0x6A)

/-- A decimal digit. -/
def isDigit (b : UInt8) : Bool := 0x30 ≤ b && b ≤ 0x39

/-- A compressed or an uncompressed position at `p`, by its first character. -/
def parsePosition (leaf : AprsLeaves) (m : Area UInt8) (p bodyEnd : Int) (f : AprsFields) :
    Traced Access (Int × AprsFields) := do
  let poschar ← m.read p
  if validSymTableCompressed poschar then
    pure (if bodyEnd - p ≥ 13 then leaf .compressed p f else (0, f))
  else if isDigit poschar then
    pure (if bodyEnd - p ≥ 19 then leaf .uncompressed p f else (0, f))
  else pure (0, f)

/-- The position packets `!`, `=`, `/` and `@`. -/
def parsePositionPacket (leaf : AprsLeaves) (m : Area UInt8) (packettype : UInt8)
    (body bodyEnd : Int) (f : AprsFields) : Traced Access (Int × AprsFields) :=
  if bodyEnd - body < 10 then pure (0, f)
  else
    -- jump over a timestamp
    let p := if packettype == ch '/' || packettype == ch '@' then body + 7 else body
    parsePosition leaf m p bodyEnd (f.mark tPosition)

/-- Look for a position after a `!` in the first 40 characters. -/
def lookForPosition (leaf : AprsLeaves) (m : Area UInt8) (body bodyEnd : Int) (f : AprsFields) :
    Traced Access (Int × AprsFields) := do
  match ← m.memchr body (ch '!') (bodyEnd - body) with
  | none => pure (0, f)
  | some p => if p - body ≤ 39 then parsePosition leaf m p bodyEnd f else pure (0, f)

/-- `strncmp` of the memory at `p` with a literal finds them equal. It stops at the
first difference. -/
def strncmpEq (m : Area UInt8) : Bytes → Int → Traced Access Bool
  | [], _ => pure true
  | b :: bs, p => do if (← m.read p) == b then strncmpEq m bs (p + 1) else pure false

/-- The cases of `parse_aprs_body` other than a third-party frame. `paclen` is the
length of the information field of the packet. -/
def parseAprsType (leaf : AprsLeaves) (m : Area UInt8) (packetLen paclen infoStart : Int)
    (packettype : UInt8) (f : AprsFields) : Traced Access (Int × AprsFields) :=
  let body := infoStart + 1
  let bodyEnd := packetLen - 2
  if packettype == 0x27 || packettype == 0x60 then
    pure (if paclen ≥ 9 then leaf .mice body (f.mark tPosition) else (0, f))
  else if packettype == ch '!' then do
    if (← m.read (infoStart + 1)) == ch '!' then pure (0, f.mark tWx)
    else parsePositionPacket leaf m packettype body bodyEnd f
  else if packettype == ch '=' || packettype == ch '/' || packettype == ch '@' then
    parsePositionPacket leaf m packettype body bodyEnd f
  else if packettype == ch '$' then
    pure (if bodyEnd - body > 10 then leaf .nmea body f else (0, f))
  else if packettype == ch ':' then
    if paclen ≥ 11 then preparseAprsMessage m body (paclen - 1) (f.mark tMessage) else pure (0, f)
  else if packettype == ch ';' then
    pure (if bodyEnd - body > 29 then leaf .object body f else (0, f))
  else if packettype == ch '>' then pure (0, f.mark tStatus)
  else if packettype == ch '<' then pure (0, f.mark tStatcapa)
  else if packettype == ch '?' then pure (0, f.mark tQuery)
  else if packettype == ch ')' then
    pure (if bodyEnd - body > 18 then leaf .item body f else (0, f))
  else if packettype == ch 'D' then do
    if ← strncmpEq m (ascii "X de ") body then pure (inerrDisDx, f)
    else lookForPosition leaf m body bodyEnd f
  else if packettype == ch 'T' then
    pure (if bodyEnd - body > 18 then leaf .telem body (f.mark tTelemetry) else (0, f))
  else if packettype == ch '#' || packettype == ch '*' || packettype == ch '_' then
    pure (0, f.mark tWx)
  else if packettype == ch '\x7b' then pure (0, f.mark tUserdef)
  else lookForPosition leaf m body bodyEnd f

/-- `parse_aprs_body`. A third-party frame is parsed with one unit of fuel less;
`none` when there is none left. -/
def parseAprsBody (leaf : AprsLeaves) (m : Area UInt8) (packetLen paclen : Int) :
    (fuel : Nat) → (infoStart : Int) → AprsFields → Traced Access (Option (Int × AprsFields))
  | 0, _, _ => pure none
  | fuel + 1, infoStart, f =>
      if paclen < 1 then pure (some (0, f))
      else do
        let packettype ← m.read infoStart
        if packettype == ch '\x7d' then do
          match ← parse3rdpartyHeader m packetLen (infoStart + 1) with
          | .noMatch => pure (some (0, f.mark t3rdparty))
          | .invalid rc => pure (some (rc, f.mark t3rdparty))
          | .frame srcEnd body =>
              parseAprsBody leaf m packetLen paclen fuel (body + 1)
                { f.mark t3rdparty with
                  srcname := infoStart + 1, srcnameLen := srcEnd - (infoStart + 1) }
        else do
          let r ← parseAprsType leaf m packetLen paclen infoStart packettype f
          pure (some r)

/-- The check for a CWOP callsign: `CW`, `DW` or `EW` and digits. -/
def isCwop (m : Area UInt8) (packetLen : Int) : Traced Access Bool := do
  if (← m.read 1) == ch 'W' then do
    let d ← m.read 0
    if ch 'C' ≤ d && d ≤ ch 'E' then do
      let i ← m.scanUntil (fun b => !isDigit b) (packetLen - 2).toNat 2
      pure ((← m.read i) == ch '>')
    else pure false
  else pure false

/-- `parse_aprs` for a packet of length `packetLen` with its information field at
`infoStart`. A frame is longer than the ones inside of it, so the length of the
packet is fuel enough. -/
def parseAprs (leaf : AprsLeaves) (m : Area UInt8) (packetLen infoStart : Int) (f : AprsFields) :
    Traced Access (Option (Int × AprsFields)) := do
  let cwop ← isCwop m packetLen
  let f := { f with packettype := tAll }
  let f := if cwop then f.mark tCwop else f
  parseAprsBody leaf m packetLen (packetLen - infoStart - 2) packetLen.toNat infoStart f

end Aprsc
