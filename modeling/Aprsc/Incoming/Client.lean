-- SUMMARY: What packet input reads of the configuration and of a client, callsign checks and the result codes.
import Aprsc.Base.Area
import Aprsc.Base.Bytes

/-!
# Clients and configuration

The parts of `struct client_t`, of the configuration and of the client list that
`incoming_parse` and `q_process` read, the checks they make on callsigns and the
result codes `INERR_*` of `worker.h`.
-/

namespace Aprsc

/-! ## Result codes -/

def inerrNoColon : Int := -1
def inerrNoDst : Int := -2
def inerrNoPath : Int := -3
def inerrInvSrccall : Int := -4
def inerrNoBody : Int := -5
def inerrInvDstcall : Int := -6
def inerrDisallowUnverified : Int := -7
def inerrDisallowUnverifiedPath : Int := -8
def inerrNogate : Int := -9
def inerr3rdPartyIp : Int := -10
def inerrInv3rdParty : Int := -11
def inerrGeneralQuery : Int := -12
def inerrOutOfPbufs : Int := -13
def inerrClassFail : Int := -14
def inerrQBug : Int := -15
def inerrShortPacket : Int := -17
def inerrLongPacket : Int := -18
def inerrInvPathCall : Int := -19
def inerrQQax : Int := -20
def inerrQQaz : Int := -21
def inerrQQpathMycall : Int := -22
def inerrQQpathCallTwice : Int := -23
def inerrQPathLoginNotLast : Int := -24
def inerrQPathCallIsLocalClient : Int := -25
def inerrQPathCallIsInvalid : Int := -26
def inerrQQauPathCallIsSrccall : Int := -27
def inerrQNewqBufferSmall : Int := -28
def inerrQNonvalMultiQCalls : Int := -29
def inerrQINoViacall : Int := -30
def inerrQDisallowProtocol : Int := -31
def inerrEmpty : Int := -32
def inerrDisSrccall : Int := -33
def inerrDisDx : Int := -34
def inerrDisMsgDst : Int := -35
def inerrDisIgatecall : Int := -36

/-! ## Characters and callsigns -/

def callsignlenMax : Nat := 9

/-- `isalnum` in the C locale. -/
def isalnum (b : UInt8) : Bool :=
  (ch '0' ≤ b && b ≤ ch '9') || (ch 'A' ≤ b && b ≤ ch 'Z') || (ch 'a' ≤ b && b ≤ ch 'z')

/-- `tolower` in the C locale. -/
def tolower (b : UInt8) : UInt8 := if ch 'A' ≤ b && b ≤ ch 'Z' then b + 32 else b

/-- `toupper` in the C locale. -/
def toupper (b : UInt8) : UInt8 := if ch 'a' ≤ b && b ≤ ch 'z' then b - 32 else b

/-- `strncasecmp` over two texts of the compared length finds them equal. -/
def caseEq (a b : Bytes) : Bool := a.map tolower == b.map tolower

theorem toupper_tolower (b : UInt8) : toupper (tolower b) = toupper b := by
  have hall : ∀ n : Fin 256, toupper (tolower (UInt8.ofNat n)) = toupper (UInt8.ofNat n) := by
    decide +kernel
  simpa using hall ⟨b.toNat, b.toNat_lt⟩

theorem tolower_toupper (b : UInt8) : tolower (toupper b) = tolower b := by
  have hall : ∀ n : Fin 256, tolower (toupper (UInt8.ofNat n)) = tolower (UInt8.ofNat n) := by
    decide +kernel
  simpa using hall ⟨b.toNat, b.toNat_lt⟩

@[simp] theorem toupper_toupper (b : UInt8) : toupper (toupper b) = toupper b := by
  rw [← toupper_tolower (toupper b), tolower_toupper, toupper_tolower]

theorem toupper_eq_zero {b : UInt8} : toupper b = 0 ↔ b = 0 := by
  have hall : ∀ n : Fin 256, toupper (UInt8.ofNat n) = 0 ↔ UInt8.ofNat n = 0 := by decide +kernel
  simpa using hall ⟨b.toNat, b.toNat_lt⟩

/-- Two texts are equal up to their case if they are equal in upper case. -/
theorem caseEq_iff {a b : Bytes} : caseEq a b = true ↔ a.map toupper = b.map toupper := by
  have hupper : ∀ s : Bytes, s.map toupper = (s.map tolower).map toupper := fun s => by
    simp [toupper_tolower]
  have hlower : ∀ s : Bytes, s.map tolower = (s.map toupper).map tolower := fun s => by
    simp [tolower_toupper]
  rw [caseEq, beq_iff_eq]
  constructor
  · intro h
    rw [hupper a, hupper b, h]
  · intro h
    rw [hlower a, hlower b, h]

theorem length_eq_of_caseEq {a b : Bytes} (h : caseEq a b = true) : a.length = b.length := by
  simpa using congrArg List.length (caseEq_iff.mp h)

/-- `check_invalid_q_callsign`: the callsign is not good for a Q construct. A
callsign may also be an IPv6 address, in 32 hexadecimal digits. -/
def checkInvalidQCallsign (call : Bytes) : Bool :=
  if (call.length > callsignlenMax || call.length < 1) && call.length != 32 then true
  else !call.all fun b => isalnum b || b == ch '-'

/-- The part of a callsign before its SSID. -/
def callBody (call : Bytes) : Bytes := call.takeWhile (· != ch '-')

/-- `check_invalid_src_dst`: the callsign is not good for a source or destination
callsign. -/
def checkInvalidSrcDst (call : Bytes) : Bool :=
  if call.length < 1 || call.length > callsignlenMax then true
  else if !(callBody call).all isalnum then true
  else if (callBody call).length == call.length then false
  else
    let ssid := call.drop ((callBody call).length + 1)
    if ssid.isEmpty then true else !ssid.all isalnum

/-- `check_invalid_path_callsign`: the callsign is not good for a path entry. A
`*` at its end is allowed. -/
def checkInvalidPathCallsign (call : Bytes) (afterQ : Bool) : Bool :=
  let call := if call.length > 1 && call.getLast? == some (ch '*') then call.dropLast else call
  if call.length < 1 then true
  else if call.length > callsignlenMax && !(call.length == 32 && afterQ) then true
  else if !(callBody call).all isalnum then true
  else if (callBody call).length == call.length then false
  else
    let ssid := call.drop ((callBody call).length + 1)
    if ssid.length > 2 || ssid.isEmpty then true
    else if ssid.head? == some (ch '0') then true
    else !ssid.all isalnum

/-- `check_call_prefix_match`. -/
def checkCallPrefixMatch (set : List Bytes) (call : Bytes) : Bool :=
  set.any fun s => s.isPrefixOf call

def maxTestCallLen : Nat := 32

/-- `check_call_glob_match`. The argument `fnmatch` is the function of the C
library with `FNM_CASEFOLD`, which takes the callsign as a C string. -/
def checkCallGlobMatch (fnmatch : Bytes → Bytes → Bool) (set : List Bytes) (call : Bytes) : Bool :=
  if call.length > maxTestCallLen then false
  else set.any fun s => fnmatch s (call.takeWhile (· != 0))

/-! ## Configuration -/

/-- The configuration that packet input reads. `serverid` has passed the checks
of `read_config`, and `q_protocol_id` is the single character of a string. -/
structure Config where
  serverid : Bytes
  qProtocolId : UInt8
  disallowOtherProtocolId : Bool
  disallowUnverified : Bool
  disallowSrccallGlob : Option (List Bytes)
  disallowIgateGlob : Option (List Bytes)
  fnmatch : Bytes → Bytes → Bool
  serverid_valid : checkInvalidQCallsign serverid = false
  serverid_length : 3 ≤ serverid.length ∧ serverid.length ≤ callsignlenMax
  qProtocolId_ne : qProtocolId ≠ 0

/-- A server without any restriction. -/
def Config.unrestricted : Config where
  serverid := ascii "TESTING"
  qProtocolId := ch 'A'
  disallowOtherProtocolId := false
  disallowUnverified := false
  disallowSrccallGlob := none
  disallowIgateGlob := none
  fnmatch := fun _ _ => false
  serverid_valid := by decide
  serverid_length := by decide
  qProtocolId_ne := by decide

/-! ## Clients -/

/-- `enum client_state`. -/
inductive CState where
  | init | udp | login | logresp | connected | corepeer
deriving Repr, DecidableEq

def clflagsInport : UInt32 := 0x001
def clflagsUplinkport : UInt32 := 0x002
def clflagsUdpsubmit : UInt32 := 0x004
def clflagsUserfilterok : UInt32 := 0x010
def clflagsDupefeed : UInt32 := 0x200
def clflagsClientonly : UInt32 := 0x800
def clflagsIgate : UInt32 := 0x1000

/-- The fields of `struct client_t` that packet input reads. A client is connected
on an inbound port only after its username was found good for a Q construct, and
the hexadecimal address of an uplink, IPv4 or IPv6, is filled in when it connects. -/
structure Client where
  state : CState
  flags : UInt32
  validated : Bool
  /-- A C string, in an array of 16 bytes. -/
  username : Bytes
  /-- The address of the peer in hexadecimal. -/
  addrHex : Bytes
  quirksMode : Bool
  username_no_nul : 0 ∉ username
  username_fits : username.length < 16
  username_valid : state = .connected → flags &&& clflagsInport ≠ 0 →
    checkInvalidQCallsign username = false
  addrHex_valid : flags &&& clflagsUplinkport ≠ 0 →
    addrHex ≠ [] ∧ addrHex.all isalnum = true
  addrHex_length : flags &&& clflagsUplinkport ≠ 0 → addrHex.length = 8 ∨ addrHex.length = 32

/-- The client has a flag. -/
def Client.has (c : Client) (flag : UInt32) : Bool := c.flags &&& flag != 0

/-- The client `OH7AA`, connected on a port with the given flags. -/
def Client.onPort (flags : UInt32) (validated : Bool) (hup : flags &&& clflagsUplinkport = 0) :
    Client where
  state := .connected
  flags := flags
  validated := validated
  username := ascii "OH7AA"
  addrHex := []
  quirksMode := false
  username_no_nul := by decide
  username_fits := by decide
  username_valid := by intros; decide
  addrHex_valid := fun h => absurd hup h
  addrHex_length := fun h => absurd hup h

/-- A verified client on an inbound port. -/
def Client.verifiedInbound : Client := .onPort clflagsInport true (by decide)

/-- An entry of `clientlist`. -/
structure ClientEntry where
  username : Bytes
  validated : Bool
  fd : Int
deriving Repr, DecidableEq

/-- `clientlist_check_if_validated_client`: the descriptor of a validated client
with the given username, or -1. Entries are looked up by a hash of the username
first, which equal usernames share. -/
def clientlistCheckIfValidatedClient (clientlist : List ClientEntry) (call : Bytes) : Int :=
  match clientlist.find? fun cl => cl.username == call && cl.validated with
  | some cl => cl.fd
  | none => -1

end Aprsc
