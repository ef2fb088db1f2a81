-- SUMMARY: The packet buffer `struct pbuf_t` and the parts of a packet its offsets delimit.
import Aprsc.Keyhash

/-!
# Packet buffers

A packet buffer holds one packet with its CRLF, and pointers into it. A pointer
is the offset from `data`. The symbol and the name hashes of `struct pbuf_t` are
not part of the model. A `float` is known by its bits.
-/

namespace Aprsc

/-! ## Flag bits -/

def tPosition : UInt16 := 0x0001
def tObject : UInt16 := 0x0002
def tItem : UInt16 := 0x0004
def tMessage : UInt16 := 0x0008
def tNws : UInt16 := 0x0010
def tWx : UInt16 := 0x0020
def tTelemetry : UInt16 := 0x0040
def tQuery : UInt16 := 0x0080
def tStatus : UInt16 := 0x0100
def tUserdef : UInt16 := 0x0200
def tCwop : UInt16 := 0x0400
def tStatcapa : UInt16 := 0x0800
def t3rdparty : UInt16 := 0x1000
def tAll : UInt16 := 0x8000

def fDupe : UInt16 := 0x0001
def fHaspos : UInt16 := 0x0002
def fHasTcpip : UInt16 := 0x0004
def fFromUpstr : UInt16 := 0x0008
def fFromDownstr : UInt16 := 0x0010

/-! ## The buffer -/

def packetlenMax : Nat := 512

/-- The bits of a `float`. -/
abbrev FloatBits := UInt32

/-- The coordinates of a packet or of a client, in radians: `lat`, `lng` and `cos_lat`. -/
structure Position where
  lat : FloatBits
  lng : FloatBits
  cosLat : FloatBits
deriving Repr, DecidableEq

/-- The coordinates of a structure that is filled with zeros. -/
def Position.zero : Position := ⟨0, 0, 0⟩

/-- `struct pbuf_t`. Pointers into `data` are offsets. -/
structure Pbuf where
  /-- The packet, including CRLF. -/
  data : Bytes
  packetLen : Nat
  packettype : UInt16
  flags : UInt16
  srcname : Nat
  srcnameLen : Nat
  dstname : Option Nat
  dstnameLen : Nat
  srccallEnd : Nat
  dstcallEndOrSsid : Nat
  dstcallEnd : Nat
  dstcallLen : Nat
  qconstStart : Nat
  infoStart : Nat
  t : Int
  position : Position := .zero
deriving Repr, DecidableEq

/-- The address part that duplicate detection compares: the packet up to the end
of the destination callsign, without its SSID. -/
def Pbuf.addr (pb : Pbuf) : Bytes := pb.data.take pb.dstcallEndOrSsid

/-- The information field, without CRLF. -/
def Pbuf.info (pb : Pbuf) : Bytes :=
  (pb.data.drop pb.infoStart).take (pb.packetLen - pb.infoStart - 2)

/-- The key of a packet in the duplicate database. -/
def Pbuf.key (pb : Pbuf) : Bytes := pb.addr ++ pb.info

end Aprsc
