-- SUMMARY: The tables that packets leave their marks in: entry igates and weather stations, and the heard list of a client.
import Aprsc.Historydb
import Aprsc.Incoming.Header

/-!
# Tables

The `q//i` filter looks up igates in a table of the entry stations that were seen with
a `qAR` or `qAr` construct, and the weather filter stations in a table of those that have
sent weather without a position. Each client on an igate port has a list of the stations
heard from it, so that messages to them can be routed to it.

A bucket is the list of its chain. The global `tick` is an argument of every operation
that reads it, and so is what `cellmalloc` returns when the operation calls it.
-/

namespace Aprsc

def callsignlenMin : Nat := 3

/-- `keyhashuc`. -/
def keyhashuc (p : Bytes) (hash : UInt32) : UInt32 := keyhash (p.map toupper) hash

/-- Callsigns that differ in their case only have the same hash. -/
theorem keyhashuc_congr {a b : Bytes} (h : caseEq a b = true) : keyhashuc a 0 = keyhashuc b 0 := by
  rw [keyhashuc, keyhashuc, caseEq_iff.mp h]

/-! ## Entry igates and weather stations -/

/-- `struct filter_entrycall_t` and `struct filter_wx_t`. The `len` field is the length of
`callsign`. -/
structure FilterCell where
  expirytime : Int
  hash : UInt32
  callsign : Bytes
deriving Repr, DecidableEq

/-- `filter_entrycall_hash` or `filter_wx_hash`, and the gauge of its cells. -/
structure FilterTable where
  hash : Nat → List FilterCell
  cellgauge : Int

def FilterTable.init : FilterTable := ⟨fun _ => [], 0⟩

/-- Write the chain of one bucket. -/
def FilterTable.setBucket (s : FilterTable) (i : Nat) (chain : List FilterCell) : FilterTable :=
  { s with hash := fun j => if j = i then chain else s.hash j }

/-- The first cell of a chain with the callsign of `new` gets its expiry time. -/
def refreshCell (new : FilterCell) : List FilterCell → Option (List FilterCell)
  | [] => none
  | f :: rest =>
      if f.hash = new.hash ∧ f.callsign = new.callsign then
        some ({ f with expirytime := new.expirytime } :: rest)
      else (refreshCell new rest).map (f :: ·)

/-- A cell is refreshed, or inserted at the head of its chain if there is memory for it.
With `early`, the gauge counts the cell before it is known whether there is one. -/
def FilterTable.insert (s : FilterTable) (early cellmalloc : Bool) (i : Nat) (new : FilterCell) :
    FilterTable :=
  match refreshCell new (s.hash i) with
  | some chain => s.setBucket i chain
  | none =>
      let s := if early || cellmalloc then { s with cellgauge := s.cellgauge + 1 } else s
      if cellmalloc then s.setBucket i (new :: s.hash i) else s

/-- The cells that have expired are removed from the first `size` buckets. -/
def FilterTable.cleanup (s : FilterTable) (size : Nat) (tick : Int) : FilterTable :=
  let old := fun f : FilterCell => f.expirytime ≤ tick
  { s with
    hash := fun i => if i < size then (s.hash i).filter (! old ·) else s.hash i
    cellgauge := s.cellgauge - ((List.range size).map fun i => (s.hash i).countP old).sum }

/-- The key is found: a cell with its hash and its callsign passes the check of the expiry
time. -/
def FilterTable.lookup (s : FilterTable) (tick : Int) (i : Nat) (hash : UInt32) (key : Bytes) : Bool :=
  (s.hash i).any fun f =>
    f.hash = hash && f.callsign.length = key.length &&
      caseEq (cString f.callsign) (cString key) && f.expirytime < tick - 60

def filterEntrycallHashsize : Nat := 2048
def filterEntrycallMaxage : Int := 60 * 60
def filterWxHashsize : Nat := 1024
def filterWxMaxage : Int := 60 * 60

/-- The entry station, in upper case: the call after the construct that `qconst_start`
points to. Its length is `entrycall_len` of the buffer. -/
def Pbuf.entrycall (pb : Pbuf) : Option Bytes :=
  let key := pb.data.drop (pb.qconstStart + 4)
  let stops := fun b => b == comma || b == ch ':'
  let call := (key.take callsignlenMax).takeWhile (! stops ·)
  if stops ((key.drop call.length).headD 0) && call.length ≥ callsignlenMin then
    some (call.map toupper)
  else none

/-- The bucket of an entry station. -/
def filterEntrycallIndex (hash : UInt32) : Nat :=
  (hash ^^^ (hash >>> 11) ^^^ (hash >>> 22)).toNat % filterEntrycallHashsize

/-- `filter_entrycall_insert`. -/
def filterEntrycallInsert (tick : Int) (cellmalloc : Bool) (pb : Pbuf) (s : FilterTable) :
    FilterTable :=
  let qcons := (pb.data.drop (pb.qconstStart + 2)).headD 0
  match pb.entrycall with
  | none => s
  | some uckey =>
      if qcons ≠ ch 'r' ∧ qcons ≠ ch 'R' then s
      else
        let hash := keyhash uckey 0
        s.insert false cellmalloc (filterEntrycallIndex hash)
          ⟨tick + filterEntrycallMaxage, hash, uckey⟩

/-- What `filter_entrycall_lookup` looks up: `entrycall_len` bytes after the construct. The
length is zero if there is no entry station. -/
def Pbuf.entrycallKey (pb : Pbuf) : Bytes :=
  (pb.data.drop (pb.qconstStart + 4)).take (pb.entrycall.getD []).length

/-- `filter_entrycall_lookup`. -/
def filterEntrycallLookup (tick : Int) (pb : Pbuf) (s : FilterTable) : Bool :=
  let hash := keyhashuc pb.entrycallKey 0
  s.lookup tick (filterEntrycallIndex hash) hash pb.entrycallKey

/-- `filter_entrycall_cleanup`. -/
def filterEntrycallCleanup (tick : Int) (s : FilterTable) : FilterTable :=
  s.cleanup filterEntrycallHashsize tick

/-- The bucket of a weather station. -/
def filterWxIndex (hash : UInt32) : Nat :=
  (hash ^^^ (hash >>> 10) ^^^ (hash >>> 20)).toNat % filterWxHashsize

/-- `filter_wx_insert`. -/
def filterWxInsert (tick : Int) (cellmalloc : Bool) (pb : Pbuf) (s : FilterTable) : FilterTable :=
  if pb.packettype &&& tWx ≠ 0 ∧ pb.flags &&& fHaspos = 0 then
    let uckey := (pb.data.take pb.srccallEnd).map toupper
    let hash := keyhash uckey 0
    s.insert true cellmalloc (filterWxIndex hash) ⟨tick + filterWxMaxage, hash, uckey⟩
  else s

/-- `filter_wx_lookup`. -/
def filterWxLookup (tick : Int) (pb : Pbuf) (s : FilterTable) : Bool :=
  let key := pb.data.take pb.srccallEnd
  let hash := keyhashuc key 0
  s.lookup tick (filterWxIndex hash) hash key

/-- `filter_wx_cleanup`. -/
def filterWxCleanup (tick : Int) (s : FilterTable) : FilterTable := s.cleanup filterWxHashsize tick

/-! ## Heard lists -/

def clientHeardBuckets : Nat := 32
def maxHeardPerClient : Nat := 2000

/-- `struct client_heard_t`. -/
structure ClientHeard where
  hash : UInt32
  callLen : Nat
  lastHeard : Int
  /-- An array of 10 bytes. What stands after the callsign is left from the last use of
  the cell. -/
  callsign : Bytes
deriving Repr, DecidableEq

/-- `client_heard` and `client_heard_count` of a client. -/
structure HeardList where
  list : Nat → List ClientHeard
  entrycount : Nat

def HeardList.init : HeardList := ⟨fun _ => [], 0⟩

/-- Write the chain of one bucket. -/
def HeardList.setBucket (l : HeardList) (i : Nat) (chain : List ClientHeard) : HeardList :=
  { l with list := fun j => if j = i then chain else l.list j }

/-- The bucket of a callsign. -/
def heardIndex (hash : UInt32) : Nat := (hash ^^^ (hash >>> 16)).toNat % clientHeardBuckets

/-- An entry is the one of a callsign. -/
def ClientHeard.isCall (h : ClientHeard) (hash : UInt32) (call : Bytes) : Bool :=
  h.hash == hash && call.length == h.callLen &&
    caseEq (cString call) (cString (h.callsign.take h.callLen))

/-- The callsign field of a cell with the given contents, after `strncpy`. -/
def heardCallsign (cell call : Bytes) : Bytes :=
  let text := cString call
  (text ++ List.replicate (call.length - text.length) 0 ++ cell.drop call.length).set
    callsignlenMax 0

/-- `heard_list_update`. An entry that is found moves to the front of its chain. -/
def heardListUpdate (cellmalloc : Option Bytes) (call : Bytes) (t : Int) (l : HeardList) :
    HeardList :=
  let hash := keyhashuc call 0
  let i := heardIndex hash
  match (l.list i).find? (·.isCall hash call) with
  | some h =>
      l.setBucket i ({ h with lastHeard := t } :: (l.list i).eraseP (·.isCall hash call))
  | none =>
      if l.entrycount ≥ maxHeardPerClient then l
      else match cellmalloc with
      | none => l
      | some cell =>
          { l.setBucket i (⟨hash, call.length, t, heardCallsign cell call⟩ :: l.list i) with
            entrycount := l.entrycount + 1 }

/-- `client_heard_update`. -/
def clientHeardUpdate (cellmalloc : Option Bytes) (pb : Pbuf) (l : HeardList) : HeardList :=
  heardListUpdate cellmalloc (pb.data.take pb.srccallEnd) pb.t l

/-- `heard_expire_single`. -/
def heardExpireSingle (storetime tick : Int) (l : HeardList) : HeardList :=
  let old := fun h : ClientHeard => h.lastHeard < tick - storetime || h.lastHeard > tick
  { list := fun i => if i < clientHeardBuckets then (l.list i).filter (! old ·) else l.list i
    entrycount := l.entrycount -
      ((List.range clientHeardBuckets).map fun i => (l.list i).countP old).sum }

end Aprsc
