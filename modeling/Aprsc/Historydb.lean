-- SUMMARY: The history database of `historydb.c`: the key of a packet, insertion, lookup and cleanup.
import Aprsc.Incoming.Client
import Aprsc.Pbuf

/-!
# The history database

`historydb_hash` is a hash table of chained cells, one for each station, object and
item that has sent a position. An insert replaces the cell of its key, and drops the
cells of its chain that are too old; a packet that kills an object or an item removes
its cell.

A bucket is the list of its chain. The global `tick` is an argument of every operation
that reads it.
-/

namespace Aprsc

def historydbHashModulo : Nat := 8192

/-- `struct history_cell_t`. Its `keylen` field is the length of `key`. -/
structure HistoryCell where
  arrivaltime : Int
  key : Bytes
  hash1 : UInt32
  packettype : UInt16
  flags : UInt16
  position : Position
deriving Repr, DecidableEq

/-- The state of `historydb.c`. -/
structure Historydb where
  /-- `historydb_hash`, one chain per bucket. -/
  hash : Nat → List HistoryCell
  cellgauge : Int
  /-- How many times `cellmalloc` was called. -/
  mallocs : Nat

/-- What the history database reads from outside: the configured store time, and whether
the `n`-th call of `cellmalloc` succeeds. -/
structure HistorydbEnv where
  lastpositionStoretime : Int
  cellmalloc : Nat → Bool

/-- The database after `historydb_init`. -/
def Historydb.init : Historydb := ⟨fun _ => [], 0, 0⟩

/-- The bucket of a hash. -/
def historydbIndex (h1 : UInt32) : Nat :=
  (h1 ^^^ (h1 >>> 13) ^^^ (h1 >>> 26)).toNat % historydbHashModulo

/-! ## Keys -/

/-- A C string in a buffer. -/
def cString (b : Bytes) : Bytes := b.takeWhile (· != 0)

theorem zero_not_mem_cString (s : Bytes) : (0 : UInt8) ∉ cString s := by
  intro h
  simpa using List.mem_takeWhile_imp h

theorem cString_eq_self {s : Bytes} (h : (0 : UInt8) ∉ s) : cString s = s := by
  refine List.takeWhile_eq_self_iff.mpr fun b hb => ?_
  simp only [bne_iff_ne, ne_eq]
  rintro rfl
  exact h hb

theorem cString_append {a : Bytes} (ha : (0 : UInt8) ∉ a) (b : Bytes) :
    cString (a ++ b) = a ++ cString b := by
  have hself := cString_eq_self ha
  unfold cString at hself ⊢
  exact List.takeWhile_append_of_pos (List.takeWhile_eq_self_iff.mp hself)

/-- The name of an object or an item: it ends at the mark of a live one, or else at the
`_` of one that is killed. The flag says whether it is killed. -/
def objectKey (live : UInt8) (keybuf : Bytes) : Bytes × Bool :=
  if keybuf.contains live then (keybuf.takeWhile (· != live), false)
  else if keybuf.contains (ch '_') then (keybuf.takeWhile (· != ch '_'), true)
  else (keybuf, false)

/-- The key under which `historydb_insert` stores a packet, and whether it removes it. -/
def Pbuf.historyKey (pb : Pbuf) : Option (Bytes × Bool) :=
  let name := cString ((pb.data.drop (pb.infoStart + 1)).take (callsignlenMax + 1))
  if pb.packettype &&& tObject ≠ 0 then some (objectKey (ch '*') name)
  else if pb.packettype &&& tItem ≠ 0 then some (objectKey (ch '!') name)
  else if pb.packettype &&& tPosition ≠ 0 then
    some ((cString (pb.data.take callsignlenMax)).takeWhile (· != ch '>'), false)
  else none

/-! ## Operations -/

/-- The cell that a packet is stored in. -/
def Pbuf.historyCell (pb : Pbuf) (key : Bytes) : HistoryCell :=
  ⟨pb.t, key, keyhash key 0, pb.packettype, pb.flags, pb.position⟩

/-- The loop of `historydb_insert` over a chain: the chain, how many cells were freed,
and whether the key was found and updated. -/
def historydbScan (expirytime : Int) (new : HistoryCell) (isdead : Bool) :
    List HistoryCell → List HistoryCell × Nat × Bool
  | [] => ([], 0, false)
  | cp :: rest =>
      let (chain, freed, found) := historydbScan expirytime new isdead rest
      if cp.arrivaltime < expirytime then (chain, freed + 1, found)
      else if cp.hash1 = new.hash1 ∧ cp.key = new.key then
        if isdead then (chain, freed + 1, found) else (new :: chain, freed, true)
      else (cp :: chain, freed, found)

/-- Write the chain of one bucket. -/
def Historydb.setBucket (s : Historydb) (i : Nat) (chain : List HistoryCell) : Historydb :=
  { s with hash := fun j => if j = i then chain else s.hash j }

/-- `historydb_alloc` and the new cell at the tail of a chain. The gauge counts the cell
before it is known whether there is one. -/
def historydbAppend (env : HistorydbEnv) (i : Nat) (cp : HistoryCell) (s : Historydb) : Historydb :=
  let ok := env.cellmalloc s.mallocs
  let s := { s with cellgauge := s.cellgauge + 1, mallocs := s.mallocs + 1 }
  if ok then s.setBucket i (s.hash i ++ [cp]) else s

/-- `historydb_insert`. -/
def historydbInsert (env : HistorydbEnv) (tick : Int) (pb : Pbuf) (s : Historydb) : Historydb :=
  if pb.flags &&& fHaspos = 0 then s
  else match pb.historyKey with
  | none => s
  | some (key, isdead) =>
      let new := pb.historyCell key
      let i := historydbIndex new.hash1
      let (chain, freed, found) :=
        historydbScan (tick - env.lastpositionStoretime) new isdead (s.hash i)
      let s := { s.setBucket i chain with cellgauge := s.cellgauge - freed }
      if !found && !isdead then historydbAppend env i new s else s

/-- `historydb_lookup`. The validity is five minutes shorter than the store time. -/
def historydbLookup (env : HistorydbEnv) (tick : Int) (key : Bytes) (s : Historydb) :
    Option HistoryCell :=
  let h1 := keyhash key 0
  (s.hash (historydbIndex h1)).find? fun cp =>
    cp.hash1 = h1 ∧ cp.key = key ∧ cp.arrivaltime > tick - env.lastpositionStoretime + 5 * 60

/-- `historydb_cleanup`: drop the cells that are too old, from every bucket. -/
def historydbCleanup (env : HistorydbEnv) (tick : Int) (s : Historydb) : Historydb :=
  let old := fun cp : HistoryCell => cp.arrivaltime < tick - env.lastpositionStoretime
  let cleaned := ((List.range historydbHashModulo).map fun i => (s.hash i).countP old).sum
  { s with
    hash := fun i => if i < historydbHashModulo then (s.hash i).filter (! old ·) else s.hash i
    cellgauge := s.cellgauge - cleaned }

/-- `filter_postprocess_dupefilter`: a packet without a position takes the one of its
sender, when it is known. -/
def filterPostprocessDupefilter (env : HistorydbEnv) (tick : Int) (s : Historydb) (pb : Pbuf) : Pbuf :=
  if pb.flags &&& fHaspos = 0 then
    match historydbLookup env tick ((pb.data.drop pb.srcname).take pb.srcnameLen) s with
    | some hist => { pb with flags := pb.flags ||| fHaspos, position := hist.position }
    | none => pb
  else pb

end Aprsc
