-- SUMMARY: The duplicate database of `dupecheck.c`: records, allocation, lookup, mangled variants and cleanup.
import Aprsc.Pbuf

/-!
# The duplicate database

`dupecheck_db` is a hash table of chained records. A packet that is not a
duplicate is appended to the chain of its bucket, and then each of its mangled
variants is stored too, so that a variant that some broken gateway produces is
dropped later. Records expire `dupefilter_storetime` seconds after they were
stored or refreshed.

A bucket is the list of its chain. The global `tick` is an argument of every
operation that reads it.
-/

namespace Aprsc

def dupecheckDbSize : Nat := 8192

-- Record types (`DTYPE_*`); a record that holds an unmodified packet has type 0.
def dtypeSpaceTrim : Nat := 1
def dtypeStrip8bit : Nat := 2
def dtypeClear8bit : Nat := 3
def dtypeSpaced8bit : Nat := 4
def dtypeLowdataStrip : Nat := 5
def dtypeLowdataSpaced : Nat := 6
def dtypeDelStrip : Nat := 7
def dtypeDelSpaced : Nat := 8
def dtypeMax : Nat := 8

/-- `struct dupe_record_t`. Its `len` field is the length of `packet`. -/
structure DupeRecord where
  hash : UInt32
  t : Int
  dtype : Nat
  packet : Bytes
deriving Repr, DecidableEq

/-- The state of `dupecheck.c`. -/
structure DupecheckDb where
  /-- `dupecheck_db`, one chain per bucket. -/
  db : Nat → List DupeRecord
  /-- The number of records on the free chain `dupecheck_free`. -/
  free : Nat
  cellgauge : Int
  dupetypes : Nat → Nat
  /-- How many times `cellmalloc` was called. -/
  mallocs : Nat

/-- What the duplicate check reads from outside: the configured store time, and
whether the `n`-th call of `cellmalloc` succeeds. -/
structure DupecheckEnv where
  dupefilterStoretime : Int
  cellmalloc : Nat → Bool

/-- The database after `dupecheck_init`. -/
def DupecheckDb.init : DupecheckDb where
  db := fun _ => []
  free := 0
  cellgauge := 0
  dupetypes := fun _ => 0
  mallocs := 0

/-- The bucket of a hash: fold the hash bits, then reduce to the table size. -/
def dupecheckIndex (hash : UInt32) : Nat :=
  let idx := hash ^^^ (hash >>> 13)
  let idx := idx ^^^ (idx >>> 26)
  idx.toNat % dupecheckDbSize

/-! ## Allocation -/

/-- `dupecheck_db_alloc`: take a record from the free chain, or a new cell. The
flag says whether there was one. -/
def dupecheckDbAlloc (env : DupecheckEnv) (s : DupecheckDb) : Bool × DupecheckDb :=
  if 0 < s.free then
    (true, { s with free := s.free - 1, cellgauge := s.cellgauge + 1 })
  else if env.cellmalloc s.mallocs then
    (true, { s with mallocs := s.mallocs + 1, cellgauge := s.cellgauge + 1 })
  else
    (false, { s with mallocs := s.mallocs + 1 })

/-- `dupecheck_db_free` on `n` records. -/
def dupecheckDbFree (n : Nat) (s : DupecheckDb) : DupecheckDb :=
  { s with free := s.free + n, cellgauge := s.cellgauge - n }

/-- Write the chain of one bucket. -/
def DupecheckDb.setBucket (s : DupecheckDb) (i : Nat) (chain : List DupeRecord) : DupecheckDb :=
  { s with db := fun j => if j = i then chain else s.db j }

/-- Allocate a record and link it at the tail of bucket `i`. The flag says
whether the allocation succeeded. -/
def dupecheckLink (env : DupecheckEnv) (i : Nat) (dp : DupeRecord) (s : DupecheckDb) :
    Bool × DupecheckDb :=
  let (ok, s) := dupecheckDbAlloc env s
  if ok then (true, s.setBucket i (s.db i ++ [dp])) else (false, s)

/-- `dupecheck_append`: add a comparison copy of a packet that is not a
duplicate. -/
def dupecheckAppend (env : DupecheckEnv) (tick : Int) (i : Nat) (hash : UInt32)
    (addr data : Bytes) (s : DupecheckDb) : Bool × DupecheckDb :=
  dupecheckLink env i { hash := hash, t := tick, dtype := 0, packet := addr ++ data } s

/-! ## Storing variants -/

/-- The refresh loop of `dupecheck_add_buf`: set the time of the first record of
the chain that holds `s`; `none` when the loop runs to the end of the chain. -/
def refreshRecord (hash : UInt32) (s : Bytes) (tick : Int) :
    List DupeRecord → Option (List DupeRecord)
  | [] => none
  | dp :: rest =>
      if dp.hash = hash ∧ dp.packet = s then some ({ dp with t := tick } :: rest)
      else (refreshRecord hash s tick rest).map (dp :: ·)

/-- `dupecheck_add_buf`: refresh the record of `s`, or store a new one. -/
def dupecheckAddBuf (env : DupecheckEnv) (tick : Int) (s : Bytes) (dtype : Nat)
    (st : DupecheckDb) : DupecheckDb :=
  let hash := keyhash s 0
  let i := dupecheckIndex hash
  match refreshRecord hash s tick (st.db i) with
  | some chain => st.setBucket i chain
  | none => (dupecheckLink env i { hash := hash, t := tick, dtype := dtype, packet := s } st).2

/-- Remove the spaces at the end of a packet. -/
def trimSpaces (ib : Bytes) : Bytes := (ib.reverse.dropWhile (· = 0x20)).reverse

/-- A byte whose high bit is on. -/
def is8bit (c : UInt8) : Bool := c &&& 0x7F ≠ c

/-- Low data: a control character other than NUL. -/
def isLowdata (c : UInt8) : Bool := 0 < c && c < 0x20

/-- A DEL byte. -/
def isDel (c : UInt8) : Bool := c = 0x7F

/-- Delete the bytes that satisfy `p`. -/
def stripBytes (p : UInt8 → Bool) (ib : Bytes) : Bytes := ib.filter fun c => !p c

/-- Replace the bytes that satisfy `p` with spaces. -/
def spaceBytes (p : UInt8 → Bool) (ib : Bytes) : Bytes := ib.map fun c => if p c then 0x20 else c

/-- Clear the high bit of every byte. -/
def clear8bit (ib : Bytes) : Bytes := ib.map (· &&& 0x7F)

/-- The variants that `dupecheck_mangle_store` passes to `dupecheck_add_buf` for
the packet copy `ib`, in this order, each with its record type. -/
def mangledVariants (ib : Bytes) : List (Bytes × Nat) :=
  (if (trimSpaces ib).length ≠ ib.length then [(trimSpaces ib, dtypeSpaceTrim)] else []) ++
  (if (stripBytes is8bit ib).length ≠ ib.length then
    [(stripBytes is8bit ib, dtypeStrip8bit), (clear8bit ib, dtypeClear8bit),
     (spaceBytes is8bit ib, dtypeSpaced8bit)] else []) ++
  (if ib.any isLowdata ∧ (stripBytes isLowdata ib).length ≠ ib.length then
    [(stripBytes isLowdata ib, dtypeLowdataStrip),
     (spaceBytes isLowdata ib, dtypeLowdataSpaced)] else []) ++
  (if ib.any isDel ∧ (stripBytes isDel ib).length ≠ ib.length then
    [(stripBytes isDel ib, dtypeDelStrip), (spaceBytes isDel ib, dtypeDelSpaced)] else [])

/-- `dupecheck_mangle_store`. A packet that does not fit the buffer is not
mangled at all. -/
def dupecheckMangleStore (env : DupecheckEnv) (tick : Int) (addr data : Bytes)
    (s : DupecheckDb) : DupecheckDb :=
  let ib := addr ++ data
  if packetlenMax < ib.length then s
  else (mangledVariants ib).foldl (fun s v => dupecheckAddBuf env tick v.1 v.2 s) s

/-! ## Checking a packet -/

/-- The value `dupecheck` returns for a duplicate (`F_DUPE`). -/
def rcDupe : Int := 1

/-- `dupecheck`: check a single packet for duplicates. -/
def dupecheck (env : DupecheckEnv) (tick : Int) (pb : Pbuf) (s : DupecheckDb) :
    Int × DupecheckDb :=
  let expiretime := tick - env.dupefilterStoretime
  let hash := keyhash pb.info (keyhash pb.addr 0)
  let i := dupecheckIndex hash
  match (s.db i).find? fun dp =>
      dp.hash = hash ∧ expiretime ≤ dp.t ∧ dp.packet = pb.addr ++ pb.info with
  | some dp =>
      -- The type of the matching record is counted only below `DTYPE_MAX`.
      if dp.dtype < dtypeMax then
        (rcDupe, { s with
          dupetypes := fun d => if d = dp.dtype then s.dupetypes d + 1 else s.dupetypes d })
      else (rcDupe, s)
  | none =>
      let (ok, s) := dupecheckAppend env tick i hash pb.addr pb.info s
      if ok then (0, dupecheckMangleStore env tick pb.addr pb.info s) else (-1, s)

/-! ## Cleanup -/

/-- Whether `dupecheck_cleanup` keeps a record. -/
def keepsRecord (env : DupecheckEnv) (tick : Int) (dp : DupeRecord) : Bool :=
  tick - env.dupefilterStoretime ≤ dp.t && dp.t ≤ tick + env.dupefilterStoretime

/-- `dupecheck_cleanup`: discard the records that are too old, or too far in the
future, from every bucket. -/
def dupecheckCleanup (env : DupecheckEnv) (tick : Int) (s : DupecheckDb) : DupecheckDb :=
  let discarded := fun i => (s.db i).countP fun dp => !keepsRecord env tick dp
  let cleancount := ((List.range dupecheckDbSize).map discarded).sum
  let cleaned := fun i =>
    if i < dupecheckDbSize then (s.db i).filter (keepsRecord env tick) else s.db i
  dupecheckDbFree cleancount { s with db := cleaned }

/-! ## Runs -/

/-- A call that the dupecheck thread makes on the database. -/
inductive DupecheckCall where
  | dupecheck (pb : Pbuf)
  | cleanup

/-- Whether a call checks a packet. -/
def DupecheckCall.isDupecheck : DupecheckCall → Bool
  | .dupecheck _ => true
  | .cleanup => false

/-- A run so far: the database, and the packets checked with the tick of the
check and the value returned, the latest first. -/
structure DupecheckRun where
  st : DupecheckDb
  answers : List (Int × Pbuf × Int)

/-- One call at a tick. -/
def DupecheckRun.step (env : DupecheckEnv) (r : DupecheckRun) (c : Int × DupecheckCall) :
    DupecheckRun :=
  match c.2 with
  | .dupecheck pb =>
      let (rc, st) := dupecheck env c.1 pb r.st
      { st := st, answers := (c.1, pb, rc) :: r.answers }
  | .cleanup => { r with st := dupecheckCleanup env c.1 r.st }

/-- Run a sequence of calls from the empty database. -/
def runDupecheck (env : DupecheckEnv) (calls : List (Int × DupecheckCall)) : DupecheckRun :=
  calls.foldl (DupecheckRun.step env) { st := .init, answers := [] }

end Aprsc
