-- SUMMARY: The packet pipeline as a step function: worker queues, dupecheck rounds, outgoing processing and the purge.
import Aprsc.Base.PtrQueue
import Mathlib.Algebra.GroupWithZero.Nat
import Mathlib.Data.Int.Order.Basic

/-!
# The packet pipeline

Packets pass through linked queues: a worker collects them on a local queue,
`incoming_flush` hands them to the queue the dupecheck thread reads, a dupecheck
round sorts them into two output chains and appends these to the global lists,
and every worker walks the global lists with a cursor of its own. The purge takes
packets off the front of the global lists.

A step is a part of the code that no other thread can interrupt: a critical
section, one packet of the dupecheck loop, one packet of the outgoing loop. A
thread is the order of its own steps, so any interleaving of the threads is a
sequence of steps.
-/

namespace Aprsc

open PtrQueue

/-- The two global lists: packets that passed the duplicate check, and duplicates. -/
inductive Lane where
  | main
  | dupe
deriving Repr, DecidableEq

/-- The variables at which a queue of packets starts. Workers are numbered. -/
inductive Head where
  | incomingLocal (w : Nat)
  | incoming (w : Nat)
  /-- `pb` of the loop in `dupecheck_drain_worker`. -/
  | pb
  | pbOut (ln : Lane)
  | pbufGlobal (ln : Lane)
deriving Repr, DecidableEq

/-- Pointers to packets, and to fields that hold such pointers. -/
abbrev PbufLoc := Loc Head Nat

/-- `struct worker_t`, less its incoming queues. -/
structure Worker where
  /-- In `worker_threads`; the http and udp threads have a worker that is not. -/
  thread : Bool
  /-- Between the critical section and the end of `incoming_flush`. -/
  flushing : Bool
  pbufGlobalPrevp : Lane → PbufLoc
  lastPbufSeqnum : Lane → BitVec 32
  internalPacketDrops : Nat

/-- What the dupecheck thread is doing. -/
inductive Phase where
  | idle
  /-- Draining the workers. -/
  | round
  /-- The worker lags are computed, the purge comes next. -/
  | purging
deriving Repr, DecidableEq

/-- The pipeline. The tail pointers `pbuf_incoming_local_last`,
`pbuf_incoming_last`, `pb_out_prevp` and `pbuf_global_prevp` and the counters of
the queues are part of `queues`. -/
structure Pipeline where
  queues : Store Head Nat
  nworkers : Nat
  worker : Nat → Worker
  phase : Phase
  dupecheckSeqnum : Lane → BitVec 32
  workerPbufLag : Lane → Int
  /-- The fields `seqnum`, `t` and `is_free` of a packet. -/
  seqnum : Nat → BitVec 32
  t : Nat → Int
  isFree : Nat → Bool

/-- `pbuf_global_expiration` and `pbuf_global_dupe_expiration`. -/
structure PipelineConfig where
  pbufGlobalExpiration : Lane → Int

/-- The values they are initialised to. -/
def PipelineConfig.initial : PipelineConfig where
  pbufGlobalExpiration := fun _ => 60

/-- `pbuf_global_count_limit` and `pbuf_global_dupe_count_limit`, until the purge of the
shutdown takes everything. -/
def pbufGlobalCountLimit : Lane → Int
  | .main => 5000
  | .dupe => 100

theorem pbufGlobalCountLimit_pos (ln : Lane) : 0 < pbufGlobalCountLimit ln := by
  cases ln <;> decide

/-- What becomes of a packet in `process_outgoing`. -/
inductive Disposition where
  | future
  | aged
  | sent
deriving Repr, DecidableEq

inductive PipelineEvent where
  | queued (w n : Nat)
  | flushed (w : Nat)
  | drained (w : Nat)
  | published
  | visited (w : Nat) (ln : Lane) (n : Nat) (d : Disposition)
  /-- `process_outgoing` met a packet marked free, and called `abort`. -/
  | aborted (w : Nat) (ln : Lane) (n : Nat)
  | freed (ln : Lane) (n : Nat)
deriving Repr, DecidableEq

inductive PipelineAction where
  | workerAlloc (thread : Bool)
  /-- `incoming_parse` puts a new packet on the local queue. -/
  | queue (w n : Nat) (t : Int)
  /-- `incoming_flush`, up to the unlock; `locked` is the outcome of the try-lock. -/
  | incomingFlush (w : Nat) (locked : Bool)
  /-- The rest of `incoming_flush`. -/
  | incomingFlushClean (w : Nat)
  | roundStart
  /-- `dupecheck_drain_worker`, up to its loop. -/
  | drain (w : Nat)
  /-- One turn of its loop; `rc` is what `dupecheck` returned. -/
  | check (rc : Int)
  | roundEnd
  /-- One turn of a loop of `process_outgoing`. -/
  | processOutgoing (w : Nat) (ln : Lane) (tick : Int)
  | lagScan
  | purge (tick : Int)
deriving Repr, DecidableEq

namespace Pipeline

/-- The state at program start. -/
def init : Pipeline where
  queues := { mem := fun _ => none, last := .head, count := fun _ => 0 }
  nworkers := 0
  worker := fun _ =>
    { thread := false, flushing := false, pbufGlobalPrevp := fun ln => .head (.pbufGlobal ln),
      lastPbufSeqnum := fun _ => 0, internalPacketDrops := 0 }
  phase := .idle
  dupecheckSeqnum := fun _ => BitVec.ofInt 32 (-2000)
  workerPbufLag := fun _ => -1
  seqnum := fun _ => 0
  t := fun _ => 0
  isFree := fun _ => true

def setWorker (s : Pipeline) (w : Nat) (wk : Worker) : Pipeline :=
  { s with worker := Function.update s.worker w wk }

/-- `worker_alloc`: a new worker reads the global lists from their end on. -/
def workerAlloc (s : Pipeline) (thread : Bool) : Pipeline :=
  { s with
    queues := (s.queues.reset (.incomingLocal s.nworkers)).reset (.incoming s.nworkers)
    nworkers := s.nworkers + 1
    worker := Function.update s.worker s.nworkers
      { thread := thread, flushing := false,
        pbufGlobalPrevp := fun ln => s.queues.last (.pbufGlobal ln),
        lastPbufSeqnum := fun _ => 0, internalPacketDrops := 0 } }

/-- The end of `incoming_parse`. The packet comes zeroed from `pbuf_get`. -/
def queue (s : Pipeline) (w n : Nat) (t : Int) : Pipeline :=
  { s with
    queues := (s.queues.write (.next n) none).append (.incomingLocal w) n
    seqnum := Function.update s.seqnum n 0
    t := Function.update s.t n t
    isFree := Function.update s.isFree n false }

/-- The critical section of `incoming_flush`. -/
def incomingFlush (s : Pipeline) (w : Nat) : Pipeline :=
  { s with queues := s.queues.splice (.incoming w) (.incomingLocal w) }.setWorker w
    { s.worker w with flushing := true }

/-- The end of `incoming_flush`: clean the local queue. -/
def incomingFlushClean (s : Pipeline) (w : Nat) : Pipeline :=
  { s with queues := s.queues.reset (.incomingLocal w) }.setWorker w
    { s.worker w with flushing := false }

/-- The start of a turn of the main loop of `dupecheck_thread`. -/
def roundStart (s : Pipeline) : Pipeline :=
  { s with
    queues := (s.queues.reset (.pbOut .main)).reset (.pbOut .dupe)
    phase := .round }

/-- Grab a worker's list of packets. -/
def drain (s : Pipeline) (w : Nat) : Pipeline :=
  { s with
    queues := (s.queues.write (.head .pb) (s.queues.mem (.head (.incoming w)))).reset (.incoming w) }

/-- Append the packet to an output chain, under the next sequence number. -/
def check (s : Pipeline) (n : Nat) (ln : Lane) : Pipeline :=
  let pbnext := s.queues.mem (.next n)
  let seq := s.dupecheckSeqnum ln + 1
  { s with
    queues := (s.queues.append (.pbOut ln) n).write (.head .pb) pbnext
    dupecheckSeqnum := Function.update s.dupecheckSeqnum ln seq
    seqnum := Function.update s.seqnum n seq }

/-- Append an output chain to its global list, if there is one. -/
def publish (s : Pipeline) (ln : Lane) : Pipeline :=
  if s.queues.mem (.head (.pbOut ln)) = none then s
  else { s with queues := s.queues.splice (.pbufGlobal ln) (.pbOut ln) }

/-- Terminate the output chains, and put their packets in the global lists. -/
def roundEnd (s : Pipeline) : Pipeline :=
  let s := { s with queues := (s.queues.terminate (.pbOut .main)).terminate (.pbOut .dupe) }
  { (s.publish .main).publish .dupe with phase := .idle }

/-- The safety checks of `process_outgoing` on a packet that is not free. -/
def disposition (tick t : Int) : Disposition :=
  if t > tick + 2 then .future
  else if tick - t > 5 then .aged
  else .sent

/-- One packet of `process_outgoing`. Drops are counted on the main list only. -/
def processOutgoing (s : Pipeline) (w : Nat) (ln : Lane) (n : Nat) (d : Disposition) : Pipeline :=
  let wk := s.worker w
  s.setWorker w { wk with
    lastPbufSeqnum := Function.update wk.lastPbufSeqnum ln (s.seqnum n)
    pbufGlobalPrevp := Function.update wk.pbufGlobalPrevp ln (.next n)
    internalPacketDrops :=
      if ln = .main ∧ d ≠ .sent then wk.internalPacketDrops + 1 else wk.internalPacketDrops }

/-! ## The purge -/

end Pipeline

/-- `pbuf_seqnum_lag`. Sequence number 0 stands for a worker without data. -/
def pbufSeqnumLag (seqnum pbufSeq : BitVec 32) : Int :=
  if pbufSeq = 0 then 2000000000 else (seqnum - pbufSeq).toInt

namespace Pipeline

/-- The lag of one worker on a list. The main list tests for 0 once more. -/
def workerLag (s : Pipeline) (ln : Lane) (wk : Worker) : Int :=
  let c := pbufSeqnumLag (s.dupecheckSeqnum ln) (wk.lastPbufSeqnum ln)
  if ln = .main ∧ wk.lastPbufSeqnum ln = 0 then 2000000000 else c

/-- The members of `worker_threads`. -/
def workerThreads (s : Pipeline) : List Worker :=
  ((List.range s.nworkers).map s.worker).filter (·.thread)

/-- Find the highest worker lag of each list. -/
def lagScan (s : Pipeline) : Pipeline :=
  { s with
    workerPbufLag := fun ln =>
      s.workerThreads.foldl (fun lag wk => if s.workerLag ln wk > lag then s.workerLag ln wk else lag) (-1)
    phase := .purging }

/-- The loop of `global_pbuf_purger` on one list. Every turn takes one off the
counter, so `fuel` need not be more than what the counter is above the limit. The
head variable moves along with `pb`: nothing reads it inside the loop. -/
def purgeLoop (limit expire lag : Int) (ln : Lane) : Nat → Pipeline → Pipeline × List PipelineEvent
  | 0, s => (s, [])
  | fuel + 1, s =>
    match s.queues.mem (.head (.pbufGlobal ln)) with
    | none => (s, [])
    | some n =>
      if s.queues.count (.pbufGlobal ln) > limit ∧ s.t n < expire ∧
          lag < pbufSeqnumLag (s.dupecheckSeqnum ln) (s.seqnum n) then
        let (s', evs) := purgeLoop limit expire lag ln fuel
          { s with
            queues := s.queues.unlink (.pbufGlobal ln) n
            isFree := Function.update s.isFree n true }
        (s', .freed ln n :: evs)
      else (s, [])

/-- `global_pbuf_purger` on one list, with the lag found by `lagScan`. -/
def purgeLane (cfg : PipelineConfig) (tick : Int) (ln : Lane) (s : Pipeline) :
    Pipeline × List PipelineEvent :=
  purgeLoop (pbufGlobalCountLimit ln) (tick - cfg.pbufGlobalExpiration ln) (s.workerPbufLag ln)
    ln (s.queues.count (.pbufGlobal ln) - pbufGlobalCountLimit ln).toNat s

/-- `global_pbuf_purger`, called from `dupecheck_thread`. -/
def purge (cfg : PipelineConfig) (s : Pipeline) (tick : Int) : Pipeline × List PipelineEvent :=
  let (s, evs) := s.purgeLane cfg tick .main
  let (s, evs') := s.purgeLane cfg tick .dupe
  ({ s with phase := .idle }, evs ++ evs')

/-! ## Steps and runs -/

/-- One step, if it can be taken. A thread that finds nothing to do takes a step
that changes nothing. -/
def step (cfg : PipelineConfig) (s : Pipeline) :
    PipelineAction → Option (Pipeline × List PipelineEvent)
  | .workerAlloc thread => some (s.workerAlloc thread, [])
  | .queue w n t =>
    if w < s.nworkers ∧ (s.worker w).flushing = false ∧ s.isFree n = true then
      some (s.queue w n t, [.queued w n])
    else none
  | .incomingFlush w locked =>
    if w < s.nworkers ∧ (s.worker w).flushing = false then
      -- The callers flush only a queue that is not empty.
      if s.queues.mem (.head (.incomingLocal w)) = none ∨ locked = false then some (s, [])
      else some (s.incomingFlush w, [.flushed w])
    else none
  | .incomingFlushClean w =>
    if w < s.nworkers ∧ (s.worker w).flushing = true then some (s.incomingFlushClean w, [])
    else none
  | .roundStart => if s.phase = .idle then some (s.roundStart, []) else none
  | .drain w =>
    if s.phase = .round ∧ s.queues.mem (.head .pb) = none ∧ w < s.nworkers then
      if s.queues.mem (.head (.incoming w)) = none then some (s, [.drained w])
      else some (s.drain w, [.drained w])
    else none
  | .check rc =>
    match s.queues.mem (.head .pb) with
    | none => none
    | some n => some (s.check n (if rc = 0 then .main else .dupe), [])
  | .roundEnd =>
    if s.phase = .round ∧ s.queues.mem (.head .pb) = none then some (s.roundEnd, [.published])
    else none
  | .processOutgoing w ln tick =>
    if w < s.nworkers ∧ (s.worker w).thread = true then
      match s.queues.mem ((s.worker w).pbufGlobalPrevp ln) with
      | none => some (s, [])
      | some n =>
        if s.isFree n = true then some (s, [.aborted w ln n])
        else
          let d := disposition tick (s.t n)
          some (s.processOutgoing w ln n d, [.visited w ln n d])
    else none
  | .lagScan => if s.phase = .idle then some (s.lagScan, []) else none
  | .purge tick => if s.phase = .purging then some (s.purge cfg tick) else none

/-- The `while` loop of `process_outgoing` on one list, for at most `fuel` turns. A
turn at the end of the list changes nothing. -/
def outgoingLoop (cfg : PipelineConfig) (w : Nat) (ln : Lane) (tick : Int) :
    Nat → Pipeline → Pipeline × List PipelineEvent
  | 0, s => (s, [])
  | fuel + 1, s =>
    match s.step cfg (.processOutgoing w ln tick) with
    | none => (s, [])
    | some (s', evs) =>
      let (s'', evs') := outgoingLoop cfg w ln tick fuel s'
      (s'', evs ++ evs')

/-- A run whose steps all satisfy `P`, with its events in order. -/
inductive Run (cfg : PipelineConfig) (P : Pipeline → PipelineAction → Prop) :
    Pipeline → List PipelineEvent → Pipeline → Prop where
  | nil {s : Pipeline} : Run cfg P s [] s
  | snoc {s s' s'' : Pipeline} {evs evs' : List PipelineEvent} {act : PipelineAction}
      (hrun : Run cfg P s evs s') (hP : P s' act) (hstep : s'.step cfg act = some (s'', evs')) :
      Run cfg P s (evs ++ evs') s''

/-- Take the steps of a list, if all can be taken. -/
def exec (cfg : PipelineConfig) : List PipelineAction → Pipeline →
    Option (Pipeline × List PipelineEvent)
  | [], s => some (s, [])
  | act :: acts, s =>
    match s.step cfg act with
    | none => none
    | some (s', evs) => (exec cfg acts s').map fun r => (r.1, evs ++ r.2)

namespace Run

variable {cfg : PipelineConfig} {P : Pipeline → PipelineAction → Prop} {s s' s'' : Pipeline}
  {evs evs' : List PipelineEvent}

theorem trans (h : Run cfg P s evs s') (h' : Run cfg P s' evs' s'') :
    Run cfg P s (evs ++ evs') s'' := by
  induction h' with
  | nil => simpa using h
  | snoc _ hP hstep ih =>
    rw [← List.append_assoc]
    exact .snoc ih hP hstep

theorem of_exec {acts : List PipelineAction} (hP : ∀ act ∈ acts, ∀ s, P s act)
    (h : exec cfg acts s = some (s', evs)) : Run cfg P s evs s' := by
  induction acts generalizing s evs with
  | nil =>
    cases h
    exact .nil
  | cons act acts ih =>
    unfold exec at h
    split at h
    · cases h
    · next s₁ evs₁ hstep =>
      obtain ⟨⟨s₂, evs₂⟩, hexec, heq⟩ := Option.map_eq_some_iff.mp h
      cases heq
      have hrest := ih (fun a ha => hP a (List.mem_cons_of_mem act ha)) hexec
      have hfirst : Run cfg P s ([] ++ evs₁) s₁ := .snoc .nil (hP act List.mem_cons_self s) hstep
      exact hfirst.trans hrest

end Run

end Pipeline

/-! ## What the events say -/

/-- The packets that a worker queued, in this order. -/
def queuedBy (w : Nat) (evs : List PipelineEvent) : List Nat :=
  evs.filterMap fun
    | .queued w' n => if w' = w then some n else none
    | _ => none

/-- The packets of a list that a worker visited, in this order. -/
def visitedBy (w : Nat) (ln : Lane) (evs : List PipelineEvent) : List Nat :=
  evs.filterMap fun
    | .visited w' ln' n _ => if w' = w ∧ ln' = ln then some n else none
    | _ => none

@[simp] theorem queuedBy_append (w : Nat) (evs evs' : List PipelineEvent) :
    queuedBy w (evs ++ evs') = queuedBy w evs ++ queuedBy w evs' := List.filterMap_append ..

@[simp] theorem visitedBy_append (w : Nat) (ln : Lane) (evs evs' : List PipelineEvent) :
    visitedBy w ln (evs ++ evs') = visitedBy w ln evs ++ visitedBy w ln evs' :=
  List.filterMap_append ..

end Aprsc
