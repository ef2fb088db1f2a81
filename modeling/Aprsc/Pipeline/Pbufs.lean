-- SUMMARY: The packet buffers of a process: the arenas they are cut from, the pools of the workers, and the queues.
import Aprsc.Incoming.Parse
import Aprsc.Pipeline.Frame
import Mathlib.Data.Finset.Prod
import Mathlib.Data.Nat.Pairing

/-!
# Packet buffers in memory

A packet buffer is a cell of the arena of its size class. `pbuf_get` takes bunches of
buffers to a pool of the worker, and one buffer at a time from there. `incoming_parse`
puts the buffer on the incoming queue, or gives it back to the pool. From the queue it
goes through the pipeline, until the purge gives it back to the arena.

`next` is the first field of a packet buffer, and the link of a cell that is free is the
first word of the cell. There is one such word in memory: the arenas, the pools and the
queues are all linked by `PbufState.next`.
-/

namespace Aprsc

open PtrQueue

/-! ## Size classes -/

inductive PbufClass where
  | small
  | medium
  | large
deriving Repr, DecidableEq

namespace PbufClass

/-- `PACKETLEN_MAX_SMALL`, `PACKETLEN_MAX_MEDIUM` and `PACKETLEN_MAX_LARGE`. -/
def maxLen : PbufClass → Nat
  | .small => 100
  | .medium => 180
  | .large => packetlenMax

/-- `PBUF_ALLOCATE_BUNCH_SMALL`, `PBUF_ALLOCATE_BUNCH_MEDIUM` and
`PBUF_ALLOCATE_BUNCH_LARGE`. -/
def allocateBunch : PbufClass → Nat
  | .small => 2000
  | .medium => 2000
  | .large => 50

/-- The class that `pbuf_get` selects. -/
def forPacket (len : Int) : Option PbufClass :=
  if len ≤ small.maxLen then some .small
  else if len ≤ medium.maxLen then some .medium
  else if len ≤ large.maxLen then some .large
  else none

/-- The cases of `switch (p->buf_len)`. -/
def ofBufLen (bufLen : Nat) : Option PbufClass :=
  if bufLen = small.maxLen then some .small
  else if bufLen = medium.maxLen then some .medium
  else if bufLen = large.maxLen then some .large
  else none

@[simp] theorem ofBufLen_maxLen (cl : PbufClass) : ofBufLen cl.maxLen = some cl := by
  cases cl <;> rfl

theorem eq_maxLen {bufLen : Nat} {cl : PbufClass} (h : ofBufLen bufLen = some cl) :
    bufLen = cl.maxLen := by
  unfold ofBufLen at h
  split_ifs at h with hsmall hmedium hlarge <;> cases h <;> assumption

theorem maxLen_ne_zero (cl : PbufClass) : cl.maxLen ≠ 0 := by
  cases cl <;> decide

/-! ## Addresses -/

/-- Where the blocks of a class are, among the blocks of the process. -/
def index : PbufClass → Nat
  | .small => 0
  | .medium => 1
  | .large => 2

/-- Exchange the first `CELLBLOCKS_MAX` numbers with as many that start at the `k`-th
multiple of it. -/
def exchange (k b : Nat) : Nat :=
  if b < cellblocksMax then b + k * cellblocksMax
  else if k * cellblocksMax ≤ b ∧ b < (k + 1) * cellblocksMax then b - k * cellblocksMax
  else b

theorem exchange_exchange (k b : Nat) : exchange k (exchange k b) = b := by
  unfold exchange cellblocksMax
  split_ifs <;> omega

theorem exchange_of_lt {k k' b : Nat} (hk : k ≠ k') (hb : b < cellblocksMax) :
    cellblocksMax ≤ exchange k (exchange k' b) := by
  unfold exchange cellblocksMax at *
  split_ifs <;> omega

/-- The address of a cell. No two classes have a block in the same place. Every address
has a name in the blocks of each class, although not in those that an arena can have, so
the link of a cell may hold the address of any buffer. -/
def addr (cl : PbufClass) : CellPtr ≃ Nat where
  toFun c := Nat.pair (exchange cl.index c.block) c.cell
  invFun n := ⟨exchange cl.index n.unpair.1, n.unpair.2⟩
  left_inv c := by simp [exchange_exchange]
  right_inv n := by simp [exchange_exchange]

/-- An arena has no cell at the address of a cell of another class. -/
theorem addr_symm_block {cl cl' : PbufClass} (hcl : cl ≠ cl') {c : CellPtr}
    (hc : c.block < cellblocksMax) : cellblocksMax ≤ (cl.addr.symm (cl'.addr c)).block := by
  have hindex : cl.index ≠ cl'.index := by
    cases cl <;> cases cl' <;> first | exact absurd rfl hcl | decide
  simpa [addr] using exchange_of_lt hindex hc

theorem addr_class {cl cl' : PbufClass} {c c' : CellPtr} (hc : c.block < cellblocksMax)
    (hc' : c'.block < cellblocksMax) (heq : cl.addr c = cl'.addr c') : cl = cl' := by
  by_contra hcl
  have hhigh := addr_symm_block hcl hc'
  rw [← heq, Equiv.symm_apply_apply] at hhigh
  omega

/-- There are only so many addresses of cells. -/
theorem length_le_of_addr {ns : List Nat} (hnodup : ns.Nodup) {blocks cells : Nat}
    (h : ∀ n ∈ ns, ∃ (cl : PbufClass) (c : CellPtr), c.block < blocks ∧ c.cell < cells ∧ cl.addr c = n) :
    ns.length ≤ 3 * (blocks * cells) := by
  have hsub : ns.toFinset ⊆ (({.small, .medium, .large} : Finset PbufClass) ×ˢ Finset.range blocks ×ˢ
      Finset.range cells).image fun x => x.1.addr ⟨x.2.1, x.2.2⟩ := by
    intro n hn
    obtain ⟨cl, c, hblock, hcell, heq⟩ := h n (List.mem_toFinset.mp hn)
    refine Finset.mem_image.mpr ⟨(cl, c.block, c.cell), ?_, heq⟩
    simp only [Finset.mem_product, Finset.mem_range]
    exact ⟨by cases cl <;> simp, hblock, hcell⟩
  calc ns.length = ns.toFinset.card := (List.toFinset_card_of_nodup hnodup).symm
    _ ≤ _ := Finset.card_le_card hsub
    _ ≤ _ := Finset.card_image_le
    _ = _ := by rw [Finset.card_product, Finset.card_product, Finset.card_range, Finset.card_range]
    _ ≤ 3 * (blocks * cells) := Nat.mul_le_mul_right _ Finset.card_le_three

end PbufClass

/-! ## The state -/

/-- The state of the process, as far as it has to do with packet buffers. -/
structure PbufState where
  pipeline : Pipeline
  /-- `pbuf_cells_small`, `pbuf_cells_medium` and `pbuf_cells_large`. Their memory has
  their `free_head` only. -/
  arena : PbufClass → CellarenaT
  /-- `pbuf_free_small`, `pbuf_free_medium` and `pbuf_free_large` of a worker. -/
  pool : Nat → PbufClass → Option Nat
  /-- `pb` of the `incoming_parse` that a worker is in, and what becomes of the packet. -/
  parsing : Nat → Option (Nat × Incoming)
  bufLen : Nat → Nat
  /-- The field `is_free`. The mark of the pipeline stays from the purge until a packet is
  queued again, this field until `pbuf_get`. -/
  isFree : Nat → Bool

namespace PbufState

/-- The field `next`. -/
def next (s : PbufState) (n : Nat) : Option Nat := s.pipeline.queues.mem (.next n)

/-- `pb->next = v`. -/
def setNext (s : PbufState) (pb : Nat) (v : Option Nat) : PbufState :=
  { s with pipeline := { s.pipeline with queues := s.pipeline.queues.write (.next pb) v } }

def setPool (s : PbufState) (w : Nat) (cl : PbufClass) (v : Option Nat) : PbufState :=
  { s with pool := Function.update s.pool w (Function.update (s.pool w) cl v) }

/-- An arena, with the links of its cells. -/
def cells (s : PbufState) (cl : PbufClass) : CellarenaT :=
  { s.arena cl with
    mem := fun
      | .head f => (s.arena cl).mem (.head f)
      | .next c => (s.next (cl.addr c)).map cl.addr.symm }

/-- An arena and the links of its cells have changed. -/
def setCells (s : PbufState) (cl : PbufClass) (ca : CellarenaT) : PbufState :=
  { s with
    arena := Function.update s.arena cl ca
    pipeline := { s.pipeline with
      queues := { s.pipeline.queues with
        mem := fun
          | .head h => s.pipeline.queues.mem (.head h)
          | .next n => (ca.next (cl.addr.symm n)).map cl.addr } } }

/-- The memory that the pools are in. -/
def poolMem (s : PbufState) : PtrMem (Nat × PbufClass) Nat
  | .head p => s.pool p.1 p.2
  | .next n => s.next n

/-! ## pbuf_get and pbuf_free -/

/-- `pb->is_free = 0` and `pb->buf_len = len`. -/
def label (s : PbufState) (cl : PbufClass) (pb : Nat) : PbufState :=
  { s with
    bufLen := Function.update s.bufLen pb cl.maxLen
    isFree := Function.update s.isFree pb false }

/-- `memset(pb, 0, sizeof(*pb))` and `pb->buf_len = len`. The other fields are given
their values where the packet is queued. -/
def clear (s : PbufState) (cl : PbufClass) (pb : Nat) : PbufState := (s.setNext pb none).label cl pb

/-- The loop of `pbuf_get` that puts the rest of a bunch in the pool. -/
def fillPool (w : Nat) (cl : PbufClass) : List Nat → PbufState → PbufState
  | [], s => s
  | pb :: pbs, s =>
      fillPool w cl pbs (((s.setNext pb (s.pool w cl)).label cl pb).setPool w cl (some pb))

/-- `pbuf_get`, unless the allocator crashes. -/
def pbufGet (mmap : PbufClass → Nat → Bool) (s : PbufState) (self : Nat) (len : Int) :
    Option (Option Nat × PbufState) :=
  match PbufClass.forPacket len with
  | none => some (none, s)
  | some cl =>
      match s.pool self cl with
      | some pb => some (some pb, (s.setPool self cl (s.next pb)).clear cl pb)
      | none =>
          ((s.cells cl).cellmallocmany (mmap cl) cl.allocateBunch).map fun r =>
            match r.1.map cl.addr with
            | [] => (none, s.setCells cl r.2)
            | pb :: pbs => (some pb, (fillPool self cl pbs (s.setCells cl r.2)).clear cl pb)

/-- `pbuf_free`: to the pool of a worker, or to the arena. A buffer of another length is
left alone. -/
def pbufFree (s : PbufState) (self : Option Nat) (p : Nat) : PbufState :=
  match PbufClass.ofBufLen (s.bufLen p) with
  | none => s
  | some cl =>
      match self with
      | some w => (s.setNext p (s.pool w cl)).setPool w cl (some p)
      | none => s.setCells cl ((s.cells cl).cellfree (cl.addr.symm p))

/-- `cellfreemany`, if there is a cell. -/
def cellfreemany (s : PbufState) (cl : PbufClass) (array : List Nat) : PbufState :=
  if array = [] then s else s.setCells cl ((s.cells cl).cellfreemany (array.map cl.addr.symm))

/-- `pbuf_free_many`. -/
def pbufFreeMany (s : PbufState) (array : List Nat) : PbufState :=
  let s := { s with isFree := fun n => if n ∈ array then true else s.isFree n }
  let sorted := fun cl => array.filter fun p => PbufClass.ofBufLen (s.bufLen p) = some cl
  ((s.cellfreemany .small (sorted .small)).cellfreemany .medium (sorted .medium)).cellfreemany
    .large (sorted .large)

end PbufState

/-- The calls of `pbuf_free_many` for one list: one for each 2000 buffers, and one for the
rest. -/
def freesets : (fuel : Nat) → List Nat → List (List Nat)
  | 0, _ => []
  | fuel + 1, pbs => if pbs = [] then [] else pbs.take 2000 :: freesets fuel (pbs.drop 2000)

theorem flatten_freesets {fuel : Nat} {pbs : List Nat} (hfuel : pbs.length ≤ fuel) :
    (freesets fuel pbs).flatten = pbs := by
  induction fuel generalizing pbs with
  | zero => exact (List.length_eq_zero_iff.mp (Nat.le_zero.mp hfuel)).symm
  | succ fuel ih =>
    rw [freesets]
    split
    · next hnil => rw [hnil, List.flatten_nil]
    · next hne =>
      have hpos := List.length_pos_iff.mpr hne
      rw [List.flatten_cons, ih (by rw [List.length_drop]; omega), List.take_append_drop]

namespace PbufState

/-- What `global_pbuf_purger` frees goes to the arenas. -/
def purged (s : PbufState) (evs : List PipelineEvent) : PbufState :=
  let calls := fun ln => freesets (freedFrom ln evs).length (freedFrom ln evs)
  (calls .main ++ calls .dupe).foldl pbufFreeMany s

end PbufState

/-! ## incoming_parse -/

/-- The length for which `incoming_parse` calls `pbuf_get`, if it gets there. -/
def pbufRequest (env : IncomingEnv) (c : Client) (s : Bytes) : Option Int :=
  match lineOf env c s with
  | .error _ => none
  | .ok s =>
      match parseHeader env.cfg s with
      | .error _ => none
      | .ok h =>
          match (qProcess env.cfg env.clientlist (env.mem.load s) c h.viaStart h.pathlen
              (c.username == h.src s)).val with
          | .error _ => none
          | .ok q =>
              if disallowedIgate env.cfg q then none
              else if newLen s.length q > packetlenMax then none
              else some (newLen s.length q)

/-- A packet for which no buffer is requested is dropped. -/
theorem incomingParse_of_pbufRequest_none {env : IncomingEnv} {c : Client} {s : Bytes}
    (h : pbufRequest env c s = none) : ∃ rc, incomingParse env c s = .dropped rc := by
  unfold pbufRequest at h
  unfold incomingParse
  cases hline : lineOf env c s with
  | error rc => exact ⟨rc, rfl⟩
  | ok line =>
    simp only [hline] at h
    dsimp only
    unfold incomingParseLine
    cases hheader : parseHeader env.cfg line with
    | error rc => exact ⟨rc, rfl⟩
    | ok hd =>
      simp only [hheader] at h
      dsimp only
      split
      · next rc _ => exact ⟨rc, rfl⟩
      · next q hq =>
        simp only [hq] at h
        split at h
        · next hig => exact ⟨inerrDisIgatecall, by simp only [rewritePacket, if_pos hig]⟩
        · next hig =>
          split at h
          · next hlong => exact ⟨inerrLongPacket, by simp only [rewritePacket, if_neg hig, if_pos hlong]⟩
          · cases h

/-- Without a buffer the packet is dropped. -/
theorem incomingParse_of_no_pbuf {env : IncomingEnv} {c : Client} {s : Bytes} {len : Int}
    (h : pbufRequest env c s = some len) :
    incomingParse { env with pbufGet := false } c s = .dropped inerrOutOfPbufs := by
  unfold pbufRequest at h
  unfold incomingParse
  have hsame : lineOf { env with pbufGet := false } c s = lineOf env c s := rfl
  rw [hsame]
  cases hline : lineOf env c s with
  | error rc => simp [hline] at h
  | ok line =>
    simp only [hline] at h
    dsimp only
    unfold incomingParseLine
    dsimp only
    cases hheader : parseHeader env.cfg line with
    | error rc => simp [hheader] at h
    | ok hd =>
      simp only [hheader] at h
      dsimp only
      split
      · next rc hq => simp [hq] at h
      · next q hq =>
        simp only [hq] at h
        split at h
        · cases h
        · next hig =>
          split at h
          · cases h
          · next hlong => simp [rewritePacket, hig, hlong]

/-- What `incoming_parse` asks for, a size class has. -/
theorem forPacket_of_pbufRequest {env : IncomingEnv} {c : Client} {s : Bytes} {len : Int}
    (h : pbufRequest env c s = some len) : PbufClass.forPacket len ≠ none := by
  have hlen : len ≤ packetlenMax := by
    unfold pbufRequest at h
    repeat' split at h
    all_goals cases h
    omega
  unfold PbufClass.forPacket
  split_ifs with hsmall hmedium hlarge
  · exact Option.some_ne_none _
  · exact Option.some_ne_none _
  · exact Option.some_ne_none _
  · exact absurd hlen hlarge

/-! ## Steps -/

/-- What the environment decides: the configuration of the purge, and which calls of
`mmap` succeed. -/
structure PbufEnv where
  cfg : PipelineConfig
  mmap : PbufClass → Nat → Bool

inductive PbufAction where
  /-- `incoming_parse` on a line from a client, up to `pbuf_get`. -/
  | incomingParse (w : Nat) (env : IncomingEnv) (c : Client) (line : Bytes)
  /-- The rest of `incoming_parse`. -/
  | incomingParseEnd (w : Nat)
  | pipeline (act : PipelineAction)
  /-- One turn of a loop of `worker_free_buffers`. The head variable moves along with `p`. -/
  | workerFreeBuffers (w : Nat) (cl : PbufClass)

namespace PbufState

/-- The end of `incoming_parse`: the packet goes to the incoming queue, or the buffer is
given back (`free_pb_ret`). -/
def incomingParseEnd (cfg : PipelineConfig) (s : PbufState) (w : Nat) : PbufState :=
  match s.parsing w with
  | none => s
  | some (pb, .dropped _) =>
      { s with parsing := Function.update s.parsing w none }.pbufFree (some w) pb
  | some (pb, .queued _ packet) =>
      match s.pipeline.step cfg (.queue w pb packet.t) with
      | none => s
      | some (pipeline, _) =>
          { s with pipeline := pipeline, parsing := Function.update s.parsing w none }

/-- One step, unless the allocator crashes. A thread that cannot take the step does not
change anything. -/
def step (env : PbufEnv) (s : PbufState) : PbufAction → Option PbufState
  | .incomingParse w penv c line =>
      if w < s.pipeline.nworkers ∧ s.parsing w = none then
        match pbufRequest penv c line with
        | none => some s
        | some len => (s.pbufGet env.mmap w len).map fun r =>
            match r.1 with
            | none => r.2
            | some pb =>
                let result := Aprsc.incomingParse { penv with pbufGet := true } c line
                { r.2 with parsing := Function.update r.2.parsing w (some (pb, result)) }
      else some s
  | .incomingParseEnd w => some (s.incomingParseEnd env.cfg w)
  | .pipeline act =>
      match act with
      -- Packets are queued at the end of `incoming_parse`.
      | .queue _ _ _ => some s
      | act =>
          match s.pipeline.step env.cfg act with
          | none => some s
          | some (pipeline, evs) => some ({ s with pipeline := pipeline }.purged evs)
  | .workerFreeBuffers w cl =>
      match s.pool w cl with
      | none => some s
      | some p => some ((s.setPool w cl (s.next p)).pbufFree none p)

end PbufState

/-- A step of a process that may have crashed. -/
def pbufStep (env : PbufEnv) (s : Option PbufState) (act : PbufAction) : Option PbufState :=
  s.bind fun s => s.step env act

/-- `CELLMALLOC_POLICY_FIFO`. -/
def cellmallocPolicyFifo : Nat := 0

/-- `pbuf_cells_kb`. -/
def pbufCellsKb : Nat := 2048

/-- `pbuf_init`, when no thread has started yet. With a `minfree` of 0 an arena starts
without blocks. Memory that is mapped is filled with zeros. -/
def pbufInit (sizeofPbuf alignofPbuf : Nat) : PbufState where
  pipeline := .init
  arena cl := emptyArena (sizeofPbuf + cl.maxLen) alignofPbuf cellmallocPolicyFifo pbufCellsKb 0
  pool _ _ := none
  parsing _ := none
  bufLen _ := 0
  isFree _ := false

/-- The arenas are those that `cellinit` returns. -/
theorem cellinit_pbufInit (mmap : Nat → Bool) (sizeofPbuf : Nat) {alignofPbuf : Nat}
    (halign : 0 < alignofPbuf) (cl : PbufClass) :
    cellinit mmap 1 (sizeofPbuf + cl.maxLen) alignofPbuf cellmallocPolicyFifo pbufCellsKb 0 =
      some ((pbufInit sizeofPbuf alignofPbuf).arena cl) := by
  have hincrement : cellIncrement (sizeofPbuf + cl.maxLen) alignofPbuf ≠ 0 := by
    have := cl.maxLen_ne_zero
    unfold cellIncrement
    split <;> omega
  rw [cellinit, if_neg (not_or.mpr ⟨halign.ne', hincrement⟩), CellarenaT.cellinitLoop,
    if_neg (by simp [emptyArena])]
  rfl

end Aprsc
