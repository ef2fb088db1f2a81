-- SUMMARY: Conservation of packet buffers: each is in one place, whatever the threads do with it.
import Aprsc.Pipeline.Owners
import Aprsc.Base.Runs

/-!
# Conservation of packet buffers

A buffer is in the free list of an arena, in the pool of a worker, in `incoming_parse` or
in a queue. Its place follows from its owner when no buffer is on its way, as between two
steps. The length of a buffer is set when `pbuf_get` takes it from a new block.
-/

namespace Aprsc

open PtrQueue Runs

/-! ## Places -/

/-- Where a packet buffer can be. -/
inductive Place where
  | arena (cl : PbufClass)
  | pool (w : Nat) (cl : PbufClass)
  | incomingParse (w : Nat)
  | queue (h : Head)
deriving DecidableEq

def Place.owner : Place → Owner
  | .arena _ => .arena
  | .pool w cl => .pool w cl
  | .incomingParse w => .parser w
  | .queue _ => .queues

/-- An arena and a pool are for the buffers of one class. -/
def Place.Admits (cl : PbufClass) : Place → Prop
  | .arena cl' => cl' = cl
  | .pool _ cl' => cl' = cl
  | .incomingParse _ => True
  | .queue _ => True

namespace PbufState

/-- There is such a buffer: the cell is in a block of the arena. -/
def HasBuffer (s : PbufState) (cl : PbufClass) (c : CellPtr) : Prop :=
  c.block < (s.arena cl).cellblocksCount ∧ c.cell < (s.arena cl).cellsPerBlock

/-- The buffer is in the place, when the memory holds these free lists, pools and queues. -/
def At (s : PbufState) (free : PbufClass → List CellPtr) (pool : Nat × PbufClass → List Nat)
    (q : Head → List Nat) (n : Nat) : Place → Prop
  | .arena cl => n ∈ (free cl).map cl.addr
  | .pool w cl => n ∈ pool (w, cl)
  | .incomingParse w => ∃ r, s.parsing w = some (n, r)
  | .queue h => n ∈ q h

structure Conserved (s : PbufState) (free : PbufClass → List CellPtr)
    (pool : Nat × PbufClass → List Nat) (q : Head → List Nat) : Prop where
  arenas : ∀ cl, Lists (s.cells cl).mem fun _ => free cl
  pools : Lists s.poolMem pool
  queues : s.pipeline.Holds q
  /-- Each buffer is in exactly one place, which is for buffers of its class. -/
  place : ∀ cl c, s.HasBuffer cl c →
    ∃ pl : Place, pl.Admits cl ∧ ∀ pl', s.At free pool q (cl.addr c) pl' ↔ pl' = pl
  buffer : ∀ n pl, s.At free pool q n pl → ∃ cl c, s.HasBuffer cl c ∧ cl.addr c = n
  poolLen : ∀ w cl, ∀ n ∈ pool (w, cl), s.bufLen n = cl.maxLen
  outLen : ∀ cl c, s.HasBuffer cl c → c ∉ free cl → s.bufLen (cl.addr c) = cl.maxLen
  /-- A buffer of a new block has no length yet. -/
  arenaLen : ∀ cl, ∀ c ∈ free cl, s.bufLen (cl.addr c) = 0 ∨ s.bufLen (cl.addr c) = cl.maxLen
  isFree : ∀ h, ∀ n ∈ q h, s.isFree n = false
  /-- When `incoming_parse` drops the packet, it returns the buffer. -/
  returned : ∀ cfg w pb rc, s.parsing w = some (pb, .dropped rc) →
    (s.incomingParseEnd cfg w).parsing w = none ∧
      ∃ cl, (s.incomingParseEnd cfg w).pool w cl = some pb

end PbufState

namespace PbufState.Inv

variable {s : PbufState} {a : Flow} {free out : PbufClass → List CellPtr}
  {pool : Nat × PbufClass → List Nat} {own : Nat → Owner} {cl : PbufClass} {n : Nat} {pl pl' : Place}

theorem at_owner (h : s.Inv a free out pool own) (hat : s.At free pool a.q n pl) : own n = pl.owner := by
  cases pl with
  | arena cl =>
    obtain ⟨c, hc, rfl⟩ := List.mem_map.mp hat
    exact (h.free_own hc).2
  | pool w cl => exact (h.pooled w cl n).mp hat
  | incomingParse w => exact (h.parsed w n).mp hat
  | queue x => exact h.queue_own hat

theorem at_unique (h : s.Inv a free out pool own) (hat : s.At free pool a.q n pl)
    (hat' : s.At free pool a.q n pl') : pl = pl' := by
  have howner : pl.owner = pl'.owner := (h.at_owner hat).symm.trans (h.at_owner hat')
  cases pl with
  | arena cl =>
    cases pl' <;> simp only [Place.owner, reduceCtorEq] at howner
    obtain ⟨c, hc, rfl⟩ := List.mem_map.mp hat
    obtain ⟨c', hc', heq⟩ := List.mem_map.mp hat'
    rw [PbufClass.addr_class (h.free_own hc').1 (h.free_own hc).1 heq]
  | pool w cl =>
    cases pl' <;> cases howner
    rfl
  | incomingParse w =>
    cases pl' <;> cases howner
    rfl
  | queue x =>
    cases pl' <;> simp only [Place.owner, reduceCtorEq] at howner
    rw [h.rep.queue.queues.queues.unique hat hat']

theorem hasBuffer (h : s.Inv a free out pool own) {c : CellPtr} (hc : c ∈ free cl ∨ c ∈ out cl) :
    s.HasBuffer cl c :=
  ((h.arenas cl).cells c).mp hc

/-- A buffer has a place when no buffer is on its way. -/
theorem exists_at (h : s.Inv a free out pool own) (hrest : AtRest own) {c : CellPtr}
    (hc : s.HasBuffer cl c) : ∃ pl : Place, pl.Admits cl ∧ s.At free pool a.q (cl.addr c) pl := by
  have hmem : c ∈ free cl ∨ c ∈ out cl := ((h.arenas cl).cells c).mpr hc
  have hblock : c.block < cellblocksMax := Nat.lt_of_lt_of_le hc.1 (h.arenas cl).blocks
  cases howner : own (cl.addr c) with
  | arena =>
    have hfree : c ∈ free cl := hmem.resolve_right fun hout => ((h.handed cl c).mp hout).2 howner
    exact ⟨.arena cl, rfl, List.mem_map_of_mem hfree⟩
  | pool w cl' =>
    have hout : c ∈ out cl := (h.handed cl c).mpr ⟨hblock, by simp [howner]⟩
    have hlen := h.len cl c hout (by simp [howner])
    have hclass := congrArg PbufClass.ofBufLen (hlen.symm.trans (h.poolLen w cl' _ howner))
    rw [PbufClass.ofBufLen_maxLen, PbufClass.ofBufLen_maxLen, Option.some.injEq] at hclass
    exact ⟨.pool w cl', hclass.symm, (h.pooled w cl' _).mpr howner⟩
  | parser w => exact ⟨.incomingParse w, trivial, (h.parsed w _).mpr howner⟩
  | queues =>
    have hqueued : ¬s.pipeline.isFree (cl.addr c) = true := by simp [(h.queued _).mpr howner]
    rw [h.rep.queue.free, not_not] at hqueued
    obtain ⟨x, hx⟩ := hqueued
    exact ⟨.queue x, trivial, hx⟩
  | taken => exact absurd howner (hrest _).1
  | freed => exact absurd howner (hrest _).2

theorem exists_buffer (h : s.Inv a free out pool own) (hat : s.At free pool a.q n pl) :
    ∃ cl c, s.HasBuffer cl c ∧ PbufClass.addr cl c = n := by
  have howner := h.at_owner hat
  by_cases harena : own n = .arena
  · cases pl with
    | arena cl =>
      obtain ⟨c, hc, rfl⟩ := List.mem_map.mp hat
      exact ⟨cl, c, h.hasBuffer (.inl hc), rfl⟩
    | _ => cases harena.symm.trans howner
  · obtain ⟨cl, c, hblock, rfl⟩ := h.cell n harena
    exact ⟨cl, c, h.hasBuffer (.inr ((h.handed cl c).mpr ⟨hblock, harena⟩)), rfl⟩

/-- The error exits of `incoming_parse`. -/
theorem returned (h : s.Inv a free out pool own) (cfg : PipelineConfig) {w p : Nat} {rc : Int}
    (hw : s.parsing w = some (p, .dropped rc)) :
    (s.incomingParseEnd cfg w).parsing w = none ∧ ∃ cl, (s.incomingParseEnd cfg w).pool w cl = some p := by
  have heq : s.incomingParseEnd cfg w =
      { s with parsing := Function.update s.parsing w none }.pbufFree (some w) p := by
    simp only [incomingParseEnd, hw]
  rw [heq]
  have hfree := h.used p (.inr ⟨w, (h.parsing_own hw).1⟩)
  obtain ⟨cl, pool', hpool, hfreed⟩ := (h.endParse hw).pbufFree_pool (w := w) (Function.update_self ..) hfree
  refine ⟨Option.eq_none_iff_forall_ne_some.mpr fun r hr => ?_, cl, hpool⟩
  have hparser := (hfreed.parsed w r.1).mp ⟨r.2, hr⟩
  by_cases hrp : r.1 = p
  · simp [hrp] at hparser
  · simp only [ne_eq, hrp, not_false_eq_true, Function.update_of_ne] at hparser
    obtain ⟨r', hr'⟩ := (h.parsed w r.1).mpr hparser
    exact hrp (by simpa using congrArg (Option.map Prod.fst) (hr'.symm.trans hw))

end PbufState.Inv

theorem PbufInv.conserved {s : PbufState} (h : PbufInv s) : ∃ free pool q, s.Conserved free pool q := by
  obtain ⟨a, free, out, pool, own, hinv, hrest⟩ := h
  refine ⟨free, pool, a.q, {
    arenas := fun cl => (hinv.arenas cl).list.lists
    pools := hinv.pools
    queues := hinv.rep.holds
    place := fun cl c hc => ?_
    buffer := fun n pl hat => hinv.exists_buffer hat
    poolLen := fun w cl n hn => hinv.poolLen w cl n ((hinv.pooled w cl n).mp hn)
    outLen := fun cl c hc hfree => ?_
    arenaLen := fun cl c hc => hinv.fresh cl c (hinv.free_own hc).1
    isFree := fun x n hn => hinv.used n (.inl (hinv.queue_own hn))
    returned := fun cfg w pb rc hw => hinv.returned cfg hw }⟩
  · obtain ⟨pl, hadmits, hat⟩ := hinv.exists_at hrest hc
    refine ⟨pl, hadmits, fun pl' => ⟨fun hat' => hinv.at_unique hat' hat, ?_⟩⟩
    rintro rfl
    exact hat
  · have hout := (((hinv.arenas cl).cells c).mpr hc).resolve_left hfree
    exact hinv.len cl c hout (hrest _).1

/-- The allocator did not crash, and no packet buffer is lost or in two places. -/
def PbufsConserved (s : Option PbufState) : Prop :=
  ∃ st, s = some st ∧ ∃ free pool q, st.Conserved free pool q

/-! ## Lengths -/

namespace PbufState

variable {s s' : PbufState} {n : Nat}

/-- A length that was set stays set. -/
def HasLen (s : PbufState) (n : Nat) : Prop := s.bufLen n ≠ 0

theorem hasLen_label {cl : PbufClass} {pb : Nat} (h : s.HasLen n) : (s.label cl pb).HasLen n := by
  by_cases hn : n = pb
  · subst hn
    simpa [HasLen, label] using cl.maxLen_ne_zero
  · simpa [HasLen, label, hn] using h

theorem hasLen_fillPool {w : Nat} {cl : PbufClass} {pbs : List Nat} (h : s.HasLen n) :
    (fillPool w cl pbs s).HasLen n := by
  induction pbs generalizing s with
  | nil => exact h
  | cons pb pbs ih => exact ih (hasLen_label (s := s.setNext pb (s.pool w cl)) h)

theorem hasLen_pbufGet {mmap : PbufClass → Nat → Bool} {self : Nat} {len : Int}
    {r : Option Nat × PbufState} (heq : s.pbufGet mmap self len = some r) (h : s.HasLen n) :
    r.2.HasLen n := by
  unfold pbufGet at heq
  split at heq
  · cases heq
    exact h
  · next cl _ =>
    split at heq
    · next pb _ =>
      cases heq
      exact hasLen_label (s := (s.setPool self cl (s.next pb)).setNext pb none) h
    · obtain ⟨r', -, rfl⟩ := Option.map_eq_some_iff.mp heq
      split
      · exact h
      · next pb pbs _ =>
        have hfill : (fillPool self cl pbs (s.setCells cl r'.2)).HasLen n :=
          hasLen_fillPool (s := s.setCells cl r'.2) h
        exact hasLen_label (s := (fillPool self cl pbs (s.setCells cl r'.2)).setNext pb none) hfill

@[simp] theorem bufLen_pbufFree (s : PbufState) (self : Option Nat) (p : Nat) :
    (s.pbufFree self p).bufLen = s.bufLen := by
  unfold pbufFree
  split
  · rfl
  · cases self <;> rfl

@[simp] theorem bufLen_pbufFreeMany (s : PbufState) (array : List Nat) :
    (s.pbufFreeMany array).bufLen = s.bufLen := by
  simp only [pbufFreeMany, bufLen_cellfreemany]

@[simp] theorem bufLen_purged (s : PbufState) (evs : List PipelineEvent) :
    (s.purged evs).bufLen = s.bufLen := by
  have hcalls : ∀ (calls : List (List Nat)) (s : PbufState),
      (calls.foldl pbufFreeMany s).bufLen = s.bufLen := by
    intro calls
    induction calls with
    | nil => exact fun _ => rfl
    | cons array calls ih => exact fun s => (ih _).trans (bufLen_pbufFreeMany s array)
  exact hcalls _ s

theorem bufLen_incomingParseEnd (cfg : PipelineConfig) (s : PbufState) (w : Nat) :
    (s.incomingParseEnd cfg w).bufLen = s.bufLen := by
  unfold incomingParseEnd
  split
  · rfl
  · exact bufLen_pbufFree ..
  · split <;> rfl

theorem hasLen_step {env : PbufEnv} {act : PbufAction} (heq : s.step env act = some s') (h : s.HasLen n) :
    s'.HasLen n := by
  cases act with
  | incomingParse w penv c line =>
    rw [step] at heq
    split at heq
    · split at heq
      · cases heq
        exact h
      · obtain ⟨r, hr, rfl⟩ := Option.map_eq_some_iff.mp heq
        have hget := hasLen_pbufGet hr h
        split <;> exact hget
    · cases heq
      exact h
  | incomingParseEnd w =>
    cases heq
    unfold HasLen
    rwa [bufLen_incomingParseEnd]
  | pipeline act =>
    by_cases hact : ∀ w n t, act ≠ .queue w n t
    · rw [step_pipeline hact] at heq
      split at heq
      · cases heq
        exact h
      · cases heq
        simpa [HasLen] using h
    · push Not at hact
      obtain ⟨w, n, t, rfl⟩ := hact
      cases heq
      exact h
  | workerFreeBuffers w cl =>
    rw [step] at heq
    split at heq
    · cases heq
      exact h
    · cases heq
      simpa [HasLen, setPool] using h

end PbufState

theorem hasLen_run {env : PbufEnv} {acts : List PbufAction} {s s' : PbufState} {n : Nat}
    (heq : run (pbufStep env) (some s) acts = some s') (h : s.HasLen n) : s'.HasLen n := by
  induction acts generalizing s with
  | nil =>
    cases heq
    exact h
  | cons act acts ih =>
    rw [run_cons] at heq
    cases hstep : s.step env act with
    | none =>
      have hcrashed : ∀ acts, run (pbufStep env) none acts = none := by
        intro acts
        induction acts with
        | nil => rfl
        | cons act acts ih => exact ih
      simp [pbufStep, hstep, hcrashed] at heq
    | some s₁ =>
      rw [show pbufStep env (some s) act = some s₁ from hstep] at heq
      exact ih heq (PbufState.hasLen_step hstep h)

/-! ## Runs -/

/-- Packet buffer conservation. In every run, every packet buffer is at every moment in one
place. A buffer of a pool has the length of its class, and so has one of an arena, if it
ever left the arena. No buffer in a queue is marked free. When `incoming_parse` drops a
packet, the buffer goes back to a pool of the worker. -/
theorem pbufs_conserved (env : PbufEnv) (sizeofPbuf alignofPbuf : Nat) (acts : List PbufAction) :
    Always (pbufStep env) PbufsConserved (some (pbufInit sizeofPbuf alignofPbuf)) acts ∧
      ∀ acts₁ acts₂ s s', acts = acts₁ ++ acts₂ →
        run (pbufStep env) (some (pbufInit sizeofPbuf alignofPbuf)) acts₁ = some s →
        run (pbufStep env) (some (pbufInit sizeofPbuf alignofPbuf)) acts = some s' →
        ∀ n, s.HasLen n → s'.HasLen n := by
  let I : Option PbufState → Prop := fun s => ∃ st, s = some st ∧ PbufInv st
  have hinit : I (some (pbufInit sizeofPbuf alignofPbuf)) := ⟨_, rfl, .init sizeofPbuf alignofPbuf⟩
  have hstep : ∀ s act, I s → I (pbufStep env s act) := by
    rintro _ act ⟨st, rfl, hinv⟩
    exact hinv.step env act
  refine ⟨(always_of_step hstep hinit acts).imp ?_, ?_⟩
  · rintro _ ⟨st, rfl, hinv⟩
    exact ⟨st, rfl, hinv.conserved⟩
  · rintro acts₁ acts₂ s s' rfl hs hs' n hn
    rw [run_append, hs] at hs'
    exact hasLen_run hs' hn

/-! ## Buffers of a new block -/

namespace PbufState

variable {s : PbufState}

theorem arena_fillPool (w : Nat) (cl : PbufClass) (pbs : List Nat) (s : PbufState) :
    (fillPool w cl pbs s).arena = s.arena := by
  induction pbs generalizing s with
  | nil => rfl
  | cons pb pbs ih => exact ih _

theorem bufLen_fillPool {w : Nat} {cl : PbufClass} {pbs : List Nat} {n : Nat} (hn : n ∉ pbs)
    (s : PbufState) : (fillPool w cl pbs s).bufLen n = s.bufLen n := by
  induction pbs generalizing s with
  | nil => rfl
  | cons pb pbs ih =>
    rw [List.mem_cons, not_or] at hn
    rw [fillPool, ih hn.2]
    exact Function.update_of_ne hn.1 ..

/-- `pbuf_get` sets the length of the buffers that it takes from the arena, and of no
other. -/
theorem pbufGet_bunch {mmap : PbufClass → Nat → Bool} {w : Nat} {len : Int} {cl : PbufClass}
    {r : Option Nat × PbufState} (hcl : PbufClass.forPacket len = some cl) (hpool : s.pool w cl = none)
    (heq : s.pbufGet mmap w len = some r) :
    ∃ bunch, (s.cells cl).cellmallocmany (mmap cl) cl.allocateBunch = some bunch ∧
      r.2.arena cl = bunch.2 ∧ ∀ n, n ∉ bunch.1.map cl.addr → r.2.bufLen n = s.bufLen n := by
  unfold pbufGet at heq
  simp only [hcl, hpool] at heq
  obtain ⟨bunch, hbunch, rfl⟩ := Option.map_eq_some_iff.mp heq
  refine ⟨bunch, hbunch, ?_⟩
  cases bunch.1.map cl.addr with
  | nil => exact ⟨Function.update_self .., fun _ _ => rfl⟩
  | cons pb pbs =>
    constructor
    · calc (fillPool w cl pbs (s.setCells cl bunch.2)).arena cl
          = (s.setCells cl bunch.2).arena cl := by rw [arena_fillPool]
        _ = bunch.2 := Function.update_self ..
    · intro n hn
      rw [List.mem_cons, not_or] at hn
      calc ((fillPool w cl pbs (s.setCells cl bunch.2)).clear cl pb).bufLen n
          = (fillPool w cl pbs (s.setCells cl bunch.2)).bufLen n := Function.update_of_ne hn.1 ..
        _ = (s.setCells cl bunch.2).bufLen n := bufLen_fillPool hn.2 _

end PbufState

private def bufferEnv : PbufEnv where
  cfg := .initial
  mmap := fun _ _ => true

/-- Among more cells than a list has, one is not in it. -/
theorem exists_cell_not_mem (block : Nat) (cells : List CellPtr) {k : Nat}
    (hk : cells.length < k) : ∃ cell < k, (⟨block, cell⟩ : CellPtr) ∉ cells := by
  by_contra hall
  push Not at hall
  have hsub : (List.range k).map (CellPtr.mk block) ⊆ cells := by
    intro c hc
    obtain ⟨cell, hcell, rfl⟩ := List.mem_map.mp hc
    exact hall cell (List.mem_range.mp hcell)
  have hnodup : ((List.range k).map (CellPtr.mk block)).Nodup :=
    List.nodup_range.map fun i j hij => (CellPtr.mk.inj hij).2
  have hle := (hnodup.subperm hsub).length_le
  rw [List.length_map, List.length_range] at hle
  omega

/-- The first packet takes a bunch of buffers from a block that has more. The others have
no length yet. -/
theorem new_buffers_have_no_length :
    ∃ s, run (pbufStep bufferEnv) (some (pbufInit 144 8)) [.pipeline (.workerAlloc true),
        .incomingParse 0 .unrestricted .verifiedInbound (ascii "OH7AB>APRS,WIDE2-1:>test")] = some s ∧
      ∃ free pool q, s.Conserved free pool q ∧
        ∃ c ∈ free .small, s.bufLen (PbufClass.small.addr c) ≠ PbufClass.small.maxLen := by
  obtain ⟨s, hs, hinv⟩ := (PbufInv.init 144 8).step bufferEnv (.pipeline (.workerAlloc true))
  obtain ⟨s', hs', hinv'⟩ := hinv.step bufferEnv
    (.incomingParse 0 .unrestricted .verifiedInbound (ascii "OH7AB>APRS,WIDE2-1:>test"))
  have hrun : run (pbufStep bufferEnv) (some (pbufInit 144 8)) [.pipeline (.workerAlloc true),
      .incomingParse 0 .unrestricted .verifiedInbound (ascii "OH7AB>APRS,WIDE2-1:>test")] = some s' := by
    simp only [run_cons, run_nil, pbufStep, Option.bind_some, hs, hs']
  cases hs
  obtain ⟨free, pool, q, hconserved⟩ := hinv'.conserved
  refine ⟨s', hrun, free, pool, q, hconserved, ?_⟩
  -- The arena has no block when `pbuf_get` is called.
  have hrequest :
      pbufRequest .unrestricted .verifiedInbound (ascii "OH7AB>APRS,WIDE2-1:>test") = some 37 := rfl
  have hclass : PbufClass.forPacket 37 = some .small := rfl
  rw [PbufState.step, if_pos ⟨Nat.one_pos, rfl⟩, hrequest] at hs'
  obtain ⟨r, hr, heq⟩ := Option.map_eq_some_iff.mp hs'
  obtain ⟨bunch, hbunch, harena, hlen⟩ := PbufState.pbufGet_bunch hclass rfl hr
  have harena' : s'.arena .small = bunch.2 := by
    rw [← heq, ← harena]
    split <;> rfl
  have hlen' : s'.bufLen = r.2.bufLen := by
    rw [← heq]
    split <;> rfl
  obtain ⟨a, free₀, out₀, pool₀, own₀, hinv, -⟩ := hinv
  have hcells := hinv.arenas .small
  have hblock : 0 < bunch.2.cellblocksCount :=
    hcells.cellmallocmany_lt (by decide) rfl rfl hbunch
  have hper : bunch.2.cellsPerBlock = 8456 :=
    (hcells.cellmallocmany_frame hbunch).cellsPerBlock.trans rfl
  -- A bunch does not empty the block.
  obtain ⟨cell, hcell, hnot⟩ := exists_cell_not_mem 0 bunch.1
    (Nat.lt_succ_of_le (Cells.Inv.length_cellmallocmany hbunch))
  have hbuffer : s'.HasBuffer .small ⟨0, cell⟩ := by
    rw [PbufState.HasBuffer, harena', hper]
    exact ⟨hblock, hcell.trans (by decide)⟩
  have hzero : s'.bufLen (PbufClass.small.addr ⟨0, cell⟩) = 0 := by
    rw [hlen']
    refine hlen _ fun hmem => hnot ?_
    obtain ⟨c, hc, hc'⟩ := List.mem_map.mp hmem
    exact PbufClass.small.addr.injective hc' ▸ hc
  have hne : s'.bufLen (PbufClass.small.addr ⟨0, cell⟩) ≠ PbufClass.small.maxLen := by
    rw [hzero]
    exact (PbufClass.maxLen_ne_zero _).symm
  exact ⟨⟨0, cell⟩, by_contra fun hfree => hne (hconserved.outLen .small _ hbuffer hfree), hne⟩

end Aprsc
