-- SUMMARY: Which `next` fields the calls of the cell allocator and the steps of the pipeline leave alone.
import Aprsc.Cellmalloc
import Aprsc.Pipeline.Purge

/-!
# What calls and steps leave alone

The link of a free cell and the link of a queued packet are the same word of memory. The
allocator writes only to the words of the cells in its list, and the pipeline only to
those of the packets in its queues. Either part stays intact when the words of other
cells are written.
-/

namespace Aprsc

open PtrQueue

/-! ## The cell allocator -/

/-- The parameters of the arena stay, and so do its blocks and the words of some cells. -/
structure CellarenaT.Frame (kept : CellPtr → Prop) (ca ca' : CellarenaT) : Prop where
  blocks : ca.cellblocksCount ≤ ca'.cellblocksCount
  increment : ca'.increment = ca.increment
  createsize : ca'.createsize = ca.createsize
  lifoPolicy : ca'.lifoPolicy = ca.lifoPolicy
  next : ∀ c, kept c → ca'.next c = ca.next c

namespace CellarenaT.Frame

variable {kept kept' : CellPtr → Prop} {ca ca' ca'' : CellarenaT}

theorem refl (kept : CellPtr → Prop) (ca : CellarenaT) : Frame kept ca ca :=
  ⟨Nat.le_refl _, rfl, rfl, rfl, fun _ _ => rfl⟩

theorem trans (h : Frame kept ca ca') (h' : Frame kept ca' ca'') : Frame kept ca ca'' where
  blocks := Nat.le_trans h.blocks h'.blocks
  increment := h'.increment.trans h.increment
  createsize := h'.createsize.trans h.createsize
  lifoPolicy := h'.lifoPolicy.trans h.lifoPolicy
  next c hc := (h'.next c hc).trans (h.next c hc)

theorem mono (h : Frame kept ca ca') (hkept : ∀ c, kept' c → kept c) : Frame kept' ca ca' where
  blocks := h.blocks
  increment := h.increment
  createsize := h.createsize
  lifoPolicy := h.lifoPolicy
  next c hc := h.next c (hkept c hc)

theorem cellsPerBlock (h : Frame kept ca ca') : ca'.cellsPerBlock = ca.cellsPerBlock := by
  rw [CellarenaT.cellsPerBlock, CellarenaT.cellsPerBlock, h.createsize, h.increment]

end CellarenaT.Frame

open CellarenaT (Frame)

namespace FreeList

variable {ca ca' : CellarenaT} {free : List CellPtr} {ch : CellPtr}

theorem frame_appended (free : List CellPtr) (ch : CellPtr) :
    Frame (fun c => c ∉ free ∧ c ≠ ch) ca (appended ca free ch) where
  blocks := Nat.le_refl _
  increment := rfl
  createsize := rfl
  lifoPolicy := rfl
  next c hc := by
    have hend : Loc.next c ≠ endLoc (.head ArenaField.freeHead) free :=
      (endLoc_ne_next_of_not_mem hc.1).symm
    have hne : (Loc.next c : Loc ArenaField CellPtr) ≠ .next ch := by simpa using hc.2
    simp only [CellarenaT.next, appended, Function.update_of_ne hne, Function.update_of_ne hend]

theorem linkCells_frame {chs : List CellPtr} (h : FreeList ca free) (hnodup : chs.Nodup)
    (hfresh : ∀ ch ∈ chs, ch ∉ free) (heq : CellarenaT.linkCells chs ca = some ca') :
    Frame (fun c => c ∉ free ∧ c ∉ chs) ca ca' := by
  induction chs generalizing ca free with
  | nil =>
    cases heq
    exact .refl _ _
  | cons ch chs ih =>
    rw [CellarenaT.linkCells, h.linkCell_eq, Option.bind_some] at heq
    rw [List.nodup_cons] at hnodup
    have hrest := ih (h.append (hfresh ch List.mem_cons_self)) hnodup.2 (by
      intro c hc hmem
      rcases List.mem_append.mp hmem with hmem | hmem
      · exact hfresh c (List.mem_cons_of_mem ch hc) hmem
      · rw [List.mem_singleton] at hmem
        exact hnodup.1 (hmem ▸ hc)) heq
    refine ((frame_appended free ch).mono ?_).trans (hrest.mono ?_)
    · rintro c ⟨hfree, hchs⟩
      exact ⟨hfree, fun hc => hchs (hc ▸ List.mem_cons_self)⟩
    · rintro c ⟨hfree, hchs⟩
      rw [List.mem_cons, not_or] at hchs
      exact ⟨by simp [hfree, hchs.1], hchs.2⟩

end FreeList

/-- The cells whose words the allocator does not write: those that are handed out, and
those that no block has. -/
def WordKept (handed : List CellPtr) (c : CellPtr) : Prop := c ∈ handed ∨ cellblocksMax ≤ c.block

namespace Cells.Inv

variable {ca ca' : CellarenaT} {handed free : List CellPtr} {ch c : CellPtr} {mmap : Nat → Bool}

/-- The clients may write to what they were handed out, and others to their own memory. -/
theorem congr {mem : PtrMem ArenaField CellPtr} (h : Inv ⟨ca, handed⟩ free)
    (hhead : mem (.head .freeHead) = ca.mem (.head .freeHead))
    (hnext : ∀ ch ∈ free, mem (.next ch) = ca.mem (.next ch)) :
    Inv ⟨{ ca with mem := mem }, handed⟩ free where
  list := ⟨h.list.lists.congr (fun _ => hhead) (fun _ => hnext), h.list.tail, h.list.count⟩
  blocks := h.blocks
  cells := h.cells
  disjoint := h.disjoint
  handed := h.handed

theorem not_mem_of_kept (h : Inv ⟨ca, handed⟩ free) (hc : WordKept handed c) : c ∉ free := by
  intro hfree
  rcases hc with hc | hc
  · exact h.disjoint c hfree hc
  · have hblock := ((h.cells c).mp (.inl hfree)).1
    have hblocks := h.blocks
    dsimp only at hblock hblocks
    omega

theorem newCellblock_frame {ok : Bool} (h : Inv ⟨ca, handed⟩ free)
    (heq : CellarenaT.newCellblock mmap ca = some (ok, ca')) : Frame (WordKept handed) ca ca' := by
  unfold CellarenaT.newCellblock at heq
  split at heq
  · cases heq
    exact .refl _ _
  · next hmax =>
    dsimp only at heq
    split at heq
    · cases heq
      exact ⟨Nat.le_refl _, rfl, rfl, rfl, fun _ _ => rfl⟩
    · obtain ⟨linked, hlink, hpair⟩ := Option.map_eq_some_iff.mp heq
      cases hpair
      have hlist :
          FreeList { ca with mmaps := ca.mmaps + 1, cellblocksCount := ca.cellblocksCount + 1 } free :=
        ⟨h.list.lists, h.list.tail, h.list.count⟩
      have hframe := hlist.linkCells_frame ca.blockCells_nodup
        (fun c hc => (h.blockCells_fresh c hc).1) hlink
      have hkept : ∀ c, WordKept handed c →
          c ∉ free ∧ c ∉ (List.range ca.cellsPerBlock).map (CellPtr.mk ca.cellblocksCount) := by
        intro c hc
        refine ⟨h.not_mem_of_kept hc, fun hnew => ?_⟩
        rcases hc with hc | hc
        · exact (h.blockCells_fresh c hnew).2 hc
        · have := ((ca.mem_blockCells c).mp hnew).1
          omega
      exact ⟨Nat.le_trans (Nat.le_succ _) hframe.blocks, hframe.increment, hframe.createsize,
        hframe.lifoPolicy, (hframe.mono hkept).next⟩

theorem newCellblock_lt {ok : Bool} (h : Inv ⟨ca, handed⟩ free)
    (hroom : ca.cellblocksCount < cellblocksMax) (hmmap : mmap ca.mmaps = true)
    (heq : CellarenaT.newCellblock mmap ca = some (ok, ca')) :
    ok = true ∧ ca.cellblocksCount < ca'.cellblocksCount := by
  obtain ⟨ok', ca₁, free₁, hblock, -, hcount⟩ := h.newCellblock mmap
  rw [heq] at hblock
  cases hblock
  have hok : ok = true := by
    rw [CellarenaT.newCellblock, if_neg (Nat.not_le.mpr hroom)] at heq
    dsimp only at heq
    rw [if_neg (by simp [hmmap])] at heq
    obtain ⟨linked, -, hpair⟩ := Option.map_eq_some_iff.mp heq
    cases hpair
    rfl
  exact ⟨hok, by rw [hcount hok]; omega⟩

theorem refill_frame {rounds : Nat} {ok : Bool} (h : Inv ⟨ca, handed⟩ free)
    (heq : CellarenaT.refill mmap rounds ca = some (ok, ca')) : Frame (WordKept handed) ca ca' := by
  induction rounds generalizing ca free with
  | zero => cases heq
  | succ rounds ih =>
    rw [CellarenaT.refill] at heq
    split at heq
    · obtain ⟨ok', ca₁, free₁, hblock, hinv, -⟩ := h.newCellblock mmap
      have hframe := h.newCellblock_frame hblock
      rw [hblock, Option.bind_some] at heq
      cases ok' with
      | false =>
        cases heq
        exact hframe
      | true => exact hframe.trans (ih hinv heq)
    · cases heq
      exact .refl _ _

theorem takeCell_frame (h : Inv ⟨ca, handed⟩ free) (hch : ch ∈ free) :
    Frame (WordKept handed) ca (ca.takeCell ch) where
  blocks := Nat.le_refl _
  increment := rfl
  createsize := rfl
  lifoPolicy := rfl
  next c hc := by
    have hne : c ≠ ch := fun heq => h.not_mem_of_kept hc (heq ▸ hch)
    simp [CellarenaT.takeCell, CellarenaT.next, CellarenaT.setNext, CellarenaT.setFreeHead, hne]

theorem cellmallocmany_frame {numcells : Nat} {r : List CellPtr × CellarenaT}
    (h : Inv ⟨ca, handed⟩ free) (heq : ca.cellmallocmany mmap numcells = some r) :
    Frame (WordKept handed) ca r.2 := by
  induction numcells generalizing ca handed free r with
  | zero =>
    cases heq
    exact .refl _ _
  | succ numcells ih =>
    obtain ⟨ok, ca₁, free₁, hrefill, hinv, -⟩ := h.refill (cellblocksMax + 1) (by omega) mmap
    have hframe := h.refill_frame hrefill
    rw [CellarenaT.cellmallocmany, hrefill, Option.bind_some] at heq
    dsimp only at heq
    split at heq
    · cases heq
      exact hframe
    · next ch hch =>
      obtain ⟨rest, hrest, rfl⟩ := Option.map_eq_some_iff.mp heq
      obtain ⟨free₂, rfl⟩ := hinv.eq_cons hch
      have hhead : ch ∈ ch :: free₂ := List.mem_cons_self
      have htake := hinv.takeCell_frame hhead
      have hmany := ih hinv.takeCell hrest
      refine (hframe.trans htake).trans (hmany.mono fun c hc => ?_)
      exact hc.imp_left (List.mem_cons_of_mem ch)

theorem length_cellmallocmany {numcells : Nat} {r : List CellPtr × CellarenaT}
    (heq : ca.cellmallocmany mmap numcells = some r) : r.1.length ≤ numcells := by
  induction numcells generalizing ca r with
  | zero =>
    cases heq
    exact Nat.le_refl _
  | succ numcells ih =>
    obtain ⟨r₁, -, heq⟩ := Option.bind_eq_some_iff.mp heq
    split at heq
    · cases heq
      exact Nat.zero_le _
    · obtain ⟨rest, hrest, rfl⟩ := Option.map_eq_some_iff.mp heq
      exact Nat.succ_le_succ (ih hrest)

/-- An arena without cells maps a block for the first cell. -/
theorem cellmallocmany_lt {numcells : Nat} {r : List CellPtr × CellarenaT} (h : Inv ⟨ca, handed⟩ free)
    (hroom : ca.cellblocksCount < cellblocksMax) (hempty : ca.freeHead = none)
    (hmmap : mmap ca.mmaps = true) (heq : ca.cellmallocmany mmap (numcells + 1) = some r) :
    ca.cellblocksCount < r.2.cellblocksCount := by
  obtain ⟨⟨ok, ca₁⟩, hrefill, htake⟩ := Option.bind_eq_some_iff.mp heq
  have hmore : ca.cellblocksCount < ca₁.cellblocksCount := by
    rw [CellarenaT.refill, if_pos (.inl hempty)] at hrefill
    obtain ⟨⟨ok', ca₂⟩, hblock, hrest⟩ := Option.bind_eq_some_iff.mp hrefill
    obtain ⟨rfl, hlt⟩ := h.newCellblock_lt hroom hmmap hblock
    obtain ⟨_, _, free₂, heq₂, hinv, -⟩ := h.newCellblock mmap
    rw [hblock] at heq₂
    cases heq₂
    exact Nat.lt_of_lt_of_le hlt (hinv.refill_frame hrest).blocks
  obtain ⟨_, _, free₁, heq₁, hinv, -⟩ := h.refill (cellblocksMax + 1) (by omega) mmap
  rw [hrefill] at heq₁
  cases heq₁
  dsimp only at htake
  split at htake
  · cases htake
    exact hmore
  · next ch hch =>
    obtain ⟨rest, hrest, rfl⟩ := Option.map_eq_some_iff.mp htake
    obtain ⟨free₂, rfl⟩ := hinv.eq_cons hch
    exact Nat.lt_of_lt_of_le hmore (hinv.takeCell.cellmallocmany_frame hrest).blocks

theorem putCell_frame (h : Inv ⟨ca, handed⟩ free) (hch : ch ∈ handed)
    (hfifo : ca.lifoPolicy = false) :
    Frame (fun c => WordKept handed c ∧ c ≠ ch) ca (ca.putCell ch) := by
  rw [h.list.putCell_fifo (fun hfree => h.disjoint ch hfree hch) hfifo]
  exact (FreeList.frame_appended free ch).mono fun c hc => ⟨h.not_mem_of_kept hc.1, hc.2⟩

/-- `cellfreemany` under the FIFO policy. -/
theorem cellfreemany_fifo {array : List CellPtr} (h : Inv ⟨ca, handed⟩ free)
    (hfrees : Cells.Frees ⟨ca, handed⟩ array) (hfifo : ca.lifoPolicy = false) :
    (∃ free', Inv ⟨ca.cellfreemany array, handed.diff array⟩ free') ∧
      Frame (fun c => WordKept handed c ∧ c ∉ array) ca (ca.cellfreemany array) := by
  refine ⟨h.putCells hfrees fun hlifo => absurd hlifo (by simp [hfifo]), ?_⟩
  induction array generalizing ca handed free with
  | nil => exact .refl _ _
  | cons ch array ih =>
    obtain ⟨hnodup, hmem⟩ := hfrees
    rw [List.nodup_cons] at hnodup
    have hch := hmem ch List.mem_cons_self
    have hput := h.putCell_frame hch hfifo
    obtain ⟨free', hinv, -⟩ := h.putCell hch fun hlifo => absurd hlifo (by simp [hfifo])
    have hrest := ih hinv ⟨hnodup.2, fun c hc => by
      have hne : c ≠ ch := fun heq => hnodup.1 (heq ▸ hc)
      exact h.handed.mem_erase_iff.mpr ⟨hne, hmem c (List.mem_cons_of_mem ch hc)⟩⟩
      (hput.lifoPolicy.trans hfifo)
    refine (hput.mono ?_).trans (hrest.mono ?_)
    · rintro c ⟨hc, harray⟩
      exact ⟨hc, fun heq => harray (heq ▸ List.mem_cons_self)⟩
    · rintro c ⟨hc, harray⟩
      rw [List.mem_cons, not_or] at harray
      exact ⟨hc.imp_left fun hc => h.handed.mem_erase_iff.mpr ⟨harray.1, hc⟩, harray.2⟩

end Cells.Inv

/-! ## The pipeline -/

/-- The packets of a list that a purge freed, in this order. -/
def freedFrom (ln : Lane) (evs : List PipelineEvent) : List Nat :=
  evs.filterMap fun
    | .freed ln' n => if ln' = ln then some n else none
    | _ => none

theorem mem_freedFrom {ln : Lane} {evs : List PipelineEvent} {n : Nat} :
    n ∈ freedFrom ln evs ↔ .freed ln n ∈ evs := by
  induction evs with
  | nil => simp [freedFrom]
  | cons ev evs ih =>
    rw [List.mem_cons, ← ih]
    cases ev with
    | freed ln' n' =>
      by_cases hln : ln' = ln
      · subst hln
        simp [freedFrom]
      · simp [freedFrom, hln, Ne.symm hln]
    | _ => simp [freedFrom]

namespace Flow

variable {a a' : Flow} {evs : List PipelineEvent}

/-- A purge frees the first packets of a list. -/
theorem Purge.freedFrom_prefix (hpurge : Purge a evs a') (ln : Lane) :
    freedFrom ln evs <+: a.global ln := by
  induction hpurge with
  | done => exact List.nil_prefix
  | @unlink b b' ln' n ns evs' hq hmay hrest ih =>
    by_cases hln : ln' = ln
    · subst hln
      rw [unlink_global hq] at ih
      have hcons : freedFrom ln' (.freed ln' n :: evs') = n :: freedFrom ln' evs' := by
        simp [freedFrom]
      rw [hcons, hq]
      exact (List.prefix_cons_inj n).mpr ih
    · rw [unlink_global_of_ne (Ne.symm hln)] at ih
      have hskip : freedFrom ln (.freed ln' n :: evs') = freedFrom ln evs' := by
        simp [freedFrom, hln]
      rwa [hskip]

theorem Step.freedFrom_prefix (hstep : Step a evs a') (ln : Lane) :
    freedFrom ln evs <+: a.global ln := by
  cases hstep with
  | purge hphase hpurge => exact hpurge.freedFrom_prefix ln
  | _ => exact List.nil_prefix

end Flow

namespace Pipeline

variable {c c' : Pipeline} {evs : List PipelineEvent}

/-- The purge marks free what it frees, and writes to no other packet. -/
theorem purgeLoop_spec (limit expire lag : Int) (ln : Lane) (fuel : Nat) (c : Pipeline) (m : Nat) :
    ((c.purgeLoop limit expire lag ln fuel).1.isFree m = true ↔
      c.isFree m = true ∨ ∃ ln', .freed ln' m ∈ (c.purgeLoop limit expire lag ln fuel).2) ∧
    ((∀ ln', .freed ln' m ∉ (c.purgeLoop limit expire lag ln fuel).2) →
      (c.purgeLoop limit expire lag ln fuel).1.queues.mem (.next m) = c.queues.mem (.next m)) := by
  induction fuel generalizing c with
  | zero => simp [purgeLoop]
  | succ fuel ih =>
    unfold purgeLoop
    cases c.queues.mem (.head (.pbufGlobal ln)) with
    | none => simp
    | some n =>
      dsimp only
      split
      · obtain ⟨hfree, hnext⟩ := ih { c with
          queues := c.queues.unlink (.pbufGlobal ln) n
          isFree := Function.update c.isFree n true }
        constructor
        · rw [hfree]
          by_cases hmn : m = n
          · simp [hmn]
          · simp [hmn]
        · intro hnot
          have hmn : m ≠ n := by
            rintro rfl
            exact hnot ln List.mem_cons_self
          rw [hnext fun ln' hmem => hnot ln' (List.mem_cons_of_mem _ hmem)]
          simp [Store.unlink, hmn]
      · simp

theorem purge_spec (cfg : PipelineConfig) (c : Pipeline) (tick : Int) (m : Nat) :
    ((c.purge cfg tick).1.isFree m = true ↔
      c.isFree m = true ∨ ∃ ln, .freed ln m ∈ (c.purge cfg tick).2) ∧
    ((∀ ln, .freed ln m ∉ (c.purge cfg tick).2) →
      (c.purge cfg tick).1.queues.mem (.next m) = c.queues.mem (.next m)) := by
  obtain ⟨hfree, hnext⟩ := purgeLoop_spec (pbufGlobalCountLimit .main)
    (tick - cfg.pbufGlobalExpiration .main) (c.workerPbufLag .main) .main
    (c.queues.count (.pbufGlobal .main) - pbufGlobalCountLimit .main).toNat c m
  obtain ⟨hfree', hnext'⟩ := purgeLoop_spec (pbufGlobalCountLimit .dupe)
    (tick - cfg.pbufGlobalExpiration .dupe) ((c.purgeLane cfg tick .main).1.workerPbufLag .dupe) .dupe
    ((c.purgeLane cfg tick .main).1.queues.count (.pbufGlobal .dupe) -
      pbufGlobalCountLimit .dupe).toNat (c.purgeLane cfg tick .main).1 m
  constructor
  · refine hfree'.trans ?_
    rw [show (c.purgeLane cfg tick .main).1.isFree m = true ↔ _ from hfree]
    simp only [purge, List.mem_append, exists_or, or_assoc]
    rfl
  · intro hnot
    simp only [purge, List.mem_append, not_or] at hnot
    exact (hnext' fun ln => (hnot ln).2).trans (hnext fun ln => (hnot ln).1)

/-- Only queueing and the purge change the marks. -/
theorem step_isFree {cfg : PipelineConfig} {act : PipelineAction} (hact : ∀ w n t, act ≠ .queue w n t)
    (hstep : c.step cfg act = some (c', evs)) (m : Nat) :
    c'.isFree m = true ↔ c.isFree m = true ∨ ∃ ln, .freed ln m ∈ evs := by
  cases act with
  | queue w n t => exact absurd rfl (hact w n t)
  | purge tick =>
    simp only [step, Option.ite_none_right_eq_some, Option.some.injEq] at hstep
    obtain ⟨-, hstep⟩ := hstep
    have hspec := (purge_spec cfg c tick m).1
    rwa [hstep] at hspec
  | workerAlloc thread =>
    cases hstep
    simp [workerAlloc]
  | incomingFlush w locked =>
    simp only [step, Option.ite_none_right_eq_some] at hstep
    obtain ⟨-, hstep⟩ := hstep
    split at hstep <;> cases hstep <;> simp [incomingFlush, setWorker]
  | incomingFlushClean w =>
    simp only [step, Option.ite_none_right_eq_some, Option.some.injEq, Prod.mk.injEq] at hstep
    obtain ⟨-, rfl, rfl⟩ := hstep
    simp [incomingFlushClean, setWorker]
  | roundStart =>
    simp only [step, Option.ite_none_right_eq_some, Option.some.injEq, Prod.mk.injEq] at hstep
    obtain ⟨-, rfl, rfl⟩ := hstep
    simp [roundStart]
  | drain w =>
    simp only [step, Option.ite_none_right_eq_some] at hstep
    obtain ⟨-, hstep⟩ := hstep
    split at hstep <;> cases hstep <;> simp [drain]
  | check rc =>
    simp only [step] at hstep
    split at hstep <;> cases hstep
    simp [check]
  | roundEnd =>
    simp only [step, Option.ite_none_right_eq_some, Option.some.injEq, Prod.mk.injEq] at hstep
    obtain ⟨-, rfl, rfl⟩ := hstep
    simp only [roundEnd, publish]
    split <;> split <;> simp
  | processOutgoing w ln tick =>
    simp only [step, Option.ite_none_right_eq_some] at hstep
    obtain ⟨-, hstep⟩ := hstep
    split at hstep
    · cases hstep
      simp
    · split at hstep <;> cases hstep <;> simp [processOutgoing, setWorker]
  | lagScan =>
    simp only [step, Option.ite_none_right_eq_some, Option.some.injEq, Prod.mk.injEq] at hstep
    obtain ⟨-, rfl, rfl⟩ := hstep
    simp [lagScan]

end Pipeline

namespace Rep

variable {c c' : Pipeline} {a : Flow} {evs : List PipelineEvent} {m : Nat}

/-- The words of the packets that are in no queue may be written. -/
theorem congr {mem : PtrMem Head Nat} (h : Rep c a)
    (hhead : ∀ x, mem (.head x) = c.queues.mem (.head x))
    (hnext : ∀ x, ∀ n ∈ a.q x, mem (.next n) = c.queues.mem (.next n)) :
    Rep { c with queues := { c.queues with mem := mem } } a where
  queue := ⟨h.queue.nworkers, h.queue.phase, h.queue.thread, h.queue.flushing,
    h.queue.queues.congr hhead hnext, h.queue.flushed, h.queue.unborn, h.queue.outside, h.queue.free⟩
  seq := ⟨h.seq.seqnum, h.seq.pbufs⟩
  inCore := h.inCore
  cursor w hw ln := h.cursor w hw ln
  lag := h.lag

theorem publish_next {q : Head → List Nat} {T S : Head → Prop} (hr : c.queues.Rep q T S)
    {ln : Lane} (hglobal : T (.pbufGlobal ln)) (hm : ∀ x, m ∉ q x) :
    (c.publish ln).queues.mem (.next m) = c.queues.mem (.next m) := by
  unfold Pipeline.publish
  split
  · rfl
  · exact Function.update_of_ne (hr.last_ne_next hglobal hm).symm ..

/-- A step writes to no packet that is in no queue, except when it queues it. -/
theorem step_next {cfg : PipelineConfig} {act : PipelineAction} (h : Rep c a)
    (hstep : c.step cfg act = some (c', evs)) (hm : ∀ x, m ∉ a.q x)
    (hact : ∀ w t, act ≠ .queue w m t) :
    c'.queues.mem (.next m) = c.queues.mem (.next m) := by
  have hlast : ∀ {x}, a.Tracked x → (.next m : PbufLoc) ≠ c.queues.last x :=
    fun hx => (h.queue.queues.last_ne_next hx hm).symm
  cases act with
  | workerAlloc thread =>
    cases hstep
    simp [Pipeline.workerAlloc, Store.reset]
  | queue w n t =>
    have hmn : m ≠ n := by
      rintro rfl
      exact hact w t rfl
    simp only [Pipeline.step, Option.ite_none_right_eq_some, Option.some.injEq, Prod.mk.injEq] at hstep
    obtain ⟨⟨hw, hflushing, -⟩, rfl, rfl⟩ := hstep
    have hend := hlast (x := .incomingLocal w)
      (.inl ⟨h.queue.nworkers ▸ hw, h.queue.flushing w ▸ hflushing⟩)
    have hne : (.next m : PbufLoc) ≠ .next n := by simpa using hmn
    exact (Function.update_of_ne hend ..).trans (Function.update_of_ne hne ..)
  | incomingFlush w locked =>
    simp only [Pipeline.step, Option.ite_none_right_eq_some] at hstep
    obtain ⟨⟨hw, -⟩, hstep⟩ := hstep
    split at hstep
    · cases hstep
      rfl
    · cases hstep
      rw [h.queue.nworkers] at hw
      have hend := hlast (x := .incoming w) (.inl hw)
      exact Function.update_of_ne hend ..
  | incomingFlushClean w =>
    simp only [Pipeline.step, Option.ite_none_right_eq_some, Option.some.injEq, Prod.mk.injEq] at hstep
    obtain ⟨-, rfl, rfl⟩ := hstep
    simp [Pipeline.incomingFlushClean, Pipeline.setWorker, Store.reset]
  | roundStart =>
    simp only [Pipeline.step, Option.ite_none_right_eq_some, Option.some.injEq, Prod.mk.injEq] at hstep
    obtain ⟨-, rfl, rfl⟩ := hstep
    simp [Pipeline.roundStart, Store.reset]
  | drain w =>
    simp only [Pipeline.step, Option.ite_none_right_eq_some] at hstep
    obtain ⟨-, hstep⟩ := hstep
    split at hstep <;> cases hstep
    · rfl
    · simp [Pipeline.drain, Store.reset, Store.write]
  | check rc =>
    simp only [Pipeline.step] at hstep
    split at hstep
    · cases hstep
    · next n hhead =>
      cases hstep
      obtain ⟨ns, hns⟩ := h.queue.queues.queues.eq_cons (h.queue.queues.terminated _ (.inr rfl)) hhead
      have hround : a.phase = .round := by
        by_contra hne
        rw [(h.queue.outside hne).1] at hns
        cases hns
      have hend := hlast (x := .pbOut (if rc = 0 then .main else .dupe)) (.inr ⟨_, rfl, hround⟩)
      simp only [Pipeline.check, Store.write, Store.append]
      rw [Function.update_of_ne (by simp), Function.update_of_ne hend]
  | roundEnd =>
    simp only [Pipeline.step, Option.ite_none_right_eq_some, Option.some.injEq, Prod.mk.injEq] at hstep
    obtain ⟨⟨hround, -⟩, rfl, rfl⟩ := hstep
    rw [h.queue.phase] at hround
    have htracked : ∀ ln, a.Tracked (.pbOut ln) := fun ln => .inr ⟨ln, rfl, hround⟩
    have hmain := h.queue.queues.terminate (htracked .main)
    have hend := hmain.terminate (htracked .dupe)
    have hpublish := publish_queues (c := { c with
      queues := (c.queues.terminate (.pbOut .main)).terminate (.pbOut .dupe) }) hend
      (a.tracked_global .main) (htracked .main) (.inl (.inr rfl))
    have hm' : ∀ x, m ∉ moved a.q (.pbufGlobal .main) (.pbOut .main) x :=
      fun x hx => not_exists.mpr hm ((exists_mem_moved (by simp)).mp ⟨x, hx⟩)
    calc (c.roundEnd).queues.mem (.next m)
        = _ := publish_next hpublish ⟨a.tracked_global .dupe, by simp⟩ hm'
      _ = _ := publish_next hend (a.tracked_global .main) hm
      _ = _ := Function.update_of_ne (hmain.last_ne_next (htracked .dupe) hm).symm ..
      _ = _ := Function.update_of_ne (hlast (htracked .main)) ..
  | processOutgoing w ln tick =>
    simp only [Pipeline.step, Option.ite_none_right_eq_some] at hstep
    obtain ⟨-, hstep⟩ := hstep
    split at hstep
    · cases hstep
      rfl
    · split at hstep <;> cases hstep <;> rfl
  | lagScan =>
    simp only [Pipeline.step, Option.ite_none_right_eq_some, Option.some.injEq, Prod.mk.injEq] at hstep
    obtain ⟨-, rfl, rfl⟩ := hstep
    rfl
  | purge tick =>
    simp only [Pipeline.step, Option.ite_none_right_eq_some, Option.some.injEq] at hstep
    obtain ⟨hpurging, hstep⟩ := hstep
    obtain ⟨a', hpurge, -⟩ := h.purge cfg tick (h.queue.phase ▸ hpurging)
    have hspec := (Pipeline.purge_spec cfg c tick m).2
    rw [hstep] at hpurge hspec
    refine hspec fun ln hmem => ?_
    obtain ⟨j, hj, -⟩ := hpurge.freed hmem
    exact hm _ (List.mem_of_getElem? hj)

end Rep

end Aprsc
