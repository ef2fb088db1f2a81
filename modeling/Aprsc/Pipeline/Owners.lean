-- SUMMARY: Each packet buffer has one owner, and a step hands buffers over.
import Aprsc.Pipeline.Pbufs

/-!
# Owners of packet buffers

Every buffer has an owner, and a step hands buffers over from one owner to another. In
the middle of a step, a buffer may be on its way from an arena or to one. What an owner
has is linked by the words of its buffers only, so a step has to keep no other word.
-/

namespace Aprsc

open PtrQueue

open CellarenaT (Frame)

/-! ## Words and lists -/

namespace PbufState

variable {s : PbufState}

@[simp] theorem next_setNext (s : PbufState) (pb : Nat) (v : Option Nat) :
    (s.setNext pb v).next = Function.update s.next pb v := by
  funext n
  by_cases hn : n = pb
  · simp [next, setNext, hn]
  · simp [next, setNext, hn]

@[simp] theorem next_setPool (s : PbufState) (w : Nat) (cl : PbufClass) (v : Option Nat) :
    (s.setPool w cl v).next = s.next := rfl

@[simp] theorem next_label (s : PbufState) (cl : PbufClass) (pb : Nat) : (s.label cl pb).next = s.next := rfl

@[simp] theorem poolMem_head (s : PbufState) (w : Nat) (cl : PbufClass) :
    s.poolMem (.head (w, cl)) = s.pool w cl := rfl

@[simp] theorem poolMem_setNext (s : PbufState) (pb : Nat) (v : Option Nat) :
    (s.setNext pb v).poolMem = Function.update s.poolMem (.next pb) v := by
  funext l
  cases l with
  | head p => simp [poolMem, setNext]
  | next n => by_cases hn : n = pb <;> simp [poolMem, hn]

@[simp] theorem poolMem_setPool (s : PbufState) (w : Nat) (cl : PbufClass) (v : Option Nat) :
    (s.setPool w cl v).poolMem = Function.update s.poolMem (.head (w, cl)) v := by
  funext l
  cases l with
  | head p =>
    obtain ⟨w', cl'⟩ := p
    by_cases hw : w' = w
    · subst hw
      by_cases hcl : cl' = cl <;> simp [poolMem, setPool, hcl]
    · simp [poolMem, setPool, hw]
  | next n => simp [poolMem]

@[simp] theorem poolMem_label (s : PbufState) (cl : PbufClass) (pb : Nat) :
    (s.label cl pb).poolMem = s.poolMem := by
  funext l
  cases l <;> rfl

/-- A buffer that has its length already. -/
theorem label_eq {cl : PbufClass} {pb : Nat} (hlen : s.bufLen pb = cl.maxLen) (hfree : s.isFree pb = false) :
    s.label cl pb = s := by
  simp only [label, ← hlen, ← hfree, Function.update_eq_self]

theorem parsing_fillPool (w : Nat) (cl : PbufClass) (pbs : List Nat) (s : PbufState) :
    (fillPool w cl pbs s).parsing = s.parsing := by
  induction pbs generalizing s with
  | nil => rfl
  | cons pb pbs ih => exact ih _

theorem bufLen_cellfreemany (s : PbufState) (cl : PbufClass) (array : List Nat) :
    (s.cellfreemany cl array).bufLen = s.bufLen := by
  unfold cellfreemany
  split <;> rfl

/-- An arena and its words are read back as they were written. -/
theorem cells_setCells (s : PbufState) (cl : PbufClass) (ca : CellarenaT) :
    (s.setCells cl ca).cells cl = ca := by
  have hmem : ((s.setCells cl ca).cells cl).mem = ca.mem := by
    funext l
    cases l with
    | head f => simp [cells, setCells]
    | next c => simp [cells, setCells, next, CellarenaT.next]
  have harena : (s.setCells cl ca).arena cl = ca := Function.update_self ..
  rw [cells] at hmem ⊢
  simp only [harena] at hmem ⊢
  rw [hmem]

/-- The words that the allocator keeps are kept. -/
theorem next_setCells {cl : PbufClass} {ca : CellarenaT} {kept : CellPtr → Prop}
    (hframe : Frame kept (s.cells cl) ca) {n : Nat} (hn : kept (cl.addr.symm n)) :
    (s.setCells cl ca).next n = s.next n := by
  have hnext := hframe.next _ hn
  simp only [next, setCells, hnext]
  simp [CellarenaT.next, cells, next]

/-- Only its own words matter to an arena. -/
theorem cells_eq {s' : PbufState} {cl : PbufClass} (harena : s'.arena cl = s.arena cl) :
    s'.cells cl = { s.cells cl with mem := (s'.cells cl).mem } := by
  simp only [cells, harena]

end PbufState

/-! ## Owners -/

/-- Who has a packet buffer. -/
inductive Owner where
  /-- The arena of its class, if there is such a buffer. -/
  | arena
  | pool (w : Nat) (cl : PbufClass)
  | parser (w : Nat)
  | queues
  /-- On the way from an arena. Its length may not be set yet. -/
  | taken
  /-- On the way to an arena, or from a pool. -/
  | freed
deriving DecidableEq

/-- The memory holds the queues of `a`, the free lists and the pools, and each buffer is
where its owner has it. -/
structure PbufState.Inv (s : PbufState) (a : Flow) (free out : PbufClass → List CellPtr)
    (pool : Nat × PbufClass → List Nat) (own : Nat → Owner) : Prop where
  rep : Rep s.pipeline a
  pools : Lists s.poolMem pool
  arenas : ∀ cl, Cells.Inv ⟨s.cells cl, out cl⟩ (free cl)
  fifo : ∀ cl, (s.arena cl).lifoPolicy = false
  createsize : ∀ cl, (s.arena cl).createsize = pbufCellsKb * 1024
  handed : ∀ (cl : PbufClass) (c : CellPtr), c ∈ out cl ↔ c.block < cellblocksMax ∧ own (cl.addr c) ≠ .arena
  cell : ∀ n, own n ≠ .arena → ∃ (cl : PbufClass) (c : CellPtr), c.block < cellblocksMax ∧ cl.addr c = n
  pooled : ∀ w cl n, n ∈ pool (w, cl) ↔ own n = .pool w cl
  parsed : ∀ w n, (∃ r, s.parsing w = some (n, r)) ↔ own n = .parser w
  queued : ∀ n, s.pipeline.isFree n = false ↔ own n = .queues
  len : ∀ (cl : PbufClass) (c : CellPtr), c ∈ out cl → own (cl.addr c) ≠ .taken →
    s.bufLen (cl.addr c) = cl.maxLen
  poolLen : ∀ w (cl : PbufClass) n, own n = .pool w cl → s.bufLen n = cl.maxLen
  fresh : ∀ (cl : PbufClass) (c : CellPtr), c.block < cellblocksMax →
    s.bufLen (cl.addr c) = 0 ∨ s.bufLen (cl.addr c) = cl.maxLen
  used : ∀ n, (own n = .queues ∨ ∃ w, own n = .parser w) → s.isFree n = false

/-- No buffer is on its way. -/
def AtRest (own : Nat → Owner) : Prop := ∀ n, own n ≠ .taken ∧ own n ≠ .freed

theorem ne_of_onWay {own : Nat → Owner} {p : Nat} {o : Owner} (hown : own p = .taken ∨ own p = .freed)
    (htaken : o ≠ .taken) (hfreed : o ≠ .freed) : own p ≠ o := by
  rintro rfl
  exact hown.elim htaken hfreed

theorem atRest_update {own : Nat → Owner} {p : Nat} {o : Owner} (ho : o ≠ .taken ∧ o ≠ .freed)
    (hown : ∀ n, n ≠ p → own n ≠ .taken ∧ own n ≠ .freed) : AtRest (Function.update own p o) := by
  intro n
  by_cases hn : n = p
  · subst hn
    rwa [Function.update_self]
  · rw [Function.update_of_ne hn]
    exact hown n hn

namespace PbufState.Inv

variable {s s' : PbufState} {a a' : Flow} {free out : PbufClass → List CellPtr}
  {pool pool' : Nat × PbufClass → List Nat} {own own' : Nat → Owner} {cl : PbufClass} {n : Nat}

theorem free_own (h : s.Inv a free out pool own) {c : CellPtr} (hc : c ∈ free cl) :
    c.block < cellblocksMax ∧ own (cl.addr c) = .arena := by
  have hblock := (((h.arenas cl).cells c).mp (.inl hc)).1
  have hblocks := (h.arenas cl).blocks
  have hlt : c.block < cellblocksMax := Nat.lt_of_lt_of_le hblock hblocks
  refine ⟨hlt, by_contra fun hown => ?_⟩
  exact (h.arenas cl).disjoint c hc ((h.handed cl c).mpr ⟨hlt, hown⟩)

theorem queue_own (h : s.Inv a free out pool own) {x : Head} (hn : n ∈ a.q x) : own n = .queues := by
  refine (h.queued n).mp (eq_false_of_ne_true fun hfree => ?_)
  exact (h.rep.queue.free n).mp hfree ⟨x, hn⟩

theorem not_mem_queue (h : s.Inv a free out pool own) (hn : own n ≠ .queues) (x : Head) : n ∉ a.q x :=
  fun hx => hn (h.queue_own hx)

/-- The allocator keeps the words of the buffers that an arena does not have. -/
theorem kept (h : s.Inv a free out pool own) (hn : own n ≠ .arena) (cl : PbufClass) :
    WordKept (out cl) (cl.addr.symm n) := by
  obtain ⟨cl', c, hc, rfl⟩ := h.cell n hn
  by_cases hcl : cl = cl'
  · subst hcl
    rw [Equiv.symm_apply_apply]
    exact .inl ((h.handed cl c).mpr ⟨hc, hn⟩)
  · exact .inr (PbufClass.addr_symm_block hcl hc)

/-- The length of a buffer is that of its class. -/
theorem class_eq (h : s.Inv a free out pool own) (hn : own n ≠ .arena) (hlen : s.bufLen n = cl.maxLen) :
    cl.addr.symm n ∈ out cl := by
  obtain ⟨cl', c, hc, rfl⟩ := h.cell n hn
  have hfresh := h.fresh cl' c hc
  have hcl : cl' = cl := by
    rw [hlen] at hfresh
    have heq := hfresh.resolve_left cl.maxLen_ne_zero
    have hof := congrArg PbufClass.ofBufLen heq
    simpa using hof.symm
  subst hcl
  rw [Equiv.symm_apply_apply]
  exact (h.handed cl' c).mpr ⟨hc, hn⟩

/-- A buffer that has left the arena has its length. -/
theorem exists_class (h : s.Inv a free out pool own) (hn : own n ≠ .arena) (hn' : own n ≠ .taken) :
    ∃ cl, s.bufLen n = PbufClass.maxLen cl := by
  obtain ⟨cl, c, hc, rfl⟩ := h.cell n hn
  exact ⟨cl, h.len cl c ((h.handed cl c).mpr ⟨hc, hn⟩) hn'⟩

/-! ### The parts after other words were written -/

theorem rep_congr (h : s.Inv a free out pool own) {mem : PtrMem Head Nat}
    (hhead : ∀ x, mem (.head x) = s.pipeline.queues.mem (.head x))
    (hnext : ∀ n, own n = .queues → mem (.next n) = s.next n) :
    Rep { s.pipeline with queues := { s.pipeline.queues with mem := mem } } a :=
  h.rep.congr hhead fun _ _ hn => hnext _ (h.queue_own hn)

theorem pools_congr (h : s.Inv a free out pool own) (hpool : s'.pool = s.pool)
    (hnext : ∀ w cl n, own n = .pool w cl → s'.next n = s.next n) : Lists s'.poolMem pool := by
  refine h.pools.congr (fun p => ?_) (fun p n hn => ?_)
  · simp only [poolMem, hpool]
  · exact hnext p.1 p.2 n ((h.pooled p.1 p.2 n).mp hn)

theorem arenas_congr (h : s.Inv a free out pool own) (harena : s'.arena cl = s.arena cl)
    (hnext : ∀ c ∈ free cl, s'.next (cl.addr c) = s.next (cl.addr c)) :
    Cells.Inv ⟨s'.cells cl, out cl⟩ (free cl) := by
  rw [cells_eq harena]
  refine (h.arenas cl).congr ?_ fun c hc => ?_
  · simp only [cells, harena]
  · simp only [cells, hnext c hc]

/-- A step that leaves the arenas alone. -/
theorem change (h : s.Inv a free out pool own) (hrep : Rep s'.pipeline a') (hpools : Lists s'.poolMem pool')
    (harena : s'.arena = s.arena) (hnext : ∀ n, own n = .arena → s'.next n = s.next n)
    (hown : ∀ n, own' n = .arena ↔ own n = .arena)
    (hpooled : ∀ w cl n, n ∈ pool' (w, cl) ↔ own' n = .pool w cl)
    (hparsed : ∀ w n, (∃ r, s'.parsing w = some (n, r)) ↔ own' n = .parser w)
    (hqueued : ∀ n, s'.pipeline.isFree n = false ↔ own' n = .queues)
    (hlen : ∀ (cl : PbufClass) (c : CellPtr), c ∈ out cl → own' (cl.addr c) ≠ .taken →
      s'.bufLen (cl.addr c) = cl.maxLen)
    (hpoolLen : ∀ w (cl : PbufClass) n, own' n = .pool w cl → s'.bufLen n = cl.maxLen)
    (hfresh : ∀ (cl : PbufClass) (c : CellPtr), c.block < cellblocksMax →
      s'.bufLen (cl.addr c) = 0 ∨ s'.bufLen (cl.addr c) = cl.maxLen)
    (hused : ∀ n, (own' n = .queues ∨ ∃ w, own' n = .parser w) → s'.isFree n = false) :
    s'.Inv a' free out pool' own' where
  rep := hrep
  pools := hpools
  arenas cl := h.arenas_congr (congrFun harena cl) fun c hc => hnext _ (h.free_own hc).2
  fifo cl := harena ▸ h.fifo cl
  createsize cl := harena ▸ h.createsize cl
  handed cl c := by rw [h.handed, Ne, Ne, hown]
  cell n hn := h.cell n fun harena => hn ((hown n).mpr harena)
  pooled := hpooled
  parsed := hparsed
  queued := hqueued
  len := hlen
  poolLen := hpoolLen
  fresh := hfresh
  used := hused

/-! ### Calls of the allocator -/

/-- A call of the allocator hands buffers out, or takes back what was freed. -/
theorem setCells (h : s.Inv a free out pool own) {ca : CellarenaT} {free' out' : List CellPtr}
    {kept : CellPtr → Prop} (hinv : Cells.Inv ⟨ca, out'⟩ free') (hframe : Frame kept (s.cells cl) ca)
    (hhigh : ∀ c, cellblocksMax ≤ c.block → kept c)
    (hkept : ∀ n, own n ≠ .arena → own n ≠ .freed → kept (cl.addr.symm n))
    (hown : ∀ n, own' n = own n ∨ (own n = .arena ∧ own' n = .taken) ∨
      (own n = .freed ∧ own' n = .arena))
    (hout : ∀ c, c ∈ out' ↔ c.block < cellblocksMax ∧ own' (cl.addr c) ≠ .arena)
    (hother : ∀ cl' c, cl' ≠ cl → c.block < cellblocksMax →
      own' (PbufClass.addr cl' c) = own (PbufClass.addr cl' c))
    (hcell : ∀ n, own' n ≠ .arena → own n ≠ .arena ∨ ∃ c, c.block < cellblocksMax ∧ cl.addr c = n) :
    (s.setCells cl ca).Inv a (Function.update free cl free') (Function.update out cl out') pool own' := by
  -- The pools, the queues and `incoming_parse` have what they had.
  have hsame : ∀ {n o}, o ≠ .arena → o ≠ .taken → o ≠ .freed → (own' n = o ↔ own n = o) := by
    intro n o harena htaken hfreed
    rcases hown n with heq | ⟨heq, heq'⟩ | ⟨heq, heq'⟩
    · rw [heq]
    · rw [heq, heq']
      exact iff_of_false htaken.symm harena.symm
    · rw [heq, heq']
      exact iff_of_false harena.symm hfreed.symm
  have hnext : ∀ n, own n ≠ .arena → own n ≠ .freed → (s.setCells cl ca).next n = s.next n :=
    fun n hn hn' => next_setCells hframe (hkept n hn hn')
  have harena : ∀ cl', cl' ≠ cl → (s.setCells cl ca).arena cl' = s.arena cl' :=
    fun cl' hcl => Function.update_of_ne hcl ..
  refine {
    rep := h.rep_congr (fun _ => rfl) fun n hn => hnext n (by simp [hn]) (by simp [hn])
    pools := h.pools_congr rfl fun w cl' n hn => hnext n (by simp [hn]) (by simp [hn])
    arenas := ?_, fifo := ?_, createsize := ?_, handed := ?_, cell := ?_
    pooled := fun w cl' n => by rw [h.pooled, hsame] <;> simp
    parsed := fun w n => by rw [hsame (by simp) (by simp) (by simp)]; exact h.parsed w n
    queued := fun n => by rw [hsame (by simp) (by simp) (by simp)]; exact h.queued n
    len := ?_
    poolLen := fun w cl' n hn => h.poolLen w cl' n ((hsame (by simp) (by simp) (by simp)).mp hn)
    fresh := h.fresh
    used := ?_ }
  · intro cl'
    by_cases hcl : cl' = cl
    · subst hcl
      rw [Function.update_self, Function.update_self, cells_setCells]
      exact hinv
    · rw [Function.update_of_ne hcl, Function.update_of_ne hcl]
      refine h.arenas_congr (harena cl' hcl) fun c hc => next_setCells hframe (hhigh _ ?_)
      exact PbufClass.addr_symm_block (Ne.symm hcl) (h.free_own hc).1
  · intro cl'
    by_cases hcl : cl' = cl
    · subst hcl
      rw [show (s.setCells cl' ca).arena cl' = ca from Function.update_self ..]
      exact hframe.lifoPolicy.trans (h.fifo cl')
    · rw [harena cl' hcl]
      exact h.fifo cl'
  · intro cl'
    by_cases hcl : cl' = cl
    · subst hcl
      rw [show (s.setCells cl' ca).arena cl' = ca from Function.update_self ..]
      exact hframe.createsize.trans (h.createsize cl')
    · rw [harena cl' hcl]
      exact h.createsize cl'
  · intro cl' c
    by_cases hcl : cl' = cl
    · subst hcl
      rw [Function.update_self]
      exact hout c
    · rw [Function.update_of_ne hcl, h.handed]
      exact and_congr_right fun hc => by rw [hother cl' c hcl hc]
  · intro n hn
    rcases hcell n hn with hn | ⟨c, hc, heq⟩
    · exact h.cell n hn
    · exact ⟨cl, c, hc, heq⟩
  · intro cl' c hc htaken
    have hc : c.block < cellblocksMax ∧ own' (cl'.addr c) ≠ .arena := by
      by_cases hcl : cl' = cl
      · subst hcl
        rw [Function.update_self] at hc
        exact (hout c).mp hc
      · rw [Function.update_of_ne hcl, h.handed] at hc
        exact ⟨hc.1, by rw [hother cl' c hcl hc.1]; exact hc.2⟩
    -- Whoever has the buffer had it before.
    have heq : own' (cl'.addr c) = own (cl'.addr c) := by
      rcases hown (cl'.addr c) with heq | ⟨-, heq⟩ | ⟨-, heq⟩
      · exact heq
      · exact absurd heq htaken
      · exact absurd heq hc.2
    rw [heq] at hc htaken
    exact h.len cl' c ((h.handed cl' c).mpr hc) htaken
  · rintro n (hn | ⟨w, hn⟩)
    · exact h.used n (.inl ((hsame (by simp) (by simp) (by simp)).mp hn))
    · exact h.used n (.inr ⟨w, (hsame (by simp) (by simp) (by simp)).mp hn⟩)

/-- `cellmallocmany` does not crash, and hands out buffers that were in the arena. -/
theorem cellmallocmany (h : s.Inv a free out pool own) (cl : PbufClass) (mmap : Nat → Bool)
    (numcells : Nat) :
    ∃ r free' out', (s.cells cl).cellmallocmany mmap numcells = some r ∧
      (r.1.map cl.addr).Nodup ∧ (∀ n ∈ r.1.map cl.addr, cl.addr.symm n ∈ out' cl) ∧
      (s.setCells cl r.2).Inv a free' out' pool
        fun n => if n ∈ r.1.map cl.addr then .taken else own n := by
  obtain ⟨r, free', heq, hinv⟩ := (h.arenas cl).cellmallocmany mmap numcells
  have hframe := (h.arenas cl).cellmallocmany_frame heq
  obtain ⟨hnodup, -, hdisj⟩ := List.nodup_append.mp hinv.handed
  have hmem : ∀ {c}, cl.addr c ∈ r.1.map cl.addr ↔ c ∈ r.1 := by
    intro c
    rw [List.mem_map]
    refine ⟨?_, fun hc => ⟨c, hc, rfl⟩⟩
    rintro ⟨c', hc', heq'⟩
    exact cl.addr.injective heq' ▸ hc'
  have hblock : ∀ c ∈ r.1, c.block < cellblocksMax := by
    intro c hc
    have hcount := ((hinv.cells c).mp (.inr (List.mem_append_left _ hc))).1
    exact Nat.lt_of_lt_of_le hcount hinv.blocks
  have harena : ∀ c ∈ r.1, own (cl.addr c) = .arena := by
    intro c hc
    -- A cell of another owner has been handed out, and no cell is handed out twice.
    refine by_contra fun hown => hdisj c hc c ?_ rfl
    exact (h.handed cl c).mpr ⟨hblock c hc, hown⟩
  refine ⟨r, _, _, heq, hnodup.map cl.addr.injective, ?_,
    h.setCells hinv hframe (fun c hc => .inr hc) (fun n hn _ => h.kept hn cl) ?_ ?_ ?_ ?_⟩
  · intro n hn
    obtain ⟨c, hc, rfl⟩ := List.mem_map.mp hn
    rw [Function.update_self, Equiv.symm_apply_apply]
    exact List.mem_append_left _ hc
  · intro n
    split
    · next hn =>
      obtain ⟨c, hc, rfl⟩ := List.mem_map.mp hn
      exact .inr (.inl ⟨harena c hc, rfl⟩)
    · exact .inl rfl
  · intro c
    rw [List.mem_append, h.handed]
    simp only [hmem]
    by_cases hc : c ∈ r.1
    · simp [hc, hblock c hc]
    · simp [hc]
  · intro cl' c hcl hc
    refine if_neg fun hn => ?_
    obtain ⟨c', hc', heq'⟩ := List.mem_map.mp hn
    have hhigh := PbufClass.addr_symm_block (Ne.symm hcl) hc
    rw [← heq', Equiv.symm_apply_apply] at hhigh
    have := hblock c' hc'
    omega
  · intro n hn
    split at hn
    · next hmem =>
      obtain ⟨c, hc, rfl⟩ := List.mem_map.mp hmem
      exact .inr ⟨c, hblock c hc, rfl⟩
    · exact .inl hn

/-- Freed buffers of one class go back to their arena. -/
theorem putCells (h : s.Inv a free out pool own) (ps : List Nat)
    (hfreed : ∀ p ∈ ps, own p = .freed) (hlen : ∀ p ∈ ps, s.bufLen p = cl.maxLen) {ca : CellarenaT}
    {free' : List CellPtr}
    (hinv : Cells.Inv ⟨ca, (out cl).diff (ps.map cl.addr.symm)⟩ free')
    (hframe : Frame (fun c => WordKept (out cl) c ∧ c ∉ ps.map cl.addr.symm) (s.cells cl) ca) :
    ∃ free' out', (s.setCells cl ca).Inv a free' out' pool
      fun n => if n ∈ ps then .arena else own n := by
  have hmem : ∀ {c}, c ∈ ps.map cl.addr.symm ↔ cl.addr c ∈ ps := by
    intro c
    rw [List.mem_map]
    refine ⟨?_, fun hc => ⟨_, hc, cl.addr.symm_apply_apply c⟩⟩
    rintro ⟨p, hp, rfl⟩
    rwa [Equiv.apply_symm_apply]
  have hout : ∀ p ∈ ps, cl.addr.symm p ∈ out cl :=
    fun p hp => h.class_eq (by rw [hfreed p hp]; simp) (hlen p hp)
  refine ⟨_, _, h.setCells hinv hframe ?_ ?_ ?_ ?_ ?_ ?_⟩
  · intro c hc
    refine ⟨.inr hc, fun hps => ?_⟩
    have := ((h.handed cl c).mp (by
      have hp := hout _ (hmem.mp hps)
      rwa [Equiv.symm_apply_apply] at hp)).1
    omega
  · intro n hn hn'
    refine ⟨h.kept hn cl, fun hps => hn' ?_⟩
    rw [hmem, Equiv.apply_symm_apply] at hps
    exact hfreed n hps
  · intro n
    split
    · next hn => exact .inr (.inr ⟨hfreed n hn, rfl⟩)
    · exact .inl rfl
  · intro c
    rw [(h.arenas cl).handed.mem_sdiff_iff, h.handed, hmem]
    by_cases hc : cl.addr c ∈ ps <;> simp [hc]
  · intro cl' c hcl hc
    refine if_neg fun hps => ?_
    have hhigh := PbufClass.addr_symm_block (Ne.symm hcl) hc
    have := ((h.handed cl _).mp (hout _ hps)).1
    omega
  · intro n hn
    split at hn
    · exact absurd rfl hn
    · exact .inl hn

theorem frees (h : s.Inv a free out pool own) {ps : List Nat} (hnodup : ps.Nodup)
    (hfreed : ∀ p ∈ ps, own p = .freed) (hlen : ∀ p ∈ ps, s.bufLen p = cl.maxLen) :
    Cells.Frees ⟨s.cells cl, out cl⟩ (ps.map cl.addr.symm) := by
  refine ⟨hnodup.map cl.addr.symm.injective, fun c hc => ?_⟩
  obtain ⟨p, hp, rfl⟩ := List.mem_map.mp hc
  exact h.class_eq (by rw [hfreed p hp]; simp) (hlen p hp)

theorem cellfreemany (h : s.Inv a free out pool own) (cl : PbufClass) {ps : List Nat}
    (hnodup : ps.Nodup) (hfreed : ∀ p ∈ ps, own p = .freed) (hlen : ∀ p ∈ ps, s.bufLen p = cl.maxLen) :
    ∃ free' out', (s.cellfreemany cl ps).Inv a free' out' pool
      fun n => if n ∈ ps then .arena else own n := by
  unfold PbufState.cellfreemany
  split
  · next hnil =>
    subst hnil
    exact ⟨free, out, by simpa using h⟩
  · obtain ⟨⟨free', hinv⟩, hframe⟩ :=
      (h.arenas cl).cellfreemany_fifo (h.frees hnodup hfreed hlen) (h.fifo cl)
    exact h.putCells ps hfreed hlen hinv hframe

/-! ### One buffer changes hands -/

/-- A buffer that no arena has gets another owner. Nothing changes for the others. -/
theorem hand (h : s.Inv a free out pool own) {p : Nat} {o : Owner} (hp : cl.addr.symm p ∈ out cl)
    (hown : own p ≠ .arena) (ho : o ≠ .arena) (hrep : Rep s'.pipeline a')
    (hpools : Lists s'.poolMem pool') (harena : s'.arena = s.arena)
    (hnext : ∀ n, n ≠ p → own n = .arena → s'.next n = s.next n)
    (hpooled : ∀ x n, n ≠ p → (n ∈ pool' x ↔ n ∈ pool x))
    (hpooled' : ∀ w cl', p ∈ pool' (w, cl') ↔ o = .pool w cl')
    (hparsed : ∀ w n, n ≠ p → ((∃ r, s'.parsing w = some (n, r)) ↔ ∃ r, s.parsing w = some (n, r)))
    (hparsed' : ∀ w, (∃ r, s'.parsing w = some (p, r)) ↔ o = .parser w)
    (hqueued : ∀ n, n ≠ p → s'.pipeline.isFree n = s.pipeline.isFree n)
    (hqueued' : s'.pipeline.isFree p = false ↔ o = .queues)
    (hlen : ∀ n, n ≠ p → s'.bufLen n = s.bufLen n)
    (hlen' : s'.bufLen p = cl.maxLen) (hpoolLen : ∀ w cl', o = .pool w cl' → cl' = cl)
    (hfree : ∀ n, n ≠ p → s'.isFree n = s.isFree n)
    (hfree' : (o = .queues ∨ ∃ w, o = .parser w) → s'.isFree p = false) :
    s'.Inv a' free out pool' (Function.update own p o) := by
  have hcell := ((h.handed cl _).mp hp).1
  have hclass : ∀ {cl' c}, c.block < cellblocksMax → PbufClass.addr cl' c = p → cl' = cl := by
    intro cl' c hc heq
    refine PbufClass.addr_class hc hcell (heq.trans ?_)
    rw [Equiv.apply_symm_apply]
  refine h.change hrep hpools harena ?_ ?_ ?_ ?_ ?_ ?_ ?_ ?_ ?_
  · exact fun n hn => hnext n (fun heq => hown (heq ▸ hn)) hn
  · intro n
    by_cases hn : n = p
    · subst hn
      rw [Function.update_self]
      exact iff_of_false ho hown
    · rw [Function.update_of_ne hn]
  · intro w cl' n
    by_cases hn : n = p
    · subst hn
      rw [Function.update_self]
      exact hpooled' w cl'
    · rw [Function.update_of_ne hn, hpooled _ n hn]
      exact h.pooled w cl' n
  · intro w n
    by_cases hn : n = p
    · subst hn
      rw [Function.update_self]
      exact hparsed' w
    · rw [Function.update_of_ne hn, hparsed w n hn]
      exact h.parsed w n
  · intro n
    by_cases hn : n = p
    · subst hn
      rw [Function.update_self]
      exact hqueued'
    · rw [Function.update_of_ne hn, hqueued n hn]
      exact h.queued n
  · intro cl' c hc htaken
    by_cases hn : cl'.addr c = p
    · rw [hn, hlen', hclass ((h.handed cl' c).mp hc).1 hn]
    · rw [Function.update_of_ne hn] at htaken
      rw [hlen _ hn]
      exact h.len cl' c hc htaken
  · intro w cl' n hn
    by_cases hnp : n = p
    · subst hnp
      rw [Function.update_self] at hn
      rw [hlen', hpoolLen w cl' hn]
    · rw [Function.update_of_ne hnp] at hn
      rw [hlen n hnp]
      exact h.poolLen w cl' n hn
  · intro cl' c hc
    by_cases hn : cl'.addr c = p
    · rw [hn, hlen', hclass hc hn]
      exact .inr rfl
    · rw [hlen _ hn]
      exact h.fresh cl' c hc
  · intro n hn
    by_cases hnp : n = p
    · subst hnp
      rw [Function.update_self] at hn
      exact hfree' hn
    · rw [Function.update_of_ne hnp] at hn
      rw [hfree n hnp]
      exact h.used n hn

/-- `pbuf_get` and `pbuf_free` put a buffer in a pool. -/
theorem push (h : s.Inv a free out pool own) {w p : Nat} (hown : own p = .taken ∨ own p = .freed)
    (hp : cl.addr.symm p ∈ out cl) :
    (((s.setNext p (s.pool w cl)).label cl p).setPool w cl (some p)).Inv a free out
      (Function.update pool (w, cl) (p :: pool (w, cl))) (Function.update own p (.pool w cl)) := by
  have hnot : ∀ {o}, o ≠ .taken → o ≠ .freed → own p ≠ o := ne_of_onWay hown
  have hpool : ∀ x, p ∉ pool x := fun x hx =>
    hnot (by simp) (by simp) ((h.pooled x.1 x.2 p).mp hx)
  refine h.hand hp (hnot (by simp) (by simp)) (by simp) ?_ ?_ rfl ?_ ?_ ?_ (fun _ _ _ => Iff.rfl) ?_
    (fun _ _ => rfl) ?_ ?_ ?_ ?_ ?_ ?_
  · refine h.rep_congr (fun x => Function.update_of_ne (by simp) ..) fun n hn => ?_
    have hnp : n ≠ p := fun heq => hnot (by simp) (by simp) (heq ▸ hn)
    exact Function.update_of_ne (by simpa using hnp) ..
  · simpa using h.pools.push (w, cl) hpool
  · intro n hn _
    simp [hn]
  · intro x n hn
    simp [mem_update_cons, hn]
  · intro w' cl'
    simp [mem_update_cons, hpool, eq_comm]
  · intro w'
    exact (h.parsed w' p).trans (iff_of_false (hnot (by simp) (by simp)) (by simp))
  · exact (h.queued p).trans (iff_of_false (hnot (by simp) (by simp)) (by simp))
  · exact fun n hn => Function.update_of_ne hn ..
  · exact Function.update_self ..
  · rintro w' cl' heq
    cases heq
    rfl
  · exact fun n hn => Function.update_of_ne hn ..
  · simp

/-- The first buffer is taken from a pool. -/
theorem pop (h : s.Inv a free out pool own) {w p : Nat} (hp : s.pool w cl = some p) :
    own p = .pool w cl ∧ ∃ pool', (s.setPool w cl (s.next p)).Inv a free out pool'
      (Function.update own p .freed) := by
  have hhead : (pool (w, cl)).head? = some p := (h.pools.head?_eq (w, cl)).symm.trans hp
  obtain ⟨rest, hrest⟩ := List.head?_eq_some_iff.mp hhead
  have hown : own p = .pool w cl := (h.pooled w cl p).mp (hrest ▸ List.mem_cons_self)
  have hlen := h.poolLen w cl p hown
  refine ⟨hown, Function.update pool (w, cl) rest, h.hand (h.class_eq (by simp [hown]) hlen)
    (by simp [hown]) (by simp) h.rep ?_ rfl (fun _ _ _ => rfl) ?_ ?_ (fun _ _ _ => Iff.rfl) ?_
    (fun _ _ => rfl) ?_ (fun _ _ => rfl) hlen (by simp) (fun _ _ => rfl) (by simp)⟩
  · rw [poolMem_setPool]
    exact h.pools.advance hrest
  · intro x n hn
    by_cases hx : x = (w, cl)
    · subst hx
      rw [Function.update_self, hrest, List.mem_cons]
      simp [hn]
    · rw [Function.update_of_ne hx]
  · exact fun w' cl' =>
      iff_of_false (h.pools.queues.not_mem_update_tail hrest (w', cl')) (by simp)
  · intro w'
    exact (h.parsed w' p).trans (iff_of_false (by simp [hown]) (by simp))
  · exact (h.queued p).trans (iff_of_false (by simp [hown]) (by simp))

/-! ### incoming_parse -/

/-- `incoming_parse` gets a buffer that is filled with zeros. -/
theorem parse (h : s.Inv a free out pool own) {w p : Nat} (hown : own p = .taken ∨ own p = .freed)
    (hp : cl.addr.symm p ∈ out cl) (hw : s.parsing w = none) (result : Incoming) :
    { s.clear cl p with parsing := Function.update s.parsing w (some (p, result)) }.Inv a free out
      pool (Function.update own p (.parser w)) := by
  have hnot : ∀ {o}, o ≠ .taken → o ≠ .freed → own p ≠ o := ne_of_onWay hown
  have hpool : ∀ w cl, own p ≠ .pool w cl := fun w cl => hnot (by simp) (by simp)
  refine h.hand hp (hnot (by simp) (by simp)) (by simp) ?_ ?_ rfl ?_ (fun _ _ _ => Iff.rfl) ?_ ?_ ?_
    (fun _ _ => rfl) ?_ ?_ ?_ (by simp) ?_ ?_
  · refine h.rep_congr (fun x => Function.update_of_ne (by simp) ..) fun n hn => ?_
    have hnp : n ≠ p := fun heq => hnot (by simp) (by simp) (heq ▸ hn)
    exact Function.update_of_ne (by simpa using hnp) ..
  · refine h.pools_congr rfl fun w cl n hn => ?_
    have hnp : n ≠ p := fun heq => hpool w cl (heq ▸ hn)
    exact Function.update_of_ne (by simpa using hnp) ..
  · exact fun n hn _ => Function.update_of_ne (by simpa using hn) ..
  · exact fun w' cl' => (h.pooled w' cl' p).trans (iff_of_false (hpool w' cl') (by simp))
  · intro w' n hn
    by_cases hw' : w' = w
    · subst hw'
      simp [hw, Ne.symm hn]
    · simp [hw']
  · intro w'
    by_cases hw' : w' = w
    · subst hw'
      simp
    · have hother := (h.parsed w' p).trans (iff_of_false (hnot (by simp) (by simp)) not_false)
      simp only [Function.update_of_ne hw', hother, Owner.parser.injEq, false_iff]
      exact Ne.symm hw'
  · exact (h.queued p).trans (iff_of_false (hnot (by simp) (by simp)) (by simp))
  · exact fun n hn => Function.update_of_ne hn ..
  · exact Function.update_self ..
  · exact fun n hn => Function.update_of_ne hn ..
  · exact fun _ => Function.update_self ..

/-- What the worker that parses has. -/
theorem parsing_own (h : s.Inv a free out pool own) {w p : Nat} {result : Incoming}
    (hw : s.parsing w = some (p, result)) :
    own p = .parser w ∧ ∃ cl, cl.addr.symm p ∈ out cl ∧ s.bufLen p = cl.maxLen := by
  have hown : own p = .parser w := (h.parsed w p).mp ⟨result, hw⟩
  obtain ⟨cl, hlen⟩ := h.exists_class (n := p) (by simp [hown]) (by simp [hown])
  exact ⟨hown, cl, h.class_eq (by simp [hown]) hlen, hlen⟩

theorem parsing_iff {w p : Nat} {result : Incoming} (hw : s.parsing w = some (p, result)) (w' n : Nat)
    (hn : n ≠ p) : (∃ r, Function.update s.parsing w none w' = some (n, r)) ↔
      ∃ r, s.parsing w' = some (n, r) := by
  by_cases hw' : w' = w
  · subst hw'
    simp [hw, Ne.symm hn]
  · simp [hw']

theorem not_parsing (h : s.Inv a free out pool own) {w p : Nat} (hown : own p = .parser w) (w' : Nat) :
    ¬∃ r, Function.update s.parsing w none w' = some (p, r) := by
  by_cases hw' : w' = w
  · subst hw'
    simp
  · rw [Function.update_of_ne hw', h.parsed, hown]
    simpa using Ne.symm hw'

/-- `incoming_parse` is done with a buffer. -/
theorem endParse (h : s.Inv a free out pool own) {w p : Nat} {result : Incoming}
    (hw : s.parsing w = some (p, result)) :
    { s with parsing := Function.update s.parsing w none }.Inv a free out pool
      (Function.update own p .freed) := by
  obtain ⟨hown, cl, hp, hlen⟩ := h.parsing_own hw
  refine h.hand hp (by simp [hown]) (by simp) h.rep h.pools rfl (fun _ _ _ => rfl)
    (fun _ _ _ => Iff.rfl) ?_ (parsing_iff hw) ?_ (fun _ _ => rfl) ?_ (fun _ _ => rfl) hlen (by simp)
    (fun _ _ => rfl) (by simp)
  · exact fun w' cl' => (h.pooled w' cl' p).trans (iff_of_false (by simp [hown]) (by simp))
  · exact fun w' => iff_of_false (h.not_parsing hown w') (by simp)
  · exact (h.queued p).trans (iff_of_false (by simp [hown]) (by simp))

/-- `incoming_parse` puts a buffer on the incoming queue. -/
theorem queue {cfg : PipelineConfig} (h : s.Inv a free out pool own) {w p : Nat} {t : Int}
    {result : Incoming} (hw : s.parsing w = some (p, result)) {pipeline : Pipeline}
    {evs : List PipelineEvent} (hstep : s.pipeline.step cfg (.queue w p t) = some (pipeline, evs)) :
    ∃ a', { s with pipeline := pipeline, parsing := Function.update s.parsing w none }.Inv a' free out
      pool (Function.update own p .queues) := by
  obtain ⟨hown, cl, hp, hlen⟩ := h.parsing_own hw
  have hok : LagScanOk s.pipeline (.queue w p t) := nofun
  obtain ⟨a', -, hrep⟩ := h.rep.step hok hstep
  have hnext : ∀ n, n ≠ p → own n ≠ .queues →
      pipeline.queues.mem (.next n) = s.pipeline.queues.mem (.next n) := by
    intro n hnp hn
    refine h.rep.step_next hstep (h.not_mem_queue hn) fun w' t' heq => ?_
    cases heq
    exact hnp rfl
  simp only [Pipeline.step, Option.ite_none_right_eq_some, Option.some.injEq, Prod.mk.injEq] at hstep
  obtain ⟨-, rfl, rfl⟩ := hstep
  refine ⟨a', h.hand hp (by simp [hown]) (by simp) hrep ?_ rfl ?_ (fun _ _ _ => Iff.rfl) ?_
    (parsing_iff hw) ?_ ?_ ?_ (fun _ _ => rfl) hlen (by simp) (fun _ _ => rfl) ?_⟩
  · refine h.pools_congr rfl fun w' cl' n hn => hnext n ?_ (by simp [hn])
    rintro rfl
    cases hown.symm.trans hn
  · exact fun n hnp hn => hnext n hnp (by simp [hn])
  · exact fun w' cl' => (h.pooled w' cl' p).trans (iff_of_false (by simp [hown]) (by simp))
  · exact fun w' => iff_of_false (h.not_parsing hown w') (by simp)
  · exact fun n hn => Function.update_of_ne hn ..
  · simp [Pipeline.queue]
  · exact fun _ => h.used p (.inr ⟨w, hown⟩)

/-! ### pbuf_get -/

theorem fillPool (h : s.Inv a free out pool own) {w : Nat} {pbs : List Nat} (hnodup : pbs.Nodup)
    (htaken : ∀ p ∈ pbs, own p = .taken) (hout : ∀ p ∈ pbs, cl.addr.symm p ∈ out cl) :
    ∃ pool', (PbufState.fillPool w cl pbs s).Inv a free out pool'
      fun n => if n ∈ pbs then .pool w cl else own n := by
  induction pbs generalizing s pool own with
  | nil => exact ⟨pool, by simpa [PbufState.fillPool] using h⟩
  | cons p pbs ih =>
    rw [List.nodup_cons] at hnodup
    have hpush := h.push (w := w) (.inl (htaken p List.mem_cons_self)) (hout p List.mem_cons_self)
    obtain ⟨pool', hinv⟩ := ih hpush hnodup.2 (fun q hq => by
      have hqp : q ≠ p := fun heq => hnodup.1 (heq ▸ hq)
      rw [Function.update_of_ne hqp]
      exact htaken q (List.mem_cons_of_mem p hq)) fun q hq => hout q (List.mem_cons_of_mem p hq)
    refine ⟨pool', ?_⟩
    have hown : (fun n => if n ∈ p :: pbs then Owner.pool w cl else own n) =
        fun n => if n ∈ pbs then .pool w cl else Function.update own p (.pool w cl) n := by
      funext n
      by_cases hn : n = p <;> simp [hn]
    rw [hown]
    exact hinv

/-- `pbuf_get` does not crash. A buffer that it returns is for `incoming_parse`. -/
theorem pbufGet (h : s.Inv a free out pool own) (hrest : AtRest own)
    (mmap : PbufClass → Nat → Bool) {w : Nat} (hw : s.parsing w = none) (len : Int) (result : Incoming) :
    ∃ r, s.pbufGet mmap w len = some r ∧ ∃ free' out' pool' own', AtRest own' ∧
      PbufState.Inv (match r.1 with
        | none => r.2
        | some pb => { r.2 with parsing := Function.update r.2.parsing w (some (pb, result)) })
        a free' out' pool' own' := by
  unfold PbufState.pbufGet
  cases PbufClass.forPacket len with
  | none => exact ⟨_, rfl, free, out, pool, own, hrest, h⟩
  | some cl =>
    dsimp only
    cases hpool : s.pool w cl with
    | some p =>
      obtain ⟨hown, pool', hpop⟩ := h.pop hpool
      have hout := h.class_eq (by simp [hown]) (h.poolLen w cl p hown)
      have hparse := hpop.parse (w := w) (.inr (Function.update_self ..)) hout hw result
      rw [Function.update_idem] at hparse
      exact ⟨_, rfl, free, out, pool', _, atRest_update (by simp) (fun n _ => hrest n), hparse⟩
    | none =>
      obtain ⟨r, free', out', heq, hnodup, hout, hinv⟩ :=
        h.cellmallocmany cl (mmap cl) cl.allocateBunch
      rw [heq, Option.map_some]
      dsimp only
      refine ⟨_, rfl, ?_⟩
      cases harray : r.1.map cl.addr with
      | nil =>
        refine ⟨free', out', pool, own, hrest, ?_⟩
        simpa [harray] using hinv
      | cons pb pbs =>
        rw [harray] at hnodup hinv hout
        rw [List.nodup_cons] at hnodup
        obtain ⟨pool', hfill⟩ := hinv.fillPool (w := w) hnodup.2 (fun p hp => by simp [hp])
          fun p hp => hout p (List.mem_cons_of_mem pb hp)
        have hparsing : (PbufState.fillPool w cl pbs (s.setCells cl r.2)).parsing w = none := by
          rw [parsing_fillPool]
          exact hw
        have hparse := hfill.parse (w := w) (.inl (by simp [hnodup.1])) (hout pb List.mem_cons_self)
          hparsing result
        refine ⟨free', out', pool', _, atRest_update (by simp) ?_, hparse⟩
        intro n hn
        by_cases hnp : n ∈ pbs
        · simp [hnp]
        · simpa [hnp, hn] using hrest n

/-! ### pbuf_free -/

/-- `pbuf_free` of a worker. -/
theorem pbufFree_pool (h : s.Inv a free out pool own) {w p : Nat} (hown : own p = .freed)
    (hfree : s.isFree p = false) :
    ∃ cl pool', (s.pbufFree (some w) p).pool w cl = some p ∧
      (s.pbufFree (some w) p).Inv a free out pool' (Function.update own p (.pool w cl)) := by
  obtain ⟨cl, hlen⟩ := h.exists_class (n := p) (by simp [hown]) (by simp [hown])
  have hpush := h.push (w := w) (.inr hown) (h.class_eq (by simp [hown]) hlen)
  have hlabel : (s.setNext p (s.pool w cl)).label cl p = s.setNext p (s.pool w cl) :=
    label_eq hlen hfree
  rw [hlabel] at hpush
  have heq : s.pbufFree (some w) p = (s.setNext p (s.pool w cl)).setPool w cl (some p) := by
    simp only [pbufFree, hlen, PbufClass.ofBufLen_maxLen]
  rw [heq]
  exact ⟨cl, _, by simp [setPool], hpush⟩

/-- `pbuf_free` without a worker. -/
theorem pbufFree_arena (h : s.Inv a free out pool own) {p : Nat} (hown : own p = .freed) :
    ∃ free' out', (s.pbufFree none p).Inv a free' out' pool (Function.update own p .arena) := by
  obtain ⟨cl, hlen⟩ := h.exists_class (n := p) (by simp [hown]) (by simp [hown])
  have hp := h.class_eq (by simp [hown]) hlen
  have hset := (h.arenas cl).setNext hp none
  have hfrees : Cells.Frees ⟨(s.cells cl).setNext (cl.addr.symm p) none, out cl⟩ [cl.addr.symm p] :=
    ⟨List.nodup_singleton _, by simpa using hp⟩
  obtain ⟨⟨free', hinv⟩, hframe⟩ := hset.cellfreemany_fifo hfrees (h.fifo cl)
  have hwrite : Frame (fun c => WordKept (out cl) c ∧ c ∉ [cl.addr.symm p]) (s.cells cl)
      ((s.cells cl).setNext (cl.addr.symm p) none) := by
    refine ⟨Nat.le_refl _, rfl, rfl, rfl, fun c hc => ?_⟩
    have hne : c ≠ cl.addr.symm p := by simpa using hc.2
    simp [CellarenaT.next, CellarenaT.setNext, hne]
  obtain ⟨free'', out', hfreed⟩ := h.putCells [p] (by simpa using hown) (by simpa using hlen) hinv
    (hwrite.trans hframe)
  refine ⟨free'', out', ?_⟩
  have heq : s.pbufFree none p = s.setCells cl
      (((s.cells cl).setNext (cl.addr.symm p) none).cellfreemany [cl.addr.symm p]) := by
    simp only [pbufFree, hlen, PbufClass.ofBufLen_maxLen]
    rfl
  have hown' : Function.update own p .arena = fun n => if n ∈ [p] then .arena else own n := by
    funext n
    simp [Function.update_apply]
  rw [heq, hown']
  exact hfreed

/-- One class of the buffers that `pbuf_free_many` sorts. -/
theorem freeSorted (h : s.Inv a free out pool own) (cl : PbufClass) {array : List Nat}
    {len : Nat → Nat} (hlen : s.bufLen = len) (hnodup : array.Nodup)
    (hfreed : ∀ p ∈ array, PbufClass.ofBufLen (len p) = some cl → own p = .freed) :
    ∃ free' out',
      (s.cellfreemany cl (array.filter fun p => PbufClass.ofBufLen (len p) = some cl)).Inv a free' out'
        pool fun n => if n ∈ array ∧ PbufClass.ofBufLen (len n) = some cl then .arena else own n := by
  have hsorted := h.cellfreemany cl (hnodup.filter fun p => PbufClass.ofBufLen (len p) = some cl) ?_ ?_
  · simpa using hsorted
  · intro p hp
    obtain ⟨hp, hclass⟩ := List.mem_filter.mp hp
    exact hfreed p hp (by simpa using hclass)
  · intro p hp
    have hclass := (List.mem_filter.mp hp).2
    rw [hlen]
    exact PbufClass.eq_maxLen (by simpa using hclass)

theorem pbufFreeMany (h : s.Inv a free out pool own) {array : List Nat} (hnodup : array.Nodup)
    (hfreed : ∀ p ∈ array, own p = .freed) :
    ∃ free' out', (s.pbufFreeMany array).Inv a free' out' pool
      fun n => if n ∈ array then .arena else own n := by
  have hmarked : { s with isFree := fun n => if n ∈ array then true else s.isFree n }.Inv a free out
      pool own := by
    refine h.change h.rep h.pools rfl (fun _ _ => rfl) (fun _ => Iff.rfl) h.pooled h.parsed h.queued
      h.len h.poolLen h.fresh fun n hn => ?_
    have hnot : n ∉ array := fun hmem => by simp [hfreed n hmem] at hn
    dsimp only
    rw [if_neg hnot]
    exact h.used n hn
  -- No call changes a length, so all three sort by the lengths at the start.
  obtain ⟨free₁, out₁, h₁⟩ := hmarked.freeSorted .small rfl hnodup fun p hp _ => hfreed p hp
  obtain ⟨free₂, out₂, h₂⟩ := h₁.freeSorted .medium (bufLen_cellfreemany ..) hnodup
    fun p hp hclass => by simp [hclass, hfreed p hp]
  obtain ⟨free₃, out₃, h₃⟩ := h₂.freeSorted .large
    ((bufLen_cellfreemany ..).trans (bufLen_cellfreemany ..)) hnodup
    fun p hp hclass => by simp [hclass, hfreed p hp]
  refine ⟨free₃, out₃, ?_⟩
  -- Every buffer has one of the three lengths, so none is left.
  have hown : (fun n => if n ∈ array then Owner.arena else own n) = fun n =>
      if n ∈ array ∧ PbufClass.ofBufLen (s.bufLen n) = some .large then .arena
      else if n ∈ array ∧ PbufClass.ofBufLen (s.bufLen n) = some .medium then .arena
      else if n ∈ array ∧ PbufClass.ofBufLen (s.bufLen n) = some .small then .arena
      else own n := by
    funext n
    by_cases hn : n ∈ array
    · obtain ⟨cl, hcl⟩ := h.exists_class (n := n) (by simp [hfreed n hn]) (by simp [hfreed n hn])
      cases cl <;> simp [hn, hcl]
    · simp [hn]
  rw [hown]
  exact h₃

/-- The calls of `pbuf_free_many` in a purge. -/
theorem freeCalls (h : s.Inv a free out pool own) {calls : List (List Nat)}
    (hnodup : calls.flatten.Nodup) (hfreed : ∀ p ∈ calls.flatten, own p = .freed) :
    ∃ free' out', (calls.foldl PbufState.pbufFreeMany s).Inv a free' out' pool
      fun n => if n ∈ calls.flatten then .arena else own n := by
  induction calls generalizing s free out own with
  | nil => exact ⟨free, out, by simpa using h⟩
  | cons array calls ih =>
    rw [List.flatten_cons, List.nodup_append] at hnodup
    obtain ⟨hnodup, hrest, hdisj⟩ := hnodup
    obtain ⟨free₁, out₁, h₁⟩ := h.pbufFreeMany hnodup fun p hp =>
      hfreed p (List.mem_append_left _ hp)
    obtain ⟨free₂, out₂, h₂⟩ := ih h₁ hrest fun p hp => by
      have hnot : p ∉ array := fun hmem => hdisj p hmem p hp rfl
      rw [if_neg hnot]
      exact hfreed p (List.mem_append_right _ hp)
    refine ⟨free₂, out₂, ?_⟩
    have hown : (fun n => if n ∈ (array :: calls).flatten then Owner.arena else own n) = fun n =>
        if n ∈ calls.flatten then .arena else if n ∈ array then .arena else own n := by
      funext n
      by_cases hn : n ∈ array <;> simp [hn]
    rw [hown]
    exact h₂

/-! ### The pipeline -/

/-- A step of the pipeline, and what the purge frees goes to the arenas. -/
theorem pipelineStep {cfg : PipelineConfig} {act : PipelineAction} {pipeline : Pipeline}
    {evs : List PipelineEvent} (h : s.Inv a free out pool own) (hact : ∀ w n t, act ≠ .queue w n t)
    (hok : LagScanOk s.pipeline act) (hstep : s.pipeline.step cfg act = some (pipeline, evs)) :
    ∃ a' free' out', ({ s with pipeline := pipeline }.purged evs).Inv a' free' out' pool
      fun n => if n ∈ freedFrom .main evs ++ freedFrom .dupe evs then .arena else own n := by
  obtain ⟨a', hflow, hrep⟩ := h.rep.step hok hstep
  have hmem : ∀ {ln n}, n ∈ freedFrom ln evs → n ∈ a.global ln :=
    fun hn => (hflow.freedFrom_prefix _).subset hn
  have hqueues := h.rep.queue.queues.queues
  -- What is freed was in a queue.
  let freed := freedFrom .main evs ++ freedFrom .dupe evs
  have hfreed : ∀ n ∈ freed, own n = .queues := by
    intro n hn
    rcases List.mem_append.mp hn with hn | hn
    · exact h.queue_own (hmem hn)
    · exact h.queue_own (hmem hn)
  have hevent : ∀ n, (∃ ln, .freed ln n ∈ evs) ↔ n ∈ freed := by
    intro n
    rw [List.mem_append, mem_freedFrom, mem_freedFrom]
    constructor
    · rintro ⟨ln, hn⟩
      cases ln with
      | main => exact .inl hn
      | dupe => exact .inr hn
    · exact fun hn => hn.elim (⟨_, ·⟩) (⟨_, ·⟩)
  have hnodup : freed.Nodup := by
    refine List.nodup_append.mpr ⟨?_, ?_, ?_⟩
    · exact (hflow.freedFrom_prefix .main).sublist.nodup (hqueues.nodup _)
    · exact (hflow.freedFrom_prefix .dupe).sublist.nodup (hqueues.nodup _)
    · rintro n hn m hm rfl
      exact absurd (hqueues.unique (hmem hn) (hmem hm)) (by simp)
  -- The pipeline writes to the words of its own packets only.
  have hnext : ∀ n, own n ≠ .queues →
      pipeline.queues.mem (.next n) = s.pipeline.queues.mem (.next n) :=
    fun n hn => h.rep.step_next hstep (h.not_mem_queue hn) fun w t => hact w n t
  have hsame : ∀ {n o}, o ≠ .queues → o ≠ .freed →
      ((if n ∈ freed then Owner.freed else own n) = o ↔ own n = o) := by
    intro n o hqueue ho
    by_cases hn : n ∈ freed
    · rw [if_pos hn, hfreed n hn]
      exact iff_of_false (Ne.symm ho) (Ne.symm hqueue)
    · rw [if_neg hn]
  have h₁ : { s with pipeline := pipeline }.Inv a' free out pool
      fun n => if n ∈ freed then .freed else own n := by
    refine h.change hrep ?_ rfl ?_ ?_ ?_ ?_ ?_ ?_ ?_ h.fresh ?_
    · exact h.pools_congr rfl fun w cl n hn => hnext n (by simp [hn])
    · exact fun n hn => hnext n (by simp [hn])
    · exact fun n => hsame (by simp) (by simp)
    · exact fun w cl n => (h.pooled w cl n).trans (hsame (by simp) (by simp)).symm
    · exact fun w n => (h.parsed w n).trans (hsame (by simp) (by simp)).symm
    · intro n
      have hmark := Pipeline.step_isFree hact hstep n
      rw [hevent, ← Bool.not_eq_false, ← Bool.not_eq_false, h.queued] at hmark
      dsimp only
      by_cases hn : n ∈ freed
      · simp [hn] at hmark ⊢
        exact hmark
      · simp only [hn, or_false, if_false] at hmark ⊢
        exact not_iff_not.mp hmark
    · intro cl c hc htaken
      exact h.len cl c hc fun heq => htaken ((hsame (by simp) (by simp)).mpr heq)
    · exact fun w cl n hn => h.poolLen w cl n ((hsame (by simp) (by simp)).mp hn)
    · rintro n (hn | ⟨w, hn⟩)
      · by_cases hmem : n ∈ freed
        · simp [hmem] at hn
        · rw [if_neg hmem] at hn
          exact h.used n (.inl hn)
      · exact h.used n (.inr ⟨w, (hsame (by simp) (by simp)).mp hn⟩)
  have hflatten : (freesets (freedFrom .main evs).length (freedFrom .main evs) ++
      freesets (freedFrom .dupe evs).length (freedFrom .dupe evs)).flatten = freed := by
    rw [List.flatten_append, flatten_freesets (Nat.le_refl _), flatten_freesets (Nat.le_refl _)]
  obtain ⟨free', out', h₂⟩ := h₁.freeCalls (hflatten ▸ hnodup) fun p hp => by
    rw [hflatten] at hp
    exact if_pos hp
  refine ⟨a', free', out', ?_⟩
  have hown : (fun n => if n ∈ freed then Owner.arena else own n) = fun n =>
      if n ∈ freed then .arena else if n ∈ freed then .freed else own n := by
    funext n
    by_cases hn : n ∈ freed <;> simp [hn]
  rw [hflatten] at h₂
  rw [show (fun n => if n ∈ freedFrom .main evs ++ freedFrom .dupe evs then Owner.arena else own n) =
    _ from hown]
  exact h₂

/-- There are fewer packet buffers than sequence numbers. -/
theorem count_lt (h : s.Inv a free out pool own) (ln : Lane) :
    s.pipeline.queues.count (.pbufGlobal ln) < 2000000000 := by
  rw [h.rep.queue.queues.count _ (a.tracked_global ln)]
  have hnodup := h.rep.queue.queues.queues.nodup (.pbufGlobal ln)
  have hcell : ∀ n ∈ a.q (.pbufGlobal ln), ∃ (cl : PbufClass) (c : CellPtr),
      c.block < cellblocksMax ∧ c.cell < pbufCellsKb * 1024 ∧ cl.addr c = n := by
    intro n hn
    have hown := h.queue_own hn
    obtain ⟨cl, c, hblock, heq⟩ := h.cell n (by simp [hown])
    have hc : c ∈ out cl := (h.handed cl c).mpr ⟨hblock, by simp [heq, hown]⟩
    have hcell : c.cell < (s.cells cl).cellsPerBlock := (((h.arenas cl).cells c).mp (.inr hc)).2
    have hper : (s.cells cl).cellsPerBlock ≤ (s.arena cl).createsize := Nat.div_le_self _ _
    rw [h.createsize cl] at hper
    exact ⟨cl, c, hblock, Nat.lt_of_lt_of_le hcell hper, heq⟩
  have hlen := PbufClass.length_le_of_addr hnodup hcell
  unfold cellblocksMax pbufCellsKb at hlen
  omega

end PbufState.Inv

/-! ## Steps -/

theorem PbufState.step_pipeline {s : PbufState} {env : PbufEnv} {act : PipelineAction}
    (hact : ∀ w n t, act ≠ .queue w n t) :
    s.step env (.pipeline act) = match s.pipeline.step env.cfg act with
      | none => some s
      | some (pipeline, evs) => some ({ s with pipeline := pipeline }.purged evs) := by
  cases act with
  | queue w n t => exact absurd rfl (hact w n t)
  | _ => rfl

/-- The invariant between two steps. -/
def PbufInv (s : PbufState) : Prop :=
  ∃ a free out pool own, s.Inv a free out pool own ∧ AtRest own

namespace PbufInv

variable {s : PbufState} {env : PbufEnv}

theorem init (sizeofPbuf alignofPbuf : Nat) : PbufInv (pbufInit sizeofPbuf alignofPbuf) := by
  refine ⟨.init, fun _ => [], fun _ => [], fun _ => [], fun _ => .arena, ⟨Rep.init, ?_, ?_, fun _ => rfl,
    fun _ => rfl, ?_, ?_, ?_, ?_, ?_, ?_, ?_, ?_, ?_⟩, fun _ => by simp⟩
  · exact ⟨⟨fun _ => trivial, fun _ => List.nodup_nil, fun hn => by cases hn⟩, fun _ => rfl⟩
  · exact fun cl => (Cells.Inv.emptyArena (sizeofPbuf + cl.maxLen) alignofPbuf cellmallocPolicyFifo
      pbufCellsKb 0).congr rfl nofun
  all_goals simp [pbufInit, Pipeline.init]

theorem incomingParseEnd (h : PbufInv s) (cfg : PipelineConfig) (w : Nat) :
    PbufInv (s.incomingParseEnd cfg w) := by
  obtain ⟨a, free, out, pool, own, hinv, hrest⟩ := h
  unfold PbufState.incomingParseEnd
  split
  · exact ⟨a, free, out, pool, own, hinv, hrest⟩
  · next p rc hw =>
    have hfree := hinv.used p (.inr ⟨w, (hinv.parsing_own hw).1⟩)
    obtain ⟨cl, pool', -, hfreed⟩ :=
      (hinv.endParse hw).pbufFree_pool (w := w) (Function.update_self ..) hfree
    rw [Function.update_idem] at hfreed
    exact ⟨a, free, out, pool', _, hfreed, atRest_update (by simp) fun n _ => hrest n⟩
  · next p rc packet hw =>
    split
    · exact ⟨a, free, out, pool, own, hinv, hrest⟩
    · next pipeline evs hstep =>
      obtain ⟨a', hqueue⟩ := hinv.queue hw hstep
      exact ⟨a', free, out, pool, _, hqueue, atRest_update (by simp) fun n _ => hrest n⟩

/-- No step crashes. -/
theorem step (h : PbufInv s) (env : PbufEnv) (act : PbufAction) :
    ∃ s', s.step env act = some s' ∧ PbufInv s' := by
  cases act with
  | incomingParse w penv c line =>
    obtain ⟨a, free, out, pool, own, hinv, hrest⟩ := h
    rw [PbufState.step]
    split
    · next hw =>
      split
      · exact ⟨s, rfl, a, free, out, pool, own, hinv, hrest⟩
      · next len _ =>
        obtain ⟨r, heq, free', out', pool', own', hrest', hinv'⟩ := hinv.pbufGet hrest env.mmap hw.2 len
          (Aprsc.incomingParse { penv with pbufGet := true } c line)
        rw [heq, Option.map_some]
        exact ⟨_, rfl, a, free', out', pool', own', hinv', hrest'⟩
    · exact ⟨s, rfl, a, free, out, pool, own, hinv, hrest⟩
  | incomingParseEnd w => exact ⟨_, rfl, h.incomingParseEnd env.cfg w⟩
  | pipeline act =>
    by_cases hact : ∀ w n t, act ≠ .queue w n t
    · rw [PbufState.step_pipeline hact]
      obtain ⟨a, free, out, pool, own, hinv, hrest⟩ := h
      split
      · exact ⟨s, rfl, a, free, out, pool, own, hinv, hrest⟩
      · next pipeline evs hstep =>
        have hok : LagScanOk s.pipeline act := fun _ => hinv.count_lt
        obtain ⟨a', free', out', hinv'⟩ := hinv.pipelineStep hact hok hstep
        refine ⟨_, rfl, a', free', out', pool, _, hinv', fun n => ?_⟩
        split
        · simp
        · exact hrest n
    · push Not at hact
      obtain ⟨w, n, t, rfl⟩ := hact
      exact ⟨s, rfl, h⟩
  | workerFreeBuffers w cl =>
    obtain ⟨a, free, out, pool, own, hinv, hrest⟩ := h
    rw [PbufState.step]
    split
    · exact ⟨s, rfl, a, free, out, pool, own, hinv, hrest⟩
    · next p hp =>
      obtain ⟨-, pool', hpop⟩ := hinv.pop hp
      obtain ⟨free', out', hfreed⟩ := hpop.pbufFree_arena (Function.update_self ..)
      rw [Function.update_idem] at hfreed
      exact ⟨_, rfl, a, free', out', pool', _, hfreed, atRest_update (by simp) fun n _ => hrest n⟩

end PbufInv

end Aprsc
