-- SUMMARY: Every step of the pipeline is a step of the abstract pipeline.
import Aprsc.Pipeline.Flow

/-!
# The pipeline refines the abstract pipeline

`Rep` relates the two: the queues in memory are the lists, a worker's pointer into
a global list is the field before its first unread packet, and the sequence
numbers are positions, counted from -2000 modulo 2^32. The purge compares
sequence numbers; `LagRep` says what this comparison means for positions, for as
long as the dupecheck thread uses the lags it found.
-/

namespace Aprsc

open PtrQueue

/-! ## Sequence numbers -/

/-- The sequence number of the packet that ends at a position. -/
def seqAt (i : Nat) : BitVec 32 := BitVec.ofInt 32 (-2000) + BitVec.ofNat 32 i

theorem seqAt_add (i d : Nat) : seqAt (i + d) = seqAt i + BitVec.ofNat 32 d := by
  rw [seqAt, seqAt, BitVec.ofNat_add]
  exact (BitVec.add_assoc ..).symm

theorem seqAt_succ (i : Nat) : seqAt (i + 1) = seqAt i + 1 := seqAt_add i 1

/-- Sequence numbers that are close measure the distance of their positions. -/
theorem seqAt_sub_toInt {i j : Nat} (hle : i ≤ j) (hclose : j < i + 2 ^ 31) :
    (seqAt j - seqAt i).toInt = j - i := by
  obtain ⟨d, rfl⟩ := Nat.exists_eq_add_of_le hle
  have hsub : seqAt (i + d) - seqAt i = BitVec.ofNat 32 d := by
    rw [seqAt_add, BitVec.add_comm, BitVec.add_sub_cancel]
  have hbmod : (d : Int).bmod (2 ^ 32) = d := Int.bmod_eq_of_le (by omega) (by omega)
  rw [hsub, BitVec.toInt_ofNat', hbmod]
  omega

/-- The first packet does not have sequence number 0. -/
theorem seqAt_one_ne_zero : seqAt 1 ≠ 0 := by decide

theorem seqAt_ne_zero_of_succ {i : Nat} (h : seqAt (i + 1) = 0) : seqAt i ≠ 0 := by
  intro h0
  rw [seqAt_succ, h0] at h
  exact absurd h (by decide)

namespace Flow

/-! ## The relation -/

/-- The queues that no thread is handing over. -/
def Settled (a : Flow) : Head → Prop
  | .incomingLocal w => w < a.nworkers ∧ a.flushing w = false
  | .incoming w => w < a.nworkers
  | .pbufGlobal _ => True
  | .pb => False
  | .pbOut _ => False

/-- The queues whose tail pointer and counter are up to date. -/
def Tracked (a : Flow) (h : Head) : Prop :=
  a.Settled h ∨ ∃ ln, h = .pbOut ln ∧ a.phase = .round

/-- The queues that are null-terminated. -/
def Terminated (a : Flow) (h : Head) : Prop := a.Settled h ∨ h = .pb

theorem tracked_global (a : Flow) (ln : Lane) : a.Tracked (.pbufGlobal ln) := .inl trivial

theorem terminated_global (a : Flow) (ln : Lane) : a.Terminated (.pbufGlobal ln) := .inl trivial

theorem settled_of_alloc (a : Flow) {thread : Bool} {x : Head} (hx : (a.alloc thread).Settled x) :
    a.Settled x ∨ x = .incomingLocal a.nworkers ∨ x = .incoming a.nworkers := by
  cases x with
  | incomingLocal w =>
    by_cases hw : w = a.nworkers
    · exact .inr (.inl (by rw [hw]))
    · obtain ⟨hlt, hflushing⟩ := hx
      simp only [alloc, Function.update_of_ne hw] at hlt hflushing
      exact .inl ⟨by omega, hflushing⟩
  | incoming w =>
    by_cases hw : w = a.nworkers
    · exact .inr (.inr (by rw [hw]))
    · have hlt : w < a.nworkers + 1 := hx
      exact .inl (by simp only [Settled]; omega)
  | pb => exact .inl hx
  | pbOut ln => exact .inl hx
  | pbufGlobal ln => exact .inl trivial

end Flow

structure QueueRep (c : Pipeline) (a : Flow) : Prop where
  nworkers : c.nworkers = a.nworkers
  phase : c.phase = a.phase
  thread : ∀ w, (c.worker w).thread = a.thread w
  flushing : ∀ w, (c.worker w).flushing = a.flushing w
  queues : c.queues.Rep a.q a.Tracked a.Terminated
  flushed : ∀ w, a.flushing w = true → a.q (.incomingLocal w) = []
  unborn : ∀ w, a.nworkers ≤ w → a.q (.incomingLocal w) = [] ∧ a.q (.incoming w) = []
  outside : a.phase ≠ .round → a.q .pb = [] ∧ ∀ ln, a.q (.pbOut ln) = []
  free : ∀ n, c.isFree n = true ↔ ¬ ∃ h, n ∈ a.q h

structure SeqRep (c : Pipeline) (a : Flow) : Prop where
  seqnum : ∀ ln, c.dupecheckSeqnum ln = seqAt (a.gone ln + (a.lane ln).length)
  pbufs : ∀ ln i n, (a.lane ln)[i]? = some n → c.seqnum n = seqAt (a.gone ln + i + 1)

/-- The cursor of one worker in one list. It is meaningful while the packet before
it is still in core; the cursor of a worker thread always is. -/
structure CursorRep (wk : Worker) (w : Nat) (a : Flow) (ln : Lane) : Prop where
  base_le : a.base w ln ≤ a.pos w ln
  pos_le : a.pos w ln ≤ a.total ln
  last : wk.lastPbufSeqnum ln = if a.pos w ln = a.base w ln then 0 else seqAt (a.pos w ln)
  prevp : a.gone ln = 0 ∨ a.gone ln < a.pos w ln →
    wk.pbufGlobalPrevp ln =
      endLoc (.head (.pbufGlobal ln)) ((a.global ln).take (a.pos w ln - a.gone ln))
  inCore : a.thread w = true → a.gone ln = 0 ∨ a.gone ln < a.pos w ln

/-- A packet up to which every comparison of the purge succeeds was read by every worker
thread, if it is not the last one. -/
def LagRep (c : Pipeline) (a : Flow) : Prop :=
  a.phase = .purging → ∀ ln i, a.gone ln ≤ i → i + 1 < a.total ln →
    (∀ j, a.gone ln ≤ j → j ≤ i →
      c.workerPbufLag ln < pbufSeqnumLag (c.dupecheckSeqnum ln) (seqAt (j + 1))) →
    ∀ w < a.nworkers, a.thread w = true → i + 1 < a.pos w ln

structure Rep (c : Pipeline) (a : Flow) : Prop where
  queue : QueueRep c a
  seq : SeqRep c a
  /-- A purge leaves the last packet of a list. -/
  inCore : ∀ ln, a.gone ln = 0 ∨ a.gone ln < a.total ln
  cursor : ∀ w < a.nworkers, ∀ ln, CursorRep (c.worker w) w a ln
  lag : LagRep c a

/-! ## Parts that a step leaves alone -/

section Frame

variable {c c' : Pipeline} {a a' : Flow}

theorem SeqRep.frame (h : SeqRep c a) (hseq : c'.dupecheckSeqnum = c.dupecheckSeqnum)
    (hgone : a'.gone = a.gone) (hlane : ∀ ln, a'.lane ln = a.lane ln)
    (hpbuf : ∀ ln, ∀ n ∈ a.lane ln, c'.seqnum n = c.seqnum n) : SeqRep c' a' where
  seqnum := fun ln => by rw [hseq, hgone, hlane]; exact h.seqnum ln
  pbufs := fun ln i n hn => by
    rw [hlane] at hn
    rw [hgone, hpbuf ln n (List.mem_of_getElem? hn)]
    exact h.pbufs ln i n hn

/-- A cursor stays where it is when the list grows at its end. -/
theorem CursorRep.frame {wk wk' : Worker} {w : Nat} {ln : Lane} (h : CursorRep wk w a ln)
    (hprevp : wk'.pbufGlobalPrevp ln = wk.pbufGlobalPrevp ln)
    (hlast : wk'.lastPbufSeqnum ln = wk.lastPbufSeqnum ln)
    (hbase : a'.base w ln = a.base w ln) (hpos : a'.pos w ln = a.pos w ln)
    (hthread : a'.thread w = a.thread w) (hgone : a'.gone ln = a.gone ln)
    (hglobal : a.global ln <+: a'.global ln) : CursorRep wk' w a' ln := by
  obtain ⟨ys, hys⟩ := hglobal
  have hlen : (a'.global ln).length = (a.global ln).length + ys.length := by
    rw [← hys, List.length_append]
  have hposle := h.pos_le
  unfold Flow.total at hposle
  refine ⟨?_, ?_, ?_, ?_, ?_⟩
  · rw [hbase, hpos]
    exact h.base_le
  · rw [hpos, Flow.total, hgone, hlen]
    omega
  · rw [hlast, hbase, hpos]
    exact h.last
  · rw [hgone, hpos, hprevp]
    intro hcore
    rw [h.prevp hcore, ← hys, List.take_append_of_le_length (by omega)]
  · rw [hthread, hgone, hpos]
    exact h.inCore

/-- The lags stay good when workers read on, or start at the end. -/
theorem LagRep.frame (h : LagRep c a) (hlag : c'.workerPbufLag = c.workerPbufLag)
    (hseq : c'.dupecheckSeqnum = c.dupecheckSeqnum)
    (hphase : a'.phase = .purging → a.phase = .purging)
    (hgone : a'.gone = a.gone) (hglobal : ∀ ln, a'.global ln = a.global ln)
    (hworker : ∀ ln, ∀ w < a'.nworkers, a'.thread w = true →
      a'.pos w ln = a.total ln ∨
        (w < a.nworkers ∧ a.thread w = true ∧ a.pos w ln ≤ a'.pos w ln)) : LagRep c' a' := by
  intro hpurging ln i hi htotal hall
  have heq : a'.total ln = a.total ln := by rw [Flow.total, Flow.total, hgone, hglobal]
  rw [hgone] at hi
  rw [heq] at htotal
  rw [hgone, hlag, hseq] at hall
  intro w hw hthread
  rcases hworker ln w hw hthread with hpos | ⟨hw', hthread', hpos⟩
  · omega
  · have := h (hphase hpurging) ln i hi htotal hall w hw' hthread'
    omega

theorem LagRep.of_not_purging (h : a.phase ≠ .purging) : LagRep c a :=
  fun hpurging => absurd hpurging h

/-- A step that only moves packets among the queues before the global lists. -/
structure Untouched (c : Pipeline) (a : Flow) (c' : Pipeline) (a' : Flow) : Prop where
  nworkers : a'.nworkers = a.nworkers
  thread : a'.thread = a.thread
  base : a'.base = a.base
  pos : a'.pos = a.pos
  gone : a'.gone = a.gone
  phase : a'.phase = .purging → a.phase = .purging
  global : ∀ ln, a'.global ln = a.global ln
  out : ∀ ln, a'.q (.pbOut ln) = a.q (.pbOut ln)
  dupecheckSeqnum : c'.dupecheckSeqnum = c.dupecheckSeqnum
  lag : c'.workerPbufLag = c.workerPbufLag
  prevp : ∀ w, (c'.worker w).pbufGlobalPrevp = (c.worker w).pbufGlobalPrevp
  last : ∀ w, (c'.worker w).lastPbufSeqnum = (c.worker w).lastPbufSeqnum
  seqnum : ∀ ln, ∀ n ∈ a.lane ln, c'.seqnum n = c.seqnum n

theorem Rep.of_untouched (h : Rep c a) (hu : Untouched c a c' a') (hq : QueueRep c' a') :
    Rep c' a' where
  queue := hq
  seq := by
    refine h.seq.frame hu.dupecheckSeqnum hu.gone ?_ hu.seqnum
    intro ln
    rw [Flow.lane, Flow.lane, hu.global, hu.out]
  inCore := by
    intro ln
    rw [Flow.total, hu.gone, hu.global]
    exact h.inCore ln
  cursor := by
    intro w hw ln
    refine (h.cursor w (hu.nworkers ▸ hw) ln).frame ?_ ?_ ?_ ?_ ?_ ?_ ?_
    · rw [hu.prevp]
    · rw [hu.last]
    · rw [hu.base]
    · rw [hu.pos]
    · rw [hu.thread]
    · rw [hu.gone]
    · simp only [hu.global, List.prefix_rfl]
  lag := by
    refine h.lag.frame hu.lag hu.dupecheckSeqnum hu.phase hu.gone hu.global ?_
    intro ln w hw hthread
    rw [hu.nworkers] at hw
    rw [hu.thread] at hthread
    rw [hu.pos]
    exact .inr ⟨hw, hthread, Nat.le_refl _⟩

end Frame

/-! ## Steps of the workers -/

namespace Rep

variable {c : Pipeline} {a : Flow}

theorem init : Rep Pipeline.init Flow.init where
  queue := by
    refine ⟨rfl, rfl, fun _ => rfl, fun _ => rfl, ?_, ?_, fun _ _ => ⟨rfl, rfl⟩,
      fun _ => ⟨rfl, fun _ => rfl⟩, ?_⟩
    · refine ⟨⟨fun _ => trivial, fun _ => List.nodup_nil, ?_⟩, fun _ _ => rfl, fun _ _ => rfl,
        fun _ _ => rfl⟩
      intro h h' n hn
      cases hn
    · intro w hw
      cases hw
    · intro n
      simp [Pipeline.init, Flow.init]
  seq := by
    have hlane : ∀ ln, Flow.init.lane ln = [] := fun _ => rfl
    refine ⟨fun _ => rfl, ?_⟩
    intro ln i n hn
    simp [hlane] at hn
  inCore := fun _ => .inl rfl
  cursor := fun w hw => absurd hw (Nat.not_lt_zero w)
  lag := LagRep.of_not_purging (by decide)

theorem workerAlloc (h : Rep c a) (thread : Bool) : Rep (c.workerAlloc thread) (a.alloc thread) := by
  have hn := h.queue.nworkers
  have hglobal : ∀ ln, c.queues.last (.pbufGlobal ln) = endLoc (.head (.pbufGlobal ln)) (a.global ln) :=
    fun ln => h.queue.queues.last _ (a.tracked_global ln)
  obtain ⟨hlocal, hincoming⟩ := h.queue.unborn a.nworkers (Nat.le_refl _)
  refine ⟨⟨?_, h.queue.phase, ?_, ?_, ?_, ?_, ?_, h.queue.outside, h.queue.free⟩, ?_, ?_, ?_, ?_⟩
  · simp [Pipeline.workerAlloc, Flow.alloc, hn]
  · intro w
    by_cases hw : w = a.nworkers <;>
      simp [Pipeline.workerAlloc, Flow.alloc, hn, hw, h.queue.thread]
  · intro w
    by_cases hw : w = a.nworkers <;>
      simp [Pipeline.workerAlloc, Flow.alloc, hn, hw, h.queue.flushing]
  · simp only [Pipeline.workerAlloc, hn]
    refine ((h.queue.queues.reset hlocal).reset hincoming).mono ?_ ?_
    · rintro x (hx | hx)
      · rcases a.settled_of_alloc hx with hx | hx | hx
        · exact .inl (.inl (.inl hx))
        · exact .inl (.inr hx)
        · exact .inr hx
      · exact .inl (.inl (.inr hx))
    · rintro x (hx | hx)
      · rcases a.settled_of_alloc hx with hx | hx | hx
        · exact .inl (.inl (.inl hx))
        · exact .inl (.inr hx)
        · exact .inr hx
      · exact .inl (.inl (.inr hx))
  · intro w hw
    by_cases hwn : w = a.nworkers
    · simp [Flow.alloc, hwn] at hw
    · simp only [Flow.alloc, Function.update_of_ne hwn] at hw
      exact h.queue.flushed w hw
  · intro w hw
    exact h.queue.unborn w (Nat.le_of_succ_le hw)
  · exact h.seq.frame rfl rfl (fun _ => rfl) (fun _ _ _ => rfl)
  · exact h.inCore
  · intro w hw ln
    by_cases hwn : w = a.nworkers
    · subst hwn
      have htake : (a.global ln).take (a.total ln - a.gone ln) = a.global ln :=
        List.take_of_length_le (by simp [Flow.total])
      refine ⟨?_, ?_, ?_, ?_, ?_⟩
      · simp [Flow.alloc]
      · simp [Flow.alloc, Flow.total]
      · simp [Flow.alloc, Pipeline.workerAlloc, hn]
      · intro _
        simp [Flow.alloc, Pipeline.workerAlloc, hn, hglobal, htake]
      · intro _
        simpa [Flow.alloc] using h.inCore ln
    · have hlt : w < a.nworkers := by
        have : w < a.nworkers + 1 := hw
        omega
      refine (h.cursor w hlt ln).frame ?_ ?_ ?_ ?_ ?_ rfl List.prefix_rfl <;>
        simp [Pipeline.workerAlloc, Flow.alloc, hn, hwn]
  · refine h.lag.frame rfl rfl id rfl (fun _ => rfl) ?_
    intro ln w hw hthread
    by_cases hwn : w = a.nworkers
    · left
      simp [Flow.alloc, hwn]
    · right
      have hlt : w < a.nworkers + 1 := hw
      simp only [Flow.alloc, Function.update_of_ne hwn] at hthread ⊢
      exact ⟨by omega, hthread, Nat.le_refl _⟩

theorem queue_step (h : Rep c a) {w n : Nat} {t : Int} (hw : w < a.nworkers)
    (hflushing : a.flushing w = false) (hfresh : ∀ h, n ∉ a.q h) :
    Rep (c.queue w n t) (a.queue w n) := by
  have hne : ∀ {x}, x ≠ .incomingLocal w → (a.queue w n).q x = a.q x :=
    fun hx => Function.update_of_ne hx ..
  refine h.of_untouched ?_ ?_
  · refine ⟨rfl, rfl, rfl, rfl, rfl, id, fun _ => hne (by simp), fun _ => hne (by simp), rfl, rfl,
      fun _ => rfl, fun _ => rfl, ?_⟩
    intro ln m hm
    have hmn : m ≠ n := by
      rintro rfl
      exact (List.mem_append.mp hm).elim (hfresh _) (hfresh _)
    exact Function.update_of_ne hmn ..
  refine ⟨h.queue.nworkers, h.queue.phase, h.queue.thread, h.queue.flushing, ?_, ?_, ?_, ?_, ?_⟩
  · have hs := (h.queue.queues.write_fresh hfresh none).append (.incomingLocal w)
      (.inl ⟨hw, hflushing⟩) hfresh
    refine hs.mono (fun _ hx => hx) ?_
    intro x hx
    by_cases hxw : x = .incomingLocal w
    · exact .inr ⟨hxw, by simp⟩
    · exact .inl ⟨hx, hxw⟩
  · intro w' hw'
    have hww : w' ≠ w := by
      rintro rfl
      cases hw'.symm.trans hflushing
    rw [hne (by simpa using hww)]
    exact h.queue.flushed w' hw'
  · intro w' hw'
    have hww : w' ≠ w := by
      rintro rfl
      exact absurd hw (Nat.not_lt.mpr hw')
    rw [hne (by simpa using hww), hne (by simp)]
    exact h.queue.unborn w' hw'
  · intro hphase
    simp only [hne, ne_eq, reduceCtorEq, not_false_eq_true]
    exact h.queue.outside hphase
  · intro m
    simp only [Pipeline.queue, Flow.queue, mem_update_append]
    by_cases hm : m = n
    · simp [hm]
    · simpa [hm] using h.queue.free m

/-- A worker whose `flushing` mark is all that changes. -/
theorem setFlushing {w : Nat} {b : Bool} (h : QueueRep c a) (w' : Nat) :
    (Function.update c.worker w { c.worker w with flushing := b } w').thread = a.thread w' ∧
    (Function.update c.worker w { c.worker w with flushing := b } w').flushing =
      Function.update a.flushing w b w' := by
  by_cases hww : w' = w
  · subst hww
    simp [h.thread]
  · simp [hww, h.thread, h.flushing]

theorem incomingFlush (h : Rep c a) {w : Nat} (hw : w < a.nworkers)
    (hflushing : a.flushing w = false) (hnil : a.q (.incomingLocal w) ≠ []) :
    Rep (c.incomingFlush w) (a.flush w) := by
  have hne : ∀ {x}, x ≠ .incoming w → x ≠ .incomingLocal w → (a.flush w).q x = a.q x :=
    fun hx hx' => moved_of_ne hx hx'
  have hsettled : ∀ {x}, (a.flush w).Settled x → a.Settled x ∧ x ≠ .incomingLocal w := by
    intro x hx
    cases x with
    | incomingLocal w' =>
      obtain ⟨hlt, hflushing'⟩ := hx
      have hww : w' ≠ w := by
        rintro rfl
        simp [Flow.flush] at hflushing'
      simp only [Flow.flush, Function.update_of_ne hww] at hlt hflushing'
      exact ⟨⟨hlt, hflushing'⟩, by simpa using hww⟩
    | incoming w' => exact ⟨hx, by simp⟩
    | pb => exact hx.elim
    | pbOut ln => exact hx.elim
    | pbufGlobal ln => exact ⟨trivial, by simp⟩
  refine h.of_untouched ?_ ?_
  · refine ⟨rfl, rfl, rfl, rfl, rfl, id, fun _ => hne (by simp) (by simp),
      fun _ => hne (by simp) (by simp), rfl, rfl, ?_, ?_, fun _ _ _ => rfl⟩
    · intro w'
      by_cases hww : w' = w <;> simp [Pipeline.incomingFlush, Pipeline.setWorker, hww]
    · intro w'
      by_cases hww : w' = w <;> simp [Pipeline.incomingFlush, Pipeline.setWorker, hww]
  refine ⟨h.queue.nworkers, h.queue.phase, fun w' => (setFlushing h.queue w').1,
    fun w' => (setFlushing h.queue w').2, ?_, ?_, ?_, ?_, ?_⟩
  · have hs := h.queue.queues.splice (.incoming w) (.incomingLocal w) (by simp)
      (.inl hw) (.inl ⟨hw, hflushing⟩) hnil
    refine hs.mono ?_ ?_
    · rintro x (hx | ⟨ln, rfl, hphase⟩)
      · exact ⟨.inl (hsettled hx).1, (hsettled hx).2⟩
      · exact ⟨.inr ⟨ln, rfl, hphase⟩, by simp⟩
    · rintro x (hx | rfl)
      · by_cases hxw : x = .incoming w
        · exact .inr ⟨hxw, .inl ⟨hw, hflushing⟩⟩
        · exact .inl ⟨.inl (hsettled hx).1, hxw, (hsettled hx).2⟩
      · exact .inl ⟨.inr rfl, by simp, by simp⟩
  · intro w' hw'
    by_cases hww : w' = w
    · subst hww
      exact moved_right
    · simp only [Flow.flush, Function.update_of_ne hww] at hw'
      rw [hne (by simp) (by simpa using hww)]
      exact h.queue.flushed w' hw'
  · intro w' hw'
    have hww : w' ≠ w := by
      rintro rfl
      exact absurd hw (Nat.not_lt.mpr hw')
    rw [hne (by simp) (by simpa using hww), hne (by simpa using hww) (by simp)]
    exact h.queue.unborn w' hw'
  · intro hphase
    simp only [hne, ne_eq, reduceCtorEq, not_false_eq_true]
    exact h.queue.outside hphase
  · intro m
    rw [show (∃ x, m ∈ (a.flush w).q x) ↔ _ from exists_mem_moved (by simp)]
    exact h.queue.free m

theorem incomingFlushClean (h : Rep c a) {w : Nat} (hflushing : a.flushing w = true) :
    Rep (c.incomingFlushClean w) (a.clean w) := by
  refine h.of_untouched ?_ ?_
  · refine ⟨rfl, rfl, rfl, rfl, rfl, id, fun _ => rfl, fun _ => rfl, rfl, rfl, ?_, ?_,
      fun _ _ _ => rfl⟩
    · intro w'
      by_cases hww : w' = w <;> simp [Pipeline.incomingFlushClean, Pipeline.setWorker, hww]
    · intro w'
      by_cases hww : w' = w <;> simp [Pipeline.incomingFlushClean, Pipeline.setWorker, hww]
  have hsettled : ∀ {x}, (a.clean w).Settled x → a.Settled x ∨ x = .incomingLocal w := by
    intro x hx
    cases x with
    | incomingLocal w' =>
      by_cases hww : w' = w
      · exact .inr (by rw [hww])
      · simp only [Flow.Settled, Flow.clean, Function.update_of_ne hww] at hx
        exact .inl hx
    | incoming w' => exact .inl hx
    | pb => exact hx.elim
    | pbOut ln => exact hx.elim
    | pbufGlobal ln => exact .inl trivial
  refine ⟨h.queue.nworkers, h.queue.phase, fun w' => (setFlushing h.queue w').1,
    fun w' => (setFlushing h.queue w').2, ?_, ?_, h.queue.unborn, h.queue.outside, h.queue.free⟩
  · refine (h.queue.queues.reset (h.queue.flushed w hflushing)).mono ?_ ?_
    · rintro x (hx | hx)
      · exact (hsettled hx).imp_left .inl
      · exact .inl (.inr hx)
    · rintro x (hx | hx)
      · exact (hsettled hx).imp_left .inl
      · exact .inl (.inr hx)
  · intro w' hw'
    by_cases hww : w' = w
    · exact hww ▸ h.queue.flushed w hflushing
    · simp only [Flow.clean, Function.update_of_ne hww] at hw'
      exact h.queue.flushed w' hw'

/-! ## The dupecheck round -/

theorem roundStart (h : Rep c a) (hphase : a.phase = .idle) :
    Rep c.roundStart { a with phase := .round } := by
  have hout := (h.queue.outside (by rw [hphase]; decide)).2
  refine h.of_untouched ?_ ?_
  · exact ⟨rfl, rfl, rfl, rfl, rfl, nofun, fun _ => rfl, fun _ => rfl, rfl, rfl,
      fun _ => rfl, fun _ => rfl, fun _ _ _ => rfl⟩
  refine ⟨h.queue.nworkers, rfl, h.queue.thread, h.queue.flushing, ?_, h.queue.flushed,
    h.queue.unborn, fun hx => absurd rfl hx, h.queue.free⟩
  refine ((h.queue.queues.reset (hout .main)).reset (hout .dupe)).mono ?_ ?_
  · rintro x (hx | ⟨ln, rfl, -⟩)
    · exact .inl (.inl (.inl hx))
    · cases ln with
      | main => exact .inl (.inr rfl)
      | dupe => exact .inr rfl
  · exact fun x hx => .inl (.inl hx)

theorem drain (h : Rep c a) {w : Nat} (hphase : a.phase = .round) (hpb : a.q .pb = [])
    (hw : w < a.nworkers) : Rep (c.drain w) (a.drain w) := by
  have hne : ∀ {x}, x ≠ .pb → x ≠ .incoming w → (a.drain w).q x = a.q x :=
    fun hx hx' => moved_of_ne hx hx'
  refine h.of_untouched ?_ ?_
  · exact ⟨rfl, rfl, rfl, rfl, rfl, id, fun _ => hne (by simp) (by simp),
      fun _ => hne (by simp) (by simp), rfl, rfl, fun _ => rfl, fun _ => rfl, fun _ _ _ => rfl⟩
  refine ⟨h.queue.nworkers, h.queue.phase, h.queue.thread, h.queue.flushing, ?_, ?_, ?_, ?_, ?_⟩
  · have hs := (h.queue.queues.move .pb (.incoming w) (by simp)).reset moved_right
    rw [hpb, endLoc_nil] at hs
    refine hs.mono ?_ ?_
    · rintro x (hx | ⟨ln, rfl, -⟩)
      · by_cases hxw : x = .incoming w
        · exact .inr hxw
        · refine .inl ⟨.inl hx, ?_, hxw⟩
          rintro rfl
          exact hx
      · exact .inl ⟨.inr ⟨ln, rfl, hphase⟩, by simp, by simp⟩
    · rintro x (hx | rfl)
      · by_cases hxw : x = .incoming w
        · exact .inr hxw
        · refine .inl (.inl ⟨.inl hx, ?_, hxw⟩)
          rintro rfl
          exact hx
      · exact .inl (.inr ⟨rfl, .inl hw⟩)
  · intro w' hw'
    rw [hne (by simp) (by simp)]
    exact h.queue.flushed w' hw'
  · intro w' hw'
    have hww : w' ≠ w := by
      rintro rfl
      exact absurd hw (Nat.not_lt.mpr hw')
    rw [hne (by simp) (by simp), hne (by simp) (by simpa using hww)]
    exact h.queue.unborn w' hw'
  · exact fun hx => absurd hphase hx
  · intro m
    rw [show (∃ x, m ∈ (a.drain w).q x) ↔ _ from exists_mem_moved (by simp)]
    exact h.queue.free m

end Rep

/-! ### A packet is sorted into an output chain -/

section Check

variable {c : Pipeline} {a : Flow} {ln : Lane} {n : Nat} {ns : List Nat}

theorem QueueRep.check (h : QueueRep c a) (hphase : a.phase = .round) (hpb : a.q .pb = n :: ns) :
    QueueRep (c.check n ln) (a.check ln n ns) := by
  have htracked : a.Tracked (.pbOut ln) := .inr ⟨ln, rfl, hphase⟩
  have hsettled : ∀ {x}, a.Settled x → x ≠ .pb ∧ x ≠ .pbOut ln := by
    intro x hx
    constructor <;> rintro rfl <;> exact hx
  refine ⟨h.nworkers, h.phase, h.thread, h.flushing, ?_, ?_, ?_, fun hx => absurd hphase hx, ?_⟩
  · have hdiff : (Loc.head .pb : PbufLoc) ≠ c.queues.last (.pbOut ln) := by
      rw [h.queues.last _ htracked]
      intro heq
      rcases endLoc_cases (.head (.pbOut ln) : PbufLoc) (a.q (.pbOut ln)) with ⟨-, he⟩ | ⟨k, -, he⟩ <;>
        cases heq.trans he
    have happ := (h.queues.advance hpb).append (.pbOut ln) ⟨htracked, by simp⟩
      (h.queues.queues.not_mem_update_tail hpb)
    rw [← Store.append_write_comm hdiff, Function.update_of_ne (by simp)] at happ
    refine happ.mono ?_ ?_
    · rintro x (hx | ⟨ln', rfl, -⟩)
      · exact ⟨.inl hx, (hsettled hx).1⟩
      · exact ⟨.inr ⟨ln', rfl, hphase⟩, by simp⟩
    · rintro x (hx | rfl)
      · exact .inl ⟨.inl hx, (hsettled hx).2⟩
      · exact .inl ⟨.inr rfl, by simp⟩
  · intro w hw
    rw [Flow.check_q_of_ne (by simp) (by simp)]
    exact h.flushed w hw
  · intro w hw
    rw [Flow.check_q_of_ne (by simp) (by simp), Flow.check_q_of_ne (by simp) (by simp)]
    exact h.unborn w hw
  · intro m
    rw [Flow.exists_mem_check hpb]
    exact h.free m

/-- The sorted packet gets the next sequence number. -/
theorem SeqRep.check (h : SeqRep c a) (hfresh : ∀ ln', n ∉ a.lane ln') :
    SeqRep (c.check n ln) (a.check ln n ns) := by
  have hnew : (c.check n ln).seqnum n = seqAt (a.gone ln + (a.lane ln).length + 1) := by
    simp only [Pipeline.check, Function.update_self, h.seqnum ln]
    exact (seqAt_succ _).symm
  have hold : ∀ {ln' i m}, (a.lane ln')[i]? = some m →
      (c.check n ln).seqnum m = seqAt (a.gone ln' + i + 1) := by
    intro ln' i m hm
    have hmn : m ≠ n := fun heq => hfresh ln' (heq ▸ List.mem_of_getElem? hm)
    have hseqnum : (c.check n ln).seqnum m = c.seqnum m := Function.update_of_ne hmn ..
    rw [hseqnum]
    exact h.pbufs ln' i m hm
  refine ⟨?_, ?_⟩
  · intro ln'
    have hseq := h.seqnum ln'
    by_cases hln : ln' = ln
    · subst hln
      rw [Flow.check_lane, List.length_append]
      simp only [Pipeline.check, Function.update_self, hseq]
      exact (seqAt_succ _).symm
    · rw [Flow.check_lane_of_ne hln]
      simpa [Pipeline.check, Flow.check, hln] using hseq
  · intro ln' i m hm
    by_cases hln : ln' = ln
    · subst hln
      rw [Flow.check_lane, List.getElem?_append] at hm
      split at hm
      · exact hold hm
      · rw [List.getElem?_singleton] at hm
        split at hm
        · cases hm
          obtain rfl : i = (a.lane ln').length := by omega
          exact hnew
        · cases hm
    · rw [Flow.check_lane_of_ne hln] at hm
      exact hold hm

theorem Rep.check (h : Rep c a) (hphase : a.phase = .round) (hpb : a.q .pb = n :: ns) :
    Rep (c.check n ln) (a.check ln n ns) where
  queue := h.queue.check hphase hpb
  seq := by
    refine h.seq.check ?_
    intro ln' hn
    have hnpb : n ∈ a.q .pb := hpb ▸ List.mem_cons_self
    rcases List.mem_append.mp hn with hn | hn
    · exact absurd (h.queue.queues.queues.unique hn hnpb) (by simp)
    · exact absurd (h.queue.queues.queues.unique hn hnpb) (by simp)
  inCore := by
    intro ln'
    rw [Flow.total, Flow.check_global]
    exact h.inCore ln'
  cursor := by
    intro w hw ln'
    refine (h.cursor w hw ln').frame rfl rfl rfl rfl rfl rfl ?_
    simp only [Flow.check_global, List.prefix_rfl]
  lag := by
    refine LagRep.of_not_purging ?_
    rw [show (a.check ln n ns).phase = .round from hphase]
    decide

end Check

namespace Rep

variable {c : Pipeline} {a : Flow}

/-- A terminated output chain is appended to its global list. -/
theorem publish_queues {q : Head → List Nat} {T S : Head → Prop} (hr : c.queues.Rep q T S)
    {ln : Lane} (hglobal : T (.pbufGlobal ln)) (hout : T (.pbOut ln)) (hend : S (.pbOut ln)) :
    (c.publish ln).queues.Rep (moved q (.pbufGlobal ln) (.pbOut ln))
      (fun x => T x ∧ x ≠ .pbOut ln) (fun x => S x ∧ x ≠ .pbOut ln) := by
  unfold Pipeline.publish
  split
  · next hnull =>
    rw [moved_of_nil (hr.queues.eq_nil hnull)]
    exact hr.mono (fun _ hx => hx.1) (fun _ hx => hx.1)
  · next hsome =>
    have hnil : q (.pbOut ln) ≠ [] := by
      intro hnil
      have := hr.terminated _ hend
      rw [Sealed, hnil] at this
      exact hsome this
    refine (hr.splice (.pbufGlobal ln) (.pbOut ln) (by simp) hglobal hout hnil).mono
      (fun _ hx => hx) ?_
    rintro x ⟨hx, hxo⟩
    by_cases hxg : x = .pbufGlobal ln
    · exact .inr ⟨hxg, hend⟩
    · exact .inl ⟨hx, hxg, hxo⟩

theorem roundEnd (h : Rep c a) (hphase : a.phase = .round) (hpb : a.q .pb = []) :
    Rep c.roundEnd a.roundEnd := by
  have hne : ∀ {x}, (∀ ln, x ≠ .pbufGlobal ln ∧ x ≠ .pbOut ln) → a.roundEnd.q x = a.q x :=
    Flow.roundEnd_q_of_ne
  have htracked : ∀ ln, a.Tracked (.pbOut ln) := fun ln => .inr ⟨ln, rfl, hphase⟩
  have hqueues : c.roundEnd.queues.Rep a.roundEnd.q a.roundEnd.Tracked a.roundEnd.Terminated := by
    have hend := (h.queue.queues.terminate (htracked .main)).terminate (htracked .dupe)
    have hmain := publish_queues (c := { c with
      queues := (c.queues.terminate (.pbOut .main)).terminate (.pbOut .dupe) }) hend
      (a.tracked_global .main) (htracked .main) (.inl (.inr rfl))
    have hdupe := publish_queues hmain ⟨a.tracked_global .dupe, by simp⟩
      ⟨htracked .dupe, by simp⟩ ⟨.inr rfl, by simp⟩
    refine hdupe.mono ?_ ?_
    · rintro x (hx | ⟨ln, -, hidle⟩)
      · refine ⟨⟨.inl hx, ?_⟩, ?_⟩ <;> rintro rfl <;> exact hx
      · cases hidle
    · rintro x (hx | rfl)
      · refine ⟨⟨.inl (.inl (.inl hx)), ?_⟩, ?_⟩ <;> rintro rfl <;> exact hx
      · exact ⟨⟨.inl (.inl (.inr rfl)), by simp⟩, by simp⟩
  have heq : c.roundEnd = { c with queues := c.roundEnd.queues, phase := .idle } := by
    simp only [Pipeline.roundEnd, Pipeline.publish]
    split <;> split <;> rfl
  rw [heq]
  refine ⟨⟨h.queue.nworkers, rfl, h.queue.thread, h.queue.flushing, hqueues, ?_, ?_, ?_, ?_⟩,
    h.seq.frame rfl rfl a.roundEnd_lane (fun _ _ _ => rfl), ?_, ?_, LagRep.of_not_purging nofun⟩
  · intro w hw
    rw [hne (by simp)]
    exact h.queue.flushed w hw
  · intro w hw
    rw [hne (by simp), hne (by simp)]
    exact h.queue.unborn w hw
  · intro _
    rw [hne (by simp)]
    exact ⟨hpb, a.roundEnd_out⟩
  · intro m
    rw [Flow.exists_mem_roundEnd]
    exact h.queue.free m
  · intro ln
    have hcore := h.inCore ln
    rw [Flow.total] at hcore
    rw [Flow.total, Flow.roundEnd_global, List.length_append]
    exact hcore.imp_right fun hlt => by omega
  · intro w hw ln
    refine (h.cursor w hw ln).frame rfl rfl rfl rfl rfl rfl ?_
    rw [Flow.roundEnd_global]
    exact List.prefix_append _ _

/-! ## Outgoing packets -/

/-- From its cursor on, a worker thread finds its unread packets. -/
theorem pending_chain (h : Rep c a) {w : Nat} (hw : w < a.nworkers) (hthread : a.thread w = true)
    (ln : Lane) :
    Chain c.queues.mem ((c.worker w).pbufGlobalPrevp ln) (a.pending w ln) ∧
      c.queues.mem (endLoc ((c.worker w).pbufGlobalPrevp ln) (a.pending w ln)) = none := by
  have hcur := h.cursor w hw ln
  have hchain : Chain c.queues.mem (.head (.pbufGlobal ln)) (a.global ln) :=
    h.queue.queues.queues.chain (.pbufGlobal ln)
  have hend : c.queues.mem (endLoc (.head (.pbufGlobal ln)) (a.global ln)) = none :=
    h.queue.queues.terminated _ (a.terminated_global ln)
  rw [hcur.prevp (hcur.inCore hthread)]
  rw [← List.take_append_drop (a.pos w ln - a.gone ln) (a.global ln)] at hchain hend
  rw [endLoc_append] at hend
  exact ⟨(Chain.append.mp hchain).2, hend⟩

theorem mem_prevp (h : Rep c a) {w : Nat} (hw : w < a.nworkers) (hthread : a.thread w = true)
    (ln : Lane) : c.queues.mem ((c.worker w).pbufGlobalPrevp ln) = (a.pending w ln).head? := by
  obtain ⟨hchain, hend⟩ := h.pending_chain hw hthread ln
  cases hpending : a.pending w ln with
  | nil =>
    rw [hpending] at hend
    exact hend
  | cons n ns =>
    rw [hpending] at hchain
    exact hchain.1

theorem processOutgoing (h : Rep c a) {w n : Nat} {ln : Lane} {ns : List Nat} {d : Disposition}
    (hw : w < a.nworkers) (hthread : a.thread w = true) (hpending : a.pending w ln = n :: ns) :
    Rep (c.processOutgoing w ln n d) (a.visit w ln) := by
  have hcur := h.cursor w hw ln
  have hcore := hcur.inCore hthread
  have hgone : a.gone ln ≤ a.pos w ln := by omega
  have hget : (a.global ln)[a.pos w ln - a.gone ln]? = some n := by
    have := congrArg List.head? hpending
    rwa [Flow.pending, List.head?_drop] at this
  have hlt : a.pos w ln - a.gone ln < (a.global ln).length := (List.getElem?_eq_some_iff.mp hget).1
  refine ⟨⟨h.queue.nworkers, h.queue.phase, ?_, ?_, h.queue.queues, h.queue.flushed,
    h.queue.unborn, h.queue.outside, h.queue.free⟩,
    h.seq.frame rfl rfl (fun _ => rfl) (fun _ _ _ => rfl), h.inCore, ?_, ?_⟩
  · intro w'
    by_cases hww : w' = w <;>
      simp [Pipeline.processOutgoing, Pipeline.setWorker, Flow.visit, hww, h.queue.thread]
  · intro w'
    by_cases hww : w' = w <;>
      simp [Pipeline.processOutgoing, Pipeline.setWorker, Flow.visit, hww, h.queue.flushing]
  · intro w' hw' ln'
    by_cases hsame : w' = w ∧ ln' = ln
    · obtain ⟨rfl, rfl⟩ := hsame
      have hpos : (a.visit w' ln').pos w' ln' = a.pos w' ln' + 1 := by simp [Flow.visit]
      have hbase := hcur.base_le
      have hseqnum := h.seq.pbufs ln' (a.pos w' ln' - a.gone ln') n
        (by rw [Flow.lane, List.getElem?_append_left hlt]; exact hget)
      refine ⟨?_, ?_, ?_, ?_, ?_⟩
      · rw [hpos]
        exact Nat.le_succ_of_le hcur.base_le
      · rw [hpos]
        simp only [Flow.total, Flow.visit, Flow.global] at hlt ⊢
        omega
      · rw [hpos, if_neg (by simp only [Flow.visit]; omega)]
        simp only [Pipeline.processOutgoing, Pipeline.setWorker, Function.update_self, hseqnum]
        congr 1
        omega
      · intro _
        rw [hpos]
        have hsub : a.pos w' ln' + 1 - a.gone ln' = a.pos w' ln' - a.gone ln' + 1 := by omega
        simp only [Pipeline.processOutgoing, Pipeline.setWorker, Function.update_self, Flow.visit,
          Flow.global, hsub]
        rw [List.take_add_one, hget]
        simp
      · intro _
        rw [hpos]
        simp only [Flow.visit]
        omega
    · refine (h.cursor w' hw' ln').frame ?_ ?_ rfl ?_ rfl rfl List.prefix_rfl
      · by_cases hww : w' = w
        · have hln : ln' ≠ ln := fun heq => hsame ⟨hww, heq⟩
          simp [Pipeline.processOutgoing, Pipeline.setWorker, hww, hln]
        · simp [Pipeline.processOutgoing, Pipeline.setWorker, hww]
      · by_cases hww : w' = w
        · have hln : ln' ≠ ln := fun heq => hsame ⟨hww, heq⟩
          simp [Pipeline.processOutgoing, Pipeline.setWorker, hww, hln]
        · simp [Pipeline.processOutgoing, Pipeline.setWorker, hww]
      · by_cases hww : w' = w
        · have hln : ln' ≠ ln := fun heq => hsame ⟨hww, heq⟩
          simp [Flow.visit, hww, hln]
        · simp [Flow.visit, hww]
  · refine h.lag.frame rfl rfl id rfl (fun _ => rfl) ?_
    intro ln' w' hw' hthread'
    refine .inr ⟨hw', hthread', ?_⟩
    by_cases hww : w' = w
    · subst hww
      by_cases hln : ln' = ln <;> simp [Flow.visit, hln]
    · simp [Flow.visit, hww]

/-! ## The purge -/

end Rep

theorem Pipeline.workerLag_eq (c : Pipeline) (ln : Lane) (wk : Worker) :
    c.workerLag ln wk = pbufSeqnumLag (c.dupecheckSeqnum ln) (wk.lastPbufSeqnum ln) := by
  simp only [workerLag]
  split
  · next h => simp [pbufSeqnumLag, h.2]
  · rfl

/-- A running maximum is not below its start, and not below any value it saw. -/
theorem le_foldl_max {α : Type*} (f : α → Int) (xs : List α) (m : Int) :
    m ≤ xs.foldl (fun m x => if f x > m then f x else m) m ∧
      ∀ x ∈ xs, f x ≤ xs.foldl (fun m x => if f x > m then f x else m) m := by
  induction xs generalizing m with
  | nil => simp
  | cons y ys ih =>
    obtain ⟨h1, h2⟩ := ih (if f y > m then f y else m)
    have hstep : m ≤ (if f y > m then f y else m) ∧ f y ≤ (if f y > m then f y else m) := by
      split <;> omega
    refine ⟨Int.le_trans hstep.1 h1, ?_⟩
    intro x hx
    rcases List.mem_cons.mp hx with rfl | hx
    · exact Int.le_trans hstep.2 h1
    · exact h2 x hx

theorem Pipeline.le_lagScan (c : Pipeline) (ln : Lane) {w : Nat} (hw : w < c.nworkers)
    (hthread : (c.worker w).thread = true) :
    pbufSeqnumLag (c.dupecheckSeqnum ln) ((c.worker w).lastPbufSeqnum ln) ≤
      c.lagScan.workerPbufLag ln := by
  rw [← workerLag_eq]
  refine (le_foldl_max (c.workerLag ln) c.workerThreads (-1)).2 _ ?_
  exact List.mem_filter.mpr ⟨List.mem_map.mpr ⟨w, List.mem_range.mpr hw, rfl⟩, hthread⟩

/-- A packet is as many packets from the end as its lag says. -/
theorem pbufSeqnumLag_seqAt {i total : Nat} (hne : seqAt i ≠ 0) (hle : i ≤ total)
    (hclose : total < i + 2 ^ 31) : pbufSeqnumLag (seqAt total) (seqAt i) = total - i := by
  rw [pbufSeqnumLag, if_neg hne, seqAt_sub_toInt hle hclose]

/-- A worker whose lag is below that of a packet has read on past the packet. The
comparison alone does not say so for the packet with sequence number 0, but the
purge gets there only from the packet before it. -/
theorem pos_of_lag {gone i pos total : Nat} {lag : Int} {last : BitVec 32} (hi : gone ≤ i)
    (htotal : i < total) (hcore : total < gone + 2000000000) (hpos : pos ≤ total)
    (hin : gone = 0 ∨ gone < pos) (hlast : last = 0 ∨ last = seqAt pos)
    (hle : pbufSeqnumLag (seqAt total) last ≤ lag)
    (hall : ∀ j, gone ≤ j → j ≤ i → lag < pbufSeqnumLag (seqAt total) (seqAt (j + 1))) :
    i + 1 < pos := by
  have hpb : ∀ j, gone ≤ j → j ≤ i → seqAt (j + 1) ≠ 0 → lag < total - (j + 1) := by
    intro j hj hji hne
    have hlt := hall j hj hji
    rw [pbufSeqnumLag_seqAt hne (by omega) (by omega)] at hlt
    omega
  have hbound : lag < 2000000000 := by
    by_cases hzero : seqAt (i + 1) = 0
    · have hlt := hall i hi (Nat.le_refl i)
      rw [hzero] at hlt
      simpa [pbufSeqnumLag] using hlt
    · have hlt := hpb i hi (Nat.le_refl i) hzero
      omega
  have hnz : last ≠ 0 := by
    rintro rfl
    simp only [pbufSeqnumLag, if_true] at hle
    omega
  obtain rfl : last = seqAt pos := hlast.resolve_left hnz
  rw [pbufSeqnumLag_seqAt hnz hpos (by omega)] at hle
  by_cases hzero : seqAt (i + 1) = 0
  · have hne : pos ≠ i + 1 := fun heq => hnz (heq ▸ hzero)
    have hpast : i < pos := by
      by_cases hfirst : i = gone
      · rcases hin with hgone | hgone
        · rw [hfirst, hgone] at hzero
          exact absurd hzero seqAt_one_ne_zero
        · omega
      · obtain ⟨k, rfl⟩ : ∃ k, i = k + 1 := ⟨i - 1, by omega⟩
        have hlt := hpb k (by omega) (by omega) (seqAt_ne_zero_of_succ hzero)
        omega
    omega
  · have hlt := hpb i hi (Nat.le_refl i) hzero
    omega

namespace Rep

variable {c : Pipeline} {a : Flow}

/-- The lags that the dupecheck thread finds are good for the purge. -/
theorem lagScan (h : Rep c a) (hphase : a.phase = .idle)
    (hcore : ∀ ln, (a.global ln).length < 2000000000) :
    Rep c.lagScan { a with phase := .purging } := by
  have hpb := h.queue.outside (by rw [hphase]; decide)
  have hqueues : c.lagScan.queues.Rep a.q ({ a with phase := Phase.purging } : Flow).Tracked
      a.Terminated := by
    refine h.queue.queues.mono ?_ (fun _ hx => hx)
    rintro x (hx | ⟨ln, -, hround⟩)
    · exact .inl hx
    · cases hround
  refine ⟨⟨h.queue.nworkers, rfl, h.queue.thread, h.queue.flushing, hqueues, h.queue.flushed,
    h.queue.unborn, fun _ => hpb, h.queue.free⟩,
    h.seq.frame rfl rfl (fun _ => rfl) (fun _ _ _ => rfl), h.inCore, ?_, ?_⟩
  · intro w hw ln
    exact (h.cursor w hw ln).frame rfl rfl rfl rfl rfl rfl List.prefix_rfl
  rintro - ln i hi htotal hall
  have hseq : c.dupecheckSeqnum ln = seqAt (a.total ln) := by
    rw [h.seq.seqnum, Flow.lane, hpb.2, List.append_nil, Flow.total]
  rw [show c.lagScan.dupecheckSeqnum ln = _ from hseq] at hall
  have hlen : a.total ln < a.gone ln + 2000000000 := Nat.add_lt_add_left (hcore ln) _
  intro w hw hthread
  have hcur := h.cursor w hw ln
  have hle := c.le_lagScan ln (h.queue.nworkers ▸ hw) (by rw [h.queue.thread]; exact hthread)
  rw [hseq] at hle
  refine pos_of_lag hi (Nat.lt_of_succ_lt htotal) hlen hcur.pos_le (hcur.inCore hthread) ?_ hle hall
  rw [hcur.last]
  split
  · exact .inl rfl
  · exact .inr rfl

end Rep

/-! ### The first packet of a list is unlinked and freed -/

section Unlink

variable {c : Pipeline} {a : Flow} {ln : Lane} {n k : Nat} {ns : List Nat}

theorem QueueRep.unlink (h : QueueRep c a) (hq : a.global ln = n :: k :: ns) :
    QueueRep { c with
      queues := c.queues.unlink (.pbufGlobal ln) n
      isFree := Function.update c.isFree n true } (a.unlink ln) := by
  refine ⟨h.nworkers, h.phase, h.thread, h.flushing, ?_, ?_, ?_, ?_, ?_⟩
  · rw [Flow.unlink_q hq]
    exact h.queues.unlink (h := .pbufGlobal ln) hq
  · intro w hw
    rw [Flow.unlink_q_of_ne (by simp)]
    exact h.flushed w hw
  · intro w hw
    rw [Flow.unlink_q_of_ne (by simp), Flow.unlink_q_of_ne (by simp)]
    exact h.unborn w hw
  · intro hround
    simp only [Flow.unlink_q_of_ne, ne_eq, reduceCtorEq, not_false_eq_true]
    exact h.outside hround
  · intro m
    rw [Flow.unlink_q hq, h.queues.queues.exists_mem_update_tail (h := .pbufGlobal ln) hq]
    by_cases hm : m = n
    · subst hm
      simp
    · simpa [hm] using h.free m

theorem SeqRep.unlink (h : SeqRep c a) (hq : a.global ln = n :: ns) : SeqRep c (a.unlink ln) := by
  refine ⟨?_, ?_⟩
  · intro ln'
    have hseq := h.seqnum ln'
    by_cases hln : ln' = ln
    · subst hln
      rw [Flow.lane_eq_cons_unlink hq, List.length_cons] at hseq
      rw [Flow.unlink_gone, hseq]
      congr 1
      omega
    · rw [Flow.unlink_lane_of_ne hln, Flow.unlink_gone_of_ne hln]
      exact hseq
  · intro ln' i m hm
    by_cases hln : ln' = ln
    · subst hln
      have hcons : (a.lane ln')[i + 1]? = some m := by
        rw [Flow.lane_eq_cons_unlink hq, List.getElem?_cons_succ]
        exact hm
      rw [Flow.unlink_gone, h.pbufs ln' (i + 1) m hcons]
      congr 1
      omega
    · rw [Flow.unlink_lane_of_ne hln] at hm
      rw [Flow.unlink_gone_of_ne hln]
      exact h.pbufs ln' i m hm

theorem CursorRep.unlink {wk : Worker} {w : Nat} (h : CursorRep wk w a ln)
    (hq : a.global ln = n :: k :: ns)
    (hread : a.thread w = true → a.gone ln + 1 < a.pos w ln) : CursorRep wk w (a.unlink ln) ln := by
  refine ⟨h.base_le, ?_, h.last, ?_, ?_⟩
  · rw [Flow.unlink_total hq]
    exact h.pos_le
  · rw [Flow.unlink_gone]
    intro hpos
    have hpos : a.gone ln + 1 < a.pos w ln := hpos.resolve_left (Nat.succ_ne_zero _)
    -- the packet before the cursor is not the one that goes
    obtain ⟨j, hj⟩ : ∃ j, a.pos w ln - (a.gone ln + 1) = j + 1 :=
      ⟨a.pos w ln - (a.gone ln + 1) - 1, by omega⟩
    have hj' : a.pos w ln - a.gone ln = j + 2 := by omega
    have hprevp := h.prevp (.inr (by omega))
    rw [hq, hj'] at hprevp
    rw [Flow.unlink_global hq, show (a.unlink ln).pos w ln - (a.gone ln + 1) = j + 1 from hj]
    exact hprevp
  · intro hthread
    rw [Flow.unlink_gone]
    exact .inr (hread hthread)

/-- The comparisons go on with the next packet. -/
theorem LagRep.unlink (h : LagRep c a) (hq : a.global ln = n :: ns)
    (hlag : c.workerPbufLag ln < pbufSeqnumLag (c.dupecheckSeqnum ln) (seqAt (a.gone ln + 1))) :
    LagRep c (a.unlink ln) := by
  intro hphase ln' i hi htotal hall
  rw [Flow.unlink_total hq] at htotal
  refine h hphase ln' i ?_ htotal ?_
  · by_cases hln : ln' = ln
    · subst hln
      rw [Flow.unlink_gone] at hi
      omega
    · rwa [Flow.unlink_gone_of_ne hln] at hi
  · intro j hj hji
    by_cases hln : ln' = ln
    · subst hln
      by_cases hfirst : j = a.gone ln'
      · exact hfirst ▸ hlag
      · exact hall j (by rw [Flow.unlink_gone]; omega) hji
    · exact hall j (by rwa [Flow.unlink_gone_of_ne hln]) hji

theorem Rep.unlink (h : Rep c a) (hq : a.global ln = n :: k :: ns) (hmay : a.MayUnlink ln)
    (hlag : c.workerPbufLag ln < pbufSeqnumLag (c.dupecheckSeqnum ln) (seqAt (a.gone ln + 1))) :
    Rep { c with
          queues := c.queues.unlink (.pbufGlobal ln) n
          isFree := Function.update c.isFree n true } (a.unlink ln) where
  queue := h.queue.unlink hq
  seq := ⟨(h.seq.unlink hq).seqnum, (h.seq.unlink hq).pbufs⟩
  inCore := by
    intro ln'
    rw [Flow.unlink_total hq]
    by_cases hln : ln' = ln
    · subst hln
      rw [Flow.unlink_gone]
      exact .inr hmay.1
    · rw [Flow.unlink_gone_of_ne hln]
      exact h.inCore ln'
  cursor := by
    intro w hw ln'
    by_cases hln : ln' = ln
    · subst hln
      exact (h.cursor w hw ln').unlink hq (hmay.2 w hw)
    · refine (h.cursor w hw ln').frame rfl rfl rfl rfl rfl (Flow.unlink_gone_of_ne hln) ?_
      simp only [Flow.unlink_global_of_ne hln, List.prefix_rfl]
  lag := h.lag.unlink hq hlag

end Unlink

namespace Rep

variable {c : Pipeline} {a : Flow}

/-- The loop of the purge only unlinks packets that may go. It leaves the last packet of
the list even when no worker lags behind, since it keeps a minimum of packets. -/
theorem purgeLoop {limit : Int} (hlimit : 0 < limit) (expire : Int) (ln : Lane) (fuel : Nat)
    {c : Pipeline} {a : Flow} (h : Rep c a) (hphase : a.phase = .purging) :
    ∃ a', Flow.Purge a (c.purgeLoop limit expire (c.workerPbufLag ln) ln fuel).2 a' ∧
      Rep (c.purgeLoop limit expire (c.workerPbufLag ln) ln fuel).1 a' ∧ a'.phase = .purging := by
  induction fuel generalizing c a with
  | zero => exact ⟨a, .done, h, hphase⟩
  | succ fuel ih =>
    unfold Pipeline.purgeLoop
    cases hhead : c.queues.mem (.head (.pbufGlobal ln)) with
    | none => exact ⟨a, .done, h, hphase⟩
    | some n =>
      dsimp only
      split
      · next hcond =>
        obtain ⟨hcount, -, hlag⟩ := hcond
        obtain ⟨rest, hrest⟩ := h.queue.queues.queues.eq_cons
          (h.queue.queues.terminated _ (a.terminated_global ln)) hhead
        have hq : a.global ln = n :: rest := hrest
        have hlane : (a.lane ln)[0]? = some n := by simp [Flow.lane, hq]
        rw [h.seq.pbufs ln 0 n hlane, Nat.add_zero] at hlag
        cases rest with
        | nil =>
          have hone : c.queues.count (.pbufGlobal ln) = (a.global ln).length :=
            h.queue.queues.count _ (a.tracked_global ln)
          rw [hq, List.length_singleton] at hone
          omega
        | cons k ns =>
          have hlt : a.gone ln + 1 < a.total ln := by simp [Flow.total, hq]
          have hmay : a.MayUnlink ln := by
            refine ⟨hlt, h.lag hphase ln (a.gone ln) (Nat.le_refl _) hlt ?_⟩
            intro j hj hj'
            obtain rfl : j = a.gone ln := by omega
            exact hlag
          obtain ⟨a', hpurge, hrep, hpurging⟩ := ih (h.unlink hq hmay hlag) hphase
          exact ⟨a', .unlink hq hmay hpurge, hrep, hpurging⟩
      · exact ⟨a, .done, h, hphase⟩

end Rep

theorem Flow.Purge.trans {a a' a'' : Flow} {evs evs' : List PipelineEvent}
    (h : Purge a evs a') (h' : Purge a' evs' a'') : Purge a (evs ++ evs') a'' := by
  induction h with
  | done => exact h'
  | unlink hq hmay _ ih => exact .unlink hq hmay (ih h')

namespace Rep

variable {c : Pipeline} {a : Flow}

/-- The dupecheck thread is done with the lags. -/
theorem purgeDone (h : Rep c a) (hphase : a.phase = .purging) :
    Rep { c with phase := .idle } { a with phase := .idle } := by
  have hround : a.phase ≠ .round := by
    rw [hphase]
    decide
  refine h.of_untouched ?_ ?_
  · exact ⟨rfl, rfl, rfl, rfl, rfl, nofun, fun _ => rfl, fun _ => rfl, rfl, rfl,
      fun _ => rfl, fun _ => rfl, fun _ _ _ => rfl⟩
  refine ⟨h.queue.nworkers, rfl, h.queue.thread, h.queue.flushing, ?_, h.queue.flushed,
    h.queue.unborn, fun _ => h.queue.outside hround, h.queue.free⟩
  refine h.queue.queues.mono ?_ (fun _ hx => hx)
  rintro x (hx | ⟨ln, -, hidle⟩)
  · exact .inl hx
  · cases hidle

theorem purge (h : Rep c a) (cfg : PipelineConfig) (tick : Int) (hphase : a.phase = .purging) :
    ∃ a', Flow.Purge a (c.purge cfg tick).2 a' ∧
      Rep (c.purge cfg tick).1 { a' with phase := .idle } := by
  obtain ⟨a1, hpurge1, h1, hphase1⟩ := purgeLoop (pbufGlobalCountLimit_pos .main)
    (tick - cfg.pbufGlobalExpiration .main) .main
    (c.queues.count (.pbufGlobal .main) - pbufGlobalCountLimit .main).toNat h hphase
  obtain ⟨a2, hpurge2, h2, hphase2⟩ := purgeLoop (pbufGlobalCountLimit_pos .dupe)
    (tick - cfg.pbufGlobalExpiration .dupe) .dupe
    ((c.purgeLane cfg tick .main).1.queues.count (.pbufGlobal .dupe) -
      pbufGlobalCountLimit .dupe).toNat h1 hphase1
  exact ⟨a2, hpurge1.trans hpurge2, h2.purgeDone hphase2⟩

end Rep

/-! ## The simulation -/

/-- What the purge relies on: the lists are short enough for the sequence numbers. -/
def LagScanOk (s : Pipeline) (act : PipelineAction) : Prop :=
  act = .lagScan → ∀ ln, s.queues.count (.pbufGlobal ln) < 2000000000

theorem Rep.step {cfg : PipelineConfig} {c c' : Pipeline} {a : Flow} {act : PipelineAction}
    {evs : List PipelineEvent} (h : Rep c a) (hok : LagScanOk c act)
    (hstep : c.step cfg act = some (c', evs)) : ∃ a', Flow.Step a evs a' ∧ Rep c' a' := by
  have hn := h.queue.nworkers
  have hphase := h.queue.phase
  cases act with
  | workerAlloc thread =>
    cases hstep
    exact ⟨_, .alloc thread, h.workerAlloc thread⟩
  | queue w n t =>
    simp only [Pipeline.step, Option.ite_none_right_eq_some, Option.some.injEq, Prod.mk.injEq] at hstep
    obtain ⟨⟨hw, hflushing, hfree⟩, rfl, rfl⟩ := hstep
    have hfresh : ∀ x, n ∉ a.q x := not_exists.mp ((h.queue.free n).mp hfree)
    exact ⟨_, .queue (hn ▸ hw) hfresh,
      h.queue_step (hn ▸ hw) (h.queue.flushing w ▸ hflushing) hfresh⟩
  | incomingFlush w locked =>
    simp only [Pipeline.step, Option.ite_none_right_eq_some] at hstep
    obtain ⟨⟨hw, hflushing⟩, hstep⟩ := hstep
    rw [hn] at hw
    rw [h.queue.flushing] at hflushing
    split at hstep
    · cases hstep
      exact ⟨a, .idle, h⟩
    · next hcond =>
      cases hstep
      have hnil : a.q (.incomingLocal w) ≠ [] := by
        intro hnil
        have hend := h.queue.queues.terminated (.incomingLocal w) (.inl ⟨hw, hflushing⟩)
        rw [Sealed, hnil] at hend
        exact hcond (.inl hend)
      exact ⟨_, .flush hw, h.incomingFlush hw hflushing hnil⟩
  | incomingFlushClean w =>
    simp only [Pipeline.step, Option.ite_none_right_eq_some, Option.some.injEq, Prod.mk.injEq] at hstep
    obtain ⟨⟨-, hflushing⟩, rfl, rfl⟩ := hstep
    exact ⟨_, .clean, h.incomingFlushClean (h.queue.flushing w ▸ hflushing)⟩
  | roundStart =>
    simp only [Pipeline.step, Option.ite_none_right_eq_some, Option.some.injEq, Prod.mk.injEq] at hstep
    obtain ⟨hidle, rfl, rfl⟩ := hstep
    rw [hphase] at hidle
    exact ⟨_, .roundStart hidle, h.roundStart hidle⟩
  | drain w =>
    simp only [Pipeline.step, Option.ite_none_right_eq_some] at hstep
    obtain ⟨⟨hround, hnull, hw⟩, hstep⟩ := hstep
    rw [hphase] at hround
    rw [hn] at hw
    have hpb : a.q .pb = [] := h.queue.queues.queues.eq_nil hnull
    split at hstep
    · next hempty =>
      cases hstep
      have hsame : a.drain w = a := by
        rw [Flow.drain, moved_of_nil (h.queue.queues.queues.eq_nil hempty)]
      have hdrain : Flow.Step a [.drained w] (a.drain w) := .drain hround hpb hw
      rw [hsame] at hdrain
      exact ⟨a, hdrain, h⟩
    · cases hstep
      exact ⟨_, .drain hround hpb hw, h.drain hround hpb hw⟩
  | check rc =>
    simp only [Pipeline.step] at hstep
    split at hstep
    · cases hstep
    · next n hhead =>
      cases hstep
      obtain ⟨ns, hns⟩ := h.queue.queues.queues.eq_cons (h.queue.queues.terminated _ (.inr rfl)) hhead
      have hround : a.phase = .round := by
        by_contra hne
        rw [(h.queue.outside hne).1] at hns
        cases hns
      exact ⟨_, .check hround hns, h.check hround hns⟩
  | roundEnd =>
    simp only [Pipeline.step, Option.ite_none_right_eq_some, Option.some.injEq, Prod.mk.injEq] at hstep
    obtain ⟨⟨hround, hnull⟩, rfl, rfl⟩ := hstep
    rw [hphase] at hround
    have hpb : a.q .pb = [] := h.queue.queues.queues.eq_nil hnull
    exact ⟨_, .roundEnd hround hpb, h.roundEnd hround hpb⟩
  | processOutgoing w ln tick =>
    simp only [Pipeline.step, Option.ite_none_right_eq_some] at hstep
    obtain ⟨⟨hw, hthread⟩, hstep⟩ := hstep
    rw [hn] at hw
    rw [h.queue.thread] at hthread
    have hhead := h.mem_prevp hw hthread ln
    split at hstep
    · cases hstep
      exact ⟨a, .idle, h⟩
    · next n hsome =>
      rw [hhead] at hsome
      obtain ⟨ns, hns⟩ := List.head?_eq_some_iff.mp hsome
      have hmem : n ∈ a.global ln := List.mem_of_mem_drop (hns ▸ List.mem_cons_self)
      split at hstep
      · next hfree => exact absurd ⟨_, hmem⟩ ((h.queue.free n).mp hfree)
      · cases hstep
        exact ⟨_, .visit hw hthread hns, h.processOutgoing hw hthread hns⟩
  | lagScan =>
    simp only [Pipeline.step, Option.ite_none_right_eq_some, Option.some.injEq, Prod.mk.injEq] at hstep
    obtain ⟨hidle, rfl, rfl⟩ := hstep
    rw [hphase] at hidle
    have hcore := hok rfl
    refine ⟨_, .lagScan hidle, h.lagScan hidle fun ln => ?_⟩
    have hcount : c.queues.count (.pbufGlobal ln) = (a.global ln).length :=
      h.queue.queues.count _ (a.tracked_global ln)
    have := hcore ln
    omega
  | purge tick =>
    simp only [Pipeline.step, Option.ite_none_right_eq_some, Option.some.injEq] at hstep
    obtain ⟨hpurging, hstep⟩ := hstep
    rw [hphase] at hpurging
    obtain ⟨a', hpurge, hrep⟩ := h.purge cfg tick hpurging
    rw [hstep] at hpurge hrep
    exact ⟨_, .purge hpurging hpurge, hrep⟩

theorem Rep.run {cfg : PipelineConfig} {P : Pipeline → PipelineAction → Prop} {c c' : Pipeline}
    {a : Flow} {evs : List PipelineEvent} (h : Rep c a) (hP : ∀ s act, P s act → LagScanOk s act)
    (hrun : Pipeline.Run cfg P c evs c') : ∃ a', Flow.Run a evs a' ∧ Rep c' a' := by
  induction hrun with
  | nil => exact ⟨a, .nil, h⟩
  | snoc _ hact hstep ih =>
    obtain ⟨a₁, hrun₁, h₁⟩ := ih
    obtain ⟨a₂, hstep₂, h₂⟩ := h₁.step (hP _ _ hact) hstep
    exact ⟨a₂, .snoc hrun₁ hstep₂, h₂⟩

/-! ## What the memory holds -/

/-- The queues in memory are the lists `q`, their counters are right, and they end
where the tail pointers say. -/
structure Pipeline.Holds (s : Pipeline) (q : Head → List Nat) : Prop where
  queues : Queues s.queues.mem q
  localEnd : ∀ w < s.nworkers, (s.worker w).flushing = false →
    Sealed s.queues.mem q (.incomingLocal w)
  incomingEnd : ∀ w < s.nworkers, Sealed s.queues.mem q (.incoming w)
  globalEnd : ∀ ln, Sealed s.queues.mem q (.pbufGlobal ln)
  localCount : ∀ w < s.nworkers, (s.worker w).flushing = false →
    s.queues.count (.incomingLocal w) = (q (.incomingLocal w)).length
  incomingCount : ∀ w < s.nworkers,
    s.queues.count (.incoming w) = (q (.incoming w)).length
  outCount : s.phase = .round → ∀ ln, s.queues.count (.pbOut ln) = (q (.pbOut ln)).length
  globalCount : ∀ ln, s.queues.count (.pbufGlobal ln) = (q (.pbufGlobal ln)).length
  globalLast : ∀ ln,
    s.queues.last (.pbufGlobal ln) = endLoc (.head (.pbufGlobal ln)) (q (.pbufGlobal ln))

theorem Rep.holds {c : Pipeline} {a : Flow} (h : Rep c a) : c.Holds a.q := by
  have hlocal : ∀ w < c.nworkers, (c.worker w).flushing = false → a.Settled (.incomingLocal w) := by
    intro w hw hflushing
    exact ⟨h.queue.nworkers ▸ hw, h.queue.flushing w ▸ hflushing⟩
  have hincoming : ∀ w < c.nworkers, a.Settled (.incoming w) := by
    intro w hw
    rw [h.queue.nworkers] at hw
    exact hw
  exact {
    queues := h.queue.queues.queues
    localEnd := fun w hw hf => h.queue.queues.terminated _ (.inl (hlocal w hw hf))
    incomingEnd := fun w hw => h.queue.queues.terminated _ (.inl (hincoming w hw))
    globalEnd := fun ln => h.queue.queues.terminated _ (a.terminated_global ln)
    localCount := fun w hw hf => h.queue.queues.count _ (.inl (hlocal w hw hf))
    incomingCount := fun w hw => h.queue.queues.count _ (.inl (hincoming w hw))
    outCount := fun hround ln =>
      h.queue.queues.count _ (.inr ⟨ln, rfl, h.queue.phase ▸ hround⟩)
    globalCount := fun ln => h.queue.queues.count _ (a.tracked_global ln)
    globalLast := fun ln => h.queue.queues.last _ (a.tracked_global ln) }

/-- The memory determines the global lists. -/
theorem Pipeline.Holds.global_unique {s : Pipeline} {q q' : Head → List Nat} (h : s.Holds q)
    (h' : s.Holds q') (ln : Lane) : q (.pbufGlobal ln) = q' (.pbufGlobal ln) :=
  Chain.unique (h.queues.chain _) (h.globalEnd ln) (h'.queues.chain _) (h'.globalEnd ln)

end Aprsc
