-- SUMMARY: The purge of the global lists frees no packet that a worker or a tail pointer still needs.
import Aprsc.Pipeline.Refine

/-!
# Safety of the purge

The refinement already says that a purge only unlinks packets that every worker
thread has left behind (`Flow.MayUnlink`). Here this is read back at the pointers.
-/

namespace Aprsc

open PtrQueue

namespace Flow

variable {a a' : Flow} {evs : List PipelineEvent} {ln : Lane} {n : Nat}

/-- A packet that a purge frees is not the last one of its list, and every worker
thread has read on past it. -/
theorem Purge.freed (hpurge : Purge a evs a') (hmem : .freed ln n ∈ evs) :
    ∃ j, (a.global ln)[j]? = some n ∧ a.gone ln + j + 1 < a.total ln ∧
      ∀ w < a.nworkers, a.thread w = true → a.gone ln + j + 1 < a.pos w ln := by
  induction hpurge with
  | done => cases hmem
  | @unlink b b' ln' n' ns evs' hq hmay hrest ih =>
    rcases List.mem_cons.mp hmem with heq | hmem
    · cases heq
      exact ⟨0, by rw [hq]; rfl, hmay.1, hmay.2⟩
    · obtain ⟨j, hj, htotal, hworkers⟩ := ih hmem
      by_cases hln : ln = ln'
      · subst hln
        rw [unlink_gone] at htotal hworkers
        rw [unlink_total hq] at htotal
        rw [unlink_global hq] at hj
        refine ⟨j + 1, by rw [hq]; exact hj, ?_, ?_⟩
        · omega
        · intro w hw hthread
          have := hworkers w hw hthread
          simp only [Flow.unlink] at this
          omega
      · rw [unlink_gone_of_ne hln] at htotal hworkers
        rw [unlink_total hq] at htotal
        rw [unlink_global_of_ne hln] at hj
        exact ⟨j, hj, htotal, hworkers⟩

end Flow

/-- A worker thread neither holds nor will follow a pointer to a packet behind its
cursor. -/
theorem Rep.cursor_past {c : Pipeline} {a : Flow} (h : Rep c a) {w n j : Nat} {ln : Lane}
    (hw : w < a.nworkers) (hthread : a.thread w = true) (hj : (a.global ln)[j]? = some n)
    (hpast : a.gone ln + j + 1 < a.pos w ln) (ln' : Lane) :
    (c.worker w).pbufGlobalPrevp ln' ≠ .next n ∧ n ∉ a.pending w ln' := by
  have hcur := h.cursor w hw ln'
  have hmem : n ∈ a.global ln := List.mem_of_getElem? hj
  rw [hcur.prevp (hcur.inCore hthread)]
  by_cases hln : ln' = ln
  · subst hln
    have hnodup : (a.global ln').Nodup := h.queue.queues.queues.nodup _
    have hposle := hcur.pos_le
    simp only [Flow.total] at hposle
    constructor
    · refine endLoc_ne_next (j := j) (hnodup.sublist (List.take_sublist _ _)) ?_ ?_
      · rw [List.getElem?_take_of_lt (by omega)]
        exact hj
      · rw [List.length_take]
        omega
    · intro hn
      rw [Flow.pending] at hn
      have htake : n ∈ (a.global ln').take (a.pos w ln' - a.gone ln') := by
        refine List.mem_of_getElem? (i := j) ?_
        rw [List.getElem?_take_of_lt (by omega)]
        exact hj
      have hsplit := List.take_append_drop (a.pos w ln' - a.gone ln') (a.global ln')
      rw [← hsplit] at hnodup
      exact (List.nodup_append.mp hnodup).2.2 n htake n hn rfl
  · have hother : n ∉ a.global ln' := by
      intro hn
      have := h.queue.queues.queues.unique hn hmem
      exact hln (by simpa using this)
    exact ⟨endLoc_ne_next_of_not_mem fun hn => hother (List.mem_of_mem_take hn),
      fun hn => hother (List.mem_of_mem_drop hn)⟩

/-- Safety of the purge. In every run in which the lags are computed while there are
fewer than 2000000000 packets in core, a purge frees no packet whose `next` field a
worker thread's cursor points at, none that a worker thread has yet to visit, and none
whose `next` field is the tail of a list; and then the lists are intact and their
counters right. -/
theorem purge_safe {cfg : PipelineConfig} {evs evs' : List PipelineEvent} {s s' : Pipeline}
    {tick : Int} (hrun : Pipeline.Run cfg LagScanOk .init evs s)
    (hstep : s.step cfg (.purge tick) = some (s', evs')) :
    (∀ ln n, .freed ln n ∈ evs' →
      (∀ w < s.nworkers, (s.worker w).thread = true → ∀ ln',
        (s.worker w).pbufGlobalPrevp ln' ≠ .next n ∧
        ∃ unread, Chain s.queues.mem ((s.worker w).pbufGlobalPrevp ln') unread ∧
          s.queues.mem (endLoc ((s.worker w).pbufGlobalPrevp ln') unread) = none ∧
          n ∉ unread) ∧
      ∀ ln', s.queues.last (.pbufGlobal ln') ≠ .next n) ∧
    ∃ q, s'.Holds q := by
  obtain ⟨a, -, hrep⟩ := Rep.init.run (fun _ _ hok => hok) hrun
  simp only [Pipeline.step, Option.ite_none_right_eq_some, Option.some.injEq] at hstep
  obtain ⟨hpurging, hstep⟩ := hstep
  obtain ⟨a', hpurge, hrep'⟩ := hrep.purge cfg tick (hrep.queue.phase ▸ hpurging)
  rw [hstep] at hpurge hrep'
  refine ⟨?_, a'.q, hrep'.holds⟩
  intro ln n hmem
  obtain ⟨j, hj, htotal, hworkers⟩ := hpurge.freed hmem
  refine ⟨?_, ?_⟩
  · intro w hw hthread ln'
    rw [hrep.queue.nworkers] at hw
    rw [hrep.queue.thread] at hthread
    obtain ⟨hprevp, hunread⟩ := hrep.cursor_past hw hthread hj (hworkers w hw hthread) ln'
    obtain ⟨hchain, hend⟩ := hrep.pending_chain hw hthread ln'
    exact ⟨hprevp, a.pending w ln', hchain, hend, hunread⟩
  · intro ln'
    rw [hrep.holds.globalLast]
    by_cases hln : ln' = ln
    · subst hln
      refine endLoc_ne_next (hrep.holds.queues.nodup _) hj ?_
      simp only [Flow.total] at htotal
      exact (by omega : j + 1 < (a.global ln').length)
    · refine endLoc_ne_next_of_not_mem fun hn => hln ?_
      simpa using hrep.holds.queues.unique hn (List.mem_of_getElem? hj)

/-- A worker reads 102 duplicates. -/
def readDuplicates : List PipelineAction :=
  (List.range 102).map (.queue 0 · 0) ++
    [.incomingFlush 0 true, .incomingFlushClean 0, .roundStart, .drain 0] ++
    List.replicate 102 (.check 1) ++ [.roundEnd] ++
    List.replicate 102 (.processOutgoing 0 .dupe 0)

theorem lagScan_not_mem_readDuplicates : .lagScan ∉ readDuplicates := by
  decide +kernel

theorem purge_keeps_minimum :
    ∃ evs s s', Pipeline.Run .initial LagScanOk .init evs s ∧
      s.step .initial (.purge 100) = some (s', [.freed .dupe 0, .freed .dupe 1]) ∧
      (s.worker 0).pbufGlobalPrevp .dupe ≠ .next 1 ∧ ∃ q, s'.Holds q := by
  have hexec : ((Pipeline.exec .initial (.workerAlloc true :: readDuplicates) .init).map fun r =>
      ((r.1.lagScan.purge .initial 100).2, r.1.phase, r.1.nworkers, (r.1.worker 0).thread,
        r.1.queues.count (.pbufGlobal .main), r.1.queues.count (.pbufGlobal .dupe))) =
      some ([.freed .dupe 0, .freed .dupe 1], .idle, 1, true, 0, 102) := by decide +kernel
  obtain ⟨r, hr, heq⟩ := Option.map_eq_some_iff.mp hexec
  simp only [Prod.mk.injEq] at heq
  obtain ⟨hfreed, hphase, hworkers, hthread, hmain, hdupe⟩ := heq
  have hrun : Pipeline.Run .initial LagScanOk .init r.2 r.1 := by
    refine .of_exec ?_ hr
    rintro act hact _ rfl
    simp [lagScan_not_mem_readDuplicates] at hact
  have hok : LagScanOk r.1 .lagScan := by
    intro _ ln
    cases ln <;> omega
  have hscan : r.1.step .initial .lagScan = some (r.1.lagScan, []) := by
    simp [Pipeline.step, hphase]
  have hrun' := hrun.snoc hok hscan
  have hstep : r.1.lagScan.step .initial (.purge 100) =
      some ((r.1.lagScan.purge .initial 100).1, [.freed .dupe 0, .freed .dupe 1]) := by
    rw [← hfreed]
    rfl
  obtain ⟨hsafe, hholds⟩ := purge_safe hrun' hstep
  refine ⟨_, _, _, hrun', hstep, ?_, hholds⟩
  exact ((hsafe .dupe 1 (by simp)).1 0 (by simp [Pipeline.lagScan, hworkers]) hthread .dupe).1

end Aprsc
