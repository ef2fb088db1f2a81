-- SUMMARY: No packet is lost, duplicated or reordered in the pipeline, in any interleaving without purges.
import Aprsc.Pipeline.History
import Aprsc.Pipeline.Refine

/-!
# Delivery

The abstract pipeline keeps every packet and every order (`FlowHistory`,
`Flow.Run.reached`, `Flow.Run.visits`); the pipeline refines it, so the queues in
memory do too.
-/

namespace Aprsc

open PtrQueue

/-- The steps of a run without purges. -/
def NoPurge (_ : Pipeline) (act : PipelineAction) : Prop :=
  act ≠ .lagScan ∧ ∀ tick, act ≠ .purge tick

namespace Pipeline

variable {cfg : PipelineConfig} {s s' : Pipeline} {evs : List PipelineEvent}

theorem step_noneFreed {act : PipelineAction} (hact : NoPurge s act)
    (hstep : s.step cfg act = some (s', evs)) : NoneFreed evs := by
  cases act with
  | purge tick => exact absurd rfl (hact.2 tick)
  | processOutgoing w ln tick =>
    simp only [step, Option.ite_none_right_eq_some] at hstep
    obtain ⟨-, hstep⟩ := hstep
    split at hstep
    · cases hstep
      simp [NoneFreed]
    · split at hstep <;> cases hstep <;> simp [NoneFreed]
  | incomingFlush w locked =>
    simp only [step, Option.ite_none_right_eq_some] at hstep
    obtain ⟨-, hstep⟩ := hstep
    split at hstep <;> cases hstep <;> simp [NoneFreed]
  | drain w =>
    simp only [step, Option.ite_none_right_eq_some] at hstep
    obtain ⟨-, hstep⟩ := hstep
    split at hstep <;> cases hstep <;> simp [NoneFreed]
  | check rc =>
    simp only [step] at hstep
    split at hstep <;> cases hstep
    simp [NoneFreed]
  | workerAlloc thread =>
    cases hstep
    simp [NoneFreed]
  | _ =>
    simp only [step, Option.ite_none_right_eq_some, Option.some.injEq, Prod.mk.injEq] at hstep
    obtain ⟨-, -, rfl⟩ := hstep
    simp [NoneFreed]

theorem Run.noneFreed (hrun : Run cfg NoPurge s evs s') : NoneFreed evs := by
  induction hrun with
  | nil => simp [NoneFreed]
  | snoc _ hact hstep ih =>
    intro ln n hmem
    rcases List.mem_append.mp hmem with hmem | hmem
    · exact ih ln n hmem
    · exact step_noneFreed hact hstep ln n hmem

/-- A run without purges follows the abstract pipeline. -/
theorem Run.refines {a : Flow} (hrun : Run cfg NoPurge s evs s') (h : Rep s a) :
    ∃ a', Flow.Run a evs a' ∧ Rep s' a' :=
  h.run (fun _ _ hact hscan => absurd hscan hact.1) hrun

end Pipeline

/-- The loop of `process_outgoing` visits what is pending, in order, and ends. -/
theorem Rep.outgoingLoop {w : Nat} {ln : Lane} {c : Pipeline} {a : Flow} (h : Rep c a)
    (cfg : PipelineConfig) (tick : Int) (fuel : Nat) (hw : w < a.nworkers) (hthread : a.thread w = true)
    (hfuel : (a.pending w ln).length ≤ fuel) :
    let r := Pipeline.outgoingLoop cfg w ln tick fuel c
    r.1.queues.mem ((r.1.worker w).pbufGlobalPrevp ln) = none ∧
      visitedBy w ln r.2 = a.pending w ln := by
  have hhead := h.mem_prevp hw hthread ln
  induction fuel generalizing c a with
  | zero =>
    have hnil : a.pending w ln = [] := List.length_eq_zero_iff.mp (Nat.le_zero.mp hfuel)
    rw [hnil] at hhead ⊢
    exact ⟨hhead, rfl⟩
  | succ fuel ih =>
    have hw' : w < c.nworkers ∧ (c.worker w).thread = true :=
      ⟨h.queue.nworkers ▸ hw, h.queue.thread w ▸ hthread⟩
    simp only [Pipeline.outgoingLoop]
    cases hpending : a.pending w ln with
    | nil =>
      rw [hpending] at hhead
      have hstep : c.step cfg (.processOutgoing w ln tick) = some (c, []) := by
        simp only [Pipeline.step, if_pos hw', hhead, List.head?_nil]
      have hrest := ih h hw hthread (by rw [hpending]; exact Nat.zero_le _) (h.mem_prevp hw hthread ln)
      rw [hpending] at hrest
      simpa only [hstep, List.nil_append] using hrest
    | cons n ns =>
      rw [hpending] at hhead
      have hfree : ¬ c.isFree n = true := by
        rw [h.queue.free n, not_not]
        exact ⟨_, List.mem_of_mem_drop (hpending ▸ List.mem_cons_self)⟩
      have hstep : c.step cfg (.processOutgoing w ln tick) =
          some (c.processOutgoing w ln n (Pipeline.disposition tick (c.t n)),
            [.visited w ln n (Pipeline.disposition tick (c.t n))]) := by
        simp only [Pipeline.step, if_pos hw', hhead, List.head?_cons, if_neg hfree]
      have hnext := h.processOutgoing (d := Pipeline.disposition tick (c.t n)) hw hthread hpending
      have hcore := (h.cursor w hw ln).inCore hthread
      have hns : (a.visit w ln).pending w ln = ns :=
        Flow.visit_pending (by omega) hpending
      have hrest := ih hnext hw hthread
        (by rw [hns]; rw [hpending] at hfuel; exact Nat.le_of_succ_le_succ hfuel)
        (hnext.mem_prevp hw hthread ln)
      rw [hns] at hrest
      simp only [hstep]
      refine ⟨hrest.1, ?_⟩
      rw [visitedBy_append, hrest.2]
      simp [visitedBy]

/-- No loss, duplication or reordering. After any run without purges every queued
packet is in exactly one place, a packet that was flushed, drained and published
is in a global list, the packets of a worker are in each list in the order in
which they were queued, all counters are right, and a worker that was created
after `evs₁` visits what the lists got since, in list order: never more than
that, and all of it once its loops have run to their end. -/
theorem pipeline_exactly_once {cfg : PipelineConfig} {evs : List PipelineEvent} {s : Pipeline}
    (hrun : Pipeline.Run cfg NoPurge .init evs s) :
    ∃ q, s.Holds q ∧
      (∀ w n, n ∈ queuedBy w evs → ∃! h, n ∈ q h) ∧
      (∀ h, ∀ n ∈ q h, ∃ w, n ∈ queuedBy w evs) ∧
      (∀ w n, [.queued w n, .flushed w, .drained w, .published].Sublist evs →
        ∃ ln, n ∈ q (.pbufGlobal ln)) ∧
      (∀ w, (queuedBy w evs).Nodup ∧
        ∀ ln, ((q (.pbufGlobal ln)).filter (· ∈ queuedBy w evs)).Sublist (queuedBy w evs)) ∧
      ∀ evs₁ s₁ thread s₂ evs₂, Pipeline.Run cfg NoPurge .init evs₁ s₁ →
        s₁.step cfg (.workerAlloc thread) = some (s₂, []) → Pipeline.Run cfg NoPurge s₂ evs₂ s →
        ∃ q₁, s₁.Holds q₁ ∧ ∀ ln,
          let new := (q (.pbufGlobal ln)).drop (q₁ (.pbufGlobal ln)).length
          q₁ (.pbufGlobal ln) <+: q (.pbufGlobal ln) ∧
          visitedBy s₁.nworkers ln evs₂ <+: new ∧
          (thread = true → ∃ turns, ∀ fuel ≥ turns, ∀ tick,
            let r := Pipeline.outgoingLoop cfg s₁.nworkers ln tick fuel s
            r.1.queues.mem ((r.1.worker s₁.nworkers).pbufGlobalPrevp ln) = none ∧
              visitedBy s₁.nworkers ln (evs₂ ++ r.2) = new) := by
  obtain ⟨a, hflow, hrep⟩ := hrun.refines Rep.init
  have hhistory := FlowHistory.run hflow hrun.noneFreed
  refine ⟨a.q, hrep.holds, ?_, ?_, ?_, ?_, ?_⟩
  · intro w n hn
    obtain ⟨x, hx⟩ := (hhistory.queued n).mpr ⟨w, hn⟩
    exact ⟨x, hx, fun y hy => hrep.holds.queues.unique hy hx⟩
  · exact fun x n hn => (hhistory.queued n).mp ⟨x, hn⟩
  · exact fun w n hsub => ((hflow.reached hrun.noneFreed w n).2.2.2 hsub).mem_global
  · intro w
    refine ⟨hhistory.nodup w, fun ln => ?_⟩
    obtain ⟨sorted, heq, hsub⟩ := hhistory.order w
    have hglobal : ((a.global ln).filter (· ∈ queuedBy w evs)).Sublist
        ((a.lane ln).filter (· ∈ queuedBy w evs)) :=
      (List.sublist_append_left _ _).filter _
    have hsorted : sorted.Sublist (queuedBy w evs) := by
      nth_rewrite 1 [heq]
      exact List.sublist_append_left _ _
    exact (hglobal.trans (hsub ln)).trans hsorted
  · intro evs₁ s₁ thread s₂ evs₂ hrun₁ halloc hrun₂
    obtain ⟨a₁, hflow₁, hrep₁⟩ := hrun₁.refines Rep.init
    cases halloc
    have hn : s₁.nworkers = a₁.nworkers := hrep₁.queue.nworkers
    have hgone : ∀ ln, a₁.gone ln = 0 := fun ln => by
      rw [(hflow₁.thread_gone_eq hrun₁.noneFreed).1]
      rfl
    obtain ⟨a₃, hflow₃, hrep₃⟩ := hrun₂.refines (hrep₁.workerAlloc thread)
    refine ⟨a₁.q, hrep₁.holds, fun ln => ?_⟩
    have hsame : a.q (.pbufGlobal ln) = a₃.global ln := hrep.holds.global_unique hrep₃.holds ln
    have hpos : (a₁.alloc thread).pos a₁.nworkers ln = (a₁.global ln).length := by
      simp [Flow.alloc, Flow.total, hgone]
    obtain ⟨hvisits, hw⟩ := hflow₃.visits a₁.nworkers ln hrun₂.noneFreed
      (Nat.lt_succ_self _) (hgone ln) (Nat.le_of_eq hpos)
    have hall := hvisits.visits
    rw [hpos] at hall
    simp only [hn, hsame]
    refine ⟨hvisits.grows, ⟨_, hall⟩, ?_⟩
    rintro rfl
    refine ⟨(a₃.pending a₁.nworkers ln).length, fun fuel hfuel tick => ?_⟩
    have hthread : a₃.thread a₁.nworkers = true := by
      rw [(hflow₃.thread_gone_eq hrun₂.noneFreed).2.2 _ (Nat.lt_succ_self _)]
      simp [Flow.alloc]
    obtain ⟨hend, hloop⟩ := hrep₃.outgoingLoop cfg tick fuel hw hthread hfuel
    refine ⟨hend, ?_⟩
    rw [visitedBy_append, hloop]
    exact hall

/-- Two packets, of which the second is a duplicate, and a lock that fails once. -/
private def sampleActions : List PipelineAction :=
  [.workerAlloc true, .queue 0 7 100, .queue 0 8 100, .incomingFlush 0 false,
   .incomingFlush 0 true, .roundStart, .drain 0, .incomingFlushClean 0, .check 0, .check 1,
   .roundEnd, .processOutgoing 0 .main 101]

private def sampleEvents : List PipelineEvent :=
  [.queued 0 7, .queued 0 8, .flushed 0, .drained 0, .published, .visited 0 .main 7 .sent]

theorem pipeline_delivers_two :
    ∃ s, Pipeline.Run .initial NoPurge .init sampleEvents s ∧
      ∃ q, s.Holds q ∧ (∃ ln, 7 ∈ q (.pbufGlobal ln)) ∧ ∃ ln, 8 ∈ q (.pbufGlobal ln) := by
  have hexec : (Pipeline.exec .initial sampleActions .init).map (·.2) = some sampleEvents := by
    decide
  obtain ⟨r, hr, hevs⟩ := Option.map_eq_some_iff.mp hexec
  have hrun : Pipeline.Run .initial NoPurge .init sampleEvents r.1 := by
    rw [← hevs]
    refine .of_exec ?_ hr
    intro act hact _
    simp only [sampleActions, List.mem_cons, List.not_mem_nil, or_false] at hact
    refine ⟨?_, fun tick => ?_⟩ <;> rintro rfl <;> simp at hact
  obtain ⟨q, hq, -, -, hdelivered, -⟩ := pipeline_exactly_once hrun
  exact ⟨r.1, hrun, q, hq, hdelivered 0 7 (by decide), hdelivered 0 8 (by decide)⟩

end Aprsc
