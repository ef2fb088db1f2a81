-- SUMMARY: What the events of a run without purges say about the lists of the abstract pipeline.
import Aprsc.Pipeline.Flow

/-!
# Histories of the abstract pipeline

Three facts about a run that purges nothing: every queued packet is in one place
and the packets of a worker stay in their order (`FlowHistory`), a packet that was
flushed, drained and published has reached a global list (`Flow.Reached`), and a
worker visits what is appended after its creation (`Flow.Visits`).
-/

namespace Aprsc

open PtrQueue

/-- Events of a run that frees no packet. -/
def NoneFreed (evs : List PipelineEvent) : Prop := ∀ ln n, .freed ln n ∉ evs

theorem NoneFreed.of_append {evs evs' : List PipelineEvent} (h : NoneFreed (evs ++ evs')) :
    NoneFreed evs ∧ NoneFreed evs' :=
  ⟨fun ln n hmem => h ln n (List.mem_append_left _ hmem),
    fun ln n hmem => h ln n (List.mem_append_right _ hmem)⟩

/-- A purge that frees no packet changes nothing. -/
theorem Flow.Purge.eq_of_noneFreed {a a' : Flow} {evs : List PipelineEvent} (h : Purge a evs a')
    (hnone : NoneFreed evs) : evs = [] ∧ a' = a := by
  cases h with
  | done => exact ⟨rfl, rfl⟩
  | unlink hq hmay hrest => exact absurd List.mem_cons_self (hnone _ _)

/-! ## Conservation and order -/

/-- The packets of a worker that have not yet been sorted, in their order. -/
def Flow.waiting (a : Flow) (w : Nat) (mine : List Nat) : List Nat :=
  (a.q .pb).filter (· ∈ mine) ++ a.q (.incoming w) ++ a.q (.incomingLocal w)

/-- The history of a run, as far as the queues show it. -/
structure FlowHistory (evs : List PipelineEvent) (a : Flow) : Prop where
  queued : ∀ n, (∃ h, n ∈ a.q h) ↔ ∃ w, n ∈ queuedBy w evs
  owner : ∀ {w w' n}, n ∈ queuedBy w evs → n ∈ queuedBy w' evs → w = w'
  nodup : ∀ w, (queuedBy w evs).Nodup
  /-- What a worker queued is what was sorted, and then what waits. -/
  order : ∀ w, ∃ sorted, queuedBy w evs = sorted ++ a.waiting w (queuedBy w evs) ∧
    ∀ ln, ((a.lane ln).filter (· ∈ queuedBy w evs)).Sublist sorted

namespace FlowHistory

variable {evs : List PipelineEvent} {a a' : Flow}

theorem init : FlowHistory [] Flow.init where
  queued := by simp [Flow.init, queuedBy]
  owner := by simp [queuedBy]
  nodup := by simp [queuedBy]
  order := by
    intro w
    exact ⟨[], rfl, fun ln => by simp [Flow.lane, Flow.init, Flow.global]⟩

/-- A step that queues nothing and moves no packet past another. -/
theorem frame (h : FlowHistory evs a) (hqueued : ∀ n, (∃ x, n ∈ a'.q x) ↔ ∃ x, n ∈ a.q x)
    (hwaiting : ∀ w, a'.waiting w (queuedBy w evs) = a.waiting w (queuedBy w evs))
    (hlane : ∀ ln, a'.lane ln = a.lane ln) : FlowHistory evs a' where
  queued := fun n => (hqueued n).trans (h.queued n)
  owner := h.owner
  nodup := h.nodup
  order := by
    intro w
    obtain ⟨sorted, heq, hsub⟩ := h.order w
    refine ⟨sorted, ?_, ?_⟩
    · rw [hwaiting]
      exact heq
    · intro ln
      rw [hlane]
      exact hsub ln

/-- Queues that hold packets of one worker only. -/
theorem mem_queuedBy (h : FlowHistory evs a) {w n : Nat}
    (hn : n ∈ a.q (.incoming w) ∨ n ∈ a.q (.incomingLocal w)) : n ∈ queuedBy w evs := by
  obtain ⟨sorted, heq, -⟩ := h.order w
  rw [heq, Flow.waiting]
  rcases hn with hn | hn <;> simp [hn]

theorem congr_events {evs' : List PipelineEvent} (h : FlowHistory evs a)
    (heq : ∀ w, queuedBy w evs' = queuedBy w evs) : FlowHistory evs' a where
  queued := fun n => by
    simp only [heq]
    exact h.queued n
  owner := fun hn hn' => by
    rw [heq] at hn hn'
    exact h.owner hn hn'
  nodup := fun w => by
    rw [heq]
    exact h.nodup w
  order := fun w => by
    rw [heq]
    exact h.order w

section Queue

variable {w n : Nat}

theorem queuedBy_queued_self : queuedBy w (evs ++ [.queued w n]) = queuedBy w evs ++ [n] := by
  simp [queuedBy]

theorem queuedBy_queued_of_ne {w' : Nat} (hw' : w' ≠ w) :
    queuedBy w' (evs ++ [.queued w n]) = queuedBy w' evs := by
  simp [queuedBy, Ne.symm hw']

theorem mem_queuedBy_queued {w' m : Nat} :
    m ∈ queuedBy w' (evs ++ [.queued w n]) ↔ m ∈ queuedBy w' evs ∨ (w' = w ∧ m = n) := by
  by_cases hw' : w' = w
  · subst hw'
    rw [queuedBy_queued_self, List.mem_append, List.mem_singleton]
    simp
  · rw [queuedBy_queued_of_ne hw']
    simp [hw']

/-- A new packet makes no difference to lists that do not have it. -/
theorem filter_queuedBy_queued {xs : List Nat} (hn : n ∉ xs) :
    xs.filter (· ∈ queuedBy w (evs ++ [.queued w n])) = xs.filter (· ∈ queuedBy w evs) := by
  refine List.filter_congr ?_
  intro m hm
  have hmn : m ≠ n := fun heq => hn (heq ▸ hm)
  simp only [mem_queuedBy_queued, hmn, and_false, or_false]

/-- A new packet waits at the end of what its worker queued. -/
theorem order_queue (h : FlowHistory evs a) (hfresh : ∀ x, n ∉ a.q x) (w' : Nat) :
    ∃ sorted, queuedBy w' (evs ++ [.queued w n]) =
        sorted ++ (a.queue w n).waiting w' (queuedBy w' (evs ++ [.queued w n])) ∧
      ∀ ln, (((a.queue w n).lane ln).filter
        (· ∈ queuedBy w' (evs ++ [.queued w n]))).Sublist sorted := by
  obtain ⟨sorted, heq, hsub⟩ := h.order w'
  have hlane : ∀ ln, (a.queue w n).lane ln = a.lane ln := by
    intro ln
    simp [Flow.lane, Flow.global, Flow.queue]
  refine ⟨sorted, ?_⟩
  by_cases hw' : w' = w
  · subst hw'
    constructor
    · have hpb : (a.queue w' n).q .pb = a.q .pb := by simp [Flow.queue]
      have hin : (a.queue w' n).q (.incoming w') = a.q (.incoming w') := by simp [Flow.queue]
      have hloc : (a.queue w' n).q (.incomingLocal w') = a.q (.incomingLocal w') ++ [n] := by
        simp [Flow.queue]
      rw [Flow.waiting, hpb, hin, hloc, filter_queuedBy_queued (hfresh .pb), queuedBy_queued_self]
      nth_rewrite 1 [heq]
      simp only [Flow.waiting, List.append_assoc]
    · intro ln
      rw [hlane, filter_queuedBy_queued]
      · exact hsub ln
      · intro hn
        exact (List.mem_append.mp hn).elim (hfresh _) (hfresh _)
  · rw [queuedBy_queued_of_ne hw']
    refine ⟨?_, fun ln => hlane ln ▸ hsub ln⟩
    simpa [Flow.waiting, Flow.queue, hw'] using heq

theorem queue (h : FlowHistory evs a) (hfresh : ∀ x, n ∉ a.q x) :
    FlowHistory (evs ++ [.queued w n]) (a.queue w n) := by
  have hnew : ∀ w', n ∉ queuedBy w' evs := by
    intro w' hn
    obtain ⟨x, hx⟩ := (h.queued n).mpr ⟨w', hn⟩
    exact hfresh x hx
  refine ⟨?_, ?_, ?_, h.order_queue hfresh⟩
  · intro m
    simp only [Flow.queue, mem_update_append, mem_queuedBy_queued, exists_or, exists_eq_left]
    rw [h.queued m]
  · intro w1 w2 m h1 h2
    rcases mem_queuedBy_queued.mp h1 with h1 | ⟨hw1, hm1⟩ <;>
      rcases mem_queuedBy_queued.mp h2 with h2 | ⟨hw2, hm2⟩
    · exact h.owner h1 h2
    · exact absurd h1 (hm2 ▸ hnew w1)
    · exact absurd h2 (hm1 ▸ hnew w2)
    · exact hw1.trans hw2.symm
  · intro w'
    by_cases hw' : w' = w
    · subst hw'
      rw [queuedBy_queued_self, List.nodup_append]
      refine ⟨h.nodup w', by simp, ?_⟩
      rintro m hm k hk rfl
      rw [List.mem_singleton] at hk
      exact hnew w' (hk ▸ hm)
    · rw [queuedBy_queued_of_ne hw']
      exact h.nodup w'

end Queue

theorem flush (h : FlowHistory evs a) (w : Nat) : FlowHistory evs (a.flush w) := by
  refine h.frame ?_ ?_ ?_
  · exact fun n => exists_mem_moved (by simp)
  · intro w'
    by_cases hw' : w' = w
    · subst hw'
      simp only [Flow.waiting, Flow.flush]
      rw [moved_of_ne (by simp) (by simp), moved_left (by simp), moved_right]
      simp
    · simp only [Flow.waiting, Flow.flush]
      rw [moved_of_ne (by simp) (by simp), moved_of_ne (by simpa using hw') (by simp),
        moved_of_ne (by simp) (by simpa using hw')]
  · intro ln
    simp only [Flow.lane, Flow.global, Flow.flush]
    rw [moved_of_ne (by simp) (by simp), moved_of_ne (by simp) (by simp)]

theorem drain (h : FlowHistory evs a) {w : Nat} (hpb : a.q .pb = []) :
    FlowHistory evs (a.drain w) := by
  refine h.frame ?_ ?_ ?_
  · exact fun n => exists_mem_moved (by simp)
  · intro w'
    simp only [Flow.waiting, Flow.drain]
    rw [moved_left (by simp), hpb]
    by_cases hw' : w' = w
    · subst hw'
      rw [moved_right, moved_of_ne (by simp) (by simp)]
      have hall : (a.q (.incoming w')).filter (· ∈ queuedBy w' evs) = a.q (.incoming w') := by
        refine List.filter_eq_self.mpr ?_
        intro n hn
        exact decide_eq_true (h.mem_queuedBy (.inl hn))
      simp [hall]
    · rw [moved_of_ne (by simp) (by simpa using hw'), moved_of_ne (by simp) (by simp)]
      have hnone : (a.q (.incoming w)).filter (· ∈ queuedBy w' evs) = [] := by
        refine List.filter_eq_nil_iff.mpr ?_
        intro n hn hn'
        exact hw' (h.owner (of_decide_eq_true hn') (h.mem_queuedBy (.inl hn)))
      simp [hnone]
  · intro ln
    simp only [Flow.lane, Flow.global, Flow.drain]
    rw [moved_of_ne (by simp) (by simp), moved_of_ne (by simp) (by simp)]

theorem check (h : FlowHistory evs a) {ln : Lane} {n : Nat} {ns : List Nat}
    (hpb : a.q .pb = n :: ns) : FlowHistory evs (a.check ln n ns) := by
  refine ⟨fun m => (Flow.exists_mem_check hpb m).trans (h.queued m), h.owner, h.nodup, ?_⟩
  intro w
  obtain ⟨sorted, heq, hsub⟩ := h.order w
  have hwait : a.waiting w (queuedBy w evs) =
      [n].filter (· ∈ queuedBy w evs) ++ (a.check ln n ns).waiting w (queuedBy w evs) := by
    simp only [Flow.waiting, Flow.check_q_pb]
    rw [Flow.check_q_of_ne (by simp) (by simp), Flow.check_q_of_ne (by simp) (by simp), hpb,
      ← List.singleton_append, List.filter_append]
    simp only [List.append_assoc]
  refine ⟨sorted ++ [n].filter (· ∈ queuedBy w evs), ?_, ?_⟩
  · rw [List.append_assoc, ← hwait]
    exact heq
  · intro ln'
    by_cases hln : ln' = ln
    · subst hln
      rw [Flow.check_lane, List.filter_append]
      exact (hsub ln').append_right _
    · rw [Flow.check_lane_of_ne hln]
      exact (hsub ln').trans (List.sublist_append_left _ _)

theorem roundEnd (h : FlowHistory evs a) : FlowHistory evs a.roundEnd := by
  refine h.frame Flow.exists_mem_roundEnd ?_ ?_
  · intro w
    simp only [Flow.waiting]
    rw [Flow.roundEnd_q_of_ne (by simp), Flow.roundEnd_q_of_ne (by simp),
      Flow.roundEnd_q_of_ne (by simp)]
  · exact a.roundEnd_lane

/-- A step that changes no queue. -/
theorem of_same_queues (h : FlowHistory evs a) (hq : a'.q = a.q) : FlowHistory evs a' := by
  refine h.frame (fun n => by rw [hq]) ?_ ?_
  · intro w
    simp only [Flow.waiting, hq]
  · intro ln
    simp only [Flow.lane, Flow.global, hq]

theorem step {evs' : List PipelineEvent} (h : FlowHistory evs a) (hstep : Flow.Step a evs' a')
    (hnone : NoneFreed evs') : FlowHistory (evs ++ evs') a' := by
  -- Only the queue step has an event that counts.
  have hquiet : ∀ {es b}, FlowHistory evs b → (∀ w, queuedBy w es = []) →
      FlowHistory (evs ++ es) b := by
    intro es b hb hes
    exact hb.congr_events fun w => by rw [queuedBy_append, hes, List.append_nil]
  cases hstep with
  | idle => exact hquiet h fun _ => rfl
  | alloc thread => exact hquiet (h.of_same_queues rfl) fun _ => rfl
  | queue hw hfresh => exact h.queue hfresh
  | flush hw => exact hquiet (h.flush _) fun _ => rfl
  | clean => exact hquiet (h.of_same_queues rfl) fun _ => rfl
  | roundStart hphase => exact hquiet (h.of_same_queues rfl) fun _ => rfl
  | drain hphase hpb hw => exact hquiet (h.drain hpb) fun _ => rfl
  | check hphase hpb => exact hquiet (h.check hpb) fun _ => rfl
  | roundEnd hphase hpb => exact hquiet h.roundEnd fun _ => rfl
  | visit hw hthread hpending => exact hquiet (h.of_same_queues rfl) fun _ => rfl
  | lagScan hphase => exact hquiet (h.of_same_queues rfl) fun _ => rfl
  | purge hphase hpurge =>
    obtain ⟨rfl, rfl⟩ := hpurge.eq_of_noneFreed hnone
    exact hquiet (h.of_same_queues rfl) fun _ => rfl

/-- A run that frees nothing keeps every packet, and every worker's order. -/
theorem run (hrun : Flow.Run .init evs a) (hnone : NoneFreed evs) : FlowHistory evs a := by
  induction hrun with
  | nil => exact init
  | snoc _ hstep ih => exact (ih hnone.of_append.1).step hstep hnone.of_append.2

end FlowHistory

/-! ## Delivery -/

/-- How far a queue is from the global lists. -/
def Head.stage : Head → Nat
  | .incomingLocal _ => 0
  | .incoming _ => 1
  | .pb => 2
  | .pbOut _ => 3
  | .pbufGlobal _ => 4

/-- The queues that a packet of a worker passes through. -/
def Head.IsFor (w : Nat) : Head → Prop
  | .incomingLocal w' => w' = w
  | .incoming w' => w' = w
  | _ => True

namespace Flow

variable {evs : List PipelineEvent} {a a' : Flow} {w n : Nat}

/-- A packet of a worker has come at least as far as a stage. -/
def Reached (a : Flow) (w n k : Nat) : Prop := ∃ h, n ∈ a.q h ∧ h.IsFor w ∧ k ≤ h.stage

/-- Packets move from a queue `x` to a queue `y`. -/
theorem Reached.moved {k k' : Nat} (h : a.Reached w n k) (y x : Head) (hne : y ≠ x)
    (hfor : x.IsFor w → y.IsFor w) (hy : k ≤ x.stage → k' ≤ y.stage)
    (hrest : ∀ z, z ≠ x → z.IsFor w → k ≤ z.stage → k' ≤ z.stage)
    (hq : a'.q = PtrQueue.moved a.q y x) : a'.Reached w n k' := by
  obtain ⟨z, hz, hzfor, hk⟩ := h
  by_cases hzx : z = x
  · subst hzx
    refine ⟨y, ?_, hfor hzfor, hy hk⟩
    rw [hq]
    exact (mem_moved hne).mpr (.inl ⟨rfl, .inr hz⟩)
  · refine ⟨z, ?_, hzfor, hrest z hzx hzfor hk⟩
    rw [hq]
    by_cases hzy : z = y
    · exact (mem_moved hne).mpr (.inl ⟨hzy, .inl (hzy ▸ hz)⟩)
    · exact (mem_moved hne).mpr (.inr ⟨hzy, hzx, hz⟩)

/-- A round publishes what it sorted. -/
theorem Reached.roundEnd {k : Nat} (h : a.Reached w n k) : a.roundEnd.Reached w n k := by
  have hmain : (a.publish .main).Reached w n k :=
    h.moved (.pbufGlobal .main) (.pbOut .main) (by simp) id Nat.le_succ_of_le
      (fun _ _ _ hk => hk) rfl
  exact hmain.moved (.pbufGlobal .dupe) (.pbOut .dupe) (by simp) id Nat.le_succ_of_le
    (fun _ _ _ hk => hk) rfl

/-- No step takes a packet back. -/
theorem Reached.step {k : Nat} (h : a.Reached w n k) (hstep : Step a evs a')
    (hnone : NoneFreed evs) : a'.Reached w n k := by
  cases hstep with
  | idle => exact h
  | alloc thread => exact h
  | queue hw hfresh =>
    obtain ⟨x, hx, hfor, hk⟩ := h
    exact ⟨x, mem_update_append.mpr (.inl hx), hfor, hk⟩
  | @flush v hw =>
    exact h.moved (.incoming v) (.incomingLocal v) (by simp) id Nat.le_succ_of_le
      (fun _ _ _ hk => hk) rfl
  | clean => exact h
  | roundStart hphase => exact h
  | @drain v hphase hpb hw =>
    exact h.moved .pb (.incoming v) (by simp) (fun _ => trivial) Nat.le_succ_of_le
      (fun _ _ _ hk => hk) rfl
  | @check ln m ms hphase hpb =>
    obtain ⟨x, hx, hfor, hk⟩ := h
    by_cases hxp : x = .pb
    · subst hxp
      rw [hpb, List.mem_cons] at hx
      rcases hx with rfl | hx
      · exact ⟨.pbOut ln, by simp, trivial, Nat.le_succ_of_le hk⟩
      · exact ⟨.pb, by simpa using hx, trivial, hk⟩
    · by_cases hxo : x = .pbOut ln
      · subst hxo
        exact ⟨.pbOut ln, by simp [hx], trivial, hk⟩
      · exact ⟨x, by rwa [check_q_of_ne hxp hxo], hfor, hk⟩
  | roundEnd hphase hpb => exact h.roundEnd
  | visit hw hthread hpending => exact h
  | lagScan hphase => exact h
  | purge hphase hpurge =>
    obtain ⟨rfl, rfl⟩ := hpurge.eq_of_noneFreed hnone
    exact h

theorem reached_of_queued (hstep : Step a [.queued w n] a') : a'.Reached w n 0 := by
  cases hstep with
  | queue hw hfresh =>
    exact ⟨.incomingLocal w, mem_update_append.mpr (.inr ⟨rfl, rfl⟩), rfl, Nat.zero_le _⟩
  | purge hphase hpurge => cases hpurge

theorem Reached.flushed (h : a.Reached w n 0) (hstep : Step a [.flushed w] a') :
    a'.Reached w n 1 := by
  cases hstep with
  | flush hw =>
    refine h.moved (.incoming w) (.incomingLocal w) (by simp) id (fun _ => Nat.le_refl 1) ?_ rfl
    intro z hz hfor _
    cases z with
    | incomingLocal w' => exact absurd (congrArg Head.incomingLocal hfor) hz
    | _ => simp [Head.stage]
  | purge hphase hpurge => cases hpurge

theorem Reached.drained (h : a.Reached w n 1) (hstep : Step a [.drained w] a') :
    a'.Reached w n 2 := by
  cases hstep with
  | drain hphase hpb hw =>
    refine h.moved .pb (.incoming w) (by simp) (fun _ => trivial) (fun _ => Nat.le_refl 2) ?_ rfl
    intro z hz hfor hk
    cases z with
    | incomingLocal w' => exact absurd hk (Nat.not_succ_le_zero 0)
    | incoming w' => exact absurd (congrArg Head.incoming hfor) hz
    | _ => simp [Head.stage]
  | purge hphase hpurge => cases hpurge

theorem Reached.published (h : a.Reached w n 2) (hstep : Step a [.published] a') :
    a'.Reached w n 4 := by
  cases hstep with
  | roundEnd hphase hpb =>
    obtain ⟨x, hx, -, hk⟩ := h
    have hglobal : ∀ ln, n ∈ a.lane ln → a.roundEnd.Reached w n 4 := by
      intro ln hn
      exact ⟨.pbufGlobal ln, by rw [← global, roundEnd_global]; exact hn, trivial, Nat.le_refl 4⟩
    cases x with
    | incomingLocal w' => exact absurd hk (Nat.not_succ_le_zero 1)
    | incoming w' => exact absurd hk (by simp [Head.stage])
    | pb =>
      rw [hpb] at hx
      cases hx
    | pbOut ln => exact hglobal ln (List.mem_append_right _ hx)
    | pbufGlobal ln => exact hglobal ln (List.mem_append_left _ hx)
  | purge hphase hpurge => cases hpurge

/-- A step that frees nothing has at most one event. -/
theorem Step.events_cases (hstep : Step a evs a') (hnone : NoneFreed evs) :
    evs = [] ∨ ∃ e, evs = [e] := by
  cases hstep with
  | purge hphase hpurge => exact .inl (hpurge.eq_of_noneFreed hnone).1
  | _ => simp

theorem sublist_snoc_cases {α : Type*} {l xs : List α} {x e : α} (h : (l ++ [x]).Sublist (xs ++ [e])) :
    (l ++ [x]).Sublist xs ∨ (x = e ∧ l.Sublist xs) := by
  have hrev := List.reverse_sublist.mpr h
  simp only [List.reverse_append, List.reverse_singleton, List.singleton_append] at hrev
  rcases List.cons_sublist_cons'.mp hrev with hkeep | ⟨heq, hlast⟩
  · left
    refine List.reverse_sublist.mp ?_
    simpa using hkeep
  · exact .inr ⟨heq, List.reverse_sublist.mp hlast⟩

/-- The stage after one more event, from the stage after the events before it. -/
theorem reached_snoc {evs' l : List PipelineEvent} {x : PipelineEvent} {before : Prop} {k : Nat}
    (hbefore : l.Sublist evs → before) (hreached : (l ++ [x]).Sublist evs → a.Reached w n k)
    (hstep : Step a evs' a') (hnone : NoneFreed evs')
    (hx : before → Step a [x] a' → a'.Reached w n k) (hsub : (l ++ [x]).Sublist (evs ++ evs')) :
    a'.Reached w n k := by
  rcases hstep.events_cases hnone with rfl | ⟨e, rfl⟩
  · rw [List.append_nil] at hsub
    exact (hreached hsub).step hstep hnone
  · rcases sublist_snoc_cases hsub with hkeep | ⟨heq, hlast⟩
    · exact (hreached hkeep).step hstep hnone
    · subst heq
      exact hx (hbefore hlast) hstep

/-- How far the events of a run have brought a packet. -/
theorem Run.reached (hrun : Run .init evs a) (hnone : NoneFreed evs) (w n : Nat) :
    ([.queued w n].Sublist evs → a.Reached w n 0) ∧
    ([.queued w n, .flushed w].Sublist evs → a.Reached w n 1) ∧
    ([.queued w n, .flushed w, .drained w].Sublist evs → a.Reached w n 2) ∧
    ([.queued w n, .flushed w, .drained w, .published].Sublist evs → a.Reached w n 4) := by
  induction hrun with
  | nil => simp
  | snoc _ hstep ih =>
    obtain ⟨h0, h1, h2, h4⟩ := ih hnone.of_append.1
    have hnone' := hnone.of_append.2
    refine ⟨?_, ?_, ?_, ?_⟩
    · exact reached_snoc (l := []) (fun _ => trivial) h0 hstep hnone' fun _ => reached_of_queued
    · exact reached_snoc (l := [.queued w n]) h0 h1 hstep hnone' Reached.flushed
    · exact reached_snoc (l := [.queued w n, .flushed w]) h1 h2 hstep hnone' Reached.drained
    · exact reached_snoc (l := [.queued w n, .flushed w, .drained w]) h2 h4 hstep hnone'
        Reached.published

/-- A packet that was published is in a global list. -/
theorem Reached.mem_global (h : a.Reached w n 4) : ∃ ln, n ∈ a.global ln := by
  obtain ⟨x, hx, -, hk⟩ := h
  cases x with
  | pbufGlobal ln => exact ⟨ln, hx⟩
  | _ => exact absurd hk (by simp [Head.stage])

/-! ## Visits -/

/-- What a worker has visited since `a`, and what it has yet to visit in `a'`, is
the list from its old position on. -/
structure Visits (a : Flow) (w : Nat) (ln : Lane) (evs : List PipelineEvent) (a' : Flow) : Prop where
  gone : a'.gone ln = 0
  pos_le : a'.pos w ln ≤ (a'.global ln).length
  from_le : a.pos w ln ≤ (a.global ln).length
  grows : a.global ln <+: a'.global ln
  visits : visitedBy w ln evs ++ a'.pending w ln = (a'.global ln).drop (a.pos w ln)

theorem Visits.frame {ln : Lane} {a₀ : Flow} {evs' : List PipelineEvent}
    (h : Visits a₀ w ln evs a) (hevs : visitedBy w ln evs' = []) (hgone : a'.gone ln = a.gone ln)
    (hpos : a'.pos w ln = a.pos w ln) (hglobal : a'.global ln = a.global ln) :
    Visits a₀ w ln (evs ++ evs') a' where
  gone := hgone.trans h.gone
  pos_le := by rw [hpos, hglobal]; exact h.pos_le
  from_le := h.from_le
  grows := hglobal ▸ h.grows
  visits := by
    have hvisits := h.visits
    rw [pending] at hvisits
    rw [visitedBy_append, hevs, List.append_nil, pending, hpos, hgone, hglobal]
    exact hvisits

theorem Visits.roundEnd {ln : Lane} {a₀ : Flow} (h : Visits a₀ w ln evs a) :
    Visits a₀ w ln (evs ++ [.published]) a.roundEnd := by
  have hfrom : a₀.pos w ln ≤ (a.global ln).length :=
    Nat.le_trans h.from_le h.grows.length_le
  have hpos : a.pos w ln - a.gone ln ≤ (a.global ln).length := by
    rw [h.gone]
    exact h.pos_le
  refine ⟨h.gone, ?_, h.from_le, ?_, ?_⟩
  · rw [roundEnd_global, List.length_append]
    exact Nat.le_trans h.pos_le (Nat.le_add_right _ _)
  · rw [roundEnd_global]
    exact h.grows.trans (List.prefix_append _ _)
  · have hvisits := h.visits
    rw [pending] at hvisits
    rw [visitedBy_append, pending, roundEnd_global, List.drop_append_of_le_length hfrom, ← hvisits,
      show a.roundEnd.pos w ln - a.roundEnd.gone ln = a.pos w ln - a.gone ln from rfl,
      List.drop_append_of_le_length hpos]
    simp [visitedBy]

theorem Visits.visit {ln : Lane} {a₀ : Flow} {d : Disposition} {ns : List Nat}
    (h : Visits a₀ w ln evs a) (hpending : a.pending w ln = n :: ns) :
    Visits a₀ w ln (evs ++ [.visited w ln n d]) (a.visit w ln) := by
  have hpos : (a.visit w ln).pos w ln = a.pos w ln + 1 := by simp [Flow.visit]
  have hvisits := h.visits
  rw [hpending] at hvisits
  have hrest := visit_pending (by rw [h.gone]; exact Nat.zero_le _) hpending
  rw [pending, h.gone, Nat.sub_zero] at hpending
  have hlt : a.pos w ln < (a.global ln).length := by
    by_contra hge
    rw [List.drop_eq_nil_of_le (Nat.not_lt.mp hge)] at hpending
    cases hpending
  refine ⟨h.gone, ?_, h.from_le, h.grows, ?_⟩
  · rw [hpos]
    exact hlt
  · rw [visitedBy_append, hrest, show (a.visit w ln).global ln = a.global ln from rfl, ← hvisits]
    simp [visitedBy]

theorem Visits.step {ln : Lane} {a₀ : Flow} {evs' : List PipelineEvent} (h : Visits a₀ w ln evs a)
    (hw : w < a.nworkers) (hstep : Step a evs' a') (hnone : NoneFreed evs') :
    Visits a₀ w ln (evs ++ evs') a' := by
  cases hstep with
  | idle => exact h.frame rfl rfl rfl rfl
  | alloc thread =>
    exact h.frame rfl rfl (by simp [Flow.alloc, Nat.ne_of_lt hw]) rfl
  | queue hw' hfresh => exact h.frame rfl rfl rfl (by simp [Flow.queue, Flow.global])
  | flush hw' => exact h.frame rfl rfl rfl (flush_global ..)
  | clean => exact h.frame rfl rfl rfl rfl
  | roundStart hphase => exact h.frame rfl rfl rfl rfl
  | drain hphase hpb hw' => exact h.frame rfl rfl rfl (drain_global ..)
  | check hphase hpb => exact h.frame rfl rfl rfl (check_global ln)
  | roundEnd hphase hpb => exact h.roundEnd
  | @visit w' n ln' ns d hw' hthread hpending =>
    by_cases hsame : w' = w ∧ ln' = ln
    · obtain ⟨rfl, rfl⟩ := hsame
      exact h.visit hpending
    · refine h.frame (by simp [visitedBy, hsame]) rfl ?_ rfl
      by_cases hww : w = w'
      · subst hww
        have hln : ln ≠ ln' := fun heq => hsame ⟨rfl, heq.symm⟩
        simp [Flow.visit, hln]
      · simp [Flow.visit, hww]
  | lagScan hphase => exact h.frame rfl rfl rfl rfl
  | purge hphase hpurge =>
    obtain ⟨rfl, rfl⟩ := hpurge.eq_of_noneFreed hnone
    exact h.frame rfl rfl rfl rfl

theorem Step.nworkers_le (hstep : Step a evs a') (hnone : NoneFreed evs) :
    a.nworkers ≤ a'.nworkers := by
  cases hstep with
  | alloc thread => exact Nat.le_succ _
  | purge hphase hpurge =>
    obtain ⟨-, rfl⟩ := hpurge.eq_of_noneFreed hnone
    exact Nat.le_refl _
  | _ => exact Nat.le_refl _

/-- A step that frees nothing leaves the marks of the old workers and purges nothing. -/
theorem Step.thread_gone_eq (hstep : Step a evs a') (hnone : NoneFreed evs) :
    a'.gone = a.gone ∧ ∀ w < a.nworkers, a'.thread w = a.thread w := by
  cases hstep with
  | alloc thread => exact ⟨rfl, fun w hw => Function.update_of_ne (Nat.ne_of_lt hw) ..⟩
  | purge hphase hpurge =>
    obtain ⟨-, rfl⟩ := hpurge.eq_of_noneFreed hnone
    exact ⟨rfl, fun _ _ => rfl⟩
  | _ => exact ⟨rfl, fun _ _ => rfl⟩

theorem Run.thread_gone_eq (hrun : Run a evs a') (hnone : NoneFreed evs) :
    a'.gone = a.gone ∧ a.nworkers ≤ a'.nworkers ∧ ∀ w < a.nworkers, a'.thread w = a.thread w := by
  induction hrun with
  | nil => exact ⟨rfl, Nat.le_refl _, fun _ _ => rfl⟩
  | snoc _ hstep ih =>
    obtain ⟨hgone, hle, hthread⟩ := ih hnone.of_append.1
    obtain ⟨hgone', hthread'⟩ := hstep.thread_gone_eq hnone.of_append.2
    refine ⟨hgone'.trans hgone, Nat.le_trans hle (hstep.nworkers_le hnone.of_append.2), ?_⟩
    exact fun w hw => (hthread' w (Nat.lt_of_lt_of_le hw hle)).trans (hthread w hw)

/-- Along a run that frees nothing, a worker visits the lists in their order. -/
theorem Run.visits (hrun : Run a evs a') (w : Nat) (ln : Lane) (hnone : NoneFreed evs)
    (hw : w < a.nworkers) (hgone : a.gone ln = 0) (hpos : a.pos w ln ≤ (a.global ln).length) :
    Visits a w ln evs a' ∧ w < a'.nworkers := by
  induction hrun with
  | nil =>
    refine ⟨⟨hgone, hpos, hpos, List.prefix_rfl, ?_⟩, hw⟩
    rw [pending, hgone]
    rfl
  | snoc _ hstep ih =>
    obtain ⟨hvisits, hw'⟩ := ih hnone.of_append.1
    exact ⟨hvisits.step hw' hstep hnone.of_append.2,
      Nat.lt_of_lt_of_le hw' (hstep.nworkers_le hnone.of_append.2)⟩

end Flow

end Aprsc
