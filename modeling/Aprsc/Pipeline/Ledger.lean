-- SUMMARY: What becomes of every queued packet in any interleaving, with purges and with buffers that are used again.
import Aprsc.Pipeline.Delivery
import Aprsc.Pipeline.Frame
import Aprsc.Pipeline.Purge

/-!
# The ledger of the pipeline

Once packets are freed, their buffers come back with other packets in them, and the
address of a packet no longer names it. The ledger names every packet that a
dupecheck round has sorted by its place in the order of sorting: which worker had
queued it, and to which list it went. The packets that were freed are the oldest
entries of a list, what the list holds are the others, and a worker reads them in
this order.
-/

namespace Aprsc

open PtrQueue

@[simp] theorem freedFrom_append (ln : Lane) (evs evs' : List PipelineEvent) :
    freedFrom ln (evs ++ evs') = freedFrom ln evs ++ freedFrom ln evs' := List.filterMap_append ..

/-- A packet that was sorted. -/
structure LedgerEntry where
  worker : Nat
  lane : Lane
  packet : Nat

/-- The packets of a worker that were sorted, in this order. -/
def sortedOf (w : Nat) (log : List LedgerEntry) : List Nat :=
  (log.filter (·.worker = w)).map (·.packet)

/-- The packets that were sorted to a list, in this order. -/
def sortedTo (ln : Lane) (log : List LedgerEntry) : List Nat :=
  (log.filter (·.lane = ln)).map (·.packet)

section Entries

variable {log : List LedgerEntry} {w n : Nat} {ln : Lane}

theorem sortedOf_snoc_self : sortedOf w (log ++ [⟨w, ln, n⟩]) = sortedOf w log ++ [n] := by
  simp [sortedOf]

theorem sortedOf_snoc_of_ne {w' : Nat} (hw : w ≠ w') :
    sortedOf w' (log ++ [⟨w, ln, n⟩]) = sortedOf w' log := by
  simp [sortedOf, hw]

theorem sortedTo_snoc_self : sortedTo ln (log ++ [⟨w, ln, n⟩]) = sortedTo ln log ++ [n] := by
  simp [sortedTo]

theorem sortedTo_snoc_of_ne {ln' : Lane} (hln : ln ≠ ln') :
    sortedTo ln' (log ++ [⟨w, ln, n⟩]) = sortedTo ln' log := by
  simp [sortedTo, hln]

end Entries

namespace Flow

variable {a a' : Flow} {evs evs' : List PipelineEvent}

/-! ## Purges -/

/-- A purge takes what it frees off the front of the lists. -/
theorem Purge.lane_eq (hpurge : Purge a evs a') (ln : Lane) :
    a.lane ln = freedFrom ln evs ++ a'.lane ln := by
  induction hpurge with
  | done => rfl
  | @unlink b b' ln' n ns evs' hq hmay hrest ih =>
    by_cases hln : ln = ln'
    · subst hln
      rw [lane_eq_cons_unlink hq, ih]
      simp [freedFrom]
    · rw [← unlink_lane_of_ne hln, ih]
      simp [freedFrom, Ne.symm hln]

theorem Purge.global_eq (hpurge : Purge a evs a') (ln : Lane) :
    a.global ln = freedFrom ln evs ++ a'.global ln := by
  induction hpurge with
  | done => rfl
  | @unlink b b' ln' n ns evs' hq hmay hrest ih =>
    by_cases hln : ln = ln'
    · subst hln
      rw [unlink_global hq] at ih
      rw [hq, ih]
      simp [freedFrom]
    · rw [← unlink_global_of_ne hln, ih]
      simp [freedFrom, Ne.symm hln]

/-- It touches no other queue. -/
theorem Purge.q_eq (hpurge : Purge a evs a') {x : Head} (hx : ∀ ln, x ≠ .pbufGlobal ln) :
    a'.q x = a.q x := by
  induction hpurge with
  | done => rfl
  | unlink hq hmay hrest ih => rw [ih, unlink_q_of_ne (hx _)]

/-- Nobody is queued and nobody reads in a purge. -/
theorem Purge.queuedBy_eq (hpurge : Purge a evs a') (w : Nat) : queuedBy w evs = [] := by
  induction hpurge with
  | done => rfl
  | unlink hq hmay hrest ih => simpa [queuedBy] using ih

theorem Purge.visitedBy_eq (hpurge : Purge a evs a') (w : Nat) (ln : Lane) :
    visitedBy w ln evs = [] := by
  induction hpurge with
  | done => rfl
  | unlink hq hmay hrest ih => simpa [visitedBy] using ih

theorem Purge.gone_eq (hpurge : Purge a evs a') (ln : Lane) :
    a'.gone ln = a.gone ln + (freedFrom ln evs).length := by
  induction hpurge with
  | done => rfl
  | @unlink b b' ln' n ns evs' hq hmay hrest ih =>
    by_cases hln : ln = ln'
    · subst hln
      rw [ih, unlink_gone]
      simp [freedFrom]
      omega
    · rw [ih, unlink_gone_of_ne hln]
      simp [freedFrom, Ne.symm hln]

/-- The workers stay as they are. -/
theorem Purge.workers_eq (hpurge : Purge a evs a') :
    a'.nworkers = a.nworkers ∧ a'.thread = a.thread ∧ a'.pos = a.pos := by
  induction hpurge with
  | done => exact ⟨rfl, rfl, rfl⟩
  | unlink hq hmay hrest ih => exact ih

/-- Every worker thread has read what a purge frees. -/
theorem Purge.gone_le (hpurge : Purge a evs a') {w : Nat} (hw : w < a.nworkers)
    (hthread : a.thread w = true) {ln : Lane} (hle : a.gone ln ≤ a.pos w ln) :
    a'.gone ln ≤ a'.pos w ln := by
  induction hpurge with
  | done => exact hle
  | @unlink b b' ln' n ns evs' hq hmay hrest ih =>
    apply ih hw hthread
    by_cases hln : ln = ln'
    · subst hln
      rw [unlink_gone]
      exact Nat.le_of_lt (hmay.2 w hw hthread)
    · rw [unlink_gone_of_ne hln]
      exact hle

/-! ## The ledger -/

/-- What the ledger says about the queues. `owner` tells who queued a packet that is
still on its way to the lists. -/
structure Ledger (evs : List PipelineEvent) (a : Flow) (log : List LedgerEntry)
    (owner : Nat → Nat) : Prop where
  lane : ∀ ln, sortedTo ln log = freedFrom ln evs ++ a.lane ln
  order : ∀ w, queuedBy w evs = sortedOf w log ++ (a.q .pb).filter (owner · = w) ++
    a.q (.incoming w) ++ a.q (.incomingLocal w)
  owner : ∀ w n, n ∈ a.q (.incoming w) ∨ n ∈ a.q (.incomingLocal w) → owner n = w

namespace Ledger

variable {log : List LedgerEntry} {owner : Nat → Nat} {w n : Nat}

theorem init (owner : Nat → Nat) : Ledger [] Flow.init [] owner where
  lane := fun ln => by simp [sortedTo, freedFrom, Flow.lane, Flow.global, Flow.init]
  order := fun w => by simp [queuedBy, sortedOf, Flow.init]
  owner := fun w n => by simp [Flow.init]

/-- A step that queues and frees nothing, and leaves the packets of every worker in
their order. -/
theorem frame (h : Ledger evs a log owner) (hqueued : ∀ w, queuedBy w evs' = [])
    (hfreed : ∀ ln, freedFrom ln evs' = []) (hlane : ∀ ln, a'.lane ln = a.lane ln)
    (horder : ∀ w, (a'.q .pb).filter (owner · = w) ++ a'.q (.incoming w) ++ a'.q (.incomingLocal w) =
      (a.q .pb).filter (owner · = w) ++ a.q (.incoming w) ++ a.q (.incomingLocal w))
    (howner : ∀ w n, n ∈ a'.q (.incoming w) ∨ n ∈ a'.q (.incomingLocal w) →
      n ∈ a.q (.incoming w) ∨ n ∈ a.q (.incomingLocal w)) :
    Ledger (evs ++ evs') a' log owner where
  lane := fun ln => by
    rw [freedFrom_append, hfreed, List.append_nil, hlane]
    exact h.lane ln
  order := fun w => by
    rw [queuedBy_append, hqueued, List.append_nil, h.order w]
    have := horder w
    simp only [List.append_assoc] at this ⊢
    rw [this]
  owner := fun w n hn => h.owner w n (howner w n hn)

/-- A step that leaves the queues alone. -/
theorem of_q_eq (h : Ledger evs a log owner) (hqueued : ∀ w, queuedBy w evs' = [])
    (hfreed : ∀ ln, freedFrom ln evs' = []) (hq : a'.q = a.q) : Ledger (evs ++ evs') a' log owner := by
  apply h.frame hqueued hfreed
  · intro ln
    rw [Flow.lane, Flow.global, hq, Flow.lane]
  · intro w
    rw [hq]
  · intro w n hn
    rwa [hq] at hn

/-- A new packet is owned by the worker that queued it. -/
theorem queue (h : Ledger evs a log owner) (hfresh : ∀ x, n ∉ a.q x) :
    Ledger (evs ++ [.queued w n]) (a.queue w n) log (Function.update owner n w) where
  lane := fun ln => by
    have hlane : (a.queue w n).lane ln = a.lane ln := by simp [Flow.lane, Flow.global, Flow.queue]
    rw [freedFrom_append, hlane, h.lane ln]
    simp [freedFrom]
  order := fun w' => by
    have hpb : ((a.queue w n).q .pb).filter (Function.update owner n w · = w') =
        (a.q .pb).filter (owner · = w') := by
      rw [show (a.queue w n).q .pb = a.q .pb by simp [Flow.queue]]
      refine List.filter_congr fun m hm => ?_
      have hmn : m ≠ n := fun heq => hfresh .pb (heq ▸ hm)
      rw [Function.update_of_ne hmn]
    have hincoming : (a.queue w n).q (.incoming w') = a.q (.incoming w') := by simp [Flow.queue]
    rw [hpb, hincoming]
    by_cases hw : w' = w
    · subst hw
      rw [FlowHistory.queuedBy_queued_self, h.order w']
      simp [Flow.queue]
    · rw [FlowHistory.queuedBy_queued_of_ne hw, h.order w']
      simp [Flow.queue, hw]
  owner := fun w' m hm => by
    by_cases hmn : m = n
    · subst hmn
      rw [Function.update_self]
      -- The packet is nowhere but where it was queued.
      by_contra hne
      rcases hm with hm | hm
      · exact hfresh _ (by simpa [Flow.queue] using hm)
      · exact hfresh (.incomingLocal w') (by simpa [Flow.queue, Ne.symm hne] using hm)
    · rw [Function.update_of_ne hmn]
      apply h.owner w' m
      apply hm.imp
      · intro hm
        simpa [Flow.queue] using hm
      · intro hm
        by_cases hw : w' = w
        · subst hw
          simpa [Flow.queue, hmn] using hm
        · simpa [Flow.queue, hw] using hm

theorem flush (h : Ledger evs a log owner) : Ledger (evs ++ [.flushed w]) (a.flush w) log owner := by
  have hpb : (a.flush w).q .pb = a.q .pb := by
    simp only [Flow.flush]
    rw [moved_of_ne (by simp) (by simp)]
  have hother {w'} (hw : w' ≠ w) : (a.flush w).q (.incoming w') = a.q (.incoming w') ∧
      (a.flush w).q (.incomingLocal w') = a.q (.incomingLocal w') := by
    simp only [Flow.flush]
    rw [moved_of_ne (by simpa using hw) (by simp), moved_of_ne (by simp) (by simpa using hw)]
    exact ⟨rfl, rfl⟩
  have hself : (a.flush w).q (.incoming w) = a.q (.incoming w) ++ a.q (.incomingLocal w) ∧
      (a.flush w).q (.incomingLocal w) = [] := by
    simp only [Flow.flush]
    rw [moved_left (by simp), moved_right]
    exact ⟨rfl, rfl⟩
  apply h.frame (fun _ => rfl) (fun _ => rfl)
  · intro ln
    rw [Flow.lane, flush_global, Flow.lane]
    simp only [Flow.flush]
    rw [moved_of_ne (by simp) (by simp)]
  · intro w'
    rw [hpb]
    by_cases hw : w' = w
    · subst hw
      rw [hself.1, hself.2]
      simp
    · rw [(hother hw).1, (hother hw).2]
  · intro w' m hm
    by_cases hw : w' = w
    · subst hw
      rw [hself.1, hself.2] at hm
      simpa using hm
    · rwa [(hother hw).1, (hother hw).2] at hm

/-- The dupecheck thread has sorted everything before it takes a worker's queue. -/
theorem drain (h : Ledger evs a log owner) (hpb : a.q .pb = []) :
    Ledger (evs ++ [.drained w]) (a.drain w) log owner := by
  have hpb' : (a.drain w).q .pb = a.q (.incoming w) := by
    simp only [Flow.drain]
    rw [moved_left (by simp), hpb, List.nil_append]
  have hlocal (w') : (a.drain w).q (.incomingLocal w') = a.q (.incomingLocal w') := by
    simp only [Flow.drain]
    rw [moved_of_ne (by simp) (by simp)]
  have hself : (a.drain w).q (.incoming w) = [] := by
    simp only [Flow.drain]
    rw [moved_right]
  have hother {w'} (hw : w' ≠ w) : (a.drain w).q (.incoming w') = a.q (.incoming w') := by
    simp only [Flow.drain]
    rw [moved_of_ne (by simp) (by simpa using hw)]
  apply h.frame (fun _ => rfl) (fun _ => rfl)
  · intro ln
    rw [Flow.lane, drain_global, Flow.lane]
    simp only [Flow.drain]
    rw [moved_of_ne (by simp) (by simp)]
  · intro w'
    rw [hpb', hpb, hlocal]
    by_cases hw : w' = w
    · subst hw
      have hall : (a.q (.incoming w')).filter (owner · = w') = a.q (.incoming w') :=
        List.filter_eq_self.mpr fun m hm => by simpa using h.owner w' m (.inl hm)
      rw [hself, hall]
      simp
    · have hnone : (a.q (.incoming w)).filter (owner · = w') = [] :=
        List.filter_eq_nil_iff.mpr fun m hm => by
          rw [h.owner w m (.inl hm)]
          simpa using Ne.symm hw
      rw [hother hw, hnone]
      simp
  · intro w' m hm
    rw [hlocal] at hm
    by_cases hw : w' = w
    · subst hw
      rw [hself] at hm
      exact .inr (by simpa using hm)
    · rwa [hother hw] at hm

/-- A packet that is sorted enters the ledger. -/
theorem check (h : Ledger evs a log owner) {ln : Lane} {ns : List Nat} (hpb : a.q .pb = n :: ns) :
    Ledger evs (a.check ln n ns) (log ++ [⟨owner n, ln, n⟩]) owner where
  lane := fun ln' => by
    by_cases hln : ln' = ln
    · subst hln
      rw [sortedTo_snoc_self, check_lane, h.lane, List.append_assoc]
    · rw [sortedTo_snoc_of_ne (Ne.symm hln), check_lane_of_ne hln, h.lane]
  order := fun w => by
    rw [check_q_pb, check_q_of_ne (by simp) (by simp), check_q_of_ne (by simp) (by simp), h.order w,
      hpb]
    by_cases hw : owner n = w
    · subst hw
      rw [sortedOf_snoc_self]
      simp
    · rw [sortedOf_snoc_of_ne hw]
      simp [hw]
  owner := fun w m hm => by
    rw [check_q_of_ne (by simp) (by simp), check_q_of_ne (by simp) (by simp)] at hm
    exact h.owner w m hm

theorem roundEnd (h : Ledger evs a log owner) : Ledger (evs ++ [.published]) a.roundEnd log owner := by
  have hq {x} (hx : ∀ ln, x ≠ .pbufGlobal ln ∧ x ≠ .pbOut ln) : a.roundEnd.q x = a.q x :=
    roundEnd_q_of_ne hx
  apply h.frame (fun _ => rfl) (fun _ => rfl)
  · exact fun ln => roundEnd_lane a ln
  · intro w
    rw [hq (by simp), hq (by simp), hq (by simp)]
  · intro w n hn
    rwa [hq (by simp), hq (by simp)] at hn

theorem purge (h : Ledger evs a log owner) (hpurge : Purge a evs' a') :
    Ledger (evs ++ evs') { a' with phase := .idle } log owner where
  lane := fun ln => by
    rw [h.lane, hpurge.lane_eq ln, freedFrom_append, List.append_assoc]
    rfl
  order := fun w => by
    rw [queuedBy_append, hpurge.queuedBy_eq, List.append_nil, h.order w]
    simp only [hpurge.q_eq (x := .pb) (by simp), hpurge.q_eq (x := .incoming w) (by simp),
      hpurge.q_eq (x := .incomingLocal w) (by simp)]
  owner := fun w n hn => by
    simp only [hpurge.q_eq (x := .incoming w) (by simp),
      hpurge.q_eq (x := .incomingLocal w) (by simp)] at hn
    exact h.owner w n hn

/-- No step rewrites the ledger. -/
theorem step (h : Ledger evs a log owner) (hstep : Step a evs' a') :
    ∃ new owner', Ledger (evs ++ evs') a' (log ++ new) owner' := by
  have hsame {b : Flow} {e : List PipelineEvent} {own : Nat → Nat} (hb : Ledger (evs ++ e) b log own) :
      ∃ new own', Ledger (evs ++ e) b (log ++ new) own' :=
    ⟨[], own, by rwa [List.append_nil]⟩
  cases hstep with
  | idle => exact hsame (h.of_q_eq (fun _ => rfl) (fun _ => rfl) rfl)
  | alloc thread => exact hsame (h.of_q_eq (fun _ => rfl) (fun _ => rfl) rfl)
  | queue hw hfresh => exact hsame (h.queue hfresh)
  | flush hw => exact hsame h.flush
  | clean => exact hsame (h.of_q_eq (fun _ => rfl) (fun _ => rfl) rfl)
  | roundStart hphase => exact hsame (h.of_q_eq (fun _ => rfl) (fun _ => rfl) rfl)
  | drain hphase hpb hw => exact hsame (h.drain hpb)
  | check hphase hpb =>
    rw [List.append_nil]
    exact ⟨_, owner, h.check hpb⟩
  | roundEnd hphase hpb => exact hsame h.roundEnd
  | visit hw hthread hpending => exact hsame (h.of_q_eq (fun _ => rfl) (fun _ => rfl) rfl)
  | lagScan hphase => exact hsame (h.of_q_eq (fun _ => rfl) (fun _ => rfl) rfl)
  | purge hphase hpurge => exact hsame (h.purge hpurge)

theorem run {evs₀ : List PipelineEvent} (h : Ledger evs₀ a log owner) (hrun : Run a evs a') :
    ∃ new owner', Ledger (evs₀ ++ evs) a' (log ++ new) owner' := by
  induction hrun with
  | nil => exact ⟨[], owner, by simpa using h⟩
  | snoc _ hstep ih =>
    obtain ⟨new, owner', h'⟩ := ih
    obtain ⟨new', owner'', h''⟩ := h'.step hstep
    refine ⟨new ++ new', owner'', ?_⟩
    simpa only [List.append_assoc] using h''

end Ledger

/-! ## What a worker reads -/

/-- What a worker thread has visited since `a`, and what it has yet to visit in `a'`,
is what the list got since. Whatever was freed it had visited. -/
structure Reads (a : Flow) (w : Nat) (ln : Lane) (evs : List PipelineEvent) (a' : Flow) : Prop where
  thread : w < a'.nworkers ∧ a'.thread w = true
  gone_le : a'.gone ln ≤ a'.pos w ln
  pos_le : a'.pos w ln ≤ a'.total ln
  grows : a.global ln <+: freedFrom ln evs ++ a'.global ln
  gone : a'.gone ln = a.gone ln + (freedFrom ln evs).length
  reads : a.global ln ++ visitedBy w ln evs ++ a'.pending w ln = freedFrom ln evs ++ a'.global ln

namespace Reads

variable {a₀ : Flow} {w : Nat} {ln : Lane}

/-- A step in which the worker reads nothing and the list stays. -/
theorem frame (h : Reads a₀ w ln evs a) (hvisited : visitedBy w ln evs' = [])
    (hfreed : freedFrom ln evs' = []) (hn : a.nworkers ≤ a'.nworkers)
    (hthread : a'.thread w = a.thread w) (hgone : a'.gone ln = a.gone ln)
    (hpos : a'.pos w ln = a.pos w ln) (hglobal : a'.global ln = a.global ln) :
    Reads a₀ w ln (evs ++ evs') a' where
  thread := ⟨Nat.lt_of_lt_of_le h.thread.1 hn, hthread ▸ h.thread.2⟩
  gone_le := by
    rw [hgone, hpos]
    exact h.gone_le
  pos_le := by
    have := h.pos_le
    rw [total] at this ⊢
    rwa [hpos, hgone, hglobal]
  grows := by
    rw [freedFrom_append, hfreed, List.append_nil, hglobal]
    exact h.grows
  gone := by
    rw [hgone, freedFrom_append, hfreed, List.append_nil]
    exact h.gone
  reads := by
    have := h.reads
    rw [pending] at this ⊢
    rw [visitedBy_append, hvisited, List.append_nil, freedFrom_append, hfreed, List.append_nil, hpos,
      hgone, hglobal]
    exact this

theorem roundEnd (h : Reads a₀ w ln evs a) : Reads a₀ w ln (evs ++ [.published]) a.roundEnd := by
  have hle : a.pos w ln - a.gone ln ≤ (a.global ln).length := by
    have := h.pos_le
    rw [total] at this
    omega
  refine ⟨h.thread, h.gone_le, ?_, ?_, ?_, ?_⟩
  · have := h.pos_le
    rw [total] at this ⊢
    rw [roundEnd_global, List.length_append, ← Nat.add_assoc]
    exact Nat.le_trans this (Nat.le_add_right _ _)
  · rw [freedFrom_append, roundEnd_global, show freedFrom ln [.published] = [] from rfl,
      List.append_nil, ← List.append_assoc]
    exact h.grows.trans (List.prefix_append _ _)
  · rw [freedFrom_append, show freedFrom ln [.published] = [] from rfl, List.append_nil]
    exact h.gone
  · have hreads := h.reads
    rw [pending] at hreads
    rw [visitedBy_append, freedFrom_append, pending, roundEnd_global,
      show a.roundEnd.pos w ln - a.roundEnd.gone ln = a.pos w ln - a.gone ln from rfl,
      List.drop_append_of_le_length hle, show freedFrom ln [.published] = [] from rfl,
      show visitedBy w ln [.published] = [] from rfl, List.append_nil, List.append_nil,
      ← List.append_assoc, hreads, List.append_assoc]

theorem visit (h : Reads a₀ w ln evs a) {n : Nat} {ns : List Nat} {d : Disposition}
    (hpending : a.pending w ln = n :: ns) :
    Reads a₀ w ln (evs ++ [.visited w ln n d]) (a.visit w ln) := by
  have hpos : (a.visit w ln).pos w ln = a.pos w ln + 1 := by simp [Flow.visit]
  have hlt : a.pos w ln - a.gone ln < (a.global ln).length := by
    by_contra hge
    rw [Flow.pending, List.drop_eq_nil_of_le (Nat.not_lt.mp hge)] at hpending
    cases hpending
  have hfreed : freedFrom ln [.visited w ln n d] = [] := rfl
  refine ⟨h.thread, ?_, ?_, ?_, ?_, ?_⟩
  · rw [hpos]
    exact Nat.le_succ_of_le h.gone_le
  · rw [hpos]
    have := h.gone_le
    change a.pos w ln + 1 ≤ a.gone ln + (a.global ln).length
    omega
  · rw [freedFrom_append, hfreed, List.append_nil]
    exact h.grows
  · rw [freedFrom_append, hfreed, List.append_nil]
    exact h.gone
  · rw [visit_pending h.gone_le hpending, freedFrom_append, hfreed, List.append_nil, visitedBy_append,
      show visitedBy w ln [.visited w ln n d] = [n] by simp [visitedBy]]
    have hreads := h.reads
    rw [hpending] at hreads
    change _ = _ ++ a.global ln
    simpa using hreads

/-- A purge frees only what the worker has behind it. -/
theorem purge (h : Reads a₀ w ln evs a) (hpurge : Purge a evs' a') :
    Reads a₀ w ln (evs ++ evs') { a' with phase := .idle } := by
  obtain ⟨hn, hthread, hpos⟩ := hpurge.workers_eq
  have hglobal := hpurge.global_eq ln
  have hgone := hpurge.gone_eq ln
  have hle := hpurge.gone_le h.thread.1 h.thread.2 h.gone_le
  have hlen := congrArg List.length hglobal
  rw [List.length_append] at hlen
  have hold := h.pos_le
  rw [total] at hold
  refine ⟨⟨hn ▸ h.thread.1, hthread ▸ h.thread.2⟩, hle, ?_, ?_, ?_, ?_⟩
  · change a'.pos w ln ≤ a'.gone ln + (a'.global ln).length
    rw [hpos, hgone]
    omega
  · rw [freedFrom_append, List.append_assoc]
    exact hglobal ▸ h.grows
  · rw [freedFrom_append, List.length_append, ← Nat.add_assoc, ← h.gone]
    exact hgone
  · -- The freed packets are part of what was dropped before.
    have hdrop : a.pending w ln = a'.pending w ln := by
      rw [pending, pending, hglobal, hpos, hgone, List.drop_append, List.drop_eq_nil_of_le,
        List.nil_append]
      · congr 1
        omega
      · rw [hpos, hgone] at hle
        omega
    rw [visitedBy_append, hpurge.visitedBy_eq, List.append_nil, freedFrom_append,
      List.append_assoc (freedFrom ln evs)]
    change _ ++ a'.pending w ln = _ ++ (_ ++ a'.global ln)
    rw [← hdrop, ← hglobal]
    exact h.reads

theorem step (h : Reads a₀ w ln evs a) (hstep : Step a evs' a') : Reads a₀ w ln (evs ++ evs') a' := by
  have hw := h.thread.1
  cases hstep with
  | idle => exact h.frame rfl rfl (Nat.le_refl _) rfl rfl rfl rfl
  | alloc thread =>
    have hne : w ≠ a.nworkers := Nat.ne_of_lt hw
    exact h.frame rfl rfl (Nat.le_succ _) (by simp [Flow.alloc, hne]) rfl (by simp [Flow.alloc, hne]) rfl
  | queue hw' hfresh =>
    exact h.frame rfl rfl (Nat.le_refl _) rfl rfl rfl (by simp [Flow.queue, Flow.global])
  | flush hw' => exact h.frame rfl rfl (Nat.le_refl _) rfl rfl rfl (flush_global ..)
  | clean => exact h.frame rfl rfl (Nat.le_refl _) rfl rfl rfl rfl
  | roundStart hphase => exact h.frame rfl rfl (Nat.le_refl _) rfl rfl rfl rfl
  | drain hphase hpb hw' => exact h.frame rfl rfl (Nat.le_refl _) rfl rfl rfl (drain_global ..)
  | check hphase hpb => exact h.frame rfl rfl (Nat.le_refl _) rfl rfl rfl (check_global ln)
  | roundEnd hphase hpb => exact h.roundEnd
  | @visit w' n ln' ns d hw' hthread hpending =>
    by_cases hsame : w' = w ∧ ln' = ln
    · obtain ⟨rfl, rfl⟩ := hsame
      exact h.visit hpending
    · refine h.frame (by simp [visitedBy, hsame]) rfl (Nat.le_refl _) rfl rfl ?_ rfl
      by_cases hww : w = w'
      · subst hww
        have hln : ln ≠ ln' := fun heq => hsame ⟨rfl, heq.symm⟩
        simp [Flow.visit, hln]
      · simp [Flow.visit, hww]
  | lagScan hphase => exact h.frame rfl rfl (Nat.le_refl _) rfl rfl rfl rfl
  | purge hphase hpurge => exact h.purge hpurge

theorem run {evs₀ : List PipelineEvent} (h : Reads a₀ w ln evs₀ a) (hrun : Run a evs a') :
    Reads a₀ w ln (evs₀ ++ evs) a' := by
  induction hrun with
  | nil => simpa using h
  | snoc _ hstep ih =>
    rw [← List.append_assoc]
    exact ih.step hstep

/-- A new worker thread starts at the end of the lists. -/
theorem of_alloc (a : Flow) (ln : Lane) : Reads a a.nworkers ln [] (a.alloc true) where
  thread := ⟨Nat.lt_succ_self _, by simp [Flow.alloc]⟩
  gone_le := by simp [Flow.alloc, total]
  pos_le := by simp [Flow.alloc, total, Flow.global]
  grows := List.prefix_rfl
  gone := rfl
  reads := by simp [Flow.alloc, pending, total, visitedBy, freedFrom, Flow.global]

end Reads

/-- The abstract pipeline never meets a packet that was freed. -/
theorem Step.not_aborted (hstep : Step a evs a') (w : Nat) (ln : Lane) (n : Nat) :
    .aborted w ln n ∉ evs := by
  cases hstep with
  | purge hphase hpurge =>
    induction hpurge with
    | done => exact List.not_mem_nil
    | unlink hq hmay hrest ih =>
      rw [List.mem_cons, not_or]
      exact ⟨by simp, ih hphase⟩
  | _ => simp

theorem Run.not_aborted (hrun : Run a evs a') (w : Nat) (ln : Lane) (n : Nat) :
    .aborted w ln n ∉ evs := by
  induction hrun with
  | nil => exact List.not_mem_nil
  | snoc _ hstep ih =>
    rw [List.mem_append, not_or]
    exact ⟨ih, hstep.not_aborted w ln n⟩

end Flow

/-! ## The pipeline -/

namespace Pipeline

variable {cfg : PipelineConfig} {s s₁ s₂ : Pipeline} {evs evs₁ evs₂ : List PipelineEvent}

/-- A purge frees two of the duplicates, and the buffer of the first is used again. -/
private def reuseActions : List PipelineAction :=
  [.purge 100, .queue 0 0 100, .incomingFlush 0 true, .incomingFlushClean 0, .roundStart, .drain 0,
   .check 1, .roundEnd, .processOutgoing 0 .dupe 100]

private def ledgerEvents : List PipelineEvent :=
  (List.range 102).map (.queued 0 ·) ++ [.flushed 0, .drained 0, .published] ++
    (List.range 102).map (.visited 0 .dupe · .sent)

private def reuseEvents : List PipelineEvent :=
  [.freed .dupe 0, .freed .dupe 1, .queued 0 0, .flushed 0, .drained 0, .published,
   .visited 0 .dupe 0 .sent]

private theorem run_reuse :
    ∃ s, Run .initial LagScanOk (init.workerAlloc true) (ledgerEvents ++ reuseEvents) s := by
  have hexec : ((exec .initial readDuplicates (init.workerAlloc true)).map fun r =>
      (r.2, (exec .initial reuseActions r.1.lagScan).map (·.2), r.1.phase,
        r.1.queues.count (.pbufGlobal .main), r.1.queues.count (.pbufGlobal .dupe))) =
      some (ledgerEvents, some reuseEvents, .idle, 0, 102) := by decide +kernel
  obtain ⟨r, hr, heq⟩ := Option.map_eq_some_iff.mp hexec
  simp only [Prod.mk.injEq] at heq
  obtain ⟨hevs, hreuse, hphase, hmain, hdupe⟩ := heq
  have hrun : Run .initial LagScanOk (init.workerAlloc true) r.2 r.1 := by
    refine .of_exec ?_ hr
    rintro act hact _ rfl
    exact absurd hact lagScan_not_mem_readDuplicates
  have hok : LagScanOk r.1 .lagScan := by
    intro _ ln
    cases ln <;> omega
  have hscan : r.1.step .initial .lagScan = some (r.1.lagScan, []) := by
    simp [step, hphase]
  obtain ⟨r', hr', heq'⟩ := Option.map_eq_some_iff.mp hreuse
  have hrun' : Run .initial LagScanOk r.1.lagScan r'.2 r'.1 := by
    refine .of_exec ?_ hr'
    rintro act hact _ rfl
    simp [reuseActions] at hact
  have hall := (hrun.snoc hok hscan).trans hrun'
  rw [List.append_nil, hevs, heq'] at hall
  exact ⟨r'.1, hall⟩

private theorem queuedBy_reuse :
    queuedBy 0 (ledgerEvents ++ reuseEvents) = List.range 102 ++ [0] := by
  decide +kernel

private theorem visitedBy_reuse :
    visitedBy 0 .dupe (ledgerEvents ++ reuseEvents) = List.range 102 ++ [0] := by
  decide +kernel

private theorem freedFrom_reuse : freedFrom .dupe (ledgerEvents ++ reuseEvents) = [0, 1] := by
  decide +kernel

/-- In every run with purges there is a ledger of everything that was sorted. Its
entries of a list are the packets that were freed from it, then those that it holds,
then those about to be appended; its entries of a worker are what the worker queued,
in order and without a gap, up to what waits. No worker meets a freed packet. -/
theorem ledger_of_run (hrun : Run cfg LagScanOk .init evs s) :
    ∃ q log, ∃ owner : Nat → Nat, s.Holds q ∧
      (∀ ln, sortedTo ln log = freedFrom ln evs ++ q (.pbufGlobal ln) ++ q (.pbOut ln)) ∧
      (∀ w, queuedBy w evs = sortedOf w log ++ (q .pb).filter (owner · = w) ++
        q (.incoming w) ++ q (.incomingLocal w)) ∧
      ∀ w ln n, .aborted w ln n ∉ evs := by
  obtain ⟨a, hflow, hrep⟩ := Rep.init.run (fun _ _ hok => hok) hrun
  obtain ⟨log, owner, hledger⟩ := (Flow.Ledger.init fun _ => 0).run hflow
  refine ⟨a.q, log, owner, hrep.holds, ?_, hledger.order, hflow.not_aborted⟩
  intro ln
  rw [List.append_assoc]
  exact hledger.lane ln

/-- Worker 0 queued the buffer 0 twice, and both packets are in the ledger. -/
theorem ledger_of_reuse :
    ∃ s : Pipeline, ∃ q log, s.Holds q ∧
      sortedTo .dupe log = [0, 1] ++ q (.pbufGlobal .dupe) ++ q (.pbOut .dupe) ∧
      ∃ rest, List.range 102 ++ [0] = sortedOf 0 log ++ rest := by
  obtain ⟨s, hrun⟩ := run_reuse
  have hok : LagScanOk init (.workerAlloc true) := fun h => by cases h
  have hfirst : Run .initial LagScanOk init ([] ++ []) (init.workerAlloc true) :=
    .snoc .nil hok rfl
  obtain ⟨q, log, owner, hholds, hlane, horder, -⟩ := ledger_of_run (hfirst.trans hrun)
  have hfreed := hlane .dupe
  rw [List.append_nil, List.nil_append, freedFrom_reuse] at hfreed
  have hown := horder 0
  rw [List.append_nil, List.nil_append, queuedBy_reuse, List.append_assoc, List.append_assoc] at hown
  exact ⟨s, q, log, hholds, hfreed, _, hown⟩

/-- A worker thread reads each list from where the list ended at its creation on: in
order, each packet once, and never past a packet. Purges free only what it has read,
and a loop of it that runs to its end has read everything. -/
theorem reads_of_run (hrun₁ : Run cfg LagScanOk .init evs₁ s₁)
    (halloc : s₁.step cfg (.workerAlloc true) = some (s₂, []))
    (hrun₂ : Run cfg LagScanOk s₂ evs₂ s) :
    ∃ q₁ q, s₁.Holds q₁ ∧ s.Holds q ∧ ∀ ln,
      let before := freedFrom ln evs₁ ++ q₁ (.pbufGlobal ln)
      let after := freedFrom ln (evs₁ ++ evs₂) ++ q (.pbufGlobal ln)
      before ++ visitedBy s₁.nworkers ln evs₂ <+: after ∧
        freedFrom ln (evs₁ ++ evs₂) <+: before ++ visitedBy s₁.nworkers ln evs₂ ∧
        ∃ turns, ∀ fuel ≥ turns, ∀ tick,
          let r := outgoingLoop cfg s₁.nworkers ln tick fuel s
          r.1.queues.mem ((r.1.worker s₁.nworkers).pbufGlobalPrevp ln) = none ∧
            before ++ visitedBy s₁.nworkers ln (evs₂ ++ r.2) = after := by
  obtain ⟨a₁, hflow₁, hrep₁⟩ := Rep.init.run (fun _ _ hok => hok) hrun₁
  cases halloc
  obtain ⟨a, hflow₂, hrep⟩ := (hrep₁.workerAlloc true).run (fun _ _ hok => hok) hrun₂
  refine ⟨a₁.q, a.q, hrep₁.holds, hrep.holds, fun ln => ?_⟩
  have hreads : Flow.Reads a₁ s₁.nworkers ln evs₂ a := by
    rw [hrep₁.queue.nworkers]
    exact (Flow.Reads.of_alloc a₁ ln).run hflow₂
  have hall : freedFrom ln evs₁ ++ a₁.global ln ++ visitedBy s₁.nworkers ln evs₂ ++
      a.pending s₁.nworkers ln = freedFrom ln (evs₁ ++ evs₂) ++ a.global ln := by
    rw [freedFrom_append, List.append_assoc, List.append_assoc, List.append_assoc, ← hreads.reads,
      List.append_assoc]
  refine ⟨⟨_, hall⟩, ?_, (a.pending s₁.nworkers ln).length, fun fuel hfuel tick => ?_⟩
  · -- Both are prefixes of one list, and the worker is not behind what was freed.
    have hfreed : freedFrom ln (evs₁ ++ evs₂) <+: freedFrom ln (evs₁ ++ evs₂) ++ a.global ln :=
      List.prefix_append _ _
    refine List.prefix_of_prefix_length_le hfreed ⟨_, hall⟩ ?_
    have hlen := congrArg List.length hall
    have hpending : (a.pending s₁.nworkers ln).length =
        (a.global ln).length - (a.pos s₁.nworkers ln - a.gone ln) := by
      rw [Flow.pending, List.length_drop]
    simp only [List.length_append, Flow.global] at hlen hpending ⊢
    omega
  · obtain ⟨hend, hloop⟩ := hrep.outgoingLoop cfg tick fuel hreads.thread.1 hreads.thread.2 hfuel
    refine ⟨hend, ?_⟩
    rw [visitedBy_append, hloop, ← List.append_assoc]
    exact hall

theorem reads_of_reuse :
    ∃ s : Pipeline, ∃ q, s.Holds q ∧
      List.range 102 ++ [0] <+: [0, 1] ++ q (.pbufGlobal .dupe) := by
  obtain ⟨s, hrun⟩ := run_reuse
  have hnone : Run .initial LagScanOk init [] init := .nil
  obtain ⟨q₁, q, hholds₁, hholds, hreads⟩ := reads_of_run hnone rfl hrun
  have hempty : q₁ (.pbufGlobal .dupe) = [] := by
    have hlength : (0 : Int) = (q₁ (.pbufGlobal .dupe)).length := hholds₁.globalCount .dupe
    exact List.length_eq_zero_iff.mp (by exact_mod_cast hlength.symm)
  refine ⟨s, q, hholds, ?_⟩
  have hprefix := (hreads .dupe).1
  rw [hempty, List.nil_append, freedFrom_reuse] at hprefix
  exact visitedBy_reuse ▸ hprefix

end Pipeline

end Aprsc
