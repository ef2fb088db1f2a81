-- SUMMARY: The abstract pipeline: queues are lists, cursors are positions.
import Aprsc.Pipeline.Machine

/-!
# The pipeline as lists

What the pipeline is for, without pointers: packets move from list to list, and
each worker has read the global lists up to a position. Positions count from the
first packet that was ever appended, so a purge does not change them.
-/

namespace Aprsc

open PtrQueue

structure Flow where
  nworkers : Nat
  thread : Nat → Bool
  flushing : Nat → Bool
  /-- Where a worker started to read, and up to where it has read. -/
  base : Nat → Lane → Nat
  pos : Nat → Lane → Nat
  phase : Phase
  q : Head → List Nat
  /-- How many packets were purged. -/
  gone : Lane → Nat

namespace Flow

def init : Flow where
  nworkers := 0
  thread := fun _ => false
  flushing := fun _ => false
  base := fun _ _ => 0
  pos := fun _ _ => 0
  phase := .idle
  q := fun _ => []
  gone := fun _ => 0

/-- A global list. -/
abbrev global (a : Flow) (ln : Lane) : List Nat := a.q (.pbufGlobal ln)

/-- A global list with the output chain that is about to be appended to it. -/
def lane (a : Flow) (ln : Lane) : List Nat := a.global ln ++ a.q (.pbOut ln)

/-- The position after the last packet of a global list. -/
def total (a : Flow) (ln : Lane) : Nat := a.gone ln + (a.global ln).length

/-- What a worker has not read yet. -/
def pending (a : Flow) (w : Nat) (ln : Lane) : List Nat :=
  (a.global ln).drop (a.pos w ln - a.gone ln)

def alloc (a : Flow) (thread : Bool) : Flow :=
  { a with
    nworkers := a.nworkers + 1
    thread := Function.update a.thread a.nworkers thread
    flushing := Function.update a.flushing a.nworkers false
    base := Function.update a.base a.nworkers a.total
    pos := Function.update a.pos a.nworkers a.total }

def queue (a : Flow) (w n : Nat) : Flow :=
  { a with q := Function.update a.q (.incomingLocal w) (a.q (.incomingLocal w) ++ [n]) }

def flush (a : Flow) (w : Nat) : Flow :=
  { a with
    q := moved a.q (.incoming w) (.incomingLocal w)
    flushing := Function.update a.flushing w true }

def clean (a : Flow) (w : Nat) : Flow :=
  { a with flushing := Function.update a.flushing w false }

def drain (a : Flow) (w : Nat) : Flow := { a with q := moved a.q .pb (.incoming w) }

def check (a : Flow) (ln : Lane) (n : Nat) (ns : List Nat) : Flow :=
  { a with q := Function.update (Function.update a.q .pb ns) (.pbOut ln) (a.q (.pbOut ln) ++ [n]) }

def publish (a : Flow) (ln : Lane) : Flow :=
  { a with q := moved a.q (.pbufGlobal ln) (.pbOut ln) }

def roundEnd (a : Flow) : Flow := { (a.publish .main).publish .dupe with phase := .idle }

def visit (a : Flow) (w : Nat) (ln : Lane) : Flow :=
  { a with pos := Function.update a.pos w (Function.update (a.pos w) ln (a.pos w ln + 1)) }

/-- Take the first packet off a global list. -/
def unlink (a : Flow) (ln : Lane) : Flow :=
  { a with
    q := Function.update a.q (.pbufGlobal ln) (a.global ln).tail
    gone := Function.update a.gone ln (a.gone ln + 1) }

/-- The first packet of a global list may go: it is not the last one, and every
worker thread has read it and at least one packet after it. -/
def MayUnlink (a : Flow) (ln : Lane) : Prop :=
  a.gone ln + 1 < a.total ln ∧
    ∀ w < a.nworkers, a.thread w = true → a.gone ln + 1 < a.pos w ln

/-- A purge takes packets off the global lists one by one. -/
inductive Purge : Flow → List PipelineEvent → Flow → Prop where
  | done {a : Flow} : Purge a [] a
  | unlink {a a' : Flow} {ln : Lane} {n : Nat} {ns : List Nat} {evs : List PipelineEvent}
      (hq : a.global ln = n :: ns) (hmay : a.MayUnlink ln) (hrest : Purge (a.unlink ln) evs a') :
      Purge a (.freed ln n :: evs) a'

/-- One step, with its events. -/
inductive Step : Flow → List PipelineEvent → Flow → Prop where
  | idle {a : Flow} : Step a [] a
  | alloc {a : Flow} (thread : Bool) : Step a [] (a.alloc thread)
  | queue {a : Flow} {w n : Nat} (hw : w < a.nworkers) (hfresh : ∀ h, n ∉ a.q h) :
      Step a [.queued w n] (a.queue w n)
  | flush {a : Flow} {w : Nat} (hw : w < a.nworkers) : Step a [.flushed w] (a.flush w)
  | clean {a : Flow} {w : Nat} : Step a [] (a.clean w)
  | roundStart {a : Flow} (hphase : a.phase = .idle) : Step a [] { a with phase := .round }
  | drain {a : Flow} {w : Nat} (hphase : a.phase = .round) (hpb : a.q .pb = [])
      (hw : w < a.nworkers) : Step a [.drained w] (a.drain w)
  | check {a : Flow} {ln : Lane} {n : Nat} {ns : List Nat} (hphase : a.phase = .round)
      (hpb : a.q .pb = n :: ns) : Step a [] (a.check ln n ns)
  | roundEnd {a : Flow} (hphase : a.phase = .round) (hpb : a.q .pb = []) :
      Step a [.published] a.roundEnd
  | visit {a : Flow} {w n : Nat} {ln : Lane} {ns : List Nat} {d : Disposition}
      (hw : w < a.nworkers) (hthread : a.thread w = true) (hpending : a.pending w ln = n :: ns) :
      Step a [.visited w ln n d] (a.visit w ln)
  | lagScan {a : Flow} (hphase : a.phase = .idle) : Step a [] { a with phase := .purging }
  | purge {a a' : Flow} {evs : List PipelineEvent} (hphase : a.phase = .purging)
      (hpurge : Purge a evs a') : Step a evs { a' with phase := .idle }

/-- A run, with its events in order. -/
inductive Run : Flow → List PipelineEvent → Flow → Prop where
  | nil {a : Flow} : Run a [] a
  | snoc {a a' a'' : Flow} {evs evs' : List PipelineEvent} (hrun : Run a evs a')
      (hstep : Step a' evs' a'') : Run a (evs ++ evs') a''

/-! ## The packets in the queues -/

section Mem

variable {a : Flow} {ln : Lane} {n : Nat} {ns : List Nat}

@[simp] theorem check_q_pb : (a.check ln n ns).q .pb = ns := by
  simp [check]

@[simp] theorem check_q_out : (a.check ln n ns).q (.pbOut ln) = a.q (.pbOut ln) ++ [n] := by
  simp [check]

theorem check_q_of_ne {x : Head} (hx : x ≠ .pb) (hx' : x ≠ .pbOut ln) :
    (a.check ln n ns).q x = a.q x := by
  simp [check, hx, hx']

theorem check_global (ln' : Lane) : (a.check ln n ns).global ln' = a.global ln' :=
  check_q_of_ne (by simp) (by simp)

theorem check_lane : (a.check ln n ns).lane ln = a.lane ln ++ [n] := by
  rw [lane, check_global, check_q_out, lane, List.append_assoc]

/-- The other output chain stays. -/
theorem check_lane_of_ne {ln' : Lane} (hln : ln' ≠ ln) :
    (a.check ln n ns).lane ln' = a.lane ln' := by
  rw [lane, check_global, check_q_of_ne (by simp) (by simpa using hln), lane]

/-- No packet comes or goes when one is sorted. -/
theorem exists_mem_check (hpb : a.q .pb = n :: ns) (m : Nat) :
    (∃ x, m ∈ (a.check ln n ns).q x) ↔ ∃ x, m ∈ a.q x := by
  constructor
  · rintro ⟨x, hx⟩
    by_cases hxp : x = .pb
    · subst hxp
      rw [check_q_pb] at hx
      exact ⟨.pb, hpb ▸ List.mem_cons_of_mem n hx⟩
    · by_cases hxo : x = .pbOut ln
      · subst hxo
        rw [check_q_out, List.mem_append, List.mem_singleton] at hx
        rcases hx with hx | rfl
        · exact ⟨_, hx⟩
        · exact ⟨.pb, hpb ▸ List.mem_cons_self⟩
      · rw [check_q_of_ne hxp hxo] at hx
        exact ⟨x, hx⟩
  · rintro ⟨x, hx⟩
    by_cases hxp : x = .pb
    · subst hxp
      rw [hpb, List.mem_cons] at hx
      rcases hx with rfl | hx
      · exact ⟨.pbOut ln, by simp⟩
      · exact ⟨.pb, by simpa using hx⟩
    · by_cases hxo : x = .pbOut ln
      · subst hxo
        exact ⟨.pbOut ln, by simp [hx]⟩
      · exact ⟨x, by rwa [check_q_of_ne hxp hxo]⟩

/-- A visit takes the first packet off what is pending. -/
theorem visit_pending {w : Nat} (hle : a.gone ln ≤ a.pos w ln) (hpending : a.pending w ln = n :: ns) :
    (a.visit w ln).pending w ln = ns := by
  have htail := congrArg List.tail hpending
  rw [pending, List.tail_drop, List.tail_cons] at htail
  have hpos : (a.visit w ln).pos w ln - (a.visit w ln).gone ln = a.pos w ln - a.gone ln + 1 := by
    simp only [visit, Function.update_self]
    omega
  rw [pending, hpos]
  exact htail

theorem flush_global (a : Flow) (w : Nat) (ln : Lane) : (a.flush w).global ln = a.global ln := by
  simp only [global, flush]
  rw [moved_of_ne (by simp) (by simp)]

theorem drain_global (a : Flow) (w : Nat) (ln : Lane) : (a.drain w).global ln = a.global ln := by
  simp only [global, drain]
  rw [moved_of_ne (by simp) (by simp)]

theorem roundEnd_global (a : Flow) (ln : Lane) :
    a.roundEnd.global ln = a.global ln ++ a.q (.pbOut ln) := by
  cases ln with
  | main =>
    simp only [roundEnd, publish, global]
    rw [moved_of_ne (by simp) (by simp), moved_left (by simp)]
  | dupe =>
    simp only [roundEnd, publish, global]
    rw [moved_left (by simp), moved_of_ne (by simp) (by simp), moved_of_ne (by simp) (by simp)]

theorem roundEnd_out (a : Flow) (ln : Lane) : a.roundEnd.q (.pbOut ln) = [] := by
  cases ln with
  | main =>
    simp only [roundEnd, publish]
    rw [moved_of_ne (by simp) (by simp), moved_right]
  | dupe =>
    simp only [roundEnd, publish]
    rw [moved_right]

theorem roundEnd_lane (a : Flow) (ln : Lane) : a.roundEnd.lane ln = a.lane ln := by
  rw [lane, roundEnd_global, roundEnd_out, List.append_nil, lane]

theorem roundEnd_q_of_ne {x : Head} (hx : ∀ ln, x ≠ .pbufGlobal ln ∧ x ≠ .pbOut ln) :
    a.roundEnd.q x = a.q x := by
  simp only [roundEnd, publish]
  rw [moved_of_ne (hx .dupe).1 (hx .dupe).2, moved_of_ne (hx .main).1 (hx .main).2]

theorem exists_mem_roundEnd (m : Nat) : (∃ x, m ∈ a.roundEnd.q x) ↔ ∃ x, m ∈ a.q x := by
  simp only [roundEnd, publish]
  rw [exists_mem_moved (by simp), exists_mem_moved (by simp)]

end Mem

/-! ## Unlinking -/

section Unlink

variable {a : Flow} {ln : Lane} {n : Nat} {ns : List Nat}

theorem unlink_q (hq : a.global ln = n :: ns) :
    (a.unlink ln).q = Function.update a.q (.pbufGlobal ln) ns := by
  simp only [unlink, hq, List.tail_cons]

theorem unlink_q_of_ne {x : Head} (hx : x ≠ .pbufGlobal ln) : (a.unlink ln).q x = a.q x :=
  Function.update_of_ne hx ..

theorem unlink_global (hq : a.global ln = n :: ns) : (a.unlink ln).global ln = ns := by
  rw [global, unlink_q hq, Function.update_self]

theorem unlink_global_of_ne {ln' : Lane} (hln : ln' ≠ ln) :
    (a.unlink ln).global ln' = a.global ln' := unlink_q_of_ne (by simpa using hln)

theorem unlink_gone : (a.unlink ln).gone ln = a.gone ln + 1 := Function.update_self ..

theorem unlink_gone_of_ne {ln' : Lane} (hln : ln' ≠ ln) : (a.unlink ln).gone ln' = a.gone ln' :=
  Function.update_of_ne hln ..

/-- The packets that stay keep their positions. -/
theorem unlink_total (hq : a.global ln = n :: ns) (ln' : Lane) :
    (a.unlink ln).total ln' = a.total ln' := by
  by_cases hln : ln' = ln
  · subst hln
    simp only [total, unlink_global hq, unlink_gone, hq, List.length_cons]
    omega
  · rw [total, unlink_global_of_ne hln, unlink_gone_of_ne hln, total]

theorem lane_eq_cons_unlink (hq : a.global ln = n :: ns) : a.lane ln = n :: (a.unlink ln).lane ln := by
  rw [lane, lane, unlink_global hq, unlink_q_of_ne (by simp), hq, List.cons_append]

theorem unlink_lane_of_ne {ln' : Lane} (hln : ln' ≠ ln) : (a.unlink ln).lane ln' = a.lane ln' := by
  rw [lane, lane, unlink_global_of_ne hln, unlink_q_of_ne (by simp)]

end Unlink

end Flow

end Aprsc
