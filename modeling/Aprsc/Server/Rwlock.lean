-- SUMMARY: The read-write lock: mutual exclusion, exact counters, and no lost wake-up in any interleaving.
import Aprsc.Base.Runs
import Mathlib.Data.Int.Order.Basic

/-!
# The read-write lock

A lock is four counters under a mutex, with a condition variable for readers and one
for writers. What a thread does between taking the mutex and giving it up (by unlocking
it or by waiting) is one step. A thread that waits sleeps until it is woken, by a signal
or for no reason, and then tests the counters again when it gets the mutex.
-/

namespace Aprsc

namespace Rwlock

open Runs

/-- Where a thread is. -/
inductive Phase where
  | idle
  /-- In `pthread_cond_wait` of `rwl_rdlock`, asleep, and woken but without the mutex. -/
  | readWait
  | readWoken
  | reading
  /-- The same in `rwl_wrlock`. -/
  | writeWait
  | writeWoken
  | writing
deriving Repr, DecidableEq

/-- `rwlock_t`, with the threads that use it. -/
structure State where
  rActive : Int
  wActive : Int
  rWait : Int
  wWait : Int
  threads : List Phase
deriving Repr, DecidableEq

/-- What a thread does. An unlock names the writer that a signal wakes. -/
inductive Action where
  | rdlock (t : Nat)
  | tryrdlock (t : Nat)
  | rdunlock (t sig : Nat)
  | wrlock (t : Nat)
  | trywrlock (t : Nat)
  | wrunlock (t sig : Nat)
  /-- A woken thread gets the mutex and goes on in its loop. -/
  | resume (t : Nat)
  /-- A wake-up without a signal. -/
  | spurious (t : Nat)
deriving Repr, DecidableEq

/-- `rwl_init`. -/
def init (n : Nat) : State := ⟨0, 0, 0, 0, List.replicate n .idle⟩

namespace State

variable (s : State)

def setThread (t : Nat) (p : Phase) : State := { s with threads := s.threads.set t p }

/-- `pthread_cond_broadcast` on `read`. -/
def broadcastRead : State :=
  { s with threads := s.threads.map fun p => if p = .readWait then .readWoken else p }

/-- `pthread_cond_signal` on `write`. -/
def signalWrite (sig : Nat) : State :=
  if s.threads[sig]? = some .writeWait then s.setThread sig .writeWoken else s

/-- A signal wakes a thread if one sleeps. -/
def MaySignal (sig : Nat) : Prop := .writeWait ∈ s.threads → s.threads[sig]? = some .writeWait

instance (sig : Nat) : Decidable (s.MaySignal sig) := inferInstanceAs (Decidable (_ → _))

/-! ## The functions -/

/-- `rwl_rdlock`, up to its end or to the wait. -/
def rdlock (t : Nat) : State :=
  if s.wActive ≠ 0 then { s with rWait := s.rWait + 1 }.setThread t .readWait
  else { s with rActive := s.rActive + 1 }.setThread t .reading

/-- The loop of `rwl_rdlock` behind the wait. -/
def rdlockResume (t : Nat) : State :=
  if s.wActive ≠ 0 then s.setThread t .readWait
  else { s with rWait := s.rWait - 1, rActive := s.rActive + 1 }.setThread t .reading

def tryrdlock (t : Nat) : State :=
  if s.wActive ≠ 0 then s else { s with rActive := s.rActive + 1 }.setThread t .reading

def rdunlock (t sig : Nat) : State :=
  let s := { s with rActive := s.rActive - 1 }.setThread t .idle
  if s.rActive = 0 ∧ s.wWait > 0 then s.signalWrite sig else s

/-- `rwl_wrlock`, up to its end or to the wait. -/
def wrlock (t : Nat) : State :=
  if s.wActive ≠ 0 ∨ s.rActive > 0 then { s with wWait := s.wWait + 1 }.setThread t .writeWait
  else { s with wActive := 1 }.setThread t .writing

/-- The loop of `rwl_wrlock` behind the wait. -/
def wrlockResume (t : Nat) : State :=
  if s.wActive ≠ 0 ∨ s.rActive > 0 then s.setThread t .writeWait
  else { s with wWait := s.wWait - 1, wActive := 1 }.setThread t .writing

def trywrlock (t : Nat) : State :=
  if s.wActive ≠ 0 ∨ s.rActive > 0 then s else { s with wActive := 1 }.setThread t .writing

def wrunlock (t sig : Nat) : State :=
  let s := { s with wActive := 0 }.setThread t .idle
  if s.rWait > 0 then s.broadcastRead
  else if s.wWait > 0 then s.signalWrite sig
  else s

/-- One step, if the thread can take it: only who has the lock unlocks it. -/
def step : Action → Option State
  | .rdlock t => if s.threads[t]? = some .idle then some (s.rdlock t) else none
  | .tryrdlock t => if s.threads[t]? = some .idle then some (s.tryrdlock t) else none
  | .rdunlock t sig =>
    if s.threads[t]? = some .reading ∧ s.MaySignal sig then some (s.rdunlock t sig) else none
  | .wrlock t => if s.threads[t]? = some .idle then some (s.wrlock t) else none
  | .trywrlock t => if s.threads[t]? = some .idle then some (s.trywrlock t) else none
  | .wrunlock t sig =>
    if s.threads[t]? = some .writing ∧ s.MaySignal sig then some (s.wrunlock t sig) else none
  | .resume t =>
    if s.threads[t]? = some .readWoken then some (s.rdlockResume t)
    else if s.threads[t]? = some .writeWoken then some (s.wrlockResume t)
    else none
  | .spurious t =>
    if s.threads[t]? = some .readWait then some (s.setThread t .readWoken)
    else if s.threads[t]? = some .writeWait then some (s.setThread t .writeWoken)
    else none

/-- `rwl_destroy` reports that the lock is busy. -/
def destroyBusy : Bool :=
  s.rActive > 0 ∨ s.wActive ≠ 0 ∨ s.rWait ≠ 0 ∨ s.wWait ≠ 0

/-- The state after a step; a step that cannot be taken changes nothing. -/
def next (act : Action) : State := (s.step act).getD s

/-- How many threads are in a phase. -/
def count (p : Phase) : Int := s.threads.count p

end State

/-! ## Counting -/

/-- `k` threads leave one phase and enter another. -/
def moved (c : Phase → Int) (k : Int) (old new : Phase) (p : Phase) : Int :=
  c p - (if old = p then k else 0) + (if new = p then k else 0)

section Counting

variable {s : State} {t : Nat} {old new p : Phase}

theorem count_setThread (h : s.threads[t]? = some old) (new : Phase) :
    (s.setThread t new).count = moved s.count 1 old new := by
  funext p
  obtain ⟨hlt, hget⟩ := List.getElem?_eq_some_iff.mp h
  have hpos : old = p → 0 < s.threads.count p := by
    rintro rfl
    exact List.count_pos_iff.mpr (List.mem_of_getElem? h)
  simp only [State.count, State.setThread, List.count_set hlt, hget, beq_iff_eq, moved]
  split_ifs with h1 h2 h2
  · have := hpos h1
    omega
  · have := hpos h1
    omega
  · omega
  · omega

theorem count_pos (h : s.threads[t]? = some p) : 0 < s.count p := by
  have := List.count_pos_iff.mpr (List.mem_of_getElem? h)
  simp only [State.count]
  omega

theorem count_nonneg (s : State) (p : Phase) : 0 ≤ s.count p := Int.natCast_nonneg _

/-- A broadcast wakes all readers. -/
theorem count_broadcastRead (s : State) :
    s.broadcastRead.count = moved s.count (s.count .readWait) .readWait .readWoken := by
  funext p
  simp only [State.count, State.broadcastRead, moved]
  induction s.threads with
  | nil => simp
  | cons q qs ih =>
    rw [List.map_cons, List.count_cons]
    cases p <;> cases q <;> simp_all <;> omega

/-- A signal wakes one writer, if one sleeps. -/
theorem count_signalWrite {sig : Nat} (h : s.MaySignal sig) :
    ∃ k, (k = 0 ∧ s.count .writeWait = 0 ∨ k = 1) ∧
      (s.signalWrite sig).count = moved s.count k .writeWait .writeWoken := by
  rw [State.signalWrite]
  split
  · next hsig => exact ⟨1, .inr rfl, count_setThread hsig _⟩
  · next hsig =>
    have hnot : .writeWait ∉ s.threads := fun hmem => hsig (h hmem)
    refine ⟨0, .inl ⟨rfl, by simp [State.count, List.count_eq_zero_of_not_mem hnot]⟩, ?_⟩
    funext p
    simp [moved]

end Counting

/-! ## The invariant -/

/-- What the counters say of the number of threads in each phase. -/
structure Good (rActive wActive rWait wWait : Int) (c : Phase → Int) : Prop where
  rActive : rActive = c .reading
  wActive : wActive = c .writing
  rWait : rWait = c .readWait + c .readWoken
  wWait : wWait = c .writeWait + c .writeWoken
  /-- A writer is alone. -/
  exclusive : c .writing = 0 ∨ c .writing = 1 ∧ c .reading = 0
  /-- Readers sleep only while a writer has the lock. -/
  readers : c .writing = 0 → c .readWait = 0
  /-- While a writer sleeps and nobody has the lock, a woken thread is on its way. -/
  woken : c .writing = 0 → c .reading = 0 → 0 < c .writeWait → 0 < c .readWoken + c .writeWoken
  nonneg : ∀ p, 0 ≤ c p

def Inv (s : State) : Prop := Good s.rActive s.wActive s.rWait s.wWait s.count

section Steps

variable {s : State} {t sig : Nat}

theorem inv_init (n : Nat) : Inv (init n) := by
  have hcount : ∀ p ≠ Phase.idle, (init n).count p = 0 := by
    intro p hp
    have hnot : p ∉ List.replicate n Phase.idle := fun hmem => hp (List.eq_of_mem_replicate hmem)
    simp [State.count, init, List.count_eq_zero_of_not_mem hnot]
  have hr := hcount .reading (by simp)
  have hw := hcount .writing (by simp)
  have hrw := hcount .readWait (by simp)
  have hrk := hcount .readWoken (by simp)
  have hww := hcount .writeWait (by simp)
  have hwk := hcount .writeWoken (by simp)
  apply Good.mk
  · exact hr.symm
  · exact hw.symm
  · simp only [hrw, hrk]
    rfl
  · simp only [hww, hwk]
    rfl
  · exact .inl hw
  · intro _
    exact hrw
  · intro _ _ hpos
    omega
  · exact count_nonneg _

/-- The numbers of an invariant after threads have moved. -/
theorem Good.nonneg_moved {rActive wActive rWait wWait k : Int} {c : Phase → Int} {old new : Phase}
    (h : Good rActive wActive rWait wWait c) (hk : 0 ≤ k) (hle : k ≤ c old) (p : Phase) :
    0 ≤ moved c k old new p := by
  have hp := h.nonneg p
  rw [moved]
  split_ifs with h1 h2 h2
  · omega
  · subst h1
    omega
  · omega
  · omega

/-- The threads have moved, and the counters fit the numbers of where they are now. -/
theorem inv_of_moved {s' : State} {c : Phase → Int} {old new : Phase} {k : Int}
    (h : Good s.rActive s.wActive s.rWait s.wWait c) (hcount : s'.count = moved c k old new)
    (hk : 0 ≤ k) (hle : k ≤ c old)
    (hgood : (∀ p, 0 ≤ moved c k old new p) →
      Good s'.rActive s'.wActive s'.rWait s'.wWait (moved c k old new)) : Inv s' := by
  rw [Inv, hcount]
  exact hgood (h.nonneg_moved hk hle)

/-- A thread enters as a reader, from outside or from the wait. -/
theorem Inv.read (h : Inv s) (hw : s.wActive = 0) {old : Phase} {rWait : Int}
    (ht : s.threads[t]? = some old)
    (hold : old = .idle ∧ rWait = s.rWait ∨ old = .readWoken ∧ rWait = s.rWait - 1) :
    Inv ({ s with rWait := rWait, rActive := s.rActive + 1 }.setThread t .reading) := by
  have hpos := count_pos ht
  have hreading := count_nonneg s .reading
  refine inv_of_moved h (count_setThread ht _) (by omega) hpos fun hnonneg => ?_
  obtain ⟨h1, h2, h3, h4, h5, h6, h7, -⟩ := h
  obtain ⟨rfl, rfl⟩ | ⟨rfl, rfl⟩ := hold
  · refine ⟨?_, ?_, ?_, ?_, ?_, ?_, ?_, hnonneg⟩ <;> simp [moved, State.setThread] <;> omega
  · refine ⟨?_, ?_, ?_, ?_, ?_, ?_, ?_, hnonneg⟩ <;> simp [moved, State.setThread] <;> omega

/-- A thread enters as the writer. -/
theorem Inv.write (h : Inv s) (hfree : ¬(s.wActive ≠ 0 ∨ s.rActive > 0)) {old : Phase}
    {wWait : Int} (ht : s.threads[t]? = some old)
    (hold : old = .idle ∧ wWait = s.wWait ∨ old = .writeWoken ∧ wWait = s.wWait - 1) :
    Inv ({ s with wWait := wWait, wActive := 1 }.setThread t .writing) := by
  have hpos := count_pos ht
  have hreading := count_nonneg s .reading
  refine inv_of_moved h (count_setThread ht _) (by omega) hpos fun hnonneg => ?_
  obtain ⟨h1, h2, h3, h4, h5, h6, h7, -⟩ := h
  obtain ⟨rfl, rfl⟩ | ⟨rfl, rfl⟩ := hold
  · refine ⟨?_, ?_, ?_, ?_, ?_, ?_, ?_, hnonneg⟩ <;> simp [moved, State.setThread] <;> omega
  · refine ⟨?_, ?_, ?_, ?_, ?_, ?_, ?_, hnonneg⟩ <;> simp [moved, State.setThread] <;> omega

theorem Inv.rdlock (h : Inv s) (ht : s.threads[t]? = some .idle) : Inv (s.rdlock t) := by
  have hpos := count_pos ht
  rw [State.rdlock]
  split
  · refine inv_of_moved h (count_setThread ht _) (by omega) hpos fun hnonneg => ?_
    obtain ⟨h1, h2, h3, h4, h5, h6, h7, -⟩ := h
    refine ⟨?_, ?_, ?_, ?_, ?_, ?_, ?_, hnonneg⟩ <;> simp [moved, State.setThread] <;> omega
  · next hw => exact h.read (by omega) ht (.inl ⟨rfl, rfl⟩)

theorem Inv.rdlockResume (h : Inv s) (ht : s.threads[t]? = some .readWoken) :
    Inv (s.rdlockResume t) := by
  have hpos := count_pos ht
  rw [State.rdlockResume]
  split
  -- a writer was faster
  · refine inv_of_moved h (count_setThread ht _) (by omega) hpos fun hnonneg => ?_
    obtain ⟨h1, h2, h3, h4, h5, h6, h7, -⟩ := h
    refine ⟨?_, ?_, ?_, ?_, ?_, ?_, ?_, hnonneg⟩ <;> simp [moved, State.setThread] <;> omega
  · next hw => exact h.read (by omega) ht (.inr ⟨rfl, rfl⟩)

theorem Inv.tryrdlock (h : Inv s) (ht : s.threads[t]? = some .idle) : Inv (s.tryrdlock t) := by
  rw [State.tryrdlock]
  split
  · exact h
  · next hw => exact h.read (by omega) ht (.inl ⟨rfl, rfl⟩)

theorem Inv.wrlock (h : Inv s) (ht : s.threads[t]? = some .idle) : Inv (s.wrlock t) := by
  have hpos := count_pos ht
  have hreading := count_nonneg s .reading
  rw [State.wrlock]
  split
  · refine inv_of_moved h (count_setThread ht _) (by omega) hpos fun hnonneg => ?_
    obtain ⟨h1, h2, h3, h4, h5, h6, h7, -⟩ := h
    refine ⟨?_, ?_, ?_, ?_, ?_, ?_, ?_, hnonneg⟩ <;> simp [moved, State.setThread] <;> omega
  · next hfree => exact h.write hfree ht (.inl ⟨rfl, rfl⟩)

theorem Inv.wrlockResume (h : Inv s) (ht : s.threads[t]? = some .writeWoken) :
    Inv (s.wrlockResume t) := by
  have hpos := count_pos ht
  have hreading := count_nonneg s .reading
  rw [State.wrlockResume]
  split
  -- somebody has the lock, and wakes a writer when giving it up
  · refine inv_of_moved h (count_setThread ht _) (by omega) hpos fun hnonneg => ?_
    obtain ⟨h1, h2, h3, h4, h5, h6, h7, -⟩ := h
    refine ⟨?_, ?_, ?_, ?_, ?_, ?_, ?_, hnonneg⟩ <;> simp [moved, State.setThread] <;> omega
  · next hfree => exact h.write hfree ht (.inr ⟨rfl, rfl⟩)

theorem Inv.trywrlock (h : Inv s) (ht : s.threads[t]? = some .idle) : Inv (s.trywrlock t) := by
  rw [State.trywrlock]
  split
  · exact h
  · next hfree => exact h.write hfree ht (.inl ⟨rfl, rfl⟩)

theorem Inv.spurious_read (h : Inv s) (ht : s.threads[t]? = some .readWait) :
    Inv (s.setThread t .readWoken) := by
  have hpos := count_pos ht
  refine inv_of_moved h (count_setThread ht _) (by omega) hpos fun hnonneg => ?_
  obtain ⟨h1, h2, h3, h4, h5, h6, h7, -⟩ := h
  refine ⟨?_, ?_, ?_, ?_, ?_, ?_, ?_, hnonneg⟩ <;> simp [moved, State.setThread] <;> omega

theorem Inv.spurious_write (h : Inv s) (ht : s.threads[t]? = some .writeWait) :
    Inv (s.setThread t .writeWoken) := by
  have hpos := count_pos ht
  refine inv_of_moved h (count_setThread ht _) (by omega) hpos fun hnonneg => ?_
  obtain ⟨h1, h2, h3, h4, h5, h6, h7, -⟩ := h
  refine ⟨?_, ?_, ?_, ?_, ?_, ?_, ?_, hnonneg⟩ <;> simp [moved, State.setThread] <;> omega

/-- A thread that does not sleep is not the one a signal wakes, so that moving it changes
nothing of what a signal may do. -/
theorem maySignal_setThread {old new : Phase} (h : s.MaySignal sig)
    (ht : s.threads[t]? = some old) (hold : old ≠ .writeWait) (hnew : new ≠ .writeWait) :
    (s.setThread t new).MaySignal sig := by
  intro hmem
  have hmem' : .writeWait ∈ s.threads :=
    (List.mem_or_eq_of_mem_set hmem).resolve_right fun he => hnew he.symm
  have hsig := h hmem'
  have hne : t ≠ sig := by
    rintro rfl
    exact hold (Option.some.inj (ht.symm.trans hsig))
  rw [State.setThread, List.getElem?_set_ne hne]
  exact hsig

/-- Nobody has the lock, and no reader sleeps: the signal wakes a writer if there is one. -/
theorem inv_signalWrite (hr : s.rActive = 0 ∧ s.count .reading = 0)
    (hw : s.wActive = 0 ∧ s.count .writing = 0)
    (hrWait : s.rWait = s.count .readWoken ∧ s.count .readWait = 0)
    (hwWait : s.wWait = s.count .writeWait + s.count .writeWoken) (hsig : s.MaySignal sig) :
    Inv (s.signalWrite sig) := by
  obtain ⟨k, hk, hcount⟩ := count_signalWrite hsig
  have hsame : (s.signalWrite sig).rActive = s.rActive ∧ (s.signalWrite sig).wActive = s.wActive ∧
      (s.signalWrite sig).rWait = s.rWait ∧ (s.signalWrite sig).wWait = s.wWait := by
    rw [State.signalWrite]
    split
    · exact ⟨rfl, rfl, rfl, rfl⟩
    · exact ⟨rfl, rfl, rfl, rfl⟩
  have hwoken := count_nonneg s .writeWoken
  have hreaders := count_nonneg s .readWoken
  have hnonneg := count_nonneg (s.signalWrite sig)
  rw [Inv, hsame.1, hsame.2.1, hsame.2.2.1, hsame.2.2.2]
  rw [hcount] at hnonneg ⊢
  refine ⟨?_, ?_, ?_, ?_, ?_, ?_, ?_, hnonneg⟩ <;> simp [moved] <;> omega

theorem Inv.rdunlock (h : Inv s) (ht : s.threads[t]? = some .reading) (hsig : s.MaySignal sig) :
    Inv (s.rdunlock t sig) := by
  have hpos := count_pos ht
  have hwoken := count_nonneg s .writeWoken
  have hcount : ({ s with rActive := s.rActive - 1 }.setThread t .idle).count = _ :=
    count_setThread ht .idle
  rw [State.rdunlock]
  split
  -- the last reader
  · next hlast =>
    obtain ⟨h1, h2, h3, h4, h5, h6, -, -⟩ := h
    have hlast' : s.rActive - 1 = 0 := hlast.1
    apply inv_signalWrite
    · rw [hcount]
      exact ⟨hlast', by simp [moved]; omega⟩
    · rw [hcount]
      refine ⟨?_, ?_⟩ <;> simp [moved, State.setThread] <;> omega
    · rw [hcount]
      refine ⟨?_, ?_⟩ <;> simp [moved, State.setThread] <;> omega
    · rw [hcount]
      simp [moved, State.setThread]
      omega
    · exact maySignal_setThread hsig ht (by simp) (by simp)
  · next hlast =>
    have hlast' : ¬(s.rActive - 1 = 0 ∧ s.wWait > 0) := hlast
    refine inv_of_moved h hcount (by omega) hpos fun hnonneg => ?_
    obtain ⟨h1, h2, h3, h4, h5, h6, h7, -⟩ := h
    refine ⟨?_, ?_, ?_, ?_, ?_, ?_, ?_, hnonneg⟩ <;> simp [moved, State.setThread] <;> omega

theorem Inv.wrunlock (h : Inv s) (ht : s.threads[t]? = some .writing) (hsig : s.MaySignal sig) :
    Inv (s.wrunlock t sig) := by
  have hpos := count_pos ht
  have hwriters := count_nonneg s .writeWoken
  have hreaders := count_nonneg s .readWoken
  have hwait := count_nonneg s .readWait
  have hcount : ({ s with wActive := 0 }.setThread t .idle).count = _ := count_setThread ht .idle
  have hbroad := count_broadcastRead ({ s with wActive := 0 }.setThread t .idle)
  have hnonneg := count_nonneg ({ s with wActive := 0 }.setThread t .idle).broadcastRead
  rw [State.wrunlock]
  split
  -- all readers are woken, and the last one of them wakes a writer
  · next hrWait =>
    have hrWait' : s.rWait > 0 := hrWait
    obtain ⟨h1, h2, h3, h4, h5, h6, h7, -⟩ := h
    rw [hcount] at hbroad
    rw [Inv]
    rw [hbroad] at hnonneg ⊢
    refine ⟨?_, ?_, ?_, ?_, ?_, ?_, ?_, hnonneg⟩ <;>
      simp [moved, State.setThread, State.broadcastRead] <;> omega
  · next hrWait =>
    have hrWait' : ¬ s.rWait > 0 := hrWait
    split
    · obtain ⟨h1, h2, h3, h4, h5, h6, -, -⟩ := h
      apply inv_signalWrite
      · rw [hcount]
        refine ⟨?_, ?_⟩ <;> simp [moved, State.setThread] <;> omega
      · rw [hcount]
        exact ⟨rfl, by simp [moved]; omega⟩
      · rw [hcount]
        refine ⟨?_, ?_⟩ <;> simp [moved, State.setThread] <;> omega
      · rw [hcount]
        simp [moved, State.setThread]
        omega
      · exact maySignal_setThread hsig ht (by simp) (by simp)
    · next hwWait =>
      have hwWait' : ¬ s.wWait > 0 := hwWait
      refine inv_of_moved h hcount (by omega) hpos fun hnonneg => ?_
      obtain ⟨h1, h2, h3, h4, h5, h6, h7, -⟩ := h
      refine ⟨?_, ?_, ?_, ?_, ?_, ?_, ?_, hnonneg⟩ <;> simp [moved, State.setThread] <;> omega

/-- A step by any thread keeps the invariant. -/
theorem Inv.step {act : Action} {s' : State} (h : Inv s) (hs : s.step act = some s') : Inv s' := by
  cases act with
  | rdlock t =>
    obtain ⟨ht, ⟨⟩⟩ := Option.ite_none_right_eq_some.mp hs
    exact h.rdlock ht
  | tryrdlock t =>
    obtain ⟨ht, ⟨⟩⟩ := Option.ite_none_right_eq_some.mp hs
    exact h.tryrdlock ht
  | rdunlock t sig =>
    obtain ⟨ht, ⟨⟩⟩ := Option.ite_none_right_eq_some.mp hs
    exact h.rdunlock ht.1 ht.2
  | wrlock t =>
    obtain ⟨ht, ⟨⟩⟩ := Option.ite_none_right_eq_some.mp hs
    exact h.wrlock ht
  | trywrlock t =>
    obtain ⟨ht, ⟨⟩⟩ := Option.ite_none_right_eq_some.mp hs
    exact h.trywrlock ht
  | wrunlock t sig =>
    obtain ⟨ht, ⟨⟩⟩ := Option.ite_none_right_eq_some.mp hs
    exact h.wrunlock ht.1 ht.2
  | resume t =>
    rw [State.step] at hs
    split at hs
    · next ht =>
      obtain rfl := Option.some.inj hs
      exact h.rdlockResume ht
    · obtain ⟨ht, ⟨⟩⟩ := Option.ite_none_right_eq_some.mp hs
      exact h.wrlockResume ht
  | spurious t =>
    rw [State.step] at hs
    split at hs
    · next ht =>
      obtain rfl := Option.some.inj hs
      exact h.spurious_read ht
    · obtain ⟨ht, ⟨⟩⟩ := Option.ite_none_right_eq_some.mp hs
      exact h.spurious_write ht

theorem Inv.next (h : Inv s) (act : Action) : Inv (s.next act) := by
  rw [State.next]
  cases hs : s.step act with
  | none => exact h
  | some s' => exact h.step hs

end Steps

/-! ## Every interleaving -/

/-- A thread has the lock. -/
def Holds (s : State) (t : Nat) : Prop :=
  s.threads[t]? = some .reading ∨ s.threads[t]? = some .writing

/-- What the users of the lock rely on. -/
structure Safe (s : State) : Prop where
  /-- Nobody has the lock beside a writer. -/
  exclusive : ∀ t u, s.threads[t]? = some .writing → Holds s u → u = t
  rActive : s.rActive = s.count .reading
  wActive : s.wActive = s.count .writing
  rWait : s.rWait = s.count .readWait + s.count .readWoken
  wWait : s.wWait = s.count .writeWait + s.count .writeWoken
  /-- If nobody has the lock while a thread sleeps for it, a woken one is on its way. -/
  awake : (∀ t, ¬Holds s t) → .readWait ∈ s.threads ∨ .writeWait ∈ s.threads →
    .readWoken ∈ s.threads ∨ .writeWoken ∈ s.threads
  /-- The lock may be destroyed exactly when no thread uses it. -/
  destroy : s.destroyBusy = false ↔ ∀ p ∈ s.threads, p = .idle

section Runs

variable {s : State}

theorem count_eq_zero {p : Phase} : s.count p = 0 ↔ p ∉ s.threads := by
  rw [State.count, Int.natCast_eq_zero, List.count_eq_zero]

/-- Two threads in a phase are two. -/
theorem two_le_count {t u : Nat} {p : Phase} (ht : s.threads[t]? = some p)
    (hu : s.threads[u]? = some p) (hne : t ≠ u) (hp : p ≠ .idle) : 2 ≤ s.count p := by
  have hrest : (s.setThread t .idle).threads[u]? = some p := by
    rw [State.setThread, List.getElem?_set_ne hne]
    exact hu
  have hpos := count_pos hrest
  rw [count_setThread ht, moved, if_pos rfl, if_neg hp.symm] at hpos
  omega

theorem Inv.safe (h : Inv s) : Safe s := by
  have hread : ∀ p, 0 ≤ s.count p := count_nonneg s
  have hidle : (∀ p ∈ s.threads, p = .idle) ↔ ∀ p ≠ .idle, s.count p = 0 := by
    constructor
    · intro hall p hp
      exact count_eq_zero.mpr fun hmem => hp (hall p hmem)
    · intro hall p hmem
      by_contra hp
      exact count_eq_zero.mp (hall p hp) hmem
  refine ⟨?_, h.rActive, h.wActive, h.rWait, h.wWait, ?_, ?_⟩
  · intro t u ht hu
    have hpos := count_pos ht
    have hexcl := h.exclusive
    by_contra hne
    obtain hu | hu := hu
    · have := count_pos hu
      omega
    · have := two_le_count ht hu (Ne.symm hne) (by simp)
      omega
  · intro hfree hsleep
    have hr : s.count .reading = 0 := count_eq_zero.mpr fun hmem => by
      obtain ⟨t, ht⟩ := List.mem_iff_getElem?.mp hmem
      exact hfree t (.inl ht)
    have hw : s.count .writing = 0 := count_eq_zero.mpr fun hmem => by
      obtain ⟨t, ht⟩ := List.mem_iff_getElem?.mp hmem
      exact hfree t (.inr ht)
    obtain hsleep | hsleep := hsleep
    · exact absurd hsleep (count_eq_zero.mp (h.readers hw))
    · have hpos : s.count .writeWait ≠ 0 := fun h0 => count_eq_zero.mp h0 hsleep
      have hwait := hread .writeWait
      have hwoken := h.woken hw hr (by omega)
      by_contra hno
      obtain ⟨h1, h2⟩ := not_or.mp hno
      have h1' := count_eq_zero.mpr h1
      have h2' := count_eq_zero.mpr h2
      omega
  · have h1 := h.rActive
    have h2 := h.wActive
    have h3 := h.rWait
    have h4 := h.wWait
    have h5 := hread .reading
    have h6 := hread .readWait
    have h7 := hread .readWoken
    have h8 := hread .writeWait
    have h9 := hread .writeWoken
    rw [hidle, State.destroyBusy, decide_eq_false_iff_not]
    constructor
    · intro hbusy p hp
      cases p with
      | idle => exact absurd rfl hp
      | readWait => omega
      | readWoken => omega
      | reading => omega
      | writeWait => omega
      | writeWoken => omega
      | writing => omega
    · intro hall
      have := hall .reading (by simp)
      have := hall .writing (by simp)
      have := hall .readWait (by simp)
      have := hall .readWoken (by simp)
      have := hall .writeWait (by simp)
      have := hall .writeWoken (by simp)
      omega

theorem inv_of_run (n : Nat) (acts : List Action) : Inv (run State.next (init n) acts) :=
  (always_of_step (fun _ act h => h.next act) (inv_init n) acts).last

/-- In every interleaving of any number of threads, with wake-ups that have no reason and
signals to whichever writer: a writer is alone, the counters are exact, nobody is left to
sleep for a lock that is free, and only an unused lock can be destroyed. -/
theorem mutual_exclusion_of_run (n : Nat) (acts : List Action) :
    Always State.next Safe (init n) acts :=
  (always_of_step (fun _ act h => h.next act) (inv_init n) acts).imp fun _ h => h.safe

end Runs

/-! ## Draining

Whoever has the lock gives it up, and whoever is woken goes on; nobody new comes.
-/

def Action.Drains : Action → Prop
  | .rdunlock .. | .wrunlock .. | .resume _ => True
  | _ => False

/-- Steps that can all be taken. -/
def steps (s : State) (acts : List Action) : Option State := acts.foldlM State.step s

/-- How many threads have the lock or wait for it. -/
def pending (s : State) : Int := s.threads.length - s.count .idle

def awake (s : State) : Int := s.count .readWoken + s.count .writeWoken

/-- What is left to do: a thread that leaves may wake all others. -/
def work (s : State) : Int := (s.threads.length + 1) * pending s + awake s

section Draining

variable {s s' : State} {t sig : Nat}

theorem count_add_le (s : State) {p q : Phase} (hne : p ≠ q) :
    s.count p + s.count q ≤ s.threads.length := by
  simp only [State.count]
  induction s.threads with
  | nil => simp
  | cons r rs ih =>
    simp only [List.count_cons, List.length_cons, beq_iff_eq]
    split_ifs with h1 h2 h2
    · exact absurd (h1.symm.trans h2) hne
    · omega
    · omega
    · omega

theorem awake_le (s : State) : awake s ≤ s.threads.length := count_add_le s (by simp)

theorem awake_nonneg (s : State) : 0 ≤ awake s :=
  Int.add_nonneg (count_nonneg _ _) (count_nonneg _ _)

theorem pending_nonneg (s : State) : 0 ≤ pending s := by
  have := count_add_le s (p := .idle) (q := .reading) (by simp)
  have := count_nonneg s .reading
  rw [pending]
  omega

theorem length_setThread (s : State) (t : Nat) (p : Phase) :
    (s.setThread t p).threads.length = s.threads.length := List.length_set

theorem length_signalWrite (s : State) (sig : Nat) :
    (s.signalWrite sig).threads.length = s.threads.length := by
  rw [State.signalWrite]
  split
  · exact length_setThread ..
  · rfl

theorem count_idle_signalWrite (s : State) (sig : Nat) :
    (s.signalWrite sig).count .idle = s.count .idle := by
  rw [State.signalWrite]
  split
  · next hsig => simp [count_setThread hsig, moved]
  · rfl

theorem pending_signalWrite (s : State) (sig : Nat) : pending (s.signalWrite sig) = pending s := by
  rw [pending, pending, length_signalWrite, count_idle_signalWrite]

theorem pending_broadcastRead (s : State) : pending s.broadcastRead = pending s := by
  rw [pending, pending, count_broadcastRead]
  simp [moved, State.broadcastRead]

/-- A thread that leaves is done, whomever it wakes. -/
theorem work_of_leave (hlen : s'.threads.length = s.threads.length)
    (hpending : pending s' = pending s - 1) : work s' < work s := by
  have h1 := awake_le s'
  have h2 := awake_nonneg s
  rw [work, work, hpending, hlen, Int.mul_sub, Int.mul_one]
  rw [hlen] at h1
  omega

/-- A woken thread that goes on is one less that is awake. -/
theorem work_of_resume (hlen : s'.threads.length = s.threads.length)
    (hpending : pending s' = pending s) (hawake : awake s' = awake s - 1) : work s' < work s := by
  rw [work, work, hpending, hlen, hawake]
  omega

theorem pending_setThread_idle {old : Phase} (ht : s.threads[t]? = some old) (hold : old ≠ .idle) :
    pending (s.setThread t .idle) = pending s - 1 := by
  rw [pending, pending, length_setThread, count_setThread ht, moved, if_neg hold, if_pos rfl]
  omega

theorem work_rdunlock (ht : s.threads[t]? = some .reading) :
    work (s.rdunlock t sig) < work s := by
  have hleave : pending ({ s with rActive := s.rActive - 1 }.setThread t .idle) = pending s - 1 :=
    pending_setThread_idle ht (by simp)
  apply work_of_leave
  · rw [State.rdunlock]
    split
    · exact (length_signalWrite ..).trans (length_setThread ..)
    · exact length_setThread ..
  · rw [State.rdunlock]
    split
    · exact (pending_signalWrite ..).trans hleave
    · exact hleave

theorem work_wrunlock (ht : s.threads[t]? = some .writing) :
    work (s.wrunlock t sig) < work s := by
  have hleave : pending ({ s with wActive := 0 }.setThread t .idle) = pending s - 1 :=
    pending_setThread_idle ht (by simp)
  apply work_of_leave
  · rw [State.wrunlock]
    split
    · exact List.length_map .. |>.trans (length_setThread ..)
    · split
      · exact (length_signalWrite ..).trans (length_setThread ..)
      · exact length_setThread ..
  · rw [State.wrunlock]
    split
    · exact (pending_broadcastRead _).trans hleave
    · split
      · exact (pending_signalWrite ..).trans hleave
      · exact hleave

theorem work_rdlockResume (ht : s.threads[t]? = some .readWoken) :
    work (s.rdlockResume t) < work s := by
  rw [State.rdlockResume]
  split
  · apply work_of_resume
    · exact length_setThread ..
    · simp [pending, count_setThread ht, length_setThread, moved]
    · simp [awake, count_setThread ht, moved]
      omega
  · have hcount : ({ s with rWait := s.rWait - 1, rActive := s.rActive + 1 }.setThread t
        .reading).count = _ := count_setThread ht .reading
    apply work_of_resume
    · exact length_setThread ..
    · rw [pending, hcount, length_setThread]
      simp [pending, moved, State.count]
    · rw [awake, hcount]
      simp [awake, moved, State.count]
      omega

theorem work_wrlockResume (ht : s.threads[t]? = some .writeWoken) :
    work (s.wrlockResume t) < work s := by
  rw [State.wrlockResume]
  split
  · apply work_of_resume
    · exact length_setThread ..
    · simp [pending, count_setThread ht, length_setThread, moved]
    · simp [awake, count_setThread ht, moved]
      omega
  · have hcount : ({ s with wWait := s.wWait - 1, wActive := 1 }.setThread t .writing).count = _ :=
      count_setThread ht .writing
    apply work_of_resume
    · exact length_setThread ..
    · rw [pending, hcount, length_setThread]
      simp [pending, moved, State.count]
    · rw [awake, hcount]
      simp [awake, moved, State.count]
      omega

/-- Every draining step is a step closer to the end. -/
theorem work_step {act : Action} (hact : act.Drains) (hs : s.step act = some s') :
    work s' < work s := by
  cases act with
  | rdunlock t sig =>
    obtain ⟨ht, ⟨⟩⟩ := Option.ite_none_right_eq_some.mp hs
    exact work_rdunlock ht.1
  | wrunlock t sig =>
    obtain ⟨ht, ⟨⟩⟩ := Option.ite_none_right_eq_some.mp hs
    exact work_wrunlock ht.1
  | resume t =>
    rw [State.step] at hs
    split at hs
    · next ht =>
      obtain rfl := Option.some.inj hs
      exact work_rdlockResume ht
    · obtain ⟨ht, ⟨⟩⟩ := Option.ite_none_right_eq_some.mp hs
      exact work_wrlockResume ht
  | rdlock t => exact hact.elim
  | tryrdlock t => exact hact.elim
  | wrlock t => exact hact.elim
  | trywrlock t => exact hact.elim
  | spurious t => exact hact.elim

theorem work_nonneg (s : State) : 0 ≤ work s := by
  have h1 := pending_nonneg s
  have h2 := awake_nonneg s
  have h3 : 0 ≤ (s.threads.length + 1 : Int) * pending s := Int.mul_nonneg (by omega) h1
  rw [work]
  omega

theorem work_steps {acts : List Action} (hacts : ∀ act ∈ acts, act.Drains)
    (hs : steps s acts = some s') : work s' + acts.length ≤ work s := by
  induction acts generalizing s with
  | nil =>
    obtain rfl := Option.some.inj hs
    simp
  | cons act acts ih =>
    obtain ⟨s₁, h1, h2⟩ := Option.bind_eq_some_iff.mp hs
    have hfirst := work_step (hacts act (by simp)) h1
    have hrest := ih (fun a ha => hacts a (by simp [ha])) h2
    rw [List.length_cons]
    omega

/-- A signal always has somebody to wake, or nobody sleeps. -/
theorem exists_maySignal (s : State) : ∃ sig, s.MaySignal sig := by
  by_cases hmem : .writeWait ∈ s.threads
  · obtain ⟨sig, hsig⟩ := List.mem_iff_getElem?.mp hmem
    exact ⟨sig, fun _ => hsig⟩
  · exact ⟨0, fun h => absurd h hmem⟩

/-- When no draining step can be taken, no thread has the lock or is awake. -/
theorem not_mem_of_stuck (hstuck : ∀ act : Action, act.Drains → s.step act = none) :
    .reading ∉ s.threads ∧ .writing ∉ s.threads ∧ .readWoken ∉ s.threads ∧
      .writeWoken ∉ s.threads := by
  obtain ⟨sig, hsig⟩ := exists_maySignal s
  refine ⟨?_, ?_, ?_, ?_⟩
  · intro hmem
    obtain ⟨t, ht⟩ := List.mem_iff_getElem?.mp hmem
    have := hstuck (.rdunlock t sig) trivial
    simp [State.step, ht, hsig] at this
  · intro hmem
    obtain ⟨t, ht⟩ := List.mem_iff_getElem?.mp hmem
    have := hstuck (.wrunlock t sig) trivial
    simp [State.step, ht, hsig] at this
  · intro hmem
    obtain ⟨t, ht⟩ := List.mem_iff_getElem?.mp hmem
    have := hstuck (.resume t) trivial
    simp [State.step, ht] at this
  · intro hmem
    obtain ⟨t, ht⟩ := List.mem_iff_getElem?.mp hmem
    have := hstuck (.resume t) trivial
    simp [State.step, ht] at this

/-- Then nobody is left asleep either. -/
theorem Inv.eq_init_of_stuck (h : Inv s) (hstuck : ∀ act : Action, act.Drains → s.step act = none) :
    s = init s.threads.length := by
  obtain ⟨hr, hw, hrk, hwk⟩ := not_mem_of_stuck hstuck
  obtain ⟨h1, h2, h3, h4, -, h6, h7, -⟩ := h
  have hr := count_eq_zero.mpr hr
  have hw := count_eq_zero.mpr hw
  have hrk := count_eq_zero.mpr hrk
  have hwk := count_eq_zero.mpr hwk
  have hrw := h6 hw
  have hww : s.count .writeWait = 0 := by
    have := count_nonneg s .writeWait
    by_contra hne
    have := h7 hw hr (by omega)
    omega
  have hidle : ∀ p ∈ s.threads, p = .idle := by
    intro p hp
    cases p with
    | idle => rfl
    | readWait => exact absurd hp (count_eq_zero.mp hrw)
    | readWoken => exact absurd hp (count_eq_zero.mp hrk)
    | reading => exact absurd hp (count_eq_zero.mp hr)
    | writeWait => exact absurd hp (count_eq_zero.mp hww)
    | writeWoken => exact absurd hp (count_eq_zero.mp hwk)
    | writing => exact absurd hp (count_eq_zero.mp hw)
  have hthreads := List.eq_replicate_of_mem hidle
  obtain ⟨rActive, wActive, rWait, wWait, threads⟩ := s
  simp only [init, State.mk.injEq] at *
  refine ⟨by omega, by omega, by omega, by omega, hthreads⟩

/-- The threads stay the ones there are. -/
theorem length_step {act : Action} (hs : s.step act = some s') :
    s'.threads.length = s.threads.length := by
  cases act with
  | rdlock t =>
    obtain ⟨-, ⟨⟩⟩ := Option.ite_none_right_eq_some.mp hs
    rw [State.rdlock]
    split <;> exact length_setThread ..
  | tryrdlock t =>
    obtain ⟨-, ⟨⟩⟩ := Option.ite_none_right_eq_some.mp hs
    rw [State.tryrdlock]
    split
    · rfl
    · exact length_setThread ..
  | rdunlock t sig =>
    obtain ⟨-, ⟨⟩⟩ := Option.ite_none_right_eq_some.mp hs
    rw [State.rdunlock]
    split
    · exact (length_signalWrite ..).trans (length_setThread ..)
    · exact length_setThread ..
  | wrlock t =>
    obtain ⟨-, ⟨⟩⟩ := Option.ite_none_right_eq_some.mp hs
    rw [State.wrlock]
    split <;> exact length_setThread ..
  | trywrlock t =>
    obtain ⟨-, ⟨⟩⟩ := Option.ite_none_right_eq_some.mp hs
    rw [State.trywrlock]
    split
    · rfl
    · exact length_setThread ..
  | wrunlock t sig =>
    obtain ⟨-, ⟨⟩⟩ := Option.ite_none_right_eq_some.mp hs
    rw [State.wrunlock]
    split
    · exact List.length_map .. |>.trans (length_setThread ..)
    · split
      · exact (length_signalWrite ..).trans (length_setThread ..)
      · exact length_setThread ..
  | resume t =>
    rw [State.step] at hs
    split at hs
    · obtain rfl := Option.some.inj hs
      rw [State.rdlockResume]
      split <;> exact length_setThread ..
    · obtain ⟨-, ⟨⟩⟩ := Option.ite_none_right_eq_some.mp hs
      rw [State.wrlockResume]
      split <;> exact length_setThread ..
  | spurious t =>
    rw [State.step] at hs
    split at hs
    · obtain rfl := Option.some.inj hs
      exact length_setThread ..
    · obtain ⟨-, ⟨⟩⟩ := Option.ite_none_right_eq_some.mp hs
      exact length_setThread ..

theorem length_next (s : State) (act : Action) :
    (s.next act).threads.length = s.threads.length := by
  rw [State.next]
  cases hs : s.step act with
  | none => rfl
  | some s' => exact length_step hs

theorem length_of_run (n : Nat) (acts : List Action) :
    (run State.next (init n) acts).threads.length = n :=
  (always_of_step (I := fun s => s.threads.length = n)
    (fun s act h => (length_next s act).trans h) List.length_replicate acts).last

theorem Inv.steps {acts : List Action} (h : Inv s) (hs : steps s acts = some s') :
    Inv s' ∧ s'.threads.length = s.threads.length := by
  induction acts generalizing s with
  | nil =>
    obtain rfl := Option.some.inj hs
    exact ⟨h, rfl⟩
  | cons act acts ih =>
    obtain ⟨s₁, h1, h2⟩ := Option.bind_eq_some_iff.mp hs
    obtain ⟨hinv, hlen⟩ := ih (h.step h1) h2
    exact ⟨hinv, hlen.trans (length_step h1)⟩

/-- From every state that can be reached, if nobody new comes, giving the lock up and going
on when woken comes to an end after a bounded number of steps, in whichever order they are
taken; and it ends only when no thread has the lock or waits for it. -/
theorem drained_of_run (n : Nat) (acts rest : List Action) {s' : State}
    (hrest : ∀ act ∈ rest, act.Drains) (hs : steps (run State.next (init n) acts) rest = some s') :
    rest.length ≤ n * (n + 2) ∧
      ((∀ act : Action, act.Drains → s'.step act = none) → s' = init n) := by
  have hlen := length_of_run n acts
  obtain ⟨hinv, hlen'⟩ := (inv_of_run n acts).steps hs
  constructor
  · have hwork := work_steps hrest hs
    have hnonneg := work_nonneg s'
    have hawake := awake_le (run State.next (init n) acts)
    have hpending : pending (run State.next (init n) acts) ≤ n := by
      have := count_nonneg (run State.next (init n) acts) .idle
      rw [pending, hlen]
      omega
    have hmul := Int.mul_le_mul_of_nonneg_left hpending (by omega : (0 : Int) ≤ n + 1)
    have hexpand : (n * (n + 2) : Int) = (n + 1) * n + n := by
      rw [Int.mul_add, Int.add_mul]
      omega
    have hbound : (rest.length : Int) ≤ n * (n + 2) := by
      have hle : (rest.length : Int) ≤ work (run State.next (init n) acts) := by omega
      rw [work, hlen] at hle
      rw [hlen] at hawake
      omega
    exact_mod_cast hbound
  · intro hstuck
    have := hinv.eq_init_of_stuck hstuck
    rwa [hlen', hlen] at this

/-- Two readers, one of whom sleeps behind a writer, and a writer that waits. -/
theorem drained_of_three :
    [Action.wrunlock 0 2, .resume 1, .rdunlock 1 2, .resume 2, .wrunlock 2 0].length ≤ 3 * 5 ∧
      ((∀ act : Action, act.Drains → (init 3).step act = none) → init 3 = init 3) :=
  drained_of_run 3 [.wrlock 0, .rdlock 1, .wrlock 2] _
    (by simp [Action.Drains]) (show _ = some (init 3) by decide)

end Draining

end Rwlock

end Aprsc
