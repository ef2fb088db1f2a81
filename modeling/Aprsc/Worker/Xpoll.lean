-- SUMMARY: The table of `poll` under additions and removals, and passes that hand each event to its own descriptor once.
import Aprsc.Base.LinkedLists
import Aprsc.Base.Runs
import Aprsc.Base.Traced
import Mathlib.Data.Set.Function

/-!
# Polling

The descriptors that a worker polls are in a linked list, and each has an entry in the array that
is passed to `poll`. When a descriptor is removed, the entries after its own move down by one, and
the indices of their descriptors are counted down. A pass goes along the list and calls the handler
for the entries with events, while the handler adds and removes descriptors.
-/

namespace Aprsc

open PtrQueue Runs

/-! ## Descriptors and entries -/

/-- The field of `struct xpoll_t` that points to a descriptor. -/
inductive XpollField where
  | fds
deriving Repr, DecidableEq

/-- `struct pollfd`. -/
structure PollFd where
  fd : Int
  events : UInt16
  revents : UInt16
deriving Repr, DecidableEq

def pollIn : UInt16 := 0x001
def pollPri : UInt16 := 0x002
def pollOut : UInt16 := 0x004
def pollErr : UInt16 := 0x008
def pollHup : UInt16 := 0x010
def pollNval : UInt16 := 0x020

def xpIn : UInt32 := 1
def xpOut : UInt32 := 2
def xpErr : UInt32 := 4

/-- `XP_INCREMENT`. -/
def xpIncrement : Nat := 64

/-- `struct xpoll_t`, with the fields of all cells for `struct xpoll_fd_t`. What the array has
from its length on is what it will have there when it grows. -/
structure XpollT (N : Type) where
  links : Links XpollField N
  fd : N → Int
  result : N → UInt32
  pollfdN : N → Nat
  pollfd : Nat → PollFd
  pollfdLen : Nat
  pollfdUsed : Nat

/-- `xpoll_fd_pool`, for one call: it hands out a cell that is not in use, or none. -/
structure CellPool (N : Type) where
  malloc : List N → Option N
  fresh : ∀ {cells n}, malloc cells = some n → n ∉ cells

namespace XpollT

variable {N : Type} [DecidableEq N]

/-- `xpoll_initialize`, in memory with any contents. -/
def xpollInitialize (xp : XpollT N) : XpollT N :=
  { xp with
    links := { xp.links with mem := Function.update xp.links.mem (.head .fds) none }
    pollfdLen := xpIncrement
    pollfdUsed := 0 }

/-- The descriptors in the list. -/
def cells (xp : XpollT N) : List N :=
  walk xp.links.mem xp.pollfdUsed (xp.links.mem (.head .fds))

/-- `pollfd_len` after the array was made longer, if it is full. -/
def grownLen (xp : XpollT N) : Nat :=
  if xp.pollfdUsed ≥ xp.pollfdLen then xp.pollfdLen + xpIncrement else xp.pollfdLen

/-- `xpoll_add`, in the cell that was allocated. -/
def xpollAdd (xp : XpollT N) (xfd : Option N) (fd : Int) : Option N × XpollT N :=
  match xfd with
  | none => (none, xp)
  | some xfd =>
      let entry := { xp.pollfd xp.pollfdUsed with fd, events := pollIn }
      (some xfd, { xp with
        fd := Function.update xp.fd xfd fd
        links := xp.links.push .fds xfd
        pollfdLen := xp.grownLen
        pollfd := Function.update xp.pollfd xp.pollfdUsed entry
        pollfdN := Function.update xp.pollfdN xfd xp.pollfdUsed
        pollfdUsed := xp.pollfdUsed + 1 })

/-- A round of the loop that counts the indices down. -/
def renumber (xfd : N) (pollfdN : N → Nat) (xf : N) : N → Nat :=
  if pollfdN xf > pollfdN xfd then Function.update pollfdN xf (pollfdN xf - 1) else pollfdN

/-- `memmove` of the entries after an index to the left. -/
def moveTail (pollfd : Nat → PollFd) (n used : Nat) : Nat → PollFd :=
  fun i => if n ≤ i ∧ i < n + (used - n - 1) then pollfd (i + 1) else pollfd i

/-- `xpoll_remove`. -/
def xpollRemove (xp : XpollT N) (xfd : N) : XpollT N :=
  { xp with
    pollfd := moveTail xp.pollfd (xp.pollfdN xfd) xp.pollfdUsed
    pollfdN := xp.cells.foldl (renumber xfd) xp.pollfdN
    pollfdUsed := xp.pollfdUsed - 1
    links := xp.links.unlink xfd }

/-- `xpoll_outgoing`. -/
def xpollOutgoing (xp : XpollT N) (xfd : N) (haveOutgoing : Bool) : XpollT N :=
  let entry := xp.pollfd (xp.pollfdN xfd)
  let events :=
    if haveOutgoing then entry.events ||| pollOut
    else entry.events &&& (pollIn ||| pollPri ||| pollErr ||| pollHup ||| pollNval)
  { xp with pollfd := Function.update xp.pollfd (xp.pollfdN xfd) { entry with events } }

end XpollT

/-! ## A pass -/

/-- A call of a program or of a handler. -/
inductive XpollCall (N : Type) where
  | add (fd : Int) (pool : CellPool N)
  | remove (xfd : N)
  | outgoing (xfd : N) (haveOutgoing : Bool)

/-- What happens in a pass: the handler is called for a descriptor, or it has made a call. The state
is the one at that time. -/
inductive PollEvent (N : Type) where
  | handled (xfd : N) (xp : XpollT N)
  | called (c : XpollCall N) (xp : XpollT N)

/-- What `poll` returns: an error, or the events of all entries. -/
inductive PollReturn where
  | error
  | ready (revents : Nat → UInt16)

/-- `xfd->result`. -/
def pollResult (revents : UInt16) : UInt32 :=
  (if revents &&& (pollIn ||| pollPri) ≠ 0 then xpIn else 0) |||
  (if revents &&& pollOut ≠ 0 then xpOut else 0) |||
  (if revents &&& (pollErr ||| pollHup ||| pollNval) ≠ 0 then xpErr else 0)

namespace XpollT

variable {N : Type} [DecidableEq N]

/-- A caller owns the descriptors that it names. In a pass it leaves the one alone to which the pass
goes next. -/
def MayCall (xp : XpollT N) (next : Option N) : XpollCall N → Prop
  | .add _ _ => True
  | .remove xfd => xfd ∈ xp.cells ∧ next ≠ some xfd
  | .outgoing xfd _ => xfd ∈ xp.cells

instance (xp : XpollT N) (next : Option N) : (c : XpollCall N) → Decidable (xp.MayCall next c)
  | .add _ _ => inferInstanceAs (Decidable True)
  | .remove _ => inferInstanceAs (Decidable (_ ∧ _))
  | .outgoing _ _ => inferInstanceAs (Decidable (_ ∈ _))

def call (xp : XpollT N) : XpollCall N → XpollT N
  | .add fd pool => (xp.xpollAdd (pool.malloc xp.cells) fd).2
  | .remove xfd => xp.xpollRemove xfd
  | .outgoing xfd haveOutgoing => xp.xpollOutgoing xfd haveOutgoing

/-- The calls of a handler. There are none that it may not make. -/
def calls (next : Option N) : List (XpollCall N) → XpollT N → Traced (PollEvent N) (XpollT N)
  | [], xp => pure xp
  | c :: cs, xp =>
      if xp.MayCall next c then do
        Traced.tell (.called c (xp.call c))
        calls next cs (xp.call c)
      else calls next cs xp

/-- The loop of `xpoll` from a descriptor on. It has no result if it is still running after so many
rounds. -/
def xpollLoop (handler : N → List (XpollCall N)) :
    (rounds : Nat) → Option N → XpollT N → Traced (PollEvent N) (Option (XpollT N))
  | _, none, xp => pure (some xp)
  | 0, some _, _ => pure none
  | rounds + 1, some xfd, xp => do
      let next := xp.links.mem (.next xfd)
      let revents := (xp.pollfd (xp.pollfdN xfd)).revents
      let xp := { xp with result := Function.update xp.result xfd (pollResult revents) }
      if revents = 0 then xpollLoop handler rounds next xp
      else do
        Traced.tell (.handled xfd xp)
        let xp ← calls next (handler xfd) xp
        xpollLoop handler rounds next xp

/-- `poll` writes the events of the entries in use. -/
def setRevents (xp : XpollT N) (revents : Nat → UInt16) : XpollT N :=
  { xp with
    pollfd := fun i =>
      if i < xp.pollfdUsed then { xp.pollfd i with revents := revents i } else xp.pollfd i }

/-- `xpoll`. It goes on if `poll` returns a positive number of entries with events. -/
def xpoll (xp : XpollT N) (ret : PollReturn) (handler : N → List (XpollCall N)) :
    Traced (PollEvent N) (Option (XpollT N)) :=
  match ret with
  | .error => pure (some xp)
  | .ready revents =>
      let xp := xp.setRevents revents
      if (List.range xp.pollfdUsed).countP (revents · ≠ 0) = 0 then pure (some xp)
      else xpollLoop handler xp.pollfdUsed (xp.links.mem (.head .fds)) xp

end XpollT

/-! ## What happened in a pass -/

section
variable {N : Type}

/-- The state at the time of the event. -/
def PollEvent.state : PollEvent N → XpollT N
  | .handled _ xp => xp
  | .called _ xp => xp

variable [DecidableEq N]

/-- The states in which the handler was called for a descriptor. -/
def handledIn (x : N) : List (PollEvent N) → List (XpollT N)
  | [] => []
  | .handled y xp :: log => if y = x then xp :: handledIn x log else handledIn x log
  | .called _ _ :: log => handledIn x log

/-- The descriptor is removed before the handler is called for it. -/
def RemovedFirst (x : N) : List (PollEvent N) → Prop
  | [] => False
  | .handled y _ :: log => y ≠ x ∧ RemovedFirst x log
  | .called (.remove y) _ :: log => y = x ∨ RemovedFirst x log
  | .called (.add _ _) _ :: log => RemovedFirst x log
  | .called (.outgoing _ _) _ :: log => RemovedFirst x log

variable {x : N} {log log' : List (PollEvent N)} {xp : XpollT N}

theorem handledIn_append : handledIn x (log ++ log') = handledIn x log ++ handledIn x log' := by
  induction log with
  | nil => rfl
  | cons e log ih =>
    cases e with
    | handled y xp =>
      simp only [List.cons_append, handledIn, ih]
      split <;> rfl
    | called c xp => exact ih

omit [DecidableEq N] in
theorem removedFirst_called {c : XpollCall N} :
    RemovedFirst x (.called c xp :: log) ↔ c = .remove x ∨ RemovedFirst x log := by
  cases c with
  | add fd pool => simp [RemovedFirst]
  | remove y => simp [RemovedFirst]
  | outgoing y haveOutgoing => simp [RemovedFirst]

theorem removedFirst_append (h : handledIn x log = []) :
    RemovedFirst x (log ++ log') ↔ RemovedFirst x log ∨ RemovedFirst x log' := by
  induction log with
  | nil => simp [RemovedFirst]
  | cons e log ih =>
    cases e with
    | handled y xp =>
      have hne : y ≠ x := by
        rintro rfl
        simp [handledIn] at h
      rw [handledIn, if_neg hne] at h
      simp only [List.cons_append, RemovedFirst, ih h, hne, not_false_eq_true, true_and, ne_eq]
    | called c xp => rw [List.cons_append, removedFirst_called, removedFirst_called, ih h, or_assoc]

end

/-! ## Indices -/

/-- The indices of the descriptors in the list count down to 0. -/
def Numbered {N : Type} (num : N → Nat) : List N → Prop
  | [] => True
  | x :: xs => num x = xs.length ∧ Numbered num xs

section
variable {N : Type} {num num' : N → Nat} {xs pre post : List N} {x y : N} {n : Nat}

theorem Numbered.congr (h : Numbered num xs) (heq : ∀ x ∈ xs, num' x = num x) :
    Numbered num' xs := by
  induction xs with
  | nil => trivial
  | cons x xs ih =>
    exact ⟨(heq x List.mem_cons_self).trans h.1,
      ih h.2 fun y hy => heq y (List.mem_cons_of_mem x hy)⟩

theorem Numbered.lt (h : Numbered num xs) (hx : x ∈ xs) : num x < xs.length := by
  induction xs with
  | nil => cases hx
  | cons z xs ih =>
    rw [List.length_cons]
    rcases List.mem_cons.mp hx with rfl | hx
    · rw [h.1]
      exact Nat.lt_succ_self _
    · exact Nat.lt_succ_of_lt (ih h.2 hx)

theorem Numbered.exists_eq (h : Numbered num xs) (hn : n < xs.length) : ∃ x ∈ xs, num x = n := by
  induction xs with
  | nil => cases hn
  | cons z xs ih =>
    rw [List.length_cons] at hn
    obtain hlt | rfl := Nat.lt_succ_iff_lt_or_eq.mp hn
    · obtain ⟨x, hx, hxn⟩ := ih h.2 hlt
      exact ⟨x, List.mem_cons_of_mem z hx, hxn⟩
    · exact ⟨z, List.mem_cons_self, h.1⟩

theorem Numbered.inj (h : Numbered num xs) (hx : x ∈ xs) (hy : y ∈ xs) (heq : num x = num y) :
    x = y := by
  induction xs with
  | nil => cases hx
  | cons z xs ih =>
    rcases List.mem_cons.mp hx with rfl | hx' <;> rcases List.mem_cons.mp hy with rfl | hy'
    · rfl
    · exact absurd (h.2.lt hy') (by rw [← heq, h.1]; exact Nat.lt_irrefl _)
    · exact absurd (h.2.lt hx') (by rw [heq, h.1]; exact Nat.lt_irrefl _)
    · exact ih h.2 hx' hy'

/-- A descriptor in the list, those before it and those after it. -/
theorem Numbered.split (h : Numbered num (pre ++ x :: post)) :
    num x = post.length ∧ (∀ y ∈ pre, num x < num y) ∧ ∀ y ∈ post, num y < num x := by
  induction pre with
  | nil =>
    rw [List.nil_append] at h
    refine ⟨h.1, by simp, fun y hy => ?_⟩
    rw [h.1]
    exact h.2.lt hy
  | cons z pre ih =>
    obtain ⟨hx, hpre, hpost⟩ := ih h.2
    refine ⟨hx, fun y hy => ?_, hpost⟩
    rcases List.mem_cons.mp hy with rfl | hy
    · rw [h.1]
      exact h.2.lt (List.mem_append_right pre List.mem_cons_self)
    · exact hpre y hy

/-- The indices before the one that is removed are counted down. -/
theorem Numbered.remove (h : Numbered num (pre ++ x :: post))
    (hpre : ∀ y ∈ pre, num' y = num y - 1) (hpost : ∀ y ∈ post, num' y = num y) :
    Numbered num' (pre ++ post) := by
  induction pre with
  | nil => exact h.2.congr hpost
  | cons z pre ih =>
    refine ⟨?_, ih h.2 fun y hy => hpre y (List.mem_cons_of_mem z hy)⟩
    have hz : num z = (pre ++ x :: post).length := h.1
    rw [List.length_append, List.length_cons] at hz
    change num' z = (pre ++ post).length
    rw [hpre z List.mem_cons_self, List.length_append]
    omega

theorem Numbered.bijOn (h : Numbered num xs) :
    Set.BijOn num {x | x ∈ xs} {n | n < xs.length} :=
  ⟨fun _ hx => h.lt hx, fun _ hx _ hy heq => h.inj hx hy heq, fun _ hn => h.exists_eq hn⟩

/-- The loop over the descriptors counts down the higher indices. -/
theorem foldl_renumber [DecidableEq N] (hnodup : xs.Nodup) (num : N → Nat) (y : N) :
    xs.foldl (XpollT.renumber x) num y =
      if y ∈ xs ∧ num y > num x then num y - 1 else num y := by
  induction xs generalizing num with
  | nil => simp
  | cons z xs ih =>
    rw [List.nodup_cons] at hnodup
    have hself : XpollT.renumber x num z x = num x := by
      unfold XpollT.renumber
      split
      next hgt =>
        have hne : x ≠ z := by
          rintro rfl
          exact Nat.lt_irrefl _ hgt
        exact Function.update_of_ne hne ..
      next => rfl
    rw [List.foldl_cons, ih hnodup.2, hself]
    by_cases hy : y = z
    · subst hy
      rw [if_neg fun h => hnodup.1 h.1, XpollT.renumber]
      by_cases hgt : num y > num x
      · rw [if_pos hgt, if_pos ⟨List.mem_cons_self, hgt⟩, Function.update_self]
      · rw [if_neg hgt, if_neg fun h => hgt h.2]
    · have hround : XpollT.renumber x num z y = num y := by
        unfold XpollT.renumber
        split
        · exact Function.update_of_ne hy ..
        · rfl
      rw [hround]
      simp [hy]

end

/-! ## The table -/

namespace XpollT

variable {N : Type}

/-- The table is consistent: the links are those of the list, and its descriptors have the entries
in use, each its own. -/
structure Consistent (xp : XpollT N) : Prop where
  links : xp.links.Rep (fun _ => xp.cells) fun _ => True
  bijection : Set.BijOn xp.pollfdN {x | x ∈ xp.cells} {n | n < xp.pollfdUsed}
  fd : ∀ x ∈ xp.cells, (xp.pollfd (xp.pollfdN x)).fd = xp.fd x
  room : xp.pollfdUsed ≤ xp.pollfdLen

/-- The descriptors in the list, with indices that count down along it. -/
structure Table (xp : XpollT N) (fds : List N) : Prop where
  links : xp.links.Rep (fun _ => fds) fun _ => True
  numbered : Numbered xp.pollfdN fds
  fd : ∀ x ∈ fds, (xp.pollfd (xp.pollfdN x)).fd = xp.fd x
  used : xp.pollfdUsed = fds.length
  room : xp.pollfdUsed ≤ xp.pollfdLen

/-- The entry of a descriptor. -/
def entry (xp : XpollT N) (x : N) : PollFd := xp.pollfd (xp.pollfdN x)

theorem update_fds (fds xs : List N) :
    Function.update (fun _ : XpollField => fds) .fds xs = fun _ => xs := by
  funext f
  cases f
  exact Function.update_self ..

theorem grownLen_room (xp : XpollT N) (h : xp.pollfdUsed ≤ xp.pollfdLen) :
    xp.pollfdUsed + 1 ≤ xp.grownLen := by
  unfold XpollT.grownLen
  split
  next => exact Nat.add_le_add h (by decide)
  next hroom => exact Nat.not_le.mp hroom

namespace Table

variable {xp : XpollT N} {fds : List N} {x y n : N}

theorem nodup (h : xp.Table fds) : fds.Nodup := h.links.lists.queues.nodup .fds

theorem cells_eq (h : xp.Table fds) : xp.cells = fds :=
  walk_eq (h.links.lists.queues.chain .fds) (h.links.lists.terminated .fds)
    (Nat.le_of_eq h.used.symm)

theorem consistent (h : xp.Table fds) : xp.Consistent where
  links := by
    rw [h.cells_eq]
    exact h.links
  bijection := by
    rw [h.cells_eq, h.used]
    exact h.numbered.bijOn
  fd := by
    rw [h.cells_eq]
    exact h.fd
  room := h.room

variable [DecidableEq N]

theorem init (xp : XpollT N) : xp.xpollInitialize.Table [] where
  links := {
    lists := {
      queues := ⟨fun _ => trivial, fun _ => List.nodup_nil, fun hmem => by cases hmem⟩
      terminated := by
        rintro ⟨⟩
        exact Function.update_self (Loc.head XpollField.fds : Loc XpollField N) none xp.links.mem }
    back := fun _ _ => trivial }
  numbered := trivial
  fd := fun _ hx => by cases hx
  used := rfl
  room := Nat.zero_le _

/-- The new descriptor gets the entry after those in use. The others keep theirs. -/
theorem xpollAdd (h : xp.Table fds) (hn : n ∉ fds) (fd : Int) :
    (xp.xpollAdd (some n) fd).2.Table (n :: fds) ∧
      ∀ x ∈ fds, (xp.xpollAdd (some n) fd).2.entry x = xp.entry x := by
  have hne {x : N} (hx : x ∈ fds) : x ≠ n := by
    rintro rfl
    exact hn hx
  have hindex {x : N} (hx : x ∈ fds) : xp.pollfdN x ≠ xp.pollfdUsed := by
    have hlt := h.numbered.lt hx
    rw [h.used]
    exact Nat.ne_of_lt hlt
  have hentry {x : N} (hx : x ∈ fds) : (xp.xpollAdd (some n) fd).2.entry x = xp.entry x := by
    simp only [XpollT.entry, XpollT.xpollAdd, Function.update_of_ne (hne hx),
      Function.update_of_ne (hindex hx)]
  refine ⟨⟨?_, ⟨?_, ?_⟩, ?_, ?_, ?_⟩, fun x hx => hentry hx⟩
  · have hpush := h.links.push .fds (n := n) fun _ => hn
    rwa [update_fds] at hpush
  · simp only [XpollT.xpollAdd, Function.update_self]
    exact h.used
  · exact h.numbered.congr fun x hx => Function.update_of_ne (hne hx) ..
  · intro x hx
    rcases List.mem_cons.mp hx with rfl | hx
    · simp only [XpollT.xpollAdd, Function.update_self]
    · change ((xp.xpollAdd (some n) fd).2.entry x).fd = _
      rw [hentry hx]
      simp only [XpollT.xpollAdd, Function.update_of_ne (hne hx)]
      exact h.fd x hx
  · simp only [XpollT.xpollAdd, List.length_cons, h.used]
  · exact grownLen_room xp h.room

/-- The descriptor is gone. The others keep their entries, wherever these are now. -/
theorem xpollRemove (h : xp.Table fds) (hx : x ∈ fds) :
    (xp.xpollRemove x).Table (fds.erase x) ∧
      ∀ y ∈ fds, y ≠ x → (xp.xpollRemove x).entry y = xp.entry y := by
  obtain ⟨pre, post, rfl⟩ := List.append_of_mem hx
  obtain ⟨hpre, hpost, -⟩ := h.links.lists.queues.not_mem_pre (h := .fds) rfl
  obtain ⟨hself, hbefore, hafter⟩ := h.numbered.split
  have herase : (pre ++ x :: post).erase x = pre ++ post := by
    rw [List.erase_append_right _ hpre, List.erase_cons_head]
  have hnum (y : N) : (xp.xpollRemove x).pollfdN y =
      if y ∈ pre ++ x :: post ∧ xp.pollfdN y > xp.pollfdN x then xp.pollfdN y - 1
      else xp.pollfdN y := by
    rw [XpollT.xpollRemove, h.cells_eq]
    exact foldl_renumber h.nodup xp.pollfdN y
  have hnumBefore {y : N} (hy : y ∈ pre) : (xp.xpollRemove x).pollfdN y = xp.pollfdN y - 1 := by
    rw [hnum, if_pos ⟨List.mem_append_left _ hy, hbefore y hy⟩]
  have hnumAfter {y : N} (hy : y ∈ post) : (xp.xpollRemove x).pollfdN y = xp.pollfdN y := by
    rw [hnum, if_neg fun hgt => Nat.lt_asymm hgt.2 (hafter y hy)]
  have hpollfd (i : Nat) : (xp.xpollRemove x).pollfd i =
      if xp.pollfdN x ≤ i ∧ i < xp.pollfdN x + (xp.pollfdUsed - xp.pollfdN x - 1) then
        xp.pollfd (i + 1)
      else xp.pollfd i := rfl
  have hentry {y : N} (hy : y ∈ pre ∨ y ∈ post) : (xp.xpollRemove x).entry y = xp.entry y := by
    have hlt : xp.pollfdN y < xp.pollfdUsed := by
      rw [h.used]
      refine h.numbered.lt (List.mem_append.mpr ?_)
      exact hy.imp_right (List.mem_cons_of_mem x)
    rcases hy with hy | hy
    · have hgt := hbefore y hy
      rw [XpollT.entry, hnumBefore hy, hpollfd, if_pos (by omega), Nat.sub_add_cancel (by omega),
        XpollT.entry]
    · have hle := hafter y hy
      rw [XpollT.entry, hnumAfter hy, hpollfd, if_neg (by omega), XpollT.entry]
  rw [herase]
  refine ⟨⟨?_, ?_, ?_, ?_, ?_⟩, ?_⟩
  · have hunlink := h.links.unlink (h := .fds) trivial hx
    rwa [update_fds, herase] at hunlink
  · exact h.numbered.remove (fun y hy => hnumBefore hy) fun y hy => hnumAfter hy
  · intro y hy
    change ((xp.xpollRemove x).entry y).fd = xp.fd y
    rw [hentry (List.mem_append.mp hy)]
    exact h.fd y (List.mem_append.mpr ((List.mem_append.mp hy).imp_right (List.mem_cons_of_mem x)))
  · have hused := h.used
    rw [List.length_append, List.length_cons] at hused
    rw [List.length_append]
    change xp.pollfdUsed - 1 = pre.length + post.length
    omega
  · exact (Nat.sub_le _ _).trans h.room
  · intro y hy hne
    rcases List.mem_append.mp hy with hy | hy
    · exact hentry (.inl hy)
    · exact hentry (.inr ((List.mem_cons.mp hy).resolve_left hne))

omit [DecidableEq N] in
/-- Only the events that are waited for change. -/
theorem xpollOutgoing (h : xp.Table fds) (x : N) (haveOutgoing : Bool) :
    (xp.xpollOutgoing x haveOutgoing).Table fds ∧
      ∀ y, ((xp.xpollOutgoing x haveOutgoing).entry y).revents = (xp.entry y).revents := by
  have hentry (y : N) : ((xp.xpollOutgoing x haveOutgoing).entry y).fd = (xp.entry y).fd ∧
      ((xp.xpollOutgoing x haveOutgoing).entry y).revents = (xp.entry y).revents := by
    simp only [XpollT.entry, XpollT.xpollOutgoing]
    by_cases hy : xp.pollfdN y = xp.pollfdN x
    · rw [hy, Function.update_self]
      exact ⟨rfl, rfl⟩
    · rw [Function.update_of_ne hy]
      exact ⟨rfl, rfl⟩
  exact ⟨⟨h.links, h.numbered, fun y hy => (hentry y).1.trans (h.fd y hy), h.used, h.room⟩,
    fun y => (hentry y).2⟩

end Table

/-! ## The calls of a handler -/

variable [DecidableEq N]

/-- Calls were made while the pass had the descriptors `rest` before it. Those that are not removed
are still before it and have the events they had, and the next one is the same. -/
structure Kept (xp : XpollT N) (rest : List N) (log : List (PollEvent N)) (xp' : XpollT N)
    (pre' rest' : List N) : Prop where
  table : xp'.Table (pre' ++ rest')
  sublist : rest'.Sublist rest
  next : rest'.head? = rest.head?
  mem : ∀ x ∈ rest, x ∈ rest' ↔ ¬RemovedFirst x log
  revents : ∀ x ∈ rest', (xp'.entry x).revents = (xp.entry x).revents
  handled : ∀ x, handledIn x log = []
  consistent : ∀ e ∈ log, e.state.Consistent

theorem Kept.trans {xp xp' xp'' : XpollT N} {rest pre' rest' pre'' rest'' : List N}
    {log log' : List (PollEvent N)} (h : Kept xp rest log xp' pre' rest')
    (h' : Kept xp' rest' log' xp'' pre'' rest'') :
    Kept xp rest (log ++ log') xp'' pre'' rest'' where
  table := h'.table
  sublist := h'.sublist.trans h.sublist
  next := h'.next.trans h.next
  mem := by
    intro x hx
    rw [removedFirst_append (h.handled x), not_or, ← h.mem x hx]
    constructor
    · intro hx''
      have hx' := h'.sublist.subset hx''
      exact ⟨hx', (h'.mem x hx').mp hx''⟩
    · rintro ⟨hx', hlog'⟩
      exact (h'.mem x hx').mpr hlog'
  revents := fun x hx => (h'.revents x hx).trans (h.revents x (h'.sublist.subset hx))
  handled := by
    intro x
    rw [handledIn_append, h.handled, h'.handled, List.append_nil]
  consistent := by
    intro e he
    exact (List.mem_append.mp he).elim (h.consistent e) (h'.consistent e)

/-- One call, by what it did to the table. -/
theorem Kept.single {xp : XpollT N} {c : XpollCall N} {rest pre' rest' : List N}
    (htable : (xp.call c).Table (pre' ++ rest')) (hsublist : rest'.Sublist rest)
    (hnext : rest'.head? = rest.head?) (hmem : ∀ x ∈ rest, x ∈ rest' ↔ c ≠ .remove x)
    (hentry : ∀ x ∈ rest', ((xp.call c).entry x).revents = (xp.entry x).revents) :
    Kept xp rest [.called c (xp.call c)] (xp.call c) pre' rest' where
  table := htable
  sublist := hsublist
  next := hnext
  mem := by
    intro x hx
    rw [hmem x hx, removedFirst_called, RemovedFirst, or_false]
  revents := hentry
  handled := fun _ => rfl
  consistent := by
    intro e he
    rw [List.mem_singleton.mp he]
    exact htable.consistent

/-- A new descriptor comes before those that the pass had. -/
theorem Table.callAdd {xp : XpollT N} {pre rest : List N} (h : xp.Table (pre ++ rest)) (fd : Int)
    (pool : CellPool N) :
    ∃ pre', Kept xp rest [.called (.add fd pool) (xp.call (.add fd pool))]
      (xp.call (.add fd pool)) pre' rest := by
  have hmem (x : N) (hx : x ∈ rest) : x ∈ rest ↔ XpollCall.add fd pool ≠ .remove x :=
    iff_of_true hx nofun
  have hcall : xp.call (.add fd pool) = (xp.xpollAdd (pool.malloc xp.cells) fd).2 := rfl
  cases hmalloc : pool.malloc xp.cells with
  | none =>
    rw [hmalloc] at hcall
    have hsame : xp.call (.add fd pool) = xp := hcall
    refine ⟨pre, .single ?_ (.refl rest) rfl hmem fun x _ => ?_⟩
    · rw [hsame]
      exact h
    · rw [hsame]
  | some n =>
    rw [hmalloc] at hcall
    have hfresh := pool.fresh hmalloc
    rw [h.cells_eq] at hfresh
    obtain ⟨htable, hentry⟩ := h.xpollAdd hfresh fd
    rw [← hcall] at htable hentry
    refine ⟨n :: pre, .single htable (.refl rest) rfl hmem fun x hx => ?_⟩
    exact congrArg PollFd.revents (hentry x (List.mem_append_right pre hx))

/-- A descriptor is removed, on one side of the pass or on the other, but not the next one. -/
theorem Table.callRemove {xp : XpollT N} {pre rest : List N} (h : xp.Table (pre ++ rest)) {y : N}
    (hy : y ∈ pre ++ rest) (hnext : rest.head? ≠ some y) :
    ∃ pre' rest', Kept xp rest [.called (.remove y) (xp.call (.remove y))]
      (xp.call (.remove y)) pre' rest' := by
  obtain ⟨htable, hentry⟩ := h.xpollRemove hy
  have hnodup := h.nodup
  rw [List.nodup_append] at hnodup
  have hother (x : N) : XpollCall.remove y ≠ .remove x ↔ x ≠ y := by
    rw [ne_eq, XpollCall.remove.injEq, ne_comm]
  by_cases hpre : y ∈ pre
  · rw [List.erase_append_left _ hpre] at htable
    have hne (x : N) (hx : x ∈ rest) : x ≠ y := by
      rintro rfl
      exact hnodup.2.2 x hpre x hx rfl
    refine ⟨pre.erase y, rest, .single htable (.refl rest) rfl (fun x hx => ?_) fun x hx => ?_⟩
    · exact iff_of_true hx ((hother x).mpr (hne x hx))
    · exact congrArg PollFd.revents (hentry x (List.mem_append_right pre hx) (hne x hx))
  · rw [List.erase_append_right _ hpre] at htable
    have hmem (x : N) : x ∈ rest.erase y ↔ x ≠ y ∧ x ∈ rest := hnodup.2.1.mem_erase_iff
    refine ⟨pre, rest.erase y, .single htable List.erase_sublist ?_ (fun x hx => ?_) fun x hx => ?_⟩
    · cases rest with
      | nil => rfl
      | cons z rest =>
        have hz : z ≠ y := fun hzy => hnext (congrArg some hzy)
        rw [List.erase_cons_tail (by simpa using hz)]
        rfl
    · rw [hmem, hother, and_iff_left hx]
    · obtain ⟨hne, hx⟩ := (hmem x).mp hx
      exact congrArg PollFd.revents (hentry x (List.mem_append_right pre hx) hne)

/-- A call of a handler. -/
theorem Table.call {xp : XpollT N} {pre rest : List N} (h : xp.Table (pre ++ rest))
    {c : XpollCall N} (hmay : xp.MayCall rest.head? c) :
    ∃ pre' rest', Kept xp rest [.called c (xp.call c)] (xp.call c) pre' rest' := by
  cases c with
  | add fd pool =>
    obtain ⟨pre', hkept⟩ := h.callAdd fd pool
    exact ⟨pre', rest, hkept⟩
  | remove y =>
    obtain ⟨hy, hnext⟩ := hmay
    rw [h.cells_eq] at hy
    exact h.callRemove hy hnext
  | outgoing y haveOutgoing =>
    obtain ⟨htable, hentry⟩ := h.xpollOutgoing y haveOutgoing
    exact ⟨pre, rest, .single htable (.refl rest) rfl (fun x hx => iff_of_true hx nofun)
      fun x _ => hentry x⟩

theorem calls_cons {next : Option N} {c : XpollCall N} {xp : XpollT N} (cs : List (XpollCall N))
    (hmay : xp.MayCall next c) :
    (calls next (c :: cs) xp).val = (calls next cs (xp.call c)).val ∧
      (calls next (c :: cs) xp).log =
        [.called c (xp.call c)] ++ (calls next cs (xp.call c)).log := by
  rw [calls, if_pos hmay]
  exact ⟨rfl, rfl⟩

/-- All calls of a handler. -/
theorem Table.calls {xp : XpollT N} {pre rest : List N} (h : xp.Table (pre ++ rest))
    (cs : List (XpollCall N)) :
    ∃ pre' rest', Kept xp rest (XpollT.calls rest.head? cs xp).log
      (XpollT.calls rest.head? cs xp).val pre' rest' := by
  induction cs generalizing xp pre rest with
  | nil =>
    refine ⟨pre, rest, h, .refl rest, rfl, fun x hx => iff_of_true hx id, fun _ _ => rfl,
      fun _ => rfl, fun e he => by cases he⟩
  | cons c cs ih =>
    by_cases hmay : xp.MayCall rest.head? c
    · obtain ⟨pre₁, rest₁, hcall⟩ := h.call hmay
      obtain ⟨pre₂, rest₂, hcalls⟩ := ih hcall.table
      rw [hcall.next] at hcalls
      obtain ⟨hval, hlog⟩ := calls_cons cs hmay
      rw [hval, hlog]
      exact ⟨pre₂, rest₂, hcall.trans hcalls⟩
    · rw [XpollT.calls, if_neg hmay]
      exact ih h

/-! ## A pass along the list -/

/-- The loop had the descriptors `rest` before it. The handler was called once for each of those
with events that was not removed before, with its own events, and for no other descriptor. -/
structure Served (xp : XpollT N) (rest : List N) (log : List (PollEvent N)) : Prop where
  once : ∀ x ∈ rest, (xp.entry x).revents ≠ 0 → ¬RemovedFirst x log →
    ∃ s : XpollT N, handledIn x log = [s] ∧ s.result x = pollResult (xp.entry x).revents
  others : ∀ x, (x ∈ rest → (xp.entry x).revents = 0 ∨ RemovedFirst x log) → handledIn x log = []
  consistent : ∀ e ∈ log, e.state.Consistent

omit [DecidableEq N] in
theorem Table.setResult {xp : XpollT N} {fds : List N} (h : xp.Table fds) (result : N → UInt32) :
    ({ xp with result } : XpollT N).Table fds :=
  ⟨h.links, h.numbered, h.fd, h.used, h.room⟩

theorem Served.nil {xp : XpollT N} {rest : List N} (h : ∀ x ∈ rest, (xp.entry x).revents = 0) :
    Served xp rest [] where
  once := fun x hx hne _ => absurd (h x hx) hne
  others := fun _ _ => rfl
  consistent := fun e he => by cases he

/-- The first descriptor has no events. -/
theorem Served.skip {xp : XpollT N} {x : N} {rest : List N} {log : List (PollEvent N)}
    (h : Served xp rest log) (hx : x ∉ rest) (hrevents : (xp.entry x).revents = 0) :
    Served xp (x :: rest) log where
  once := by
    intro y hy hne
    rcases List.mem_cons.mp hy with rfl | hy
    · exact absurd hrevents hne
    · exact h.once y hy hne
  others := fun y hy => h.others y fun hmem => hy (List.mem_cons_of_mem x hmem)
  consistent := h.consistent

/-- The handler is called for the first descriptor, and the loop goes on from where its calls left
it. -/
theorem Served.handle {xp s xp' : XpollT N} {x : N} {rest pre' rest' : List N}
    {log log' : List (PollEvent N)} (h : Served xp' rest' log') (hx : x ∉ rest)
    (hrevents : (xp.entry x).revents ≠ 0)
    (hs : s.Consistent) (hentry : ∀ y, s.entry y = xp.entry y)
    (hresult : s.result x = pollResult (xp.entry x).revents)
    (hkept : Kept s rest log xp' pre' rest') :
    Served xp (x :: rest) (.handled x s :: (log ++ log')) := by
  have hself : handledIn x (.handled x s :: (log ++ log')) = [s] := by
    have hnot : x ∉ rest' := fun hmem => hx (hkept.sublist.subset hmem)
    rw [handledIn, if_pos rfl, handledIn_append, hkept.handled,
      h.others x fun hmem => absurd hmem hnot, List.nil_append]
  have hother {y : N} (hne : x ≠ y) :
      handledIn y (.handled x s :: (log ++ log')) = handledIn y log' := by
    rw [handledIn, if_neg hne, handledIn_append, hkept.handled, List.nil_append]
  have hremoved {y : N} (hne : x ≠ y) : RemovedFirst y (.handled x s :: (log ++ log')) ↔
      RemovedFirst y log ∨ RemovedFirst y log' := by
    rw [RemovedFirst, and_iff_right hne, removedFirst_append (hkept.handled y)]
  have hrevents' {y : N} (hy : y ∈ rest') : (xp'.entry y).revents = (xp.entry y).revents := by
    rw [hkept.revents y hy, hentry]
  refine ⟨?_, ?_, ?_⟩
  · intro y hy hyrevents hylog
    by_cases hne : x = y
    · subst hne
      exact ⟨s, hself, hresult⟩
    · rw [hremoved hne, not_or] at hylog
      have hrest := (List.mem_cons.mp hy).resolve_left fun heq => hne heq.symm
      have hrest' := (hkept.mem y hrest).mpr hylog.1
      rw [hother hne, ← hrevents' hrest']
      exact h.once y hrest' (by rwa [hrevents' hrest']) hylog.2
  · intro y hy
    by_cases hne : x = y
    · subst hne
      rcases hy List.mem_cons_self with hzero | hfirst
      · exact absurd hzero hrevents
      · exact absurd rfl hfirst.1
    · rw [hother hne]
      refine h.others y fun hrest' => ?_
      have hrest := hkept.sublist.subset hrest'
      rw [hrevents' hrest']
      refine (hy (List.mem_cons_of_mem x hrest)).imp_right fun hfirst => ?_
      exact ((hremoved hne).mp hfirst).resolve_left ((hkept.mem y hrest).mp hrest')
  · intro e he
    rcases List.mem_cons.mp he with rfl | he
    · exact hs
    · exact (List.mem_append.mp he).elim (hkept.consistent e) (h.consistent e)

/-- The loop ends, whatever the handler does. -/
theorem Table.xpollLoop (handler : N → List (XpollCall N)) {rounds : Nat} {xp : XpollT N}
    {pre rest : List N} (h : xp.Table (pre ++ rest)) (hrounds : rest.length ≤ rounds) :
    ∃ xp' fds', (XpollT.xpollLoop handler rounds rest.head? xp).val = some xp' ∧ xp'.Table fds' ∧
      Served xp rest (XpollT.xpollLoop handler rounds rest.head? xp).log := by
  induction rounds generalizing xp pre rest with
  | zero =>
    obtain rfl := List.length_eq_zero_iff.mp (Nat.le_zero.mp hrounds)
    exact ⟨xp, pre ++ [], rfl, h, .nil fun x hx => by cases hx⟩
  | succ rounds ih =>
    cases rest with
    | nil =>
      exact ⟨xp, pre ++ [], rfl, h, .nil fun x hx => by cases hx⟩
    | cons x rest =>
      have hlen : rest.length ≤ rounds := Nat.le_of_succ_le_succ hrounds
      have hx : x ∉ rest := (h.links.lists.queues.not_mem_pre (h := .fds) rfl).2.1
      have hnext : xp.links.mem (.next x) = rest.head? := (h.links.lists.next_eq (h := .fds) rfl).2
      let s : XpollT N :=
        { xp with result := Function.update xp.result x (pollResult (xp.entry x).revents) }
      have hs : s.Table ((pre ++ [x]) ++ rest) := by
        rw [List.append_assoc]
        exact h.setResult _
      by_cases hrevents : (xp.entry x).revents = 0
      · have hloop : XpollT.xpollLoop handler (rounds + 1) (some x) xp =
            XpollT.xpollLoop handler rounds rest.head? s := by
          rw [XpollT.xpollLoop, hnext]
          exact if_pos hrevents
        obtain ⟨xp', fds', hval, htable, hserved⟩ := ih hs hlen
        rw [List.head?_cons, hloop]
        have hserved' : Served xp rest _ := ⟨hserved.once, hserved.others, hserved.consistent⟩
        exact ⟨xp', fds', hval, htable, hserved'.skip hx hrevents⟩
      · obtain ⟨pre', rest', hkept⟩ := hs.calls (handler x)
        have hloop : XpollT.xpollLoop handler (rounds + 1) (some x) xp = (do
            Traced.tell (.handled x s)
            let xp ← XpollT.calls rest.head? (handler x) s
            XpollT.xpollLoop handler rounds rest.head? xp) := by
          rw [XpollT.xpollLoop, hnext]
          exact if_neg hrevents
        obtain ⟨xp', fds', hval, htable, hserved⟩ :=
          ih hkept.table (hkept.sublist.length_le.trans hlen)
        rw [hkept.next] at hval hserved
        rw [List.head?_cons, hloop]
        have hresult : s.result x = pollResult (xp.entry x).revents := Function.update_self ..
        have hhandle := hserved.handle hx hrevents hs.consistent (fun _ => rfl) hresult hkept
        exact ⟨xp', fds', hval, htable, hhandle⟩

/-! ## A whole pass -/

omit [DecidableEq N] in
/-- `poll` fills the entries in use. -/
theorem Table.setRevents {xp : XpollT N} {fds : List N} (h : xp.Table fds)
    (revents : Nat → UInt16) :
    (xp.setRevents revents).Table fds ∧
      ∀ x ∈ fds, ((xp.setRevents revents).entry x).revents = revents (xp.pollfdN x) := by
  have hentry (x : N) (hx : x ∈ fds) : (xp.setRevents revents).entry x =
      { xp.entry x with revents := revents (xp.pollfdN x) } := by
    have hlt := h.numbered.lt hx
    rw [← h.used] at hlt
    exact if_pos hlt
  refine ⟨⟨h.links, h.numbered, fun x hx => ?_, h.used, h.room⟩, fun x hx => ?_⟩
  · exact (congrArg PollFd.fd (hentry x hx)).trans (h.fd x hx)
  · rw [hentry x hx]

/-- A pass after `poll` returned the events of the entries. -/
theorem Table.xpoll {xp : XpollT N} {fds : List N} (h : xp.Table fds) (revents : Nat → UInt16)
    (handler : N → List (XpollCall N)) :
    ∃ xp' fds', (xp.xpoll (.ready revents) handler).val = some xp' ∧ xp'.Table fds' ∧
      Served (xp.setRevents revents) fds (xp.xpoll (.ready revents) handler).log := by
  obtain ⟨htable, hrevents⟩ := h.setRevents revents
  unfold XpollT.xpoll
  by_cases hnone : (List.range (xp.setRevents revents).pollfdUsed).countP (revents · ≠ 0) = 0
  · simp only [hnone, if_true]
    refine ⟨xp.setRevents revents, fds, rfl, htable, .nil fun x hx => ?_⟩
    have hlt := htable.numbered.lt hx
    rw [← htable.used] at hlt
    rw [hrevents x hx]
    have hzero : ¬decide (revents (xp.pollfdN x) ≠ 0) = true :=
      List.countP_eq_zero.mp hnone _ (List.mem_range.mpr hlt)
    exact Decidable.of_not_not fun hne => hzero (decide_eq_true hne)
  · simp only [if_neg hnone]
    have hhead : (xp.setRevents revents).links.mem (.head .fds) = fds.head? :=
      htable.links.lists.head?_eq .fds
    rw [hhead]
    have hrest : (xp.setRevents revents).Table ([] ++ fds) := htable
    exact hrest.xpollLoop handler (Nat.le_of_eq htable.used.symm)

end XpollT

/-! ## Runs -/

/-- A step of a program: it makes a call between the passes, or a pass. -/
inductive XpollOp (N : Type) where
  | call (c : XpollCall N)
  | poll (ret : PollReturn) (handler : N → List (XpollCall N))

namespace XpollT

variable {N : Type} [DecidableEq N]

/-- A step, if the program may make it. -/
def step (xp : XpollT N) : XpollOp N → XpollT N
  | .call c => if xp.MayCall none c then xp.call c else xp
  | .poll ret handler => (xp.xpoll ret handler).val.getD xp

end XpollT

end Aprsc
