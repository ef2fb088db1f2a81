-- SUMMARY: Singly linked queues with tail pointers and counters, in a memory of head variables and `next` fields.
import Mathlib.Data.List.Nodup
import Mathlib.Logic.Function.Basic

/-!
# Queues in a pointer memory

A memory maps the head variables of the queues and the `next` fields of the nodes
to nodes. A queue is reached from its head variable; a program appends to it
through a pointer to its last field, and counts its nodes. `Queues m q` says that
the memory `m` holds the queues `q`, and that no node is in two places.

While a program hands a queue over, its last field may be stale, or its tail
pointer and its counter may be. `Store.Rep` therefore names the queues whose tail
is tracked and the queues that are null-terminated, and there is one lemma for
each operation that says what becomes of them.
-/

namespace PtrQueue

variable {H N : Type*}

/-- A field that can hold a pointer to a node. -/
inductive Loc (H N : Type*) where
  | head (h : H)
  | next (n : N)
deriving DecidableEq

/-- The pointers in memory. -/
abbrev PtrMem (H N : Type*) := Loc H N → Option N

/-- The field after the last node of a list that starts at a field. -/
def endLoc (l : Loc H N) : List N → Loc H N
  | [] => l
  | n :: ns => endLoc (.next n) ns

/-- The pointers from a field on lead through the nodes of the list. -/
def Chain (m : PtrMem H N) (l : Loc H N) : List N → Prop
  | [] => True
  | n :: ns => m l = some n ∧ Chain m (.next n) ns

/-- The fields that a chain reads. -/
def reads (l : Loc H N) : List N → List (Loc H N)
  | [] => []
  | n :: ns => l :: reads (.next n) ns

/-! ## Chains -/

@[simp] theorem endLoc_nil (l : Loc H N) : endLoc l [] = l := rfl

@[simp] theorem endLoc_singleton (l : Loc H N) (n : N) : endLoc l [n] = .next n := rfl

@[simp] theorem endLoc_append (l : Loc H N) (xs ys : List N) :
    endLoc l (xs ++ ys) = endLoc (endLoc l xs) ys := by
  induction xs generalizing l with
  | nil => rfl
  | cons x xs ih => exact ih _

/-- The start of a list does not matter for its end, unless it is empty. -/
theorem endLoc_eq_of_ne_nil (l l' : Loc H N) {ns : List N} (h : ns ≠ []) :
    endLoc l ns = endLoc l' ns := by
  cases ns with
  | nil => exact absurd rfl h
  | cons n ns => rfl

theorem endLoc_cases (l : Loc H N) (ns : List N) :
    (ns = [] ∧ endLoc l ns = l) ∨ ∃ n ∈ ns, endLoc l ns = .next n := by
  induction ns generalizing l with
  | nil => exact .inl ⟨rfl, rfl⟩
  | cons n ns ih =>
    right
    rcases ih (.next n) with ⟨rfl, h⟩ | ⟨k, hk, h⟩
    · exact ⟨n, List.mem_cons_self, h⟩
    · exact ⟨k, List.mem_cons_of_mem n hk, h⟩

theorem endLoc_ne_next_of_not_mem {h : H} {ns : List N} {n : N} (hn : n ∉ ns) :
    endLoc (.head h) ns ≠ (.next n : Loc H N) := by
  intro heq
  rcases endLoc_cases (.head h : Loc H N) ns with ⟨-, he⟩ | ⟨k, hk, he⟩ <;> cases he.symm.trans heq
  exact hn hk

/-- The field at the end of a list is not that of a node before its last one. -/
theorem endLoc_ne_next {h : H} {ns : List N} {n : N} {j : Nat} (hnodup : ns.Nodup)
    (hn : ns[j]? = some n) (hlt : j + 1 < ns.length) : endLoc (.head h) ns ≠ (.next n : Loc H N) := by
  rcases List.eq_nil_or_concat ns with rfl | ⟨ini, k, rfl⟩
  · cases hn
  · rw [List.concat_eq_append] at hnodup hn hlt ⊢
    rw [List.length_append, List.length_singleton] at hlt
    rw [List.getElem?_append_left (by omega)] at hn
    rw [endLoc_append, endLoc_singleton]
    intro heq
    cases heq
    exact (List.nodup_append.mp hnodup).2.2 n (List.mem_of_getElem? hn) n (by simp) rfl

theorem Chain.append {m : PtrMem H N} {l : Loc H N} {xs ys : List N} :
    Chain m l (xs ++ ys) ↔ Chain m l xs ∧ Chain m (endLoc l xs) ys := by
  induction xs generalizing l with
  | nil => simp [Chain]
  | cons x xs ih => simp only [List.cons_append, Chain, ih, endLoc, and_assoc]

/-- A chain may be entered at any field that holds its first node. -/
theorem Chain.of_head_eq {m : PtrMem H N} {l l' : Loc H N} {ns : List N} (h : Chain m l ns)
    (heq : ns ≠ [] → m l' = m l) : Chain m l' ns := by
  cases ns with
  | nil => trivial
  | cons n ns => exact ⟨(heq (by simp)).trans h.1, h.2⟩

/-- A null-terminated list is determined by the memory. -/
theorem Chain.unique {m : PtrMem H N} {l : Loc H N} {xs ys : List N} (hx : Chain m l xs)
    (hxe : m (endLoc l xs) = none) (hy : Chain m l ys) (hye : m (endLoc l ys) = none) :
    xs = ys := by
  induction xs generalizing l ys with
  | nil =>
    cases ys with
    | nil => rfl
    | cons y ys => cases hxe.symm.trans hy.1
  | cons x xs ih =>
    cases ys with
    | nil => cases hye.symm.trans hx.1
    | cons y ys =>
      have heq : x = y := Option.some.inj (hx.1.symm.trans hy.1)
      subst heq
      rw [ih hx.2 hxe hy.2 hye]

theorem Chain.update [DecidableEq H] [DecidableEq N] {m : PtrMem H N} {l x : Loc H N}
    {ns : List N} {v : Option N} (h : Chain m l ns) (hx : x ∉ reads l ns) :
    Chain (Function.update m x v) l ns := by
  induction ns generalizing l with
  | nil => trivial
  | cons n ns ih =>
    simp only [reads, List.mem_cons, not_or] at hx
    refine ⟨?_, ih h.2 hx.2⟩
    rw [Function.update_of_ne (Ne.symm hx.1)]
    exact h.1

theorem mem_reads {x l : Loc H N} {ns : List N} (h : x ∈ reads l ns) :
    x = l ∨ ∃ n ∈ ns, x = .next n := by
  induction ns generalizing l with
  | nil => cases h
  | cons n ns ih =>
    simp only [reads, List.mem_cons] at h
    rcases h with h | h
    · exact .inl h
    · right
      rcases ih h with rfl | ⟨k, hk, rfl⟩
      · exact ⟨n, List.mem_cons_self, rfl⟩
      · exact ⟨k, List.mem_cons_of_mem n hk, rfl⟩

/-- A chain stays when none of the fields it reads is written. -/
theorem Chain.congr {m m' : PtrMem H N} {l : Loc H N} {ns : List N} (h : Chain m l ns)
    (heq : ∀ x ∈ reads l ns, m' x = m x) : Chain m' l ns := by
  induction ns generalizing l with
  | nil => trivial
  | cons n ns ih =>
    simp only [reads, List.mem_cons, forall_eq_or_imp] at heq
    exact ⟨heq.1.trans h.1, ih h.2 heq.2⟩

/-- A chain does not read the field at its end. -/
theorem endLoc_not_mem_reads {l : Loc H N} {ns : List N} (hnodup : ns.Nodup)
    (hl : ∀ n ∈ ns, l ≠ .next n) : endLoc l ns ∉ reads l ns := by
  induction ns generalizing l with
  | nil => simp [reads]
  | cons n ns ih =>
    rw [List.nodup_cons] at hnodup
    have hn : ∀ k ∈ ns, (Loc.next n : Loc H N) ≠ .next k := by
      intro k hk heq
      cases heq
      exact hnodup.1 hk
    simp only [reads, endLoc, List.mem_cons, not_or]
    refine ⟨?_, ih hnodup.2 hn⟩
    intro heq
    rcases endLoc_cases (.next n : Loc H N) ns with ⟨-, h⟩ | ⟨k, hk, h⟩
    · exact hl n List.mem_cons_self (heq.symm.trans h)
    · exact hl k (List.mem_cons_of_mem n hk) (heq.symm.trans h)

/-! ## Disjoint queues -/

/-- The memory holds the queues, and no node is in two places. -/
structure Queues (m : PtrMem H N) (q : H → List N) : Prop where
  chain : ∀ h, Chain m (.head h) (q h)
  nodup : ∀ h, (q h).Nodup
  unique : ∀ {h h' n}, n ∈ q h → n ∈ q h' → h = h'

/-- The last field of a queue is null. -/
def Sealed (m : PtrMem H N) (q : H → List N) (h : H) : Prop :=
  m (endLoc (.head h) (q h)) = none

theorem Sealed.congr {m m' : PtrMem H N} {q : H → List N} {h : H} (hs : Sealed m q h)
    (hhead : m' (.head h) = m (.head h)) (hnext : ∀ n ∈ q h, m' (.next n) = m (.next n)) :
    Sealed m' q h := by
  rw [Sealed] at hs ⊢
  rcases endLoc_cases (.head h : Loc H N) (q h) with ⟨-, he⟩ | ⟨n, hn, he⟩
  · rw [he] at hs ⊢
    exact hhead.trans hs
  · rw [he] at hs ⊢
    exact (hnext n hn).trans hs

namespace Queues

variable {m : PtrMem H N} {q : H → List N}

theorem endLoc_ne (hq : Queues m q) {h h' : H} (hne : h ≠ h') :
    endLoc (.head h) (q h) ≠ endLoc (.head h') (q h') := by
  intro heq
  rcases endLoc_cases (.head h : Loc H N) (q h) with ⟨-, h1⟩ | ⟨n, hn, h1⟩ <;>
    rcases endLoc_cases (.head h' : Loc H N) (q h') with ⟨-, h2⟩ | ⟨k, hk, h2⟩ <;>
    rw [h1, h2] at heq <;> cases heq
  · exact hne rfl
  · exact hne (hq.unique hn hk)

theorem endLoc_not_read (hq : Queues m q) (h h' : H) :
    endLoc (.head h) (q h) ∉ reads (.head h') (q h') := by
  by_cases hne : h = h'
  · subst hne
    exact endLoc_not_mem_reads (hq.nodup h) (by simp)
  · intro hmem
    rcases endLoc_cases (.head h : Loc H N) (q h) with ⟨-, h1⟩ | ⟨n, hn, h1⟩ <;>
      rcases mem_reads (h1 ▸ hmem) with heq | ⟨k, hk, heq⟩ <;> cases heq
    · exact hne rfl
    · exact hne (hq.unique hn hk)

theorem next_not_read {n : N} (hn : ∀ h, n ∉ q h) (h : H) :
    Loc.next n ∉ reads (.head h) (q h) := by
  intro hmem
  rcases mem_reads hmem with heq | ⟨k, hk, heq⟩ <;> cases heq
  exact hn h hk

/-- The fields of the nodes that are in no queue may be written. -/
theorem congr {m' : PtrMem H N} (hq : Queues m q) (hhead : ∀ h, m' (.head h) = m (.head h))
    (hnext : ∀ h, ∀ n ∈ q h, m' (.next n) = m (.next n)) : Queues m' q where
  chain h := (hq.chain h).congr fun x hx => by
    rcases mem_reads hx with rfl | ⟨n, hn, rfl⟩
    · exact hhead h
    · exact hnext h n hn
  nodup := hq.nodup
  unique := hq.unique

theorem head_of_cons (hq : Queues m q) {h : H} {n : N} {ns : List N} (heq : q h = n :: ns) :
    m (.head h) = some n := by
  have hc := hq.chain h
  rw [heq] at hc
  exact hc.1

/-- A queue with a null head is empty. -/
theorem eq_nil (hq : Queues m q) {h : H} (hm : m (.head h) = none) : q h = [] := by
  cases heq : q h with
  | nil => rfl
  | cons n ns => cases hm.symm.trans (hq.head_of_cons heq)

/-- A null-terminated queue with a node at its head starts with that node. -/
theorem eq_cons (hq : Queues m q) {h : H} {n : N} (hs : Sealed m q h)
    (hm : m (.head h) = some n) : ∃ ns, q h = n :: ns := by
  cases heq : q h with
  | nil =>
    rw [Sealed, heq] at hs
    cases hs.symm.trans hm
  | cons k ns => exact ⟨ns, by rw [Option.some.inj (hm.symm.trans (hq.head_of_cons heq))]⟩

end Queues

/-! ## Queues after an append and after a move -/

section Moved

variable [DecidableEq H] {q : H → List N} {h h' : H}

/-- The queues after the nodes of `h'` were moved to the end of `h`. -/
def moved (q : H → List N) (h h' : H) : H → List N :=
  Function.update (Function.update q h (q h ++ q h')) h' []

theorem moved_left (hne : h ≠ h') : moved q h h' h = q h ++ q h' := by
  rw [moved, Function.update_of_ne hne, Function.update_self]

@[simp] theorem moved_right : moved q h h' h' = [] := Function.update_self ..

theorem moved_of_ne {x : H} (hx : x ≠ h) (hx' : x ≠ h') : moved q h h' x = q x := by
  rw [moved, Function.update_of_ne hx', Function.update_of_ne hx]

/-- There is nothing to move. -/
theorem moved_of_nil (hnil : q h' = []) : moved q h h' = q := by
  funext x
  by_cases hx' : x = h'
  · rw [hx', moved_right, hnil]
  · by_cases hx : x = h
    · subst hx
      rw [moved_left hx', hnil, List.append_nil]
    · exact moved_of_ne hx hx'

theorem mem_moved {x : H} {a : N} (hne : h ≠ h') :
    a ∈ moved q h h' x ↔ (x = h ∧ (a ∈ q h ∨ a ∈ q h')) ∨ (x ≠ h ∧ x ≠ h' ∧ a ∈ q x) := by
  by_cases hx' : x = h'
  · subst hx'
    simp [Ne.symm hne]
  · by_cases hx : x = h
    · subst hx
      simp [moved_left hne]
    · simp [moved_of_ne hx hx', hx, hx']

/-- No node comes or goes. -/
theorem exists_mem_moved {a : N} (hne : h ≠ h') :
    (∃ x, a ∈ moved q h h' x) ↔ ∃ x, a ∈ q x := by
  constructor
  · rintro ⟨x, hx⟩
    rcases (mem_moved hne).mp hx with ⟨-, ha | ha⟩ | ⟨-, -, ha⟩
    · exact ⟨h, ha⟩
    · exact ⟨h', ha⟩
    · exact ⟨x, ha⟩
  · rintro ⟨x, hx⟩
    by_cases hxh : x = h
    · exact ⟨h, (mem_moved hne).mpr (.inl ⟨rfl, .inl (hxh ▸ hx)⟩)⟩
    · by_cases hxh' : x = h'
      · exact ⟨h, (mem_moved hne).mpr (.inl ⟨rfl, .inr (hxh' ▸ hx)⟩)⟩
      · exact ⟨x, (mem_moved hne).mpr (.inr ⟨hxh, hxh', hx⟩)⟩

theorem mem_update_append {x : H} {a n : N} :
    a ∈ Function.update q h (q h ++ [n]) x ↔ a ∈ q x ∨ (x = h ∧ a = n) := by
  by_cases hx : x = h
  · subst hx
    simp
  · simp [hx]

/-- A queue without its first node has no other nodes. -/
theorem mem_of_mem_update_tail {n : N} {ns : List N} (heq : q h = n :: ns) {x : H} {a : N}
    (ha : a ∈ Function.update q h ns x) : a ∈ q x := by
  by_cases hx : x = h
  · subst hx
    rw [Function.update_self] at ha
    exact heq ▸ List.mem_cons_of_mem n ha
  · rwa [Function.update_of_ne hx] at ha

/-- A node that is taken off its queue is in no queue. -/
theorem Queues.not_mem_update_tail {m : PtrMem H N} (hq : Queues m q) {n : N} {ns : List N}
    (heq : q h = n :: ns) (x : H) : n ∉ Function.update q h ns x := by
  intro hx
  by_cases hxh : x = h
  · subst hxh
    have hnodup := hq.nodup x
    rw [heq, List.nodup_cons] at hnodup
    rw [Function.update_self] at hx
    exact hnodup.1 hx
  · rw [Function.update_of_ne hxh] at hx
    exact hxh (hq.unique hx (heq ▸ List.mem_cons_self))

/-- Only that node is gone. -/
theorem Queues.exists_mem_update_tail {m : PtrMem H N} (hq : Queues m q) {n : N} {ns : List N}
    (heq : q h = n :: ns) {a : N} :
    (∃ x, a ∈ Function.update q h ns x) ↔ a ≠ n ∧ ∃ x, a ∈ q x := by
  constructor
  · rintro ⟨x, hx⟩
    refine ⟨?_, x, mem_of_mem_update_tail heq hx⟩
    rintro rfl
    exact hq.not_mem_update_tail heq x hx
  · rintro ⟨hne, x, hx⟩
    refine ⟨x, ?_⟩
    by_cases hxh : x = h
    · subst hxh
      rw [heq, List.mem_cons] at hx
      rw [Function.update_self]
      exact hx.resolve_left hne
    · rwa [Function.update_of_ne hxh]

end Moved

/-! ## Operations -/

/-- The queues of a program: the pointers, and for each queue the pointer to its
last field and its counter. -/
structure Store (H N : Type*) where
  mem : PtrMem H N
  last : H → Loc H N
  count : H → Int

namespace Store

variable [DecidableEq H] [DecidableEq N]

/-- Write one field. -/
def write (s : Store H N) (l : Loc H N) (v : Option N) : Store H N :=
  { s with mem := Function.update s.mem l v }

/-- Append a node: `*last = n; last = &n->next; count++`. -/
def append (s : Store H N) (h : H) (n : N) : Store H N where
  mem := Function.update s.mem (s.last h) (some n)
  last := Function.update s.last h (.next n)
  count := Function.update s.count h (s.count h + 1)

/-- Append all nodes of another queue:
`*last = head'; last = last'; count += count'`. -/
def splice (s : Store H N) (h h' : H) : Store H N where
  mem := Function.update s.mem (s.last h) (s.mem (.head h'))
  last := Function.update s.last h (s.last h')
  count := Function.update s.count h (s.count h + s.count h')

/-- Make a queue empty: `head = NULL; last = &head; count = 0`. -/
def reset (s : Store H N) (h : H) : Store H N where
  mem := Function.update s.mem (.head h) none
  last := Function.update s.last h (.head h)
  count := Function.update s.count h 0

/-- Terminate a queue: `*last = NULL`. -/
def terminate (s : Store H N) (h : H) : Store H N := s.write (s.last h) none

/-- Unlink the first node: `n' = n->next; n->next = NULL; head = n'; count--`. -/
def unlink (s : Store H N) (h : H) (n : N) : Store H N where
  mem := Function.update (Function.update s.mem (.next n) none) (.head h) (s.mem (.next n))
  last := s.last
  count := Function.update s.count h (s.count h - 1)

@[simp] theorem write_mem {s : Store H N} {l : Loc H N} {v : Option N} :
    (s.write l v).mem = Function.update s.mem l v := rfl

theorem append_write_comm {s : Store H N} {h : H} {n : N} {l : Loc H N} {v : Option N}
    (hne : l ≠ s.last h) : (s.append h n).write l v = (s.write l v).append h n := by
  simp only [append, write, Function.update_comm hne.symm]

/-- The store holds the queues `q`. The queues in `T` have a correct tail pointer
and counter, the queues in `S` are null-terminated. -/
structure Rep (s : Store H N) (q : H → List N) (T S : H → Prop) : Prop where
  queues : Queues s.mem q
  last : ∀ h, T h → s.last h = endLoc (.head h) (q h)
  count : ∀ h, T h → s.count h = (q h).length
  terminated : ∀ h, S h → Sealed s.mem q h

namespace Rep

variable {s : Store H N} {q : H → List N} {T S : H → Prop}

omit [DecidableEq H] [DecidableEq N] in
theorem mono {T' S' : H → Prop} (hr : s.Rep q T S) (hT : ∀ h, T' h → T h)
    (hS : ∀ h, S' h → S h) : s.Rep q T' S' where
  queues := hr.queues
  last := fun h hh => hr.last h (hT h hh)
  count := fun h hh => hr.count h (hT h hh)
  terminated := fun h hh => hr.terminated h (hS h hh)

omit [DecidableEq H] [DecidableEq N] in
/-- The fields of the nodes that are in no queue may be written. -/
theorem congr {m : PtrMem H N} (hr : s.Rep q T S) (hhead : ∀ h, m (.head h) = s.mem (.head h))
    (hnext : ∀ h, ∀ n ∈ q h, m (.next n) = s.mem (.next n)) : { s with mem := m }.Rep q T S where
  queues := hr.queues.congr hhead hnext
  last := hr.last
  count := hr.count
  terminated h hh := (hr.terminated h hh).congr (hhead h) (hnext h)

omit [DecidableEq H] [DecidableEq N] in
/-- A queue does not end in a node that is in no queue. -/
theorem last_ne_next (hr : s.Rep q T S) {h : H} (hT : T h) {n : N} (hn : ∀ h, n ∉ q h) :
    s.last h ≠ .next n := by
  rw [hr.last h hT]
  exact endLoc_ne_next_of_not_mem (hn h)

/-- Writing the last field of a queue changes no queue and no other end. -/
theorem write_end (hr : s.Rep q T S) (h : H) (v : Option N) :
    (s.write (endLoc (.head h) (q h)) v).Rep q T (fun x => (S x ∧ x ≠ h) ∨ (x = h ∧ v = none)) where
  queues := by
    refine ⟨fun h' => ?_, hr.queues.nodup, hr.queues.unique⟩
    exact (hr.queues.chain h').update (hr.queues.endLoc_not_read h h')
  last := hr.last
  count := hr.count
  terminated := by
    rintro x (⟨hS, hx⟩ | ⟨rfl, rfl⟩)
    · rw [Sealed, write_mem, Function.update_of_ne (hr.queues.endLoc_ne hx)]
      exact hr.terminated x hS
    · exact Function.update_self ..

/-- Writing the `next` field of a node that is in no queue. -/
theorem write_fresh (hr : s.Rep q T S) {n : N} (hn : ∀ h, n ∉ q h) (v : Option N) :
    (s.write (.next n) v).Rep q T S where
  queues := by
    refine ⟨fun h' => ?_, hr.queues.nodup, hr.queues.unique⟩
    exact (hr.queues.chain h').update (Queues.next_not_read hn h')
  last := hr.last
  count := hr.count
  terminated := by
    intro x hx
    rw [Sealed, write_mem, Function.update_of_ne (endLoc_ne_next_of_not_mem (hn x))]
    exact hr.terminated x hx

theorem terminate (hr : s.Rep q T S) {h : H} (hT : T h) :
    (s.terminate h).Rep q T (fun x => S x ∨ x = h) := by
  have hw := hr.write_end h none
  rw [← hr.last h hT] at hw
  refine hw.mono (fun _ hx => hx) ?_
  intro x hx
  by_cases hxh : x = h
  · exact .inr ⟨hxh, rfl⟩
  · exact .inl ⟨hx.resolve_right hxh, hxh⟩

/-- A queue that holds nothing is made empty. -/
theorem reset (hr : s.Rep q T S) {h : H} (hq : q h = []) :
    (s.reset h).Rep q (fun x => T x ∨ x = h) (fun x => S x ∨ x = h) := by
  have hw := hr.write_end h none
  simp only [hq, endLoc_nil] at hw
  refine ⟨hw.queues, ?_, ?_, ?_⟩
  · intro x hx
    by_cases hxh : x = h
    · subst hxh
      simp [Store.reset, hq]
    · simp only [Store.reset, Function.update_of_ne hxh]
      exact hr.last x (hx.resolve_right hxh)
  · intro x hx
    by_cases hxh : x = h
    · subst hxh
      simp [Store.reset, hq]
    · simp only [Store.reset, Function.update_of_ne hxh]
      exact hr.count x (hx.resolve_right hxh)
  · intro x hx
    refine hw.terminated x ?_
    by_cases hxh : x = h
    · exact .inr ⟨hxh, trivial⟩
    · exact .inl ⟨hx.resolve_right hxh, hxh⟩

/-- A node that is in no queue is appended. The queue ends where the node's `next`
field says. -/
theorem append (hr : s.Rep q T S) (h : H) {n : N} (hT : T h) (hn : ∀ h, n ∉ q h) :
    (s.append h n).Rep (Function.update q h (q h ++ [n])) T
      (fun x => (S x ∧ x ≠ h) ∨ (x = h ∧ s.mem (.next n) = none)) := by
  have hw := hr.write_end h (some n)
  have hmem : (s.append h n).mem = (s.write (endLoc (.head h) (q h)) (some n)).mem := by
    simp [Store.append, write, hr.last h hT]
  refine ⟨⟨?_, ?_, ?_⟩, ?_, ?_, ?_⟩
  · intro h'
    rw [hmem]
    by_cases hh : h' = h
    · subst hh
      rw [Function.update_self, Chain.append]
      exact ⟨hw.queues.chain h', Function.update_self .., trivial⟩
    · rw [Function.update_of_ne hh]
      exact hw.queues.chain h'
  · intro h'
    by_cases hh : h' = h
    · subst hh
      rw [Function.update_self, List.nodup_append]
      refine ⟨hr.queues.nodup h', by simp, ?_⟩
      rintro a ha b hb rfl
      rw [List.mem_singleton] at hb
      exact hn h' (hb ▸ ha)
    · rw [Function.update_of_ne hh]
      exact hr.queues.nodup h'
  · intro h1 h2 a ha1 ha2
    rcases mem_update_append.mp ha1 with h1q | ⟨h1h, han⟩ <;>
      rcases mem_update_append.mp ha2 with h2q | ⟨h2h, han'⟩
    · exact hr.queues.unique h1q h2q
    · exact absurd h1q (han' ▸ hn h1)
    · exact absurd h2q (han ▸ hn h2)
    · exact h1h.trans h2h.symm
  · intro x hx
    by_cases hxh : x = h
    · subst hxh
      simp [Store.append]
    · simp only [Store.append, Function.update_of_ne hxh]
      exact hr.last x hx
  · intro x hx
    by_cases hxh : x = h
    · subst hxh
      simp [Store.append, hr.count x hx]
    · simp only [Store.append, Function.update_of_ne hxh]
      exact hr.count x hx
  · rintro x (⟨hS, hxh⟩ | ⟨rfl, hnull⟩)
    · have := hw.terminated x (.inl ⟨hS, hxh⟩)
      rwa [Sealed, hmem, Function.update_of_ne hxh]
    · simp only [Sealed, hmem, write, Function.update_self, endLoc_append, endLoc_singleton]
      rwa [Function.update_of_ne (endLoc_ne_next_of_not_mem (hn x)).symm]

/-- Writing the first node of `h'` to the end of `h` moves all its nodes there. -/
theorem move (hr : s.Rep q T S) (h h' : H) (hne : h ≠ h') :
    (s.write (endLoc (.head h) (q h)) (s.mem (.head h'))).Rep (moved q h h')
      (fun x => T x ∧ x ≠ h ∧ x ≠ h')
      (fun x => (S x ∧ x ≠ h ∧ x ≠ h') ∨ (x = h ∧ S h')) := by
  have hw := hr.write_end h (s.mem (.head h'))
  -- The chain of `h'` can be entered at the old end of `h`.
  have hchain : Chain (s.write (endLoc (.head h) (q h)) (s.mem (.head h'))).mem
      (endLoc (.head h) (q h)) (q h') := by
    refine (hw.queues.chain h').of_head_eq ?_
    intro hnil
    have hread : (Loc.head h' : Loc H N) ∈ reads (.head h') (q h') := by
      cases hq : q h' with
      | nil => exact absurd hq hnil
      | cons n ns => exact List.mem_cons_self
    have hdiff : (Loc.head h' : Loc H N) ≠ endLoc (.head h) (q h) := fun heq =>
      hr.queues.endLoc_not_read h h' (heq ▸ hread)
    simp [write, Function.update_of_ne hdiff]
  refine ⟨⟨?_, ?_, ?_⟩, ?_, ?_, ?_⟩
  · intro x
    by_cases hx' : x = h'
    · subst hx'
      simp [Chain]
    · by_cases hx : x = h
      · subst hx
        rw [moved_left hne, Chain.append]
        exact ⟨hw.queues.chain x, hchain⟩
      · rw [moved_of_ne hx hx']
        exact hw.queues.chain x
  · intro x
    by_cases hx' : x = h'
    · subst hx'
      simp
    · by_cases hx : x = h
      · subst hx
        rw [moved_left hne, List.nodup_append]
        refine ⟨hr.queues.nodup x, hr.queues.nodup h', ?_⟩
        rintro a ha b hb rfl
        exact hne (hr.queues.unique ha hb)
      · rw [moved_of_ne hx hx']
        exact hr.queues.nodup x
  · intro x y a hax hay
    rcases (mem_moved hne).mp hax with ⟨hx, hax⟩ | ⟨hx, hx', hax⟩ <;>
      rcases (mem_moved hne).mp hay with ⟨hy, hay⟩ | ⟨hy, hy', hay⟩
    · exact hx.trans hy.symm
    · rcases hax with hax | hax
      · exact hx.trans (hr.queues.unique hax hay)
      · exact absurd (hr.queues.unique hay hax) hy'
    · rcases hay with hay | hay
      · exact (hr.queues.unique hax hay).trans hy.symm
      · exact absurd (hr.queues.unique hax hay) hx'
    · exact hr.queues.unique hax hay
  · rintro x ⟨hT, hx, hx'⟩
    rw [moved_of_ne hx hx']
    exact hr.last x hT
  · rintro x ⟨hT, hx, hx'⟩
    rw [moved_of_ne hx hx']
    exact hr.count x hT
  · rintro x (⟨hS, hx, hx'⟩ | ⟨rfl, hS⟩)
    · have := hw.terminated x (.inl ⟨hS, hx⟩)
      rwa [Sealed, moved_of_ne hx hx']
    · have hend := hr.terminated h' hS
      rw [Sealed, moved_left hne, endLoc_append]
      by_cases hnil : q h' = []
      · rw [Sealed, hnil, endLoc_nil] at hend
        simpa [hnil] using hend
      · rw [endLoc_eq_of_ne_nil _ (.head h') hnil, write_mem,
          Function.update_of_ne (hr.queues.endLoc_ne (Ne.symm hne))]
        exact hend

/-- The nodes of a queue that is not empty are appended to another queue. The
handed over queue keeps stale pointers. -/
theorem splice (hr : s.Rep q T S) (h h' : H) (hne : h ≠ h') (hT : T h) (hT' : T h')
    (hnil : q h' ≠ []) :
    (s.splice h h').Rep (moved q h h') (fun x => T x ∧ x ≠ h')
      (fun x => (S x ∧ x ≠ h ∧ x ≠ h') ∨ (x = h ∧ S h')) := by
  have hm := hr.move h h' hne
  rw [← hr.last h hT] at hm
  refine ⟨hm.queues, ?_, ?_, hm.terminated⟩
  · rintro x ⟨hx, hx'⟩
    by_cases hxh : x = h
    · subst hxh
      simp only [Store.splice, Function.update_self, moved_left hne, endLoc_append]
      rw [hr.last h' hT']
      exact endLoc_eq_of_ne_nil _ _ hnil
    · simp only [Store.splice, Function.update_of_ne hxh]
      exact hm.last x ⟨hx, hxh, hx'⟩
  · rintro x ⟨hx, hx'⟩
    by_cases hxh : x = h
    · subst hxh
      simp [Store.splice, moved_left hne, hr.count x hx, hr.count h' hT']
    · simp only [Store.splice, Function.update_of_ne hxh]
      exact hm.count x ⟨hx, hxh, hx'⟩

/-- The head variable moves on to the second node. -/
theorem advance (hr : s.Rep q T S) {h : H} {n : N} {ns : List N} (hq : q h = n :: ns) :
    (s.write (.head h) (s.mem (.next n))).Rep (Function.update q h ns)
      (fun x => T x ∧ x ≠ h) S := by
  have hhead : ∀ x, x ≠ h → Loc.head h ∉ reads (.head x) (q x) := by
    intro x hx hread
    rcases mem_reads hread with heq | ⟨k, -, heq⟩ <;> cases heq
    exact hx rfl
  have hrest : Chain s.mem (.next n) ns := by
    have hc := hr.queues.chain h
    rw [hq] at hc
    exact hc.2
  refine ⟨⟨?_, ?_, ?_⟩, ?_, ?_, ?_⟩
  · intro x
    by_cases hx : x = h
    · subst hx
      rw [Function.update_self]
      have hnot : Loc.head x ∉ reads (.next n) ns := by
        intro hread
        rcases mem_reads hread with heq | ⟨k, -, heq⟩ <;> cases heq
      refine (hrest.update hnot).of_head_eq ?_
      intro _
      simp
    · rw [Function.update_of_ne hx]
      exact (hr.queues.chain x).update (hhead x hx)
  · intro x
    by_cases hx : x = h
    · subst hx
      have hnodup := hr.queues.nodup x
      rw [hq, List.nodup_cons] at hnodup
      rw [Function.update_self]
      exact hnodup.2
    · rw [Function.update_of_ne hx]
      exact hr.queues.nodup x
  · intro x y a hax hay
    exact hr.queues.unique (mem_of_mem_update_tail hq hax) (mem_of_mem_update_tail hq hay)
  · rintro x ⟨hT, hx⟩
    rw [Function.update_of_ne hx]
    exact hr.last x hT
  · rintro x ⟨hT, hx⟩
    rw [Function.update_of_ne hx]
    exact hr.count x hT
  · intro x hS
    have hend := hr.terminated x hS
    by_cases hx : x = h
    · subst hx
      rw [Sealed, hq] at hend
      rw [Sealed, Function.update_self]
      cases ns with
      | nil => simpa [write] using hend
      | cons k ks =>
        have hdiff : endLoc (Loc.next k : Loc H N) ks ≠ .head x := by
          rcases endLoc_cases (.next k : Loc H N) ks with ⟨-, h1⟩ | ⟨j, -, h1⟩ <;> simp [h1]
        simpa only [endLoc, write, Function.update_of_ne hdiff] using hend
    · rw [Sealed, Function.update_of_ne hx]
      have hdiff : endLoc (Loc.head x) (q x) ≠ Loc.head h := by
        rcases endLoc_cases (.head x : Loc H N) (q x) with ⟨-, h1⟩ | ⟨j, -, h1⟩ <;> simp [h1, hx]
      rw [write_mem, Function.update_of_ne hdiff]
      exact hend

/-- The first node of a queue with at least two nodes is unlinked: the tail stays
correct. -/
theorem unlink (hr : s.Rep q T S) {h : H} {n k : N} {ns : List N} (hq : q h = n :: k :: ns) :
    (s.unlink h n).Rep (Function.update q h (k :: ns)) T S := by
  have ha := hr.advance hq
  have hw := ha.write_fresh (hr.queues.not_mem_update_tail hq) none
  have hmem : (s.unlink h n).mem =
      ((s.write (.head h) (s.mem (.next n))).write (.next n) none).mem := by
    have hdiff : (Loc.next n : Loc H N) ≠ .head h := by simp
    simp only [Store.unlink, write, Function.update_comm hdiff]
  refine ⟨hmem ▸ hw.queues, ?_, ?_, ?_⟩
  · intro x hT
    by_cases hx : x = h
    · subst hx
      have hlast := hr.last x hT
      rw [hq] at hlast
      rw [Function.update_self]
      exact hlast
    · exact hw.last x ⟨hT, hx⟩
  · intro x hT
    by_cases hx : x = h
    · subst hx
      have hcount := hr.count x hT
      rw [hq] at hcount
      simp only [Store.unlink, Function.update_self, hcount, List.length_cons]
      omega
    · simp only [Store.unlink, Function.update_of_ne hx]
      exact hr.count x hT
  · intro x hS
    rw [Sealed, hmem]
    exact hw.terminated x hS

end Rep

end Store

end PtrQueue
