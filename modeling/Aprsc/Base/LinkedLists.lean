-- SUMMARY: Doubly linked lists whose back pointers address the link to the node, with insertion at either end and removal.
import Aprsc.Base.PtrQueue

/-!
# Linked lists with back pointers to links

A node of such a list has, beside its `next` field, a field `prevp` with the address of
the field that points to the node: a head variable, or the `next` field of the node
before it. A node can then be unlinked without knowing its list. Some lists of a program
may be read through `next` only, while they are on their way: `Links.Rep s q B` says
that the back pointers are right in the lists of `B`.
-/

namespace PtrQueue

variable {H N : Type*}

/-! ## Null-terminated lists -/

/-- The memory holds the lists, each of them null-terminated. -/
structure Lists (m : PtrMem H N) (q : H → List N) : Prop where
  queues : Queues m q
  terminated : ∀ h, Sealed m q h

/-- A null-terminated chain starts with what its first field holds. -/
theorem Chain.head?_eq {m : PtrMem H N} {l : Loc H N} {ns : List N} (h : Chain m l ns)
    (hend : m (endLoc l ns) = none) : m l = ns.head? := by
  cases ns with
  | nil => exact hend
  | cons n ns => exact h.1

/-- The field at the end of a list, by the pointer to its last node. -/
def lastLoc (h : H) : Option N → Loc H N
  | some k => .next k
  | none => .head h

theorem lastLoc_getLast? (h : H) (ns : List N) : lastLoc h ns.getLast? = endLoc (.head h) ns := by
  rcases List.eq_nil_or_concat ns with rfl | ⟨ini, k, rfl⟩
  · rfl
  · rw [List.concat_eq_append, endLoc_append, endLoc_singleton, List.getLast?_concat, lastLoc]

section Split

variable {m : PtrMem H N} {q : H → List N} {h : H} {pre post : List N} {n : N}

theorem Queues.not_mem_pre (hq : Queues m q) (hs : q h = pre ++ n :: post) :
    n ∉ pre ∧ n ∉ post ∧ ∀ k ∈ pre, k ∉ post := by
  have hnodup := hq.nodup h
  rw [hs, List.nodup_append, List.nodup_cons] at hnodup
  obtain ⟨-, ⟨hpost, -⟩, hdisj⟩ := hnodup
  refine ⟨fun hn => hdisj n hn n List.mem_cons_self rfl, hpost, ?_⟩
  intro k hk hk'
  exact hdisj k hk k (List.mem_cons_of_mem n hk') rfl

/-- The link to a node is not the field of a node elsewhere, nor that of a later node. -/
theorem Queues.link_ne_next (hq : Queues m q) (hs : q h = pre ++ n :: post) {x : H} {k : N}
    (hk : k ∈ q x) (hx : x = h → k ∈ n :: post) : endLoc (.head h) pre ≠ (.next k : Loc H N) := by
  intro heq
  rcases endLoc_cases (.head h : Loc H N) pre with ⟨-, he⟩ | ⟨j, hj, he⟩ <;> cases he.symm.trans heq
  have hxh : x = h := hq.unique hk (hs ▸ List.mem_append_left _ hj)
  obtain ⟨hpre, -, hpost⟩ := hq.not_mem_pre hs
  rcases List.mem_cons.mp (hx hxh) with rfl | hk'
  · exact hpre hj
  · exact hpost _ hj hk'

theorem endLoc_ne_head {x : H} (hx : x ≠ h) : endLoc (.head h) pre ≠ (.head x : Loc H N) := by
  intro heq
  rcases endLoc_cases (.head h : Loc H N) pre with ⟨-, he⟩ | ⟨j, -, he⟩ <;> cases he.symm.trans heq
  exact hx rfl

end Split

namespace Lists

variable {m : PtrMem H N} {q : H → List N} {h : H} {n : N}

theorem head?_eq (hl : Lists m q) (h : H) : m (.head h) = (q h).head? :=
  (hl.queues.chain h).head?_eq (hl.terminated h)

theorem next_eq (hl : Lists m q) {pre post : List N} (hs : q h = pre ++ n :: post) :
    m (endLoc (.head h) pre) = some n ∧ m (.next n) = post.head? := by
  have hc := hl.queues.chain h
  have hend := hl.terminated h
  rw [hs, Chain.append] at hc
  rw [Sealed, hs, endLoc_append] at hend
  exact ⟨hc.2.1, hc.2.2.head?_eq hend⟩

/-- The fields of the nodes that are in no list may be written. -/
theorem congr {m' : PtrMem H N} (hl : Lists m q) (hhead : ∀ h, m' (.head h) = m (.head h))
    (hnext : ∀ h, ∀ n ∈ q h, m' (.next n) = m (.next n)) : Lists m' q where
  queues := hl.queues.congr hhead hnext
  terminated h := (hl.terminated h).congr (hhead h) (hnext h)

/-- The lists as queues with tail pointers and counters. -/
def tracked (m : PtrMem H N) (q : H → List N) : Store H N where
  mem := m
  last := fun x => endLoc (.head x) (q x)
  count := fun x => (q x).length

theorem rep (hl : Lists m q) : (tracked m q).Rep q (fun _ => True) (fun _ => True) where
  queues := hl.queues
  last := fun _ _ => rfl
  count := fun _ _ => rfl
  terminated := fun x _ => hl.terminated x

variable [DecidableEq H] [DecidableEq N]

theorem write_fresh (hl : Lists m q) (hn : ∀ x, n ∉ q x) (v : Option N) :
    Lists (Function.update m (.next n) v) q :=
  have hw := hl.rep.write_fresh hn v
  ⟨hw.queues, fun x => hw.terminated x trivial⟩

/-- A new node at the end. -/
theorem append (hl : Lists m q) (h : H) (hn : ∀ x, n ∉ q x) (hnull : m (.next n) = none) :
    Lists (Function.update m (endLoc (.head h) (q h)) (some n))
      (Function.update q h (q h ++ [n])) := by
  have ha := hl.rep.append h trivial hn
  refine ⟨ha.queues, fun x => ha.terminated x ?_⟩
  by_cases hx : x = h
  · exact .inr ⟨hx, hnull⟩
  · exact .inl ⟨trivial, hx⟩

/-- The first node is taken off. -/
theorem advance (hl : Lists m q) {ns : List N} (hq : q h = n :: ns) :
    Lists (Function.update m (.head h) (m (.next n))) (Function.update q h ns) :=
  have ha := hl.rep.advance hq
  ⟨ha.queues, fun x => ha.terminated x trivial⟩

/-- A list is handed over to a variable that holds none. -/
theorem take (hl : Lists m q) {h' : H} (hne : h' ≠ h) (hq : q h' = []) :
    Lists (Function.update (Function.update m (.head h') (m (.head h))) (.head h) none)
      (moved q h' h) := by
  have hm := hl.rep.move h' h hne
  simp only [hq, endLoc_nil] at hm
  have hw := hm.write_end h none
  rw [moved_right, endLoc_nil] at hw
  refine ⟨hw.queues, fun x => hw.terminated x ?_⟩
  by_cases hx : x = h
  · exact .inr ⟨hx, rfl⟩
  · by_cases hx' : x = h'
    · exact .inl ⟨.inr ⟨hx', trivial⟩, hx⟩
    · exact .inl ⟨.inl ⟨trivial, hx', hx⟩, hx⟩

/-- A new node at the front. -/
theorem push (hl : Lists m q) (h : H) (hn : ∀ x, n ∉ q x) :
    Lists (Function.update (Function.update m (.next n) (m (.head h))) (.head h) (some n))
      (Function.update q h (n :: q h)) := by
  have hw := hl.write_fresh hn (m (.head h))
  have hhead : ∀ {l : Loc H N} {ns : List N}, l ≠ .head h → (.head h : Loc H N) ∉ reads l ns := by
    intro l ns hl' hread
    rcases mem_reads hread with heq | ⟨k, -, heq⟩
    · exact hl' heq.symm
    · cases heq
  have hend : ∀ {l : Loc H N} {ns : List N}, l ≠ .head h → endLoc l ns ≠ .head h := by
    intro l ns hl' heq
    rcases endLoc_cases l ns with ⟨-, he⟩ | ⟨k, -, he⟩
    · exact hl' (he.symm.trans heq)
    · cases he.symm.trans heq
  refine ⟨⟨?_, ?_, ?_⟩, ?_⟩
  · intro x
    by_cases hx : x = h
    · subst hx
      rw [Function.update_self]
      refine ⟨Function.update_self .., ?_⟩
      -- The old list can be entered at the field of the new node.
      have hold : Chain (Function.update m (.next n) (m (.head x))) (.next n) (q x) :=
        (hw.queues.chain x).of_head_eq (by intro; simp)
      exact hold.update (hhead (by simp))
    · rw [Function.update_of_ne hx]
      exact (hw.queues.chain x).update (hhead (by simpa using hx))
  · intro x
    by_cases hx : x = h
    · subst hx
      rw [Function.update_self, List.nodup_cons]
      exact ⟨hn x, hl.queues.nodup x⟩
    · rw [Function.update_of_ne hx]
      exact hl.queues.nodup x
  · have hmem : ∀ {x a}, a ∈ Function.update q h (n :: q h) x → a ∈ q x ∨ (x = h ∧ a = n) := by
      intro x a ha
      by_cases hx : x = h
      · subst hx
        rw [Function.update_self, List.mem_cons] at ha
        exact ha.symm.imp_right fun han => ⟨rfl, han⟩
      · rw [Function.update_of_ne hx] at ha
        exact .inl ha
    intro x y a hax hay
    rcases hmem hax with hax | ⟨hx, rfl⟩ <;> rcases hmem hay with hay | ⟨hy, hay⟩
    · exact hl.queues.unique hax hay
    · exact absurd hax (hay ▸ hn x)
    · exact absurd hay (hn y)
    · exact hx.trans hy.symm
  · intro x
    by_cases hx : x = h
    · subst hx
      rw [Sealed, Function.update_self, endLoc, Function.update_of_ne (hend (by simp))]
      have hold := hw.terminated x
      by_cases hnil : q x = []
      · rw [hnil, endLoc_nil, Function.update_self]
        exact (hl.head?_eq x).trans (by rw [hnil]; rfl)
      · rwa [Sealed, endLoc_eq_of_ne_nil _ (.next n) hnil] at hold
    · rw [Sealed, Function.update_of_ne hx, Function.update_of_ne (hend (by simpa using hx))]
      exact hw.terminated x

/-- A node is unlinked: the link to it is set to its successor. -/
theorem remove (hl : Lists m q) {pre post : List N} (hs : q h = pre ++ n :: post) :
    Lists (Function.update m (endLoc (.head h) pre) (m (.next n)))
      (Function.update q h (pre ++ post)) := by
  have hq := hl.queues
  have hin : ∀ {k}, k ∈ n :: post → k ∈ q h := fun hk => hs ▸ List.mem_append_right _ hk
  have hnext : endLoc (.head h) pre ≠ (.next n : Loc H N) :=
    hq.link_ne_next hs (hin List.mem_cons_self) fun _ => List.mem_cons_self
  have hc := hq.chain h
  rw [hs, Chain.append] at hc
  obtain ⟨hpre, -, hpost⟩ := hc
  have hsub : List.Sublist (pre ++ post) (q h) := by
    rw [hs]
    exact (List.Sublist.refl pre).append (List.sublist_cons_self n post)
  have hmem : ∀ {x a}, a ∈ Function.update q h (pre ++ post) x → a ∈ q x := by
    intro x a ha
    by_cases hx : x = h
    · subst hx
      rw [Function.update_self] at ha
      exact hsub.mem ha
    · rwa [Function.update_of_ne hx] at ha
  refine ⟨⟨?_, ?_, fun hax hay => hq.unique (hmem hax) (hmem hay)⟩, ?_⟩
  · intro x
    by_cases hx : x = h
    · subst hx
      rw [Function.update_self, Chain.append]
      constructor
      · have hnodup := hq.nodup x
        rw [hs] at hnodup
        exact hpre.update (endLoc_not_mem_reads hnodup.of_append_left (by simp))
      · have hread : endLoc (.head x) pre ∉ reads (.next n : Loc H N) post := by
          intro hread
          rcases mem_reads hread with heq | ⟨k, hk, heq⟩
          · exact hnext heq
          · have hk' := List.mem_cons_of_mem n hk
            exact hq.link_ne_next hs (hin hk') (fun _ => hk') heq
        refine (hpost.update hread).of_head_eq ?_
        intro _
        rw [Function.update_self, Function.update_of_ne hnext.symm]
    · rw [Function.update_of_ne hx]
      refine (hq.chain x).update ?_
      intro hread
      rcases mem_reads hread with heq | ⟨k, hk, heq⟩
      · exact endLoc_ne_head hx heq
      · exact hq.link_ne_next hs hk (fun hxh => absurd hxh hx) heq
  · intro x
    by_cases hx : x = h
    · subst hx
      rw [Function.update_self]
      exact hsub.nodup (hq.nodup x)
    · rw [Function.update_of_ne hx]
      exact hq.nodup x
  · intro x
    by_cases hx : x = h
    · subst hx
      have hend := hl.terminated x
      rw [Sealed, hs, endLoc_append, endLoc] at hend
      rw [Sealed, Function.update_self, endLoc_append]
      by_cases hnil : post = []
      · subst hnil
        rw [endLoc_nil, Function.update_self]
        exact hend
      · rw [endLoc_eq_of_ne_nil _ (.next n) hnil]
        rcases endLoc_cases (.next n : Loc H N) post with ⟨he, -⟩ | ⟨k, hk, he⟩
        · exact absurd he hnil
        · have hk' := List.mem_cons_of_mem n hk
          rw [he] at hend ⊢
          rwa [Function.update_of_ne (hq.link_ne_next hs (hin hk') fun _ => hk').symm]
    · have hne : endLoc (.head x) (q x) ≠ endLoc (.head h) pre := by
        intro heq
        rcases endLoc_cases (.head x : Loc H N) (q x) with ⟨-, he⟩ | ⟨k, hk, he⟩
        · exact endLoc_ne_head hx (heq.symm.trans he)
        · exact hq.link_ne_next hs hk (fun hxh => absurd hxh hx) (heq.symm.trans he)
      rw [Sealed, Function.update_of_ne hx, Function.update_of_ne hne]
      exact hl.terminated x

end Lists

/-- The nodes that a loop over the `next` fields visits from a pointer on, in so many rounds. -/
def walk (m : PtrMem H N) : (rounds : Nat) → Option N → List N
  | 0, _ => []
  | _ + 1, none => []
  | rounds + 1, some n => n :: walk m rounds (m (.next n))

theorem walk_eq {m : PtrMem H N} {l : Loc H N} {ns : List N} (h : Chain m l ns)
    (hend : m (endLoc l ns) = none) {rounds : Nat} (hlen : ns.length ≤ rounds) :
    walk m rounds (m l) = ns := by
  induction ns generalizing l rounds with
  | nil =>
    rw [endLoc_nil] at hend
    rw [hend]
    cases rounds <;> rfl
  | cons n ns ih =>
    cases rounds with
    | zero => exact absurd hlen (Nat.not_succ_le_zero _)
    | succ rounds => rw [h.1, walk, ih h.2 hend (Nat.le_of_succ_le_succ hlen)]

/-! ## Back pointers -/

/-- The nodes of a list that starts at a field have the addresses of the links to them. -/
def Back (prevp : N → Option (Loc H N)) (l : Loc H N) : List N → Prop
  | [] => True
  | n :: ns => prevp n = some l ∧ Back prevp (.next n) ns

section Back

variable {p p' : N → Option (Loc H N)} {l l' : Loc H N} {ns : List N}

theorem Back.append {xs ys : List N} :
    Back p l (xs ++ ys) ↔ Back p l xs ∧ Back p (endLoc l xs) ys := by
  induction xs generalizing l with
  | nil => simp [Back]
  | cons x xs ih => simp only [List.cons_append, Back, ih, endLoc, and_assoc]

theorem Back.congr (h : Back p l ns) (heq : ∀ n ∈ ns, p' n = p n) : Back p' l ns := by
  induction ns generalizing l with
  | nil => trivial
  | cons n ns ih =>
    exact ⟨(heq n List.mem_cons_self).trans h.1,
      ih h.2 fun k hk => heq k (List.mem_cons_of_mem n hk)⟩

theorem Back.exists_of_mem (h : Back p l ns) {n : N} (hn : n ∈ ns) :
    ∃ pre post, ns = pre ++ n :: post ∧ p n = some (endLoc l pre) := by
  obtain ⟨pre, post, rfl⟩ := List.append_of_mem hn
  exact ⟨pre, post, rfl, (Back.append.mp h).2.1⟩

variable [DecidableEq N]

/-- `if (n) n->prevp = v`. -/
def setPrevp (p : N → Option (Loc H N)) (n : Option N) (v : Option (Loc H N)) :
    N → Option (Loc H N) :=
  match n with
  | some k => Function.update p k v
  | none => p

theorem setPrevp_of_ne {o : Option N} {v : Option (Loc H N)} {n : N} (h : o ≠ some n) :
    setPrevp p o v n = p n := by
  cases o with
  | none => rfl
  | some k =>
    have hne : n ≠ k := fun hnk => h (hnk ▸ rfl)
    exact Function.update_of_ne hne ..

/-- The first node gets a new link. -/
theorem Back.setPrevp_head (h : Back p l ns) (hnodup : ns.Nodup) :
    Back (setPrevp p ns.head? (some l')) l' ns := by
  cases ns with
  | nil => trivial
  | cons n ns =>
    rw [List.nodup_cons] at hnodup
    refine ⟨Function.update_self .., h.2.congr ?_⟩
    rintro k hk
    refine Function.update_of_ne ?_ _ _
    rintro rfl
    exact hnodup.1 hk

theorem Back.update (h : Back p l ns) {n : N} (hn : n ∉ ns) (v : Option (Loc H N)) :
    Back (Function.update p n v) l ns := by
  refine h.congr fun k hk => Function.update_of_ne ?_ _ _
  rintro rfl
  exact hn hk

end Back

/-! ## Operations -/

/-- The fields of the nodes, and the head variables. -/
structure Links (H N : Type*) where
  mem : PtrMem H N
  prevp : N → Option (Loc H N)

namespace Links

/-- No list has a node. -/
def empty : Links H N := ⟨fun _ => none, fun _ => none⟩

/-- The memory holds the lists, and in the lists of `B` the back pointers are right. -/
structure Rep (s : Links H N) (q : H → List N) (B : H → Prop) : Prop where
  lists : Lists s.mem q
  back : ∀ h, B h → Back s.prevp (.head h) (q h)

theorem rep_empty (B : H → Prop) : (empty : Links H N).Rep (fun _ => []) B where
  lists := ⟨⟨fun _ => trivial, by simp, by simp⟩, fun _ => rfl⟩
  back := fun _ _ => trivial

variable {s : Links H N} {q : H → List N} {B : H → Prop} {h : H} {n : N}

/-- The back pointer of a node addresses the link that points to the node. -/
theorem Rep.link (hr : s.Rep q B) (hB : B h) (hn : n ∈ q h) :
    ∃ l, s.prevp n = some l ∧ s.mem l = some n := by
  obtain ⟨pre, post, hs, hp⟩ := (hr.back h hB).exists_of_mem hn
  exact ⟨_, hp, (hr.lists.next_eq hs).1⟩

variable [DecidableEq H] [DecidableEq N]

/-- Clear the fields of a node. -/
def clear (s : Links H N) (n : N) : Links H N where
  mem := Function.update s.mem (.next n) none
  prevp := Function.update s.prevp n none

/-- Insert a node at the front: `n->next = head; if (n->next) n->next->prevp = &n->next;
head = n; n->prevp = &head`. -/
def push (s : Links H N) (h : H) (n : N) : Links H N where
  mem := Function.update (Function.update s.mem (.next n) (s.mem (.head h))) (.head h) (some n)
  prevp := Function.update (setPrevp s.prevp (s.mem (.head h)) (some (.next n))) n
    (some (.head h))

/-- Insert a node after the last one: `n->next = NULL`, then the field at the end is set
to `n`, and `n->prevp` to the address of that field. -/
def append (s : Links H N) (h : H) (last : Option N) (n : N) : Links H N where
  mem := Function.update (Function.update s.mem (.next n) none) (lastLoc h last) (some n)
  prevp := Function.update s.prevp n (some (lastLoc h last))

/-- Unlink a node that is in a list: `if (n->next) n->next->prevp = n->prevp;
*n->prevp = n->next`. -/
def unlink (s : Links H N) (n : N) : Links H N :=
  match s.prevp n with
  | none => s
  | some l => {
      mem := Function.update s.mem l (s.mem (.next n))
      prevp := setPrevp s.prevp (s.mem (.next n)) (some l) }

/-- Step to the next node: `head = n->next`. -/
def advance (s : Links H N) (h : H) (n : N) : Links H N where
  mem := Function.update s.mem (.head h) (s.mem (.next n))
  prevp := s.prevp

/-- Hand a list over: `head' = head; head = NULL`. -/
def take (s : Links H N) (h' h : H) : Links H N where
  mem := Function.update (Function.update s.mem (.head h') (s.mem (.head h))) (.head h) none
  prevp := s.prevp

namespace Rep

theorem clear (hr : s.Rep q B) (hn : ∀ x, n ∉ q x) : (s.clear n).Rep q B where
  lists := hr.lists.write_fresh hn none
  back := fun x hx => (hr.back x hx).update (hn x) none

theorem push (hr : s.Rep q B) (h : H) (hn : ∀ x, n ∉ q x) :
    (s.push h n).Rep (Function.update q h (n :: q h)) B where
  lists := hr.lists.push h hn
  back := by
    intro x hx
    have hb := hr.back x hx
    by_cases hxh : x = h
    · subst hxh
      rw [Function.update_self]
      refine ⟨Function.update_self .., ?_⟩
      simp only [Links.push, hr.lists.head?_eq]
      exact (hb.setPrevp_head (hr.lists.queues.nodup x)).update (hn x) _
    · rw [Function.update_of_ne hxh]
      refine Back.update (hb.congr fun k hk => setPrevp_of_ne ?_) (hn x) _
      intro hhead
      rw [hr.lists.head?_eq] at hhead
      exact hxh (hr.lists.queues.unique hk (List.mem_of_head? hhead))

theorem append (hr : s.Rep q B) (h : H) {last : Option N} (hlast : last = (q h).getLast?)
    (hn : ∀ x, n ∉ q x) : (s.append h last n).Rep (Function.update q h (q h ++ [n])) B := by
  have hend : lastLoc h last = endLoc (.head h) (q h) := by
    rw [hlast, lastLoc_getLast?]
  refine ⟨?_, ?_⟩
  · simp only [Links.append, hend]
    exact (hr.lists.write_fresh hn none).append h hn (Function.update_self ..)
  · intro x hx
    simp only [Links.append, hend]
    have hb := (hr.back x hx).update (hn x) (some (endLoc (.head h) (q h)))
    by_cases hxh : x = h
    · subst hxh
      rw [Function.update_self, Back.append]
      exact ⟨hb, Function.update_self .., trivial⟩
    · rw [Function.update_of_ne hxh]
      exact hb

theorem unlink (hr : s.Rep q B) (hB : B h) (hn : n ∈ q h) :
    (s.unlink n).Rep (Function.update q h ((q h).erase n)) B := by
  obtain ⟨pre, post, hs, hp⟩ := (hr.back h hB).exists_of_mem hn
  obtain ⟨hnpre, hnpost, hdisj⟩ := hr.lists.queues.not_mem_pre hs
  have herase : (q h).erase n = pre ++ post := by
    rw [hs, List.erase_append_right _ hnpre, List.erase_cons_head]
  have hnext := (hr.lists.next_eq hs).2
  have hmem : ∀ {k}, post.head? = some k → k ∈ post := fun hk => List.mem_of_head? hk
  simp only [Links.unlink, hp, herase]
  refine ⟨hr.lists.remove hs, ?_⟩
  intro x hx
  rw [hnext]
  have hb := hr.back x hx
  by_cases hxh : x = h
  · subst hxh
    rw [hs, Back.append] at hb
    rw [Function.update_self, Back.append]
    constructor
    · refine hb.1.congr fun k hk => setPrevp_of_ne ?_
      intro hhead
      exact hdisj k hk (hmem hhead)
    · have hnodup := hr.lists.queues.nodup x
      rw [hs] at hnodup
      exact hb.2.2.setPrevp_head hnodup.of_append_right.of_cons
  · rw [Function.update_of_ne hxh]
    refine hb.congr fun k hk => setPrevp_of_ne ?_
    intro hhead
    have hkh : k ∈ q h := hs ▸ List.mem_append_right _ (List.mem_cons_of_mem n (hmem hhead))
    exact hxh (hr.lists.queues.unique hk hkh)

/-- The rest of a list that is being taken apart is read through `next` only. -/
theorem advance (hr : s.Rep q B) (hB : ¬ B h) {ns : List N} (hq : q h = n :: ns) :
    (s.advance h n).Rep (Function.update q h ns) B where
  lists := hr.lists.advance hq
  back := by
    intro x hx
    have hxh : x ≠ h := fun hxh => hB (hxh ▸ hx)
    rw [Function.update_of_ne hxh]
    exact hr.back x hx

/-- A list that was handed over is read through `next` only. -/
theorem take (hr : s.Rep q B) {h' : H} (hne : h' ≠ h) (hB : ¬ B h') (hq : q h' = []) :
    (s.take h' h).Rep (moved q h' h) B where
  lists := hr.lists.take hne hq
  back := by
    intro x hx
    have hxh' : x ≠ h' := fun hxh' => hB (hxh' ▸ hx)
    by_cases hxh : x = h
    · subst hxh
      rw [moved_right]
      trivial
    · rw [moved_of_ne hxh' hxh]
      exact hr.back x hx

end Rep

end Links

/-! ## Nodes that are filed -/

section Members

variable [DecidableEq H] {q : H → List N} {h x : H} {n a : N}

theorem mem_update_cons :
    a ∈ Function.update q h (n :: q h) x ↔ a ∈ q x ∨ (x = h ∧ a = n) := by
  by_cases hx : x = h
  · subst hx
    rw [Function.update_self, List.mem_cons]
    simp [or_comm]
  · simp [hx]

theorem Queues.mem_update_erase [DecidableEq N] {m : PtrMem H N} (hq : Queues m q)
    (hn : n ∈ q h) : a ∈ Function.update q h ((q h).erase n) x ↔ a ∈ q x ∧ a ≠ n := by
  by_cases hx : x = h
  · subst hx
    rw [Function.update_self, (hq.nodup x).mem_erase_iff, and_comm]
  · rw [Function.update_of_ne hx]
    refine ⟨fun ha => ⟨ha, ?_⟩, fun ha => ha.1⟩
    rintro rfl
    exact hx (hq.unique ha hn)

end Members

namespace Links

/-- Each node is in the list that `cls` says, if any, and in no other. -/
def Filed (s : Links H N) (cls : N → Option H) : Prop :=
  ∃ q, s.Rep q (fun _ => True) ∧ ∀ n h, n ∈ q h ↔ cls n = some h

theorem filed_empty : (empty : Links H N).Filed fun _ => none :=
  ⟨fun _ => [], rep_empty _, by simp⟩

variable [DecidableEq H] [DecidableEq N] {s : Links H N} {cls : N → Option H} {h : H} {n : N}

theorem push_prevp {k : N} (hn : k ≠ n) (hk : s.mem (.head h) ≠ some k) :
    (s.push h n).prevp k = s.prevp k :=
  (Function.update_of_ne hn ..).trans (setPrevp_of_ne hk)

theorem unlink_prevp {k : N} (hk : s.mem (.next n) ≠ some k) :
    (s.unlink n).prevp k = s.prevp k := by
  unfold unlink
  split
  · rfl
  · exact setPrevp_of_ne hk

theorem unlink_of_none (hn : s.prevp n = none) : s.unlink n = s := by
  simp only [unlink, hn]

/-- A node that is in no list is filed. The other nodes in no list are left alone. -/
theorem Filed.push (hs : s.Filed cls) (hn : cls n = none) (h : H) :
    (s.push h n).Filed (Function.update cls n (some h)) ∧
      ∀ k, k ≠ n → cls k = none → (s.push h n).prevp k = s.prevp k := by
  obtain ⟨q, hr, hmem⟩ := hs
  have hnot : ∀ {k}, cls k = none → ∀ x, k ∉ q x := by
    intro k hk x hx
    cases hk.symm.trans ((hmem k x).mp hx)
  refine ⟨⟨_, hr.push h (hnot hn), ?_⟩, ?_⟩
  · intro k x
    rw [mem_update_cons, hmem]
    by_cases hk : k = n
    · subst hk
      simp [hn, eq_comm]
    · simp [hk]
  · intro k hkn hk
    refine push_prevp hkn ?_
    rw [hr.lists.head?_eq]
    intro hhead
    exact hnot hk h (List.mem_of_head? hhead)

/-- A node is taken out of its list. The nodes in no list are left alone. -/
theorem Filed.unlink (hs : s.Filed cls) (hn : cls n = some h) :
    (s.unlink n).Filed (Function.update cls n none) ∧
      ∀ k, cls k = none → (s.unlink n).prevp k = s.prevp k := by
  obtain ⟨q, hr, hmem⟩ := hs
  have hin : n ∈ q h := (hmem n h).mpr hn
  refine ⟨⟨_, hr.unlink trivial hin, ?_⟩, ?_⟩
  · intro k x
    rw [hr.lists.queues.mem_update_erase hin, hmem]
    by_cases hk : k = n
    · subst hk
      simp
    · simp [hk]
  · intro k hk
    refine unlink_prevp ?_
    obtain ⟨pre, post, hsplit⟩ := List.append_of_mem hin
    rw [(hr.lists.next_eq hsplit).2]
    intro hhead
    have hkh : k ∈ q h :=
      hsplit ▸ List.mem_append_right _ (List.mem_cons_of_mem n (List.mem_of_head? hhead))
    cases hk.symm.trans ((hmem k h).mp hkh)

/-- The fields of a node that is in no list are cleared. -/
theorem Filed.clear (hs : s.Filed cls) (hn : cls n = none) : (s.clear n).Filed cls := by
  obtain ⟨q, hr, hmem⟩ := hs
  refine ⟨q, hr.clear fun x hx => ?_, hmem⟩
  cases hn.symm.trans ((hmem n x).mp hx)

end Links

end PtrQueue
