-- SUMMARY: The UDP sockets that are there, under the references that are held to them.
import Aprsc.Accept.Thread

/-!
# UDP sockets

A socket is in one of the two lists as long as somebody holds a reference to it. What the
three operations do is said in terms of the references, which are counted outside.
-/

namespace Aprsc.Accept

open Counted

variable {k k' : Sockets} {refs refs' : Nat → Nat} {u : Nat} {x : ClientUdpT}

/-- The sockets are those with a reference, each with the count of its references, and each
in one of the lists. -/
structure Sockets.Ok (k : Sockets) (refs : Nat → Nat) : Prop where
  owned : Owned (·.refcount) k.heap refs
  mem_iff : ∀ u, u ∈ k.udpclients ++ k.udppeers ↔ 0 < refs u
  nodup : (k.udpclients ++ k.udppeers).Nodup

/-- The account of a socket. -/
def Sockets.account (k : Sockets) (u : Nat) : Option Nat := (k.heap.cells u).map (·.portaccount)

/-- No socket is new, and those that are left keep their accounts and their order. -/
structure Sockets.Within (k k' : Sockets) : Prop where
  account : ∀ u x, k'.heap.cells u = some x → k.account u = some x.portaccount
  list : ∀ corepeer, (k'.list corepeer).Sublist (k.list corepeer)

/-- The sockets that were there before keep their accounts. -/
def Sockets.Keeps (k k' : Sockets) : Prop :=
  ∀ u x, k'.heap.cells u = some x → u < k.heap.next → k.account u = some x.portaccount

theorem Sockets.ok_empty : Sockets.Ok ⟨.empty, [], []⟩ fun _ => 0 where
  owned := owned_empty
  mem_iff := by simp
  nodup := .nil

theorem Sockets.Ok.congr (hk : k.Ok refs) (hrefs : ∀ b, refs' b = refs b) : k.Ok refs' := by
  rwa [funext hrefs]

theorem Sockets.Ok.exists_of_pos (hk : k.Ok refs) (hu : 0 < refs u) :
    ∃ x, k.heap.cells u = some x :=
  hk.owned.exists_of_pos hu

theorem Sockets.Within.refl (k : Sockets) : k.Within k := by
  refine ⟨fun u x hx => ?_, fun _ => .refl _⟩
  rw [Sockets.account, hx]
  rfl

/-- Only the mark that a socket was misused is written. -/
theorem Sockets.within_misused (k : Sockets) (misused : Bool) :
    k.Within { k with heap.misused := misused } :=
  ⟨(Within.refl k).account, fun _ => .refl _⟩

theorem Sockets.Within.trans {k'' : Sockets} (h : k.Within k') (h' : k'.Within k'') :
    k.Within k'' := by
  refine ⟨fun u x hx => ?_, fun corepeer => (h'.list corepeer).trans (h.list corepeer)⟩
  obtain ⟨y, hy, hyx⟩ := Option.map_eq_some_iff.mp (h'.account u x hx)
  rw [h.account u y hy, hyx]

theorem Sockets.Within.keeps (h : k.Within k') : k.Keeps k' := fun u x hx _ => h.account u x hx

theorem Sockets.Keeps.refl (k : Sockets) : k.Keeps k := (Within.refl k).keeps

theorem Sockets.Keeps.trans {k'' : Sockets} (h : k.Keeps k') (h' : k'.Keeps k'')
    (hnext : k.heap.next ≤ k'.heap.next) : k.Keeps k'' := by
  intro u x hx hu
  obtain ⟨y, hy, hyx⟩ := Option.map_eq_some_iff.mp (h' u x hx (Nat.lt_of_lt_of_le hu hnext))
  rw [h u y hy hu, hyx]

/-! ## `client_udp_free` -/

theorem Sockets.within_free (k : Sockets) (u : Option Nat) : k.Within (k.clientUdpFree u) := by
  cases u with
  | none => exact .refl k
  | some u =>
    constructor
    · intro b y hy
      have hdrop : (k.heap.drop (·.refcount) u
          fun x => { x with refcount := x.refcount - 1 }).cells b = some y := by
        rw [← hy, clientUdpFree]
        split <;> rfl
      refine Heap.field_drop (g := (·.portaccount)) k.heap ?_ hdrop
      exact fun _ => rfl
    · intro corepeer
      rw [clientUdpFree]
      split
      · cases corepeer
        · exact List.erase_sublist
        · exact List.erase_sublist
      · exact .refl _

theorem erase_append_nodup {as bs : List Nat} (h : (as ++ bs).Nodup) :
    (as.erase u ++ bs.erase u).Nodup ∧
      ∀ b, b ∈ as.erase u ++ bs.erase u ↔ b ∈ as ++ bs ∧ b ≠ u := by
  obtain ⟨has, hbs, hdisj⟩ := List.nodup_append.mp h
  constructor
  · apply List.nodup_append.mpr
    exact ⟨has.erase u, hbs.erase u, fun a ha b hb =>
      hdisj a (List.mem_of_mem_erase ha) b (List.mem_of_mem_erase hb)⟩
  · intro b
    rw [List.mem_append, has.mem_erase_iff, hbs.mem_erase_iff, List.mem_append]
    tauto

/-- A reference is dropped. The socket leaves its list with the last one. -/
theorem Sockets.Ok.free (hk : k.Ok refs)
    (hrefs : ∀ b, refs b = refs' b + if b = u then 1 else 0) :
    (k.clientUdpFree (some u)).Ok refs' := by
  have howned := hk.owned.drop (f := fun x => { x with refcount := x.refcount - 1 })
    (fun _ => rfl) hrefs
  have hgone : ((k.heap.drop (·.refcount) u
      fun x => { x with refcount := x.refcount - 1 }).cells u).isNone ↔ refs' u = 0 := by
    rw [← Option.not_isSome, Bool.not_eq_true', ← Bool.not_eq_true, howned.isSome_iff]
    exact Nat.pos_iff_ne_zero.not.trans Classical.not_not
  rw [clientUdpFree]
  split
  next hnone =>
    obtain ⟨hnodup, hmem⟩ := erase_append_nodup (u := u) hk.nodup
    refine ⟨howned, fun b => ?_, hnodup⟩
    rw [hmem, hk.mem_iff, hrefs]
    have hzero := hgone.mp hnone
    by_cases hb : b = u
    · subst hb
      simp [hzero]
    · simp [hb]
  next hsome =>
    refine ⟨howned, fun b => ?_, hk.nodup⟩
    rw [hk.mem_iff, hrefs]
    by_cases hb : b = u
    · subst hb
      have hpos : refs' b ≠ 0 := fun hzero => hsome (hgone.mpr hzero)
      rw [if_pos rfl]
      omega
    · rw [if_neg hb, Nat.add_zero]

/-- Who has no socket drops nothing. -/
theorem Sockets.Ok.free_option (hk : k.Ok refs) {u : Option Nat}
    (hrefs : ∀ b, refs b = refs' b + if u = some b then 1 else 0) :
    (k.clientUdpFree u).Ok refs' := by
  cases u with
  | none => exact hk.congr fun b => (hrefs b).symm
  | some u =>
    apply hk.free
    intro b
    rw [hrefs]
    simp only [Option.some_inj, @eq_comm _ u b]

/-! ## `client_udp_find` -/

/-- A reference is taken to a socket. -/
def Sockets.take (k : Sockets) (u : Nat) : Sockets :=
  { k with heap := k.heap.modify u fun x => { x with refcount := x.refcount + 1 } }

/-- The socket is for this port. -/
def ClientUdpT.IsFor (x : ClientUdpT) (af : Nat) (portnum : Int) : Prop :=
  x.portnum = portnum ∧ x.af = af

/-- A search goes to the first socket in the list for the port. No socket is misused. -/
theorem findSocket_cases (ho : Owned (·.refcount) k.heap refs) (af : Nat) (portnum : Int)
    {l : List Nat} (hl : ∀ u ∈ l, 0 < refs u) :
    findSocket af portnum k.heap l = (none, k.heap) ∧
        (∀ u ∈ l, ∀ x, k.heap.cells u = some x → ¬x.IsFor af portnum) ∨
      ∃ before u after x, l = before ++ u :: after ∧ k.heap.cells u = some x ∧
        x.IsFor af portnum ∧
        (∀ v ∈ before, ∀ y, k.heap.cells v = some y → ¬y.IsFor af portnum) ∧
        findSocket af portnum k.heap l = (some u, (k.take u).heap) := by
  -- a socket in the list has a reference, so the loop never follows a pointer to nothing
  induction l with
  | nil => exact .inl ⟨rfl, nofun⟩
  | cons u l ih =>
    obtain ⟨x, hx⟩ := ho.exists_of_pos (hl u List.mem_cons_self)
    by_cases hmatch : x.portnum = portnum ∧ x.af = af
    · refine .inr ⟨[], u, l, x, rfl, hx, hmatch, nofun, ?_⟩
      rw [findSocket, hx]
      exact if_pos hmatch
    · have hrest : findSocket af portnum k.heap (u :: l) = findSocket af portnum k.heap l := by
        rw [findSocket, hx]
        exact if_neg hmatch
      have hfirst : ∀ y, k.heap.cells u = some y → ¬y.IsFor af portnum := by
        intro y hy
        cases hx.symm.trans hy
        exact hmatch
      rw [hrest]
      obtain ⟨hnone, hall⟩ | ⟨before, v, after, y, rfl, hy, hport, hbefore, hfind⟩ :=
        ih fun v hv => hl v (List.mem_cons_of_mem u hv)
      · exact .inl ⟨hnone, List.forall_mem_cons.mpr ⟨hfirst, hall⟩⟩
      · exact .inr ⟨u :: before, v, after, y, rfl, hy, hport,
          List.forall_mem_cons.mpr ⟨hfirst, hbefore⟩, hfind⟩

/-- What is behind a socket is in one of the lists. -/
theorem Sockets.mem_of_mem_chain {v : Nat} (hv : v ∈ k.chain (some u)) :
    v = u ∨ v ∈ k.udpclients ++ k.udppeers := by
  have hsub : ∀ l : List Nat, (l.dropWhile (· ≠ u)).tail.Sublist l := fun l =>
    (List.tail_sublist _).trans (List.dropWhile_sublist _)
  rcases List.mem_cons.mp hv with rfl | hmem
  · exact .inl rfl
  · exact .inr (((hsub k.udpclients).append (hsub k.udppeers)).subset hmem)

/-- The head that was read is there. -/
def Sockets.Rooted (k : Sockets) (root : Option Nat) : Prop :=
  ∀ u, root = some u → (k.heap.cells u).isSome

/-- A search takes a reference to the socket that it finds, if the head of the list that it was
given is still there. -/
theorem Sockets.Ok.find_cases (hk : k.Ok refs) {root : Option Nat} (hroot : k.Rooted root)
    (af : Nat) (portnum : Int) :
    k.clientUdpFind root af portnum = (none, k) ∨
      ∃ u, 0 < refs u ∧ k.clientUdpFind root af portnum = (some u, k.take u) := by
  have hlive : ∀ v ∈ k.chain root, 0 < refs v := by
    intro v hv
    cases root with
    | none => cases hv
    | some r =>
      rcases mem_of_mem_chain hv with rfl | hmem
      · exact (hk.owned.isSome_iff v).mp (hroot v rfl)
      · exact (hk.mem_iff v).mp hmem
  obtain ⟨hnone, -⟩ | ⟨before, u, after, x, hl, hx, -, -, hsome⟩ :=
    findSocket_cases hk.owned af portnum hlive
  · left
    rw [clientUdpFind, hnone]
  · right
    refine ⟨u, hk.owned.pos_of_some hx, ?_⟩
    rw [clientUdpFind, hsome]
    rfl

/-- A search from a head that is gone uses a socket that was freed. -/
theorem Sockets.find_gone (hk : k.heap.cells u = none) (af : Nat) (portnum : Int) :
    k.clientUdpFind (some u) af portnum = (none, { k with heap.misused := true }) := by
  rw [clientUdpFind, chain, findSocket, hk]

/-- The two lists, the one that is meant first. -/
theorem Sockets.append_lists_perm (k : Sockets) (corepeer : Bool) :
    (k.list corepeer ++ k.list !corepeer).Perm (k.udpclients ++ k.udppeers) := by
  cases corepeer
  · exact .refl _
  · exact List.perm_append_comm

/-- From the head of a list the search goes through all of it. -/
theorem Sockets.chain_head? (hnodup : (k.udpclients ++ k.udppeers).Nodup) (corepeer : Bool) :
    k.chain (k.list corepeer).head? = k.list corepeer := by
  have hlists := (k.append_lists_perm corepeer).nodup_iff.mpr hnodup
  cases hlist : k.list corepeer with
  | nil => rfl
  | cons u us =>
    rw [hlist] at hlists
    have hnot : u ∉ k.list !corepeer := by
      have hdisj := (List.nodup_append.mp hlists).2.2
      exact fun hmem => hdisj u List.mem_cons_self u hmem rfl
    -- nothing in the other list is the head, so the whole of it is skipped
    have hskip : (k.list !corepeer).dropWhile (· ≠ u) = [] := by
      apply List.dropWhile_eq_nil_iff.mpr
      intro v hv
      exact decide_eq_true fun hvu => hnot (hvu ▸ hv)
    have hhead : (k.list corepeer).dropWhile (· ≠ u) = u :: us := by
      rw [hlist, List.dropWhile_cons_of_neg (by simp)]
    cases corepeer
    · change u :: ((k.udpclients.dropWhile _).tail ++ (k.udppeers.dropWhile _).tail) = _
      rw [show k.udpclients.dropWhile (· ≠ u) = u :: us from hhead,
        show k.udppeers.dropWhile (· ≠ u) = [] from hskip]
      simp
    · change u :: ((k.udpclients.dropWhile _).tail ++ (k.udppeers.dropWhile _).tail) = _
      rw [show k.udppeers.dropWhile (· ≠ u) = u :: us from hhead,
        show k.udpclients.dropWhile (· ≠ u) = [] from hskip]
      simp

/-- The head of a list is there. -/
theorem Sockets.Ok.rooted (hk : k.Ok refs) (corepeer : Bool) :
    k.Rooted (k.list corepeer).head? := by
  intro u hu
  have hmem := List.mem_of_mem_head? (Option.mem_def.mpr hu)
  apply (hk.owned.isSome_iff u).mpr
  apply (hk.mem_iff u).mp
  apply List.mem_append.mpr
  cases corepeer
  · exact .inl hmem
  · exact .inr hmem

theorem Sockets.Ok.take (hk : k.Ok refs) (hu : 0 < refs u)
    (hrefs : ∀ b, refs' b = refs b + if b = u then 1 else 0) : (k.take u).Ok refs' := by
  refine ⟨hk.owned.take hu (fun _ => rfl) hrefs, fun b => ?_, hk.nodup⟩
  rw [hrefs]
  refine (hk.mem_iff b).trans ?_
  by_cases hb : b = u
  · subst hb
    simp [hu]
  · simp [hb]

/-- A socket that is written without its account. -/
theorem Sockets.within_modify (k : Sockets) (u : Nat) {f : ClientUdpT → ClientUdpT}
    (hf : ∀ x, (f x).portaccount = x.portaccount) :
    k.Within { k with heap := k.heap.modify u f } := by
  refine ⟨fun b y hy => ?_, fun _ => .refl _⟩
  have hfield := k.heap.field_modify (a := u) (g := (·.portaccount)) hf b
  rw [Sockets.account, ← hfield]
  exact congrArg (Option.map _) hy

/-- Whatever is in the list, a search writes no account. -/
theorem findSocket_account (af : Nat) (portnum : Int) (heap : Heap ClientUdpT) (l : List Nat)
    (hx : (findSocket af portnum heap l).2.cells u = some x) :
    (heap.cells u).map (·.portaccount) = some x.portaccount := by
  have hsame : ∀ {y}, heap.cells u = some y →
      (heap.cells u).map (·.portaccount) = some y.portaccount := by
    intro y hy
    rw [hy]
    rfl
  induction l with
  | nil => exact hsame hx
  | cons v l ih =>
    rw [findSocket] at hx
    split at hx
    · exact hsame hx
    · split at hx
      · have hfield := heap.field_modify (a := v) (g := (·.portaccount))
          (f := fun x => { x with refcount := x.refcount + 1 }) (fun _ => rfl) u
        rw [← hfield]
        exact congrArg (Option.map _) hx
      · exact ih hx

theorem Sockets.within_find (k : Sockets) (root : Option Nat) (af : Nat) (portnum : Int) :
    k.Within (k.clientUdpFind root af portnum).2 := by
  exact ⟨fun _ _ hx => findSocket_account af portnum k.heap (k.chain root) hx, fun _ => .refl _⟩

/-! ## `client_udp_alloc` -/

theorem Sockets.keeps_alloc (k : Sockets) (corepeer : Bool) (af : Nat) (portnum : Int)
    (portaccount : Nat) : k.Keeps (k.clientUdpAlloc corepeer af portnum portaccount) := by
  intro b y hy hb
  have hcells := k.heap.cells_alloc_of_ne
    { portaccount, refcount := 1, polled := false, af, portnum } (Nat.ne_of_lt hb)
  rw [account, ← hcells]
  exact congrArg (Option.map _) hy

/-- The new socket is referred to by who asked for it. -/
theorem Sockets.Ok.alloc (hk : k.Ok refs) (corepeer : Bool) (af : Nat) (portnum : Int)
    (portaccount : Nat) (hrefs : ∀ b, refs' b = refs b + if b = k.heap.next then 1 else 0) :
    (k.clientUdpAlloc corepeer af portnum portaccount).Ok refs' := by
  have hfresh : k.heap.next ∉ k.udpclients ++ k.udppeers := by
    intro hmem
    have hpos := (hk.mem_iff _).mp hmem
    rw [hk.owned.refs_next] at hpos
    exact Nat.lt_irrefl 0 hpos
  have hperm : ((k.clientUdpAlloc corepeer af portnum portaccount).udpclients ++
      (k.clientUdpAlloc corepeer af portnum portaccount).udppeers).Perm
      (k.heap.next :: (k.udpclients ++ k.udppeers)) := by
    cases corepeer with
    | false => exact .refl _
    | true => exact List.perm_middle
  refine ⟨hk.owned.alloc rfl hrefs, fun b => ?_, ?_⟩
  · rw [hperm.mem_iff, List.mem_cons, hk.mem_iff, hrefs]
    by_cases hb : b = k.heap.next
    · simp [hb]
    · simp [hb]
  · exact hperm.nodup_iff.mpr (List.nodup_cons.mpr ⟨hfresh, hk.nodup⟩)

end Aprsc.Accept
