-- SUMMARY: The heard tables as linked lists of cells are finite maps from callsigns to times, in every order of calls.
import Aprsc.Base.HashChains
import Aprsc.Base.LinkedLists
import Aprsc.Liveupgrade.Heard
import Mathlib.Algebra.Ring.Int.Defs

/-!
# Heard tables

Each client has a table of the stations that were heard from it, and one of the stations
that courtesy positions are due from. A table is an array of doubly linked lists, and the
cells of all tables come from one arena. An entry that is found by an update moves to the
front of its list, and one that is used up or has expired is unlinked.
-/

namespace Aprsc

open PtrQueue Runs

/-! ## Memory -/

/-- `client_heard` or `client_courtesy` of a client. -/
structure HeardId where
  client : Nat
  courtesy : Bool
deriving DecidableEq

/-- The lists of all tables, the fields of the cells and the arena. -/
structure HeardMem where
  links : Links (HeardId × Nat) Nat
  entry : Nat → ClientHeard
  entrycount : HeardId → Int
  /-- The free cells, the next one to be handed out in front. -/
  free : List Nat
  blocks : Nat

def HeardMem.init : HeardMem where
  links := .empty
  entry _ := ⟨0, 0, 0, newCell⟩
  entrycount _ := 0
  free := []
  blocks := 0

/-- The address of the first cell of a block. -/
def blockStart (block : Nat) : Nat := block * cellsPerBlock

/-- A new block of cells, which `mmap` fills with zeros. -/
def HeardMem.addBlock (s : HeardMem) : HeardMem where
  links := s.links
  entry n := if blockStart s.blocks ≤ n then ⟨0, 0, 0, newCell⟩ else s.entry n
  entrycount := s.entrycount
  free := s.free ++ (List.range cellsPerBlock).map (blockStart s.blocks + ·)
  blocks := s.blocks + 1

/-- `cellmalloc`: a cell, if there is one. -/
def HeardMem.malloc (mmap : Bool) (s : HeardMem) : Option Nat × HeardMem :=
  match s.free with
  | n :: free => (some n, { s with free })
  | [] =>
      if s.blocks ≥ cellblocksMax then (none, s)
      else if !mmap then (none, s)
      else (s.addBlock.free.head?, { s.addBlock with free := s.addBlock.free.tail })

/-! ## Operations -/

/-- The loop of `heard_list_update` and `heard_find`, from a pointer on. There is no result
if the list goes on after `fuel` entries. -/
def findHeard (s : HeardMem) (isCall : ClientHeard → Bool) :
    (fuel : Nat) → (h : Option Nat) → Option (Option Nat)
  | _, none => some none
  | 0, some _ => none
  | fuel + 1, some h =>
      if isCall (s.entry h) then some (some h) else findHeard s isCall fuel (s.links.mem (.next h))

/-- The time of an entry is written, and it is moved to the front of its list. -/
def HeardMem.refresh (s : HeardMem) (id : HeardId) (i : Nat) (h : Nat) (t : Int) : HeardMem :=
  let s := { s with entry := Function.update s.entry h { s.entry h with lastHeard := t } }
  if s.links.mem (.head (id, i)) = some h then s
  else { s with links := (s.links.unlink h).push (id, i) h }

/-- A cell is filled and put in front of a list. -/
def HeardMem.insert (s : HeardMem) (id : HeardId) (i : Nat) (h : Nat) (hash : UInt32)
    (call : Bytes) (t : Int) : HeardMem :=
  { s with
    entry := Function.update s.entry h
      ⟨hash, call.length, t, heardCallsign (s.entry h).callsign call⟩
    links := s.links.push (id, i) h
    entrycount := Function.update s.entrycount id (s.entrycount id + 1) }

/-- An entry is unlinked and freed. -/
def HeardMem.drop (s : HeardMem) (id : HeardId) (h : Nat) : HeardMem :=
  { s with
    links := s.links.unlink h
    free := s.free ++ [h]
    entrycount := Function.update s.entrycount id (s.entrycount id - 1) }

/-- `heard_list_update`. -/
def HeardMem.update (s : HeardMem) (id : HeardId) (call : Bytes) (t : Int) (mmap : Bool) :
    Option HeardMem :=
  let hash := keyhashuc call 0
  let i := heardIndex hash
  match findHeard s (·.isCall hash call) maxHeardPerClient (s.links.mem (.head (id, i))) with
  | none => none
  | some (some h) => some (s.refresh id i h t)
  | some none =>
      if s.entrycount id ≥ maxHeardPerClient then some s
      else
        match s.malloc mmap with
        | (none, s) => some s
        | (some h, s) => some (s.insert id i h hash call t)

/-- `heard_find`: whether the callsign is found. -/
def HeardMem.find (s : HeardMem) (id : HeardId) (callsign : Bytes) (hash : UInt32)
    (dropIfFound : Bool) : Option (Bool × HeardMem) :=
  let i := heardIndex hash
  match findHeard s (·.isCall hash callsign) maxHeardPerClient (s.links.mem (.head (id, i))) with
  | none => none
  | some none => some (false, s)
  | some (some h) => some (true, if dropIfFound then s.drop id h else s)

/-- The loop of `heard_expire_single` over one list. -/
def HeardMem.expireBucket (id : HeardId) (old : ClientHeard → Bool) :
    (fuel : Nat) → (h : Option Nat) → HeardMem → Option HeardMem
  | _, none, s => some s
  | 0, some _, _ => none
  | fuel + 1, some h, s =>
      let n := s.links.mem (.next h)
      expireBucket id old fuel n (if old (s.entry h) then s.drop id h else s)

/-- `expire_below`, which is an `int`. -/
def expireBelow (storetime tick : Int) : Int := Int.bmod (tick - storetime) (2 ^ 32)

/-- `heard_expire_single`. -/
def HeardMem.expire (s : HeardMem) (id : HeardId) (storetime tick : Int) : Option HeardMem :=
  let old := fun h : ClientHeard => h.lastHeard < expireBelow storetime tick || h.lastHeard > tick
  (List.range clientHeardBuckets).foldlM
    (fun s i => s.expireBucket id old maxHeardPerClient (s.links.mem (.head (id, i)))) s

/-- The calls on the tables. -/
inductive TableEvent where
  | update (id : HeardId) (call : HeardCall) (t : Int) (mmap : Bool)
  | find (id : HeardId) (callsign : Bytes) (hash : UInt32) (dropIfFound : Bool)
  | expire (id : HeardId) (storetime tick : Int)

/-- There is no state after a search that does not come to its end. -/
def heardStep (s : Option HeardMem) : TableEvent → Option HeardMem
  | .update id call t mmap => s.bind (·.update id call.call t mmap)
  | .find id callsign hash dropIfFound =>
      s.bind fun s => (s.find id callsign hash dropIfFound).map (·.2)
  | .expire id storetime tick => s.bind (·.expire id storetime tick)

/-! ## The tables as lists -/

/-- All tables and the arena. -/
structure HeardTables where
  lists : HeardId → HeardList
  cells : HeardCells

def HeardTables.init : HeardTables := ⟨fun _ => .init, .init⟩

/-- Change a table and the arena. -/
def HeardTables.on (T : HeardTables) (id : HeardId)
    (f : HeardList → HeardCells → HeardList × HeardCells) : HeardTables :=
  let r := f (T.lists id) T.cells
  { lists := Function.update T.lists id r.1, cells := r.2 }

def HeardTables.step (T : HeardTables) : TableEvent → HeardTables
  | .update id call t mmap => T.on id (heardUpdate mmap call.call t)
  | .find id callsign hash dropIfFound =>
      if dropIfFound then T.on id (heardDrop callsign hash) else T
  | .expire id storetime tick => T.on id (heardExpire (tick - expireBelow storetime tick) tick)

/-- The tables and the arena are well-formed. -/
structure HeardTables.Wf (T : HeardTables) : Prop where
  lists : ∀ id, (T.lists id).Wf
  cells : T.cells.Wf

/-- The number of entries of a table. -/
def bucketSum (q : HeardId × Nat → List Nat) (id : HeardId) : Nat :=
  ((List.range clientHeardBuckets).map fun i => (q (id, i)).length).sum

/-- The cells in the lists are `q`. All others are free, or they are not allocated yet. -/
structure HeardMem.Rep (s : HeardMem) (q : HeardId × Nat → List Nat) : Prop where
  links : s.links.Rep q fun _ => True
  count : ∀ id, s.entrycount id = bucketSum q id
  free_nodup : s.free.Nodup
  free_unused : ∀ n ∈ s.free, ∀ x, n ∉ q x
  free_lt : ∀ n ∈ s.free, n < blockStart s.blocks
  used_lt : ∀ x, ∀ n ∈ q x, n < blockStart s.blocks

/-- The tables that the memory holds. -/
def HeardMem.tables (s : HeardMem) (q : HeardId × Nat → List Nat) : HeardTables where
  lists id := { list := fun i => (q (id, i)).map s.entry, entrycount := bucketSum q id }
  cells := { free := s.free.map fun n => (s.entry n).callsign, cellblocksCount := s.blocks }

/-! ## Lists -/

theorem eraseP_eq_erase {α : Type} [DecidableEq α] {p : α → Bool} {xs : List α} {x : α}
    (h : xs.find? p = some x) (hnodup : xs.Nodup) : xs.eraseP p = xs.erase x := by
  obtain ⟨as, bs, rfl, herase⟩ := eraseP_of_find? h
  have hx : x ∉ as := fun hmem => (List.nodup_append.mp hnodup).2.2 x hmem x (by simp) rfl
  rw [herase, List.erase_append_right _ hx, List.erase_cons_head]

theorem map_update_of_not_mem {α : Type} {xs : List Nat} {n : Nat} (h : n ∉ xs) (f : Nat → α)
    (v : α) : xs.map (Function.update f n v) = xs.map f := by
  refine List.map_congr_left fun k hk => Function.update_of_ne ?_ ..
  rintro rfl
  exact h hk

theorem sum_map_range_update {n i : Nat} (hi : i < n) (f : Nat → Nat) (v : Nat) :
    ((List.range n).map (Function.update f i v)).sum + f i = ((List.range n).map f).sum + v := by
  induction n with
  | zero => omega
  | succ n ih =>
    rw [List.range_succ, List.map_append, List.map_append, List.sum_append, List.sum_append]
    simp only [List.map_cons, List.map_nil, List.sum_cons, List.sum_nil, Nat.add_zero]
    obtain hlt | rfl := Nat.lt_succ_iff_lt_or_eq.mp hi
    · have hlater := ih hlt
      rw [Function.update_of_ne (Nat.ne_of_gt hlt)]
      omega
    · have hsame : (List.range i).map (Function.update f i v) = (List.range i).map f :=
        map_update_of_not_mem (by simp) f v
      rw [hsame, Function.update_self]
      omega

theorem bucketSum_update (q : HeardId × Nat → List Nat) {id : HeardId} {i : Nat}
    (hi : i < clientHeardBuckets) (chain : List Nat) :
    bucketSum (Function.update q (id, i) chain) id + (q (id, i)).length =
      bucketSum q id + chain.length := by
  have hupdate : (fun j => (Function.update q (id, i) chain (id, j)).length) =
      Function.update (fun j => (q (id, j)).length) i chain.length := by
    funext j
    by_cases hj : j = i
    · simp [hj]
    · simp [hj]
  rw [bucketSum, hupdate, sum_map_range_update hi]
  rfl

theorem bucketSum_of_ne {q : HeardId × Nat → List Nat} {id id' : HeardId} (h : id' ≠ id) (i : Nat)
    (chain : List Nat) : bucketSum (Function.update q (id, i) chain) id' = bucketSum q id' := by
  simp [bucketSum, h]

theorem length_le_bucketSum (q : HeardId × Nat → List Nat) {id : HeardId} {i : Nat}
    (hi : i < clientHeardBuckets) : (q (id, i)).length ≤ bucketSum q id := by
  have hempty := @bucketSum_update q id _ hi []
  rw [List.length_nil] at hempty
  omega

/-! ## Searches -/

section
variable {s : HeardMem} {q : HeardId × Nat → List Nat}

/-- A search that has fuel for the list finds the first entry. -/
theorem findHeard_eq {isCall : ClientHeard → Bool} {fuel : Nat} {l : Loc (HeardId × Nat) Nat}
    {ns : List Nat} (hchain : Chain s.links.mem l ns) (hend : s.links.mem (endLoc l ns) = none)
    (hfuel : ns.length ≤ fuel) :
    findHeard s isCall fuel (s.links.mem l) = some (ns.find? fun n => isCall (s.entry n)) := by
  induction ns generalizing l fuel with
  | nil =>
    rw [endLoc_nil] at hend
    rw [hend]
    cases fuel <;> rfl
  | cons n ns ih =>
    cases fuel with
    | zero => simp at hfuel
    | succ fuel =>
      rw [hchain.1, findHeard, List.find?_cons]
      cases isCall (s.entry n) with
      | true => rfl
      | false =>
        rw [if_neg Bool.false_ne_true]
        exact ih hchain.2 hend (by simpa using hfuel)

theorem HeardMem.Rep.findHeard_eq (hr : s.Rep q) {id : HeardId} {i : Nat}
    (hlen : (q (id, i)).length ≤ maxHeardPerClient) (isCall : ClientHeard → Bool) :
    findHeard s isCall maxHeardPerClient (s.links.mem (.head (id, i))) =
      some ((q (id, i)).find? fun n => isCall (s.entry n)) :=
  Aprsc.findHeard_eq (hr.links.lists.queues.chain (id, i)) (hr.links.lists.terminated (id, i)) hlen

/-- What is found in the lists of the tables. -/
theorem HeardMem.find?_tables (isCall : ClientHeard → Bool) (id : HeardId) (i : Nat) :
    (((s.tables q).lists id).list i).find? isCall =
      ((q (id, i)).find? fun n => isCall (s.entry n)).map s.entry :=
  List.find?_map ..

end

/-! ## One list is changed -/

section
variable {s s' : HeardMem} {q : HeardId × Nat → List Nat} {id : HeardId} {i : Nat}
  {chain : List Nat}

theorem HeardMem.Rep.update (hr : s.Rep q) (hi : i < clientHeardBuckets)
    (hlinks : s'.links.Rep (Function.update q (id, i) chain) fun _ => True)
    (hcount : s'.entrycount = Function.update s.entrycount id
      (s.entrycount id + chain.length - (q (id, i)).length))
    (hnodup : s'.free.Nodup) (hchain : ∀ n ∈ s'.free, n ∉ chain)
    (hunused : ∀ n ∈ s'.free, ∀ x, x ≠ (id, i) → n ∉ q x)
    (hfree : ∀ n ∈ s'.free, n < blockStart s.blocks) (hlt : ∀ n ∈ chain, n < blockStart s.blocks)
    (hblocks : s'.blocks = s.blocks) : s'.Rep (Function.update q (id, i) chain) where
  links := hlinks
  count id' := by
    rw [hcount]
    by_cases hid : id' = id
    · subst hid
      have hsum := @bucketSum_update q id' _ hi chain
      have hold := hr.count id'
      rw [Function.update_self]
      omega
    · rw [Function.update_of_ne hid, bucketSum_of_ne hid, hr.count]
  free_nodup := hnodup
  free_unused n hn x := by
    by_cases hx : x = (id, i)
    · subst hx
      rw [Function.update_self]
      exact hchain n hn
    · rw [Function.update_of_ne hx]
      exact hunused n hn x hx
  free_lt n hn := by
    rw [hblocks]
    exact hfree n hn
  used_lt x n hn := by
    rw [hblocks]
    by_cases hx : x = (id, i)
    · subst hx
      rw [Function.update_self] at hn
      exact hlt n hn
    · rw [Function.update_of_ne hx] at hn
      exact hr.used_lt x n hn

/-- The tables with one list changed. -/
theorem HeardMem.tables_update (hentry : ∀ x, x ≠ (id, i) → ∀ n ∈ q x, s'.entry n = s.entry n)
    {l : HeardList}
    (hlist : l.list = fun j => if j = i then chain.map s'.entry else (q (id, j)).map s.entry)
    (hcount : l.entrycount = bucketSum (Function.update q (id, i) chain) id) {ca : HeardCells}
    (hfree : ca.free = s'.free.map fun n => (s'.entry n).callsign)
    (hblocks : ca.cellblocksCount = s'.blocks) :
    s'.tables (Function.update q (id, i) chain) =
      { lists := Function.update (s.tables q).lists id l, cells := ca } := by
  have hcells : (s'.tables (Function.update q (id, i) chain)).cells = ca := by
    obtain ⟨free, blocks⟩ := ca
    exact HeardCells.mk.injEq .. |>.mpr ⟨hfree.symm, hblocks.symm⟩
  refine HeardTables.mk.injEq .. |>.mpr ⟨?_, hcells⟩
  funext id'
  by_cases hid : id' = id
  · subst hid
    rw [Function.update_self]
    obtain ⟨list, entrycount⟩ := l
    refine HeardList.mk.injEq .. |>.mpr ⟨?_, hcount.symm⟩
    funext j
    refine Eq.trans ?_ (congrFun hlist j).symm
    by_cases hj : j = i
    · simp [hj]
    · rw [if_neg hj, Function.update_of_ne (by simpa using hj)]
      exact List.map_congr_left (hentry (id', j) (by simpa using hj))
  · rw [Function.update_of_ne hid]
    refine HeardList.mk.injEq .. |>.mpr ⟨?_, bucketSum_of_ne hid i chain⟩
    funext j
    have hne : (id', j) ≠ (id, i) := by
      rintro ⟨⟩
      exact hid rfl
    rw [Function.update_of_ne hne]
    exact List.map_congr_left (hentry (id', j) hne)

end

/-! ## Operations on one entry -/

section
variable {s : HeardMem} {q : HeardId × Nat → List Nat} {id : HeardId} {i : Nat} {n : Nat}

theorem HeardMem.Rep.not_mem_of_ne (hr : s.Rep q) {x y : HeardId × Nat} (hn : n ∈ q x)
    (hne : y ≠ x) : n ∉ q y :=
  fun hy => hne (hr.links.lists.queues.unique hy hn)

/-- An entry that was found is moved to the front, and its time is written. -/
theorem HeardMem.Rep.refresh (hr : s.Rep q) (hi : i < clientHeardBuckets) (hn : n ∈ q (id, i))
    (t : Int) :
    (s.refresh id i n t).Rep (Function.update q (id, i) (n :: (q (id, i)).erase n)) ∧
      (s.refresh id i n t).tables (Function.update q (id, i) (n :: (q (id, i)).erase n)) =
        { lists := Function.update (s.tables q).lists id
            (((s.tables q).lists id).setBucket i
              ({ s.entry n with lastHeard := t } :: ((q (id, i)).erase n).map s.entry))
          cells := (s.tables q).cells } := by
  have hnodup := hr.links.lists.queues.nodup (id, i)
  have hnot : n ∉ (q (id, i)).erase n := hnodup.not_mem_erase
  have hlen := List.length_erase_of_mem hn
  have hpos := List.length_pos_of_mem hn
  have hlinks : (s.refresh id i n t).links.Rep
      (Function.update q (id, i) (n :: (q (id, i)).erase n)) fun _ => True := by
    unfold HeardMem.refresh
    dsimp only
    split
    · -- The entry is the first one already.
      rename_i hfirst
      rw [hr.links.lists.head?_eq] at hfirst
      obtain ⟨ns, hns⟩ := List.head?_eq_some_iff.mp hfirst
      rw [hns, List.erase_cons_head, ← hns, Function.update_eq_self]
      exact hr.links
    · have hunlink := hr.links.unlink trivial hn
      have hout : ∀ x, n ∉ Function.update q (id, i) ((q (id, i)).erase n) x := by
        intro x hx
        exact (hr.links.lists.queues.mem_update_erase hn |>.mp hx).2 rfl
      have hpush := hunlink.push (id, i) hout
      rwa [Function.update_self, Function.update_idem] at hpush
  have hfields : (s.refresh id i n t).entry =
        Function.update s.entry n { s.entry n with lastHeard := t } ∧
      (s.refresh id i n t).entrycount = s.entrycount ∧ (s.refresh id i n t).free = s.free ∧
      (s.refresh id i n t).blocks = s.blocks := by
    unfold HeardMem.refresh
    dsimp only
    split <;> exact ⟨rfl, rfl, rfl, rfl⟩
  obtain ⟨hentry, hcount, hfree, hblocks⟩ := hfields
  have hsame : s.entrycount id + (n :: (q (id, i)).erase n).length - (q (id, i)).length =
      s.entrycount id := by
    rw [List.length_cons, hlen]
    omega
  constructor
  · refine hr.update hi hlinks ?_ ?_ ?_ ?_ ?_ ?_ hblocks
    · rw [hcount, hsame, Function.update_eq_self]
    · rw [hfree]
      exact hr.free_nodup
    · intro k hk hk'
      rw [hfree] at hk
      obtain rfl | hk' := List.mem_cons.mp hk'
      · exact hr.free_unused k hk _ hn
      · exact hr.free_unused k hk _ (List.mem_of_mem_erase hk')
    · intro k hk x _
      rw [hfree] at hk
      exact hr.free_unused k hk x
    · rw [hfree]
      exact hr.free_lt
    · intro k hk
      obtain rfl | hk := List.mem_cons.mp hk
      · exact hr.used_lt _ k hn
      · exact hr.used_lt _ k (List.mem_of_mem_erase hk)
  · refine tables_update ?_ ?_ ?_ ?_ hblocks.symm
    · intro x hx k hk
      rw [hentry]
      refine Function.update_of_ne ?_ ..
      rintro rfl
      exact hr.not_mem_of_ne hn hx hk
    · funext j
      rw [hentry, List.map_cons, Function.update_self, map_update_of_not_mem hnot]
      rfl
    · have hsum := @bucketSum_update q id _ hi (n :: (q (id, i)).erase n)
      rw [List.length_cons, hlen] at hsum
      change bucketSum q id = _
      omega
    · rw [hfree, hentry]
      refine List.map_congr_left fun k _ => ?_
      by_cases hk : k = n
      · simp [hk]
      · rw [Function.update_of_ne hk]

theorem mem_newBlock {block k : Nat} :
    k ∈ (List.range cellsPerBlock).map (blockStart block + ·) ↔
      blockStart block ≤ k ∧ k < blockStart (block + 1) := by
  have hnext : blockStart (block + 1) = blockStart block + cellsPerBlock := Nat.succ_mul ..
  simp only [List.mem_map, List.mem_range]
  constructor
  · rintro ⟨j, hj, rfl⟩
    omega
  · rintro ⟨hle, hlt⟩
    exact ⟨k - blockStart block, by omega, by omega⟩

/-- The cells of a new block are free. -/
theorem HeardMem.Rep.addBlock (hr : s.Rep q) :
    s.addBlock.Rep q ∧
      s.addBlock.tables q =
        { lists := (s.tables q).lists
          cells :=
            ⟨(s.tables q).cells.free ++ List.replicate cellsPerBlock newCell, s.blocks + 1⟩ } := by
  have hle : blockStart s.blocks ≤ blockStart (s.blocks + 1) :=
    Nat.mul_le_mul_right _ (Nat.le_succ _)
  have hold : ∀ k, k < blockStart s.blocks → s.addBlock.entry k = s.entry k := fun k hk =>
    if_neg (Nat.not_le_of_lt hk)
  have hmem : ∀ k ∈ s.addBlock.free, k ∈ s.free ∨
      (blockStart s.blocks ≤ k ∧ k < blockStart (s.blocks + 1)) := by
    intro k hk
    obtain hk | hk := List.mem_append.mp hk
    · exact .inl hk
    · exact .inr (mem_newBlock.mp hk)
  constructor
  · refine ⟨hr.links, hr.count, ?_, ?_, ?_, ?_⟩
    · refine List.nodup_append.mpr ⟨hr.free_nodup, ?_, ?_⟩
      · exact List.nodup_range.map fun a b hab => Nat.add_left_cancel hab
      · intro a ha b hb
        have hlt := hr.free_lt a ha
        have hge := (mem_newBlock.mp hb).1
        omega
    · intro k hk x hx
      obtain hk | ⟨hge, -⟩ := hmem k hk
      · exact hr.free_unused k hk x hx
      · have hlt := hr.used_lt x k hx
        omega
    · intro k hk
      obtain hk | ⟨-, hlt⟩ := hmem k hk
      · exact Nat.lt_of_lt_of_le (hr.free_lt k hk) hle
      · exact hlt
    · intro x k hk
      exact Nat.lt_of_lt_of_le (hr.used_lt x k hk) hle
  · refine HeardTables.mk.injEq .. |>.mpr ⟨?_, HeardCells.mk.injEq .. |>.mpr ⟨?_, rfl⟩⟩
    · funext id
      refine HeardList.mk.injEq .. |>.mpr ⟨?_, rfl⟩
      funext j
      exact List.map_congr_left fun k hk => hold k (hr.used_lt _ k hk)
    · have hfree : s.addBlock.free =
          s.free ++ (List.range cellsPerBlock).map (blockStart s.blocks + ·) := rfl
      rw [hfree, List.map_append]
      refine congrArg₂ (· ++ ·) ?_ ?_
      · exact List.map_congr_left fun k hk => by rw [hold k (hr.free_lt k hk)]
      · rw [List.map_map, List.eq_replicate_iff]
        refine ⟨by simp, ?_⟩
        intro cell hcell
        obtain ⟨k, -, rfl⟩ := List.mem_map.mp hcell
        have hnew : s.addBlock.entry (blockStart s.blocks + k) = ⟨0, 0, 0, newCell⟩ :=
          if_pos (Nat.le_add_right ..)
        simp only [Function.comp_apply, hnew]

/-- The first free cell is handed out. -/
theorem HeardMem.Rep.pop (hr : s.Rep q) {free : List Nat} (hfree : s.free = n :: free) :
    HeardMem.Rep { s with free } q ∧ (∀ x, n ∉ q x) ∧ n ∉ free ∧ n < blockStart s.blocks := by
  have hnodup := hr.free_nodup
  rw [hfree, List.nodup_cons] at hnodup
  have hmem : ∀ k ∈ free, k ∈ s.free := fun k hk => hfree ▸ List.mem_cons_of_mem n hk
  have hn : n ∈ s.free := hfree ▸ List.mem_cons_self
  exact ⟨⟨hr.links, hr.count, hnodup.2, fun k hk => hr.free_unused k (hmem k hk),
    fun k hk => hr.free_lt k (hmem k hk), hr.used_lt⟩, hr.free_unused n hn, hnodup.1,
    hr.free_lt n hn⟩

/-- What becomes of the arena when a cell is asked for. -/
inductive MallocCase (mmap : Bool) (s : HeardMem) (q : HeardId × Nat → List Nat) :
    Option Nat × HeardMem → Option Bytes × HeardCells → Prop where
  | noCell : MallocCase mmap s q (none, s) (none, (s.tables q).cells)
  | cell (n : Nat) (s' : HeardMem) (hr : s'.Rep q) (hlists : (s'.tables q).lists = (s.tables q).lists)
      (hentrycount : s'.entrycount = s.entrycount)
      (hout : ∀ x, n ∉ q x) (hfree : n ∉ s'.free) (hlt : n < blockStart s'.blocks) :
      MallocCase mmap s q (some n, s') (some (s'.entry n).callsign, (s'.tables q).cells)

theorem HeardMem.Rep.malloc (hr : s.Rep q) (mmap : Bool) :
    MallocCase mmap s q (s.malloc mmap) (cellmalloc mmap (s.tables q).cells) := by
  unfold HeardMem.malloc Aprsc.cellmalloc
  have hcells : (s.tables q).cells.free = s.free.map fun n => (s.entry n).callsign := rfl
  cases hfree : s.free with
  | cons n free =>
    rw [hcells, hfree]
    obtain ⟨hpop, hout, hnot, hlt⟩ := hr.pop hfree
    exact .cell n { s with free } hpop rfl rfl hout hnot hlt
  | nil =>
    rw [hcells, hfree]
    dsimp only [List.map_nil]
    unfold newCellblock
    have hblocks : (s.tables q).cells.cellblocksCount = s.blocks := rfl
    rw [hblocks]
    by_cases hmax : s.blocks ≥ cellblocksMax
    · rw [if_pos hmax, if_pos hmax]
      exact .noCell
    rw [if_neg hmax, if_neg hmax]
    cases mmap with
    | false => exact .noCell
    | true =>
      obtain ⟨hadd, htables⟩ := hr.addBlock
      have hlists := congrArg HeardTables.lists htables
      have hfree' := congrArg (·.cells.free) htables
      dsimp only at hlists hfree'
      rw [hcells, hfree, List.map_nil] at hfree'
      cases hnew : s.addBlock.free with
      | nil =>
        exfalso
        have hzero : blockStart s.blocks ∈ s.addBlock.free := by
          refine List.mem_append_right _ (mem_newBlock.mpr ⟨Nat.le_refl _, ?_⟩)
          exact Nat.mul_lt_mul_of_pos_right (Nat.lt_succ_self _) (by decide)
        rw [hnew] at hzero
        cases hzero
      | cons n free =>
        obtain ⟨hpop, hout, hnot, hlt⟩ := hadd.pop hnew
        have hcell := @MallocCase.cell true s _ n { s.addBlock with free } hpop
          hlists rfl hout hnot hlt
        have hmap : (n :: free).map (fun k => (s.addBlock.entry k).callsign) =
            [] ++ List.replicate cellsPerBlock newCell := by
          rw [← hnew]
          exact hfree'
        have hempty : (s.tables q).cells.free = [] := by rw [hcells, hfree, List.map_nil]
        simp only [Bool.not_true, Bool.false_eq_true, if_false, List.map_nil, hempty]
        rw [← hmap]
        exact hcell

/-- A cell that was handed out is put in front of a list. -/
theorem HeardMem.Rep.insert (hr : s.Rep q) (hi : i < clientHeardBuckets) (hout : ∀ x, n ∉ q x)
    (hnot : n ∉ s.free) (hlt : n < blockStart s.blocks) (hash : UInt32) (call : Bytes) (t : Int) :
    (s.insert id i n hash call t).Rep (Function.update q (id, i) (n :: q (id, i))) ∧
      (s.insert id i n hash call t).tables (Function.update q (id, i) (n :: q (id, i))) =
        { lists := Function.update (s.tables q).lists id
            { ((s.tables q).lists id).setBucket i
                (⟨hash, call.length, t, heardCallsign (s.entry n).callsign call⟩ ::
                  (q (id, i)).map s.entry) with
              entrycount := ((s.tables q).lists id).entrycount + 1 }
          cells := (s.tables q).cells } := by
  constructor
  · refine hr.update hi (hr.links.push (id, i) hout) ?_ hr.free_nodup ?_ ?_ hr.free_lt ?_ rfl
    · have hcount : s.entrycount id + 1 =
          s.entrycount id + (n :: q (id, i)).length - (q (id, i)).length := by
        rw [List.length_cons]
        omega
      rw [← hcount]
      rfl
    · intro k hk hk'
      obtain rfl | hk' := List.mem_cons.mp hk'
      · exact hnot hk
      · exact hr.free_unused k hk _ hk'
    · exact fun k hk x _ => hr.free_unused k hk x
    · intro k hk
      obtain rfl | hk := List.mem_cons.mp hk
      · exact hlt
      · exact hr.used_lt _ k hk
  · refine tables_update ?_ ?_ ?_ ?_ rfl
    · intro x _ k hk
      refine Function.update_of_ne ?_ ..
      rintro rfl
      exact hout x hk
    · funext j
      simp only [HeardMem.insert, List.map_cons, Function.update_self,
        map_update_of_not_mem (hout (id, i))]
      rfl
    · have hsum := @bucketSum_update q id _ hi (n :: q (id, i))
      rw [List.length_cons] at hsum
      change bucketSum q id + 1 = _
      omega
    · refine List.map_congr_left fun k hk => ?_
      have hk' : k ≠ n := by
        rintro rfl
        exact hnot hk
      simp only [HeardMem.insert, Function.update_of_ne hk']

/-- An entry is unlinked, and its cell is freed. -/
theorem HeardMem.Rep.drop (hr : s.Rep q) (hi : i < clientHeardBuckets) (hn : n ∈ q (id, i)) :
    (s.drop id n).Rep (Function.update q (id, i) ((q (id, i)).erase n)) ∧
      (s.drop id n).tables (Function.update q (id, i) ((q (id, i)).erase n)) =
        { lists := Function.update (s.tables q).lists id
            { ((s.tables q).lists id).setBucket i (((q (id, i)).erase n).map s.entry) with
              entrycount := ((s.tables q).lists id).entrycount - 1 }
          cells := cellfree (s.tables q).cells (s.entry n).callsign } := by
  have hnodup := hr.links.lists.queues.nodup (id, i)
  have hlen := List.length_erase_of_mem hn
  have hpos := List.length_pos_of_mem hn
  have hmem : ∀ k ∈ s.free ++ [n], k ∈ s.free ∨ k = n := by
    intro k hk
    simpa using hk
  constructor
  · refine hr.update hi (hr.links.unlink trivial hn) ?_ ?_ ?_ ?_ ?_ ?_ rfl
    · have hcount : s.entrycount id - 1 =
          s.entrycount id + ((q (id, i)).erase n).length - (q (id, i)).length := by
        rw [hlen]
        omega
      rw [← hcount]
      rfl
    · refine List.nodup_append.mpr ⟨hr.free_nodup, by simp, ?_⟩
      rintro k hk k' hk' rfl
      rw [List.mem_singleton.mp hk'] at hk
      exact hr.free_unused n hk _ hn
    · intro k hk hk'
      obtain hk | rfl := hmem k hk
      · exact hr.free_unused k hk _ (List.mem_of_mem_erase hk')
      · exact hnodup.not_mem_erase hk'
    · intro k hk x hx
      obtain hk | rfl := hmem k hk
      · exact hr.free_unused k hk x
      · exact hr.not_mem_of_ne hn hx
    · intro k hk
      obtain hk | rfl := hmem k hk
      · exact hr.free_lt k hk
      · exact hr.used_lt _ k hn
    · exact fun k hk => hr.used_lt _ k (List.mem_of_mem_erase hk)
  · refine tables_update (fun _ _ _ _ => rfl) rfl ?_ ?_ rfl
    · have hsum := @bucketSum_update q id _ hi ((q (id, i)).erase n)
      rw [hlen] at hsum
      change bucketSum q id - 1 = _
      omega
    · simp only [cellfree, HeardMem.drop, HeardMem.tables, List.map_append, List.map_cons,
        List.map_nil]

end

/-! ## Calls -/

section
variable {l : HeardList} {ca : HeardCells} {mmap : Bool} {call : Bytes} {t : Int}

theorem heardUpdate_found {h : ClientHeard} (hfind : l.lookup call = some h) :
    heardUpdate mmap call t l ca = (l.refreshEntry call h t, ca) := by
  have hinserts : l.inserts call = false := by
    unfold HeardList.lookup at hfind
    simp [HeardList.inserts, hfind]
  unfold HeardList.lookup at hfind
  rw [heardUpdate, hinserts, if_neg Bool.false_ne_true, heardListUpdate]
  simp only [hfind, HeardList.refreshEntry]

theorem heardUpdate_full (hfind : l.lookup call = none) (hfull : maxHeardPerClient ≤ l.entrycount) :
    heardUpdate mmap call t l ca = (l, ca) := by
  have hinserts : l.inserts call = false := by
    simp only [HeardList.inserts, Bool.and_eq_false_iff, decide_eq_false_iff_not]
    exact .inr (Nat.not_lt_of_le hfull)
  unfold HeardList.lookup at hfind
  rw [heardUpdate, hinserts, if_neg Bool.false_ne_true, heardListUpdate]
  simp only [hfind]
  rw [if_pos hfull]

theorem heardUpdate_room (hfind : l.lookup call = none) (hroom : l.entrycount < maxHeardPerClient) :
    heardUpdate mmap call t l ca =
      match (cellmalloc mmap ca).1 with
      | none => (l, (cellmalloc mmap ca).2)
      | some cell => (l.insertEntry cell call t, (cellmalloc mmap ca).2) := by
  have hinserts := HeardList.inserts_iff.mpr ⟨hfind, hroom⟩
  unfold HeardList.lookup at hfind
  rw [heardUpdate, hinserts, if_pos rfl]
  unfold heardListUpdate
  simp only [hfind]
  rw [if_neg (Nat.not_le_of_lt hroom)]
  cases (cellmalloc mmap ca).1 <;> rfl

end

section
variable {s : HeardMem} {q : HeardId × Nat → List Nat}

/-- No list is longer than the table may be. -/
theorem HeardTables.Wf.length_le (hwf : (s.tables q).Wf) {id : HeardId} {i : Nat}
    (hi : i < clientHeardBuckets) : (q (id, i)).length ≤ maxHeardPerClient :=
  Nat.le_trans (length_le_bucketSum q hi) (hwf.lists id).count_le

/-- `heard_list_update` does what it does on lists. -/
theorem HeardMem.Rep.update_eq (hr : s.Rep q) (hwf : (s.tables q).Wf) (id : HeardId)
    (call : Bytes) (t : Int) (mmap : Bool) :
    ∃ s' q', s.update id call t mmap = some s' ∧ s'.Rep q' ∧
      s'.tables q' = (s.tables q).on id (heardUpdate mmap call t) := by
  have hi := heardIndex_lt (keyhashuc call 0)
  have hlookup : ((s.tables q).lists id).lookup call = _ := HeardMem.find?_tables _ id _
  unfold HeardMem.update HeardTables.on
  dsimp only
  rw [hr.findHeard_eq (hwf.length_le hi)]
  cases hfind : (q (id, heardIndex (keyhashuc call 0))).find? fun n =>
      (s.entry n).isCall (keyhashuc call 0) call with
  | some n =>
    rw [hfind, Option.map_some] at hlookup
    have hn := List.mem_of_find?_eq_some hfind
    obtain ⟨hrep, htables⟩ := hr.refresh hi hn t
    refine ⟨_, _, rfl, hrep, ?_⟩
    have herase := eraseP_eq_erase hfind (hr.links.lists.queues.nodup _)
    rw [heardUpdate_found hlookup, htables, HeardList.refreshEntry, ← herase]
    change _ = HeardTables.mk (Function.update _ _ (HeardList.setBucket _ _
      (_ :: ((q _).map s.entry).eraseP _))) _
    rw [List.eraseP_map]
    rfl
  | none =>
    rw [hfind, Option.map_none] at hlookup
    dsimp only
    rw [hr.count]
    by_cases hfull : maxHeardPerClient ≤ bucketSum q id
    · rw [if_pos (by omega), heardUpdate_full hlookup hfull]
      refine ⟨s, q, rfl, hr, ?_⟩
      rw [Function.update_eq_self]
    · have hroom : ((s.tables q).lists id).entrycount < maxHeardPerClient := Nat.lt_of_not_le hfull
      rw [if_neg (by omega), heardUpdate_room hlookup hroom]
      have hcases := hr.malloc mmap
      generalize s.malloc mmap = r at hcases
      generalize cellmalloc mmap (s.tables q).cells = r' at hcases
      cases hcases with
      | noCell =>
        refine ⟨s, q, rfl, hr, ?_⟩
        rw [Function.update_eq_self]
      | cell n s' hr' hlists hentrycount hout hfree hlt =>
        obtain ⟨hrep, htables⟩ := hr'.insert hi hout hfree hlt (keyhashuc call 0) call t
        refine ⟨_, _, rfl, hrep, ?_⟩
        have hlist : ((s.tables q).lists id).list (heardIndex (keyhashuc call 0)) =
            (q (id, heardIndex (keyhashuc call 0))).map s'.entry := by
          rw [← hlists]
          rfl
        rw [htables, hlists]
        dsimp only [HeardList.insertEntry, newEntry]
        rw [hlist]

/-- `heard_find` does what it does on lists. -/
theorem HeardMem.Rep.find_eq (hr : s.Rep q) (hwf : (s.tables q).Wf) (id : HeardId)
    (callsign : Bytes) (hash : UInt32) (dropIfFound : Bool) :
    ∃ s' q', s.find id callsign hash dropIfFound =
        some ((((s.tables q).lists id).list (heardIndex hash)).find? (·.isCall hash callsign)
          |>.isSome, s') ∧ s'.Rep q' ∧
      s'.tables q' = if dropIfFound then (s.tables q).on id (heardDrop callsign hash)
        else s.tables q := by
  have hi := heardIndex_lt hash
  unfold HeardMem.find HeardTables.on
  dsimp only
  rw [hr.findHeard_eq (hwf.length_le hi), heardDrop, HeardMem.find?_tables]
  cases hfind : (q (id, heardIndex hash)).find? fun n => (s.entry n).isCall hash callsign with
  | none =>
    refine ⟨s, q, rfl, hr, ?_⟩
    simp only [Option.map_none, Function.update_eq_self, ite_self]
  | some n =>
    cases dropIfFound with
    | false => exact ⟨s, q, rfl, hr, rfl⟩
    | true =>
      have hn := List.mem_of_find?_eq_some hfind
      obtain ⟨hrep, htables⟩ := hr.drop hi hn
      refine ⟨_, _, rfl, hrep, ?_⟩
      have herase := eraseP_eq_erase hfind (hr.links.lists.queues.nodup _)
      rw [if_pos rfl, htables, ← herase]
      simp only [Option.map_some]
      change _ = HeardTables.mk (Function.update _ _ (HeardList.mk (HeardList.setBucket _ _
        (((q _).map s.entry).eraseP _)).list _)) _
      rw [List.eraseP_map]
      rfl

/-- The loop over one list unlinks the entries that are old, and goes on with the next one. -/
theorem HeardMem.Rep.expireBucket (hr : s.Rep q) {id : HeardId} {i : Nat}
    (hi : i < clientHeardBuckets) (old : ClientHeard → Bool) {kept rest : List Nat} {fuel : Nat}
    (hq : q (id, i) = kept ++ rest) (hfuel : rest.length ≤ fuel) :
    ∃ s', s.expireBucket id old fuel rest.head? = some s' ∧
      s'.Rep (Function.update q (id, i) (kept ++ rest.filter fun n => !old (s.entry n))) ∧
      s'.entry = s.entry ∧ s'.free = s.free ++ (rest.filter fun n => old (s.entry n)) ∧
      s'.blocks = s.blocks := by
  induction rest generalizing s q kept fuel with
  | nil =>
    refine ⟨s, by cases fuel <;> rfl, ?_, rfl, by simp, rfl⟩
    rw [List.filter_nil, ← hq, Function.update_eq_self]
    exact hr
  | cons n rest ih =>
    cases fuel with
    | zero => simp at hfuel
    | succ fuel =>
      have hnext := (hr.links.lists.next_eq hq).2
      rw [List.head?_cons, HeardMem.expireBucket, hnext]
      cases hold : old (s.entry n) with
      | false =>
        have hq' : q (id, i) = (kept ++ [n]) ++ rest := by rw [hq]; simp
        obtain ⟨s', hs', hrep, hentry, hfree, hblocks⟩ := ih hr hq' (by simpa using hfuel)
        refine ⟨s', hs', ?_, hentry, ?_, hblocks⟩
        · rw [List.filter_cons_of_pos (by simp [hold])]
          simpa using hrep
        · rw [hfree, List.filter_cons_of_neg (by simp [hold])]
      | true =>
        have hn : n ∈ q (id, i) := by rw [hq]; simp
        have hnot := (hr.links.lists.queues.not_mem_pre hq).1
        obtain ⟨hrep, -⟩ := hr.drop hi hn
        have hq' : Function.update q (id, i) ((q (id, i)).erase n) (id, i) = kept ++ rest := by
          rw [Function.update_self, hq, List.erase_append_right _ hnot, List.erase_cons_head]
        obtain ⟨s', hs', hrep', hentry, hfree, hblocks⟩ := ih hrep hq' (by simpa using hfuel)
        refine ⟨s', hs', ?_, hentry, ?_, hblocks⟩
        · rw [List.filter_cons_of_neg (by simp [hold])]
          rw [Function.update_idem] at hrep'
          exact hrep'
        · rw [hfree, List.filter_cons_of_pos (by simpa using hold)]
          simp [HeardMem.drop]

/-- The lists of a table without the entries that are old, in some of its buckets. -/
def expired (s : HeardMem) (q : HeardId × Nat → List Nat) (id : HeardId)
    (old : ClientHeard → Bool) (is : List Nat) : HeardId × Nat → List Nat :=
  fun x => if x.1 = id ∧ x.2 ∈ is then (q x).filter fun n => !old (s.entry n) else q x

/-- The loop over the lists. -/
theorem HeardMem.Rep.expireBuckets (hr : s.Rep q) {id : HeardId} (old : ClientHeard → Bool)
    {is : List Nat} (his : ∀ i ∈ is, i < clientHeardBuckets) (hnodup : is.Nodup)
    (hlen : ∀ i ∈ is, (q (id, i)).length ≤ maxHeardPerClient) :
    ∃ s', is.foldlM (fun s i => s.expireBucket id old maxHeardPerClient
        (s.links.mem (.head (id, i)))) s = some s' ∧
      s'.Rep (expired s q id old is) ∧ s'.entry = s.entry ∧
      s'.free = s.free ++ (is.flatMap fun i => (q (id, i)).filter fun n => old (s.entry n)) ∧
      s'.blocks = s.blocks := by
  induction is generalizing s q with
  | nil =>
    have hsame : expired s q id old [] = q := by
      funext x
      simp [expired]
    exact ⟨s, rfl, by rwa [hsame], rfl, by simp, rfl⟩
  | cons i is ih =>
    rw [List.nodup_cons] at hnodup
    have hhead := hr.links.lists.head?_eq (id, i)
    obtain ⟨s₁, hs₁, hr₁, hentry₁, hfree₁, hblocks₁⟩ :=
      hr.expireBucket (his i (by simp)) old (List.nil_append _).symm (hlen i (by simp))
    have hother : ∀ j ∈ is, Function.update q (id, i)
        ([] ++ (q (id, i)).filter fun n => !old (s.entry n)) (id, j) = q (id, j) := by
      intro j hj
      refine Function.update_of_ne ?_ ..
      rintro ⟨⟩
      exact hnodup.1 hj
    obtain ⟨s', hs', hr', hentry, hfree, hblocks⟩ := ih hr₁
      (fun j hj => his j (List.mem_cons_of_mem i hj)) hnodup.2
      (fun j hj => by rw [hother j hj]; exact hlen j (List.mem_cons_of_mem i hj))
    refine ⟨s', ?_, ?_, hentry.trans hentry₁, ?_, hblocks.trans hblocks₁⟩
    · rw [List.foldlM_cons, hhead, hs₁]
      exact hs'
    · have hlists : expired s₁ (Function.update q (id, i)
          ([] ++ (q (id, i)).filter fun n => !old (s.entry n))) id old is =
            expired s q id old (i :: is) := by
        funext x
        unfold expired
        rw [hentry₁]
        by_cases hx : x = (id, i)
        · subst hx
          simp [hnodup.1]
        · rw [Function.update_of_ne hx]
          have hmem : (x.1 = id ∧ x.2 ∈ i :: is) ↔ (x.1 = id ∧ x.2 ∈ is) := by
            refine and_congr_right fun hid => ?_
            rw [List.mem_cons, or_iff_right]
            intro hi
            exact hx (Prod.ext hid hi)
          simp only [hmem]
      rwa [hlists] at hr'
    · have hrest : (is.flatMap fun j => (Function.update q (id, i)
          ([] ++ (q (id, i)).filter fun n => !old (s.entry n)) (id, j)).filter
            fun n => old (s₁.entry n)) =
          is.flatMap fun j => (q (id, j)).filter fun n => old (s.entry n) := by
        refine List.flatMap_congr fun j hj => ?_
        rw [hother j hj, hentry₁]
      rw [hfree, hfree₁, hrest, List.flatMap_cons, List.append_assoc]

theorem sum_map_add (f g : Nat → Nat) (xs : List Nat) :
    (xs.map fun i => f i + g i).sum = (xs.map f).sum + (xs.map g).sum := by
  induction xs with
  | nil => rfl
  | cons x xs ih =>
    simp only [List.map_cons, List.sum_cons, ih]
    omega

/-- `heard_expire_single` does what it does on lists. -/
theorem HeardMem.Rep.expire_eq (hr : s.Rep q) (hwf : (s.tables q).Wf) (id : HeardId)
    (storetime tick : Int) :
    ∃ s' q', s.expire id storetime tick = some s' ∧ s'.Rep q' ∧
      s'.tables q' =
        (s.tables q).on id (heardExpire (tick - expireBelow storetime tick) tick) := by
  unfold HeardMem.expire
  dsimp only
  have hold : (fun h : ClientHeard => decide (h.lastHeard < expireBelow storetime tick) ||
      decide (h.lastHeard > tick)) =
        ClientHeard.old (tick - expireBelow storetime tick) tick := by
    funext h
    unfold ClientHeard.old
    rw [Int.sub_sub_self]
  rw [hold]
  generalize hstore : tick - expireBelow storetime tick = store
  obtain ⟨s', hs', hr', hentry, hfree, hblocks⟩ := hr.expireBuckets
    (ClientHeard.old store tick)
    (fun i hi => List.mem_range.mp hi) List.nodup_range
    (fun i hi => hwf.length_le (List.mem_range.mp hi))
  refine ⟨s', _, hs', hr', ?_⟩
  have hfilter : ∀ i, ((q (id, i)).map s.entry).filter (! ·.old store tick) =
      ((q (id, i)).filter fun n => !(s.entry n).old store tick).map s.entry := fun i =>
    List.filter_map ..
  refine HeardTables.mk.injEq .. |>.mpr ⟨?_, ?_⟩
  · funext id'
    by_cases hid : id' = id
    · subst hid
      rw [Function.update_self]
      refine HeardList.mk.injEq .. |>.mpr ⟨?_, ?_⟩
      · funext i
        rw [hentry]
        by_cases hi : i < clientHeardBuckets
        · rw [if_pos hi]
          refine Eq.trans ?_ (hfilter i).symm
          simp [expired, hi]
        · rw [if_neg hi]
          simp [expired, hi, HeardMem.tables]
      · have hsplit := sum_map_add
          (fun i => (expired s q id' (ClientHeard.old store tick)
            (List.range clientHeardBuckets) (id', i)).length)
          (fun i => ((q (id', i)).map s.entry).countP (ClientHeard.old store tick))
          (List.range clientHeardBuckets)
        have hsum : ((List.range clientHeardBuckets).map fun i =>
            (expired s q id' (ClientHeard.old store tick) (List.range clientHeardBuckets)
              (id', i)).length + ((q (id', i)).map s.entry).countP (ClientHeard.old store tick)) =
            (List.range clientHeardBuckets).map fun i => (q (id', i)).length := by
          refine List.map_congr_left fun i hi => ?_
          have hlen := @List.length_eq_countP_add_countP _
            (fun n => (s.entry n).old store tick) (q (id', i))
          have hexpired : expired s q id' (ClientHeard.old store tick)
              (List.range clientHeardBuckets) (id', i) =
                (q (id', i)).filter fun n => !(s.entry n).old store tick := by
            simp [expired, List.mem_range.mp hi]
          rw [hexpired, ← List.countP_eq_length_filter, List.countP_map]
          simp only [decide_not, Bool.decide_eq_true] at hlen
          simp only [Function.comp_def]
          omega
        rw [hsum] at hsplit
        exact (Nat.sub_eq_of_eq_add hsplit).symm
    · rw [Function.update_of_ne hid]
      refine HeardList.mk.injEq .. |>.mpr ⟨?_, ?_⟩
      · funext i
        simp [expired, hid, hentry]
      · simp [bucketSum, expired, hid]
  · have hentries : (((s.tables q).lists id).entries.filter (·.old store tick)) =
        ((List.range clientHeardBuckets).flatMap fun i =>
          (q (id, i)).filter fun n => (s.entry n).old store tick).map s.entry := by
      rw [HeardList.entries, List.filter_flatMap, List.map_flatMap]
      exact List.flatMap_congr fun i _ => List.filter_map ..
    rw [heardExpire, freeEntries_eq, hentries]
    refine HeardCells.mk.injEq .. |>.mpr ⟨?_, hblocks⟩
    rw [hfree, hentry, List.map_append, List.map_map]
    rfl

end

/-! ## The map of a list -/

/-- The time of a callsign. -/
def HeardList.time (l : HeardList) (call : Bytes) : Option Int :=
  (l.lookup call).map ClientHeard.lastHeard

section
variable {l l' : HeardList} {h h' : ClientHeard} {rest : List ClientHeard} {c : Bytes}

theorem not_distinct {a b : Bytes} (h : caseEq a b = true) : ¬Distinct a b := by
  rw [Distinct, h]
  exact Bool.noConfusion

/-- In a list of distinct callsigns a callsign stands once. -/
theorem eq_of_distinct {α : Type} {f : α → Bytes} {xs : List α}
    (hxs : (xs.map f).Pairwise Distinct) {a b : α} (ha : a ∈ xs) (hb : b ∈ xs)
    (heq : caseEq (f a) (f b) = true) : a = b := by
  rw [List.pairwise_map] at hxs
  obtain ⟨as, bs, rfl⟩ := List.append_of_mem ha
  rw [List.pairwise_append, List.pairwise_cons] at hxs
  obtain ⟨-, ⟨hafter, -⟩, hbefore⟩ := hxs
  rw [List.mem_append, List.mem_cons] at hb
  obtain hb | rfl | hb := hb
  · exact absurd (hbefore b hb a List.mem_cons_self).symm (not_distinct heq)
  · rfl
  · exact absurd (hafter b hb) (not_distinct heq)

/-- Two entries of one callsign are one entry. -/
theorem HeardList.Wf.eq_of_caseEq (hl : l.Wf) (hh : h ∈ l.entries) (hh' : h' ∈ l.entries)
    (heq : caseEq h.call h'.call = true) : h = h' :=
  eq_of_distinct hl.distinct hh hh' heq

theorem HeardList.Wf.time_eq_some (hl : l.Wf) {t : Int} :
    l.time c = some t ↔ ∃ h ∈ l.entries, caseEq c h.call = true ∧ h.lastHeard = t := by
  have hfound : ∀ h, l.lookup c = some h → h ∈ l.entries ∧ caseEq c h.call = true := by
    intro h hfind
    have hmem := List.mem_of_find?_eq_some hfind
    have hcall := List.find?_some hfind
    exact ⟨hl.mem_entries.mpr ⟨_, hmem⟩, (hl.entry _ h hmem).isCall_keyhashuc.mp hcall⟩
  unfold time
  rw [Option.map_eq_some_iff]
  constructor
  · rintro ⟨h, hfind, ht⟩
    obtain ⟨hmem, heq⟩ := hfound h hfind
    exact ⟨h, hmem, heq, ht⟩
  · rintro ⟨h, hmem, heq, ht⟩
    cases hfind : l.lookup c with
    | none =>
      have hdistinct := hl.distinct_of_lookup hfind h hmem
      rw [Distinct, heq] at hdistinct
      cases hdistinct
    | some g =>
      obtain ⟨hg, hgeq⟩ := hfound g hfind
      have hsame : caseEq g.call h.call = true := by
        rw [caseEq_iff] at heq hgeq ⊢
        rw [← hgeq, heq]
      exact ⟨g, rfl, by rw [hl.eq_of_caseEq hg hmem hsame, ht]⟩

theorem HeardList.Wf.time_of_head (hl : l.Wf) (hperm : l.entries.Perm (h :: rest))
    (hc : caseEq c h.call = true) : l.time c = some h.lastHeard :=
  hl.time_eq_some.mpr ⟨h, hperm.mem_iff.mpr List.mem_cons_self, hc, rfl⟩

theorem HeardList.Wf.time_of_rest (hl : l.Wf) (hperm : l.entries.Perm (h :: rest))
    (hc : ¬caseEq c h.call = true) {t : Int} :
    l.time c = some t ↔ ∃ g ∈ rest, caseEq c g.call = true ∧ g.lastHeard = t := by
  rw [hl.time_eq_some]
  simp only [hperm.mem_iff, List.mem_cons, or_and_right, exists_or, exists_eq_left, hc,
    false_and, false_or, Bool.false_eq_true]

/-- One entry takes the place of another one of the same callsign. -/
theorem HeardList.Wf.time_replace (hl : l.Wf) (hl' : l'.Wf) (hold : l.entries.Perm (h :: rest))
    (hnew : l'.entries.Perm (h' :: rest)) (hcall : h'.call = h.call) :
    l'.time c = if caseEq c h.call = true then some h'.lastHeard else l.time c := by
  rw [← hcall]
  split
  next heq => exact hl'.time_of_head hnew heq
  next hne =>
    ext t
    rw [hl'.time_of_rest hnew hne, hl.time_of_rest hold (hcall ▸ hne)]

/-- An entry is added. -/
theorem HeardList.Wf.time_cons (hl : l.Wf) (hl' : l'.Wf)
    (hnew : l'.entries.Perm (h' :: l.entries)) :
    l'.time c = if caseEq c h'.call = true then some h'.lastHeard else l.time c := by
  split
  next heq => exact hl'.time_of_head hnew heq
  next hne =>
    ext t
    rw [hl'.time_of_rest hnew hne, hl.time_eq_some]

/-- An entry is removed. -/
theorem HeardList.Wf.time_tail (hl : l.Wf) (hl' : l'.Wf)
    (hold : l.entries.Perm (h :: l'.entries)) :
    l'.time c = if caseEq c h.call = true then none else l.time c := by
  split
  next heq =>
    have hpair := (hold.map ClientHeard.call).pairwise_iff Distinct.symm |>.mp hl.distinct
    rw [List.map_cons, List.pairwise_cons] at hpair
    rw [Option.eq_none_iff_forall_ne_some]
    intro t ht
    obtain ⟨g, hg, hgeq, -⟩ := hl'.time_eq_some.mp ht
    have hne := hpair.1 g.call (List.mem_map_of_mem hg)
    rw [caseEq_iff] at heq hgeq
    exact not_distinct (caseEq_iff.mpr (heq.symm.trans hgeq)) hne
  next hne =>
    ext t
    rw [hl'.time_eq_some, hl.time_of_rest hold hne]

end

section
variable {l : HeardList} {ca : HeardCells} (hl : l.Wf)
include hl

theorem HeardList.Wf.time_heardUpdate (hca : ca.Wf) (mmap : Bool) (call : HeardCall) (t : Int)
    (c : Bytes) :
    (heardUpdate mmap call.call t l ca).1.time c =
      if caseEq c call.call = true ∧ ((l.time call.call).isSome = true ∨
        (l.entrycount < maxHeardPerClient ∧ (cellmalloc mmap ca).1.isSome = true)) then some t
      else l.time c := by
  unfold time
  rw [Option.isSome_map]
  cases hfind : l.lookup call.call with
  | some h =>
    have hmem := List.mem_of_find?_eq_some hfind
    have hcall := List.find?_some hfind
    have heq := caseEq_iff.mp ((hl.entry _ h hmem).isCall_keyhashuc.mp hcall)
    obtain ⟨hl', as, bs, hentries, hperm⟩ := hl.refreshEntry t hfind
    have hold : l.entries.Perm (h :: (as ++ bs)) := by
      rw [hentries]
      exact List.perm_middle
    have htime := hl.time_replace (c := c) hl' hold (hperm.trans List.perm_middle) rfl
    rw [heardUpdate_found hfind]
    refine htime.trans ?_
    have hsame : caseEq c h.call = true ↔ caseEq c call.call = true := by
      rw [caseEq_iff, caseEq_iff, heq]
    simp only [hsame, Option.isSome_some, true_or, and_true]
    rfl
  | none =>
    simp only [Option.isSome_none, Bool.false_eq_true, false_or]
    by_cases hfull : maxHeardPerClient ≤ l.entrycount
    · rw [heardUpdate_full hfind hfull, if_neg (by omega)]
    · have hroom := Nat.lt_of_not_le hfull
      rw [heardUpdate_room hfind hroom]
      have hcells := (hca.cellmalloc mmap).1
      cases hcell : (cellmalloc mmap ca).1 with
      | none => simp
      | some cell =>
        have hlen := hcells cell hcell
        obtain ⟨hl', as, bs, hentries, hinsert⟩ :=
          hl.insertEntry t hlen call.length_le call.no_nul hroom hfind
        have hnew : (l.insertEntry cell call.call t).entries.Perm
            (newEntry cell call.call t :: l.entries) := by
          rw [hinsert, hentries]
          exact List.perm_middle
        have htime := hl.time_cons (c := c) hl' hnew
        rw [call_newEntry cell call.length_le call.no_nul t] at htime
        simp only [Option.isSome_some, and_true, hroom]
        exact htime

theorem HeardList.Wf.time_heardDrop (callsign c : Bytes) :
    (heardDrop callsign (keyhashuc callsign 0) l ca).1.time c =
      if caseEq c callsign = true then none else l.time c := by
  have hl' := hl.drop callsign (keyhashuc callsign 0) ca
  cases hfind : l.lookup callsign with
  | none =>
    have hsame : (heardDrop callsign (keyhashuc callsign 0) l ca).1 = l := by
      unfold lookup at hfind
      simp only [heardDrop, hfind]
    rw [hsame]
    split
    · rename_i heq
      rw [time, Option.map_eq_none_iff]
      have hhash := keyhashuc_congr heq
      refine List.find?_eq_none.mpr fun h hmem hcall => ?_
      have hcaller := (hl.entry _ h hmem).isCall_keyhashuc.mp hcall
      have hdistinct := hl.distinct_of_lookup hfind h (hl.mem_entries.mpr ⟨_, hmem⟩)
      rw [caseEq_iff] at heq hcaller
      rw [Distinct, caseEq_iff.mpr (heq.symm.trans hcaller)] at hdistinct
      cases hdistinct
    · rfl
  | some h =>
    have hmem := List.mem_of_find?_eq_some hfind
    have hcall := List.find?_some hfind
    have heq := caseEq_iff.mp ((hl.entry _ h hmem).isCall_keyhashuc.mp hcall)
    obtain ⟨before, after, hentries, hset⟩ := l.exists_entries (heardIndex_lt (keyhashuc callsign 0))
    obtain ⟨as, bs, hchain, herase⟩ := eraseP_of_find? hfind
    have hdropped : (heardDrop callsign (keyhashuc callsign 0) l ca).1.entries =
        before ++ (as ++ bs) ++ after := by
      unfold lookup at hfind
      simp only [heardDrop, hfind]
      exact (hset _).trans (by rw [herase])
    have hperm : l.entries.Perm
        (h :: (heardDrop callsign (keyhashuc callsign 0) l ca).1.entries) := by
      rw [hdropped, hentries, hchain]
      have hmid : List.Perm (before ++ as ++ h :: (bs ++ after))
          (h :: (before ++ as ++ (bs ++ after))) := List.perm_middle
      simpa using hmid
    rw [hl.time_tail hl' hperm]
    have hsame : caseEq c h.call = true ↔ caseEq c callsign = true := by
      rw [caseEq_iff, caseEq_iff, heq]
    simp only [hsame]

theorem HeardList.Wf.time_heardExpire (storetime tick : Int) (c : Bytes) :
    (heardExpire storetime tick l ca).1.time c =
      (l.time c).filter fun t => tick - storetime ≤ t ∧ t ≤ tick := by
  have hl' : (heardExpire storetime tick l ca).1.Wf := hl.expire storetime tick
  ext t
  rw [hl'.time_eq_some, Option.filter_eq_some_iff, hl.time_eq_some]
  have hentries : (heardExpire storetime tick l ca).1.entries =
      l.entries.filter (! ·.old storetime tick) := entries_heardExpireSingle storetime tick l
  simp only [hentries, List.mem_filter]
  constructor
  · rintro ⟨h, ⟨hmem, hkept⟩, heq, rfl⟩
    refine ⟨⟨h, hmem, heq, rfl⟩, ?_⟩
    simp only [ClientHeard.old, Bool.not_eq_true', Bool.or_eq_false_iff,
      decide_eq_false_iff_not] at hkept
    simp only [decide_eq_true_eq]
    omega
  · rintro ⟨⟨h, hmem, heq, rfl⟩, hkept⟩
    refine ⟨h, ⟨hmem, ?_⟩, heq, rfl⟩
    simp only [decide_eq_true_eq] at hkept
    simp only [ClientHeard.old, Bool.not_eq_true', Bool.or_eq_false_iff, decide_eq_false_iff_not]
    omega

end

/-! ## The map of a table -/

/-- The time of the entry that a search for a callsign comes to. -/
def HeardMem.time (s : HeardMem) (id : HeardId) (call : Bytes) : Option Int :=
  let hash := keyhashuc call 0
  match findHeard s (·.isCall hash call) maxHeardPerClient
      (s.links.mem (.head (id, heardIndex hash))) with
  | some (some h) => some (s.entry h).lastHeard
  | _ => none

/-- An update is not turned down: the callsign is there, or there is room for it in the table
and a cell. -/
def HeardMem.accepts (s : HeardMem) (id : HeardId) (call : Bytes) (mmap : Bool) : Bool :=
  (s.time id call).isSome ||
    (s.entrycount id < maxHeardPerClient && (s.malloc mmap).1.isSome)

/-- The links of the tables are consistent. A callsign is there once, in the bucket that it is
looked for in, and the entries are counted. -/
structure HeardMem.Consistent (s : HeardMem) (q : HeardId × Nat → List Nat) : Prop where
  links : s.links.Rep q fun _ => True
  unique : ∀ id i j n m, n ∈ q (id, i) → m ∈ q (id, j) →
    caseEq (s.entry n).call (s.entry m).call = true → n = m
  placed : ∀ id i, ∀ n ∈ q (id, i), heardIndex (keyhashuc (s.entry n).call 0) = i
  count : ∀ id, s.entrycount id = bucketSum q id
  count_le : ∀ id, s.entrycount id ≤ maxHeardPerClient

/-- The operations are those of a finite map from callsigns to times. -/
structure HeardMem.MapSpec (s : HeardMem) : Prop where
  update : ∀ id (call : HeardCall) t mmap, ∃ s', s.update id call.call t mmap = some s' ∧
    (∀ id' c, s'.time id' c =
      if id' = id ∧ caseEq c call.call = true ∧ s.accepts id call.call mmap = true then some t
      else s.time id' c) ∧
    (s.accepts id call.call mmap = true → ∀ callsign, caseEq callsign call.call = true →
      ∀ dropIfFound, ∃ s'',
        s'.find id callsign (keyhashuc callsign 0) dropIfFound = some (true, s''))
  find : ∀ id callsign dropIfFound, ∃ s',
    s.find id callsign (keyhashuc callsign 0) dropIfFound =
        some ((s.time id callsign).isSome, s') ∧
      ∀ id' c, s'.time id' c =
        if dropIfFound = true ∧ id' = id ∧ caseEq c callsign = true then none
        else s.time id' c
  expire : ∀ id storetime tick, ∃ s', s.expire id storetime tick = some s' ∧
    (-2 ^ 31 ≤ tick - storetime → tick - storetime < 2 ^ 31 → ∀ id' c, s'.time id' c =
      if id' = id then (s.time id' c).filter fun t => tick - storetime ≤ t ∧ t ≤ tick
      else s.time id' c)

section
variable {s : HeardMem} {q : HeardId × Nat → List Nat}

theorem HeardMem.Rep.time_eq (hr : s.Rep q) (hwf : (s.tables q).Wf) (id : HeardId) (c : Bytes) :
    s.time id c = ((s.tables q).lists id).time c := by
  unfold HeardMem.time HeardList.time HeardList.lookup
  dsimp only
  rw [hr.findHeard_eq (hwf.length_le (heardIndex_lt _)), HeardMem.find?_tables]
  cases (q (id, heardIndex (keyhashuc c 0))).find? fun n =>
    (s.entry n).isCall (keyhashuc c 0) c <;> rfl

theorem HeardTables.Wf.on {T : HeardTables} (hT : T.Wf) {id : HeardId}
    {f : HeardList → HeardCells → HeardList × HeardCells}
    (h : (f (T.lists id) T.cells).1.Wf ∧ (f (T.lists id) T.cells).2.Wf) : (T.on id f).Wf where
  lists id' := by
    by_cases hid : id' = id
    · subst hid
      simpa [HeardTables.on] using h.1
    · simpa [HeardTables.on, hid] using hT.lists id'
  cells := h.2

/-- A call keeps the tables well-formed. -/
theorem HeardTables.Wf.step {T : HeardTables} (hT : T.Wf) (e : TableEvent) : (T.step e).Wf := by
  have hcells : ∀ id, ∀ h ∈ (T.lists id).entries, h.callsign.length = heardFieldSize := by
    intro id h hmem
    obtain ⟨i, hi⟩ := (hT.lists id).mem_entries.mp hmem
    exact ((hT.lists id).entry i h hi).field
  cases e with
  | update id call t mmap => exact hT.on (heardUpdate_wf (hT.lists id) hT.cells mmap call t)
  | find id callsign hash dropIfFound =>
    simp only [HeardTables.step]
    split
    · refine hT.on ⟨(hT.lists id).drop callsign hash _, ?_⟩
      unfold heardDrop
      dsimp only
      split
      · exact hT.cells
      · rename_i h hfind
        intro cell hcell
        obtain hcell | rfl : cell ∈ T.cells.free ∨ cell = h.callsign := by
          simpa [cellfree] using hcell
        · exact hT.cells cell hcell
        · exact hcells id h ((hT.lists id).mem_entries.mpr ⟨_, List.mem_of_find?_eq_some hfind⟩)
    · exact hT
  | expire id storetime tick =>
    refine hT.on ⟨(hT.lists id).expire _ tick, hT.cells.freeEntries fun h hmem => ?_⟩
    exact hcells id h (List.mem_of_mem_filter hmem)

/-- One call does on memory what it does on lists. -/
theorem HeardMem.Rep.step (hr : s.Rep q) (hwf : (s.tables q).Wf) (e : TableEvent) :
    ∃ s' q', heardStep (some s) e = some s' ∧ s'.Rep q' ∧ s'.tables q' = (s.tables q).step e := by
  cases e with
  | update id call t mmap => exact hr.update_eq hwf id call.call t mmap
  | find id callsign hash dropIfFound =>
    obtain ⟨s', q', hs', hr', htables⟩ := hr.find_eq hwf id callsign hash dropIfFound
    refine ⟨s', q', ?_, hr', htables⟩
    rw [heardStep, Option.bind_some, hs', Option.map_some]
  | expire id storetime tick => exact hr.expire_eq hwf id storetime tick

theorem HeardMem.Rep.consistent (hr : s.Rep q) (hwf : (s.tables q).Wf) : s.Consistent q := by
  have hentry : ∀ id i, ∀ n ∈ q (id, i), (s.entry n).Wf i := fun id i n hn =>
    (hwf.lists id).entry i _ (List.mem_map_of_mem hn)
  have hplaced : ∀ id i, ∀ n ∈ q (id, i), heardIndex (keyhashuc (s.entry n).call 0) = i := by
    intro id i n hn
    have hn := hentry id i n hn
    rw [← hn.hash_eq, hn.index_eq]
  refine ⟨hr.links, ?_, hplaced, hr.count, fun id => ?_⟩
  · intro id i j n m hn hm heq
    -- The two are in one bucket.
    have hij := hplaced id i n hn
    rw [keyhashuc_congr heq, hplaced id j m hm] at hij
    subst hij
    have hi : j < clientHeardBuckets := by
      rw [← hplaced id j m hm]
      exact heardIndex_lt _
    obtain ⟨before, after, hentries, -⟩ := ((s.tables q).lists id).exists_entries hi
    have hdistinct := (hwf.lists id).distinct
    rw [hentries, List.map_append, List.map_append, List.pairwise_append,
      List.pairwise_append] at hdistinct
    have hbucket : ((q (id, j)).map fun n => (s.entry n).call).Pairwise Distinct := by
      simpa [HeardMem.tables, Function.comp_def] using hdistinct.1.2.1
    exact eq_of_distinct hbucket hn hm heq
  · rw [hr.count]
    exact Int.ofNat_le.mpr (hwf.lists id).count_le

theorem HeardTables.time_on {T : HeardTables} {id : HeardId}
    {f : HeardList → HeardCells → HeardList × HeardCells} (id' : HeardId) (c : Bytes) :
    ((T.on id f).lists id').time c =
      if id' = id then (f (T.lists id) T.cells).1.time c else (T.lists id').time c := by
  by_cases hid : id' = id
  · subst hid
    simp [HeardTables.on]
  · simp [HeardTables.on, hid]

theorem HeardMem.Rep.isSome_malloc (hr : s.Rep q) (mmap : Bool) :
    (cellmalloc mmap (s.tables q).cells).1.isSome = (s.malloc mmap).1.isSome := by
  have hcases := hr.malloc mmap
  generalize s.malloc mmap = r at hcases
  generalize cellmalloc mmap (s.tables q).cells = r' at hcases
  cases hcases <;> rfl

/-- The bound that is compared with is an `int`. -/
theorem HeardMem.Rep.time_expire (hr : s.Rep q) (hwf : (s.tables q).Wf) (id : HeardId)
    (storetime tick : Int) :
    ∃ s', s.expire id storetime tick = some s' ∧ ∀ id' c, s'.time id' c =
      if id' = id then
        (s.time id' c).filter fun t => expireBelow storetime tick ≤ t ∧ t ≤ tick
      else s.time id' c := by
  obtain ⟨s', q', hs', hr', htables⟩ := hr.expire_eq hwf id storetime tick
  have hwf' : (s'.tables q').Wf := by
    rw [htables]
    exact hwf.step (.expire id storetime tick)
  refine ⟨s', hs', fun id' c => ?_⟩
  rw [hr'.time_eq hwf', hr.time_eq hwf, htables, HeardTables.time_on,
    (hwf.lists id).time_heardExpire, Int.sub_sub_self]
  by_cases hid : id' = id
  · subst hid
    rfl
  · rw [if_neg hid, if_neg hid]

theorem expireBelow_eq {storetime tick : Int} (hlo : -2 ^ 31 ≤ tick - storetime)
    (hhi : tick - storetime < 2 ^ 31) : expireBelow storetime tick = tick - storetime := by
  simp only [expireBelow, Int.bmod]
  omega

theorem HeardMem.Rep.mapSpec (hr : s.Rep q) (hwf : (s.tables q).Wf) : s.MapSpec := by
  have haccepts : ∀ id (call : HeardCall) mmap, s.accepts id call.call mmap = true ↔
      ((((s.tables q).lists id).time call.call).isSome = true ∨
        (((s.tables q).lists id).entrycount < maxHeardPerClient ∧
          (cellmalloc mmap (s.tables q).cells).1.isSome = true)) := by
    intro id call mmap
    have hcount : s.entrycount id < maxHeardPerClient ↔
        ((s.tables q).lists id).entrycount < maxHeardPerClient := by
      rw [hr.count]
      exact Int.ofNat_lt
    rw [HeardMem.accepts, Bool.or_eq_true, Bool.and_eq_true, decide_eq_true_iff,
      hr.time_eq hwf, hcount, hr.isSome_malloc]
  have hfind : ∀ {s : HeardMem} {q : HeardId × Nat → List Nat}, s.Rep q → (s.tables q).Wf →
      ∀ id callsign dropIfFound, ∃ s',
        s.find id callsign (keyhashuc callsign 0) dropIfFound =
            some ((s.time id callsign).isSome, s') ∧
          ∀ id' c, s'.time id' c =
            if dropIfFound = true ∧ id' = id ∧ caseEq c callsign = true then none
            else s.time id' c := by
    intro s q hr hwf id callsign dropIfFound
    obtain ⟨s', q', hs', hr', htables⟩ := hr.find_eq hwf id callsign (keyhashuc callsign 0) dropIfFound
    have hwf' : (s'.tables q').Wf := by
      rw [htables]
      exact hwf.step (.find id callsign (keyhashuc callsign 0) dropIfFound)
    refine ⟨s', ?_, fun id' c => ?_⟩
    · rw [hs', hr.time_eq hwf, HeardList.time, Option.isSome_map]
      rfl
    · rw [hr'.time_eq hwf', hr.time_eq hwf, htables]
      cases dropIfFound with
      | false => simp
      | true =>
        rw [if_pos rfl, HeardTables.time_on, (hwf.lists id).time_heardDrop]
        by_cases hid : id' = id
        · subst hid
          simp
        · simp [hid]
  refine ⟨fun id call t mmap => ?_, fun id => hfind hr hwf id, fun id storetime tick => ?_⟩
  · obtain ⟨s', q', hs', hr', htables⟩ := hr.update_eq hwf id call.call t mmap
    have hwf' : (s'.tables q').Wf := by
      rw [htables]
      exact hwf.step (.update id call t mmap)
    have htime : ∀ id' c, s'.time id' c =
        if id' = id ∧ caseEq c call.call = true ∧ s.accepts id call.call mmap = true then some t
        else s.time id' c := by
      intro id' c
      rw [hr'.time_eq hwf', hr.time_eq hwf, htables, HeardTables.time_on,
        (hwf.lists id).time_heardUpdate hwf.cells]
      by_cases hid : id' = id
      · subst hid
        simp only [← haccepts, if_true, true_and]
      · simp [hid]
    refine ⟨s', hs', htime, fun hacc callsign heq dropIfFound => ?_⟩
    obtain ⟨s'', hs'', -⟩ := hfind hr' hwf' id callsign dropIfFound
    refine ⟨s'', ?_⟩
    rw [hs'', htime, if_pos ⟨rfl, heq, hacc⟩, Option.isSome_some]
  · obtain ⟨s', hs', htime⟩ := hr.time_expire hwf id storetime tick
    refine ⟨s', hs', fun hlo hhi => ?_⟩
    rwa [expireBelow_eq hlo hhi] at htime

end

theorem HeardMem.rep_init : HeardMem.init.Rep (fun _ => []) ∧
    (HeardMem.init.tables fun _ => []).Wf := by
  refine ⟨⟨Links.rep_empty _, fun id => ?_, List.nodup_nil, by simp, by simp [init], by simp⟩, ?_⟩
  · simp [init, bucketSum]
  · have hlists : ∀ id, (HeardMem.init.tables fun _ => []).lists id = HeardList.init := by
      intro id
      refine HeardList.mk.injEq .. |>.mpr ⟨rfl, ?_⟩
      simp [bucketSum]
    refine ⟨fun id => ?_, by simp [HeardCells.Wf, HeardMem.tables, init]⟩
    rw [hlists]
    exact HeardList.wf_init

/-- In every order of calls on the tables, each table is a finite map from callsigns to
times, and its links, its buckets and its count are right. -/
theorem heard_tables_are_maps (events : List TableEvent) :
    ∃ s, run heardStep (some .init) events = some s ∧ (∃ q, s.Consistent q) ∧ s.MapSpec := by
  have hrun : ∃ s q, run heardStep (some .init) events = some s ∧ s.Rep q ∧ (s.tables q).Wf := by
    obtain ⟨hr, hwf⟩ := HeardMem.rep_init
    generalize HeardMem.init = s at hr hwf
    generalize (fun _ => [] : HeardId × Nat → List Nat) = q at hr hwf
    induction events generalizing s q with
    | nil => exact ⟨s, q, rfl, hr, hwf⟩
    | cons e events ih =>
      obtain ⟨s', q', hs', hr', htables⟩ := hr.step hwf e
      have hwf' : (s'.tables q').Wf := by
        rw [htables]
        exact hwf.step e
      rw [run_cons, hs']
      exact ih s' q' hr' hwf'
  obtain ⟨s, q, hs, hr, hwf⟩ := hrun
  exact ⟨s, hs, ⟨q, hr.consistent hwf⟩, hr.mapSpec hwf⟩

/-- A new block has cells. -/
theorem HeardMem.isSome_malloc_of_mmap {s : HeardMem} (hfree : s.free = [])
    (hblocks : s.blocks < cellblocksMax) : (s.malloc true).1.isSome = true := by
  unfold malloc
  rw [hfree]
  dsimp only
  rw [if_neg (Nat.not_le_of_lt hblocks)]
  have hfirst : blockStart s.blocks ∈ s.addBlock.free := by
    refine List.mem_append_right _ (mem_newBlock.mpr ⟨Nat.le_refl _, ?_⟩)
    exact Nat.mul_lt_mul_of_pos_right (Nat.lt_succ_self _) (by decide)
  cases hnew : s.addBlock.free with
  | nil =>
    rw [hnew] at hfirst
    cases hfirst
  | cons n free => rfl

private def heardId : HeardId := ⟨0, false⟩

private def heardStation : HeardCall := ⟨ascii "OH7BB", by decide, by decide⟩

/-- Without memory for a cell a callsign is not there after its update. And with a clock that
does not fit an `int` an entry stays that is outside of the window. -/
theorem heard_update_without_cell :
    (¬∀ (events : List TableEvent) (s : HeardMem), run heardStep (some .init) events = some s →
      ∀ id (call : HeardCall) t mmap, s.entrycount id < maxHeardPerClient →
        ∃ s' s'', s.update id call.call t mmap = some s' ∧
          s'.find id call.call (keyhashuc call.call 0) false = some (true, s'')) ∧
    ¬∀ (events : List TableEvent) (s : HeardMem), run heardStep (some .init) events = some s →
      ∀ id storetime tick s', s.expire id storetime tick = some s' →
        ∀ c, s'.time id c = (s.time id c).filter fun t => tick - storetime ≤ t ∧ t ≤ tick := by
  obtain ⟨hr, hwf⟩ := HeardMem.rep_init
  have hinit := hr.mapSpec hwf
  have htime : HeardMem.init.time heardId heardStation.call = none := rfl
  constructor
  · intro h
    obtain ⟨s', s'', hs', hs''⟩ := h [] .init rfl heardId heardStation 0 false (by decide)
    obtain ⟨s₁, hs₁, htime₁, -⟩ := hinit.update heardId heardStation 0 false
    obtain rfl : s₁ = s' := Option.some.inj (hs₁.symm.trans hs')
    have haccepts : HeardMem.init.accepts heardId heardStation.call false = false := rfl
    have hnone := htime₁ heardId heardStation.call
    rw [haccepts, if_neg (by simp), htime] at hnone
    obtain ⟨s₂, q₂, hs₂, hr₂, htables₂⟩ := hr.update_eq hwf heardId heardStation.call 0 false
    obtain rfl : s₁ = s₂ := Option.some.inj (hs₁.symm.trans hs₂)
    have hwf₂ : (s₁.tables q₂).Wf := by
      rw [htables₂]
      exact hwf.step (.update heardId heardStation 0 false)
    obtain ⟨s₃, hs₃, -⟩ := (hr₂.mapSpec hwf₂).find heardId heardStation.call false
    rw [hs'', hnone] at hs₃
    cases hs₃
  · intro h
    obtain ⟨s₁, hs₁, htime₁, -⟩ := hinit.update heardId heardStation 0 true
    obtain ⟨s₂, q₂, hs₂, hr₂, htables₂⟩ := hr.update_eq hwf heardId heardStation.call 0 true
    obtain rfl : s₁ = s₂ := Option.some.inj (hs₁.symm.trans hs₂)
    have hwf₂ : (s₁.tables q₂).Wf := by
      rw [htables₂]
      exact hwf.step (.update heardId heardStation 0 true)
    have haccepts : HeardMem.init.accepts heardId heardStation.call true = true := by
      have hcell := HeardMem.isSome_malloc_of_mmap (s := .init) rfl (by decide)
      rw [HeardMem.accepts, htime, hcell]
      rfl
    have hsome := htime₁ heardId heardStation.call
    rw [haccepts, if_pos ⟨rfl, caseEq_iff.mpr rfl, rfl⟩] at hsome
    have hrun : run heardStep (some .init) [.update heardId heardStation 0 true] = some s₁ := by
      rw [run_cons, run_nil, heardStep, Option.bind_some]
      exact hs₁
    obtain ⟨s₃, hs₃, htime₃⟩ := hr₂.time_expire hwf₂ heardId 0 (2 ^ 31)
    have hbad := h _ _ hrun heardId 0 (2 ^ 31) s₃ hs₃ heardStation.call
    rw [htime₃, hsome] at hbad
    revert hbad
    decide

end Aprsc
