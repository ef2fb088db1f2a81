-- SUMMARY: The cell allocator: arenas of cells with their free lists under both policies, and in which runs the free list stays intact.
import Aprsc.Base.LinkedLists
import Aprsc.Base.Runs

/-!
# Cells

An arena hands out cells of one size. It maps memory in blocks of many cells, at most
`CELLBLOCKS_MAX` of them, and keeps the cells that are free in a linked list: the link is
the first word of the cell, which belongs to its client while the cell is handed out. Cells are taken
from the head of the list. They are put back at its head under the LIFO policy and at its
tail under the FIFO policy, and those of a new block are appended at the tail.
-/

namespace Aprsc

open PtrQueue Runs

/-! ## Arenas -/

/-- `CELLBLOCKS_MAX`. -/
def cellblocksMax : Nat := 200

/-- A pointer to a cell: the index of its block, and the number of the cell in it. The cell
is `increment` times that number from the start of the block. -/
structure CellPtr where
  block : Nat
  cell : Nat
deriving Repr, DecidableEq

/-- The field of an arena that points to a cell of the list. -/
inductive ArenaField where
  | freeHead
deriving Repr, DecidableEq

/-- `struct cellarena_t`. The memory has the head of the list and the `next` fields of all
cells. `mmaps` counts the calls of `mmap`. -/
structure CellarenaT where
  increment : Nat
  lifoPolicy : Bool
  minfree : Int
  mem : PtrMem ArenaField CellPtr
  freeTail : Option CellPtr
  freecount : Int
  createsize : Nat
  cellblocksCount : Nat
  mmaps : Nat

namespace CellarenaT

/-- `ca->free_head`. -/
def freeHead (ca : CellarenaT) : Option CellPtr := ca.mem (.head .freeHead)

/-- `ca->free_head = ch`. -/
def setFreeHead (ca : CellarenaT) (ch : Option CellPtr) : CellarenaT :=
  { ca with mem := Function.update ca.mem (.head .freeHead) ch }

/-- `ch->next`. -/
def next (ca : CellarenaT) (ch : CellPtr) : Option CellPtr := ca.mem (.next ch)

/-- `ch->next = value`. -/
def setNext (ca : CellarenaT) (ch : CellPtr) (value : Option CellPtr) : CellarenaT :=
  { ca with mem := Function.update ca.mem (.next ch) value }

/-- The cells that fit in a block. -/
def cellsPerBlock (ca : CellarenaT) : Nat := ca.createsize / ca.increment

/-- A round of the loop of `new_cellblock`. It crashes where it follows a null tail. -/
def linkCell (ca : CellarenaT) (ch : CellPtr) : Option CellarenaT :=
  let linked :=
    match ca.freeHead, ca.freeTail with
    | none, _ => some (ca.setFreeHead (some ch))
    | some _, some tail => some (ca.setNext tail (some ch))
    | some _, none => none
  linked.map fun ca =>
    { ca with freeTail := some ch, freecount := ca.freecount + 1 }.setNext ch none

/-- The loop of `new_cellblock`. -/
def linkCells : List CellPtr → CellarenaT → Option CellarenaT
  | [], ca => some ca
  | ch :: chs, ca => (ca.linkCell ch).bind (linkCells chs)

/-- `new_cellblock`: whether there is a new block, unless it crashes. -/
def newCellblock (mmap : Nat → Bool) (ca : CellarenaT) : Option (Bool × CellarenaT) :=
  if ca.cellblocksCount ≥ cellblocksMax then some (false, ca)
  else
    let mapped := { ca with mmaps := ca.mmaps + 1 }
    if mmap ca.mmaps = false then some (false, mapped)
    else
      let cells := (List.range ca.cellsPerBlock).map (CellPtr.mk ca.cellblocksCount)
      (linkCells cells { mapped with cellblocksCount := ca.cellblocksCount + 1 }).map fun ca =>
        (true, ca)

/-- The loop of `cellmalloc` and `cellmallocmany` that maps blocks until there are enough
cells, and ends early when there is no new block. There are never more rounds than
`CELLBLOCKS_MAX` and one. -/
def refill (mmap : Nat → Bool) : (rounds : Nat) → CellarenaT → Option (Bool × CellarenaT)
  | 0, _ => none
  | rounds + 1, ca =>
      if ca.freeHead = none ∨ ca.freecount < ca.minfree then
        (newCellblock mmap ca).bind fun r =>
          if r.1 then refill mmap rounds r.2 else some (false, r.2)
      else some (true, ca)

/-- Take the cell at the head off the list. -/
def takeCell (ca : CellarenaT) (ch : CellPtr) : CellarenaT :=
  let ca := (ca.setFreeHead (ca.next ch)).setNext ch none
  { ca with
    freeTail := if ca.freeHead = none then none else ca.freeTail
    freecount := ca.freecount - 1 }

/-- `cellmalloc`. -/
def cellmalloc (mmap : Nat → Bool) (ca : CellarenaT) : Option (Option CellPtr × CellarenaT) :=
  (refill mmap (cellblocksMax + 1) ca).bind fun r =>
    if r.1 = false then some (none, r.2)
    else r.2.freeHead.map fun ch => (some ch, r.2.takeCell ch)

/-- `cellmallocmany`: the cells in `array`. It goes on when there is no new block, as long
as there are cells. -/
def cellmallocmany (mmap : Nat → Bool) :
    (numcells : Nat) → CellarenaT → Option (List CellPtr × CellarenaT)
  | 0, ca => some ([], ca)
  | numcells + 1, ca =>
      (refill mmap (cellblocksMax + 1) ca).bind fun r =>
        match r.2.freeHead with
        | none => some ([], r.2)
        | some ch => (cellmallocmany mmap numcells (r.2.takeCell ch)).map fun rest =>
            (ch :: rest.1, rest.2)

/-- Put a cell on the head of the list. -/
def putHead (ca : CellarenaT) (ch : CellPtr) : CellarenaT :=
  (ca.setNext ch ca.freeHead).setFreeHead (some ch)

/-- Put a cell on the tail of the list. -/
def putTail (ca : CellarenaT) (ch : CellPtr) : CellarenaT :=
  let ca := match ca.freeTail with
    | some tail => ca.setNext tail (some ch)
    | none => ca
  let ca := { ca with freeTail := some ch }
  let ca := if ca.freeHead = none then ca.setFreeHead (some ch) else ca
  ca.setNext ch none

/-- Put a cell on the list, where the policy says. -/
def putCell (ca : CellarenaT) (ch : CellPtr) : CellarenaT :=
  let ca := if ca.lifoPolicy then ca.putHead ch else ca.putTail ch
  { ca with freecount := ca.freecount + 1 }

/-- `cellfree`. -/
def cellfree (ca : CellarenaT) (p : CellPtr) : CellarenaT := (ca.setNext p none).putCell p

/-- `cellfreemany`. -/
def cellfreemany (ca : CellarenaT) (array : List CellPtr) : CellarenaT := array.foldl putCell ca

/-- The loop of `cellinit`, which goes on when there is no new block. -/
def cellinitLoop (mmap : Nat → Bool) : (rounds : Nat) → CellarenaT → Option CellarenaT
  | 0, _ => none
  | rounds + 1, ca =>
      if ca.freecount < ca.minfree then
        (newCellblock mmap ca).bind fun r => cellinitLoop mmap rounds r.2
      else some ca

end CellarenaT

/-- `CELLMALLOC_POLICY_LIFO`. -/
def cellmallocPolicyLifo : Nat := 1

/-- The size of a cell with the overhead of its alignment. -/
def cellIncrement (cellsize alignment : Nat) : Nat :=
  if cellsize % alignment ≠ 0 then cellsize + (alignment - cellsize % alignment) else cellsize

/-- What `cellinit` starts with: an arena without blocks. -/
def emptyArena (cellsize alignment policy createkb : Nat) (minfree : Int) : CellarenaT where
  increment := cellIncrement cellsize alignment
  lifoPolicy := policy &&& cellmallocPolicyLifo ≠ 0
  minfree := minfree
  mem _ := none
  freeTail := none
  freecount := 0
  createsize := createkb * 1024
  cellblocksCount := 0
  mmaps := 0

/-- `cellinit`, if it returns after some rounds of its loop. It divides by the alignment and by
the increment. -/
def cellinit (mmap : Nat → Bool) (rounds cellsize alignment policy createkb : Nat) (minfree : Int) :
    Option CellarenaT :=
  if alignment = 0 ∨ cellIncrement cellsize alignment = 0 then none
  else CellarenaT.cellinitLoop mmap rounds (emptyArena cellsize alignment policy createkb minfree)

/-! ## Clients -/

/-- An arena and the cells that are handed out. -/
structure Cells where
  ca : CellarenaT
  handed : List CellPtr

/-- What the clients of an arena do. -/
inductive CellCall where
  | cellmalloc
  | cellmallocmany (numcells : Nat)
  | cellfree (p : CellPtr)
  | cellfreemany (array : List CellPtr)
  /-- A client writes to the start of its cell. -/
  | write (p : CellPtr) (word : Option CellPtr)
deriving Repr, DecidableEq

/-- The cells that a call frees. -/
def CellCall.freed : CellCall → List CellPtr
  | .cellfree p => [p]
  | .cellfreemany array => array
  | _ => []

/-- The cells are handed out, and each of them is there once. -/
def Cells.Frees (s : Cells) (ps : List CellPtr) : Prop := ps.Nodup ∧ ∀ p ∈ ps, p ∈ s.handed

instance (s : Cells) (ps : List CellPtr) : Decidable (s.Frees ps) :=
  inferInstanceAs (Decidable (_ ∧ _))

/-- A call of a client, which frees and writes only what it was handed out. -/
def Cells.call (mmap : Nat → Bool) (s : Cells) : CellCall → Option Cells
  | .cellmalloc => (s.ca.cellmalloc mmap).map fun r => ⟨r.2, r.1.toList ++ s.handed⟩
  | .cellmallocmany numcells =>
      (s.ca.cellmallocmany mmap numcells).map fun r => ⟨r.2, r.1 ++ s.handed⟩
  | .cellfree p =>
      some (if s.Frees [p] then ⟨s.ca.cellfree p, s.handed.diff [p]⟩ else s)
  | .cellfreemany array =>
      some (if s.Frees array then ⟨s.ca.cellfreemany array, s.handed.diff array⟩ else s)
  | .write p word =>
      some (if p ∈ s.handed then { s with ca := s.ca.setNext p word } else s)

/-- A call in a process that may have crashed. -/
def cellStep (mmap : Nat → Bool) (s : Option Cells) (call : CellCall) : Option Cells :=
  s.bind fun s => s.call mmap call

/-- The arena is intact, with these cells in its list. -/
structure Cells.Intact (s : Cells) (free : List CellPtr) : Prop where
  /-- The list is acyclic and ends with a null pointer. -/
  chain : Chain s.ca.mem (.head .freeHead) free
  terminated : s.ca.mem (endLoc (.head .freeHead) free) = none
  nodup : free.Nodup
  head : s.ca.freeHead = none ↔ free = []
  tail : free ≠ [] → s.ca.freeTail = free.getLast?
  count : s.ca.freecount = free.length
  blocks : s.ca.cellblocksCount ≤ cellblocksMax
  /-- Each cell of the blocks is either free or handed out. -/
  cells : ∀ ch, ch ∈ free ∨ ch ∈ s.handed ↔
    ch.block < s.ca.cellblocksCount ∧ ch.cell < s.ca.cellsPerBlock
  disjoint : ∀ ch ∈ free, ch ∉ s.handed
  handed : s.handed.Nodup

/-- No null tail was followed, and the arena is intact. -/
def CellsIntact (s : Option Cells) : Prop := ∃ cells, s = some cells ∧ ∃ free, cells.Intact free

/-- Under the LIFO policy, no cell is put back on an empty list. -/
def KeepsTail (s : Option Cells) (call : CellCall) : Prop :=
  ∀ cells, s = some cells → cells.ca.lifoPolicy = true → cells.ca.freeHead = none →
    cells.Frees call.freed → call.freed = []

/-! ## The free list -/

/-- The cells of the list, with a tail pointer that is right and null for an empty list. -/
structure FreeList (ca : CellarenaT) (free : List CellPtr) : Prop where
  lists : Lists ca.mem fun _ => free
  tail : ca.freeTail = free.getLast?
  count : ca.freecount = free.length

/-- The blocks of an arena stay as they are. -/
def SameBlocks (ca ca' : CellarenaT) : Prop :=
  ca'.cellblocksCount = ca.cellblocksCount ∧ ca'.cellsPerBlock = ca.cellsPerBlock

theorem update_free (free ns : List CellPtr) :
    (Function.update (fun _ : ArenaField => free) .freeHead ns) = fun _ => ns := by
  funext h
  cases h
  exact Function.update_self ..

namespace FreeList

variable {ca : CellarenaT} {free : List CellPtr} {ch : CellPtr}

theorem freeHead_eq (h : FreeList ca free) : ca.freeHead = free.head? := h.lists.head?_eq .freeHead

theorem not_mem (hch : ch ∉ free) : ∀ _ : ArenaField, ch ∉ free := fun _ => hch

/-- A cell after the last one of the list. -/
def appended (ca : CellarenaT) (free : List CellPtr) (ch : CellPtr) : CellarenaT :=
  { ca with
    mem := Function.update (Function.update ca.mem (endLoc (.head .freeHead) free) (some ch)) (.next ch) none
    freeTail := some ch
    freecount := ca.freecount + 1 }

theorem append (h : FreeList ca free) (hch : ch ∉ free) :
    FreeList (appended ca free ch) (free ++ [ch]) := by
  have hend : endLoc (.head ArenaField.freeHead) free ≠ .next ch := endLoc_ne_next_of_not_mem hch
  refine ⟨?_, ?_, ?_⟩
  · have hlists := (h.lists.write_fresh (not_mem hch) none).append .freeHead (not_mem hch)
      (Function.update_self ..)
    rw [update_free, Function.update_comm hend.symm] at hlists
    exact hlists
  · rw [List.getLast?_concat]
    rfl
  · simp [appended, h.count]

theorem linkCell_eq (h : FreeList ca free) : ca.linkCell ch = some (appended ca free ch) := by
  unfold CellarenaT.linkCell
  rcases List.eq_nil_or_concat free with rfl | ⟨ini, last, rfl⟩
  · rw [h.freeHead_eq]
    rfl
  · have hhead : ∃ first, ca.freeHead = some first := by
      rw [h.freeHead_eq]
      cases ini with
      | nil => exact ⟨last, rfl⟩
      | cons first ini => exact ⟨first, rfl⟩
    obtain ⟨first, hhead⟩ := hhead
    have htail := h.tail
    rw [List.concat_eq_append, List.getLast?_concat] at htail
    rw [hhead, htail, List.concat_eq_append, appended, endLoc_append]
    rfl

theorem putCell_fifo (h : FreeList ca free) (hch : ch ∉ free) (hfifo : ca.lifoPolicy = false) :
    ca.putCell ch = appended ca free ch := by
  rw [CellarenaT.putCell, hfifo]
  rcases List.eq_nil_or_concat free with rfl | ⟨ini, last, rfl⟩
  · have htail : ca.freeTail = none := h.tail
    have hhead : ca.mem (.head .freeHead) = none := h.freeHead_eq
    simp [htail, hhead, CellarenaT.putTail, CellarenaT.freeHead, CellarenaT.setFreeHead,
      CellarenaT.setNext, appended]
  · have hhead : ca.mem (.head .freeHead) ≠ none := by
      rw [show ca.mem (.head .freeHead) = _ from h.freeHead_eq]
      simp
    have htail := h.tail
    rw [List.concat_eq_append, List.getLast?_concat] at htail
    simp [htail, hhead, CellarenaT.putTail, CellarenaT.freeHead, CellarenaT.setNext, appended,
      endLoc_append]

/-- Under the LIFO policy the tail is right if there was a cell before. -/
theorem putCell_lifo (h : FreeList ca free) (hch : ch ∉ free) (hlifo : ca.lifoPolicy = true)
    (hne : free ≠ []) : FreeList (ca.putCell ch) (ch :: free) := by
  rw [CellarenaT.putCell, hlifo]
  refine ⟨?_, ?_, ?_⟩
  · have hlists := h.lists.push .freeHead (not_mem hch)
    rw [update_free] at hlists
    exact hlists
  · rw [List.getLast?_cons_of_ne_nil hne]
    exact h.tail
  · simp [CellarenaT.putHead, CellarenaT.setNext, CellarenaT.setFreeHead, h.count]

theorem takeCell (h : FreeList ca (ch :: free)) : FreeList (ca.takeCell ch) free := by
  have hadvance := h.lists.advance (h := .freeHead) rfl
  rw [update_free] at hadvance
  have hch : ch ∉ free := (List.nodup_cons.mp (h.lists.queues.nodup .freeHead)).1
  have hlists := hadvance.write_fresh (not_mem hch) none
  refine ⟨hlists, ?_, ?_⟩
  · have hhead : ((ca.setFreeHead (ca.next ch)).setNext ch none).freeHead = free.head? :=
      hlists.head?_eq .freeHead
    dsimp only [CellarenaT.takeCell]
    rw [hhead]
    cases free with
    | nil => rfl
    | cons first rest => exact h.tail
  · have hcount := h.count
    simp only [CellarenaT.takeCell, CellarenaT.setFreeHead, CellarenaT.setNext, hcount,
      List.length_cons]
    omega

theorem setNext (h : FreeList ca free) (hch : ch ∉ free) (value : Option CellPtr) :
    FreeList (ca.setNext ch value) free :=
  ⟨h.lists.write_fresh (not_mem hch) value, h.tail, h.count⟩

/-- The cells of a new block come at the end of the list. -/
theorem linkCells {chs : List CellPtr} (h : FreeList ca free) (hnodup : chs.Nodup)
    (hfresh : ∀ ch ∈ chs, ch ∉ free) :
    ∃ ca', CellarenaT.linkCells chs ca = some ca' ∧ FreeList ca' (free ++ chs) ∧ SameBlocks ca ca' := by
  induction chs generalizing ca free with
  | nil => exact ⟨ca, rfl, (List.append_nil free).symm ▸ h, rfl, rfl⟩
  | cons ch chs ih =>
    rw [List.nodup_cons] at hnodup
    have happend := h.append (hfresh ch List.mem_cons_self)
    obtain ⟨ca', heq, hfree, hcount, hcells⟩ := ih happend hnodup.2 (by
      intro c hc hmem
      rcases List.mem_append.mp hmem with hmem | hmem
      · exact hfresh c (List.mem_cons_of_mem ch hc) hmem
      · rw [List.mem_singleton] at hmem
        exact hnodup.1 (hmem ▸ hc))
    rw [List.append_assoc, List.singleton_append] at hfree
    refine ⟨ca', ?_, hfree, hcount, hcells⟩
    rw [CellarenaT.linkCells, h.linkCell_eq, Option.bind_some, heq]

end FreeList

/-! ## Calls -/

/-- The LIFO policy leaves the tail pointer alone. -/
theorem CellarenaT.putCell_of_lifo {ca : CellarenaT} (hlifo : ca.lifoPolicy = true) (ch : CellPtr) :
    (ca.putCell ch).lifoPolicy = true ∧ (ca.putCell ch).freeTail = ca.freeTail ∧
      (ca.putCell ch).freeHead = some ch := by
  rw [CellarenaT.putCell, if_pos hlifo]
  refine ⟨hlifo, rfl, ?_⟩
  simp [CellarenaT.putHead, CellarenaT.setFreeHead, CellarenaT.freeHead]

theorem CellarenaT.cellfreemany_of_lifo (ca : CellarenaT) (hlifo : ca.lifoPolicy = true)
    (ch : CellPtr) (array : List CellPtr) :
    (ca.cellfreemany (ch :: array)).freeTail = ca.freeTail ∧
      (ca.cellfreemany (ch :: array)).freeHead ≠ none := by
  induction array generalizing ca ch with
  | nil =>
    obtain ⟨-, htail, hhead⟩ := putCell_of_lifo hlifo ch
    exact ⟨htail, fun hnone => by cases hhead.symm.trans hnone⟩
  | cons next array ih =>
    obtain ⟨hlifo', htail, -⟩ := putCell_of_lifo hlifo ch
    obtain ⟨htail', hhead⟩ := ih _ hlifo' next
    exact ⟨htail'.trans htail, hhead⟩

namespace CellarenaT

/-- The cells of the next block. -/
theorem mem_blockCells (ca : CellarenaT) (c : CellPtr) :
    c ∈ (List.range ca.cellsPerBlock).map (CellPtr.mk ca.cellblocksCount) ↔
      c.block = ca.cellblocksCount ∧ c.cell < ca.cellsPerBlock := by
  simp only [List.mem_map, List.mem_range]
  constructor
  · rintro ⟨k, hk, rfl⟩
    exact ⟨rfl, hk⟩
  · rintro ⟨hblock, hk⟩
    exact ⟨c.cell, hk, by rw [← hblock]⟩

theorem blockCells_nodup (ca : CellarenaT) :
    ((List.range ca.cellsPerBlock).map (CellPtr.mk ca.cellblocksCount)).Nodup :=
  List.nodup_range.map fun a b hab => by cases hab; rfl

end CellarenaT

/-- What the calls keep: the tail pointer is null when the list is empty. -/
structure Cells.Inv (s : Cells) (free : List CellPtr) : Prop where
  list : FreeList s.ca free
  blocks : s.ca.cellblocksCount ≤ cellblocksMax
  cells : ∀ ch, ch ∈ free ∨ ch ∈ s.handed ↔
    ch.block < s.ca.cellblocksCount ∧ ch.cell < s.ca.cellsPerBlock
  disjoint : ∀ ch ∈ free, ch ∉ s.handed
  handed : s.handed.Nodup

/-- The invariant of a process. -/
def CellsInv (s : Option Cells) : Prop := ∃ cells, s = some cells ∧ ∃ free, cells.Inv free

namespace Cells.Inv

variable {ca : CellarenaT} {handed free : List CellPtr} {ch : CellPtr} {mmap : Nat → Bool}

theorem intact {s : Cells} (h : s.Inv free) : s.Intact free where
  chain := h.list.lists.queues.chain .freeHead
  terminated := h.list.lists.terminated .freeHead
  nodup := h.list.lists.queues.nodup .freeHead
  head := by rw [h.list.freeHead_eq, List.head?_eq_none_iff]
  tail _ := h.list.tail
  count := h.list.count
  blocks := h.blocks
  cells := h.cells
  disjoint := h.disjoint
  handed := h.handed

/-- The cells of the other blocks have other block indexes. -/
theorem blockCells_fresh (h : Inv ⟨ca, handed⟩ free) :
    ∀ c ∈ (List.range ca.cellsPerBlock).map (CellPtr.mk ca.cellblocksCount),
      c ∉ free ∧ c ∉ handed := by
  intro c hc
  have hblock := ((ca.mem_blockCells c).mp hc).1
  constructor
  · intro hfree
    exact absurd ((h.cells c).mp (.inl hfree)).1 (by dsimp only; omega)
  · intro hhanded
    exact absurd ((h.cells c).mp (.inr hhanded)).1 (by dsimp only; omega)

/-- A new block brings new cells, and there is none after the last one. -/
theorem newCellblock (h : Inv ⟨ca, handed⟩ free) (mmap : Nat → Bool) :
    ∃ ok ca' free', CellarenaT.newCellblock mmap ca = some (ok, ca') ∧ Inv ⟨ca', handed⟩ free' ∧
      (ok = true → ca'.cellblocksCount = ca.cellblocksCount + 1) := by
  unfold CellarenaT.newCellblock
  by_cases hmax : ca.cellblocksCount ≥ cellblocksMax
  · rw [if_pos hmax]
    exact ⟨false, ca, free, rfl, h, fun hok => by cases hok⟩
  · rw [if_neg hmax]
    dsimp only
    by_cases hmmap : mmap ca.mmaps = false
    · rw [if_pos hmmap]
      exact ⟨false, _, free, rfl, ⟨⟨h.list.lists, h.list.tail, h.list.count⟩, h.blocks, h.cells,
        h.disjoint, h.handed⟩, fun hok => by cases hok⟩
    · rw [if_neg hmmap]
      have hlist : FreeList { ca with mmaps := ca.mmaps + 1, cellblocksCount := ca.cellblocksCount + 1 } free :=
        ⟨h.list.lists, h.list.tail, h.list.count⟩
      have hmem := ca.mem_blockCells
      have hnew := h.blockCells_fresh
      have hnodup := ca.blockCells_nodup
      obtain ⟨ca', heq, hfree, hcount, hcells⟩ := hlist.linkCells hnodup fun c hc => (hnew c hc).1
      rw [heq]
      refine ⟨true, ca', _, rfl, ⟨hfree, ?_, ?_, ?_, h.handed⟩, fun _ => hcount⟩
      · rw [hcount]
        dsimp only
        omega
      · intro c
        rw [hcount, hcells, List.mem_append, hmem, or_right_comm, h.cells]
        simp only [CellarenaT.cellsPerBlock]
        omega
      · intro c hc
        rcases List.mem_append.mp hc with hc | hc
        · exact h.disjoint c hc
        · exact (hnew c hc).2

/-- The loop ends, and there is a cell unless there was no new block. -/
theorem refill (h : Inv ⟨ca, handed⟩ free) (rounds : Nat)
    (hrounds : cellblocksMax < rounds + ca.cellblocksCount) (mmap : Nat → Bool) :
    ∃ ok ca' free', CellarenaT.refill mmap rounds ca = some (ok, ca') ∧ Inv ⟨ca', handed⟩ free' ∧
      (ok = true → ca'.freeHead ≠ none) := by
  induction rounds generalizing ca free with
  | zero => exact absurd h.blocks (by dsimp only; omega)
  | succ rounds ih =>
    rw [CellarenaT.refill]
    by_cases hfew : ca.freeHead = none ∨ ca.freecount < ca.minfree
    · rw [if_pos hfew]
      obtain ⟨ok, ca', free', heq, hinv, hcount⟩ := h.newCellblock mmap
      rw [heq, Option.bind_some]
      cases ok with
      | false => exact ⟨false, ca', free', rfl, hinv, fun hok => by cases hok⟩
      | true => exact ih hinv (by rw [hcount rfl]; omega)
    · rw [if_neg hfew]
      exact ⟨true, ca, free, rfl, h, fun _ hnone => hfew (.inl hnone)⟩

/-- A cell that is taken off the list is handed out. -/
theorem takeCell (h : Inv ⟨ca, handed⟩ (ch :: free)) : Inv ⟨ca.takeCell ch, ch :: handed⟩ free where
  list := h.list.takeCell
  blocks := h.blocks
  cells c := by
    refine Iff.trans ?_ (h.cells c)
    simp only [List.mem_cons]
    grind
  disjoint c hc hmem := by
    have hnodup := h.list.lists.queues.nodup .freeHead
    rcases List.mem_cons.mp hmem with rfl | hmem
    · exact (List.nodup_cons.mp hnodup).1 hc
    · exact h.disjoint c (List.mem_cons_of_mem ch hc) hmem
  handed := List.nodup_cons.mpr ⟨h.disjoint ch List.mem_cons_self, h.handed⟩

/-- The cell at the head is the first of the list. -/
theorem eq_cons (h : Inv ⟨ca, handed⟩ free) (hhead : ca.freeHead = some ch) :
    ∃ rest, free = ch :: rest := by
  cases free with
  | nil => cases hhead.symm.trans h.list.freeHead_eq
  | cons first rest =>
    cases hhead.symm.trans h.list.freeHead_eq
    exact ⟨rest, rfl⟩

theorem cellmalloc (h : Inv ⟨ca, handed⟩ free) (mmap : Nat → Bool) :
    ∃ r free', ca.cellmalloc mmap = some r ∧ Inv ⟨r.2, r.1.toList ++ handed⟩ free' := by
  obtain ⟨ok, ca', free', heq, hinv, hhead⟩ := h.refill (cellblocksMax + 1) (by omega) mmap
  rw [CellarenaT.cellmalloc, heq, Option.bind_some]
  cases ok with
  | false => exact ⟨(none, ca'), free', rfl, hinv⟩
  | true =>
    cases hch : ca'.freeHead with
    | none => exact absurd hch (hhead rfl)
    | some ch =>
      obtain ⟨rest, rfl⟩ := hinv.eq_cons hch
      exact ⟨(some ch, ca'.takeCell ch), rest, by simp, hinv.takeCell⟩

/-- The order in which cells were handed out does not matter. -/
theorem perm {handed' : List CellPtr} (h : Inv ⟨ca, handed⟩ free) (hperm : handed.Perm handed') :
    Inv ⟨ca, handed'⟩ free where
  list := h.list
  blocks := h.blocks
  cells c := by
    rw [← h.cells c]
    exact or_congr_right hperm.mem_iff.symm
  disjoint c hc hmem := h.disjoint c hc (hperm.mem_iff.mpr hmem)
  handed := hperm.nodup_iff.mp h.handed

theorem cellmallocmany (h : Inv ⟨ca, handed⟩ free) (mmap : Nat → Bool) (numcells : Nat) :
    ∃ r free', ca.cellmallocmany mmap numcells = some r ∧ Inv ⟨r.2, r.1 ++ handed⟩ free' := by
  induction numcells generalizing ca handed free with
  | zero => exact ⟨([], ca), free, rfl, h⟩
  | succ numcells ih =>
    obtain ⟨ok, ca', free', heq, hinv, -⟩ := h.refill (cellblocksMax + 1) (by omega) mmap
    rw [CellarenaT.cellmallocmany, heq, Option.bind_some]
    dsimp only
    cases hch : ca'.freeHead with
    | none => exact ⟨([], ca'), free', rfl, hinv⟩
    | some ch =>
      obtain ⟨rest, rfl⟩ := hinv.eq_cons hch
      obtain ⟨r, free'', hr, hinv'⟩ := ih hinv.takeCell
      exact ⟨(ch :: r.1, r.2), free'', by simp [hr], hinv'.perm List.perm_middle⟩

/-- A cell that was handed out is put on the list. -/
theorem putCell (h : Inv ⟨ca, handed⟩ free) (hch : ch ∈ handed)
    (htail : ca.lifoPolicy = true → free ≠ []) :
    ∃ free', Inv ⟨ca.putCell ch, handed.erase ch⟩ free' ∧ free' ≠ [] := by
  have hfresh : ch ∉ free := fun hfree => h.disjoint ch hfree hch
  have hlist : ∃ free', FreeList (ca.putCell ch) free' ∧ SameBlocks ca (ca.putCell ch) ∧
      ∀ c, c ∈ free' ↔ c = ch ∨ c ∈ free := by
    by_cases hlifo : ca.lifoPolicy = true
    · refine ⟨_, h.list.putCell_lifo hfresh hlifo (htail hlifo), ?_, fun c => List.mem_cons⟩
      rw [CellarenaT.putCell, if_pos hlifo]
      exact ⟨rfl, rfl⟩
    · rw [h.list.putCell_fifo hfresh (eq_false_of_ne_true hlifo)]
      refine ⟨free ++ [ch], h.list.append hfresh, ⟨rfl, rfl⟩, fun c => ?_⟩
      rw [List.mem_append, List.mem_singleton, or_comm]
  obtain ⟨free', hlist', hblocks, hmem⟩ := hlist
  refine ⟨free', ⟨hlist', ?_, ?_, ?_, h.handed.erase ch⟩, ?_⟩
  · exact hblocks.1 ▸ h.blocks
  · intro c
    dsimp only
    rw [hblocks.1, hblocks.2, ← h.cells c, hmem, h.handed.mem_erase_iff]
    grind
  · intro c hc hmem'
    rw [h.handed.mem_erase_iff] at hmem'
    exact h.disjoint c (((hmem c).mp hc).resolve_left hmem'.1) hmem'.2
  · exact List.ne_nil_of_mem ((hmem ch).mpr (.inl rfl))

theorem putCells {array : List CellPtr} (h : Inv ⟨ca, handed⟩ free)
    (hfrees : Cells.Frees ⟨ca, handed⟩ array) (htail : ca.lifoPolicy = true → array ≠ [] → free ≠ []) :
    ∃ free', Inv ⟨ca.cellfreemany array, handed.diff array⟩ free' := by
  induction array generalizing ca handed free with
  | nil => exact ⟨free, h⟩
  | cons ch array ih =>
    obtain ⟨hnodup, hmem⟩ := hfrees
    rw [List.nodup_cons] at hnodup
    obtain ⟨free', hinv, hne⟩ := h.putCell (hmem ch List.mem_cons_self) fun hlifo =>
      htail hlifo (List.cons_ne_nil ch array)
    rw [List.diff_cons]
    refine ih hinv ⟨hnodup.2, fun c hc => ?_⟩ fun _ _ => hne
    have hne' : c ≠ ch := fun heq => hnodup.1 (heq ▸ hc)
    exact h.handed.mem_erase_iff.mpr ⟨hne', hmem c (List.mem_cons_of_mem ch hc)⟩

/-- A client may write to its cell. -/
theorem setNext (h : Inv ⟨ca, handed⟩ free) (hch : ch ∈ handed) (word : Option CellPtr) :
    Inv ⟨ca.setNext ch word, handed⟩ free where
  list := h.list.setNext (fun hfree => h.disjoint ch hfree hch) word
  blocks := h.blocks
  cells := h.cells
  disjoint := h.disjoint
  handed := h.handed

/-- A call that keeps the tail keeps the invariant, and does not crash. -/
theorem call {s : Cells} (h : s.Inv free) (mmap : Nat → Bool) {call : CellCall}
    (hkeeps : KeepsTail (some s) call) :
    ∃ s' free', s.call mmap call = some s' ∧ s'.Inv free' := by
  -- A list is empty when its head is null.
  have htail (hfrees : s.Frees call.freed) (hlifo : s.ca.lifoPolicy = true) (hfreed : call.freed ≠ []) :
      free ≠ [] := by
    intro hnil
    refine hfreed (hkeeps s rfl hlifo ?_ hfrees)
    rw [h.list.freeHead_eq, hnil]
    rfl
  cases call with
  | cellmalloc =>
    obtain ⟨r, free', heq, hinv⟩ := h.cellmalloc mmap
    exact ⟨_, free', by rw [Cells.call, heq, Option.map_some], hinv⟩
  | cellmallocmany numcells =>
    obtain ⟨r, free', heq, hinv⟩ := h.cellmallocmany mmap numcells
    exact ⟨_, free', by rw [Cells.call, heq, Option.map_some], hinv⟩
  | cellfree p =>
    rw [Cells.call]
    by_cases hfrees : s.Frees [p]
    · have hp := hfrees.2 p List.mem_cons_self
      obtain ⟨free', hinv⟩ := (h.setNext hp none).putCells hfrees fun hlifo _ =>
        htail hfrees hlifo (List.cons_ne_nil p [])
      rw [if_pos hfrees]
      exact ⟨_, free', rfl, hinv⟩
    · rw [if_neg hfrees]
      exact ⟨s, free, rfl, h⟩
  | cellfreemany array =>
    rw [Cells.call]
    by_cases hfrees : s.Frees array
    · obtain ⟨free', hinv⟩ := h.putCells hfrees (htail hfrees)
      rw [if_pos hfrees]
      exact ⟨_, free', rfl, hinv⟩
    · rw [if_neg hfrees]
      exact ⟨s, free, rfl, h⟩
  | write p word =>
    rw [Cells.call]
    by_cases hp : p ∈ s.handed
    · rw [if_pos hp]
      exact ⟨_, free, rfl, h.setNext hp word⟩
    · rw [if_neg hp]
      exact ⟨s, free, rfl, h⟩

end Cells.Inv

theorem CellsInv.step {mmap : Nat → Bool} {s : Option Cells} {call : CellCall} (h : CellsInv s)
    (hkeeps : KeepsTail s call) : CellsInv (cellStep mmap s call) := by
  obtain ⟨cells, rfl, free, hinv⟩ := h
  obtain ⟨cells', free', heq, hinv'⟩ := hinv.call mmap hkeeps
  exact ⟨cells', heq, free', hinv'⟩

/-- A cell that is put on an empty list under the LIFO policy has no tail. -/
theorem not_intact_of_lifo {s : Cells} (htail : s.ca.freeTail = none) (hhead : s.ca.freeHead ≠ none) :
    ¬CellsIntact (some s) := by
  rintro ⟨cells, heq, free, hintact⟩
  cases heq
  have hne : free ≠ [] := fun hnil => hhead (hintact.head.mpr hnil)
  have hlast := hintact.tail hne
  rw [htail, List.getLast?_eq_some_getLast hne] at hlast
  cases hlast

theorem CellsInv.breaks {mmap : Nat → Bool} {s : Option Cells} {call : CellCall} (h : CellsInv s)
    (hkeeps : ¬KeepsTail s call) : ¬CellsIntact (cellStep mmap s call) := by
  obtain ⟨cells, rfl, free, hinv⟩ := h
  have hputs : cells.ca.lifoPolicy = true ∧ cells.ca.freeHead = none ∧ cells.Frees call.freed ∧
      call.freed ≠ [] := by
    refine Classical.byContradiction fun hnot => hkeeps ?_
    intro cells' heq hlifo hhead hfrees
    cases heq
    exact Classical.byContradiction fun hne => hnot ⟨hlifo, hhead, hfrees, hne⟩
  obtain ⟨hlifo, hhead, hfrees, hne⟩ := hputs
  have htail : cells.ca.freeTail = none := by
    have hnil := List.head?_eq_none_iff.mp (hinv.list.freeHead_eq.symm.trans hhead)
    rw [hinv.list.tail, hnil]
    rfl
  cases call with
  | cellmalloc => exact absurd rfl hne
  | cellmallocmany numcells => exact absurd rfl hne
  | write p word => exact absurd rfl hne
  | cellfree p =>
    obtain ⟨htail', hhead'⟩ :=
      CellarenaT.cellfreemany_of_lifo (cells.ca.setNext p none) hlifo p []
    have hstep : cellStep mmap (some cells) (.cellfree p) =
        some ⟨cells.ca.cellfree p, cells.handed.diff [p]⟩ := congrArg some (if_pos hfrees)
    rw [hstep]
    exact not_intact_of_lifo (htail'.trans htail) hhead'
  | cellfreemany array =>
    cases array with
    | nil => exact absurd rfl hne
    | cons p array =>
      obtain ⟨htail', hhead'⟩ := CellarenaT.cellfreemany_of_lifo _ hlifo p array
      have hstep : cellStep mmap (some cells) (.cellfreemany (p :: array)) =
          some ⟨cells.ca.cellfreemany (p :: array), cells.handed.diff (p :: array)⟩ :=
        congrArg some (if_pos hfrees)
      rw [hstep]
      exact not_intact_of_lifo (htail'.trans htail) hhead'

/-! ## Runs -/

theorem Cells.Inv.cellinitLoop {mmap : Nat → Bool} {rounds : Nat} {ca ca' : CellarenaT}
    {free : List CellPtr} (h : Cells.Inv ⟨ca, []⟩ free)
    (heq : CellarenaT.cellinitLoop mmap rounds ca = some ca') :
    ∃ free', Cells.Inv ⟨ca', []⟩ free' := by
  induction rounds generalizing ca free with
  | zero => cases heq
  | succ rounds ih =>
    rw [CellarenaT.cellinitLoop] at heq
    by_cases hfew : ca.freecount < ca.minfree
    · rw [if_pos hfew] at heq
      obtain ⟨ok, next, free', hnext, hinv, -⟩ := h.newCellblock mmap
      rw [hnext, Option.bind_some] at heq
      exact ih hinv heq
    · rw [if_neg hfew] at heq
      cases heq
      exact ⟨free, h⟩

theorem Cells.Inv.emptyArena (cellsize alignment policy createkb : Nat) (minfree : Int) :
    Cells.Inv ⟨Aprsc.emptyArena cellsize alignment policy createkb minfree, []⟩ [] where
  list := ⟨⟨⟨fun _ => trivial, fun _ => List.nodup_nil, fun hn => by cases hn⟩, fun _ => rfl⟩, rfl, rfl⟩
  blocks := Nat.zero_le _
  cells ch := by simp [Aprsc.emptyArena]
  disjoint ch hch := by cases hch
  handed := List.nodup_nil

theorem cellinit_inv {mmap : Nat → Bool} {rounds cellsize alignment policy createkb : Nat}
    {minfree : Int} {ca : CellarenaT}
    (h : cellinit mmap rounds cellsize alignment policy createkb minfree = some ca) :
    CellsInv (some ⟨ca, []⟩) := by
  unfold cellinit at h
  split at h
  · cases h
  · obtain ⟨free, hinv⟩ :=
      (Cells.Inv.emptyArena cellsize alignment policy createkb minfree).cellinitLoop h
    exact ⟨_, rfl, free, hinv⟩

/-- The arena is intact in the whole run exactly if, under the LIFO policy, no call puts a
cell back while the list is empty. -/
theorem cells_intact_iff (mmap : Nat → Bool) (rounds cellsize alignment policy createkb : Nat)
    (minfree : Int) {ca : CellarenaT}
    (hca : cellinit mmap rounds cellsize alignment policy createkb minfree = some ca)
    (calls : List CellCall) :
    Always (cellStep mmap) CellsIntact (some ⟨ca, []⟩) calls ↔
      Meets (cellStep mmap) KeepsTail (some ⟨ca, []⟩) calls := by
  refine always_iff_meets_of_breaks (fun s call h hkeeps => h.step hkeeps) ?_
    (fun s call h hnot => h.breaks hnot) (cellinit_inv hca) calls
  rintro s ⟨cells, rfl, free, hinv⟩
  exact ⟨cells, rfl, free, hinv.intact⟩

/-- Four cells fit in a block. The list has cells left when one is put back. -/
theorem cells_intact_four :
    ∃ ca, cellinit (fun _ => true) 2 256 8 1 1 1 = some ca ∧
      Always (cellStep fun _ => true) CellsIntact (some ⟨ca, []⟩)
        [.cellmalloc, .cellfree ⟨0, 0⟩, .cellmallocmany 2] := by
  refine ⟨_, rfl, (cells_intact_iff (fun _ => true) 2 256 8 1 1 1 rfl _).mpr ⟨?_, ?_, ?_, trivial⟩⟩
  · exact fun _ _ _ _ _ => rfl
  · intro cells heq _ hhead
    cases heq
    exact absurd hhead (by decide +kernel)
  · exact fun _ _ _ _ _ => rfl

/-- Memory for a third and a fourth block is not there at first. -/
private def lowMemory (n : Nat) : Bool := n ≠ 2 && n ≠ 3

/-- Two cells are handed out and the list is empty. One is put back without a tail, and the
next block is appended to it. -/
theorem cells_null_tail :
    ∃ ca, cellinit lowMemory 3 1024 8 1 1 2 = some ca ∧
      run (cellStep lowMemory) (some ⟨ca, []⟩)
        [.cellmallocmany 3, .cellfree ⟨0, 0⟩, .cellmalloc] = none ∧
      ¬Always (cellStep lowMemory) CellsIntact (some ⟨ca, []⟩)
        [.cellmallocmany 3, .cellfree ⟨0, 0⟩, .cellmalloc] := by
  refine ⟨_, rfl, rfl, fun halways => ?_⟩
  obtain ⟨cells, heq, -⟩ := halways.last
  cases heq

end Aprsc
