-- SUMMARY: The heard lists of all clients over one arena of cells, and which of them go through a live upgrade.
import Aprsc.Cellmalloc
import Aprsc.Server.Tables
import Mathlib.Logic.Function.Basic

/-!
# Heard lists in a live upgrade

The entries of all heard lists and courtesy lists are cells of one arena. A cell that is
freed goes to the end of the queue of free cells with its contents, and it is handed out
again with them. An entry knows the length of its callsign, but the dump for a live
upgrade takes the callsign as a C string. The two agree if the cell had a zero after the
callsign.
-/

namespace Aprsc

open Runs

/-! ## The arena -/

/-- The size of the `callsign` field. -/
def heardFieldSize : Nat := callsignlenMax + 1

/-- The callsign field of a cell of a new block, which comes from `mmap`. -/
def newCell : Bytes := List.replicate heardFieldSize 0

/-- Cells of 48 bytes in a block of 512 kB. -/
def cellsPerBlock : Nat := 512 * 1024 / 48

/-- `client_heard_cells`: the callsign fields of the free cells, the next one to be handed
out in front. -/
structure HeardCells where
  free : List Bytes
  cellblocksCount : Nat

def HeardCells.init : HeardCells := ⟨[], 0⟩

/-- `new_cellblock`. -/
def newCellblock (mmap : Bool) (ca : HeardCells) : Option HeardCells :=
  if ca.cellblocksCount ≥ cellblocksMax then none
  else if !mmap then none
  else some ⟨ca.free ++ List.replicate cellsPerBlock newCell, ca.cellblocksCount + 1⟩

/-- `cellmalloc`: a cell, if there is one, and the arena. -/
def cellmalloc (mmap : Bool) (ca : HeardCells) : Option Bytes × HeardCells :=
  match ca.free with
  | cell :: free => (some cell, { ca with free })
  | [] =>
      match newCellblock mmap ca with
      | none => (none, ca)
      | some ca => (ca.free.head?, { ca with free := ca.free.tail })

/-- `cellfree`, under the policy of this arena. -/
def cellfree (ca : HeardCells) (cell : Bytes) : HeardCells := { ca with free := ca.free ++ [cell] }

/-- The cells are freed one after another. -/
def freeEntries (ca : HeardCells) (hs : List ClientHeard) : HeardCells :=
  hs.foldl (fun ca h => cellfree ca h.callsign) ca

/-! ## The lists and the arena -/

/-- The entries of the buckets that are used, from the first bucket on. -/
def HeardList.entries (l : HeardList) : List ClientHeard :=
  (List.range clientHeardBuckets).flatMap l.list

/-- `heard_list_update` gets as far as `cellmalloc`. -/
def HeardList.inserts (l : HeardList) (call : Bytes) : Bool :=
  let hash := keyhashuc call 0
  ((l.list (heardIndex hash)).find? (·.isCall hash call)).isNone &&
    l.entrycount < maxHeardPerClient

/-- `heard_list_update` with the arena it takes a new cell from. -/
def heardUpdate (mmap : Bool) (call : Bytes) (t : Int) (l : HeardList) (ca : HeardCells) :
    HeardList × HeardCells :=
  if l.inserts call then
    (heardListUpdate (cellmalloc mmap ca).1 call t l, (cellmalloc mmap ca).2)
  else (heardListUpdate none call t l, ca)

/-- An entry has expired. -/
def ClientHeard.old (storetime tick : Int) (h : ClientHeard) : Bool :=
  h.lastHeard < tick - storetime || h.lastHeard > tick

/-- `heard_expire_single` with the arena that gets the cells. -/
def heardExpire (storetime tick : Int) (l : HeardList) (ca : HeardCells) : HeardList × HeardCells :=
  (heardExpireSingle storetime tick l, freeEntries ca (l.entries.filter (·.old storetime tick)))

/-- `heard_find` with `drop_if_found`. -/
def heardDrop (callsign : Bytes) (hash : UInt32) (l : HeardList) (ca : HeardCells) :
    HeardList × HeardCells :=
  let i := heardIndex hash
  match (l.list i).find? (·.isCall hash callsign) with
  | none => (l, ca)
  | some h =>
      ({ l.setBucket i ((l.list i).eraseP (·.isCall hash callsign)) with
          entrycount := l.entrycount - 1 }, cellfree ca h.callsign)

/-- `heard_free_single`, and the count of `client_heard_free`. -/
def heardFree (l : HeardList) (ca : HeardCells) : HeardList × HeardCells :=
  ({ list := fun i => if i < clientHeardBuckets then [] else l.list i, entrycount := 0 },
    freeEntries ca l.entries)

/-! ## Runs -/

/-- A callsign as the parser passes it: at most nine bytes, none of them NUL. -/
structure HeardCall where
  call : Bytes
  length_le : call.length ≤ callsignlenMax
  no_nul : (0 : UInt8) ∉ call

/-- The lists of all clients and the arena. -/
structure HeardState where
  cells : HeardCells
  heard : Nat → HeardList
  courtesy : Nat → HeardList

def HeardState.init : HeardState := ⟨.init, fun _ => .init, fun _ => .init⟩

/-- The calls on the lists of client `c`. -/
inductive HeardEvent where
  /-- `client_heard_update`, with what `mmap` says if it is called. -/
  | heardUpdate (c : Nat) (call : HeardCall) (t : Int) (mmap : Bool)
  | courtesyUpdate (c : Nat) (call : HeardCall) (t : Int) (mmap : Bool)
  | courtesyNeeded (c : Nat) (srcname : Bytes) (hash : UInt32)
  | expire (c : Nat) (heardStoretime courtesyStoretime tick : Int)
  | free (c : Nat)

/-- Change the heard list of a client. -/
def HeardState.onHeard (s : HeardState) (c : Nat)
    (f : HeardList → HeardCells → HeardList × HeardCells) : HeardState :=
  let r := f (s.heard c) s.cells
  { s with heard := Function.update s.heard c r.1, cells := r.2 }

/-- Change the courtesy list of a client. -/
def HeardState.onCourtesy (s : HeardState) (c : Nat)
    (f : HeardList → HeardCells → HeardList × HeardCells) : HeardState :=
  let r := f (s.courtesy c) s.cells
  { s with courtesy := Function.update s.courtesy c r.1, cells := r.2 }

def HeardState.step (s : HeardState) : HeardEvent → HeardState
  | .heardUpdate c call t mmap => s.onHeard c (Aprsc.heardUpdate mmap call.call t)
  | .courtesyUpdate c call t mmap => s.onCourtesy c (Aprsc.heardUpdate mmap call.call t)
  | .courtesyNeeded c srcname hash => s.onCourtesy c (heardDrop srcname hash)
  | .expire c heardStoretime courtesyStoretime tick =>
      (s.onHeard c (heardExpire heardStoretime tick)).onCourtesy c
        (heardExpire courtesyStoretime tick)
  | .free c => (s.onHeard c heardFree).onCourtesy c heardFree

/-! ## Dump and load -/

/-- The callsign of an entry. -/
def ClientHeard.call (h : ClientHeard) : Bytes := h.callsign.take h.callLen

/-- `client_heard_json`: the entries as C strings. -/
def clientHeardJson (l : HeardList) : List Bytes := l.entries.map fun h => cString h.callsign

/-- `client_heard_json_load`, from item `i` on. There is memory for each item, with the
contents of `cell`. -/
def clientHeardJsonLoad (cell : Nat → Bytes) (tick : Int) :
    (i : Nat) → (dump : List Bytes) → HeardList → HeardList
  | _, [], l => l
  | i, s :: dump, l =>
      clientHeardJsonLoad cell tick (i + 1) dump (heardListUpdate (some (cell i)) s tick l)

/-- The callsigns of a list. -/
def HeardList.calls (l : HeardList) : Set Bytes := {call | ∃ h ∈ l.entries, h.call = call}

/-- The list that is loaded into an empty client has the same callsigns. -/
def HeardList.Survives (l : HeardList) : Prop :=
  ∀ cell tick, (∀ i, (cell i).length = heardFieldSize) →
    (clientHeardJsonLoad cell tick 0 (clientHeardJson l) .init).calls = l.calls

/-- The heard list of each client survives a live upgrade. -/
def HeardState.Survives (s : HeardState) : Prop := ∀ c, (s.heard c).Survives

/-! ## Entries -/

/-- A new entry in a cell. -/
def newEntry (cell call : Bytes) (t : Int) : ClientHeard :=
  ⟨keyhashuc call 0, call.length, t, heardCallsign cell call⟩

/-- The list with a new entry in front of its bucket. -/
def HeardList.insertEntry (l : HeardList) (cell call : Bytes) (t : Int) : HeardList :=
  { l.setBucket (heardIndex (keyhashuc call 0))
      (newEntry cell call t :: l.list (heardIndex (keyhashuc call 0))) with
    entrycount := l.entrycount + 1 }

/-- The entry of a callsign. -/
def HeardList.lookup (l : HeardList) (call : Bytes) : Option ClientHeard :=
  (l.list (heardIndex (keyhashuc call 0))).find? (·.isCall (keyhashuc call 0) call)

/-- The list with an entry that was found in front of its bucket. -/
def HeardList.refreshEntry (l : HeardList) (call : Bytes) (h : ClientHeard) (t : Int) : HeardList :=
  l.setBucket (heardIndex (keyhashuc call 0))
    ({ h with lastHeard := t } ::
      (l.list (heardIndex (keyhashuc call 0))).eraseP (·.isCall (keyhashuc call 0) call))

/-- The entries with one bucket changed. -/
theorem HeardList.entries_setBucket (l : HeardList) {i : Nat} (hi : i < clientHeardBuckets) :
    ∃ before after, ∀ chain, (l.setBucket i chain).entries = before ++ chain ++ after := by
  have hrange : List.range clientHeardBuckets =
      List.range i ++ i :: (List.range (clientHeardBuckets - i - 1)).map (i + 1 + ·) := by
    have hsum : clientHeardBuckets = i + (1 + (clientHeardBuckets - i - 1)) := by omega
    conv_lhs => rw [hsum, List.range_add, List.range_add]
    simp [List.range_succ, Function.comp_def, Nat.add_assoc]
  refine ⟨(List.range i).flatMap l.list,
    ((List.range (clientHeardBuckets - i - 1)).map (i + 1 + ·)).flatMap l.list, fun chain => ?_⟩
  have hbefore : (List.range i).flatMap (l.setBucket i chain).list =
      (List.range i).flatMap l.list := by
    refine List.flatMap_congr fun j hj => ?_
    have hlt := List.mem_range.mp hj
    simp [setBucket, Nat.ne_of_lt hlt]
  have hafter : ((List.range (clientHeardBuckets - i - 1)).map (i + 1 + ·)).flatMap
      (l.setBucket i chain).list =
      ((List.range (clientHeardBuckets - i - 1)).map (i + 1 + ·)).flatMap l.list := by
    refine List.flatMap_congr fun j hj => ?_
    obtain ⟨k, -, rfl⟩ := List.mem_map.mp hj
    have hne : i + 1 + k ≠ i := by omega
    simp [setBucket, hne]
  rw [entries, hrange, List.flatMap_append, List.flatMap_cons, hbefore, hafter, List.append_assoc]
  simp [setBucket]

theorem HeardList.setBucket_self (l : HeardList) (i : Nat) : l.setBucket i (l.list i) = l := by
  have hlist : (fun j => if j = i then l.list i else l.list j) = l.list := by
    funext j
    split
    · rename_i h
      rw [h]
    · rfl
  rw [setBucket, hlist]

theorem heardIndex_lt (hash : UInt32) : heardIndex hash < clientHeardBuckets :=
  Nat.mod_lt _ (by decide)

/-- What `heard_list_update` can do: refresh an entry, nothing, or insert one. -/
theorem heardListUpdate_cases (cell? : Option Bytes) (call : Bytes) (t : Int) (l : HeardList) :
    (∃ h, l.lookup call = some h ∧ heardListUpdate cell? call t l = l.refreshEntry call h t) ∨
    ((l.inserts call = false ∨ cell? = none) ∧ heardListUpdate cell? call t l = l) ∨
    ∃ cell, cell? = some cell ∧ l.lookup call = none ∧ l.entrycount < maxHeardPerClient ∧
      heardListUpdate cell? call t l = l.insertEntry cell call t := by
  unfold heardListUpdate HeardList.inserts HeardList.lookup
  cases hfind : (l.list (heardIndex (keyhashuc call 0))).find? (·.isCall (keyhashuc call 0) call) with
  | some h => exact .inl ⟨h, rfl, by simp [hfind, HeardList.refreshEntry]⟩
  | none =>
    by_cases hfull : l.entrycount ≥ maxHeardPerClient
    · exact .inr (.inl ⟨.inl (by simp [hfind, hfull]), by simp [hfind, hfull]⟩)
    · cases cell? with
      | none => exact .inr (.inl ⟨.inr rfl, by simp [hfind]⟩)
      | some cell =>
        refine .inr (.inr ⟨cell, rfl, rfl, by omega, ?_⟩)
        simp [hfind, hfull, newEntry, HeardList.insertEntry]

theorem HeardList.inserts_iff {l : HeardList} {call : Bytes} :
    l.inserts call = true ↔ l.lookup call = none ∧ l.entrycount < maxHeardPerClient := by
  simp [inserts, lookup]

/-! ## Well-formed lists -/

/-- Two callsigns differ in more than their case. -/
def Distinct (a b : Bytes) : Prop := caseEq a b = false

/-- An entry is in the bucket of its callsign, and its field is a C string. -/
structure ClientHeard.Wf (h : ClientHeard) (i : Nat) : Prop where
  field : h.callsign.length = heardFieldSize
  last : h.callsign[callsignlenMax]? = some 0
  len : h.callLen ≤ callsignlenMax
  no_nul : (0 : UInt8) ∉ h.call
  hash_eq : h.hash = keyhashuc h.call 0
  index_eq : heardIndex h.hash = i

/-- The entries are well-formed, no callsign is there twice, and they are counted. -/
structure HeardList.Wf (l : HeardList) : Prop where
  entry : ∀ i, ∀ h ∈ l.list i, h.Wf i
  distinct : (l.entries.map ClientHeard.call).Pairwise Distinct
  count : l.entrycount = l.entries.length
  count_le : l.entrycount ≤ maxHeardPerClient

/-- The cells of the arena have the size of the field. -/
def HeardCells.Wf (ca : HeardCells) : Prop := ∀ cell ∈ ca.free, cell.length = heardFieldSize

theorem Distinct.symm {a b : Bytes} (h : Distinct a b) : Distinct b a := by
  unfold Distinct caseEq at *
  rwa [Bool.beq_comm]

theorem ClientHeard.Wf.length_call {h : ClientHeard} {i : Nat} (hwf : h.Wf i) :
    h.call.length = h.callLen := by
  have hfield := hwf.field
  have hlen := hwf.len
  unfold heardFieldSize at hfield
  rw [call, List.length_take]
  omega

/-- A text that is equal to one without a NUL has none. -/
theorem no_nul_of_caseEq {a b : Bytes} (h : caseEq a b = true) (hb : (0 : UInt8) ∉ b) :
    (0 : UInt8) ∉ a := by
  intro ha
  have hmem : toupper 0 ∈ b.map toupper := by
    rw [← caseEq_iff.mp h]
    exact List.mem_map_of_mem ha
  obtain ⟨x, hx, heq⟩ := List.mem_map.mp hmem
  obtain rfl := toupper_eq_zero.mp heq
  exact hb hx

/-- The comparison of `heard_list_update` and `heard_find`. -/
theorem ClientHeard.Wf.isCall_iff {h : ClientHeard} {i : Nat} (hwf : h.Wf i) {hash : UInt32}
    {call : Bytes} : h.isCall hash call = true ↔ h.hash = hash ∧ caseEq call h.call = true := by
  have hnul := hwf.no_nul
  unfold isCall
  simp only [Bool.and_eq_true, beq_iff_eq]
  rw [← ClientHeard.call, cString_eq_self hnul]
  constructor
  · rintro ⟨⟨hhash, hlen⟩, heq⟩
    -- The C string has the length of the entry, so it is the whole callsign.
    have hcall : cString call = call := by
      refine (List.takeWhile_prefix _).eq_of_length ?_
      rw [hlen, ← hwf.length_call, ← length_eq_of_caseEq heq]
      rfl
    rw [hcall] at heq
    exact ⟨hhash, heq⟩
  · rintro ⟨hhash, heq⟩
    rw [cString_eq_self (no_nul_of_caseEq heq hnul)]
    exact ⟨⟨hhash, (length_eq_of_caseEq heq).trans hwf.length_call⟩, heq⟩

/-- With the hash of the callsign nothing else has to be compared. -/
theorem ClientHeard.Wf.isCall_keyhashuc {h : ClientHeard} {i : Nat} (hwf : h.Wf i) {call : Bytes} :
    h.isCall (keyhashuc call 0) call = true ↔ caseEq call h.call = true := by
  rw [hwf.isCall_iff, and_iff_right_iff_imp]
  intro heq
  rw [hwf.hash_eq, keyhashuc_congr heq]

/-- The entries of a list are in the buckets that are used. -/
theorem HeardList.Wf.mem_entries {l : HeardList} (hl : l.Wf) {h : ClientHeard} :
    h ∈ l.entries ↔ ∃ i, h ∈ l.list i := by
  simp only [entries, List.mem_flatMap, List.mem_range]
  constructor
  · rintro ⟨i, -, hmem⟩
    exact ⟨i, hmem⟩
  · rintro ⟨i, hmem⟩
    exact ⟨i, (hl.entry i h hmem).index_eq ▸ heardIndex_lt h.hash, hmem⟩

theorem HeardList.entries_init : HeardList.init.entries = [] := by
  simp [entries, init]

theorem HeardList.wf_init : HeardList.init.Wf where
  entry := by simp [init]
  distinct := by simp [entries_init]
  count := by rw [entries_init]; rfl
  count_le := by simp [init]

/-! ## What the operations keep -/

/-- The entry that is found, and the others. -/
theorem eraseP_of_find? {α : Type} {p : α → Bool} {xs : List α} {x : α}
    (h : xs.find? p = some x) : ∃ as bs, xs = as ++ x :: bs ∧ xs.eraseP p = as ++ bs := by
  obtain ⟨hx, as, bs, rfl, has⟩ := List.find?_eq_some_iff_append.mp h
  refine ⟨as, bs, rfl, ?_⟩
  have hno : ∀ a ∈ as, ¬p a = true := by simpa using has
  rw [List.eraseP_append_right _ hno, List.eraseP_cons_of_pos hx]

/-- The entries of a list around one of its buckets. -/
theorem HeardList.exists_entries (l : HeardList) {i : Nat} (hi : i < clientHeardBuckets) :
    ∃ before after, l.entries = before ++ l.list i ++ after ∧
      ∀ chain, (l.setBucket i chain).entries = before ++ chain ++ after := by
  obtain ⟨before, after, hset⟩ := l.entries_setBucket hi
  refine ⟨before, after, ?_, hset⟩
  have hself := hset (l.list i)
  rwa [l.setBucket_self i] at hself

theorem HeardList.entry_setBucket {l : HeardList} {i : Nat} {chain : List ClientHeard}
    (hl : ∀ j, ∀ h ∈ l.list j, h.Wf j) (hchain : ∀ h ∈ chain, h.Wf i) :
    ∀ j, ∀ h ∈ (l.setBucket i chain).list j, h.Wf j := by
  intro j h hmem
  simp only [setBucket] at hmem
  split at hmem
  · rename_i hj
    rw [hj]
    exact hchain h hmem
  · exact hl j h hmem

/-- The field holds the callsign, and after it what the cell held there before. -/
theorem heardCallsign_eq (cell : Bytes) {call : Bytes} (hnul : (0 : UInt8) ∉ call) :
    heardCallsign cell call = (call ++ cell.drop call.length).set callsignlenMax 0 := by
  simp [heardCallsign, cString_eq_self hnul]

theorem call_newEntry (cell : Bytes) {call : Bytes} (hlen : call.length ≤ callsignlenMax)
    (hnul : (0 : UInt8) ∉ call) (t : Int) : (newEntry cell call t).call = call := by
  rw [ClientHeard.call, newEntry, heardCallsign_eq cell hnul, List.take_set_of_le hlen,
    List.take_left]

theorem newEntry_wf {cell call : Bytes} (t : Int) (hcell : cell.length = heardFieldSize)
    (hlen : call.length ≤ callsignlenMax) (hnul : (0 : UInt8) ∉ call) :
    (newEntry cell call t).Wf (heardIndex (keyhashuc call 0)) := by
  have hfield : (call ++ cell.drop call.length).length = heardFieldSize := by
    rw [List.length_append, List.length_drop, hcell]
    unfold heardFieldSize
    omega
  have hcall := call_newEntry cell hlen hnul t
  refine ⟨?_, ?_, hlen, ?_, ?_, rfl⟩
  · rw [newEntry, heardCallsign_eq cell hnul, List.length_set, hfield]
  · rw [newEntry, heardCallsign_eq cell hnul, List.getElem?_set_self]
    rw [hfield, heardFieldSize]
    omega
  · rwa [hcall]
  · rw [hcall]
    rfl

theorem entries_heardExpireSingle (storetime tick : Int) (l : HeardList) :
    (heardExpireSingle storetime tick l).entries = l.entries.filter (! ·.old storetime tick) := by
  simp only [HeardList.entries, List.filter_flatMap]
  refine List.flatMap_congr fun i hi => ?_
  simp [heardExpireSingle, List.mem_range.mp hi, ClientHeard.old]

section
variable {l : HeardList} (hl : l.Wf)
include hl

/-- An entry is refreshed. -/
theorem HeardList.Wf.refreshEntry {call : Bytes} {h : ClientHeard} (t : Int)
    (hfind : l.lookup call = some h) :
    (l.refreshEntry call h t).Wf ∧
    ∃ as bs, l.entries = as ++ h :: bs ∧
      (l.refreshEntry call h t).entries.Perm (as ++ { h with lastHeard := t } :: bs) := by
  obtain ⟨before, after, hentries, hset⟩ := l.exists_entries (heardIndex_lt (keyhashuc call 0))
  obtain ⟨as, bs, hchain, herase⟩ := eraseP_of_find? hfind
  have hwf := hl.entry _ h (List.mem_of_find?_eq_some hfind)
  have hwf' : ({ h with lastHeard := t } : ClientHeard).Wf (heardIndex (keyhashuc call 0)) :=
    ⟨hwf.field, hwf.last, hwf.len, hwf.no_nul, hwf.hash_eq, hwf.index_eq⟩
  have hperm : (l.refreshEntry call h t).entries.Perm
      ((before ++ as) ++ { h with lastHeard := t } :: (bs ++ after)) := by
    have hmid : List.Perm ({ h with lastHeard := t } :: (as ++ bs))
        (as ++ { h with lastHeard := t } :: bs) := List.perm_middle.symm
    rw [HeardList.refreshEntry, hset, herase]
    simpa using (hmid.append_left before).append_right after
  have hcalls : ((l.refreshEntry call h t).entries.map ClientHeard.call).Perm
      (l.entries.map ClientHeard.call) := by
    refine (hperm.map _).trans ?_
    rw [hentries, hchain]
    simp [ClientHeard.call]
  refine ⟨⟨?_, ?_, ?_, hl.count_le⟩, before ++ as, bs ++ after, ?_, hperm⟩
  · refine HeardList.entry_setBucket hl.entry fun g hg => ?_
    obtain rfl | hg := List.mem_cons.mp hg
    · exact hwf'
    · exact hl.entry _ g (List.mem_of_mem_eraseP hg)
  · exact (hcalls.pairwise_iff Distinct.symm).mpr hl.distinct
  · have hlen := hcalls.length_eq
    rw [List.length_map, List.length_map] at hlen
    rw [hlen]
    exact hl.count
  · rw [hentries, hchain]
    simp

/-- A callsign that is not found is in no bucket: its hash is another one there. -/
theorem HeardList.Wf.distinct_of_lookup {call : Bytes} (hfind : l.lookup call = none) :
    ∀ g ∈ l.entries, Distinct call g.call := by
  intro g hg
  by_contra heq
  rw [Distinct, Bool.not_eq_false] at heq
  obtain ⟨j, hj⟩ := hl.mem_entries.mp hg
  have hwf := hl.entry j g hj
  have hindex : heardIndex (keyhashuc call 0) = j := by
    rw [keyhashuc_congr heq, ← hwf.hash_eq, hwf.index_eq]
  have hnone := List.find?_eq_none.mp hfind g (by rwa [hindex])
  exact hnone (hwf.isCall_keyhashuc.mpr heq)

/-- An entry is inserted for a callsign that was not found. -/
theorem HeardList.Wf.insertEntry {cell call : Bytes} (t : Int)
    (hcell : cell.length = heardFieldSize) (hlen : call.length ≤ callsignlenMax)
    (hnul : (0 : UInt8) ∉ call) (hroom : l.entrycount < maxHeardPerClient)
    (hfind : l.lookup call = none) :
    (l.insertEntry cell call t).Wf ∧
    ∃ as bs, l.entries = as ++ bs ∧
      (l.insertEntry cell call t).entries = as ++ newEntry cell call t :: bs := by
  obtain ⟨before, after, hentries, hset⟩ := l.exists_entries (heardIndex_lt (keyhashuc call 0))
  have hinsert : (l.insertEntry cell call t).entries = before ++ newEntry cell call t ::
      (l.list (heardIndex (keyhashuc call 0)) ++ after) :=
    (hset _).trans (by simp)
  have hperm : (l.insertEntry cell call t).entries.Perm (newEntry cell call t :: l.entries) := by
    rw [hinsert, hentries, List.append_assoc]
    exact List.perm_middle
  refine ⟨⟨?_, ?_, ?_, hroom⟩, before, l.list (heardIndex (keyhashuc call 0)) ++ after, ?_, hinsert⟩
  · refine HeardList.entry_setBucket hl.entry fun g hg => ?_
    obtain rfl | hg := List.mem_cons.mp hg
    · exact newEntry_wf t hcell hlen hnul
    · exact hl.entry _ g hg
  · refine ((hperm.map _).pairwise_iff Distinct.symm).mpr ?_
    rw [List.map_cons, List.pairwise_cons, call_newEntry cell hlen hnul t]
    refine ⟨fun c hc => ?_, hl.distinct⟩
    obtain ⟨g, hg, rfl⟩ := List.mem_map.mp hc
    exact hl.distinct_of_lookup hfind g hg
  · rw [hperm.length_eq, List.length_cons, ← hl.count]
    rfl
  · rw [hentries, List.append_assoc]

/-- Entries are removed and counted. -/
theorem HeardList.Wf.sub {l' : HeardList} (hlist : ∀ i, l'.list i ⊆ l.list i)
    (hsub : l'.entries.Sublist l.entries) (hcount : l'.entrycount = l'.entries.length) :
    l'.Wf where
  entry i h hmem := hl.entry i h (hlist i hmem)
  distinct := hl.distinct.sublist (hsub.map _)
  count := hcount
  count_le := by
    have hlen := hsub.length_le
    have hcount := hl.count
    have hle := hl.count_le
    omega

theorem HeardList.Wf.expire (storetime tick : Int) :
    (heardExpireSingle storetime tick l).Wf := by
  have hentries := entries_heardExpireSingle storetime tick l
  refine hl.sub (fun i => ?_) ?_ ?_
  · simp only [heardExpireSingle]
    split
    · exact List.filter_subset_self _
    · exact List.Subset.refl _
  · rw [hentries]
    exact List.filter_sublist
  · have hsum : ((List.range clientHeardBuckets).map fun i =>
        (l.list i).countP (ClientHeard.old storetime tick)).sum =
          l.entries.countP (ClientHeard.old storetime tick) := by
      rw [HeardList.entries, List.countP_flatMap]
      rfl
    have hsplit := @List.length_eq_countP_add_countP _ (ClientHeard.old storetime tick) l.entries
    have hcount := hl.count
    have hnot : l.entries.countP (! ·.old storetime tick) =
        l.entries.countP (fun h => decide ¬h.old storetime tick = true) :=
      congrArg (l.entries.countP ·) (funext fun h => by simp)
    rw [hentries, ← List.countP_eq_length_filter, hnot]
    change l.entrycount - ((List.range clientHeardBuckets).map fun i =>
      (l.list i).countP (ClientHeard.old storetime tick)).sum = _
    omega

theorem HeardList.Wf.drop (callsign : Bytes) (hash : UInt32) (ca : HeardCells) :
    (heardDrop callsign hash l ca).1.Wf := by
  unfold heardDrop
  cases hfind : (l.list (heardIndex hash)).find? (·.isCall hash callsign) with
  | none => simpa [hfind] using hl
  | some h =>
    obtain ⟨before, after, hentries, hset⟩ := l.exists_entries (heardIndex_lt hash)
    obtain ⟨as, bs, hchain, herase⟩ := eraseP_of_find? hfind
    have hdropped : (l.setBucket (heardIndex hash)
        ((l.list (heardIndex hash)).eraseP (·.isCall hash callsign))).entries =
          before ++ (as ++ bs) ++ after := by rw [hset, herase]
    simp only [hfind]
    refine hl.sub (fun i => ?_) ?_ ?_
    · simp only [HeardList.setBucket]
      split
      · rename_i hi
        rw [hi]
        exact List.eraseP_subset
      · exact List.Subset.refl _
    · change (l.setBucket (heardIndex hash) _).entries.Sublist l.entries
      rw [hdropped, hentries, hchain]
      exact (((List.sublist_cons_self h bs).append_left as).append_left before).append_right after
    · have hcount := hl.count
      rw [hentries, hchain] at hcount
      refine Eq.trans ?_ (congrArg List.length hdropped).symm
      simp only [List.length_append, List.length_cons] at hcount ⊢
      omega

theorem HeardList.Wf.free (ca : HeardCells) :
    (heardFree l ca).1.Wf ∧ (heardFree l ca).1.entries = [] := by
  have hentries : (heardFree l ca).1.entries = [] := by
    simp only [HeardList.entries, List.flatMap_eq_nil_iff, List.mem_range]
    intro i hi
    simp [heardFree, hi]
  refine ⟨hl.sub (fun i => ?_) ?_ ?_, hentries⟩
  · simp only [heardFree]
    split
    · exact List.nil_subset _
    · exact List.Subset.refl _
  · rw [hentries]
    exact List.nil_sublist _
  · rw [hentries]
    rfl

end

/-! ## The cells -/

theorem HeardCells.wf_init : HeardCells.init.Wf := by
  simp [Wf, init]

theorem HeardCells.Wf.cellmalloc {ca : HeardCells} (hca : ca.Wf) (mmap : Bool) :
    (∀ cell ∈ (cellmalloc mmap ca).1, cell.length = heardFieldSize) ∧ (cellmalloc mmap ca).2.Wf := by
  unfold Aprsc.cellmalloc
  split
  · rename_i cell free hfree
    unfold Wf at hca ⊢
    rw [hfree] at hca
    exact ⟨by simpa using hca cell (by simp), fun c hc => hca c (by simp [hc])⟩
  · rename_i hfree
    split
    · exact ⟨by simp, hca⟩
    · rename_i ca' hnew
      have hcells : ∀ cell ∈ ca'.free, cell.length = heardFieldSize := by
        simp only [newCellblock, hfree] at hnew
        split at hnew
        · cases hnew
        · split at hnew
          · cases hnew
          · cases hnew
            simp [List.mem_replicate, newCell]
      exact ⟨fun c hc => hcells c (List.mem_of_mem_head? hc),
        fun c hc => hcells c (List.mem_of_mem_tail hc)⟩

theorem freeEntries_eq (ca : HeardCells) (hs : List ClientHeard) :
    freeEntries ca hs = { ca with free := ca.free ++ hs.map ClientHeard.callsign } := by
  unfold freeEntries
  induction hs generalizing ca with
  | nil => simp
  | cons h hs ih =>
    rw [List.foldl_cons, ih]
    simp [cellfree]

theorem HeardCells.Wf.freeEntries {ca : HeardCells} (hca : ca.Wf) {hs : List ClientHeard}
    (h : ∀ g ∈ hs, g.callsign.length = heardFieldSize) : (freeEntries ca hs).Wf := by
  rw [freeEntries_eq]
  intro cell hcell
  obtain hmem | hmem := List.mem_append.mp hcell
  · exact hca cell hmem
  · obtain ⟨g, hg, rfl⟩ := List.mem_map.mp hmem
    exact h g hg

theorem HeardList.Wf.field {l : HeardList} (hl : l.Wf) :
    ∀ g ∈ l.entries, g.callsign.length = heardFieldSize := by
  intro g hg
  obtain ⟨i, hi⟩ := hl.mem_entries.mp hg
  exact (hl.entry i g hi).field

/-! ## C strings -/

/-- The C string of an entry is its callsign. -/
def ClientHeard.Terminated (h : ClientHeard) : Prop := cString h.callsign = h.call

/-- All entries of a list are C strings. -/
def HeardList.Terminated (l : HeardList) : Prop := ∀ h ∈ l.entries, h.Terminated

/-- A cell holds a zero where a callsign ends, or gets one there. -/
def CleanCell (cell call : Bytes) : Prop :=
  call.length = callsignlenMax ∨ cell.getD call.length 0 = 0

theorem terminated_newEntry {cell call : Bytes} (t : Int) (hcell : cell.length = heardFieldSize)
    (hlen : call.length ≤ callsignlenMax) (hnul : (0 : UInt8) ∉ call) :
    (newEntry cell call t).Terminated ↔ CleanCell cell call := by
  unfold heardFieldSize at hcell
  rw [ClientHeard.Terminated, call_newEntry cell hlen hnul t, newEntry]
  dsimp only
  rw [heardCallsign_eq cell hnul, List.set_append_right _ _ hlen, cString_append hnul,
    List.append_right_eq_self]
  have hdrop : cell.drop call.length = cell.getD call.length 0 :: cell.drop (call.length + 1) := by
    have hlt : call.length < cell.length := by omega
    rw [List.drop_eq_getElem_cons hlt]
    simp [List.getElem?_eq_getElem hlt]
  rw [hdrop, CleanCell]
  by_cases hfull : call.length = callsignlenMax
  · simp [hfull, cString]
  · obtain ⟨k, hk⟩ : ∃ k, callsignlenMax - call.length = k + 1 :=
      ⟨callsignlenMax - call.length - 1, by omega⟩
    simp [hfull, hk, cString]

/-- What `heard_list_update` can do, with the arena. -/
theorem heardUpdate_cases (mmap : Bool) (call : Bytes) (t : Int) (l : HeardList) (ca : HeardCells) :
    (∃ h, l.lookup call = some h ∧ heardUpdate mmap call t l ca = (l.refreshEntry call h t, ca)) ∨
    ((heardUpdate mmap call t l ca).1 = l ∧
      ((heardUpdate mmap call t l ca).2 = ca ∨
        (heardUpdate mmap call t l ca).2 = (cellmalloc mmap ca).2) ∧
      (l.inserts call = false ∨ (cellmalloc mmap ca).1 = none)) ∨
    ∃ cell, (cellmalloc mmap ca).1 = some cell ∧ l.lookup call = none ∧
      l.entrycount < maxHeardPerClient ∧
      heardUpdate mmap call t l ca = (l.insertEntry cell call t, (cellmalloc mmap ca).2) := by
  unfold heardUpdate
  by_cases hins : l.inserts call = true
  · obtain ⟨hnone, -⟩ := HeardList.inserts_iff.mp hins
    rw [if_pos hins]
    obtain ⟨h, hfind, -⟩ | ⟨hno, heq⟩ | ⟨cell, hcell, hfind, hroom, heq⟩ :=
      heardListUpdate_cases (cellmalloc mmap ca).1 call t l
    · rw [hnone] at hfind
      cases hfind
    · exact .inr (.inl ⟨heq, .inr rfl, hno⟩)
    · exact .inr (.inr ⟨cell, hcell, hfind, hroom, by rw [heq]⟩)
  · rw [if_neg hins]
    obtain ⟨h, hfind, heq⟩ | ⟨-, heq⟩ | ⟨cell, hcell, -⟩ := heardListUpdate_cases none call t l
    · exact .inl ⟨h, hfind, by rw [heq]⟩
    · exact .inr (.inl ⟨heq, .inl rfl, .inl (by simpa using hins)⟩)
    · cases hcell

section
variable {l : HeardList} {ca : HeardCells} (hl : l.Wf) (hca : ca.Wf)
include hl hca

theorem heardUpdate_wf (mmap : Bool) (call : HeardCall) (t : Int) :
    (heardUpdate mmap call.call t l ca).1.Wf ∧ (heardUpdate mmap call.call t l ca).2.Wf := by
  obtain ⟨hcells, hca'⟩ := hca.cellmalloc mmap
  obtain ⟨h, hfind, heq⟩ | ⟨heq, harena, -⟩ | ⟨cell, hcell, hfind, hroom, heq⟩ :=
    heardUpdate_cases mmap call.call t l ca
  · rw [heq]
    exact ⟨(hl.refreshEntry t hfind).1, hca⟩
  · rw [heq]
    obtain harena | harena := harena
    · exact ⟨hl, by rwa [harena]⟩
    · exact ⟨hl, by rwa [harena]⟩
  · rw [heq]
    exact ⟨(hl.insertEntry t (hcells cell hcell) call.length_le call.no_nul hroom hfind).1, hca'⟩

/-- An update keeps the entries C strings if and only if it gets a clean cell. -/
theorem heardUpdate_terminated (mmap : Bool) (call : HeardCall) (t : Int) (hterm : l.Terminated) :
    (heardUpdate mmap call.call t l ca).1.Terminated ↔
      (l.inserts call.call = true → ∀ cell ∈ (cellmalloc mmap ca).1, CleanCell cell call.call) := by
  obtain ⟨hcells, -⟩ := hca.cellmalloc mmap
  obtain ⟨h, hfind, heq⟩ | ⟨heq, -, hno⟩ | ⟨cell, hcell, hfind, hroom, heq⟩ :=
    heardUpdate_cases mmap call.call t l ca
  · rw [heq]
    obtain ⟨-, as, bs, hentries, hperm⟩ := hl.refreshEntry t hfind
    refine iff_of_true (fun g hg => ?_) (fun hins => ?_)
    · obtain hg | rfl | hg : g ∈ as ∨ g = { h with lastHeard := t } ∨ g ∈ bs := by
        simpa using hperm.mem_iff.mp hg
      · exact hterm g (by simp [hentries, hg])
      · exact hterm h (by simp [hentries])
      · exact hterm g (by simp [hentries, hg])
    · obtain ⟨hnone, -⟩ := HeardList.inserts_iff.mp hins
      rw [hnone] at hfind
      cases hfind
  · rw [heq]
    refine iff_of_true hterm fun hins => ?_
    obtain hno | hno := hno
    · rw [hins] at hno
      cases hno
    · simp [hno]
  · rw [heq]
    obtain ⟨-, as, bs, hentries, hinsert⟩ :=
      hl.insertEntry t (hcells cell hcell) call.length_le call.no_nul hroom hfind
    have hnew := terminated_newEntry t (hcells cell hcell) call.length_le call.no_nul
    constructor
    · intro h _ cell' hcell'
      obtain rfl : cell = cell' := Option.some.inj (hcell.symm.trans hcell')
      exact hnew.mp (h _ (by simp [hinsert]))
    · intro h g hg
      obtain hg | rfl | hg : g ∈ as ∨ g = newEntry cell call.call t ∨ g ∈ bs := by
        simpa [hinsert] using hg
      · exact hterm g (by simp [hentries, hg])
      · exact hnew.mpr (h (HeardList.inserts_iff.mpr ⟨hfind, hroom⟩) cell hcell)
      · exact hterm g (by simp [hentries, hg])

end

end Aprsc
