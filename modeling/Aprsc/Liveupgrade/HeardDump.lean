-- SUMMARY: A heard list goes through a live upgrade exactly if every new entry of the run got a cell with a zero after the callsign.
import Aprsc.Liveupgrade.Heard
import Mathlib.Algebra.Order.BigOperators.Group.List
import Mathlib.Algebra.Order.Group.Nat
import Mathlib.Data.List.Perm.Subperm
import Mathlib.Data.Set.Insert

/-!
# Which heard lists survive

A list survives a live upgrade if and only if the C string of each entry is its callsign.
The strings of the others are longer, so no two of them can make up for each other. Over
a run this depends on the cells that the inserts get.
-/

namespace Aprsc

open Runs

/-! ## Loading -/

theorem mem_calls_insertEntry {l : HeardList} {cell call : Bytes} {t : Int} (hl : l.Wf)
    (hcell : cell.length = heardFieldSize) (hlen : call.length ≤ callsignlenMax)
    (hnul : (0 : UInt8) ∉ call) (hroom : l.entrycount < maxHeardPerClient)
    (hfind : l.lookup call = none) :
    (l.insertEntry cell call t).calls = insert call l.calls := by
  obtain ⟨-, as, bs, hentries, hinsert⟩ := hl.insertEntry t hcell hlen hnul hroom hfind
  have hcall := call_newEntry cell hlen hnul t
  ext c
  simp only [HeardList.calls, hinsert, hentries, Set.mem_ofPred_eq, Set.mem_insert_iff,
    List.mem_append, List.mem_cons]
  constructor
  · rintro ⟨h, hmem | rfl | hmem, rfl⟩
    · exact .inr ⟨h, .inl hmem, rfl⟩
    · exact .inl hcall
    · exact .inr ⟨h, .inr hmem, rfl⟩
  · rintro (rfl | ⟨h, hmem | hmem, rfl⟩)
    · exact ⟨_, .inr (.inl rfl), hcall⟩
    · exact ⟨h, .inl hmem, rfl⟩
    · exact ⟨h, .inr (.inr hmem), rfl⟩

theorem calls_refreshEntry {l : HeardList} {call : Bytes} {h : ClientHeard} {t : Int} (hl : l.Wf)
    (hfind : l.lookup call = some h) : (l.refreshEntry call h t).calls = l.calls := by
  obtain ⟨-, as, bs, hentries, hperm⟩ := hl.refreshEntry t hfind
  ext c
  simp [HeardList.calls, hperm.mem_iff, hentries, ClientHeard.call, or_and_right, exists_or]

/-- A callsign is loaded into a list. -/
theorem HeardList.Wf.load {l : HeardList} (hl : l.Wf) {cell call : Bytes}
    (hcell : cell.length = heardFieldSize) (hlen : call.length ≤ callsignlenMax)
    (hnul : (0 : UInt8) ∉ call) (tick : Int) :
    (heardListUpdate (some cell) call tick l).Wf ∧
      (heardListUpdate (some cell) call tick l).calls ⊆ insert call l.calls := by
  obtain ⟨h, hfind, heq⟩ | ⟨-, heq⟩ | ⟨c, hc, hfind, hroom, heq⟩ :=
    heardListUpdate_cases (some cell) call tick l
  · rw [heq, calls_refreshEntry hl hfind]
    exact ⟨(hl.refreshEntry tick hfind).1, Set.subset_insert _ _⟩
  · rw [heq]
    exact ⟨hl, Set.subset_insert _ _⟩
  · cases hc
    rw [heq, mem_calls_insertEntry hl hcell hlen hnul hroom hfind]
    exact ⟨(hl.insertEntry tick hcell hlen hnul hroom hfind).1, subset_rfl⟩

section
variable {cell : Nat → Bytes} (hcell : ∀ i, (cell i).length = heardFieldSize) (tick : Int)
include hcell

theorem wf_load {dump : List Bytes}
    (hdump : ∀ s ∈ dump, s.length ≤ callsignlenMax ∧ (0 : UInt8) ∉ s) (i : Nat) {l : HeardList}
    (hl : l.Wf) : (clientHeardJsonLoad cell tick i dump l).Wf := by
  induction dump generalizing i l with
  | nil => exact hl
  | cons s dump ih =>
    obtain ⟨hlen, hnul⟩ := hdump s List.mem_cons_self
    exact ih (fun s' hs' => hdump s' (List.mem_cons_of_mem s hs')) (i + 1)
      (hl.load (hcell i) hlen hnul tick).1

/-- Nothing is loaded that is not in the dump. -/
theorem calls_load_subset {dump : List Bytes}
    (hdump : ∀ s ∈ dump, s.length ≤ callsignlenMax ∧ (0 : UInt8) ∉ s) (i : Nat) {l : HeardList}
    (hl : l.Wf) : (clientHeardJsonLoad cell tick i dump l).calls ⊆ l.calls ∪ {s | s ∈ dump} := by
  induction dump generalizing i l with
  | nil => simp [clientHeardJsonLoad]
  | cons s dump ih =>
    have hrest := fun s' hs' => hdump s' (List.mem_cons_of_mem s hs')
    obtain ⟨hlen, hnul⟩ := hdump s List.mem_cons_self
    have hstep := hl.load (hcell i) hlen hnul tick
    rw [clientHeardJsonLoad]
    refine (ih hrest (i + 1) hstep.1).trans ?_
    rintro c (hc | hc)
    · obtain rfl | hc := hstep.2 hc
      · exact .inr (by simp)
      · exact .inl hc
    · exact .inr (List.mem_cons_of_mem s hc)

/-- A dump of distinct callsigns is loaded in full, if there is room for it. -/
theorem calls_load {dump : List Bytes}
    (hdump : ∀ s ∈ dump, s.length ≤ callsignlenMax ∧ (0 : UInt8) ∉ s)
    (hpair : dump.Pairwise Distinct) (i : Nat) {l : HeardList} (hl : l.Wf)
    (hroom : l.entrycount + dump.length ≤ maxHeardPerClient)
    (hnew : ∀ s ∈ dump, ∀ c ∈ l.calls, Distinct s c) :
    (clientHeardJsonLoad cell tick i dump l).calls = l.calls ∪ {s | s ∈ dump} := by
  induction dump generalizing i l with
  | nil => simp [clientHeardJsonLoad]
  | cons s dump ih =>
    obtain ⟨hlen, hnul⟩ := hdump s List.mem_cons_self
    obtain ⟨hs, hpair⟩ := List.pairwise_cons.mp hpair
    rw [List.length_cons] at hroom
    have hlookup : l.lookup s = none := by
      refine List.find?_eq_none.mpr fun h hmem hcall => ?_
      have hwf := hl.entry _ h hmem
      have hcase := hwf.isCall_keyhashuc.mp hcall
      have hdist := hnew s List.mem_cons_self h.call ⟨h, hl.mem_entries.mpr ⟨_, hmem⟩, rfl⟩
      rw [Distinct, hcase] at hdist
      cases hdist
    have hlt : l.entrycount < maxHeardPerClient := by omega
    have hupdate : heardListUpdate (some (cell i)) s tick l = l.insertEntry (cell i) s tick := by
      obtain ⟨h, hfind, -⟩ | ⟨hno, -⟩ | ⟨c, hc, -, -, heq⟩ :=
        heardListUpdate_cases (some (cell i)) s tick l
      · rw [hlookup] at hfind
        cases hfind
      · rw [HeardList.inserts_iff.mpr ⟨hlookup, hlt⟩] at hno
        simp at hno
      · cases hc
        exact heq
    have hcalls := mem_calls_insertEntry (t := tick) hl (hcell i) hlen hnul hlt hlookup
    have hwf := (hl.insertEntry tick (hcell i) hlen hnul hlt hlookup).1
    rw [clientHeardJsonLoad, hupdate,
      ih (fun s' hs' => hdump s' (List.mem_cons_of_mem s hs')) hpair (i + 1) hwf, hcalls]
    · ext c
      simp only [Set.mem_union, Set.mem_insert_iff, Set.mem_ofPred_eq, List.mem_cons]
      tauto
    · change l.entrycount + 1 + dump.length ≤ maxHeardPerClient
      omega
    · intro s' hs' c hc
      rw [hcalls] at hc
      obtain rfl | hc := hc
      · exact (hs s' hs').symm
      · exact hnew s' (List.mem_cons_of_mem s hs') c hc

end

/-! ## Lists -/

/-- The C string of an entry is its callsign and what follows up to the next zero. -/
theorem ClientHeard.Wf.cString_eq {h : ClientHeard} {i : Nat} (hwf : h.Wf i) :
    cString h.callsign = h.call ++ cString (h.callsign.drop h.callLen) := by
  rw [← cString_append hwf.no_nul, ClientHeard.call, List.take_append_drop]

theorem ClientHeard.Wf.length_cString {h : ClientHeard} {i : Nat} (hwf : h.Wf i) :
    (cString h.callsign).length ≤ callsignlenMax := by
  by_contra hlong
  have hpre : cString h.callsign <+: h.callsign := List.takeWhile_prefix _
  obtain ⟨rest, hrest⟩ := hpre
  have hget : (cString h.callsign)[callsignlenMax]? = some 0 := by
    have hlast := hwf.last
    rwa [← hrest, List.getElem?_append_left (by omega)] at hlast
  exact zero_not_mem_cString _ (List.mem_of_getElem? hget)

section
variable {l : HeardList} (hl : l.Wf)
include hl

theorem HeardList.Wf.dump_ok :
    ∀ s ∈ clientHeardJson l, s.length ≤ callsignlenMax ∧ (0 : UInt8) ∉ s := by
  intro s hs
  obtain ⟨h, hmem, rfl⟩ := List.mem_map.mp hs
  obtain ⟨i, hi⟩ := hl.mem_entries.mp hmem
  exact ⟨(hl.entry i h hi).length_cString, zero_not_mem_cString _⟩

theorem HeardList.Wf.nodup_calls : (l.entries.map ClientHeard.call).Nodup := by
  refine hl.distinct.imp fun hdist heq => ?_
  subst heq
  simp [Distinct, caseEq] at hdist

/-- If every callsign is a string of the dump, then each entry is a C string: the strings
are as many as the callsigns, and none is shorter than its callsign. -/
theorem HeardList.Wf.terminated_of_subset
    (hsub : l.entries.map ClientHeard.call ⊆ clientHeardJson l) : l.Terminated := by
  have hperm : (l.entries.map ClientHeard.call).Perm (clientHeardJson l) :=
    (hl.nodup_calls.subperm hsub).perm_of_length_le (by simp [clientHeardJson])
  have hsum : (l.entries.map fun h => h.call.length).sum =
      (l.entries.map fun h => (cString h.callsign).length).sum := by
    have hlengths := (hperm.map List.length).sum_eq
    simpa [clientHeardJson, Function.comp_def] using hlengths
  have hle : ∀ h ∈ l.entries, h.call.length ≤ (cString h.callsign).length := by
    intro h hmem
    obtain ⟨i, hi⟩ := hl.mem_entries.mp hmem
    rw [(hl.entry i h hi).cString_eq, List.length_append]
    omega
  intro h hmem
  by_contra hterm
  obtain ⟨i, hi⟩ := hl.mem_entries.mp hmem
  have hlt : h.call.length < (cString h.callsign).length := by
    refine Nat.lt_of_le_of_ne (hle h hmem) fun heq => hterm ?_
    have hcstr := (hl.entry i h hi).cString_eq
    have hrest : cString (h.callsign.drop h.callLen) = [] := by
      rw [hcstr, List.length_append] at heq
      exact List.eq_nil_of_length_eq_zero (by omega)
    rw [ClientHeard.Terminated, hcstr, hrest, List.append_nil]
  exact absurd hsum (Nat.ne_of_lt (List.sum_lt_sum _ _ hle ⟨h, hmem, hlt⟩))

/-- A list survives a live upgrade if and only if its entries are C strings. -/
theorem HeardList.Wf.survives_iff : l.Survives ↔ l.Terminated := by
  have hcalls : l.calls = {s | s ∈ l.entries.map ClientHeard.call} := by
    ext c
    simp [HeardList.calls]
  have hinit : HeardList.init.calls = ∅ := by
    ext c
    simp [HeardList.calls, HeardList.entries_init]
  constructor
  · intro h
    refine hl.terminated_of_subset fun c hc => ?_
    have hnew : ∀ _ : Nat, newCell.length = heardFieldSize := fun _ => List.length_replicate
    have hload := calls_load_subset hnew 0 hl.dump_ok 0 HeardList.wf_init
    rw [h _ 0 hnew, hinit, Set.empty_union, hcalls] at hload
    exact hload hc
  · intro hterm cell tick hcell
    have hdump : clientHeardJson l = l.entries.map ClientHeard.call :=
      List.map_congr_left hterm
    have hroom : HeardList.init.entrycount + (clientHeardJson l).length ≤ maxHeardPerClient := by
      have hcount := hl.count
      have hle := hl.count_le
      simp only [clientHeardJson, List.length_map, HeardList.init]
      omega
    rw [calls_load hcell tick hl.dump_ok (by rw [hdump]; exact hl.distinct) 0 HeardList.wf_init hroom
      (by simp [hinit]), hinit, Set.empty_union, hdump, hcalls]

end

/-! ## Runs -/

/-- All lists and the arena are well-formed. -/
structure HeardState.Wf (s : HeardState) : Prop where
  cells : s.cells.Wf
  heard : ∀ c, (s.heard c).Wf
  courtesy : ∀ c, (s.courtesy c).Wf

/-- The step does not insert an entry into a heard list whose cell holds something other
than zero where the callsign ends. -/
def HeardState.InsertsClean (s : HeardState) : HeardEvent → Prop
  | .heardUpdate c call _ mmap =>
      (s.heard c).inserts call.call = true →
        ∀ cell ∈ (cellmalloc mmap s.cells).1, CleanCell cell call.call
  | _ => True

theorem HeardState.wf_init : HeardState.init.Wf :=
  ⟨HeardCells.wf_init, fun _ => HeardList.wf_init, fun _ => HeardList.wf_init⟩

section
variable {s : HeardState} (hs : s.Wf)
include hs

theorem HeardState.Wf.onHeard {c : Nat} {f : HeardList → HeardCells → HeardList × HeardCells}
    (hf : (f (s.heard c) s.cells).1.Wf ∧ (f (s.heard c) s.cells).2.Wf) : (s.onHeard c f).Wf where
  cells := hf.2
  heard c' := by
    by_cases h : c' = c
    · subst h
      simpa [HeardState.onHeard] using hf.1
    · simpa [HeardState.onHeard, h] using hs.heard c'
  courtesy := hs.courtesy

theorem HeardState.Wf.onCourtesy {c : Nat} {f : HeardList → HeardCells → HeardList × HeardCells}
    (hf : (f (s.courtesy c) s.cells).1.Wf ∧ (f (s.courtesy c) s.cells).2.Wf) :
    (s.onCourtesy c f).Wf where
  cells := hf.2
  heard := hs.heard
  courtesy c' := by
    by_cases h : c' = c
    · subst h
      simpa [HeardState.onCourtesy] using hf.1
    · simpa [HeardState.onCourtesy, h] using hs.courtesy c'

end

section
variable {l : HeardList} {ca : HeardCells} (hl : l.Wf) (hca : ca.Wf)
include hl hca

theorem heardExpire_wf (storetime tick : Int) :
    (heardExpire storetime tick l ca).1.Wf ∧ (heardExpire storetime tick l ca).2.Wf :=
  ⟨hl.expire storetime tick, hca.freeEntries fun g hg => hl.field g (List.mem_of_mem_filter hg)⟩

theorem heardFree_wf : (heardFree l ca).1.Wf ∧ (heardFree l ca).2.Wf :=
  ⟨(hl.free ca).1, hca.freeEntries hl.field⟩

theorem heardDrop_wf (callsign : Bytes) (hash : UInt32) :
    (heardDrop callsign hash l ca).1.Wf ∧ (heardDrop callsign hash l ca).2.Wf := by
  refine ⟨hl.drop callsign hash ca, ?_⟩
  unfold heardDrop
  cases hfind : (l.list (heardIndex hash)).find? (·.isCall hash callsign) with
  | none => simpa [hfind] using hca
  | some h =>
    have hfield := (hl.entry _ h (List.mem_of_find?_eq_some hfind)).field
    simp only [hfind]
    intro cell hcell
    obtain hmem | hmem := List.mem_append.mp hcell
    · exact hca cell hmem
    · rw [List.mem_singleton.mp hmem]
      exact hfield

end

theorem HeardState.Wf.step {s : HeardState} (hs : s.Wf) (e : HeardEvent) : (s.step e).Wf := by
  cases e with
  | heardUpdate c call t mmap => exact hs.onHeard (heardUpdate_wf (hs.heard c) hs.cells mmap call t)
  | courtesyUpdate c call t mmap =>
    exact hs.onCourtesy (heardUpdate_wf (hs.courtesy c) hs.cells mmap call t)
  | courtesyNeeded c srcname hash =>
    exact hs.onCourtesy (heardDrop_wf (hs.courtesy c) hs.cells srcname hash)
  | expire c heardStoretime courtesyStoretime tick =>
    have hs' := hs.onHeard (heardExpire_wf (hs.heard c) hs.cells heardStoretime tick)
    exact hs'.onCourtesy (heardExpire_wf (hs'.courtesy c) hs'.cells courtesyStoretime tick)
  | free c =>
    have hs' := hs.onHeard (heardFree_wf (hs.heard c) hs.cells)
    exact hs'.onCourtesy (heardFree_wf (hs'.courtesy c) hs'.cells)

/-- The entries of all heard lists are C strings. -/
def HeardState.Terminated (s : HeardState) : Prop := ∀ c, (s.heard c).Terminated

section
variable {s : HeardState} (hs : s.Wf) {c : Nat} (hterm : (s.heard c).Terminated)
include hs hterm

/-- A step keeps the entries of a heard list C strings if and only if it does not insert one
into it in a cell that is not clean. -/
theorem HeardState.Wf.terminated_heard_iff (e : HeardEvent) :
    ((s.step e).heard c).Terminated ↔
      ∀ call t mmap, e = .heardUpdate c call t mmap → s.InsertsClean e := by
  cases e with
  | heardUpdate c' call t mmap =>
    by_cases hc : c' = c
    · subst hc
      have hiff := heardUpdate_terminated (hs.heard c') hs.cells mmap call t hterm
      simp only [HeardState.step, HeardState.onHeard, Function.update_self]
      rw [hiff]
      constructor
      · exact fun h _ _ _ _ => h
      · exact fun h => h call t mmap rfl
    · refine iff_of_true ?_ fun _ _ _ heq => ?_
      · simpa [HeardState.step, HeardState.onHeard, Ne.symm hc] using hterm
      · cases heq
        exact absurd rfl hc
  | courtesyUpdate c' call t mmap => exact iff_of_true hterm (by simp)
  | courtesyNeeded c' srcname hash => exact iff_of_true hterm (by simp)
  | expire c' heardStoretime courtesyStoretime tick =>
    refine iff_of_true ?_ (by simp)
    by_cases hc : c' = c
    · subst hc
      have hentries := entries_heardExpireSingle heardStoretime tick (s.heard c')
      intro h hmem
      refine hterm h ?_
      simp only [HeardState.step, HeardState.onCourtesy, HeardState.onHeard,
        Function.update_self, heardExpire, hentries] at hmem
      exact List.mem_of_mem_filter hmem
    · simpa [HeardState.step, HeardState.onCourtesy, HeardState.onHeard, Ne.symm hc] using hterm
  | free c' =>
    refine iff_of_true ?_ (by simp)
    by_cases hc : c' = c
    · subst hc
      intro h hmem
      simp only [HeardState.step, HeardState.onCourtesy, HeardState.onHeard,
        Function.update_self, ((hs.heard c').free s.cells).2] at hmem
      cases hmem
    · simpa [HeardState.step, HeardState.onCourtesy, HeardState.onHeard, Ne.symm hc] using hterm

end

/-- A step keeps all entries C strings if and only if it inserts into clean cells only. -/
theorem HeardState.Terminated.step_iff {s : HeardState} (hterm : s.Terminated) (hs : s.Wf)
    (e : HeardEvent) : (s.step e).Terminated ↔ s.InsertsClean e := by
  unfold Terminated
  rw [forall_congr' fun c => hs.terminated_heard_iff (hterm c) e]
  constructor
  · intro h
    cases e with
    | heardUpdate c call t mmap => exact h c call t mmap rfl
    | _ => trivial
  · exact fun h _ _ _ _ _ => h

theorem HeardState.Wf.survives_iff {s : HeardState} (hs : s.Wf) : s.Survives ↔ s.Terminated :=
  forall_congr' fun c => (hs.heard c).survives_iff

theorem HeardState.terminated_init : HeardState.init.Terminated := by
  intro c h hmem
  rw [show (HeardState.init.heard c).entries = [] from HeardList.entries_init] at hmem
  cases hmem

/-- In a run from the start the heard lists of all clients survive a live upgrade at any
point if and only if every insert into a heard list gets a cell with a zero where the
callsign ends. -/
theorem heard_survives_iff_clean (es : List HeardEvent) :
    Always HeardState.step HeardState.Survives .init es ↔
      Meets HeardState.step HeardState.InsertsClean .init es := by
  refine always_iff_meets (I := HeardState.Wf) (fun s e hs => hs.step e) ?_ HeardState.wf_init
    (HeardState.wf_init.survives_iff.mpr HeardState.terminated_init) es
  intro s e hs hsurvives
  rw [(hs.step e).survives_iff]
  exact (hs.survives_iff.mp hsurvives).step_iff hs e

/-! ## A run that loses a callsign -/

/-- No client has heard anything. -/
def HeardState.idle (free : List Bytes) (cellblocksCount : Nat) : HeardState :=
  ⟨⟨free, cellblocksCount⟩, fun _ => .init, fun _ => .init⟩

private def longCall : HeardCall := ⟨ascii "OH7LZB-10", by decide, by decide⟩
private def shortCall : HeardCall := ⟨ascii "OH7LZB", by decide, by decide⟩

/-- A client hears a station and is closed. -/
private def heardOnce : List HeardEvent := [.heardUpdate 0 longCall 0 true, .free 0]

/-- The field of a cell in which the long callsign was. -/
private def usedCell : Bytes := longCall.call ++ [0]

theorem HeardList.Wf.heardFree_eq {l : HeardList} (hl : l.Wf) (ca : HeardCells) :
    heardFree l ca = (.init, freeEntries ca l.entries) := by
  have hlist : (fun i => if i < clientHeardBuckets then [] else l.list i) = fun _ => [] := by
    funext i
    split
    · rfl
    · rename_i hi
      refine List.eq_nil_iff_forall_not_mem.mpr fun h hmem => hi ?_
      exact (hl.entry i h hmem).index_eq ▸ heardIndex_lt h.hash
  rw [heardFree, hlist]
  rfl

private theorem run_heardOnce {z : Bytes} (hz : z.length = heardFieldSize) (rest : List Bytes)
    (n : Nat) :
    run HeardState.step (.idle (z :: rest) n) heardOnce = .idle (rest ++ [usedCell]) n := by
  have hnone : HeardList.init.lookup longCall.call = none := rfl
  have hroom : HeardList.init.entrycount < maxHeardPerClient := by decide
  obtain ⟨hwf, as, bs, hnil, hentries⟩ := HeardList.wf_init.insertEntry 0 hz longCall.length_le
    longCall.no_nul hroom hnone
  rw [HeardList.entries_init] at hnil
  obtain ⟨rfl, rfl⟩ := List.append_eq_nil_iff.mp hnil.symm
  have hupdate : heardUpdate true longCall.call 0 .init ⟨z :: rest, n⟩ =
      (HeardList.init.insertEntry z longCall.call 0, ⟨rest, n⟩) := by
    rw [heardUpdate, if_pos (HeardList.inserts_iff.mpr ⟨hnone, hroom⟩)]
    rfl
  have hcell : heardCallsign z longCall.call = usedCell := by
    obtain ⟨last, hdrop⟩ : ∃ last, z.drop 9 = [last] :=
      List.length_eq_one_iff.mp (by rw [List.length_drop, hz]; rfl)
    rw [heardCallsign_eq z longCall.no_nul,
      show z.drop longCall.call.length = [last] from hdrop]
    rfl
  have hfree := hwf.heardFree_eq ⟨rest, n⟩
  have hcourtesy := HeardList.wf_init.heardFree_eq ⟨rest ++ [usedCell], n⟩
  rw [freeEntries_eq, hentries, List.nil_append, List.map_singleton,
    show (newEntry z longCall.call 0).callsign = usedCell from hcell] at hfree
  rw [freeEntries_eq, HeardList.entries_init, List.map_nil, List.append_nil] at hcourtesy
  simp only [heardOnce, run_cons, run_nil, HeardState.step, HeardState.onHeard,
    HeardState.onCourtesy, HeardState.idle, hupdate, Function.update_self, hfree, hcourtesy]
  simp

/-- A client hears the station as often as there are cells, and then all have been used. -/
private theorem run_heardOnce_all {cells : List Bytes} (n j : Nat)
    (hcells : ∀ z ∈ cells, z.length = heardFieldSize) :
    run HeardState.step (.idle (cells ++ List.replicate j usedCell) n)
        (List.replicate cells.length heardOnce).flatten =
      .idle (List.replicate (cells.length + j) usedCell) n := by
  induction cells generalizing j with
  | nil => simp
  | cons z cells ih =>
    have hrotate : cells ++ List.replicate j usedCell ++ [usedCell] =
        cells ++ List.replicate (j + 1) usedCell := by
      rw [List.append_assoc, ← List.replicate_succ']
    rw [List.length_cons, List.replicate_succ, List.flatten_cons, run_append, List.cons_append,
      run_heardOnce (hcells z List.mem_cons_self), hrotate,
      ih (j + 1) fun z hz => hcells z (List.mem_cons_of_mem _ hz)]
    congr 2
    omega

/-- The first callsign gets a cell of a new block. -/
private theorem run_heardOnce_init :
    run HeardState.step .init heardOnce =
      run HeardState.step (.idle (List.replicate cellsPerBlock newCell) 1) heardOnce := by
  obtain ⟨k, hk⟩ : ∃ k, cellsPerBlock = k + 1 := ⟨10921, rfl⟩
  have hcell : cellmalloc true HeardCells.init =
      cellmalloc true ⟨List.replicate cellsPerBlock newCell, 1⟩ := by
    rw [hk, List.replicate_succ]
    simp [cellmalloc, newCellblock, HeardCells.init, cellblocksMax, hk, List.replicate_succ]
  have hupdate : heardUpdate true longCall.call 0 .init .init =
      heardUpdate true longCall.call 0 .init ⟨List.replicate cellsPerBlock newCell, 1⟩ := by
    have hins : HeardList.init.inserts longCall.call = true := rfl
    rw [heardUpdate, heardUpdate, if_pos hins, if_pos hins, hcell]
  simp only [heardOnce, run_cons, run_nil, HeardState.step, HeardState.onHeard, HeardState.init,
    HeardState.idle, hupdate]

/-- After a whole block of cells has held `OH7LZB-10`, the entry of `OH7LZB` is dumped as
`OH7LZB-10`. -/
theorem used_cell_does_not_survive :
    ¬∀ es, Always HeardState.step HeardState.Survives .init es := by
  intro h
  obtain ⟨k, hk⟩ : ∃ k, cellsPerBlock = k + 1 := ⟨10921, rfl⟩
  have hused : run HeardState.step .init (List.replicate cellsPerBlock heardOnce).flatten =
      .idle (List.replicate cellsPerBlock usedCell) 1 := by
    have hall := @run_heardOnce_all (List.replicate cellsPerBlock newCell) 1 0
      (fun z hz => by rw [List.eq_of_mem_replicate hz]; rfl)
    rw [List.length_replicate, List.replicate_zero, List.append_nil, Nat.add_zero, hk,
      List.replicate_succ (a := heardOnce), List.flatten_cons, run_append, ← hk] at hall
    rw [hk, List.replicate_succ (a := heardOnce), List.flatten_cons, run_append, run_heardOnce_init,
      ← hk]
    exact hall
  have hlast := (h ((List.replicate cellsPerBlock heardOnce).flatten ++
    [.heardUpdate 0 shortCall 0 true])).last
  rw [run_append, hused, run_cons, run_nil] at hlast
  have hwf : (HeardState.idle (List.replicate cellsPerBlock usedCell) 1).Wf :=
    ⟨fun z hz => by rw [List.eq_of_mem_replicate hz]; rfl, HeardState.wf_init.heard,
      HeardState.wf_init.courtesy⟩
  have hterm : (HeardState.idle (List.replicate cellsPerBlock usedCell) 1).Terminated :=
    HeardState.terminated_init
  have hclean := (hterm.step_iff hwf _).mp ((hwf.step _).survives_iff.mp hlast)
  have hcell : (cellmalloc true ⟨List.replicate cellsPerBlock usedCell, 1⟩).1 = some usedCell := by
    rw [hk]
    rfl
  have hbad := hclean rfl usedCell hcell
  revert hbad
  unfold CleanCell
  decide

end Aprsc
