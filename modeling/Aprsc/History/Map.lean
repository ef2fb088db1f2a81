-- SUMMARY: The history database is a finite map: a lookup finds the latest live insert of its key, while it is valid.
import Aprsc.Base.HashChains
import Aprsc.Base.Runs
import Aprsc.Historydb
import Mathlib.Data.List.Find

/-!
# The history database as a map

A key is live from an insert to the next kill, and its cell is the one of the latest
insert. Expired cells are dropped from the chains in passing, by inserts and by the
cleanup, but not before a lookup has stopped to return them.
-/

namespace Aprsc

open Runs HashChains

/-! ## Runs -/

/-- The calls of `historydb.c`, each at its `tick`. -/
inductive HistorydbCall where
  | insert (tick : Int) (pb : Pbuf)
  | cleanup (tick : Int)
  | lookup (tick : Int) (key : Bytes)

def HistorydbCall.tick : HistorydbCall → Int
  | insert tick _ | cleanup tick | lookup tick _ => tick

/-- The database after a call. A lookup leaves it as it is. -/
def historydbStep (env : HistorydbEnv) (s : Historydb) : HistorydbCall → Historydb
  | .insert tick pb => historydbInsert env tick pb s
  | .cleanup tick => historydbCleanup env tick s
  | .lookup _ _ => s

/-- The cells of all buckets. -/
def Historydb.cells (s : Historydb) : List HistoryCell :=
  (List.range historydbHashModulo).flatMap s.hash

/-! ## The map -/

/-- The key that a packet is stored under, or removes, if it has a position. -/
def Pbuf.storedKey (pb : Pbuf) : Option (Bytes × Bool) :=
  if pb.flags &&& fHaspos = 0 then none else pb.historyKey

/-- What is stored under the key of a packet: nothing, if the packet kills it. -/
def Pbuf.storedCell (pb : Pbuf) (key : Bytes) (isdead : Bool) : Option HistoryCell :=
  if isdead then none else some (pb.historyCell key)

theorem mem_storedCell {pb : Pbuf} {key : Bytes} {isdead : Bool} {cp : HistoryCell} :
    cp ∈ pb.storedCell key isdead ↔ cp = pb.historyCell key ∧ isdead = false := by
  cases isdead <;> simp [Pbuf.storedCell, eq_comm]

/-- What a call stores under a key, if it has an effect on it. -/
def HistorydbCall.effect (key : Bytes) : HistorydbCall → Option (Option HistoryCell)
  | insert _ pb =>
      match pb.storedKey with
      | some (k, isdead) => if k = key then some (pb.storedCell key isdead) else none
      | none => none
  | cleanup _ | lookup _ _ => none

/-- The map that the calls leave: the latest call with an effect on a key decides. -/
def historyMap (calls : List HistorydbCall) (key : Bytes) : Option HistoryCell :=
  (calls.reverse.findSome? (·.effect key)).join

theorem historyMap_insert {calls : List HistorydbCall} {tick : Int} {pb : Pbuf} {key : Bytes}
    {isdead : Bool} (h : pb.storedKey = some (key, isdead)) :
    historyMap (calls ++ [.insert tick pb]) =
      Function.update (historyMap calls) key (pb.storedCell key isdead) := by
  funext k
  by_cases hk : key = k
  · subst hk
    simp [historyMap, HistorydbCall.effect, h]
  · simp [historyMap, HistorydbCall.effect, h, hk, Function.update_of_ne (Ne.symm hk)]

theorem historyMap_insert_of_ne {calls : List HistorydbCall} {tick : Int} {pb : Pbuf} {key : Bytes}
    (h : ∀ isdead, pb.storedKey ≠ some (key, isdead)) :
    historyMap (calls ++ [.insert tick pb]) key = historyMap calls key := by
  have heffect : (HistorydbCall.insert tick pb).effect key = none := by
    simp only [HistorydbCall.effect]
    cases hkey : pb.storedKey with
    | none => rfl
    | some k => exact if_neg fun heq => h k.2 (by rw [hkey, ← heq])
  simp [historyMap, heffect]

theorem historyMap_of_effect {calls : List HistorydbCall} {call : HistorydbCall}
    (h : ∀ key, call.effect key = none) : historyMap (calls ++ [call]) = historyMap calls := by
  funext k
  simp [historyMap, h]

/-! ## The chains -/

/-- The bucket of a key. -/
def historydbKeyIndex (key : Bytes) : Nat := historydbIndex (keyhash key 0)

theorem historydbKeyIndex_lt (key : Bytes) : historydbKeyIndex key < historydbHashModulo :=
  Nat.mod_lt _ (by decide)

/-- The cells are in the buckets of their keys, and know the hash of their keys. -/
structure Historydb.Wf (s : Historydb) : Prop where
  chains : HashChains.Wf HistoryCell.key historydbKeyIndex s.hash
  hashed : ∀ i, ∀ cp ∈ s.hash i, cp.hash1 = keyhash cp.key 0

/-- A cell that an insert drops. -/
def HistoryCell.Expired (expirytime : Int) (cp : HistoryCell) : Prop := cp.arrivaltime < expirytime

theorem Historydb.hash_setBucket (s : Historydb) (i : Nat) (chain : List HistoryCell) :
    (s.setBucket i chain).hash = Function.update s.hash i chain := by
  funext j
  simp [setBucket, Function.update_apply]

/-- The chain after an insert: a key that was not found is appended, unless it is killed. -/
def historydbChain (expirytime : Int) (new : HistoryCell) (isdead : Bool)
    (chain : List HistoryCell) : List HistoryCell :=
  let r := historydbScan expirytime new isdead chain
  if !r.2.2 && !isdead then r.1 ++ [new] else r.1

section
variable {expirytime : Int} {new : HistoryCell} {isdead : Bool} {chain : List HistoryCell}

/-- A cell that is replaced keeps its key. -/
theorem historydbScan_keys :
    ((historydbScan expirytime new isdead chain).1.map HistoryCell.key).Sublist
      (chain.map HistoryCell.key) := by
  induction chain with
  | nil => exact .slnil
  | cons cp rest ih =>
    simp only [historydbScan]
    split
    · exact ih.cons _
    · split
      · rename_i hmatch
        split
        · exact ih.cons _
        · rw [List.map_cons, List.map_cons, hmatch.2]
          exact ih.cons_cons _
      · exact ih.cons_cons _

/-- A key that is killed is not replaced. -/
theorem historydbScan_isdead : (historydbScan expirytime new true chain).2.2 = false := by
  induction chain with
  | nil => rfl
  | cons cp rest ih =>
    simp only [historydbScan]
    split
    · exact ih
    · split
      · exact ih
      · exact ih

variable (hnew : new.hash1 = keyhash new.key 0)
  (hhash : ∀ cp ∈ chain, cp.hash1 = keyhash cp.key 0)
include hnew hhash

/-- The scan keeps the live cells of other keys. The new cell takes the place of the one
with its key, unless the key is killed. -/
theorem mem_historydbScan {x : HistoryCell} :
    x ∈ (historydbScan expirytime new isdead chain).1 ↔
      (x ∈ chain ∧ ¬x.Expired expirytime ∧ x.key ≠ new.key) ∨
      (x = new ∧ (historydbScan expirytime new isdead chain).2.2 = true) := by
  induction chain with
  | nil => simp [historydbScan]
  | cons cp rest ih =>
    have ih := ih fun c hc => hhash c (by simp [hc])
    have hmatch : cp.hash1 = new.hash1 ∧ cp.key = new.key ↔ cp.key = new.key := by
      rw [hhash cp (by simp), hnew]
      exact and_iff_right_of_imp fun h => by rw [h]
    simp only [historydbScan, hmatch]
    split
    · rename_i hold
      have hexp : cp.Expired expirytime := hold
      grind
    · rename_i hlive
      have hexp : ¬cp.Expired expirytime := hlive
      split
      · rename_i hkey
        split
        · grind
        · grind
      · rename_i hkey
        grind

/-- After an insert the chain has the live cells of other keys, and the new cell. -/
theorem mem_historydbChain {x : HistoryCell} :
    x ∈ historydbChain expirytime new isdead chain ↔
      (x ∈ chain ∧ ¬x.Expired expirytime ∧ x.key ≠ new.key) ∨ (x = new ∧ isdead = false) := by
  have hscan := @mem_historydbScan expirytime _ isdead _ hnew hhash x
  simp only [historydbChain]
  cases isdead with
  | true =>
    rw [historydbScan_isdead] at hscan ⊢
    simpa using hscan
  | false =>
    split
    · rename_i hfound
      have hfound : (historydbScan expirytime new false chain).2.2 = false := by simpa using hfound
      rw [List.mem_append, hscan, hfound]
      simp
    · rename_i hfound
      have hfound : (historydbScan expirytime new false chain).2.2 = true := by simpa using hfound
      rw [hscan, hfound, eq_self_iff_true, eq_self_iff_true]

theorem nodup_historydbChain (hnodup : (chain.map HistoryCell.key).Nodup) :
    ((historydbChain expirytime new isdead chain).map HistoryCell.key).Nodup := by
  have hscan := hnodup.sublist
    (@historydbScan_keys expirytime new isdead _)
  simp only [historydbChain]
  split
  · rename_i hfound
    rw [Bool.and_eq_true, Bool.not_eq_true', Bool.not_eq_true'] at hfound
    -- The scan has left no cell of this key, or it would have been found.
    have hkey : new.key ∉ (historydbScan expirytime new isdead chain).1.map HistoryCell.key := by
      rintro hmem
      obtain ⟨x, hx, hxkey⟩ := List.mem_map.mp hmem
      obtain ⟨-, -, hne⟩ | ⟨-, htrue⟩ := (mem_historydbScan hnew hhash).mp hx
      · exact hne hxkey
      · rw [hfound.1] at htrue
        cases htrue
    rw [List.map_append]
    refine hscan.append (List.nodup_singleton _) ?_
    simpa using hkey
  · exact hscan

end

/-! ## The steps -/

theorem Pbuf.historyKey_of_storedKey {pb : Pbuf} {k : Bytes × Bool} (h : pb.storedKey = some k) :
    pb.flags &&& fHaspos ≠ 0 ∧ pb.historyKey = some k := by
  unfold storedKey at h
  split at h
  · cases h
  · exact ⟨‹_›, h⟩

section
variable {env : HistorydbEnv} {s : Historydb} {tick : Int} {pb : Pbuf}

/-- A packet without a position or without a key is not stored. -/
theorem historydbInsert_of_none (h : pb.storedKey = none) : historydbInsert env tick pb s = s := by
  unfold Pbuf.storedKey at h
  unfold historydbInsert
  split
  · rfl
  · rw [if_neg ‹_›] at h
    rw [h]

/-- What an insert does to the chains, if there is memory. -/
theorem historydbInsert_hash (hmalloc : ∀ n, env.cellmalloc n = true) {key : Bytes} {isdead : Bool}
    (h : pb.storedKey = some (key, isdead)) :
    (historydbInsert env tick pb s).hash =
      Function.update s.hash (historydbKeyIndex key)
        (historydbChain (tick - env.lastpositionStoretime) (pb.historyCell key) isdead
          (s.hash (historydbKeyIndex key))) := by
  obtain ⟨hpos, hkey⟩ := Pbuf.historyKey_of_storedKey h
  have hindex : historydbIndex (pb.historyCell key).hash1 = historydbKeyIndex key := rfl
  unfold historydbInsert historydbChain
  rw [if_neg hpos, hkey]
  simp only [hindex]
  split
  · simp [historydbAppend, hmalloc, Historydb.hash_setBucket]
  · rw [Historydb.hash_setBucket]

theorem historydbCleanup_sublist (i : Nat) :
    ((historydbCleanup env tick s).hash i).Sublist (s.hash i) := by
  simp only [historydbCleanup]
  split
  · exact List.filter_sublist
  · exact .refl _

/-- The cells that the cleanup removes have expired. -/
theorem mem_historydbCleanup {i : Nat} {cp : HistoryCell} (h : cp ∈ s.hash i) :
    cp ∈ (historydbCleanup env tick s).hash i ∨
      cp.Expired (tick - env.lastpositionStoretime) := by
  by_cases hexp : cp.arrivaltime < tick - env.lastpositionStoretime
  · exact .inr hexp
  · left
    simp only [historydbCleanup]
    split
    · exact List.mem_filter.mpr ⟨h, by simpa using hexp⟩
    · exact h

end

/-- The database holds the map of the calls. Cells that have expired may be missing. -/
structure Historydb.Refines (env : HistorydbEnv) (tick : Int) (calls : List HistorydbCall)
    (s : Historydb) : Prop where
  wf : s.Wf
  holds : Holds HistoryCell.key historydbKeyIndex
    (HistoryCell.Expired (tick - env.lastpositionStoretime)) s.hash (historyMap calls)

section
variable {env : HistorydbEnv} {tick tick' : Int} {calls : List HistorydbCall} {s : Historydb}

theorem Historydb.refines_init : Historydb.init.Refines env tick [] where
  wf := ⟨wf_empty, by simp [init]⟩
  holds := holds_empty

theorem HistoryCell.Expired.mono {cp : HistoryCell} {t t' : Int} (h : cp.Expired t) (htt : t ≤ t') :
    cp.Expired t' := Int.lt_of_lt_of_le h htt

/-- As time passes more cells expire. -/
theorem Historydb.Refines.mono (h : s.Refines env tick calls) (htick : tick ≤ tick') :
    s.Refines env tick' calls where
  wf := h.wf
  holds := h.holds.imp fun _ hexp => hexp.mono (by omega)

/-- An insert into the database is one into the map. -/
theorem Historydb.Refines.insert (hmalloc : ∀ n, env.cellmalloc n = true)
    (h : s.Refines env tick calls) (pb : Pbuf) :
    (historydbInsert env tick pb s).Refines env tick (calls ++ [.insert tick pb]) := by
  cases hkey : pb.storedKey with
  | none =>
    rw [historydbInsert_of_none hkey]
    exact ⟨h.wf, by
      rw [historyMap_of_effect fun key => by simp [HistorydbCall.effect, hkey]]
      exact h.holds⟩
  | some k =>
    obtain ⟨key, isdead⟩ := k
    have hnodup := h.wf.chains.nodup (historydbKeyIndex key)
    have hhashed := h.wf.hashed (historydbKeyIndex key)
    have hmem := fun x => @mem_historydbChain (tick - env.lastpositionStoretime)
      (pb.historyCell key) isdead _ rfl hhashed x
    obtain ⟨hchains, hholds⟩ := @HashChains.Holds.update _ _ _ _ _ _ _ _ h.wf.chains h.holds key
      (pb.storedCell key isdead) _
      (@nodup_historydbChain _ (pb.historyCell key) isdead _ rfl hhashed hnodup)
      (fun x => by
        rw [hmem, mem_storedCell]
        constructor
        · rintro ⟨⟨-, -, hne⟩ | hnew, hx⟩
          · exact absurd hx hne
          · exact hnew
        · rintro ⟨rfl, hlive⟩
          exact ⟨.inr ⟨rfl, hlive⟩, rfl⟩)
      (fun x hx hne => by
        obtain ⟨hold, -⟩ | ⟨rfl, -⟩ := (hmem x).mp hx
        · exact hold
        · exact absurd rfl hne)
      (fun x hx hne => by
        by_cases hexp : x.Expired (tick - env.lastpositionStoretime)
        · exact .inr hexp
        · exact .inl ((hmem x).mpr (.inl ⟨hx, hexp, hne⟩)))
    rw [← historydbInsert_hash hmalloc hkey] at hchains hholds
    refine ⟨⟨hchains, fun i cp hcp => ?_⟩, by rwa [historyMap_insert hkey]⟩
    rw [historydbInsert_hash hmalloc hkey] at hcp
    obtain rfl | hi := eq_or_ne i (historydbKeyIndex key)
    · rw [Function.update_self] at hcp
      obtain ⟨hold, -⟩ | ⟨rfl, -⟩ := (hmem cp).mp hcp
      · exact hhashed cp hold
      · rfl
    · rw [Function.update_of_ne hi] at hcp
      exact h.wf.hashed i cp hcp

/-- The cleanup does not change the map. -/
theorem Historydb.Refines.cleanup (h : s.Refines env tick calls) :
    (historydbCleanup env tick s).Refines env tick (calls ++ [.cleanup tick]) where
  wf :=
    ⟨h.wf.chains.sublist historydbCleanup_sublist,
      fun i cp hcp => h.wf.hashed i cp ((historydbCleanup_sublist i).subset hcp)⟩
  holds := by
    rw [historyMap_of_effect fun _ => rfl]
    exact h.holds.sweep h.wf.chains historydbCleanup_sublist fun _ _ => mem_historydbCleanup

theorem Historydb.Refines.step (hmalloc : ∀ n, env.cellmalloc n = true) (call : HistorydbCall)
    (h : s.Refines env call.tick calls) :
    (historydbStep env s call).Refines env call.tick (calls ++ [call]) := by
  cases call with
  | insert tick pb => exact h.insert hmalloc pb
  | cleanup tick => exact h.cleanup
  | lookup tick key =>
    exact ⟨h.wf, by rw [historyMap_of_effect fun _ => rfl]; exact h.holds⟩

/-- A lookup that comes later finds what the map has, while it is valid. -/
theorem Historydb.Refines.lookup (h : s.Refines env tick calls) (htick : tick ≤ tick')
    (key : Bytes) :
    historydbLookup env tick' key s =
      (historyMap calls key).filter
        fun cp => cp.arrivaltime > tick' - env.lastpositionStoretime + 300 := by
  have hlookup : historydbLookup env tick' key s =
      (get HistoryCell.key historydbKeyIndex s.hash key).filter
        fun cp => cp.arrivaltime > tick' - env.lastpositionStoretime + 300 := by
    rw [← h.wf.chains.find?_and]
    refine List.find?_congr fun cp hcp => ?_
    have hhash := h.wf.hashed _ cp hcp
    by_cases hkey : cp.key = key
    · simp [hkey, hhash]
    · simp [hkey]
  rw [hlookup]
  refine h.holds.get_filter (fun cp hexp => ?_) key
  have hexp : cp.arrivaltime < tick - env.lastpositionStoretime := hexp
  exact decide_eq_false (by omega)

/-- The database after calls whose ticks do not decrease. -/
theorem historydb_refines (hmalloc : ∀ n, env.cellmalloc n = true)
    (hticks : (calls.map HistorydbCall.tick).Pairwise (· ≤ ·))
    (hlast : ∀ call ∈ calls, call.tick ≤ tick) :
    (run (historydbStep env) .init calls).Refines env tick calls := by
  induction calls using List.reverseRecOn generalizing tick with
  | nil => exact Historydb.refines_init
  | append_singleton calls call ih =>
    rw [List.map_append, List.pairwise_append] at hticks
    obtain ⟨hticks, -, hle⟩ := hticks
    have hprev : ∀ c ∈ calls, c.tick ≤ call.tick := fun c hc =>
      hle c.tick (List.mem_map_of_mem hc) call.tick (by simp)
    rw [run_append]
    exact ((ih hticks hprev).step hmalloc call).mono (hlast call (by simp))

end

/-! ## Result -/

/-- In every run with enough memory each key has at most one cell, and a lookup returns
the cell of the latest insert of its key that no kill has followed, while it is valid. A
cleanup, and what an insert does to the cells of other keys, changes no later lookup. -/
theorem historydb_is_map (env : HistorydbEnv) (hmalloc : ∀ n, env.cellmalloc n = true)
    (calls : List HistorydbCall) (hticks : (calls.map HistorydbCall.tick).Pairwise (· ≤ ·))
    (tick : Int) (hlast : ∀ call ∈ calls, call.tick ≤ tick) :
    let s := run (historydbStep env) .init calls
    (s.cells.map HistoryCell.key).Nodup ∧
    ∀ tick' ≥ tick, ∀ key,
      historydbLookup env tick' key s =
        (historyMap calls key).filter
          (fun cp => cp.arrivaltime > tick' - env.lastpositionStoretime + 300) ∧
      historydbLookup env tick' key (historydbCleanup env tick s) =
        historydbLookup env tick' key s ∧
      ∀ pb : Pbuf, (∀ isdead, pb.storedKey ≠ some (key, isdead)) →
        historydbLookup env tick' key (historydbInsert env tick pb s) =
          historydbLookup env tick' key s := by
  intro s
  have hs : s.Refines env tick calls := historydb_refines hmalloc hticks hlast
  refine ⟨hs.wf.chains.nodup_keys _, fun tick' htick key => ⟨hs.lookup htick key, ?_, fun pb hne => ?_⟩⟩
  · rw [hs.cleanup.lookup htick, hs.lookup htick, historyMap_of_effect fun _ => rfl]
  · rw [(hs.insert hmalloc pb).lookup htick, hs.lookup htick, historyMap_insert_of_ne hne]

/-- A position report. -/
private def historyPacket (t : Int) : Pbuf where
  data := ascii "OH7AB>APRS:!6028.51N/02505.68E#\r\n"
  packetLen := 33
  packettype := tPosition
  flags := fHaspos
  srcname := 0
  srcnameLen := 5
  dstname := none
  dstnameLen := 0
  srccallEnd := 5
  dstcallEndOrSsid := 10
  dstcallEnd := 10
  dstcallLen := 4
  qconstStart := 0
  infoStart := 11
  t := t

private def historyEnv : HistorydbEnv := ⟨24 * 60 * 60, fun _ => true⟩

private def historyCalls : List HistorydbCall :=
  [.insert 1000 (historyPacket 1000), .cleanup 1060, .insert 1100 (historyPacket 1099),
    .lookup 1100 (ascii "OH7AB")]

/-- A station that has sent two positions is found with the second one. -/
theorem historydb_is_map_station :
    historydbLookup historyEnv 2000 (ascii "OH7AB") (run (historydbStep historyEnv) .init historyCalls) =
      some ((historyPacket 1099).historyCell (ascii "OH7AB")) := by
  have hmap := historydb_is_map historyEnv (fun _ => rfl) historyCalls (by decide) 1100
    (forall_mem_of_all (by decide))
  rw [(hmap.2 2000 (by decide) (ascii "OH7AB")).1]
  decide

end Aprsc
