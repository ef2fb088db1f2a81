-- SUMMARY: The entry igate and weather tables: what a lookup answers in any run, and when that is what was inserted.
import Aprsc.Base.HashChains
import Aprsc.Base.Runs
import Aprsc.Server.Tables

/-!
# Entry igates and weather stations

The two tables differ in their keys, in what they store, and in how the hash is folded.
A station is to be remembered for `maxage` seconds after the packet that was stored last.
The lookup compares the expiry time the wrong way round: it finds the stations whose time
is over and that no cleanup has removed yet.
-/

namespace Aprsc

open Runs HashChains

/-! ## The two tables -/

inductive StationTable where
  | entrycall
  | wx
deriving Repr, DecidableEq

namespace StationTable

def insert (table : StationTable) (tick : Int) (cellmalloc : Bool) (pb : Pbuf) (s : FilterTable) :
    FilterTable :=
  match table with
  | .entrycall => filterEntrycallInsert tick cellmalloc pb s
  | .wx => filterWxInsert tick cellmalloc pb s

def cleanup (table : StationTable) (tick : Int) (s : FilterTable) : FilterTable :=
  match table with
  | .entrycall => filterEntrycallCleanup tick s
  | .wx => filterWxCleanup tick s

def lookup (table : StationTable) (tick : Int) (pb : Pbuf) (s : FilterTable) : Bool :=
  match table with
  | .entrycall => filterEntrycallLookup tick pb s
  | .wx => filterWxLookup tick pb s

def maxage : StationTable → Int
  | entrycall => filterEntrycallMaxage
  | wx => filterWxMaxage

def size : StationTable → Nat
  | entrycall => filterEntrycallHashsize
  | wx => filterWxHashsize

/-- The bucket of a callsign in upper case. -/
def index (table : StationTable) (uckey : Bytes) : Nat :=
  match table with
  | .entrycall => filterEntrycallIndex (keyhash uckey 0)
  | .wx => filterWxIndex (keyhash uckey 0)

/-- The callsign of a packet that the table is about: its entry station, or its source. -/
def callsign (table : StationTable) (pb : Pbuf) : Bytes :=
  match table with
  | .entrycall => pb.entrycallKey
  | .wx => pb.data.take pb.srccallEnd

/-- A packet is stored: it has an entry station behind `qAR` or `qAr`, or it is a weather
packet without a position. -/
def stores (table : StationTable) (pb : Pbuf) : Bool :=
  match table with
  | .entrycall =>
      pb.entrycall.isSome &&
        ((pb.data.drop (pb.qconstStart + 2)).headD 0 == ch 'r' ||
          (pb.data.drop (pb.qconstStart + 2)).headD 0 == ch 'R')
  | .wx => pb.packettype &&& tWx != 0 && pb.flags &&& fHaspos == 0

end StationTable

/-! ## Runs -/

/-- The calls on a table, each at its `tick`. -/
inductive StationCall where
  | insert (tick : Int) (pb : Pbuf)
  | cleanup (tick : Int)
  | lookup (tick : Int) (pb : Pbuf)

def StationCall.tick : StationCall → Int
  | insert tick _ | cleanup tick | lookup tick _ => tick

namespace StationTable

variable (table : StationTable)

/-- The table after a call, if there is memory. -/
def step (s : FilterTable) : StationCall → FilterTable
  | .insert tick pb => table.insert tick true pb s
  | .cleanup tick => table.cleanup tick s
  | .lookup _ _ => s

/-- A callsign, whatever its case, was inserted not too long ago. -/
def Remembered (calls : List StationCall) (tick : Int) (call : Bytes) : Prop :=
  ∃ t pb, .insert t pb ∈ calls ∧ table.stores pb = true ∧ caseEq (table.callsign pb) call = true ∧
    t + table.maxage > tick - 60

/-- The tick of a call that inserts a callsign. -/
def insertTick (call : Bytes) : StationCall → Option Int
  | .insert tick pb => if table.stores pb && caseEq (table.callsign pb) call then some tick else none
  | .cleanup _ | .lookup _ _ => none

/-- The tick at which a callsign was inserted last. -/
def lastInsert (calls : List StationCall) (call : Bytes) : Option Int :=
  calls.reverse.findSome? (table.insertTick call)

/-- A cleanup at this tick or later was among the calls. -/
def CleanedFrom (calls : List StationCall) (tick : Int) : Prop :=
  ∃ t ≥ tick, .cleanup t ∈ calls

end StationTable

/-! ## The table -/

/-- The cells are in the buckets of their callsigns, which are in upper case, and know the
hash. -/
structure FilterTable.Wf (table : StationTable) (s : FilterTable) : Prop where
  chains : HashChains.Wf FilterCell.callsign table.index s.hash
  hashed : ∀ i, ∀ f ∈ s.hash i, f.hash = keyhash f.callsign 0
  upper : ∀ i, ∀ f ∈ s.hash i, f.callsign.map toupper = f.callsign

/-- The cell of a callsign in upper case that was inserted at a tick. -/
def StationTable.cell (table : StationTable) (t : Int) (uckey : Bytes) : FilterCell :=
  ⟨t + table.maxage, keyhash uckey 0, uckey⟩

section
variable {new : FilterCell} {chain : List FilterCell} (hnew : new.hash = keyhash new.callsign 0)
  (hhash : ∀ f ∈ chain, f.hash = keyhash f.callsign 0)
include hnew hhash

theorem refreshCell_none (h : refreshCell new chain = none) :
    ∀ f ∈ chain, f.callsign ≠ new.callsign := by
  induction chain with
  | nil => simp
  | cons f rest ih =>
    unfold refreshCell at h
    split at h
    · cases h
    · rename_i hmatch
      have hrest := ih (fun g hg => hhash g (by simp [hg])) (Option.map_eq_none_iff.mp h)
      have hf : f.callsign ≠ new.callsign := fun heq =>
        hmatch ⟨by rw [hhash f (by simp), hnew, heq], heq⟩
      simpa using ⟨hf, hrest⟩

/-- A cell that is refreshed becomes the new one. -/
theorem refreshCell_some {chain' : List FilterCell} (hnodup : (chain.map FilterCell.callsign).Nodup)
    (h : refreshCell new chain = some chain') :
    chain'.map FilterCell.callsign = chain.map FilterCell.callsign ∧
    ∀ x, x ∈ chain' ↔ x = new ∨ (x ∈ chain ∧ x.callsign ≠ new.callsign) := by
  induction chain generalizing chain' with
  | nil => cases h
  | cons f rest ih =>
    obtain ⟨hfresh, hrest⟩ := List.nodup_cons.mp hnodup
    unfold refreshCell at h
    split at h
    · rename_i hmatch
      obtain rfl := Option.some.inj h
      have hcell : { f with expirytime := new.expirytime } = new := by
        obtain ⟨hh, hc⟩ := hmatch
        cases new
        cases hh
        cases hc
        rfl
      have hothers : ∀ g ∈ rest, g.callsign ≠ new.callsign := fun g hg heq =>
        hfresh (List.mem_map.mpr ⟨g, hg, heq.trans hmatch.2.symm⟩)
      refine ⟨rfl, fun x => ?_⟩
      rw [hcell, List.mem_cons, List.mem_cons]
      constructor
      · rintro (rfl | hx)
        · exact .inl rfl
        · exact .inr ⟨.inr hx, hothers x hx⟩
      · rintro (rfl | ⟨rfl | hx, hne⟩)
        · exact .inl rfl
        · exact absurd hmatch.2 hne
        · exact .inr hx
    · rename_i hmatch
      obtain ⟨chain, hchain, rfl⟩ := Option.map_eq_some_iff.mp h
      obtain ⟨hkeys, hmem⟩ := ih (fun g hg => hhash g (by simp [hg])) hrest hchain
      have hf : f.callsign ≠ new.callsign := fun heq =>
        hmatch ⟨by rw [hhash f (by simp), hnew, heq], heq⟩
      refine ⟨by rw [List.map_cons, List.map_cons, hkeys], fun x => ?_⟩
      rw [List.mem_cons, List.mem_cons, hmem]
      constructor
      · rintro (rfl | rfl | ⟨hx, hne⟩)
        · exact .inr ⟨.inl rfl, hf⟩
        · exact .inl rfl
        · exact .inr ⟨.inr hx, hne⟩
      · rintro (rfl | ⟨rfl | hx, hne⟩)
        · exact .inr (.inl rfl)
        · exact .inl rfl
        · exact .inr (.inr ⟨hx, hne⟩)

/-- The chain after an insert: the new cell is refreshed or put in front. -/
theorem insertCell_spec (hnodup : (chain.map FilterCell.callsign).Nodup) :
    (((refreshCell new chain).getD (new :: chain)).map FilterCell.callsign).Nodup ∧
    ∀ x, x ∈ (refreshCell new chain).getD (new :: chain) ↔
      x = new ∨ (x ∈ chain ∧ x.callsign ≠ new.callsign) := by
  cases hrefresh : refreshCell new chain with
  | some chain' =>
    obtain ⟨hkeys, hmem⟩ := refreshCell_some hnew hhash hnodup hrefresh
    exact ⟨by rwa [Option.getD_some, hkeys], hmem⟩
  | none =>
    have hothers := refreshCell_none hnew hhash hrefresh
    have hfresh : new.callsign ∉ chain.map FilterCell.callsign := by simpa using hothers
    refine ⟨List.nodup_cons.mpr ⟨hfresh, hnodup⟩, fun x => ?_⟩
    rw [Option.getD_none, List.mem_cons]
    exact or_congr_right (iff_self_and.mpr (hothers x))

end

theorem FilterTable.hash_insert (s : FilterTable) (early : Bool) (i : Nat) (new : FilterCell) :
    (s.insert early true i new).hash =
      Function.update s.hash i ((refreshCell new (s.hash i)).getD (new :: s.hash i)) := by
  funext j
  unfold insert
  cases refreshCell new (s.hash i) <;> simp [setBucket, Function.update_apply]

section
variable {table : StationTable} {s : FilterTable}

theorem FilterTable.wf_init : FilterTable.init.Wf table :=
  ⟨wf_empty, by simp [init], by simp [init]⟩

/-- A callsign is inserted, and nothing else changes. -/
theorem FilterTable.Wf.insert (hs : s.Wf table) (early : Bool) (t : Int) {uckey : Bytes}
    (hupper : uckey.map toupper = uckey) :
    (s.insert early true (table.index uckey) (table.cell t uckey)).Wf table ∧
    get FilterCell.callsign table.index
        (s.insert early true (table.index uckey) (table.cell t uckey)).hash =
      Function.update (get FilterCell.callsign table.index s.hash) uckey
        (some (table.cell t uckey)) := by
  obtain ⟨hnodup, hmem⟩ := @insertCell_spec (table.cell t uckey) _ rfl
    (hs.hashed (table.index uckey)) (hs.chains.nodup _)
  obtain ⟨hchains, hget⟩ := @HashChains.Wf.get_update _ _ _ _ _ _ hs.chains uckey
    (some (table.cell t uckey)) _ hnodup
    (fun x => by
      rw [hmem, Option.mem_some_iff]
      constructor
      · rintro ⟨rfl | ⟨-, hne⟩, hx⟩
        · rfl
        · exact absurd hx hne
      · rintro rfl
        exact ⟨.inl rfl, rfl⟩)
    (fun x hne => by
      rw [hmem]
      constructor
      · rintro (rfl | ⟨hx, -⟩)
        · exact absurd rfl hne
        · exact hx
      · exact fun hx => .inr ⟨hx, hne⟩)
  rw [← s.hash_insert early] at hchains hget
  have hcells : ∀ i, ∀ f ∈ (s.insert early true (table.index uckey) (table.cell t uckey)).hash i,
      f = table.cell t uckey ∨ f ∈ s.hash i := fun i f hf => by
    rw [s.hash_insert] at hf
    obtain rfl | hi := eq_or_ne i (table.index uckey)
    · rw [Function.update_self] at hf
      exact ((hmem f).mp hf).imp_right fun h => h.1
    · rw [Function.update_of_ne hi] at hf
      exact .inr hf
  refine ⟨⟨hchains, fun i f hf => ?_, fun i f hf => ?_⟩, hget⟩
  · obtain rfl | hold := hcells i f hf
    · rfl
    · exact hs.hashed i f hold
  · obtain rfl | hold := hcells i f hf
    · exact hupper
    · exact hs.upper i f hold

theorem StationTable.index_lt (uckey : Bytes) : table.index uckey < table.size := by
  cases table
  · exact Nat.mod_lt _ (by decide)
  · exact Nat.mod_lt _ (by decide)

/-- The expired cells are removed. -/
theorem FilterTable.Wf.cleanup (hs : s.Wf table) (tick : Int) :
    (table.cleanup tick s).Wf table ∧
    get FilterCell.callsign table.index (table.cleanup tick s).hash =
      fun k => (get FilterCell.callsign table.index s.hash k).filter (! ·.expirytime ≤ tick) := by
  have hcleanup : table.cleanup tick s = s.cleanup table.size tick := by cases table <;> rfl
  obtain ⟨hchains, hget⟩ := hs.chains.get_filter fun f => ! decide (f.expirytime ≤ tick)
  -- The buckets beyond the last one are empty.
  have hhash : (table.cleanup tick s).hash =
      fun i => (s.hash i).filter fun f => ! decide (f.expirytime ≤ tick) := by
    rw [hcleanup]
    funext i
    simp only [FilterTable.cleanup]
    split
    · rfl
    · rename_i hi
      have hempty : s.hash i = [] := List.eq_nil_iff_forall_not_mem.mpr fun f hf =>
        hi (hs.chains.placed i f hf ▸ table.index_lt f.callsign)
      rw [hempty, List.filter_nil]
  rw [hhash]
  refine ⟨⟨?_, fun i f hf => ?_, fun i f hf => ?_⟩, hget⟩
  · rw [hhash]
    exact hchains
  · rw [hhash] at hf
    exact hs.hashed i f (List.mem_of_mem_filter hf)
  · rw [hhash] at hf
    exact hs.upper i f (List.mem_of_mem_filter hf)

/-- The comparison of a lookup finds the cell of the callsign. -/
theorem FilterTable.Wf.match_iff (hs : s.Wf table) {i : Nat} {f : FilterCell} (hf : f ∈ s.hash i)
    {call : Bytes} (hcall : (0 : UInt8) ∉ call) :
    (f.hash = keyhash (call.map toupper) 0 ∧ f.callsign.length = call.length ∧
      caseEq (cString f.callsign) (cString call) = true) ↔ f.callsign = call.map toupper := by
  rw [cString_eq_self hcall]
  constructor
  · rintro ⟨-, hlen, heq⟩
    -- The texts compared have one length, so there is no NUL in the cell.
    have hwhole : cString f.callsign = f.callsign :=
      (List.takeWhile_sublist _).eq_of_length ((length_eq_of_caseEq heq).trans hlen.symm)
    rw [hwhole] at heq
    rw [← caseEq_iff.mp heq, hs.upper i f hf]
  · intro heq
    have hnul : (0 : UInt8) ∉ f.callsign := by
      rw [heq]
      intro hmem
      obtain ⟨b, hb, hzero⟩ := List.mem_map.mp hmem
      exact hcall (toupper_eq_zero.mp hzero ▸ hb)
    rw [cString_eq_self hnul]
    refine ⟨by rw [hs.hashed i f hf, heq], by rw [heq, List.length_map], ?_⟩
    rw [caseEq_iff, heq, List.map_map]
    simp [Function.comp_def]

/-- A lookup finds the cell of the callsign if its expiry time is long past. -/
theorem FilterTable.Wf.lookup (hs : s.Wf table) (tick : Int) {pb : Pbuf}
    (hcall : (0 : UInt8) ∉ table.callsign pb) :
    table.lookup tick pb s = true ↔
      ∃ f, get FilterCell.callsign table.index s.hash ((table.callsign pb).map toupper) = some f ∧
        f.expirytime < tick - 60 := by
  have hlookup : table.lookup tick pb s =
      s.lookup tick (table.index ((table.callsign pb).map toupper))
        (keyhash ((table.callsign pb).map toupper) 0) (table.callsign pb) := by
    cases table <;> rfl
  rw [hlookup, FilterTable.lookup, List.any_eq_true]
  simp only [Bool.and_eq_true, decide_eq_true_eq, hs.chains.get_eq_some]
  constructor
  · rintro ⟨f, hf, ⟨⟨hhash, hlen⟩, heq⟩, hexp⟩
    exact ⟨f, ⟨hf, (hs.match_iff hf hcall).mp ⟨hhash, hlen, heq⟩⟩, hexp⟩
  · rintro ⟨f, ⟨hf, hkey⟩, hexp⟩
    obtain ⟨hhash, hlen, heq⟩ := (hs.match_iff hf hcall).mpr hkey
    exact ⟨f, hf, ⟨⟨hhash, hlen⟩, heq⟩, hexp⟩

end

/-! ## The calls -/

namespace StationTable

variable {table : StationTable} {pb : Pbuf} {s : FilterTable}

theorem entrycall_eq {call : Bytes} (h : pb.entrycall = some call) :
    call = pb.entrycallKey.map toupper := by
  have hlen : pb.entrycallKey = (pb.data.drop (pb.qconstStart + 4)).take call.length := by
    rw [Pbuf.entrycallKey, h, Option.getD_some]
  rw [hlen]
  unfold Pbuf.entrycall at h
  simp only at h
  split at h
  · obtain rfl := Option.some.inj h
    rw [List.length_map]
    exact congrArg (List.map toupper) (List.prefix_iff_eq_take.mp
      ((List.takeWhile_prefix _).trans (List.take_prefix callsignlenMax _)))
  · cases h

/-- The gauge counts a cell before it is known whether there is one. -/
def countsEarly : StationTable → Bool
  | entrycall => false
  | wx => true

theorem insert_of_stores (tick : Int) (cellmalloc : Bool) (h : table.stores pb = true) :
    table.insert tick cellmalloc pb s =
      s.insert table.countsEarly cellmalloc (table.index ((table.callsign pb).map toupper))
        (table.cell tick ((table.callsign pb).map toupper)) := by
  cases table with
  | entrycall =>
    rw [stores, Bool.and_eq_true, Bool.or_eq_true, beq_iff_eq, beq_iff_eq] at h
    obtain ⟨call, hcall⟩ := Option.isSome_iff_exists.mp h.1
    have hq : ¬((pb.data.drop (pb.qconstStart + 2)).headD 0 ≠ ch 'r' ∧
        (pb.data.drop (pb.qconstStart + 2)).headD 0 ≠ ch 'R') := by tauto
    simp only [insert, filterEntrycallInsert, hcall]
    rw [if_neg hq]
    obtain rfl := entrycall_eq hcall
    rfl
  | wx =>
    rw [stores, Bool.and_eq_true, bne_iff_ne, beq_iff_eq] at h
    simp only [insert, filterWxInsert]
    rw [if_pos h]
    rfl

theorem insert_of_not_stores (tick : Int) (cellmalloc : Bool) (h : table.stores pb = false) :
    table.insert tick cellmalloc pb s = s := by
  cases table with
  | entrycall =>
    simp only [insert, filterEntrycallInsert]
    cases hcall : pb.entrycall with
    | none => rfl
    | some call =>
      rw [stores, hcall, Option.isSome_some, Bool.true_and, Bool.or_eq_false_iff, beq_eq_false_iff_ne,
        beq_eq_false_iff_ne] at h
      exact if_pos h
  | wx =>
    rw [stores, Bool.and_eq_false_iff, bne_eq_false_iff_eq, beq_eq_false_iff_ne] at h
    exact if_neg (by tauto)

/-- The table has the cell of the last insert of a callsign, unless a cleanup came after its
time was over. -/
structure Recalls (table : StationTable) (calls : List StationCall) (s : FilterTable) : Prop where
  wf : s.Wf table
  get_eq_some : ∀ call f,
    get FilterCell.callsign table.index s.hash (call.map toupper) = some f ↔
      ∃ t, table.lastInsert calls call = some t ∧ ¬CleanedFrom calls (t + table.maxage) ∧
        f = table.cell t (call.map toupper)

variable {calls : List StationCall} {tick : Int}

theorem recalls_init : Recalls table [] .init := ⟨FilterTable.wf_init, by
  simp [lastInsert, FilterTable.init]⟩

theorem lastInsert_append (calls : List StationCall) (c : StationCall) (call : Bytes) :
    table.lastInsert (calls ++ [c]) call =
      (table.insertTick call c).or (table.lastInsert calls call) := by
  rw [lastInsert, List.reverse_append, List.findSome?_append]
  simp [lastInsert]

theorem maxage_pos : 0 < table.maxage := by
  cases table <;> decide

theorem not_cleanedFrom (hlast : ∀ c ∈ calls, c.tick ≤ tick) :
    ¬CleanedFrom calls (tick + table.maxage) := by
  rintro ⟨t, ht, hmem⟩
  have hle : t ≤ tick := hlast _ hmem
  have hpos : 0 < table.maxage := maxage_pos
  omega

/-- A call that inserts nothing and is no cleanup changes nothing. -/
theorem Recalls.other (h : Recalls table calls s) {c : StationCall}
    (hinsert : ∀ call, table.insertTick call c = none) (hcleanup : ∀ t, c ≠ .cleanup t) :
    Recalls table (calls ++ [c]) s where
  wf := h.wf
  get_eq_some call f := by
    have hclean : ∀ t, CleanedFrom (calls ++ [c]) t ↔ CleanedFrom calls t := fun t => by
      simp [CleanedFrom, (hcleanup _).symm]
    simp only [lastInsert_append, hinsert, Option.none_or, hclean]
    exact h.get_eq_some call f

theorem Recalls.insert (h : Recalls table calls s) (hlast : ∀ c ∈ calls, c.tick ≤ tick)
    (pb : Pbuf) : Recalls table (calls ++ [.insert tick pb]) (table.insert tick true pb s) := by
  cases hstores : table.stores pb with
  | false =>
    rw [insert_of_not_stores tick true hstores]
    exact h.other (fun call => by simp [insertTick, hstores]) (fun t => by simp)
  | true =>
    have heq := insert_of_stores (s := s) tick true hstores
    obtain ⟨hwf, hget⟩ := @FilterTable.Wf.insert table s h.wf table.countsEarly tick
      ((table.callsign pb).map toupper)
      (by simp [Function.comp_def])
    rw [heq]
    refine ⟨hwf, fun call f => ?_⟩
    have hclean : ∀ t, CleanedFrom (calls ++ [.insert tick pb]) t ↔ CleanedFrom calls t :=
      fun t => by simp [CleanedFrom]
    rw [hget]
    simp only [lastInsert_append, hclean]
    cases hcall : caseEq (table.callsign pb) call with
    | true =>
      have hfresh : ¬CleanedFrom calls (tick + table.maxage) := not_cleanedFrom hlast
      rw [← caseEq_iff.mp hcall, Function.update_self]
      simp [insertTick, hstores, hcall, hfresh, eq_comm]
    | false =>
      have hne : call.map toupper ≠ (table.callsign pb).map toupper := fun heq => by
        rw [caseEq_iff.mpr heq.symm] at hcall
        cases hcall
      rw [Function.update_of_ne hne, h.get_eq_some]
      simp [insertTick, hcall]

theorem Recalls.cleanup (h : Recalls table calls s) (tick : Int) :
    Recalls table (calls ++ [.cleanup tick]) (table.cleanup tick s) := by
  obtain ⟨hwf, hget⟩ := h.wf.cleanup tick
  refine ⟨hwf, fun call f => ?_⟩
  have hclean : ∀ t, CleanedFrom (calls ++ [.cleanup tick]) t ↔ CleanedFrom calls t ∨ t ≤ tick :=
    fun t => by
      simp only [CleanedFrom, List.mem_append, List.mem_singleton, StationCall.cleanup.injEq]
      constructor
      · rintro ⟨t', hle, hmem | rfl⟩
        · exact .inl ⟨t', hle, hmem⟩
        · exact .inr hle
      · rintro (⟨t', hle, hmem⟩ | hle)
        · exact ⟨t', hle, .inl hmem⟩
        · exact ⟨tick, hle, .inr rfl⟩
  rw [hget, Option.filter_eq_some_iff, h.get_eq_some]
  simp only [lastInsert_append, insertTick, Option.none_or, hclean]
  constructor
  · rintro ⟨⟨t, ht, hkept, rfl⟩, hexp⟩
    have hlive : decide (t + table.maxage ≤ tick) = false := (Bool.not_eq_true' _).mp hexp
    exact ⟨t, ht, not_or.mpr ⟨hkept, of_decide_eq_false hlive⟩, rfl⟩
  · rintro ⟨t, ht, hkept, rfl⟩
    obtain ⟨hkept, hlive⟩ := not_or.mp hkept
    exact ⟨⟨t, ht, hkept, rfl⟩, (Bool.not_eq_true' _).mpr (decide_eq_false hlive)⟩

/-- The table after calls whose ticks do not decrease. -/
theorem recalls_run (hticks : (calls.map StationCall.tick).Pairwise (· ≤ ·)) :
    Recalls table calls (run table.step .init calls) := by
  induction calls using List.reverseRecOn with
  | nil => exact recalls_init
  | append_singleton calls c ih =>
    rw [List.map_append, List.pairwise_append] at hticks
    obtain ⟨hticks, -, hle⟩ := hticks
    have hprev : ∀ c' ∈ calls, c'.tick ≤ c.tick := fun c' hc' =>
      hle c'.tick (List.mem_map_of_mem hc') c.tick (by simp)
    rw [run_append]
    have ih := ih hticks
    cases c with
    | insert tick pb => exact ih.insert hprev pb
    | cleanup tick => exact ih.cleanup tick
    | lookup tick pb => exact ih.other (fun _ => rfl) (fun t => by simp)

theorem insertTick_eq_some {call : Bytes} {c : StationCall} {t : Int} :
    table.insertTick call c = some t ↔
      ∃ pb, c = .insert t pb ∧ table.stores pb = true ∧ caseEq (table.callsign pb) call = true := by
  cases c with
  | insert tick pb =>
    simp only [insertTick, Option.ite_none_right_eq_some, Bool.and_eq_true, Option.some.injEq,
      StationCall.insert.injEq]
    constructor
    · rintro ⟨h, rfl⟩
      exact ⟨pb, ⟨rfl, rfl⟩, h⟩
    · rintro ⟨pb', ⟨rfl, rfl⟩, h⟩
      exact ⟨h, rfl⟩
  | cleanup => simp [insertTick]
  | lookup => simp [insertTick]

/-- No insert of a callsign is later than the last one. -/
theorem le_lastInsert (hticks : (calls.map StationCall.tick).Pairwise (· ≤ ·)) {call : Bytes}
    {t : Int} {c : StationCall} (hc : c ∈ calls) (ht : table.insertTick call c = some t) :
    ∃ t' ≥ t, table.lastInsert calls call = some t' := by
  induction calls using List.reverseRecOn with
  | nil => cases hc
  | append_singleton calls last ih =>
    rw [List.map_append, List.pairwise_append] at hticks
    obtain ⟨hticks, -, hle⟩ := hticks
    rw [lastInsert_append]
    cases hlast : table.insertTick call last with
    | some t' =>
      refine ⟨t', ?_, rfl⟩
      obtain ⟨pb, rfl, -⟩ := insertTick_eq_some.mp ht
      obtain ⟨pb', rfl, -⟩ := insertTick_eq_some.mp hlast
      obtain hc | hc := List.mem_append.mp hc
      · exact hle t (List.mem_map_of_mem (f := StationCall.tick) hc) t' (by simp [StationCall.tick])
      · obtain ⟨rfl, -⟩ : t = t' ∧ pb = pb' := by simpa using hc
        exact Int.le_refl t
    | none =>
      obtain hc | hc := List.mem_append.mp hc
      · exact ih hticks hc
      · obtain rfl := List.mem_singleton.mp hc
        rw [ht] at hlast
        cases hlast

/-- Of the inserts of a callsign the last one counts. -/
theorem remembered_iff (hticks : (calls.map StationCall.tick).Pairwise (· ≤ ·)) (call : Bytes) :
    table.Remembered calls tick call ↔
      ∃ t, table.lastInsert calls call = some t ∧ t + table.maxage > tick - 60 := by
  constructor
  · rintro ⟨t, pb, hmem, hstores, heq, hvalid⟩
    obtain ⟨t', hle, hlast⟩ :=
      le_lastInsert hticks hmem (insertTick_eq_some.mpr ⟨pb, rfl, hstores, heq⟩)
    exact ⟨t', hlast, by omega⟩
  · rintro ⟨t, hlast, hvalid⟩
    obtain ⟨c, hmem, ht⟩ := List.exists_of_findSome?_eq_some hlast
    obtain ⟨pb, rfl, hstores, heq⟩ := insertTick_eq_some.mp ht
    exact ⟨t, pb, List.mem_reverse.mp hmem, hstores, heq, hvalid⟩

/-- A lookup answers what it should: the callsign was never inserted, or its time is over
by more than 60 seconds and a cleanup has removed it, or by exactly 60 seconds. -/
def AnswersRight (table : StationTable) (calls : List StationCall) (tick : Int) (call : Bytes) :
    Prop :=
  ∀ t, table.lastInsert calls call = some t →
    t + table.maxage = tick - 60 ∨
      (t + table.maxage < tick - 60 ∧ CleanedFrom calls (t + table.maxage))

end StationTable

/-- In every run with enough memory, a lookup finds the callsigns that are to be remembered
exactly when the callsign was never inserted, or its time was over long enough before. -/
theorem station_lookup_iff (table : StationTable) (calls : List StationCall)
    (hticks : (calls.map StationCall.tick).Pairwise (· ≤ ·)) (tick : Int) (pb : Pbuf)
    (hcall : (0 : UInt8) ∉ table.callsign pb) (before after : List StationCall)
    (hsplit : calls = before ++ .lookup tick pb :: after) :
    (table.lookup tick pb (run table.step .init before) = true ↔
        table.Remembered before tick (table.callsign pb)) ↔
      table.AnswersRight before tick (table.callsign pb) := by
  have hbefore : (before.map StationCall.tick).Pairwise (· ≤ ·) := by
    rw [hsplit, List.map_append, List.pairwise_append] at hticks
    exact hticks.1
  have hs := @StationTable.recalls_run table _ hbefore
  rw [hs.wf.lookup tick hcall, StationTable.remembered_iff hbefore, StationTable.AnswersRight]
  simp only [hs.get_eq_some]
  cases hlast : table.lastInsert before (table.callsign pb) with
  | none => simp
  | some t =>
    simp only [Option.some.injEq, exists_eq_left', forall_eq', StationTable.cell]
    by_cases hclean : StationTable.CleanedFrom before (t + table.maxage)
    · simp [hclean]
      omega
    · simp [hclean]
      omega

/-- A packet that came in at an igate, with weather but without a position. -/
private def stationPacket : Pbuf where
  data := ascii "OH7AB>APRS,qAR,OH7RDA:_10090556c220s004\r\n"
  packetLen := 41
  packettype := tWx
  flags := 0
  srcname := 0
  srcnameLen := 5
  dstname := none
  dstnameLen := 0
  srccallEnd := 5
  dstcallEndOrSsid := 10
  dstcallEnd := 10
  dstcallLen := 4
  qconstStart := 11
  infoStart := 22
  t := 1000

private def stationCalls : List StationCall := [.insert 1000 stationPacket]

theorem station_lookup_iff_cleaned :
    StationTable.entrycall.lookup 5000 stationPacket
        (run StationTable.entrycall.step .init (stationCalls ++ [.cleanup 5000])) = true ↔
      StationTable.entrycall.Remembered (stationCalls ++ [.cleanup 5000]) 5000
        (StationTable.entrycall.callsign stationPacket) := by
  have hlast : StationTable.entrycall.lastInsert (stationCalls ++ [.cleanup 5000])
      (StationTable.entrycall.callsign stationPacket) = some 1000 := by decide
  refine (station_lookup_iff .entrycall _ (by decide) 5000 stationPacket (by decide)
    (stationCalls ++ [.cleanup 5000]) [] rfl).mpr fun t ht => .inr ?_
  obtain rfl := Option.some.inj (hlast.symm.trans ht)
  exact ⟨by decide, 5000, by decide, by simp⟩

/-- A station is not found one second after it was stored, and it is found when its time
is over. -/
theorem stored_station_not_found :
    (StationTable.entrycall.Remembered stationCalls 1001 (ascii "OH7RDA") ∧
      StationTable.entrycall.lookup 1001 stationPacket
        (run StationTable.entrycall.step .init stationCalls) = false) ∧
    (StationTable.wx.Remembered stationCalls 1001 (ascii "OH7AB") ∧
      StationTable.wx.lookup 1001 stationPacket
        (run StationTable.wx.step .init stationCalls) = false) ∧
    ¬StationTable.wx.Remembered stationCalls 4661 (ascii "OH7AB") ∧
      StationTable.wx.lookup 4661 stationPacket
        (run StationTable.wx.step .init stationCalls) = true := by
  refine ⟨⟨⟨1000, stationPacket, by simp [stationCalls], by decide, by decide, by decide⟩, by decide⟩,
    ⟨⟨1000, stationPacket, by simp [stationCalls], by decide, by decide, by decide⟩, by decide⟩,
    ?_, by decide⟩
  rintro ⟨t, pb, hmem, -, -, hvalid⟩
  obtain ⟨rfl, -⟩ : t = 1000 ∧ pb = stationPacket := by simpa [stationCalls] using hmem
  revert hvalid
  decide

end Aprsc
