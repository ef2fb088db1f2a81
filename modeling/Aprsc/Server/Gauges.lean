-- SUMMARY: The gauges of the databases, and in which runs they are the numbers of the stored entries.
import Aprsc.Base.ChainCounts
import Aprsc.Dupecheck.Edits
import Aprsc.Filter.Stations
import Aprsc.History.Map

/-!
# Gauges

The duplicate database, the history database and the tables of stations each keep a gauge
of their cells. The first and the table of entry stations count a cell when it has been
allocated. The history database and the table of weather stations count it before it is
known whether there is memory for it, and the gauge stays too high when there is none.
-/

namespace Aprsc

open Runs ChainCounts

/-! ## More operations -/

/-- `dupecheck_atend`, as far as the database goes. -/
def dupecheckAtend (s : DupecheckDb) : DupecheckDb :=
  dupecheckDbFree (total dupecheckDbSize s.db)
    { s with db := fun i => if i < dupecheckDbSize then [] else s.db i }

/-- `historydb_atend`. -/
def historydbAtend (s : Historydb) : Historydb :=
  { s with
    hash := fun i => if i < historydbHashModulo then [] else s.hash i
    cellgauge := s.cellgauge - total historydbHashModulo s.hash }

/-- `historydb_load_entry` of an entry that has been decoded. -/
def historydbLoadEntry (env : HistorydbEnv) (tick : Int) (cp : HistoryCell) (s : Historydb) :
    Historydb :=
  if cp.arrivaltime < tick - env.lastpositionStoretime then s
  else
    let h1 := keyhash cp.key 0
    let i := historydbIndex h1
    let ok := env.cellmalloc s.mallocs
    let s := { s with cellgauge := s.cellgauge + 1, mallocs := s.mallocs + 1 }
    if ok then s.setBucket i ({ cp with hash1 := h1 } :: s.hash i) else s

/-- `filter_entrycall_atend` and `filter_wx_atend`. -/
def FilterTable.atend (s : FilterTable) (size : Nat) : FilterTable :=
  { hash := fun i => if i < size then [] else s.hash i
    cellgauge := s.cellgauge - total size s.hash }

/-! ## Runs -/

/-- The databases with gauges. -/
structure Databases where
  dupe : DupecheckDb
  history : Historydb
  stations : StationTable → FilterTable

def Databases.init : Databases := ⟨.init, .init, fun _ => .init⟩

structure DatabasesEnv where
  dupe : DupecheckEnv
  history : HistorydbEnv

/-- The calls on the databases, each at its `tick`. An insert into a table of stations
comes with what `cellmalloc` returns to it. -/
inductive DatabaseCall where
  | dupecheck (tick : Int) (pb : Pbuf)
  | dupecheckCleanup (tick : Int)
  | dupecheckAtend
  | historydbInsert (tick : Int) (pb : Pbuf)
  | historydbLoadEntry (tick : Int) (cp : HistoryCell)
  | historydbCleanup (tick : Int)
  | historydbAtend
  | stationInsert (table : StationTable) (tick : Int) (cellmalloc : Bool) (pb : Pbuf)
  | stationCleanup (table : StationTable) (tick : Int)
  | stationAtend (table : StationTable)

def Databases.setTable (s : Databases) (table : StationTable) (t : FilterTable) : Databases :=
  { s with stations := Function.update s.stations table t }

def Databases.step (env : DatabasesEnv) (s : Databases) : DatabaseCall → Databases
  | .dupecheck tick pb => { s with dupe := (Aprsc.dupecheck env.dupe tick pb s.dupe).2 }
  | .dupecheckCleanup tick => { s with dupe := Aprsc.dupecheckCleanup env.dupe tick s.dupe }
  | .dupecheckAtend => { s with dupe := Aprsc.dupecheckAtend s.dupe }
  | .historydbInsert tick pb =>
      { s with history := Aprsc.historydbInsert env.history tick pb s.history }
  | .historydbLoadEntry tick cp =>
      { s with history := Aprsc.historydbLoadEntry env.history tick cp s.history }
  | .historydbCleanup tick => { s with history := Aprsc.historydbCleanup env.history tick s.history }
  | .historydbAtend => { s with history := Aprsc.historydbAtend s.history }
  | .stationInsert table tick cellmalloc pb =>
      s.setTable table (table.insert tick cellmalloc pb (s.stations table))
  | .stationCleanup table tick => s.setTable table (table.cleanup tick (s.stations table))
  | .stationAtend table => s.setTable table ((s.stations table).atend table.size)

/-- Each gauge is the number of entries in its table. -/
structure Databases.Exact (s : Databases) : Prop where
  dupe : s.dupe.cellgauge = total dupecheckDbSize s.dupe.db
  history : s.history.cellgauge = total historydbHashModulo s.history.hash
  stations : ∀ table, (s.stations table).cellgauge = total table.size (s.stations table).hash

/-! ## Failed inserts -/

/-- An insert into the history database needs a new cell. -/
def HistoryInsertNew (env : HistorydbEnv) (tick : Int) (pb : Pbuf) (s : Historydb) : Prop :=
  ∃ key, pb.storedKey = some (key, false) ∧
    (historydbScan (tick - env.lastpositionStoretime) (pb.historyCell key) false
      (s.hash (historydbKeyIndex key))).2.2 = false

/-- An insert into a table of stations needs a new cell. -/
def StationInsertNew (table : StationTable) (tick : Int) (pb : Pbuf) (s : FilterTable) : Prop :=
  table.stores pb = true ∧
    refreshCell (table.cell tick ((table.callsign pb).map toupper))
      (s.hash (table.index ((table.callsign pb).map toupper))) = none

/-- The insert of a call fails, because there is no memory for its entry. -/
def Databases.InsertFails (env : DatabasesEnv) (s : Databases) : DatabaseCall → Prop
  | .dupecheck tick pb => (Aprsc.dupecheck env.dupe tick pb s.dupe).1 = -1
  | .historydbInsert tick pb =>
      HistoryInsertNew env.history tick pb s.history ∧
        env.history.cellmalloc s.history.mallocs = false
  | .historydbLoadEntry tick cp =>
      tick - env.history.lastpositionStoretime ≤ cp.arrivaltime ∧
        env.history.cellmalloc s.history.mallocs = false
  | .stationInsert table tick cellmalloc pb =>
      StationInsertNew table tick pb (s.stations table) ∧ cellmalloc = false
  | _ => False

/-- The tick of an insert. -/
def DatabaseCall.insertTick : DatabaseCall → Option Int
  | .dupecheck tick _ | .historydbInsert tick _ | .historydbLoadEntry tick _
  | .stationInsert _ tick _ _ => some tick
  | _ => none

/-- The lookups in all tables, from a tick on. -/
structure SameLookups (env : DatabasesEnv) (tick : Int) (s s' : Databases) : Prop where
  dupe : ∀ t pb, matchingRecord env.dupe t pb s'.dupe = matchingRecord env.dupe t pb s.dupe
  history : ∀ t ≥ tick, ∀ key,
    historydbLookup env.history t key s'.history = historydbLookup env.history t key s.history
  stations : ∀ (table : StationTable) t pb,
    table.lookup t pb (s'.stations table) = table.lookup t pb (s.stations table)

/-- An insert that fails leaves the lookups as they are. -/
def FailKeepsLookups (env : DatabasesEnv) (s : Databases) (c : DatabaseCall) : Prop :=
  s.InsertFails env c → ∀ tick, c.insertTick = some tick → SameLookups env tick s (s.step env c)

/-- The gauge of the call counts a cell before it is known whether there is one. -/
def DatabaseCall.countsEarly : DatabaseCall → Bool
  | .historydbInsert _ _ | .historydbLoadEntry _ _ => true
  | .stationInsert table _ _ _ => table.countsEarly
  | _ => false

/-- An insert that counts its cell early does not fail. -/
def EarlySucceeds (env : DatabasesEnv) (s : Databases) (c : DatabaseCall) : Prop :=
  s.InsertFails env c → c.countsEarly = false

/-! ## The duplicate database -/

/-- By how much a gauge is too high. -/
def DupecheckDb.drift (s : DupecheckDb) : Int := s.cellgauge - total dupecheckDbSize s.db

def Historydb.drift (s : Historydb) : Int := s.cellgauge - total historydbHashModulo s.hash

def FilterTable.drift (s : FilterTable) (size : Nat) : Int := s.cellgauge - total size s.hash

theorem DupecheckDb.db_setBucket (s : DupecheckDb) (i : Nat) (chain : List DupeRecord) :
    (s.setBucket i chain).db = Function.update s.db i chain := by
  funext j
  simp [setBucket, Function.update_apply]

theorem keptByEdits_drift (d : Int) : KeptByEdits fun s => s.drift = d where
  add := by
    intro s i free mallocs dp hs hi _
    have htotal := @total_update_succ _ s.db _ _ hi (s.db i ++ [dp]) (List.length_append ..)
    simp only [DupecheckDb.drift, DupecheckDb.db_setBucket] at hs ⊢
    omega
  fail := fun _ hs => hs
  refresh := by
    intro s i pre post dp t hs hold
    simp only [DupecheckDb.drift, DupecheckDb.db_setBucket] at hs ⊢
    have hlen : (pre ++ { dp with t } :: post).length = (s.db i).length := by
      rw [hold, List.length_append, List.length_append]
      rfl
    by_cases hi : i < dupecheckDbSize
    · rw [total_update_eq hi hlen]
      exact hs
    · rw [total_update_of_le (Nat.not_lt.mp hi)]
      exact hs

section
variable {tick : Int} {pb : Pbuf}

theorem drift_dupecheck (env : DupecheckEnv) (s : DupecheckDb) :
    (dupecheck env tick pb s).2.drift = s.drift := by
  cases hmatch : matchingRecord env tick pb s with
  | none => exact ((keptByEdits_drift s.drift).dupecheck env tick rfl hmatch).1
  | some dp =>
    rw [dupecheck_of_match env tick hmatch]
    rfl

theorem drift_dupecheckCleanup (env : DupecheckEnv) (s : DupecheckDb) :
    (dupecheckCleanup env tick s).drift = s.drift := by
  have htotal := @total_filter _ s.db dupecheckDbSize (fun dp => !keepsRecord env tick dp)
    dupecheckDbSize (Nat.le_refl _)
  have hdb : (dupecheckCleanup env tick s).db = fun i =>
      if i < dupecheckDbSize then (s.db i).filter fun dp => !!keepsRecord env tick dp else s.db i := by
    simp only [Bool.not_not]
    rfl
  rw [DupecheckDb.drift, hdb]
  simp only [dupecheckCleanup, dupecheckDbFree, DupecheckDb.drift]
  omega

theorem drift_dupecheckAtend (s : DupecheckDb) : (dupecheckAtend s).drift = s.drift := by
  simp only [dupecheckAtend, dupecheckDbFree, DupecheckDb.drift,
    total_cleared (Nat.le_refl dupecheckDbSize)]
  omega

/-- Without memory a record is not linked. -/
theorem dupecheckLink_db_of_fails {env : DupecheckEnv} {i : Nat} {dp : DupeRecord} {s : DupecheckDb}
    (hfails : (dupecheckLink env i dp s).1 = false) : (dupecheckLink env i dp s).2.db = s.db := by
  unfold dupecheckLink dupecheckDbAlloc at hfails ⊢
  by_cases hfree : 0 < s.free
  · simp only [if_pos hfree] at hfails
    cases hfails
  · simp only [if_neg hfree] at hfails ⊢
    cases hmalloc : env.cellmalloc s.mallocs
    · rfl
    · rw [hmalloc] at hfails
      cases hfails

/-! ## The history database -/

/-- The scan of a chain frees as many cells as it drops. -/
theorem historydbScan_length {expirytime : Int} {new : HistoryCell} {isdead : Bool}
    {chain : List HistoryCell} :
    (historydbScan expirytime new isdead chain).1.length +
      (historydbScan expirytime new isdead chain).2.1 = chain.length := by
  induction chain with
  | nil => rfl
  | cons cp rest ih =>
    rw [historydbScan]
    generalize historydbScan expirytime new isdead rest = r at ih ⊢
    obtain ⟨chain, freed, found⟩ := r
    dsimp only at ih ⊢
    rw [List.length_cons]
    split
    · dsimp only
      omega
    · split
      · split
        · dsimp only
          omega
        · dsimp only
          rw [List.length_cons]
          omega
      · dsimp only
        rw [List.length_cons]
        omega

/-- A scan that does not find the key drops the cells that have expired. -/
theorem historydbScan_of_not_found {expirytime : Int} {new : HistoryCell} {chain : List HistoryCell}
    (hfound : (historydbScan expirytime new false chain).2.2 = false) :
    (historydbScan expirytime new false chain).1 =
      chain.filter fun cp => !decide (cp.arrivaltime < expirytime) := by
  induction chain with
  | nil => rfl
  | cons cp rest ih =>
    rw [historydbScan] at hfound ⊢
    generalize historydbScan expirytime new false rest = r at ih hfound ⊢
    obtain ⟨chain, freed, found⟩ := r
    dsimp only at ih hfound ⊢
    rw [List.filter_cons]
    by_cases hold : cp.arrivaltime < expirytime
    · rw [if_pos hold] at hfound ⊢
      simp [ih hfound, hold]
    · rw [if_neg hold] at hfound ⊢
      by_cases hmatch : cp.hash1 = new.hash1 ∧ cp.key = new.key
      · rw [if_pos hmatch] at hfound
        cases hfound
      · rw [if_neg hmatch] at hfound ⊢
        simp [ih hfound, hold]

variable {env : HistorydbEnv} {s : Historydb}

/-- The cells that the scan frees are counted. -/
theorem drift_setBucket {i freed : Nat} {chain : List HistoryCell} (hi : i < historydbHashModulo)
    (hlen : chain.length + freed = (s.hash i).length) :
    ({ s.setBucket i chain with cellgauge := s.cellgauge - freed } : Historydb).drift = s.drift := by
  have htotal := @total_update _ s.hash _ _ hi chain
  simp only [Historydb.drift, Historydb.hash_setBucket]
  omega

/-- A new cell that there is memory for is counted once, and one that there is not is
counted too. -/
theorem drift_newCell {i : Nat} (hi : i < historydbHashModulo) {chain : List HistoryCell}
    (hlen : chain.length = (s.hash i).length + 1) :
    (if env.cellmalloc s.mallocs then
        Historydb.setBucket { s with cellgauge := s.cellgauge + 1, mallocs := s.mallocs + 1 } i chain
      else { s with cellgauge := s.cellgauge + 1, mallocs := s.mallocs + 1 }).drift =
      s.drift + if env.cellmalloc s.mallocs = false then 1 else 0 := by
  have htotal := @total_update_succ _ s.hash _ _ hi chain hlen
  cases env.cellmalloc s.mallocs
  · simp only [Bool.false_eq_true, if_false, if_true, Historydb.drift]
    omega
  · simp only [Bool.true_eq_false, if_false, if_true, Historydb.drift, Historydb.hash_setBucket]
    simp only [Historydb.setBucket]
    omega

theorem drift_historydbAppend {i : Nat} (hi : i < historydbHashModulo) (cp : HistoryCell) :
    (historydbAppend env i cp s).drift =
      s.drift + if env.cellmalloc s.mallocs = false then 1 else 0 :=
  drift_newCell hi (List.length_append ..)

/-- The database after the scan of an insert. -/
def scannedHistory (env : HistorydbEnv) (tick : Int) (pb : Pbuf) (key : Bytes) (isdead : Bool)
    (s : Historydb) : Historydb :=
  let r := historydbScan (tick - env.lastpositionStoretime) (pb.historyCell key) isdead
    (s.hash (historydbKeyIndex key))
  { s.setBucket (historydbKeyIndex key) r.1 with cellgauge := s.cellgauge - r.2.1 }

theorem drift_scannedHistory (key : Bytes) (isdead : Bool) :
    (scannedHistory env tick pb key isdead s).drift = s.drift :=
  drift_setBucket (historydbKeyIndex_lt key) historydbScan_length

/-- The insert of a packet that is stored, or that removes its key. -/
theorem historydbInsert_of_some {key : Bytes} {isdead : Bool}
    (h : pb.storedKey = some (key, isdead)) :
    historydbInsert env tick pb s =
      if !(historydbScan (tick - env.lastpositionStoretime) (pb.historyCell key) isdead
          (s.hash (historydbKeyIndex key))).2.2 && !isdead then
        historydbAppend env (historydbKeyIndex key) (pb.historyCell key)
          (scannedHistory env tick pb key isdead s)
      else scannedHistory env tick pb key isdead s := by
  obtain ⟨hpos, hkey⟩ := Pbuf.historyKey_of_storedKey h
  rw [historydbInsert, if_neg hpos, hkey]
  rfl

/-- A new cell is appended after the scan. -/
theorem historydbInsert_of_new (h : HistoryInsertNew env tick pb s) :
    ∃ key, pb.storedKey = some (key, false) ∧
      (historydbScan (tick - env.lastpositionStoretime) (pb.historyCell key) false
        (s.hash (historydbKeyIndex key))).2.2 = false ∧
      historydbInsert env tick pb s =
        historydbAppend env (historydbKeyIndex key) (pb.historyCell key)
          (scannedHistory env tick pb key false s) := by
  obtain ⟨key, hkey, hfound⟩ := h
  refine ⟨key, hkey, hfound, ?_⟩
  rw [historydbInsert_of_some hkey, hfound]
  rfl

theorem drift_historydbInsert_of_not_new (h : ¬HistoryInsertNew env tick pb s) :
    (historydbInsert env tick pb s).drift = s.drift := by
  cases hkey : pb.storedKey with
  | none => rw [historydbInsert_of_none hkey]
  | some k =>
    obtain ⟨key, isdead⟩ := k
    rw [historydbInsert_of_some hkey, if_neg]
    · exact drift_scannedHistory key isdead
    · intro hnew
      rw [Bool.and_eq_true, Bool.not_eq_true', Bool.not_eq_true'] at hnew
      obtain ⟨hfound, rfl⟩ := hnew
      exact h ⟨key, hkey, hfound⟩

theorem drift_historydbInsert_of_new (h : HistoryInsertNew env tick pb s) :
    (historydbInsert env tick pb s).drift =
      s.drift + if env.cellmalloc s.mallocs = false then 1 else 0 := by
  obtain ⟨key, -, -, heq⟩ := historydbInsert_of_new h
  rw [heq, drift_historydbAppend (historydbKeyIndex_lt key), drift_scannedHistory]
  rfl

/-- A lookup does not see the cells that a failed insert has dropped. -/
theorem historydbLookup_of_fails (h : HistoryInsertNew env tick pb s)
    (hmalloc : env.cellmalloc s.mallocs = false) {t : Int} (ht : t ≥ tick) (key : Bytes) :
    historydbLookup env t key (historydbInsert env tick pb s) = historydbLookup env t key s := by
  obtain ⟨k, -, hfound, heq⟩ := historydbInsert_of_new h
  have hhash : (historydbInsert env tick pb s).hash =
      Function.update s.hash (historydbKeyIndex k)
        ((s.hash (historydbKeyIndex k)).filter fun cp =>
          !decide (cp.arrivaltime < tick - env.lastpositionStoretime)) := by
    rw [heq, ← historydbScan_of_not_found hfound, ← Historydb.hash_setBucket]
    simp [historydbAppend, scannedHistory, Historydb.setBucket, hmalloc]
  unfold historydbLookup
  dsimp only
  rw [hhash, Function.update_apply]
  split
  · rename_i hindex
    rw [hindex, List.find?_filter]
    congr 1
    funext cp
    -- What a lookup returns has not expired for the insert.
    by_cases hlive : cp.arrivaltime < tick - env.lastpositionStoretime
    · have hinvalid : cp.arrivaltime ≤ t - env.lastpositionStoretime + 300 := by omega
      simp [hlive, hinvalid]
    · simp [hlive]
  · rfl

theorem drift_historydbLoadEntry_of_old {cp : HistoryCell}
    (hold : cp.arrivaltime < tick - env.lastpositionStoretime) :
    (historydbLoadEntry env tick cp s).drift = s.drift := by
  rw [historydbLoadEntry, if_pos hold]

theorem drift_historydbLoadEntry {cp : HistoryCell}
    (hlive : tick - env.lastpositionStoretime ≤ cp.arrivaltime) :
    (historydbLoadEntry env tick cp s).drift =
      s.drift + if env.cellmalloc s.mallocs = false then 1 else 0 := by
  rw [historydbLoadEntry, if_neg (Int.not_lt.mpr hlive)]
  exact drift_newCell (historydbKeyIndex_lt cp.key) rfl

theorem drift_historydbCleanup : (historydbCleanup env tick s).drift = s.drift := by
  have htotal := @total_filter _ s.hash historydbHashModulo
    (fun cp => decide (cp.arrivaltime < tick - env.lastpositionStoretime)) historydbHashModulo
    (Nat.le_refl _)
  simp only [historydbCleanup, Historydb.drift]
  omega

theorem drift_historydbAtend : (historydbAtend s).drift = s.drift := by
  simp only [historydbAtend, Historydb.drift, total_cleared (Nat.le_refl historydbHashModulo)]
  omega

end

/-! ## The tables of stations -/

section
variable {table : StationTable} {tick : Int} {pb : Pbuf} {s : FilterTable}

theorem FilterTable.hash_setBucket (s : FilterTable) (i : Nat) (chain : List FilterCell) :
    (s.setBucket i chain).hash = Function.update s.hash i chain := by
  funext j
  simp [setBucket, Function.update_apply]

theorem refreshCell_length {new : FilterCell} {chain chain' : List FilterCell}
    (h : refreshCell new chain = some chain') : chain'.length = chain.length := by
  induction chain generalizing chain' with
  | nil => cases h
  | cons f rest ih =>
    rw [refreshCell] at h
    split at h
    · cases h
      rfl
    · obtain ⟨rest', hrest, rfl⟩ := Option.map_eq_some_iff.mp h
      rw [List.length_cons, List.length_cons, ih hrest]

/-- A cell that is refreshed changes no count, and neither does a packet that is not
stored. -/
theorem drift_stationInsert_of_not_new (cellmalloc : Bool) (h : ¬StationInsertNew table tick pb s) :
    (table.insert tick cellmalloc pb s).drift table.size = s.drift table.size := by
  cases hstores : table.stores pb with
  | false => rw [StationTable.insert_of_not_stores tick cellmalloc hstores]
  | true =>
    rw [StationTable.insert_of_stores tick cellmalloc hstores, FilterTable.insert]
    cases hrefresh : refreshCell (table.cell tick ((table.callsign pb).map toupper))
        (s.hash (table.index ((table.callsign pb).map toupper))) with
    | none => exact absurd ⟨hstores, hrefresh⟩ h
    | some chain =>
      have htotal := total_update_eq (table.index_lt _)
        (refreshCell_length hrefresh)
      simp only [FilterTable.drift, FilterTable.hash_setBucket, htotal]
      rfl

/-- A new cell that there is memory for is counted once. One that there is not is counted
if the table counts early. -/
theorem drift_stationInsert_of_new (cellmalloc : Bool) (h : StationInsertNew table tick pb s) :
    (table.insert tick cellmalloc pb s).drift table.size =
      s.drift table.size + if cellmalloc = false ∧ table.countsEarly = true then 1 else 0 := by
  have htotal := @total_update_succ _ s.hash _ _
    (table.index_lt ((table.callsign pb).map toupper))
    (table.cell tick ((table.callsign pb).map toupper) ::
      s.hash (table.index ((table.callsign pb).map toupper))) rfl
  rw [StationTable.insert_of_stores tick cellmalloc h.1, FilterTable.insert, h.2]
  cases cellmalloc
  · cases hearly : table.countsEarly
    · simp [FilterTable.drift]
    · simp [FilterTable.drift]
      omega
  · have hchain : (FilterTable.setBucket { s with cellgauge := s.cellgauge + 1 }
        (table.index ((table.callsign pb).map toupper))
        (table.cell tick ((table.callsign pb).map toupper) ::
          s.hash (table.index ((table.callsign pb).map toupper)))).hash =
      Function.update s.hash (table.index ((table.callsign pb).map toupper))
        (table.cell tick ((table.callsign pb).map toupper) ::
          s.hash (table.index ((table.callsign pb).map toupper))) := FilterTable.hash_setBucket ..
    simp only [Bool.or_true, if_true, FilterTable.drift, hchain]
    simp [FilterTable.setBucket]
    omega

/-- Without memory a table keeps its chains. -/
theorem stationInsert_hash_of_fails (h : StationInsertNew table tick pb s) :
    (table.insert tick false pb s).hash = s.hash := by
  rw [StationTable.insert_of_stores tick false h.1, FilterTable.insert, h.2]
  cases table <;> rfl

theorem drift_stationCleanup : (table.cleanup tick s).drift table.size = s.drift table.size := by
  have hcleanup : table.cleanup tick s = s.cleanup table.size tick := by cases table <;> rfl
  have htotal := @total_filter _ s.hash table.size (fun f => decide (f.expirytime ≤ tick)) table.size
    (Nat.le_refl _)
  rw [hcleanup]
  simp only [FilterTable.cleanup, FilterTable.drift]
  omega

theorem drift_stationAtend (size : Nat) : (s.atend size).drift size = s.drift size := by
  simp only [FilterTable.atend, FilterTable.drift, total_cleared (Nat.le_refl size)]
  omega

end

/-! ## Runs -/

section
variable {env : DatabasesEnv} {s : Databases}

theorem Databases.exact_iff : s.Exact ↔
    s.dupe.drift = 0 ∧ s.history.drift = 0 ∧ ∀ table, (s.stations table).drift table.size = 0 := by
  simp only [DupecheckDb.drift, Historydb.drift, FilterTable.drift, Int.sub_eq_zero]
  exact ⟨fun h => ⟨h.dupe, h.history, h.stations⟩, fun h => ⟨h.1, h.2.1, h.2.2⟩⟩

/-- One table is written. -/
theorem Databases.Exact.setTable_iff (h : s.Exact) {table : StationTable} {t : FilterTable} :
    (s.setTable table t).Exact ↔ t.drift table.size = 0 := by
  obtain ⟨hdupe, hhistory, hstations⟩ := exact_iff.mp h
  rw [exact_iff]
  constructor
  · rintro ⟨-, -, hall⟩
    simpa [setTable] using hall table
  · intro ht
    refine ⟨hdupe, hhistory, fun table' => ?_⟩
    simp only [setTable, Function.update_apply]
    split
    · rename_i heq
      rw [heq]
      exact ht
    · exact hstations table'

theorem zero_add_ite_eq_zero {p : Prop} [Decidable p] : (0 + if p then 1 else 0 : Int) = 0 ↔ ¬p := by
  by_cases hp : p <;> simp [hp]

/-- From exact gauges a call keeps them exact unless it counts a cell that it does not
get. -/
theorem Databases.Exact.exact_step_iff (h : s.Exact) (c : DatabaseCall) :
    (s.step env c).Exact ↔ EarlySucceeds env s c := by
  obtain ⟨hdupe, hhistory, hstations⟩ := exact_iff.mp h
  have hothers : ∀ {dupe : DupecheckDb}, dupe.drift = s.dupe.drift →
      ({ s with dupe } : Databases).Exact := fun hdrift =>
    exact_iff.mpr ⟨hdrift.trans hdupe, hhistory, hstations⟩
  have hhist : ∀ {history : Historydb}, ({ s with history } : Databases).Exact ↔ history.drift = 0 :=
    exact_iff.trans ⟨fun hall => hall.2.1, fun hdrift => ⟨hdupe, hdrift, hstations⟩⟩
  cases c with
  | dupecheck tick pb => exact iff_of_true (hothers (drift_dupecheck env.dupe s.dupe)) fun _ => rfl
  | dupecheckCleanup tick =>
    exact iff_of_true (hothers (drift_dupecheckCleanup env.dupe s.dupe)) fun _ => rfl
  | dupecheckAtend => exact iff_of_true (hothers (drift_dupecheckAtend s.dupe)) fun _ => rfl
  | historydbInsert tick pb =>
    refine hhist.trans ?_
    by_cases hnew : HistoryInsertNew env.history tick pb s.history
    · rw [drift_historydbInsert_of_new hnew, hhistory, zero_add_ite_eq_zero]
      exact ⟨fun hmalloc hfails => absurd hfails.2 hmalloc,
        fun hok hmalloc => Bool.true_eq_false.mp (hok ⟨hnew, hmalloc⟩)⟩
    · rw [drift_historydbInsert_of_not_new hnew]
      exact iff_of_true hhistory fun hfails => absurd hfails.1 hnew
  | historydbLoadEntry tick cp =>
    refine hhist.trans ?_
    by_cases hlive : tick - env.history.lastpositionStoretime ≤ cp.arrivaltime
    · rw [drift_historydbLoadEntry hlive, hhistory, zero_add_ite_eq_zero]
      exact ⟨fun hmalloc hfails => absurd hfails.2 hmalloc,
        fun hok hmalloc => Bool.true_eq_false.mp (hok ⟨hlive, hmalloc⟩)⟩
    · rw [drift_historydbLoadEntry_of_old (Int.not_le.mp hlive)]
      exact iff_of_true hhistory fun hfails => absurd hfails.1 hlive
  | historydbCleanup tick =>
    exact iff_of_true (hhist.mpr (drift_historydbCleanup.trans hhistory)) fun _ => rfl
  | historydbAtend => exact iff_of_true (hhist.mpr (drift_historydbAtend.trans hhistory)) fun _ => rfl
  | stationInsert table tick cellmalloc pb =>
    refine h.setTable_iff.trans ?_
    by_cases hnew : StationInsertNew table tick pb (s.stations table)
    · rw [drift_stationInsert_of_new cellmalloc hnew, hstations, zero_add_ite_eq_zero]
      constructor
      · intro hnot hfails
        exact Bool.eq_false_iff.mpr fun hearly => hnot ⟨hfails.2, hearly⟩
      · rintro hok ⟨hmalloc, hearly⟩
        have hlate : table.countsEarly = false := hok ⟨hnew, hmalloc⟩
        exact absurd hearly (Bool.eq_false_iff.mp hlate)
    · rw [drift_stationInsert_of_not_new cellmalloc hnew]
      exact iff_of_true (hstations table) fun hfails => absurd hfails.1 hnew
  | stationCleanup table tick =>
    refine iff_of_true (h.setTable_iff.mpr ?_) fun _ => rfl
    exact drift_stationCleanup.trans (hstations table)
  | stationAtend table =>
    refine iff_of_true (h.setTable_iff.mpr ?_) fun _ => rfl
    exact (drift_stationAtend table.size).trans (hstations table)

theorem SameLookups.refl (tick : Int) (s : Databases) : SameLookups env tick s s :=
  ⟨fun _ _ => rfl, fun _ _ _ => rfl, fun _ _ _ => rfl⟩

/-- An insert that fails leaves the lookups as they are, whatever the gauge does. -/
theorem failKeepsLookups (s : Databases) (c : DatabaseCall) : FailKeepsLookups env s c := by
  intro hfails tick htick
  cases c with
  | dupecheck t pb =>
    cases htick
    refine ⟨fun t' pb' => ?_, fun _ _ _ => rfl, fun _ _ _ => rfl⟩
    obtain ⟨-, hrc, -⟩ | ⟨-, hrc, -⟩ | ⟨-, -, hdb⟩ := dupecheck_outcome env.dupe tick pb s.dupe
    · exact absurd (hrc.symm.trans hfails) (by decide)
    · exact absurd (hrc.symm.trans hfails) (by decide)
    · unfold matchingRecord
      dsimp only [Databases.step]
      rw [hdb]
  | historydbInsert t pb =>
    cases htick
    exact ⟨fun _ _ => rfl, fun t' ht' key => historydbLookup_of_fails hfails.1 hfails.2 ht' key,
      fun _ _ _ => rfl⟩
  | historydbLoadEntry t cp =>
    cases htick
    have hload : (historydbLoadEntry env.history tick cp s.history).hash = s.history.hash := by
      rw [historydbLoadEntry, if_neg (Int.not_lt.mpr hfails.1)]
      simp [hfails.2]
    refine ⟨fun _ _ => rfl, fun t' _ key => ?_, fun _ _ _ => rfl⟩
    unfold historydbLookup
    dsimp only [Databases.step]
    rw [hload]
  | stationInsert table t cellmalloc pb =>
    obtain ⟨hnew, rfl⟩ := hfails
    refine ⟨fun _ _ => rfl, fun _ _ _ => rfl, fun table' t' pb' => ?_⟩
    simp only [Databases.step, Databases.setTable, Function.update_apply]
    split
    · rename_i heq
      subst heq
      have hhash := stationInsert_hash_of_fails hnew
      cases table' <;>
        simp only [StationTable.lookup, filterEntrycallLookup, filterWxLookup, FilterTable.lookup, hhash]
    · rfl
  | _ => cases hfails

end

theorem Databases.exact_init : Databases.init.Exact where
  dupe := by simp [init, DupecheckDb.init]
  history := by simp [init, Historydb.init]
  stations := fun table => by simp [init, FilterTable.init]

/-- In a run from empty databases, the gauges are the numbers of the stored entries exactly
if the history database and the table of weather stations get the memory they ask for. An
insert that fails, of a packet or of one of its variants, never changes a lookup. -/
theorem gauges_exact_iff (env : DatabasesEnv) (calls : List DatabaseCall) :
    (Always (Databases.step env) Databases.Exact .init calls ∧
      Meets (Databases.step env) (FailKeepsLookups env) .init calls ∧
      ∀ i dp s, (dupecheckLink env.dupe i dp s).1 = false →
        (dupecheckLink env.dupe i dp s).2.db = s.db) ↔
      Meets (Databases.step env) (EarlySucceeds env) .init calls := by
  have hmeets : ∀ (calls : List DatabaseCall) (s : Databases),
      Meets (Databases.step env) (FailKeepsLookups env) s calls := by
    intro calls
    induction calls with
    | nil => exact fun _ => trivial
    | cons c calls ih => exact fun s => ⟨failKeepsLookups s c, ih _⟩
  have hexact : ∀ (s : Databases) c, True → s.Exact → ((s.step env c).Exact ↔ EarlySucceeds env s c) :=
    fun s c _ hs => hs.exact_step_iff c
  rw [and_iff_left ⟨hmeets calls .init, fun i dp s => dupecheckLink_db_of_fails⟩]
  exact always_iff_meets (fun _ _ _ => trivial) hexact trivial Databases.exact_init calls

private def weatherPacket : Pbuf where
  data := ascii "OH7WX>APRS:_10090556c220s004g005t077" ++ [0x0D, 0x0A]
  packetLen := 38
  packettype := tWx
  flags := 0
  srcname := 0
  srcnameLen := 5
  dstname := none
  dstnameLen := 0
  srccallEnd := 5
  dstcallEndOrSsid := 10
  dstcallEnd := 10
  dstcallLen := 4
  qconstStart := 10
  infoStart := 11
  t := 0

/-- There is no memory for a weather station, and the gauge of the empty table is 1. -/
theorem wx_gauge_drifts :
    ¬ Always (Databases.step ⟨⟨30, fun _ => true⟩, ⟨86400, fun _ => true⟩⟩) Databases.Exact .init
      [.stationInsert .wx 0 false weatherPacket] := by
  intro h
  have hgauge := h.last.stations .wx
  have hhash : (run (Databases.step ⟨⟨30, fun _ => true⟩, ⟨86400, fun _ => true⟩⟩) .init
      [.stationInsert .wx 0 false weatherPacket]).stations .wx = ⟨fun _ => [], 1⟩ := by
    rfl
  rw [hhash] at hgauge
  simp at hgauge

end Aprsc
