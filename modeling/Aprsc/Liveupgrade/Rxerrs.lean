-- SUMMARY: The error counters of a client in a live upgrade: the map from old to new labels, and what each bucket is loaded with.
import Aprsc.Base.Traced
import Aprsc.Liveupgrade.ClientJson

/-!
# Error counters

The status file of the old process lists the labels of its error counters, and each client
has an array of counters in their order. The new process may have more labels, or in
another order: `accept_rx_err_map` looks up the bucket of each old label, and
`accept_rx_err_load` puts the counters of a client where the map says. The accesses to the
arrays are traced.
-/

namespace Aprsc

/-- `inerr_labels`. -/
def inerrLabels : List Bytes :=
  ["unknown", "no_colon", "no_dst", "no_path", "inv_srccall", "no_body", "inv_dstcall",
    "disallow_unverified", "disallow_unverified_path", "path_nogate", "party_3rd_ip",
    "party_3rd_inv", "general_query", "aprsc_oom_pbuf", "aprsc_class_fail", "aprsc_q_bug", "q_drop",
    "short_packet", "long_packet", "inv_path_call", "q_qax", "q_qaz", "q_path_mycall",
    "q_path_call_twice", "q_path_login_not_last", "q_path_call_is_local", "q_path_call_inv",
    "q_qau_path_call_srccall", "q_newq_buffer_small", "q_nonval_multi_q_calls", "q_i_no_viacall",
    "q_disallow_protocol", "inerr_empty", "disallow_srccall", "disallow_dx", "disallow_msg_dst",
    "disallow_igatecall"].map ascii

theorem inerrLabels_nodup : inerrLabels.Nodup := by
  unfold inerrLabels
  simp only [List.map_cons, List.map_nil]
  decide +kernel

/-- The arrays that are indexed. -/
inductive RxArray where
  | rxErrLabels | rxerrMap | inerrLabels | rxErrs | rxerrs
deriving Repr, DecidableEq

/-- An index into one of the arrays. -/
structure RxAccess where
  array : RxArray
  index : Nat
deriving Repr, DecidableEq

/-- The index is inside of the array, for `mapLen` old labels and `alen` counters. -/
def RxAccess.InBounds (mapLen alen : Nat) (a : RxAccess) : Prop :=
  match a.array with
  | .rxErrLabels => a.index < mapLen
  | .rxerrMap => a.index < mapLen
  | .inerrLabels => a.index < Aprsc.inerrLabels.length
  | .rxErrs => a.index < alen
  | .rxerrs => a.index < inerrBuckets

/-! ## The map -/

/-- The inner loop of `accept_rx_err_map` over the buckets, for the old label of index `i`.
The entry is -1, or what it was set to. -/
def mapLabel (i : Nat) (label : Bytes) :
    (buckets : List Nat) → (entry : Option Nat) → Traced RxAccess (Option Nat)
  | [], entry => pure entry
  | j :: buckets, entry => do
      Traced.tell ⟨.inerrLabels, j⟩
      if inerrLabels[j]? = some label then do
        Traced.tell ⟨.rxerrMap, i⟩
        mapLabel i label buckets (some j)
      else mapLabel i label buckets entry

/-- The entry of the map for the old label of index `i`. Items that are no strings have no
bucket. -/
def mapItem (i : Nat) (item : JsonItem) : Traced RxAccess (Option Nat) :=
  match item.string? with
  | none => pure none
  | some label => mapLabel i label (List.range inerrBuckets) none

/-- The loop of `accept_rx_err_map` from index `i`. -/
def acceptRxErrMapFrom : (i : Nat) → List JsonItem → Traced RxAccess (List (Option Nat))
  | _, [] => pure []
  | i, item :: items => do
      Traced.tell ⟨.rxerrMap, i⟩
      Traced.tell ⟨.rxErrLabels, i⟩
      let entry ← mapItem i item
      let rest ← acceptRxErrMapFrom (i + 1) items
      pure (entry :: rest)

/-- `accept_rx_err_map`. -/
def acceptRxErrMap (rxErrLabels : List JsonItem) : Traced RxAccess (List (Option Nat)) :=
  acceptRxErrMapFrom 0 rxErrLabels

/-! ## The counters -/

/-- Set the bucket `j` of a client to a counter of the old process. `positive` is the
comparison of `valuedouble` with zero. -/
def setRxErr (cjson : CJson) (positive : JsonNumber → Bool) (j : Nat) (item : JsonItem)
    (rxerrs : List Int) : Traced RxAccess (List Int) :=
  match item.number? with
  | none => pure rxerrs
  | some val =>
      if positive val then do
        Traced.tell ⟨.rxerrs, j⟩
        pure (rxerrs.set j (cjson.valuedouble val))
      else pure rxerrs

/-- One round of `accept_rx_err_load`. -/
def loadRxErr (cjson : CJson) (positive : JsonNumber → Bool) (i : Nat) (entry : Option Nat)
    (item : JsonItem) (rxerrs : List Int) : Traced RxAccess (List Int) :=
  match entry with
  | none => pure rxerrs
  | some j =>
      if j < inerrBuckets then do
        Traced.tell ⟨.rxErrs, i⟩
        setRxErr cjson positive j item rxerrs
      else pure rxerrs

/-- The loop of `accept_rx_err_load` from index `i`, over the entries of the map and the
counters that are left. -/
def loadRxErrs (cjson : CJson) (positive : JsonNumber → Bool) :
    (i : Nat) → List (Option Nat) → List JsonItem → List Int → Traced RxAccess (List Int)
  | _, [], _, rxerrs => pure rxerrs
  | _, _ :: _, [], rxerrs => pure rxerrs
  | i, entry :: rxerrMap, item :: rxErrs, rxerrs => do
      Traced.tell ⟨.rxerrMap, i⟩
      let rxerrs ← loadRxErr cjson positive i entry item rxerrs
      loadRxErrs cjson positive (i + 1) rxerrMap rxErrs rxerrs

section
variable (cjson : CJson) {positive : JsonNumber → Bool} {entry : Option Nat} {item : JsonItem}
  {rxerrs : List Int} {i j : Nat} {val : JsonNumber}

/-- A counter that is positive and has a bucket. -/
def Loads (positive : JsonNumber → Bool) (entry : Option Nat) (item : JsonItem) (j : Nat)
    (val : JsonNumber) : Prop :=
  entry = some j ∧ item = .number val ∧ j < inerrBuckets ∧ positive val = true

theorem number?_eq_some : item.number? = some val ↔ item = .number val := by
  cases item <;> simp [JsonItem.number?]

theorem setRxErr_val (positive : JsonNumber → Bool) (j : Nat) (item : JsonItem) (rxerrs : List Int) :
    (∃ val, item = .number val ∧ positive val = true ∧
      (setRxErr cjson positive j item rxerrs).val = rxerrs.set j (cjson.valuedouble val)) ∨
    ((∀ val, item = .number val → positive val ≠ true) ∧
      (setRxErr cjson positive j item rxerrs).val = rxerrs) := by
  unfold setRxErr
  split
  · rename_i hnone
    refine .inr ⟨fun val heq => ?_, rfl⟩
    rw [number?_eq_some.mpr heq] at hnone
    cases hnone
  · rename_i val hval
    rw [number?_eq_some] at hval
    by_cases hpos : positive val = true
    · rw [if_pos hpos]
      exact .inl ⟨val, hval, hpos, rfl⟩
    · rw [if_neg hpos]
      refine .inr ⟨fun val' heq => ?_, rfl⟩
      cases hval.symm.trans heq
      exact hpos

/-- A round sets one bucket, or does nothing. -/
theorem loadRxErr_cases (positive : JsonNumber → Bool) (i : Nat) (entry : Option Nat) (item : JsonItem)
    (rxerrs : List Int) :
    (∃ j val, Loads positive entry item j val ∧
      (loadRxErr cjson positive i entry item rxerrs).val = rxerrs.set j (cjson.valuedouble val)) ∨
    ((∀ j val, ¬Loads positive entry item j val) ∧
      (loadRxErr cjson positive i entry item rxerrs).val = rxerrs) := by
  cases entry with
  | none =>
    refine .inr ⟨fun j val hloads => ?_, rfl⟩
    cases hloads.1
  | some j =>
    rw [loadRxErr, Traced.val_ite, Traced.val_bind]
    by_cases hj : j < inerrBuckets
    · rw [if_pos hj]
      obtain ⟨val, hitem, hpos, heq⟩ | ⟨hnot, heq⟩ := setRxErr_val cjson positive j item rxerrs
      · exact .inl ⟨j, val, ⟨rfl, hitem, hj, hpos⟩, heq⟩
      · exact .inr ⟨fun k val hloads => hnot val hloads.2.1 hloads.2.2.2, heq⟩
    · rw [if_neg hj]
      refine .inr ⟨fun k val hloads => ?_, rfl⟩
      cases hloads.1
      exact hj hloads.2.2.1

/-- A round indexes the counters where the loop is, and the buckets inside of them. -/
theorem loadRxErr_all {mapLen alen : Nat} (hi : i < alen) :
    (loadRxErr cjson positive i entry item rxerrs).All (RxAccess.InBounds mapLen alen) := by
  cases entry with
  | none => exact (Traced.all_pure _ _).mpr trivial
  | some j =>
    rw [loadRxErr, Traced.all_ite, Traced.all_bind, Traced.all_tell]
    refine ⟨fun hj => ⟨hi, ?_⟩, fun _ => (Traced.all_pure _ _).mpr trivial⟩
    unfold setRxErr
    cases item.number? with
    | none => exact (Traced.all_pure _ _).mpr trivial
    | some val =>
      rw [Traced.all_ite, Traced.all_bind, Traced.all_tell, Traced.all_pure, Traced.all_pure]
      exact ⟨fun _ => ⟨hj, trivial⟩, fun _ => trivial⟩

/-- Without fractions, the loop computes what the client is filled in with. -/
theorem acceptRxErrLoad_eq (i : Nat) (rxerrMap : List (Option Nat)) (rxErrs : List JsonItem)
    (rxerrs : List Int) :
    acceptRxErrLoad cjson rxerrMap rxErrs rxerrs =
      (loadRxErrs cjson (fun val => decide (cjson.valuedouble val > 0)) i rxerrMap rxErrs rxerrs).val := by
  induction rxerrMap generalizing i rxErrs rxerrs with
  | nil => rfl
  | cons entry rxerrMap ih =>
    cases rxErrs with
    | nil => rfl
    | cons item rxErrs =>
      rw [loadRxErrs, Traced.val_bind, Traced.val_bind, ← ih]
      unfold acceptRxErrLoad
      rw [List.zip_cons_cons, List.foldl_cons]
      congr 1
      cases entry with
      | none => rfl
      | some j =>
        rw [loadRxErr, Traced.val_ite, Traced.val_bind]
        unfold setRxErr
        dsimp only
        cases item.number? with
        | none => exact (ite_self rxerrs).symm
        | some val =>
          simp only [decide_eq_true_eq, Traced.val_ite, ite_and]
          rfl

end

/-! ## What the map holds -/

/-- The bucket of an old label. -/
def bucketOf (item : JsonItem) : Option Nat :=
  item.string?.bind fun label => inerrLabels.findIdx? (· = label)

theorem findIdx?_inerrLabels {label : Bytes} {j : Nat} :
    inerrLabels.findIdx? (· = label) = some j ↔ inerrLabels[j]? = some label := by
  constructor
  · intro h
    obtain ⟨hj, heq, -⟩ := List.findIdx?_eq_some_iff_getElem.mp h
    rw [List.getElem?_eq_getElem hj]
    simpa using heq
  · intro h
    obtain ⟨hj, heq⟩ := List.getElem?_eq_some_iff.mp h
    refine List.findIdx?_eq_some_iff_getElem.mpr ⟨hj, by simpa using heq, fun k hk => ?_⟩
    simp only [decide_eq_true_eq]
    intro hsame
    exact Nat.ne_of_lt hk (inerrLabels_nodup.getElem_inj_iff.mp (hsame.trans heq.symm))

/-- The inner loop finds the bucket of a label among those it goes through. -/
theorem mapLabel_spec {label : Bytes} {k : Nat} (hk : inerrLabels[k]? = some label) (i : Nat)
    (buckets : List Nat) (entry : Option Nat) :
    (mapLabel i label buckets entry).val = if k ∈ buckets then some k else entry := by
  induction buckets generalizing entry with
  | nil => rfl
  | cons j buckets ih =>
    rw [mapLabel, Traced.val_bind, Traced.val_ite, Traced.val_bind, ih, ih]
    by_cases hj : inerrLabels[j]? = some label
    · have hjk : j = k := by
        have hfind := findIdx?_inerrLabels.mpr hj
        rw [findIdx?_inerrLabels.mpr hk] at hfind
        exact (Option.some.inj hfind).symm
      subst hjk
      simp [hj]
    · have hne : k ≠ j := fun heq => hj (heq ▸ hk)
      simp [hj, hne]

theorem mapLabel_none {label : Bytes} (hnone : ∀ j : Nat, inerrLabels[j]? ≠ some label) (i : Nat)
    (buckets : List Nat) (entry : Option Nat) :
    (mapLabel i label buckets entry).val = entry := by
  induction buckets generalizing entry with
  | nil => rfl
  | cons j buckets ih => rw [mapLabel, Traced.val_bind, Traced.val_ite, if_neg (hnone j), ih]

theorem mapLabel_all {mapLen alen i : Nat} (hi : i < mapLen) (label : Bytes) {buckets : List Nat}
    (hbuckets : ∀ j ∈ buckets, j < inerrBuckets) (entry : Option Nat) :
    (mapLabel i label buckets entry).All (RxAccess.InBounds mapLen alen) := by
  induction buckets generalizing entry with
  | nil => exact (Traced.all_pure _ _).mpr trivial
  | cons j buckets ih =>
    have hrest := ih fun k hk => hbuckets k (List.mem_cons_of_mem j hk)
    rw [mapLabel, Traced.all_bind, Traced.all_tell, Traced.all_ite, Traced.all_bind, Traced.all_tell]
    exact ⟨hbuckets j List.mem_cons_self, fun _ => ⟨hi, hrest _⟩, fun _ => hrest _⟩

theorem mapItem_val (i : Nat) (item : JsonItem) : (mapItem i item).val = bucketOf item := by
  unfold mapItem bucketOf
  cases item.string? with
  | none => rfl
  | some label =>
    rw [Option.bind_some]
    cases hfind : inerrLabels.findIdx? (· = label) with
    | none =>
      refine mapLabel_none (fun j hj => ?_) i _ none
      rw [findIdx?_inerrLabels.mpr hj] at hfind
      cases hfind
    | some k =>
      have hk := findIdx?_inerrLabels.mp hfind
      have hlt : k < inerrBuckets := (List.getElem?_eq_some_iff.mp hk).1
      dsimp only
      rw [mapLabel_spec hk i (List.range inerrBuckets) none, if_pos (List.mem_range.mpr hlt)]

theorem mapItem_all {mapLen alen i : Nat} (hi : i < mapLen) (item : JsonItem) :
    (mapItem i item).All (RxAccess.InBounds mapLen alen) := by
  unfold mapItem
  cases item.string? with
  | none => exact (Traced.all_pure _ _).mpr trivial
  | some label => exact mapLabel_all hi label (fun j hj => List.mem_range.mp hj) none

/-- The map has the bucket of each label. -/
theorem acceptRxErrMapFrom_spec (i alen : Nat) (items : List JsonItem) :
    (acceptRxErrMapFrom i items).val = items.map bucketOf ∧
    (acceptRxErrMapFrom i items).All (RxAccess.InBounds (i + items.length) alen) := by
  induction items generalizing i with
  | nil => exact ⟨rfl, (Traced.all_pure _ _).mpr trivial⟩
  | cons item items ih =>
    obtain ⟨hval, hall⟩ := ih (i + 1)
    rw [Nat.add_right_comm, Nat.add_assoc] at hall
    have hi : i < i + (items.length + 1) := by omega
    constructor
    · rw [acceptRxErrMapFrom, Traced.val_bind, Traced.val_bind, Traced.val_bind, Traced.val_bind,
        mapItem_val, hval]
      rfl
    · rw [acceptRxErrMapFrom, Traced.all_bind, Traced.all_tell, Traced.all_bind, Traced.all_tell,
        Traced.all_bind, Traced.all_bind, Traced.all_pure, List.length_cons]
      exact ⟨hi, hi, mapItem_all hi item, hall, trivial⟩

/-- Distinct labels have distinct buckets. -/
theorem bucketOf_nodup {items : List JsonItem} (h : (items.filterMap JsonItem.string?).Nodup) :
    (items.filterMap bucketOf).Nodup := by
  have hsplit : items.filterMap bucketOf =
      (items.filterMap JsonItem.string?).filterMap fun label => inerrLabels.findIdx? (· = label) := by
    rw [List.filterMap_filterMap]
    rfl
  rw [hsplit]
  refine h.filterMap fun label label' k hk hk' => ?_
  exact Option.some.inj ((findIdx?_inerrLabels.mp hk).symm.trans (findIdx?_inerrLabels.mp hk'))

/-! ## What the buckets are loaded with -/

section
variable {cjson : CJson} {positive : JsonNumber → Bool}

/-- A counter of some index is loaded into a bucket. -/
def LoadedFrom (positive : JsonNumber → Bool) (rxerrMap : List (Option Nat)) (rxErrs : List JsonItem)
    (j : Nat) (val : JsonNumber) : Prop :=
  ∃ (i : Nat) (entry : Option Nat) (item : JsonItem),
    rxerrMap[i]? = some entry ∧ rxErrs[i]? = some item ∧ Loads positive entry item j val

theorem loadRxErrs_length (i : Nat) (rxerrMap : List (Option Nat)) (rxErrs : List JsonItem)
    (rxerrs : List Int) :
    (loadRxErrs cjson positive i rxerrMap rxErrs rxerrs).val.length = rxerrs.length := by
  induction rxerrMap generalizing i rxErrs rxerrs with
  | nil => rfl
  | cons entry rxerrMap ih =>
    cases rxErrs with
    | nil => rfl
    | cons item rxErrs =>
      rw [loadRxErrs, Traced.val_bind, Traced.val_bind, ih]
      obtain ⟨j, val, -, heq⟩ | ⟨-, heq⟩ := loadRxErr_cases cjson positive i entry item rxerrs
      · rw [heq, List.length_set]
      · rw [heq]

theorem loadRxErrs_all (i : Nat) (rxerrMap : List (Option Nat)) (rxErrs : List JsonItem)
    (rxerrs : List Int) :
    (loadRxErrs cjson positive i rxerrMap rxErrs rxerrs).All
      (RxAccess.InBounds (i + rxerrMap.length) (i + rxErrs.length)) := by
  induction rxerrMap generalizing i rxErrs rxerrs with
  | nil => exact (Traced.all_pure _ _).mpr trivial
  | cons entry rxerrMap ih =>
    cases rxErrs with
    | nil => exact (Traced.all_pure _ _).mpr trivial
    | cons item rxErrs =>
      have hrest := ih (i + 1) rxErrs (loadRxErr cjson positive i entry item rxerrs).val
      rw [Nat.add_right_comm, Nat.add_assoc, Nat.add_right_comm i 1 rxErrs.length, Nat.add_assoc] at hrest
      rw [loadRxErrs, Traced.all_bind, Traced.all_tell, Traced.all_bind, List.length_cons,
        List.length_cons]
      have hlt (n : Nat) : i < i + (n + 1) := by omega
      exact ⟨hlt _, loadRxErr_all cjson (hlt _), hrest⟩

/-- A bucket that no counter is loaded into keeps its count. -/
theorem loadRxErrs_of_not {i j : Nat} {rxerrMap : List (Option Nat)} {rxErrs : List JsonItem}
    {rxerrs : List Int} (hnot : ∀ val, ¬LoadedFrom positive rxerrMap rxErrs j val) :
    (loadRxErrs cjson positive i rxerrMap rxErrs rxerrs).val[j]? = rxerrs[j]? := by
  induction rxerrMap generalizing i rxErrs rxerrs with
  | nil => rfl
  | cons entry rxerrMap ih =>
    cases rxErrs with
    | nil => rfl
    | cons item rxErrs =>
      have hrest : ∀ val, ¬LoadedFrom positive rxerrMap rxErrs j val := by
        rintro val ⟨n, e, x, he, hx, hloads⟩
        exact hnot val ⟨n + 1, e, x, he, hx, hloads⟩
      rw [loadRxErrs, Traced.val_bind, Traced.val_bind, ih hrest]
      obtain ⟨k, val, hloads, heq⟩ | ⟨-, heq⟩ := loadRxErr_cases cjson positive i entry item rxerrs
      · have hne : k ≠ j := by
          rintro rfl
          exact hnot val ⟨0, entry, item, rfl, rfl, hloads⟩
        rw [heq, List.getElem?_set_ne hne]
      · rw [heq]

/-- A bucket gets the counter that is loaded into it, if there is one only. -/
theorem loadRxErrs_of_loaded {i j : Nat} {rxerrMap : List (Option Nat)} {rxErrs : List JsonItem}
    {rxerrs : List Int} {val : JsonNumber} (hnodup : (rxerrMap.filterMap id).Nodup)
    (hj : j < rxerrs.length) (hloaded : LoadedFrom positive rxerrMap rxErrs j val) :
    (loadRxErrs cjson positive i rxerrMap rxErrs rxerrs).val[j]? = some (cjson.valuedouble val) := by
  induction rxerrMap generalizing i rxErrs rxerrs with
  | nil =>
    obtain ⟨n, e, x, he, -⟩ := hloaded
    cases he
  | cons entry rxerrMap ih =>
    cases rxErrs with
    | nil =>
      obtain ⟨n, e, x, -, hx, -⟩ := hloaded
      cases hx
    | cons item rxErrs =>
      have htail : (rxerrMap.filterMap id).Nodup :=
        hnodup.sublist ((List.sublist_cons_self entry rxerrMap).filterMap id)
      rw [loadRxErrs, Traced.val_bind, Traced.val_bind]
      obtain ⟨n, e, x, he, hx, hloads⟩ := hloaded
      cases n with
      | zero =>
        cases he
        cases hx
        obtain ⟨rfl, rfl, hbucket, hpos⟩ := hloads
        -- No later entry of the map has the bucket again.
        have hfresh : j ∉ rxerrMap.filterMap id := by
          rw [List.filterMap_cons] at hnodup
          exact (List.nodup_cons.mp hnodup).1
        have hnot : ∀ val, ¬LoadedFrom positive rxerrMap rxErrs j val := by
          rintro val' ⟨m, e, x, he, -, hloads⟩
          rw [hloads.1] at he
          exact hfresh (List.mem_filterMap.mpr ⟨some j, List.mem_of_getElem? he, rfl⟩)
        rw [loadRxErrs_of_not hnot]
        have hload : (loadRxErr cjson positive i (some j) (.number val) rxerrs).val =
            rxerrs.set j (cjson.valuedouble val) := by
          simp [loadRxErr, setRxErr, JsonItem.number?, hbucket, hpos]
        rw [hload, List.getElem?_set_self hj]
      | succ n =>
        refine ih htail ?_ ⟨n, e, x, he, hx, hloads⟩
        obtain ⟨k, v, -, heq⟩ | ⟨-, heq⟩ := loadRxErr_cases cjson positive i entry item rxerrs
        · rw [heq, List.length_set]
          exact hj
        · rw [heq]
          exact hj

/-- The labels that have a bucket: the entry of the map is the bucket of the label. -/
theorem bucketOf_eq_some {item : JsonItem} {j : Nat} :
    bucketOf item = some j ↔ ∃ label, item = .string label ∧ inerrLabels[j]? = some label := by
  constructor
  · intro h
    obtain ⟨label, hlabel, hj⟩ := Option.bind_eq_some_iff.mp h
    refine ⟨label, ?_, findIdx?_inerrLabels.mp hj⟩
    cases item <;> simp_all [JsonItem.string?]
  · rintro ⟨label, rfl, hj⟩
    exact findIdx?_inerrLabels.mpr hj

/-- The counter of the label of a bucket, at an index that both arrays have. -/
def HasCounter (labels items : List JsonItem) (positive : JsonNumber → Bool) (j : Nat)
    (val : JsonNumber) : Prop :=
  ∃ (i : Nat) (label : Bytes), inerrLabels[j]? = some label ∧ labels[i]? = some (.string label) ∧
    items[i]? = some (.number val) ∧ positive val = true

theorem loadedFrom_iff {labels items : List JsonItem} {j : Nat} {val : JsonNumber} :
    LoadedFrom positive (labels.map bucketOf) items j val ↔ HasCounter labels items positive j val := by
  constructor
  · rintro ⟨i, entry, item, hentry, hitem, rfl, rfl, -, hpos⟩
    rw [List.getElem?_map, Option.map_eq_some_iff] at hentry
    obtain ⟨old, hold, hbucket⟩ := hentry
    obtain ⟨label, rfl, hj⟩ := bucketOf_eq_some.mp hbucket
    exact ⟨i, label, hj, hold, hitem, hpos⟩
  · rintro ⟨i, label, hj, hold, hitem, hpos⟩
    refine ⟨i, some j, _, ?_, hitem, rfl, rfl, (List.getElem?_eq_some_iff.mp hj).1, hpos⟩
    rw [List.getElem?_map, hold]
    exact congrArg some (bucketOf_eq_some.mpr ⟨label, rfl, hj⟩)

/-- The counters survive: each bucket whose old label has a positive counter gets it, the
others keep their count, and all accesses are inside of their arrays. -/
theorem rxerrs_survive (cjson : CJson) (positive : JsonNumber → Bool) (labels items : List JsonItem)
    (rxerrs : List Int) (hdistinct : (labels.filterMap JsonItem.string?).Nodup)
    (hlen : rxerrs.length = inerrBuckets) :
    let rxerrMap := acceptRxErrMap labels
    let loaded := loadRxErrs cjson positive 0 rxerrMap.val items rxerrs
    rxerrMap.All (RxAccess.InBounds labels.length items.length) ∧
    loaded.All (RxAccess.InBounds labels.length items.length) ∧
    loaded.val.length = inerrBuckets ∧
    ∀ j < inerrBuckets,
      (∀ val, HasCounter labels items positive j val →
        loaded.val[j]? = some (cjson.valuedouble val)) ∧
      ((∀ val, ¬HasCounter labels items positive j val) → loaded.val[j]? = rxerrs[j]?) := by
  obtain ⟨hmap, hmapAll⟩ := acceptRxErrMapFrom_spec 0 items.length labels
  rw [Nat.zero_add] at hmapAll
  have hval : (acceptRxErrMap labels).val = labels.map bucketOf := hmap
  intro rxerrMap loaded
  have hlength : rxerrMap.val.length = labels.length := by
    rw [hval, List.length_map]
  have hloadAll : loaded.All (RxAccess.InBounds (0 + rxerrMap.val.length) (0 + items.length)) :=
    loadRxErrs_all 0 rxerrMap.val items rxerrs
  rw [Nat.zero_add, Nat.zero_add, hlength] at hloadAll
  refine ⟨hmapAll, hloadAll, (loadRxErrs_length 0 _ _ _).trans hlen, fun j hj => ⟨?_, ?_⟩⟩
  · intro val hcounter
    refine loadRxErrs_of_loaded ?_ (hlen ▸ hj) ?_
    · rw [hval, List.filterMap_map]
      exact bucketOf_nodup hdistinct
    · rw [hval]
      exact loadedFrom_iff.mpr hcounter
  · intro hnone
    refine loadRxErrs_of_not fun val hloaded => ?_
    rw [hval] at hloaded
    exact hnone val (loadedFrom_iff.mp hloaded)

/-- Numbers that are integers, as the values of counters are. -/
private def counterValue (n : JsonNumber) : Int := n.casesOn id fun _ => 0

private def counterJson : CJson where
  valueint := counterValue
  valuedouble := counterValue
  valuefloat _ := 0
  valueint_int _ _ _ := rfl
  valuedouble_int _ _ _ := rfl

/-- The labels of the old process are in another order, one is gone, and the last has no
counter. -/
private def oldLabels : List JsonItem :=
  [.string (ascii "q_drop"), .string (ascii "gone"), .number (.int 4), .string (ascii "no_dst"),
    .string (ascii "no_path")]

theorem rxerrs_survive_reordered :
    let rxerrMap := acceptRxErrMap oldLabels
    let loaded := loadRxErrs counterJson (fun val => decide (counterValue val > 0)) 0 rxerrMap.val
      [.number (.int 7), .number (.int 9), .number (.int 2), .number (.int 5)]
      (List.replicate inerrBuckets 1)
    loaded.val[16]? = some 7 ∧ loaded.val[2]? = some 5 ∧ rxerrMap.All (RxAccess.InBounds 5 4) ∧
      loaded.All (RxAccess.InBounds 5 4) := by
  obtain ⟨hmap, hload, -, hbucket⟩ := rxerrs_survive counterJson
    (fun val => decide (counterValue val > 0)) oldLabels
    [.number (.int 7), .number (.int 9), .number (.int 2), .number (.int 5)]
    (List.replicate inerrBuckets 1) (by decide +kernel) rfl
  refine ⟨(hbucket 16 (by decide)).1 (.int 7) ?_, (hbucket 2 (by decide)).1 (.int 5) ?_, hmap, hload⟩
  · exact ⟨0, ascii "q_drop", rfl, rfl, rfl, rfl⟩
  · exact ⟨3, ascii "no_dst", rfl, rfl, rfl, rfl⟩

end

end Aprsc
