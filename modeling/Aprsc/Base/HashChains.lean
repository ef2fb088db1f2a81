-- SUMMARY: Hash tables with chained buckets, and the finite map that a table with expiring entries holds.
import Mathlib.Data.List.Nodup
import Mathlib.Logic.Function.Basic

/-!
# Hash chains

A hash table is an array of chains. Each entry is in the bucket of its key, and no two
entries of a bucket have the same key, so that the table is a finite map. Entries may
expire: a table holds a map if it finds what the map has, but for entries that are dead.
-/

namespace HashChains

universe u v

variable {κ : Type u} {α : Type v} {key : α → κ} {index : κ → Nat}

/-! ## Tables -/

variable (key index) in
/-- Each entry is in the bucket of its key, and the keys of a bucket are distinct. -/
structure Wf (b : Nat → List α) : Prop where
  placed : ∀ i, ∀ x ∈ b i, index (key x) = i
  nodup : ∀ i, ((b i).map key).Nodup

theorem wf_empty : Wf key index fun _ => [] := ⟨by simp, by simp⟩

section
variable {b : Nat → List α} (hb : Wf key index b)
include hb

/-- One bucket is written. -/
theorem Wf.update {i : Nat} {chain : List α} (hplaced : ∀ x ∈ chain, index (key x) = i)
    (hnodup : (chain.map key).Nodup) : Wf key index (Function.update b i chain) where
  placed j x hx := by
    obtain rfl | hj := eq_or_ne j i
    · exact hplaced x (by simpa using hx)
    · exact hb.placed j x (by simpa [hj] using hx)
  nodup j := by
    obtain rfl | hj := eq_or_ne j i
    · simpa using hnodup
    · simpa [hj] using hb.nodup j

/-- Entries are removed from the buckets. -/
theorem Wf.sublist {b' : Nat → List α} (h : ∀ i, (b' i).Sublist (b i)) : Wf key index b' where
  placed i x hx := hb.placed i x ((h i).subset hx)
  nodup i := (hb.nodup i).sublist ((h i).map key)

end

/-! ## Lookup -/

variable [DecidableEq κ]

/-- An entry is found in a chain by its key. -/
theorem find?_key_eq_some {chain : List α} (h : (chain.map key).Nodup) {k : κ} {x : α} :
    chain.find? (key · = k) = some x ↔ x ∈ chain ∧ key x = k := by
  have hfound : ∀ y, chain.find? (key · = k) = some y → y ∈ chain ∧ key y = k := fun y hy =>
    ⟨List.mem_of_find?_eq_some hy, by simpa using List.find?_some hy⟩
  refine ⟨hfound x, fun ⟨hmem, hkey⟩ => ?_⟩
  have hsome : (chain.find? (key · = k)).isSome :=
    List.find?_isSome.mpr ⟨x, hmem, decide_eq_true hkey⟩
  obtain ⟨y, hy⟩ := Option.isSome_iff_exists.mp hsome
  obtain ⟨hmem', hkey'⟩ := hfound y hy
  rwa [List.inj_on_of_nodup_map h hmem hmem' (hkey.trans hkey'.symm)]

variable (key index) in
/-- The entry of a key. -/
def get (b : Nat → List α) (k : κ) : Option α := (b (index k)).find? (key · = k)

@[simp] theorem get_empty (k : κ) : get key index (fun _ => []) k = none := rfl

section
variable {b : Nat → List α} (hb : Wf key index b)
include hb

theorem Wf.get_eq_some {k : κ} {x : α} :
    get key index b k = some x ↔ x ∈ b (index k) ∧ key x = k :=
  find?_key_eq_some (hb.nodup _)

/-- A search that asks for more than the key filters what is found by the key. -/
theorem Wf.find?_and (valid : α → Bool) (k : κ) :
    (b (index k)).find? (fun x => valid x ∧ key x = k) = (get key index b k).filter valid := by
  have hnodup : (((b (index k)).filter valid).map key).Nodup :=
    (hb.nodup _).sublist (List.filter_sublist.map key)
  have hfilter : (b (index k)).find? (fun x => valid x ∧ key x = k) =
      ((b (index k)).filter valid).find? (key · = k) := by
    rw [List.find?_filter]
    simp
  ext x
  rw [hfilter, find?_key_eq_some hnodup, Option.filter_eq_some_iff, hb.get_eq_some, List.mem_filter]
  exact and_right_comm

/-- An entry of any bucket is the one of its key. -/
theorem Wf.get_of_mem {i : Nat} {x : α} (h : x ∈ b i) : get key index b (key x) = some x :=
  hb.get_eq_some.mpr ⟨by rwa [hb.placed i x h], rfl⟩

/-- Two places with one key are one place. -/
theorem Wf.eq_of_key {i j : Nat} {x y : α} (hx : x ∈ b i) (hy : y ∈ b j) (h : key x = key y) :
    i = j ∧ x = y := by
  have hget := hb.get_of_mem hx
  rw [h, hb.get_of_mem hy] at hget
  exact ⟨by rw [← hb.placed i x hx, h, hb.placed j y hy], (Option.some.inj hget).symm⟩

/-- The keys of all buckets are distinct. -/
theorem Wf.nodup_keys (size : Nat) : (((List.range size).flatMap b).map key).Nodup := by
  rw [List.map_flatMap, List.nodup_flatMap]
  refine ⟨fun i _ => hb.nodup i, List.nodup_range.imp fun {i j} hij => ?_⟩
  refine List.disjoint_left.mpr fun k hi hj => ?_
  obtain ⟨x, hx, rfl⟩ := List.mem_map.mp hi
  obtain ⟨y, hy, hkey⟩ := List.mem_map.mp hj
  exact hij (hb.eq_of_key hx hy hkey.symm).1

end

/-! ## The map of a table -/

variable (key index) in
/-- What the table finds is what the map has, but for entries that are dead. -/
def Holds (dead : α → Prop) (b : Nat → List α) (m : κ → Option α) : Prop :=
  ∀ k, get key index b k = m k ∨ (get key index b k = none ∧ ∀ x ∈ m k, dead x)

variable {dead dead' : α → Prop} {b : Nat → List α} {m : κ → Option α}

theorem holds_empty : Holds key index dead (fun _ => []) fun _ => none := fun _ => .inl rfl

/-- More entries die. -/
theorem Holds.imp (h : Holds key index dead b m) (hdead : ∀ x, dead x → dead' x) :
    Holds key index dead' b m := fun k =>
  (h k).imp_right fun ⟨hnone, hall⟩ => ⟨hnone, fun x hx => hdead x (hall x hx)⟩

/-- A lookup that refuses the dead entries does not tell the table from the map. -/
theorem Holds.get_filter (h : Holds key index dead b m) {valid : α → Bool}
    (hvalid : ∀ x, dead x → valid x = false) (k : κ) :
    (get key index b k).filter valid = (m k).filter valid := by
  obtain heq | ⟨hnone, hall⟩ := h k
  · rw [heq]
  · rw [hnone]
    cases hm : m k with
    | none => rfl
    | some x => simp [Option.filter, hvalid x (hall x (by simp [hm]))]

/-- Dead entries are swept out. -/
theorem Holds.sweep (hb : Wf key index b) (h : Holds key index dead b m) {b' : Nat → List α}
    (hsub : ∀ i, (b' i).Sublist (b i)) (hkept : ∀ i, ∀ x ∈ b i, x ∈ b' i ∨ dead x) :
    Holds key index dead b' m := by
  intro k
  have hb' := hb.sublist hsub
  have hnone : get key index b k = none → get key index b' k = none := fun hnone => by
    rw [get, List.find?_eq_none] at hnone ⊢
    exact fun x hx => hnone x ((hsub _).subset hx)
  obtain heq | ⟨hnone', hall⟩ := h k
  · cases hm : m k with
    | none => exact .inl (hnone (heq.trans hm))
    | some x =>
      obtain ⟨hmem, hkey⟩ := hb.get_eq_some.mp (heq.trans hm)
      obtain hmem | hdead := hkept _ x hmem
      · exact .inl (hb'.get_eq_some.mpr ⟨hmem, hkey⟩)
      · cases hget : get key index b' k with
        | none => exact .inr ⟨rfl, by simpa using hdead⟩
        | some y =>
          obtain ⟨hmem', hkey'⟩ := hb'.get_eq_some.mp hget
          have hy := hb.get_eq_some.mpr ⟨(hsub _).subset hmem', hkey'⟩
          rw [heq, hm] at hy
          exact .inl hy.symm
  · exact .inr ⟨hnone hnone', hall⟩

/-- The bucket of a key is written. The entry of this key is then the given one, and
those of the other keys that have left the bucket were dead. -/
theorem Holds.update (hb : Wf key index b) (h : Holds key index dead b m) {k₀ : κ} {e : Option α}
    {chain : List α} (hnodup : (chain.map key).Nodup)
    (hentry : ∀ x, x ∈ chain ∧ key x = k₀ ↔ x ∈ e)
    (hold : ∀ x ∈ chain, key x ≠ k₀ → x ∈ b (index k₀))
    (hkept : ∀ x ∈ b (index k₀), key x ≠ k₀ → x ∈ chain ∨ dead x) :
    Wf key index (Function.update b (index k₀) chain) ∧
      Holds key index dead (Function.update b (index k₀) chain) (Function.update m k₀ e) := by
  have hplaced : ∀ x ∈ chain, index (key x) = index k₀ := fun x hx => by
    by_cases hkey : key x = k₀
    · rw [hkey]
    · exact hb.placed _ x (hold x hx hkey)
  have hb' := hb.update hplaced hnodup
  refine ⟨hb', fun k => ?_⟩
  by_cases hk : k = k₀
  · subst hk
    rw [Function.update_self]
    left
    ext x
    rw [hb'.get_eq_some, Function.update_self, hentry, Option.mem_def]
  · rw [Function.update_of_ne hk]
    by_cases hindex : index k = index k₀
    · -- Another key of the same bucket: its entry stays, or it was dead.
      have hmem : ∀ x, key x = k → x ∈ chain → x ∈ b (index k₀) :=
        fun x hx => fun hc => hold x hc (hx ▸ hk)
      have hget : ∀ x, get key index (Function.update b (index k₀) chain) k = some x ↔
          x ∈ chain ∧ key x = k := fun x => by
        rw [hb'.get_eq_some, hindex, Function.update_self]
      cases hnew : get key index (Function.update b (index k₀) chain) k with
      | some x =>
        obtain ⟨hc, hx⟩ := (hget x).mp hnew
        have hold' := hb.get_eq_some.mpr ⟨by rw [hindex]; exact hmem x hx hc, hx⟩
        obtain heq | ⟨hnone, -⟩ := h k
        · exact .inl (hold'.symm.trans heq)
        · rw [hnone] at hold'
          cases hold'
      | none =>
        obtain heq | ⟨-, hall⟩ := h k
        · cases hm : m k with
          | none => exact .inl rfl
          | some x =>
            obtain ⟨hmem', hx⟩ := hb.get_eq_some.mp (heq.trans hm)
            rw [hindex] at hmem'
            obtain hc | hdead := hkept x hmem' (hx ▸ hk)
            · rw [(hget x).mpr ⟨hc, hx⟩] at hnew
              cases hnew
            · exact .inr ⟨rfl, by simpa using hdead⟩
        · exact .inr ⟨rfl, hall⟩
    · have hsame : get key index (Function.update b (index k₀) chain) k = get key index b k := by
        simp only [get, Function.update_of_ne hindex]
      rw [hsame]
      exact h k

/-- The bucket of a key is written, and the entries of other keys stay. -/
theorem Wf.get_update (hb : Wf key index b) {k₀ : κ} {e : Option α} {chain : List α}
    (hnodup : (chain.map key).Nodup) (hentry : ∀ x, x ∈ chain ∧ key x = k₀ ↔ x ∈ e)
    (hothers : ∀ x, key x ≠ k₀ → (x ∈ chain ↔ x ∈ b (index k₀))) :
    Wf key index (Function.update b (index k₀) chain) ∧
      get key index (Function.update b (index k₀) chain) =
        Function.update (get key index b) k₀ e := by
  have hself : Holds key index (fun _ => False) b (get key index b) := fun _ => .inl rfl
  obtain ⟨hwf, hholds⟩ := hself.update hb hnodup hentry (fun x hx hne => (hothers x hne).mp hx)
    fun x hx hne => .inl ((hothers x hne).mpr hx)
  refine ⟨hwf, funext fun k => ?_⟩
  obtain heq | ⟨hnone, hall⟩ := hholds k
  · exact heq
  · rw [hnone]
    exact (Option.eq_none_iff_forall_not_mem.mpr fun x hx => hall x hx).symm

/-- The entries that fail a test are removed from all buckets. -/
theorem Wf.get_filter (hb : Wf key index b) (p : α → Bool) :
    Wf key index (fun i => (b i).filter p) ∧
      get key index (fun i => (b i).filter p) = fun k => (get key index b k).filter p := by
  refine ⟨hb.sublist fun _ => List.filter_sublist, funext fun k => ?_⟩
  rw [← hb.find?_and, get, List.find?_filter]
  simp only [decide_eq_true_eq]

end HashChains
