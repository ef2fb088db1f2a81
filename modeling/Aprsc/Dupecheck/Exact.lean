-- SUMMARY: Exactness of duplicate detection over whole runs of `dupecheck` and `dupecheck_cleanup`.
import Aprsc.Dupecheck.Db

/-!
# Exactness of duplicate detection

The answer of `dupecheck` is stated on the history of the run only: which packets
passed, when, and under which keys they were stored. The database is connected to
the history by `DupecheckInv`; every call keeps it, and it determines the answer
of the next call. Cleanup therefore cannot be observed.
-/

namespace Aprsc

/-! ## The keys a packet is stored under -/

/-- The mangled forms of a packet. -/
inductive MangledVariant (ib : Bytes) : Bytes → Prop where
  | spaceTrim : MangledVariant ib (trimSpaces ib)
  | strip8bit : MangledVariant ib (stripBytes is8bit ib)
  | clear8bit : MangledVariant ib (clear8bit ib)
  | spaced8bit : MangledVariant ib (spaceBytes is8bit ib)
  | lowdataStrip : MangledVariant ib (stripBytes isLowdata ib)
  | lowdataSpaced : MangledVariant ib (spaceBytes isLowdata ib)
  | delStrip : MangledVariant ib (stripBytes isDel ib)
  | delSpaced : MangledVariant ib (spaceBytes isDel ib)

/-- The keys that the database holds for a packet with key `ib`: the key itself,
and its mangled forms when the packet fits the mangling buffer. -/
def StoredKey (ib k : Bytes) : Prop :=
  k = ib ∨ (ib.length ≤ packetlenMax ∧ MangledVariant ib k)

theorem trimSpaces_eq_self {ib : Bytes} (h : (trimSpaces ib).length = ib.length) :
    trimSpaces ib = ib := by
  have hsuf := List.dropWhile_suffix (fun c : UInt8 => decide (c = 0x20)) (l := ib.reverse)
  have heq : ib.reverse.dropWhile (fun c => decide (c = 0x20)) = ib.reverse :=
    hsuf.eq_of_length (by simpa [trimSpaces] using h)
  rw [trimSpaces, heq, List.reverse_reverse]

theorem stripBytes_length_eq_iff {p : UInt8 → Bool} {ib : Bytes} :
    (stripBytes p ib).length = ib.length ↔ ∀ c ∈ ib, p c = false := by
  simp [stripBytes, List.length_filter_eq_length_iff]

theorem stripBytes_eq_self {p : UInt8 → Bool} {ib : Bytes} (h : ∀ c ∈ ib, p c = false) :
    stripBytes p ib = ib := by
  simpa [stripBytes, List.filter_eq_self] using h

theorem spaceBytes_eq_self {p : UInt8 → Bool} {ib : Bytes} (h : ∀ c ∈ ib, p c = false) :
    spaceBytes p ib = ib := by
  rw [spaceBytes, List.map_congr_left (g := id) (fun c hc => by simp [h c hc]), List.map_id]

theorem clear8bit_eq_self {ib : Bytes} (h : ∀ c ∈ ib, is8bit c = false) : clear8bit ib = ib := by
  rw [clear8bit, List.map_congr_left (g := id) (fun c hc => by simpa [is8bit] using h c hc),
    List.map_id]

/-- The guards of `dupecheck_mangle_store` only skip variants that are equal to
the packet itself. -/
theorem mem_mangledVariants_iff {ib k : Bytes} :
    (k = ib ∨ ∃ d, (k, d) ∈ mangledVariants ib) ↔ (k = ib ∨ MangledVariant ib k) := by
  constructor
  · rintro (h | ⟨d, h⟩)
    · exact .inl h
    · right
      simp only [mangledVariants, List.mem_append, List.mem_ite_nil_right, List.mem_cons,
        List.not_mem_nil, or_false, Prod.mk.injEq] at h
      rcases h with ((⟨_, rfl, _⟩ | ⟨_, ⟨rfl, _⟩ | ⟨rfl, _⟩ | ⟨rfl, _⟩⟩) |
        ⟨_, ⟨rfl, _⟩ | ⟨rfl, _⟩⟩) | ⟨_, ⟨rfl, _⟩ | ⟨rfl, _⟩⟩
      · exact .spaceTrim
      · exact .strip8bit
      · exact .clear8bit
      · exact .spaced8bit
      · exact .lowdataStrip
      · exact .lowdataSpaced
      · exact .delStrip
      · exact .delSpaced
  · rintro (h | h)
    · exact .inl h
    · simp only [mangledVariants, List.mem_append, List.mem_ite_nil_right, List.mem_cons,
        List.not_mem_nil, or_false, Prod.mk.injEq]
      -- A variant whose guard fails is the packet itself.
      have hnone : ∀ {p : UInt8 → Bool},
          ¬ (ib.any p ∧ (stripBytes p ib).length ≠ ib.length) → ∀ c ∈ ib, p c = false := by
        intro p hp
        by_contra hc
        push Not at hc
        obtain ⟨c, hc, hpc⟩ := hc
        have hany : ib.any p = true := List.any_eq_true.mpr ⟨c, hc, by simpa using hpc⟩
        refine hp ⟨hany, fun hlen => ?_⟩
        exact hpc (stripBytes_length_eq_iff.mp hlen c hc)
      cases h with
      | spaceTrim =>
        by_cases hg : (trimSpaces ib).length = ib.length
        · exact .inl (trimSpaces_eq_self hg)
        · exact .inr ⟨_, .inl (.inl (.inl ⟨hg, rfl, rfl⟩))⟩
      | strip8bit =>
        by_cases hg : (stripBytes is8bit ib).length = ib.length
        · exact .inl (stripBytes_eq_self (stripBytes_length_eq_iff.mp hg))
        · exact .inr ⟨_, .inl (.inl (.inr ⟨hg, .inl ⟨rfl, rfl⟩⟩))⟩
      | clear8bit =>
        by_cases hg : (stripBytes is8bit ib).length = ib.length
        · exact .inl (clear8bit_eq_self (stripBytes_length_eq_iff.mp hg))
        · exact .inr ⟨_, .inl (.inl (.inr ⟨hg, .inr (.inl ⟨rfl, rfl⟩)⟩))⟩
      | spaced8bit =>
        by_cases hg : (stripBytes is8bit ib).length = ib.length
        · exact .inl (spaceBytes_eq_self (stripBytes_length_eq_iff.mp hg))
        · exact .inr ⟨_, .inl (.inl (.inr ⟨hg, .inr (.inr ⟨rfl, rfl⟩)⟩))⟩
      | lowdataStrip =>
        by_cases hg : ib.any isLowdata ∧ (stripBytes isLowdata ib).length ≠ ib.length
        · exact .inr ⟨_, .inl (.inr ⟨hg, .inl ⟨rfl, rfl⟩⟩)⟩
        · exact .inl (stripBytes_eq_self (hnone hg))
      | lowdataSpaced =>
        by_cases hg : ib.any isLowdata ∧ (stripBytes isLowdata ib).length ≠ ib.length
        · exact .inr ⟨_, .inl (.inr ⟨hg, .inr ⟨rfl, rfl⟩⟩)⟩
        · exact .inl (spaceBytes_eq_self (hnone hg))
      | delStrip =>
        by_cases hg : ib.any isDel ∧ (stripBytes isDel ib).length ≠ ib.length
        · exact .inr ⟨_, .inr ⟨hg, .inl ⟨rfl, rfl⟩⟩⟩
        · exact .inl (stripBytes_eq_self (hnone hg))
      | delSpaced =>
        by_cases hg : ib.any isDel ∧ (stripBytes isDel ib).length ≠ ib.length
        · exact .inr ⟨_, .inr ⟨hg, .inr ⟨rfl, rfl⟩⟩⟩
        · exact .inl (spaceBytes_eq_self (hnone hg))

/-! ## What storing a key does to the records -/

/-- The database holds a record of key `k` that was stored or refreshed at `t`
or later. -/
def DupecheckDb.Holds (s : DupecheckDb) (k : Bytes) (t : Int) : Prop :=
  ∃ dp ∈ s.db (dupecheckIndex (keyhash k 0)), dp.hash = keyhash k 0 ∧ dp.packet = k ∧ t ≤ dp.t

/-- A record that storing key `k` at `tick` may have left in bucket `i`. -/
def DupeRecord.StoredAt (dp : DupeRecord) (k : Bytes) (tick : Int) (i : Nat) : Prop :=
  dp.hash = keyhash k 0 ∧ i = dupecheckIndex (keyhash k 0) ∧ dp.packet = k ∧ dp.t = tick

section Store

variable {env : DupecheckEnv} (hmalloc : ∀ n, env.cellmalloc n = true)
include hmalloc

theorem dupecheckLink_ok {i : Nat} {dp : DupeRecord} {s : DupecheckDb} :
    (dupecheckLink env i dp s).1 = true ∧
      (dupecheckLink env i dp s).2.db = fun j => if j = i then s.db i ++ [dp] else s.db j := by
  by_cases hfree : 0 < s.free <;>
    simp [dupecheckLink, dupecheckDbAlloc, DupecheckDb.setBucket, hfree, hmalloc]

end Store

/-- A refresh splits the chain at the record it refreshes. -/
theorem refreshRecord_eq_some {hash : UInt32} {k : Bytes} {tick : Int}
    {chain chain' : List DupeRecord} (h : refreshRecord hash k tick chain = some chain') :
    ∃ pre dp post, dp.hash = hash ∧ dp.packet = k ∧ chain = pre ++ dp :: post ∧
      chain' = pre ++ { dp with t := tick } :: post := by
  induction chain generalizing chain' with
  | nil => cases h
  | cons dp rest ih =>
    simp only [refreshRecord] at h
    split at h
    · rename_i hdp
      cases h
      exact ⟨[], dp, rest, hdp.1, hdp.2, rfl, rfl⟩
    · obtain ⟨rest', hrest, rfl⟩ := Option.map_eq_some_iff.mp h
      obtain ⟨pre, d, post, hhash, hpacket, rfl, rfl⟩ := ih hrest
      exact ⟨dp :: pre, d, post, hhash, hpacket, rfl, rfl⟩

section Store

variable {env : DupecheckEnv} (hmalloc : ∀ n, env.cellmalloc n = true) (tick : Int)
include hmalloc

/-- What `dupecheck_add_buf` does to the chains: a refresh in place, or a new
record at the tail. -/
theorem dupecheckAddBuf_db (k : Bytes) (dtype : Nat) (s : DupecheckDb) :
    ∃ chain, (dupecheckAddBuf env tick k dtype s).db =
        (fun j => if j = dupecheckIndex (keyhash k 0) then chain else s.db j) ∧
      ((∃ pre dp post, dp.hash = keyhash k 0 ∧ dp.packet = k ∧
          s.db (dupecheckIndex (keyhash k 0)) = pre ++ dp :: post ∧
          chain = pre ++ { dp with t := tick } :: post) ∨
        chain = s.db (dupecheckIndex (keyhash k 0)) ++
          [{ hash := keyhash k 0, t := tick, dtype := dtype, packet := k }]) := by
  cases href : refreshRecord (keyhash k 0) k tick (s.db (dupecheckIndex (keyhash k 0))) with
  | none =>
    refine ⟨_, ?_, .inr rfl⟩
    simpa only [dupecheckAddBuf, href] using (dupecheckLink_ok hmalloc).2
  | some chain =>
    exact ⟨chain, by simp only [dupecheckAddBuf, href, DupecheckDb.setBucket],
      .inl (refreshRecord_eq_some href)⟩

/-- Storing a key keeps every record, up to a refresh of its time, and adds or
refreshes a record of that key. -/
theorem dupecheckAddBuf_spec (k : Bytes) (dtype : Nat) (s : DupecheckDb) :
    (∀ i, ∀ dp ∈ (dupecheckAddBuf env tick k dtype s).db i,
      dp ∈ s.db i ∨ dp.StoredAt k tick i) ∧
    (∀ k' t, t ≤ tick → s.Holds k' t → (dupecheckAddBuf env tick k dtype s).Holds k' t) ∧
    (dupecheckAddBuf env tick k dtype s).Holds k tick := by
  obtain ⟨chain, hdb, hchain⟩ := dupecheckAddBuf_db hmalloc tick k dtype s
  simp only [DupecheckDb.Holds, hdb]
  rcases hchain with ⟨pre, d, post, hhash, hpacket, hold, rfl⟩ | rfl
  · refine ⟨?_, ?_, ⟨{ d with t := tick }, by simp, hhash, hpacket, Int.le_refl _⟩⟩
    · intro i dp hdp
      split at hdp
      · rename_i hi
        subst hi
        rw [hold]
        simp only [List.mem_append, List.mem_cons] at hdp ⊢
        rcases hdp with hdp | rfl | hdp
        · exact .inl (.inl hdp)
        · exact .inr ⟨hhash, rfl, hpacket, rfl⟩
        · exact .inl (.inr (.inr hdp))
      · exact .inl hdp
    · rintro k' t ht ⟨dp, hdp, hdphash, hdppacket, hdpt⟩
      split
      · rename_i hi
        rw [hi, hold] at hdp
        simp only [List.mem_append, List.mem_cons] at hdp ⊢
        rcases hdp with hdp | rfl | hdp
        · exact ⟨dp, .inl hdp, hdphash, hdppacket, hdpt⟩
        · exact ⟨_, .inr (.inl rfl), hdphash, hdppacket, ht⟩
        · exact ⟨dp, .inr (.inr hdp), hdphash, hdppacket, hdpt⟩
      · exact ⟨dp, hdp, hdphash, hdppacket, hdpt⟩
  · refine ⟨?_, ?_, ⟨{ hash := keyhash k 0, t := tick, dtype := dtype, packet := k }, by simp,
      rfl, rfl, Int.le_refl _⟩⟩
    · intro i dp hdp
      split at hdp
      · rename_i hi
        subst hi
        rcases List.mem_append.mp hdp with hdp | hdp
        · exact .inl hdp
        · obtain rfl := List.mem_singleton.mp hdp
          exact .inr ⟨rfl, rfl, rfl, rfl⟩
      · exact .inl hdp
    · rintro k' t - ⟨dp, hdp, hrec⟩
      refine ⟨dp, ?_, hrec⟩
      split
      · rename_i hi
        rw [hi] at hdp
        exact List.mem_append_left _ hdp
      · exact hdp

/-- Storing a list of variants, one after the other. -/
theorem foldl_dupecheckAddBuf_spec (vs : List (Bytes × Nat)) (s : DupecheckDb) :
    let s' := vs.foldl (fun s v => dupecheckAddBuf env tick v.1 v.2 s) s
    (∀ i, ∀ dp ∈ s'.db i, dp ∈ s.db i ∨ ∃ v ∈ vs, dp.StoredAt v.1 tick i) ∧
    (∀ k' t, t ≤ tick → s.Holds k' t → s'.Holds k' t) ∧
    (∀ v ∈ vs, s'.Holds v.1 tick) := by
  induction vs generalizing s with
  | nil =>
    refine ⟨fun i dp h => .inl h, fun _ _ _ h => h, ?_⟩
    simp
  | cons v vs ih =>
    obtain ⟨hrec, hkeep, hself⟩ := dupecheckAddBuf_spec hmalloc tick v.1 v.2 s
    obtain ⟨ihrec, ihkeep, ihself⟩ := ih (dupecheckAddBuf env tick v.1 v.2 s)
    refine ⟨?_, fun k' t ht h => ihkeep k' t ht (hkeep k' t ht h), ?_⟩
    · intro i dp hdp
      rcases ihrec i dp hdp with hdp | ⟨w, hw, hdp⟩
      · rcases hrec i dp hdp with hdp | hdp
        · exact .inl hdp
        · exact .inr ⟨v, List.mem_cons_self, hdp⟩
      · exact .inr ⟨w, List.mem_cons_of_mem _ hw, hdp⟩
    · intro w hw
      rcases List.mem_cons.mp hw with rfl | hw
      · exact ihkeep w.1 tick (Int.le_refl _) hself
      · exact ihself w hw

/-- A packet that passes is stored under its key and its mangled forms, and
nothing else changes but the times of records with those keys. -/
theorem dupecheck_store_spec (pb : Pbuf) (s : DupecheckDb) {i : Nat}
    (hi : i = dupecheckIndex (keyhash pb.key 0)) :
    let s₁ := (dupecheckAppend env tick i (keyhash pb.key 0) pb.addr pb.info s).2
    let s' := dupecheckMangleStore env tick pb.addr pb.info s₁
    (∀ j, ∀ dp ∈ s'.db j,
      dp ∈ s.db j ∨ ∃ k, StoredKey pb.key k ∧ dp.StoredAt k tick j) ∧
    (∀ k t, t ≤ tick → s.Holds k t → s'.Holds k t) ∧
    (∀ k, StoredKey pb.key k → s'.Holds k tick) := by
  intro s₁ s'
  have hdb : s₁.db = fun j => if j = i then s.db i ++
      [{ hash := keyhash pb.key 0, t := tick, dtype := 0, packet := pb.key }] else s.db j :=
    (dupecheckLink_ok hmalloc).2
  have hkeep₁ : ∀ k t, s.Holds k t → s₁.Holds k t := by
    rintro k t ⟨dp, hdp, hrec⟩
    refine ⟨dp, ?_, hrec⟩
    rw [hdb]
    dsimp only
    split
    · rename_i hk
      exact List.mem_append_left _ (hk ▸ hdp)
    · exact hdp
  have hself₁ : s₁.Holds pb.key tick := by
    refine ⟨{ hash := keyhash pb.key 0, t := tick, dtype := 0, packet := pb.key }, ?_, rfl, rfl,
      Int.le_refl _⟩
    simp [hdb, hi]
  have hrec₁ : ∀ j, ∀ dp ∈ s₁.db j, dp ∈ s.db j ∨ dp.StoredAt pb.key tick j := by
    intro j dp hdp
    rw [hdb] at hdp
    dsimp only at hdp
    split at hdp
    · rename_i hj
      rcases List.mem_append.mp hdp with hdp | hdp
      · exact .inl (hj ▸ hdp)
      · obtain rfl := List.mem_singleton.mp hdp
        exact .inr ⟨rfl, hj.trans hi, rfl, rfl⟩
    · exact .inl hdp
  have hkey : pb.addr ++ pb.info = pb.key := rfl
  by_cases hlen : packetlenMax < pb.key.length
  · have hs' : s' = s₁ := by simp only [s', dupecheckMangleStore, hkey, hlen, if_true]
    rw [hs']
    refine ⟨?_, fun k t _ h => hkeep₁ k t h, ?_⟩
    · intro j dp hdp
      exact (hrec₁ j dp hdp).imp_right fun h => ⟨pb.key, .inl rfl, h⟩
    · rintro k (rfl | ⟨hle, -⟩)
      · exact hself₁
      · omega
  · have hs' : s' = (mangledVariants pb.key).foldl
        (fun s v => dupecheckAddBuf env tick v.1 v.2 s) s₁ := by
      simp only [s', dupecheckMangleStore, hkey, hlen, if_false]
    obtain ⟨hrec, hkeep, hself⟩ := foldl_dupecheckAddBuf_spec hmalloc tick
      (mangledVariants pb.key) s₁
    rw [← hs'] at hrec hkeep hself
    refine ⟨?_, fun k t ht h => hkeep k t ht (hkeep₁ k t h), ?_⟩
    · intro j dp hdp
      rcases hrec j dp hdp with hdp | ⟨v, hv, hdp⟩
      · exact (hrec₁ j dp hdp).imp_right fun h => ⟨pb.key, .inl rfl, h⟩
      · have hv' := mem_mangledVariants_iff.mp (.inr ⟨v.2, hv⟩)
        exact .inr ⟨v.1, hv'.imp_right fun h => ⟨by omega, h⟩, hdp⟩
    · rintro k hk
      rcases mem_mangledVariants_iff.mpr (hk.imp_right And.right) with rfl | ⟨d, hd⟩
      · exact hkeep pb.key tick (Int.le_refl _) hself₁
      · exact hself (k, d) hd

/-- What one check does: it returns `F_DUPE` and leaves the records alone, or it
returns 0 and stores the packet. -/
theorem dupecheck_cases {pb : Pbuf} (s : DupecheckDb) (hhash : keyhash pb.addr 0 ≠ 0) :
    (s.Holds pb.key (tick - env.dupefilterStoretime) ∧
      (dupecheck env tick pb s).1 = rcDupe ∧ (dupecheck env tick pb s).2.db = s.db) ∨
    (¬ s.Holds pb.key (tick - env.dupefilterStoretime) ∧ (dupecheck env tick pb s).1 = 0 ∧
      (dupecheck env tick pb s).2 = dupecheckMangleStore env tick pb.addr pb.info
        (dupecheckAppend env tick (dupecheckIndex (keyhash pb.key 0)) (keyhash pb.key 0)
          pb.addr pb.info s).2) := by
  have hchain : keyhash pb.info (keyhash pb.addr 0) = keyhash pb.key 0 := keyhash_append hhash
  have hkey : pb.addr ++ pb.info = pb.key := rfl
  cases hfind : (s.db (dupecheckIndex (keyhash pb.key 0))).find? fun dp =>
      dp.hash = keyhash pb.key 0 ∧ tick - env.dupefilterStoretime ≤ dp.t ∧
        dp.packet = pb.key with
  | some dp =>
    left
    have hdp := List.find?_some hfind
    simp only [decide_eq_true_eq] at hdp
    refine ⟨⟨dp, List.mem_of_find?_eq_some hfind, hdp.1, hdp.2.2, hdp.2.1⟩, ?_⟩
    simp only [dupecheck, hchain, hkey, hfind]
    split <;> simp
  | none =>
    right
    refine ⟨?_, ?_⟩
    · rintro ⟨dp, hdp, hdphash, hpacket, ht⟩
      have := List.find?_eq_none.mp hfind dp hdp
      simp only [decide_eq_true_eq] at this
      exact this ⟨hdphash, ht, hpacket⟩
    · have hok : (dupecheckAppend env tick (dupecheckIndex (keyhash pb.key 0)) (keyhash pb.key 0)
          pb.addr pb.info s).1 = true := (dupecheckLink_ok hmalloc).1
      simp only [dupecheck, hchain, hkey, hfind, hok, if_true, and_self]

end Store

/-! ## The invariant that ties the database to the history -/

/-- The database records exactly the packets that passed, as far as the store
time reaches back from `tick`. -/
structure DupecheckInv (env : DupecheckEnv) (tick : Int) (r : DupecheckRun) : Prop where
  /-- No check was made in the future. -/
  past : ∀ t pb rc, (t, pb, rc) ∈ r.answers → t ≤ tick
  /-- Every record stands in its bucket and goes back to a packet that passed. -/
  sound : ∀ i, ∀ dp ∈ r.st.db i, dp.hash = keyhash dp.packet 0 ∧ i = dupecheckIndex dp.hash ∧
    ∃ pb, (dp.t, pb, 0) ∈ r.answers ∧ StoredKey pb.key dp.packet
  /-- Every key of a packet that passed within the store time is still held. -/
  complete : ∀ t pb, (t, pb, 0) ∈ r.answers → tick - env.dupefilterStoretime ≤ t →
    ∀ k, StoredKey pb.key k → r.st.Holds k t

@[simp] theorem DupecheckRun.step_dupecheck_st {env : DupecheckEnv} {r : DupecheckRun} {tick : Int}
    {pb : Pbuf} :
    (r.step env (tick, .dupecheck pb)).st = (dupecheck env tick pb r.st).2 := rfl

@[simp] theorem DupecheckRun.step_dupecheck_answers {env : DupecheckEnv} {r : DupecheckRun}
    {tick : Int} {pb : Pbuf} :
    (r.step env (tick, .dupecheck pb)).answers =
      (tick, pb, (dupecheck env tick pb r.st).1) :: r.answers := rfl

namespace DupecheckInv

variable {env : DupecheckEnv} {tick : Int} {r : DupecheckRun}

theorem init : DupecheckInv env tick { st := .init, answers := [] } where
  past := by simp
  sound := by simp [DupecheckDb.init]
  complete := by simp

/-- Time passes. -/
theorem mono {tick' : Int} (h : DupecheckInv env tick r) (hle : tick ≤ tick') :
    DupecheckInv env tick' r where
  past := fun t pb rc hmem => Int.le_trans (h.past t pb rc hmem) hle
  sound := h.sound
  complete := fun t pb hmem ht => h.complete t pb hmem (by omega)

/-- The history determines whether the database holds a live record of a key. -/
theorem holds_iff (h : DupecheckInv env tick r) (k : Bytes) :
    r.st.Holds k (tick - env.dupefilterStoretime) ↔
      ∃ t pb, (t, pb, 0) ∈ r.answers ∧ tick - env.dupefilterStoretime ≤ t ∧
        StoredKey pb.key k := by
  constructor
  · rintro ⟨dp, hdp, -, rfl, ht⟩
    obtain ⟨-, -, pb, hmem, hstored⟩ := h.sound _ dp hdp
    exact ⟨dp.t, pb, hmem, ht, hstored⟩
  · rintro ⟨t, pb, hmem, ht, hstored⟩
    obtain ⟨dp, hdp, hhash, hpacket, hdpt⟩ := h.complete t pb hmem ht k hstored
    exact ⟨dp, hdp, hhash, hpacket, by omega⟩

/-- A cleanup discards no record that a later check could match. -/
theorem cleanup (h : DupecheckInv env tick r) :
    DupecheckInv env tick (r.step env (tick, .cleanup)) := by
  have hdb : ∀ i, ∀ dp, dp ∈ (dupecheckCleanup env tick r.st).db i → dp ∈ r.st.db i := by
    intro i dp hdp
    simp only [dupecheckCleanup, dupecheckDbFree] at hdp
    split at hdp
    · exact (List.mem_filter.mp hdp).1
    · exact hdp
  refine ⟨h.past, fun i dp hdp => h.sound i dp (hdb i dp hdp), ?_⟩
  intro t pb hmem ht k hk
  obtain ⟨dp, hdp, hhash, hpacket, hdpt⟩ := h.complete t pb hmem ht k hk
  refine ⟨dp, ?_, hhash, hpacket, hdpt⟩
  obtain ⟨-, -, pb', hmem', -⟩ := h.sound _ dp hdp
  -- The record is young enough, and it is not from the future either.
  have hpast := h.past _ _ _ hmem'
  have hpast₀ := h.past _ _ _ hmem
  have hkeep : keepsRecord env tick dp = true := by
    simp only [keepsRecord, Bool.and_eq_true, decide_eq_true_eq]
    omega
  simp only [DupecheckRun.step, dupecheckCleanup, dupecheckDbFree]
  split
  · exact List.mem_filter.mpr ⟨hdp, hkeep⟩
  · exact hdp

/-- A check keeps the invariant. -/
theorem dupecheck (hmalloc : ∀ n, env.cellmalloc n = true) (h : DupecheckInv env tick r)
    {pb : Pbuf} (hhash : keyhash pb.addr 0 ≠ 0) :
    DupecheckInv env tick (r.step env (tick, .dupecheck pb)) := by
  have hpast : ∀ t pb' rc, (t, pb', rc) ∈ (r.step env (tick, .dupecheck pb)).answers →
      t ≤ tick := by
    intro t pb' rc hmem
    rw [DupecheckRun.step_dupecheck_answers] at hmem
    rcases List.mem_cons.mp hmem with heq | hmem
    · simp only [Prod.mk.injEq] at heq
      omega
    · exact h.past t pb' rc hmem
  rcases dupecheck_cases hmalloc tick r.st hhash with
    ⟨-, hrc, hst⟩ | ⟨-, hrc, hst⟩
  · -- A duplicate: the records stay, and the new answer is not a stored packet.
    have hold : ∀ {t pb'}, (t, pb', 0) ∈ (r.step env (tick, .dupecheck pb)).answers →
        (t, pb', 0) ∈ r.answers := by
      intro t pb' hmem
      rw [DupecheckRun.step_dupecheck_answers, hrc] at hmem
      rcases List.mem_cons.mp hmem with heq | hmem
      · simp only [Prod.mk.injEq] at heq
        exact absurd heq.2.2 (by decide)
      · exact hmem
    refine ⟨hpast, ?_, ?_⟩
    · intro i dp hdp
      rw [DupecheckRun.step_dupecheck_st, hst] at hdp
      obtain ⟨h1, h2, pb', hmem, hstored⟩ := h.sound i dp hdp
      exact ⟨h1, h2, pb', List.mem_cons_of_mem _ hmem, hstored⟩
    · intro t pb' hmem ht k hk
      have hholds := h.complete t pb' (hold hmem) ht k hk
      rwa [DupecheckDb.Holds, DupecheckRun.step_dupecheck_st, hst]
  · -- The packet passed: its records are new, all others are kept.
    obtain ⟨hrec, hkeep, hself⟩ := dupecheck_store_spec hmalloc tick pb r.st rfl
    rw [← hst] at hrec hkeep hself
    refine ⟨hpast, ?_, ?_⟩
    · intro i dp hdp
      rcases hrec i dp hdp with hdp | ⟨k, hk, hdphash, hi, rfl, hdpt⟩
      · obtain ⟨h1, h2, pb', hmem, hstored⟩ := h.sound i dp hdp
        exact ⟨h1, h2, pb', List.mem_cons_of_mem _ hmem, hstored⟩
      · refine ⟨hdphash, hdphash ▸ hi, pb, ?_, hk⟩
        simp [hrc, hdpt]
    · intro t pb' hmem ht k hk
      rw [DupecheckRun.step_dupecheck_answers] at hmem
      rcases List.mem_cons.mp hmem with heq | hmem
      · simp only [Prod.mk.injEq] at heq
        obtain ⟨rfl, rfl, -⟩ := heq
        exact hself k hk
      · exact hkeep k t (h.past _ _ _ hmem) (h.complete t pb' hmem ht k hk)

end DupecheckInv

/-! ## Whole runs -/

/-- A run as the dupecheck thread makes it: the clock does not go back, memory
suffices, and no address part hashes to the value that restarts the hash. -/
structure DupecheckCallsOk (env : DupecheckEnv) (calls : List (Int × DupecheckCall)) : Prop where
  malloc : ∀ n, env.cellmalloc n = true
  ticks : calls.Pairwise fun a b => a.1 ≤ b.1
  hash : ∀ t pb, (t, .dupecheck pb) ∈ calls → keyhash pb.addr 0 ≠ 0

namespace DupecheckCallsOk

variable {env : DupecheckEnv} {calls cs : List (Int × DupecheckCall)}

theorem sublist (h : DupecheckCallsOk env calls) (hcs : cs.Sublist calls) :
    DupecheckCallsOk env cs where
  malloc := h.malloc
  ticks := h.ticks.sublist hcs
  hash := fun t pb hmem => h.hash t pb (hcs.subset hmem)

theorem le_of_snoc {c : Int × DupecheckCall} (h : DupecheckCallsOk env (cs ++ [c])) :
    ∀ c' ∈ cs, c'.1 ≤ c.1 := by
  intro c' hc'
  exact (List.pairwise_append.mp h.ticks).2.2 c' hc' c (List.mem_singleton_self c)

end DupecheckCallsOk

theorem runDupecheck_snoc {env : DupecheckEnv} {cs : List (Int × DupecheckCall)}
    {c : Int × DupecheckCall} :
    runDupecheck env (cs ++ [c]) = (runDupecheck env cs).step env c := by
  simp only [runDupecheck, List.foldl_append, List.foldl_cons, List.foldl_nil]

/-- A run keeps the invariant, at every tick not before its last call. -/
theorem runDupecheck_inv {env : DupecheckEnv} {calls : List (Int × DupecheckCall)}
    (h : DupecheckCallsOk env calls) {T : Int} (hT : ∀ c ∈ calls, c.1 ≤ T) :
    DupecheckInv env T (runDupecheck env calls) := by
  induction calls using List.reverseRecOn generalizing T with
  | nil => exact .init
  | append_singleton cs c ih =>
    have hinv := ih (h.sublist (List.sublist_append_left cs [c])) h.le_of_snoc
    have hcT : c.1 ≤ T := hT c (by simp)
    rw [runDupecheck_snoc]
    obtain ⟨t, call⟩ := c
    cases call with
    | dupecheck pb => exact (hinv.dupecheck h.malloc (h.hash t pb (by simp))).mono hcT
    | cleanup => exact hinv.cleanup.mono hcT

/-- The answer of a check on the history of the run. -/
theorem dupecheck_eq_dupe_iff {env : DupecheckEnv} {cs : List (Int × DupecheckCall)} {T : Int}
    {pb : Pbuf} (h : DupecheckCallsOk env (cs ++ [(T, .dupecheck pb)])) :
    (dupecheck env T pb (runDupecheck env cs).st).1 = rcDupe ↔
      ∃ t' pb', (t', pb', 0) ∈ (runDupecheck env cs).answers ∧
        T - env.dupefilterStoretime ≤ t' ∧ StoredKey pb'.key pb.key := by
  have hinv := runDupecheck_inv (h.sublist (List.sublist_append_left cs _)) h.le_of_snoc
  rw [← hinv.holds_iff]
  rcases dupecheck_cases h.malloc T (runDupecheck env cs).st
    (h.hash T pb (by simp)) with ⟨hholds, hrc, -⟩ | ⟨hholds, hrc, -⟩
  · simp only [hrc, hholds]
  · simp only [hrc, hholds]
    decide

/-- Two runs with the same history answer alike. -/
theorem dupecheck_answer_congr {env : DupecheckEnv} {cs cs' : List (Int × DupecheckCall)}
    {T : Int} {pb : Pbuf} (h : DupecheckCallsOk env (cs ++ [(T, .dupecheck pb)]))
    (h' : DupecheckCallsOk env (cs' ++ [(T, .dupecheck pb)]))
    (heq : (runDupecheck env cs).answers = (runDupecheck env cs').answers) :
    (dupecheck env T pb (runDupecheck env cs).st).1 =
      (dupecheck env T pb (runDupecheck env cs').st).1 := by
  have hhash := h.hash T pb (by simp)
  have hiff := dupecheck_eq_dupe_iff h
  rw [heq, ← dupecheck_eq_dupe_iff h'] at hiff
  rcases dupecheck_cases h.malloc T (runDupecheck env cs).st hhash with
    ⟨-, hrc, -⟩ | ⟨-, hrc, -⟩
  · rw [hrc, hiff.mp hrc]
  · rcases dupecheck_cases h.malloc T (runDupecheck env cs').st hhash with
      ⟨-, hrc', -⟩ | ⟨-, hrc', -⟩
    · exact absurd (hrc.symm.trans (hiff.mpr hrc')) (by decide)
    · rw [hrc, hrc']

/-- Leaving out every cleanup does not change the answers. -/
theorem runDupecheck_answers_filter {env : DupecheckEnv} {calls : List (Int × DupecheckCall)}
    (h : DupecheckCallsOk env calls) :
    (runDupecheck env calls).answers =
      (runDupecheck env (calls.filter fun c => c.2.isDupecheck)).answers := by
  induction calls using List.reverseRecOn with
  | nil => rfl
  | append_singleton cs c ih =>
    have ihcs := ih (h.sublist (List.sublist_append_left cs [c]))
    rw [runDupecheck_snoc, List.filter_append]
    obtain ⟨t, call⟩ := c
    cases call with
    | dupecheck pb =>
      have hsub : (cs.filter (fun c : Int × DupecheckCall => c.2.isDupecheck) ++
          [(t, DupecheckCall.dupecheck pb)]).Sublist (cs ++ [(t, DupecheckCall.dupecheck pb)]) :=
        List.filter_sublist.append_right _
      have hans := dupecheck_answer_congr h (h.sublist hsub) ihcs
      rw [show [(t, DupecheckCall.dupecheck pb)].filter
        (fun c : Int × DupecheckCall => c.2.isDupecheck) = [(t, .dupecheck pb)] from rfl,
        runDupecheck_snoc]
      simp only [DupecheckRun.step_dupecheck_answers, ihcs, hans]
    | cleanup => simpa [DupecheckCall.isDupecheck, DupecheckRun.step] using ihcs

/-- Duplicate detection is exact, and cleanup cannot be observed. A packet is a
duplicate if and only if a packet that passed within the store time has the same
key, or has this key among the mangled forms it was stored under. -/
theorem dupecheck_exact {env : DupecheckEnv} {calls : List (Int × DupecheckCall)}
    (h : DupecheckCallsOk env calls) :
    (∀ pre T pb post, calls = pre ++ (T, .dupecheck pb) :: post →
      ((dupecheck env T pb (runDupecheck env pre).st).1 = rcDupe ↔
        ∃ t' pb', (t', pb', 0) ∈ (runDupecheck env pre).answers ∧
          T - env.dupefilterStoretime ≤ t' ∧
          (pb.key = pb'.key ∨
            (pb'.key.length ≤ packetlenMax ∧ MangledVariant pb'.key pb.key)))) ∧
    (runDupecheck env calls).answers =
      (runDupecheck env (calls.filter fun c => c.2.isDupecheck)).answers := by
  refine ⟨?_, runDupecheck_answers_filter h⟩
  intro pre T pb post heq
  have hpre : (pre ++ [(T, DupecheckCall.dupecheck pb)]).Sublist calls := by
    rw [heq]
    exact (List.Sublist.refl pre).append (by simp)
  exact dupecheck_eq_dupe_iff (h.sublist hpre)

/-- The packet `A1A>B1B:text` with the given information field. -/
private def samplePacket (info : String) : Pbuf where
  data := ascii "A1A>B1B:" ++ ascii info ++ [0x0D, 0x0A]
  packetLen := 8 + info.length + 2
  packettype := tAll
  flags := 0
  srcname := 0
  srcnameLen := 3
  dstname := none
  dstnameLen := 0
  srccallEnd := 3
  dstcallEndOrSsid := 7
  dstcallEnd := 7
  dstcallLen := 3
  qconstStart := 7
  infoStart := 8
  t := 0

private def sampleEnv : DupecheckEnv where
  dupefilterStoretime := 30
  cellmalloc := fun _ => true

private def sampleCalls : List (Int × DupecheckCall) :=
  [(10, .dupecheck (samplePacket "text ")), (20, .cleanup),
   (40, .dupecheck (samplePacket "text"))]

/-- A packet that lost its trailing space is caught 30 seconds later, with a
cleanup in between. -/
theorem dupecheck_trimmed_copy :
    DupecheckCallsOk sampleEnv sampleCalls ∧
      (dupecheck sampleEnv 40 (samplePacket "text")
        (runDupecheck sampleEnv (sampleCalls.take 2)).st).1 = rcDupe := by
  have hok : DupecheckCallsOk sampleEnv sampleCalls := by
    refine ⟨fun _ => rfl, by simp [sampleCalls], ?_⟩
    intro t pb hmem
    simp only [sampleCalls, List.mem_cons, Prod.mk.injEq, DupecheckCall.dupecheck.injEq,
      reduceCtorEq, and_false, List.not_mem_nil, or_false, false_or] at hmem
    rcases hmem with ⟨-, rfl⟩ | ⟨-, rfl⟩ <;> decide
  refine ⟨hok, ((dupecheck_exact hok).1 (sampleCalls.take 2) 40 (samplePacket "text") [] rfl).mpr ?_⟩
  refine ⟨10, samplePacket "text ", by decide, by decide, .inr ⟨by decide, ?_⟩⟩
  have htrim : (samplePacket "text").key = trimSpaces (samplePacket "text ").key := by decide
  rw [htrim]
  exact .spaceTrim

end Aprsc
