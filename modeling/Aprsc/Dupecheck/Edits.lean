-- SUMMARY: The single edits that a check makes to the duplicate database, and the rule that what each of them keeps is kept by the check.
import Aprsc.Dupecheck.Justified

/-!
# Edits of the duplicate database

A packet that passes is stored with its variants. Each store adds a record, refreshes one,
or finds no memory. A property of the database that these edits keep is kept by a check
that finds no duplicate, and by nothing else does the check change the database.
-/

namespace Aprsc

/-- A record that is stored for a packet: a comparison copy, or a variant with the type
under which `dupecheck_mangle_store` stores it. -/
def DupeRecord.Typed (dp : DupeRecord) : Prop :=
  dp.dtype = 0 ∨ ∃ ib, (dp.packet, dp.dtype) ∈ mangledVariants ib

/-- The edits keep a property of the database. -/
structure KeptByEdits (P : DupecheckDb → Prop) : Prop where
  /-- A record is added to the end of a chain. -/
  add : ∀ {s : DupecheckDb} (i free mallocs : Nat) {dp : DupeRecord}, P s → i < dupecheckDbSize →
    dp.Typed →
    P { s with
      db := (s.setBucket i (s.db i ++ [dp])).db
      free, mallocs
      cellgauge := s.cellgauge + 1 }
  /-- There is no memory for a record. -/
  fail : ∀ {s : DupecheckDb} (mallocs : Nat), P s → P { s with mallocs }
  /-- The time of a record is set. -/
  refresh : ∀ {s : DupecheckDb} {i : Nat} {pre post : List DupeRecord} {dp : DupeRecord} (t : Int),
    P s → s.db i = pre ++ dp :: post → P (s.setBucket i (pre ++ { dp with t } :: post))

section
variable {P : DupecheckDb → Prop} (env : DupecheckEnv) (tick : Int) {s : DupecheckDb}

theorem dupecheckIndex_lt (hash : UInt32) : dupecheckIndex hash < dupecheckDbSize :=
  Nat.mod_lt _ (by decide)

namespace KeptByEdits

theorem link (hP : KeptByEdits P) (hs : P s) {i : Nat} (hi : i < dupecheckDbSize) {dp : DupeRecord}
    (hdp : dp.Typed) : P (dupecheckLink env i dp s).2 := by
  unfold dupecheckLink dupecheckDbAlloc
  by_cases hfree : 0 < s.free
  · simp only [if_pos hfree]
    exact hP.add i (s.free - 1) s.mallocs hs hi hdp
  · simp only [if_neg hfree]
    cases env.cellmalloc s.mallocs
    · exact hP.fail _ hs
    · exact hP.add i s.free (s.mallocs + 1) hs hi hdp

theorem addBuf (hP : KeptByEdits P) (hs : P s) {k : Bytes} {dtype : Nat} {ib : Bytes}
    (hv : (k, dtype) ∈ mangledVariants ib) : P (dupecheckAddBuf env tick k dtype s) := by
  unfold dupecheckAddBuf
  dsimp only
  split
  · rename_i chain hchain
    obtain ⟨pre, dp, post, -, -, hold, rfl⟩ := refreshRecord_eq_some hchain
    exact hP.refresh tick hs hold
  · exact hP.link env hs (dupecheckIndex_lt _) (.inr ⟨ib, hv⟩)

theorem mangleStore (hP : KeptByEdits P) (hs : P s) (addr data : Bytes) :
    P (dupecheckMangleStore env tick addr data s) := by
  have hfold : ∀ (vs : List (Bytes × Nat)) (s : DupecheckDb), P s →
      (∀ v ∈ vs, v ∈ mangledVariants (addr ++ data)) →
      P (vs.foldl (fun s v => dupecheckAddBuf env tick v.1 v.2 s) s) := by
    intro vs
    induction vs with
    | nil => exact fun s hs _ => hs
    | cons v vs ih =>
      intro s hs hvs
      exact ih _ (hP.addBuf env tick hs (hvs v List.mem_cons_self)) fun w hw =>
        hvs w (List.mem_cons_of_mem v hw)
  unfold dupecheckMangleStore
  dsimp only
  split
  · exact hs
  · exact hfold _ s hs fun v hv => hv

/-- A check that finds no record makes edits only. -/
theorem dupecheck (hP : KeptByEdits P) (hs : P s) {pb : Pbuf}
    (hnone : matchingRecord env tick pb s = none) :
    P (dupecheck env tick pb s).2 ∧ (Aprsc.dupecheck env tick pb s).1 ≠ rcDupe := by
  have hlink := hP.link env hs (dupecheckIndex_lt (keyhash pb.info (keyhash pb.addr 0)))
    (show (⟨keyhash pb.info (keyhash pb.addr 0), tick, 0, pb.addr ++ pb.info⟩ : DupeRecord).Typed
      from .inl rfl)
  simp only [matchingRecord] at hnone
  simp only [Aprsc.dupecheck, hnone]
  by_cases hok : (dupecheckAppend env tick (dupecheckIndex (keyhash pb.info (keyhash pb.addr 0)))
      (keyhash pb.info (keyhash pb.addr 0)) pb.addr pb.info s).1 = true
  · rw [if_pos hok]
    exact ⟨hP.mangleStore env tick hlink _ _, by simp [rcDupe]⟩
  · rw [if_neg hok]
    exact ⟨hlink, by simp [rcDupe]⟩

end KeptByEdits

/-- A check that finds a record counts its type, if that is below `DTYPE_MAX`. -/
theorem dupecheck_of_match {pb : Pbuf} {dp : DupeRecord}
    (hmatch : matchingRecord env tick pb s = some dp) :
    dupecheck env tick pb s = (rcDupe,
      { s with
        dupetypes :=
          if dp.dtype < dtypeMax then Function.update s.dupetypes dp.dtype (s.dupetypes dp.dtype + 1)
          else s.dupetypes }) := by
  unfold matchingRecord at hmatch
  unfold dupecheck
  dsimp only at hmatch ⊢
  rw [hmatch]
  dsimp only
  split
  · congr 2
    funext d
    rw [Function.update_apply]
    split
    · rename_i heq
      rw [heq]
    · rfl
  · rfl

theorem matchingRecord_mem {pb : Pbuf} {dp : DupeRecord}
    (hmatch : matchingRecord env tick pb s = some dp) : ∃ i, dp ∈ s.db i :=
  ⟨_, List.mem_of_find?_eq_some hmatch⟩

end

end Aprsc
