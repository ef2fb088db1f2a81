-- SUMMARY: The counters of `dupecheck_dupetypes`, and in which runs they add up to the number of duplicates.
import Aprsc.Base.Runs
import Aprsc.Dupecheck.Edits

/-!
# Duplicate statistics

`dupecheck` counts the type of the record that makes a packet a duplicate. The array has
a bucket for each type from 0 to `DTYPE_MAX`, but only the types below `DTYPE_MAX` are
counted, and `DTYPE_DEL_SPACED` is not one of them.
-/

namespace Aprsc

open Runs

/-- A run so far: the database, how many checks have returned `F_DUPE`, and the records
that they have matched, the latest first. -/
structure StatRun where
  st : DupecheckDb
  returned : Nat
  matched : List DupeRecord

def StatRun.init : StatRun := ⟨.init, 0, []⟩

/-- One call at a tick. -/
def StatRun.step (env : DupecheckEnv) (s : StatRun) (c : Int × DupecheckCall) : StatRun :=
  match c.2 with
  | .dupecheck pb =>
      let (rc, st) := dupecheck env c.1 pb s.st
      if rc = rcDupe then
        ⟨st, s.returned + 1, (matchingRecord env c.1 pb s.st).toList ++ s.matched⟩
      else { s with st }
  | .cleanup => { s with st := dupecheckCleanup env c.1 s.st }

/-- The counters add up to the number of duplicates, and each counts the matched records
of its type: copies of packets, or variants of that type. -/
structure StatRun.Counted (s : StatRun) : Prop where
  sum : ((List.range (dtypeMax + 1)).map s.st.dupetypes).sum = s.returned
  each : ∀ d ≤ dtypeMax, s.st.dupetypes d = s.matched.countP (·.dtype = d)
  typed : ∀ dp ∈ s.matched, dp.Typed

/-- The packet of a check does not match a variant whose DEL bytes are spaces. -/
def NoDelSpaced (env : DupecheckEnv) (s : StatRun) (c : Int × DupecheckCall) : Prop :=
  ∀ pb, c.2 = .dupecheck pb → ∀ dp, matchingRecord env c.1 pb s.st = some dp →
    dp.dtype ≠ dtypeDelSpaced

/-! ## Types -/

theorem DupeRecord.Typed.le {dp : DupeRecord} (h : dp.Typed) : dp.dtype ≤ dtypeMax := by
  obtain hzero | ⟨ib, hv⟩ := h
  · rw [hzero]
    exact Nat.zero_le _
  · have hle : ∀ v ∈ mangledVariants ib, v.2 ≤ dtypeMax := by
      unfold mangledVariants
      simp only [List.forall_mem_append]
      refine ⟨⟨⟨?_, ?_⟩, ?_⟩, ?_⟩ <;> split <;>
        simp [dtypeSpaceTrim, dtypeStrip8bit, dtypeClear8bit, dtypeSpaced8bit, dtypeLowdataStrip,
          dtypeLowdataSpaced, dtypeDelStrip, dtypeDelSpaced, dtypeMax]
    exact hle _ hv

/-- The elements of each kind below a bound add up to the elements below it. -/
theorem sum_countP_range {α : Type*} (kind : α → Nat) (xs : List α) (n : Nat) :
    ((List.range n).map fun d => xs.countP (kind · = d)).sum = xs.countP (kind · < n) := by
  induction n with
  | zero => simp
  | succ n ih =>
    rw [List.range_succ, List.map_append, List.sum_append, ih, List.map_singleton, List.sum_singleton]
    clear ih
    induction xs with
    | nil => rfl
    | cons x xs hxs =>
      simp only [List.countP_cons, decide_eq_true_eq] at hxs ⊢
      split <;> split <;> split <;> omega

/-! ## Edits keep the counters and the types -/

/-- What an edit does not change. -/
theorem keptByEdits_typed (dupetypes : Nat → Nat) :
    KeptByEdits fun s => s.dupetypes = dupetypes ∧ ∀ i, ∀ dp ∈ s.db i, dp.Typed where
  add := by
    rintro s i free mallocs dp ⟨htypes, hs⟩ - hdp
    refine ⟨htypes, fun j x hx => ?_⟩
    simp only [DupecheckDb.setBucket] at hx
    split at hx
    · obtain hold | hnew := List.mem_append.mp hx
      · exact hs i x hold
      · rw [List.mem_singleton.mp hnew]
        exact hdp
    · exact hs j x hx
  fail := fun _ hs => hs
  refresh := by
    rintro s i pre post dp t ⟨htypes, hs⟩ hold
    refine ⟨htypes, fun j x hx => ?_⟩
    simp only [DupecheckDb.setBucket] at hx
    split at hx
    · have hchain := hs i
      rw [hold] at hchain
      simp only [List.mem_append, List.mem_cons] at hx hchain
      obtain hpre | rfl | hpost := hx
      · exact hchain x (.inl hpre)
      · exact hchain dp (.inr (.inl rfl))
      · exact hchain x (.inr (.inr hpost))
    · exact hs j x hx

/-! ## Runs -/

/-- The types below `DTYPE_MAX` are counted, and no others. -/
structure StatRun.Inv (s : StatRun) : Prop where
  records : ∀ i, ∀ dp ∈ s.st.db i, dp.Typed
  matched : ∀ dp ∈ s.matched, dp.Typed
  returned : s.returned = s.matched.length
  counted : ∀ d, s.st.dupetypes d = if d < dtypeMax then s.matched.countP (·.dtype = d) else 0

theorem StatRun.Inv.init : StatRun.init.Inv where
  records := fun _ _ h => by cases h
  matched := fun _ h => by cases h
  returned := rfl
  counted := fun d => by simp [StatRun.init, DupecheckDb.init]

section
variable {env : DupecheckEnv} {s : StatRun} {tick : Int} {pb : Pbuf} {dp : DupeRecord}

theorem step_of_match (hmatch : matchingRecord env tick pb s.st = some dp) :
    s.step env (tick, .dupecheck pb) =
      ⟨{ s.st with
          dupetypes :=
            if dp.dtype < dtypeMax then
              Function.update s.st.dupetypes dp.dtype (s.st.dupetypes dp.dtype + 1)
            else s.st.dupetypes },
        s.returned + 1, dp :: s.matched⟩ := by
  simp only [StatRun.step, dupecheck_of_match env tick hmatch, if_true, hmatch]
  rfl

theorem StatRun.Inv.step (h : s.Inv) (c : Int × DupecheckCall) : (s.step env c).Inv := by
  obtain ⟨tick, call⟩ := c
  cases call with
  | cleanup =>
    refine ⟨fun i dp hdp => ?_, h.matched, h.returned, h.counted⟩
    simp only [StatRun.step, dupecheckCleanup, dupecheckDbFree] at hdp
    split at hdp
    · exact h.records i dp (List.mem_of_mem_filter hdp)
    · exact h.records i dp hdp
  | dupecheck pb =>
    cases hmatch : matchingRecord env tick pb s.st with
    | none =>
      obtain ⟨⟨htypes, hrecords⟩, hrc⟩ :=
        (keptByEdits_typed s.st.dupetypes).dupecheck env tick ⟨rfl, h.records⟩ hmatch
      have hstep : s.step env (tick, .dupecheck pb) =
          { s with st := (dupecheck env tick pb s.st).2 } := by
        simp only [StatRun.step, if_neg hrc]
      rw [hstep]
      refine ⟨hrecords, h.matched, h.returned, fun d => ?_⟩
      dsimp only
      rw [htypes, h.counted]
    | some dp =>
      rw [step_of_match hmatch]
      obtain ⟨i, hdp⟩ := matchingRecord_mem env tick hmatch
      refine ⟨h.records, List.forall_mem_cons.mpr ⟨h.records i dp hdp, h.matched⟩,
        congrArg Nat.succ h.returned, fun d => ?_⟩
      dsimp only
      rw [List.countP_cons]
      -- The bucket of the record grows, if it has one that is counted.
      by_cases hd : d = dp.dtype
      · subst hd
        by_cases hlt : dp.dtype < dtypeMax
        · rw [if_pos hlt, if_pos hlt, Function.update_self, h.counted, if_pos hlt]
          simp
        · rw [if_neg hlt, if_neg hlt, h.counted, if_neg hlt]
      · have hne : (decide (dp.dtype = d)) = false := decide_eq_false (Ne.symm hd)
        rw [hne]
        by_cases hlt : dp.dtype < dtypeMax
        · rw [if_pos hlt, Function.update_of_ne hd, h.counted]
          simp
        · rw [if_neg hlt, h.counted]
          simp

/-- The counters are right exactly as long as no variant with spaced DEL bytes was
matched. -/
theorem StatRun.Inv.counted_iff (h : s.Inv) :
    s.Counted ↔ ∀ dp ∈ s.matched, dp.dtype ≠ dtypeDelSpaced := by
  constructor
  · intro hc dp hdp heq
    have hzero := hc.each dtypeMax (Nat.le_refl _)
    rw [h.counted, if_neg (Nat.lt_irrefl _)] at hzero
    have hnone := List.countP_eq_zero.mp hzero.symm dp hdp
    exact hnone (decide_eq_true heq)
  · intro hne
    have heach : ∀ d ≤ dtypeMax, s.st.dupetypes d = s.matched.countP (·.dtype = d) := by
      intro d hd
      rw [h.counted]
      split
      · rfl
      · rename_i hlt
        obtain rfl : d = dtypeMax := Nat.le_antisymm hd (Nat.not_lt.mp hlt)
        symm
        rw [List.countP_eq_zero]
        exact fun dp hdp heq => hne dp hdp (of_decide_eq_true heq)
    refine ⟨?_, heach, h.matched⟩
    have hmap : (List.range (dtypeMax + 1)).map s.st.dupetypes =
        (List.range (dtypeMax + 1)).map fun d => s.matched.countP (·.dtype = d) :=
      List.map_congr_left fun d hd => heach d (Nat.le_of_lt_succ (List.mem_range.mp hd))
    rw [hmap, sum_countP_range DupeRecord.dtype, h.returned, List.countP_eq_length]
    exact fun dp hdp => decide_eq_true (Nat.lt_succ_of_le (h.matched dp hdp).le)

/-- A call keeps the counters right exactly if it does not match such a variant. -/
theorem StatRun.Inv.counted_step_iff (h : s.Inv) (hc : s.Counted) (c : Int × DupecheckCall) :
    (s.step env c).Counted ↔ NoDelSpaced env s c := by
  rw [(h.step c).counted_iff]
  rw [h.counted_iff] at hc
  obtain ⟨tick, call⟩ := c
  cases call with
  | cleanup =>
    refine iff_of_true hc ?_
    intro pb hpb
    cases hpb
  | dupecheck pb =>
    have hok : NoDelSpaced env s (tick, .dupecheck pb) ↔
        ∀ dp, matchingRecord env tick pb s.st = some dp → dp.dtype ≠ dtypeDelSpaced :=
      ⟨fun hno => hno pb rfl, fun hno _ hpb => by cases hpb; exact hno⟩
    rw [hok]
    cases hmatch : matchingRecord env tick pb s.st with
    | none =>
      obtain ⟨-, hrc⟩ := (keptByEdits_typed s.st.dupetypes).dupecheck env tick ⟨rfl, h.records⟩ hmatch
      refine iff_of_true ?_ fun _ hdp => by cases hdp
      simpa only [StatRun.step, if_neg hrc] using hc
    | some dp =>
      rw [step_of_match hmatch, List.forall_mem_cons]
      refine (and_iff_left hc).trans ⟨fun hne dp' heq => ?_, fun hne => hne dp rfl⟩
      cases heq
      exact hne

end

/-- In a run from the empty database, the counters add up to the number of duplicates and
count each type, exactly if no packet matches a variant with spaced DEL bytes. -/
theorem dupetypes_counted_iff (env : DupecheckEnv) (calls : List (Int × DupecheckCall)) :
    Always (StatRun.step env) StatRun.Counted .init calls ↔
      Meets (StatRun.step env) (NoDelSpaced env) .init calls := by
  have hstep : ∀ (s : StatRun) c, s.Inv → (s.step env c).Inv := fun _ c hs => hs.step c
  have hcounted : ∀ (s : StatRun) c, s.Inv → s.Counted →
      ((s.step env c).Counted ↔ NoDelSpaced env s c) := fun _ c hs hc => hs.counted_step_iff hc c
  have hinit : StatRun.init.Counted :=
    StatRun.Inv.init.counted_iff.mpr fun _ h => by cases h
  exact always_iff_meets hstep hcounted StatRun.Inv.init hinit calls

private def delPacket (info : String) : Pbuf where
  data := ascii "OH7AA>ABC:" ++ ascii info ++ [0x0D, 0x0A]
  packetLen := info.length + 12
  packettype := 0
  flags := 0
  srcname := 0
  srcnameLen := 5
  dstname := none
  dstnameLen := 0
  srccallEnd := 5
  dstcallEndOrSsid := 9
  dstcallEnd := 9
  dstcallLen := 3
  qconstStart := 9
  infoStart := 10
  t := 0

/-- A packet that comes back with a space for its DEL byte is a duplicate that no bucket
counts. -/
theorem del_spaced_not_counted :
    ¬ Always (StatRun.step ⟨30, fun _ => true⟩) StatRun.Counted .init
      [(10, .dupecheck (delPacket ">a\x7fb")), (11, .dupecheck (delPacket ">a b"))] := by
  intro h
  have hsum := h.last.sum
  revert hsum
  decide +kernel

end Aprsc
