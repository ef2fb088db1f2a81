-- SUMMARY: Histories in which dues arise, are paid and lapse, what is owed after a history, and histories that pay nothing else.
import Mathlib.Data.List.Basic
import Mathlib.Data.List.Induction
import Mathlib.Data.Set.Insert

/-!
# Dues

Something is owed to a key when it arises, until it is paid or lapses. A history is
justified if it pays only what is owed at that point. Then each due is paid at most once,
and every payment has its own due before it.
-/

namespace Dues

universe u

/-- What one step of a system means for the dues. -/
inductive Mark (κ : Type u) where
  | owe (k : κ)
  | pay (k : κ)
  /-- The dues of some keys lapse. -/
  | lapse (p : κ → Prop)
  | skip

variable {κ : Type u}

/-- A mark after which nothing is owed to the key, whatever was before. -/
def Mark.Settles (k : κ) : Mark κ → Prop
  | .pay k' => k' = k
  | .lapse p => p k
  | _ => False

/-- What is owed after a mark. -/
def Mark.apply (owed : Set κ) : Mark κ → Set κ
  | .owe k => insert k owed
  | .pay k => owed \ {k}
  | .lapse p => {k ∈ owed | ¬p k}
  | .skip => owed

/-- What is owed after a history. -/
def owed (ms : List (Mark κ)) : Set κ := ms.foldl Mark.apply ∅

/-- Only what is owed is paid. -/
def Justified (ms : List (Mark κ)) : Prop :=
  ∀ before k after, ms = before ++ .pay k :: after → k ∈ owed before

@[simp] theorem owed_concat (ms : List (Mark κ)) (m : Mark κ) :
    owed (ms ++ [m]) = m.apply (owed ms) := by
  simp [owed]

theorem Mark.mem_apply {owed : Set κ} {m : Mark κ} {k : κ} :
    k ∈ m.apply owed ↔ m = .owe k ∨ k ∈ owed ∧ ¬m.Settles k := by
  cases m with
  | owe k' => simp [apply, Settles, eq_comm]
  | pay k' => simp [apply, Settles, eq_comm]
  | lapse p => simp [apply, Settles]
  | skip => simp [apply, Settles]

/-- What is owed arose at some point and was not settled since. -/
theorem mem_owed_iff {ms : List (Mark κ)} {k : κ} :
    k ∈ owed ms ↔ ∃ before after, ms = before ++ .owe k :: after ∧ ∀ m ∈ after, ¬m.Settles k := by
  induction ms using List.reverseRecOn with
  | nil => simp [owed]
  | append_singleton ms m ih =>
    rw [owed_concat, Mark.mem_apply, ih]
    constructor
    · rintro (rfl | ⟨⟨before, after, rfl, hafter⟩, hm⟩)
      · exact ⟨ms, [], rfl, by simp⟩
      · refine ⟨before, after ++ [m], by simp, fun m' hm' => ?_⟩
        obtain hm' | hm' := List.mem_append.mp hm'
        · exact hafter m' hm'
        · rwa [List.mem_singleton.mp hm']
    · rintro ⟨before, after, hms, hafter⟩
      obtain rfl | ⟨after', m', rfl⟩ := after.eq_nil_or_concat'
      · exact .inl (List.append_inj_right' hms rfl |> List.singleton_inj.mp)
      · have hsplit : ms ++ [m] = (before ++ .owe k :: after') ++ [m'] := by simpa using hms
        obtain ⟨rfl, hm⟩ := List.append_inj' hsplit rfl
        obtain rfl := List.singleton_inj.mp hm
        exact .inr ⟨⟨before, after', rfl, fun x hx => hafter x (by simp [hx])⟩, hafter m (by simp)⟩

@[simp] theorem justified_nil : Justified ([] : List (Mark κ)) := by
  simp [Justified]

/-- A history is justified if it was so before its last mark and that pays only what is
owed. -/
theorem justified_concat_iff {ms : List (Mark κ)} {m : Mark κ} :
    Justified (ms ++ [m]) ↔ Justified ms ∧ ∀ k, m = .pay k → k ∈ owed ms := by
  constructor
  · intro h
    refine ⟨fun before k after hms => h before k (after ++ [m]) (by simp [hms]), ?_⟩
    rintro k rfl
    exact h ms k [] rfl
  · rintro ⟨h, hm⟩ before k after hms
    obtain rfl | ⟨after', m', rfl⟩ := after.eq_nil_or_concat'
    · obtain ⟨rfl, hlast⟩ := List.append_inj' hms rfl
      exact hm k (List.singleton_inj.mp hlast)
    · have hsplit : ms ++ [m] = (before ++ .pay k :: after') ++ [m'] := by simpa using hms
      exact h before k after' (List.append_inj' hsplit rfl).1

section
variable [DecidableEq κ]

def Mark.isOwe (k : κ) : Mark κ → Bool
  | .owe k' => k' = k
  | _ => false

def Mark.isPay (k : κ) : Mark κ → Bool
  | .pay k' => k' = k
  | _ => false

theorem Mark.isOwe_iff {m : Mark κ} {k : κ} : m.isOwe k = true ↔ m = .owe k := by
  cases m <;> simp [isOwe]

theorem Mark.isPay_iff {m : Mark κ} {k : κ} : m.isPay k = true ↔ m = .pay k := by
  cases m <;> simp [isPay]

/-- How often something arose for a key. -/
def owes (k : κ) (ms : List (Mark κ)) : Nat := ms.countP (·.isOwe k)

/-- How often a key was paid. -/
def pays (k : κ) (ms : List (Mark κ)) : Nat := ms.countP (·.isPay k)

theorem owes_concat (k : κ) (ms : List (Mark κ)) (m : Mark κ) :
    owes k (ms ++ [m]) = owes k ms + if m.isOwe k then 1 else 0 := by
  rw [owes, List.countP_append, List.countP_singleton]
  rfl

theorem pays_concat (k : κ) (ms : List (Mark κ)) (m : Mark κ) :
    pays k (ms ++ [m]) = pays k ms + if m.isPay k then 1 else 0 := by
  rw [pays, List.countP_append, List.countP_singleton]
  rfl

/-- A key is paid at most as often as something arose for it, and less often while it is
owed. -/
theorem Justified.pays_le {ms : List (Mark κ)} (h : Justified ms) (k : κ) :
    pays k ms ≤ owes k ms ∧ (k ∈ owed ms → pays k ms < owes k ms) := by
  induction ms using List.reverseRecOn with
  | nil => simp [owed, pays, owes]
  | append_singleton ms m ih =>
    obtain ⟨hms, hm⟩ := justified_concat_iff.mp h
    obtain ⟨hle, hlt⟩ := ih hms
    rw [owed_concat, Mark.mem_apply, owes_concat, pays_concat]
    cases m with
    | owe k' =>
      by_cases hk : k' = k
      · simp [Mark.isPay, Mark.isOwe, hk]
        omega
      · simpa [Mark.isPay, Mark.isOwe, Mark.Settles, hk] using ⟨hle, hlt⟩
    | pay k' =>
      by_cases hk : k' = k
      · have hpaid : pays k ms + 1 ≤ owes k ms := hlt (hm k (by rw [hk]))
        simpa [Mark.isPay, Mark.isOwe, Mark.Settles, hk] using hpaid
      · simpa [Mark.isPay, Mark.isOwe, Mark.Settles, hk] using ⟨hle, hlt⟩
    | lapse p =>
      simp only [Mark.isPay, Mark.isOwe]
      exact ⟨hle, fun hk => hlt (by simpa using hk.elim (by simp) And.left)⟩
    | skip => simpa [Mark.isPay, Mark.isOwe, Mark.Settles] using ⟨hle, hlt⟩

end

end Dues
