-- SUMMARY: Search for a word in one pass that never goes back in the text, and when it finds the first occurrence.
import Mathlib.Data.List.Basic
import Mathlib.Data.Nat.Find

/-!
# Search in one pass

A search compares a text with a word, element by element. After a mismatch it compares the word
from its start again, with the next element of the text: what it has read of a match that
was not finished is lost. It therefore tries only some positions of the text, the ones after text that
`Skips` describes, and finds the first occurrence of the word when that is one of them.
-/

namespace Search

variable {α : Type*}

/-- The word occurs in the text at the position. -/
def OccursAt (word text : List α) (p : Nat) : Prop := word <+: text.drop p

/-- The position is the first at which the word occurs. -/
def FirstAt (word text : List α) (p : Nat) : Prop :=
  OccursAt word text p ∧ ∀ q < p, ¬OccursAt word text q

/-- The result of a complete search: the first position, or none if there is none. -/
def Finds (word text : List α) : Option Nat → Prop
  | some p => FirstAt word text p
  | none => ∀ p, ¬OccursAt word text p

/-- A start of the word, then an element that is not the next one of the word. -/
def Mismatch (word matched : List α) (c : α) : Prop := ∃ d, matched ++ [d] <+: word ∧ c ≠ d

/-- The text is cut into pieces that match the word up to their last element. -/
inductive Skips (word : List α) : List α → Prop where
  | nil : Skips word []
  | piece {matched rest : List α} {c : α} :
      Mismatch word matched c → Skips word rest → Skips word (matched ++ c :: rest)

/-- The search, at a position of the text, with the rest of the word and the start of the match. -/
def scan [DecidableEq α] (word : List α) :
    (text : List α) → (pos : Nat) → (left : List α) → (start : Option Nat) → Option Nat
  | [], _, _, _ => none
  | _ :: text, pos, [], _ => scan word text (pos + 1) word none
  | c :: text, pos, d :: left, start =>
      if c = d then
        if left = [] then some (start.getD pos)
        else scan word text (pos + 1) left (some (start.getD pos))
      else scan word text (pos + 1) word none

/-- What the search finds: the first occurrence among the positions that it tries. -/
def FindsTried (word text : List α) : Option Nat → Prop
  | some p => OccursAt word text p ∧ Skips word (text.take p) ∧
      ∀ q < p, Skips word (text.take q) → ¬OccursAt word text q
  | none => ∀ q, Skips word (text.take q) → ¬OccursAt word text q

variable {word matched text rest : List α} {c d : α} {p q : Nat}

theorem FirstAt.unique (hp : FirstAt word text p) (hq : FirstAt word text q) : p = q := by
  rcases Nat.lt_trichotomy p q with hlt | heq | hlt
  · exact absurd hp.1 (hq.2 p hlt)
  · exact heq
  · exact absurd hq.1 (hp.2 q hlt)

theorem exists_firstAt (h : OccursAt word text p) : ∃ q, FirstAt word text q := by
  classical
  have hex : ∃ q, OccursAt word text q := ⟨p, h⟩
  exact ⟨Nat.find hex, Nat.find_spec hex, fun _ => Nat.find_min hex⟩

/-- No piece ends inside of a match. -/
theorem Mismatch.not_prefix (h : Mismatch word matched c) (rest : List α) :
    ¬matched ++ c :: rest <+: word := by
  obtain ⟨d, hd, hne⟩ := h
  intro hpre
  have hc : matched ++ [c] <+: word := by
    rw [List.append_cons] at hpre
    exact (List.prefix_append _ _).trans hpre
  have heq := (List.prefix_of_prefix_length_le hc hd (by simp)).eq_of_length (by simp)
  exact hne (List.singleton_inj.mp (List.append_cancel_left heq))

/-- The first piece of a text is determined by the text. -/
theorem Mismatch.skips_iff (h : Mismatch word matched c) :
    Skips word (matched ++ c :: rest) ↔ Skips word rest := by
  refine ⟨fun hskips => ?_, .piece h⟩
  generalize htext : matched ++ c :: rest = text at hskips
  cases hskips with
  | nil => simp at htext
  | @piece matched' rest' c' h' hrest =>
    rcases List.append_eq_append_iff.mp htext with ⟨a, rfl, ha⟩ | ⟨a, rfl, ha⟩
    · cases a with
      | nil =>
        cases ha
        exact hrest
      | cons x a =>
        cases ha
        obtain ⟨d', hd', -⟩ := h'
        rw [List.append_assoc] at hd'
        exact absurd hd' (h.not_prefix _)
    · cases a with
      | nil =>
        cases ha
        exact hrest
      | cons x a =>
        cases ha
        obtain ⟨d, hd, -⟩ := h
        rw [List.append_assoc] at hd
        exact absurd hd (h'.not_prefix _)

/-- Text without the first element of the word is cut into single elements. -/
theorem skips_of_forall_ne {word : List α} (h : ∀ c ∈ text, c ≠ d) : Skips (d :: word) text := by
  induction text with
  | nil => exact .nil
  | cons c text ih =>
    have hmis : Mismatch (d :: word) [] c := ⟨d, ⟨word, rfl⟩, h c List.mem_cons_self⟩
    exact .piece hmis (ih fun x hx => h x (List.mem_cons_of_mem c hx))

/-- A start of the word is not cut, unless it is empty. -/
theorem Skips.eq_nil (h : Skips word matched) (hpre : matched <+: word) : matched = [] := by
  cases h with
  | nil => rfl
  | piece hmis => exact absurd hpre (hmis.not_prefix _)

theorem occursAt_append_iff :
    OccursAt word (matched ++ c :: rest) (matched.length + 1 + q) ↔ OccursAt word rest q := by
  have hdrop : (matched ++ c :: rest).drop (matched.length + 1 + q) = rest.drop q := by
    rw [Nat.add_assoc, List.drop_length_add_append, Nat.add_comm 1 q, List.drop_succ_cons]
  rw [OccursAt, hdrop, OccursAt]

/-- The positions of a text after its first piece. -/
theorem Mismatch.findsTried (h : Mismatch word matched c) {r : Option Nat}
    (hr : FindsTried word rest r) :
    FindsTried word (matched ++ c :: rest) (r.map (matched.length + 1 + ·)) := by
  have htake (q : Nat) : (matched ++ c :: rest).take (matched.length + 1 + q) =
      matched ++ c :: rest.take q := by
    rw [Nat.add_assoc, List.take_length_add_append, Nat.add_comm 1 q, List.take_succ_cons]
  -- The positions inside of the piece are not tried, and the word is not at its start.
  have hpiece (q : Nat) (hq : q < matched.length + 1)
      (hskips : Skips word ((matched ++ c :: rest).take q)) :
      ¬OccursAt word (matched ++ c :: rest) q := by
    obtain ⟨d, hd, hne⟩ := h
    have hmatched : (matched ++ c :: rest).take q <+: word := by
      rw [List.take_append_of_le_length (by omega)]
      exact (List.take_prefix q matched).trans ((List.prefix_append _ _).trans hd)
    have hnil := hskips.eq_nil hmatched
    have hzero : q = 0 := by
      have hlen := congrArg List.length hnil
      simp only [List.length_take, List.length_append, List.length_cons, List.length_nil] at hlen
      omega
    subst hzero
    intro hocc
    have hpre := hd.trans hocc
    rw [List.drop_zero, List.prefix_append_right_inj, List.cons_prefix_cons] at hpre
    exact hne hpre.1.symm
  have hlater (q : Nat) (hq : ¬q < matched.length + 1)
      (hskips : Skips word ((matched ++ c :: rest).take q))
      (hnot : ∀ k, q = matched.length + 1 + k → Skips word (rest.take k) → ¬OccursAt word rest k) :
      ¬OccursAt word (matched ++ c :: rest) q := by
    obtain ⟨k, rfl⟩ : ∃ k, q = matched.length + 1 + k := ⟨q - (matched.length + 1), by omega⟩
    rw [htake, h.skips_iff] at hskips
    rw [occursAt_append_iff]
    exact hnot k rfl hskips
  cases r with
  | none =>
    intro q hskips
    by_cases hq : q < matched.length + 1
    · exact hpiece q hq hskips
    · exact hlater q hq hskips fun k _ hk => hr k hk
  | some p =>
    obtain ⟨hocc, hskips, hmin⟩ := hr
    refine ⟨occursAt_append_iff.mpr hocc, ?_, fun q hq hskips' => ?_⟩
    · rw [htake, h.skips_iff]
      exact hskips
    · by_cases hlt : q < matched.length + 1
      · exact hpiece q hlt hskips'
      · refine hlater q hlt hskips' fun k hk hskips'' => hmin k ?_ hskips''
        exact Nat.lt_of_add_lt_add_left (hk ▸ hq)

/-- The search, when some of the word is matched. -/
theorem scan_spec [DecidableEq α] (hword : word ≠ []) (base : Nat) (text matched left : List α)
    (start : Option Nat) (hsplit : word = matched ++ left) (hleft : left ≠ [])
    (hstart : start.getD (base + matched.length) = base) :
    ∃ r, scan word text (base + matched.length) left start = r.map (base + ·) ∧
      FindsTried word (matched ++ text) r := by
  induction text generalizing base matched left start with
  | nil =>
    refine ⟨none, rfl, fun q _ hocc => ?_⟩
    have hlen := hocc.length_le
    rw [hsplit, List.append_nil, List.length_append, List.length_drop] at hlen
    have hpos := List.length_pos_of_ne_nil hleft
    omega
  | cons c text ih =>
    cases left with
    | nil => exact absurd rfl hleft
    | cons d left =>
      rw [scan]
      by_cases hc : c = d
      · subst hc
        rw [if_pos rfl, hstart]
        by_cases hend : left = []
        · rw [if_pos hend]
          refine ⟨some 0, rfl, ?_, .nil, fun q hq => absurd hq (Nat.not_lt_zero q)⟩
          refine ⟨text, ?_⟩
          rw [hsplit, hend, List.drop_zero, List.append_assoc]
          rfl
        · rw [if_neg hend]
          have hsplit' : word = (matched ++ [c]) ++ left := by rw [hsplit, List.append_assoc]; rfl
          have hnext := ih base (matched ++ [c]) left (some base) hsplit' hend rfl
          rwa [List.length_append, List.append_assoc] at hnext
      · rw [if_neg hc]
        have hmis : Mismatch word matched c := by
          refine ⟨d, ⟨left, ?_⟩, hc⟩
          rw [hsplit, List.append_assoc]
          rfl
        obtain ⟨r, hr, hfinds⟩ := ih (base + matched.length + 1) [] word none rfl hword rfl
        refine ⟨r.map (matched.length + 1 + ·), ?_, hmis.findsTried hfinds⟩
        rw [List.length_nil, Nat.add_zero] at hr
        rw [hr, Option.map_map]
        congr 1
        funext k
        simp only [Function.comp_apply]
        omega

/-- The search finds the first occurrence, or that there is none, exactly when the text before the first
occurrence is made of pieces. -/
theorem finds_scan_iff [DecidableEq α] (hword : word ≠ []) (text : List α) :
    Finds word text (scan word text 0 word none) ↔
      ∀ p, FirstAt word text p → Skips word (text.take p) := by
  obtain ⟨r, hr, htried⟩ := scan_spec hword 0 text [] word none rfl hword rfl
  have hscan : scan word text 0 word none = r := by
    rw [List.length_nil] at hr
    rw [hr]
    cases r <;> simp
  rw [hscan]
  rw [List.nil_append] at htried
  constructor
  · intro hfinds p hp
    cases r with
    | none => exact absurd hp.1 (hfinds p)
    | some q =>
      cases hp.unique hfinds
      exact htried.2.1
  · intro hskips
    cases r with
    | none =>
      intro p hocc
      obtain ⟨q, hq⟩ := exists_firstAt hocc
      exact htried q (hskips q hq) hq.1
    | some q =>
      obtain ⟨p, hp⟩ := exists_firstAt htried.1
      have hle : q ≤ p := Nat.not_lt.mp fun hlt => htried.2.2 p hlt (hskips p hp) hp.1
      exact ⟨htried.1, fun k hk => hp.2 k (Nat.lt_of_lt_of_le hk hle)⟩

end Search
