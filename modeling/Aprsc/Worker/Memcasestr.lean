-- SUMMARY: The search for a filter command in a comment line, and before which text it finds the first one.
import Aprsc.Base.Search
import Aprsc.Worker.Handlers

/-!
# Filter commands in comment lines

`incoming_handler` looks for `filter` in the lines that start with `#`, in upper or lower case and
after any text. `memcasestr` does so in one pass: a byte that ends a match too early is not
compared with the start of the needle again.
-/

namespace Aprsc

open Search

/-- Text in upper case. Texts that differ in case only are equal in upper case. -/
def upper (s : Bytes) : Bytes := s.map toupper

/-- The first position at which the needle occurs in the haystack, in any case. -/
def FirstCaseAt (needle haystack : Bytes) (p : Nat) : Prop := FirstAt (upper needle) (upper haystack) p

/-- The result of a complete search that ignores case. -/
def FindsCase (needle haystack : Bytes) (r : Option Nat) : Prop := Finds (upper needle) (upper haystack) r

/-- The text is made of pieces that match the needle up to their last byte, which does not. -/
def SkipsCase (needle text : Bytes) : Prop := Skips (upper needle) (upper text)

/-- The end of `incoming_handler` for a comment line of a TCP client, with a filter command at this
position of the line, or none. -/
def handleComment (env : HandlerEnv) (s : Bytes) (filtercmd : Option Nat) : ClientM Int := do
  let c ← ResM.get
  if c.has clflagsUserfilterok then
    match filtercmd with
    | some off => filterCommands env false (s.drop off)
    | none => pure 0
  else pure 0

variable {needle haystack : Bytes}

theorem upper_cons (b : UInt8) (s : Bytes) : upper (b :: s) = toupper b :: upper s := rfl

theorem upper_eq_nil_iff {s : Bytes} : upper s = [] ↔ s = [] := List.map_eq_nil_iff

/-- The loop compares the bytes in upper case. -/
theorem memcasestrLoop_eq_scan (hneedle : needle ≠ []) (pos : Nat) {np : Bytes} (hnp : np ≠ [])
    (matchStart : Option Nat) :
    memcasestrLoop needle haystack pos np matchStart =
      scan (upper needle) (upper haystack) pos (upper np) matchStart := by
  induction haystack generalizing pos np matchStart with
  | nil =>
    rw [memcasestrLoop]
    rfl
  | cons b haystack ih =>
    cases np with
    | nil => exact absurd rfl hnp
    | cons n np =>
      rw [memcasestrLoop, upper_cons, upper_cons, scan]
      simp only [List.headD_cons, List.drop_succ_cons, List.drop_zero, beq_iff_eq, upper_eq_nil_iff,
        List.isEmpty_iff]
      by_cases hmatch : toupper b = toupper n
      · rw [if_pos hmatch, if_pos hmatch]
        by_cases hend : np = []
        · rw [if_pos hend, if_pos hend]
        · rw [if_neg hend, if_neg hend]
          exact ih (pos + 1) hend _
      · rw [if_neg hmatch, if_neg hmatch]
        exact ih (pos + 1) hneedle none

theorem memcasestr_eq_scan (hneedle : needle ≠ []) (haystack : Bytes) :
    memcasestr needle haystack = scan (upper needle) (upper haystack) 0 (upper needle) none :=
  memcasestrLoop_eq_scan hneedle 0 hneedle none

theorem FindsCase.eq_some {p : Nat} {r : Option Nat} (h : FindsCase needle haystack r)
    (hp : FirstCaseAt needle haystack p) : r = some p := by
  cases r with
  | none => exact absurd hp.1 (h p)
  | some q => rw [FirstAt.unique h hp]

/-- A comment line of a TCP client is handled as the search says. -/
theorem incomingHandler_comment (env : HandlerEnv) {s : Bytes} (hlen : s.length ≤ packetlenMax - 2)
    (hcomment : s.head? = some (ch '#')) :
    incomingHandler env false s = handleComment env s (memcasestr (ascii "filter") s) := by
  unfold incomingHandler handleComment
  rw [if_neg (Nat.not_lt.mpr hlen), if_pos hcomment]
  congr 1
  funext c
  cases c.has clflagsUserfilterok <;> rfl

/-- The search is complete exactly when the text before the first occurrence is made of pieces. A
filter command in a comment line is then found wherever it is. -/
theorem memcasestr_complete_iff (needle : Bytes) (hneedle : needle ≠ []) (haystack : Bytes) :
    (FindsCase needle haystack (memcasestr needle haystack) ↔
      ∀ p, FirstCaseAt needle haystack p → SkipsCase needle (haystack.take p)) ∧
    ∀ (env : HandlerEnv) (s : Bytes), s.length ≤ packetlenMax - 2 → s.head? = some (ch '#') →
      ∀ off, FirstCaseAt (ascii "filter") s off → SkipsCase (ascii "filter") (s.take off) →
        incomingHandler env false s = handleComment env s (some off) := by
  have hiff {needle : Bytes} (hneedle : needle ≠ []) (haystack : Bytes) :
      FindsCase needle haystack (memcasestr needle haystack) ↔
        ∀ p, FirstCaseAt needle haystack p → SkipsCase needle (haystack.take p) := by
    have hupper : upper needle ≠ [] := fun hnil => hneedle (upper_eq_nil_iff.mp hnil)
    rw [memcasestr_eq_scan hneedle, FindsCase, finds_scan_iff hupper]
    simp only [FirstCaseAt, SkipsCase, upper, List.map_take]
  refine ⟨hiff hneedle haystack, ?_⟩
  intro env s hlen hcomment off hoff hskips
  have hfinds : FindsCase (ascii "filter") s (memcasestr (ascii "filter") s) := by
    refine (hiff (by decide) s).mpr fun p hp => ?_
    rw [FirstAt.unique hp hoff]
    exact hskips
  rw [incomingHandler_comment env hlen hcomment, hfinds.eq_some hoff]

/-- Text without the first letter of the word may stand before it. -/
theorem memcasestr_complete_spaced :
    FindsCase (ascii "filter") (ascii "# FILTER p/N") (memcasestr (ascii "filter") (ascii "# FILTER p/N")) := by
  refine (memcasestr_complete_iff (ascii "filter") (by decide) (ascii "# FILTER p/N")).1.mpr ?_
  intro p hp
  have hocc : OccursAt (upper (ascii "filter")) (upper (ascii "# FILTER p/N")) 2 := by
    unfold OccursAt
    decide
  have hle : p ≤ 2 := Nat.not_lt.mp fun hlt => hp.2 2 hlt hocc
  have htake : (ascii "# FILTER p/N").take p = (ascii "# ").take p := by
    rw [← Nat.min_eq_left hle, ← List.take_take, ← List.take_take]
    rfl
  rw [SkipsCase, htake]
  refine skips_of_forall_ne fun c hc => ?_
  have hmem : c ∈ upper (ascii "# ") := by
    obtain ⟨b, hb, rfl⟩ := List.mem_map.mp hc
    exact List.mem_map.mpr ⟨b, List.mem_of_mem_take hb, rfl⟩
  rintro rfl
  exact absurd hmem (by decide)

/-- The last `f` before the word starts a match, and the `f` of the word ends it. -/
theorem memcasestr_misses_filter :
    memcasestr (ascii "filter") (ascii "#alfhilawuehflwieuhffilter p/N") = none ∧
      OccursAt (upper (ascii "filter")) (upper (ascii "#alfhilawuehflwieuhffilter p/N")) 20 ∧
      ¬FindsCase (ascii "filter") (ascii "#alfhilawuehflwieuhffilter p/N")
        (memcasestr (ascii "filter") (ascii "#alfhilawuehflwieuhffilter p/N")) := by
  have hnone : memcasestr (ascii "filter") (ascii "#alfhilawuehflwieuhffilter p/N") = none := by decide
  have hocc : OccursAt (upper (ascii "filter")) (upper (ascii "#alfhilawuehflwieuhffilter p/N")) 20 := by
    unfold OccursAt
    decide
  rw [hnone]
  exact ⟨rfl, hocc, fun hfinds => hfinds 20 hocc⟩

end Aprsc
