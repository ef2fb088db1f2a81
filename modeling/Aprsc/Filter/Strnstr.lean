-- SUMMARY: The bounded search for `TCPIP*` in a path: what it finds, and which bytes it examines.
import Aprsc.Base.Search
import Aprsc.Historydb
import Aprsc.Incoming.Parse

/-!
# Bounded search

`filter_check_tcpip` looks for `TCPIP*` in the path of a packet, which has no NUL at its end.
`aprsc_strnstr` is told how many bytes there are, and stops at a NUL as well.
-/

namespace Aprsc

open Search

/-- The access reads some of the `n` bytes from `lo` on. -/
def ReadsIn (lo : Int) (n : Nat) : Access → Prop
  | .span start len => lo ≤ start ∧ start + len ≤ lo + n
  | .cstr _ => False

/-- `strncmp(s1, s2, n) == 0`, for the `n` bytes of `s2`. -/
def strncmpAt (m : Area UInt8) : (s1 : Int) → (s2 : Bytes) → Traced Access Bool
  | _, [] => pure true
  | s1, c2 :: s2 => do
      let c1 ← m.read s1
      if c1 ≠ c2 then pure false
      else if c1 = 0 then pure true
      else strncmpAt m (s1 + 1) s2

/-- The loops of `aprsc_strnstr`, for the first byte of the needle and the bytes after it. The
next round of either loop starts with the check of the length. -/
def strnstrLoop (m : Area UInt8) (c2 : UInt8) (s2 : Bytes) :
    (len : Nat) → (s1 : Int) → Traced Access (Option Int)
  | 0, _ => pure none
  | len + 1, s1 => do
      let c1 ← m.read s1
      if c1 = 0 then pure none
      else if c1 ≠ c2 then strnstrLoop m c2 s2 len (s1 + 1)
      else if s2.length > len then pure none
      else do
        let equal ← strncmpAt m (s1 + 1) s2
        if equal then pure (some (s1 + 1)) else strnstrLoop m c2 s2 len (s1 + 1)

/-- `aprsc_strnstr`. The pointer that is returned is the one after the first byte of the match. -/
def aprscStrnstr (m : Area UInt8) (s1 : Int) (s2 : Bytes) (len : Nat) : Traced Access (Option Int) :=
  strnstrLoop m (s2.headD 0) (cString (s2.drop 1)) len s1

/-- `filter_check_tcpip`, for a packet buffer in memory. -/
def filterCheckTcpip (m : Area UInt8) (pb : Pbuf) : Pbuf :=
  let found := aprscStrnstr m pb.dstcallEnd (ascii ",TCPIP*,") (pb.qconstStart - pb.dstcallEnd)
  if found.val.isSome then { pb with flags := pb.flags ||| fHasTcpip } else pb

section
variable {m : Area UInt8} {c2 : UInt8} {s2 needle : Bytes} {s1 : Int} {len : Nat}

theorem ReadsIn.mono {a : Access} {lo lo' : Int} {n n' : Nat} (h : ReadsIn lo n a)
    (hlo : lo' ≤ lo) (hhi : lo + n ≤ lo' + n') : ReadsIn lo' n' a := by
  cases a with
  | span start len => exact ⟨Int.le_trans hlo h.1, Int.le_trans h.2 hhi⟩
  | cstr start => exact h.elim

theorem strncmpAt_val (hs2 : (0 : UInt8) ∉ s2) : (strncmpAt m s1 s2).val = true ↔ m.At s1 s2 := by
  induction s2 generalizing s1 with
  | nil => simp [strncmpAt]
  | cons c2 s2 ih =>
    rw [List.mem_cons, not_or] at hs2
    rw [strncmpAt, Traced.val_bind, Area.val_read, Traced.val_ite, Traced.val_ite, Area.at_cons]
    by_cases hc : m.byte s1 = c2
    · rw [if_neg (not_not.mpr hc), if_neg (hc ▸ Ne.symm hs2.1), ih hs2.2]
      exact (and_iff_right hc).symm
    · rw [if_pos hc]
      exact iff_of_false Bool.false_ne_true fun h => hc h.1

theorem strncmpAt_all : (strncmpAt m s1 s2).All (ReadsIn s1 s2.length) := by
  induction s2 generalizing s1 with
  | nil => exact (Traced.all_pure _ _).mpr trivial
  | cons c2 s2 ih =>
    simp only [strncmpAt, Traced.all_bind, Area.all_read, Traced.all_ite, Traced.all_pure]
    rw [List.length_cons]
    refine ⟨⟨Int.le_refl s1, by omega⟩, fun _ => trivial, fun _ => ⟨fun _ => trivial, fun _ => ?_⟩⟩
    exact fun a ha => (ih a ha).mono (by omega) (by omega)

/-- Bytes without a NUL are at the start of a string if they are in memory there. -/
theorem prefix_cString_slice_iff (hs2 : (0 : UInt8) ∉ s2) :
    s2 <+: cString (m.slice s1 len) ↔ s2.length ≤ len ∧ m.At s1 s2 := by
  constructor
  · intro hpre
    have hslice : s2 <+: m.slice s1 len := hpre.trans (List.takeWhile_prefix _)
    have hlen : s2.length ≤ len := by
      have hle := hslice.length_le
      rwa [Area.length_slice] at hle
    refine ⟨hlen, ?_⟩
    obtain ⟨k, rfl⟩ := Nat.exists_eq_add_of_le hlen
    rw [Area.slice_append] at hslice
    exact ((List.prefix_of_prefix_length_le hslice (List.prefix_append _ _) (by simp)).eq_of_length
      (by simp)).symm
  · rintro ⟨hlen, hat⟩
    obtain ⟨k, rfl⟩ := Nat.exists_eq_add_of_le hlen
    rw [Area.slice_append, hat, cString_append hs2]
    exact List.prefix_append _ _

theorem cString_slice_succ :
    cString (m.slice s1 (len + 1)) =
      if m.byte s1 = 0 then [] else m.byte s1 :: cString (m.slice (s1 + 1) len) := by
  rw [Area.slice, cString, List.takeWhile_cons]
  by_cases hc : m.byte s1 = 0
  · rw [if_pos hc, hc]
    rfl
  · rw [if_neg hc, if_pos (bne_iff_ne.mpr hc)]
    rfl

/-- There is no room for a longer needle. -/
theorem findSub_of_length_lt {xs : Bytes} (h : xs.length < needle.length) :
    findSub needle xs = none := by
  rw [← Option.not_isSome_iff_eq_none, findSub_isSome_iff]
  exact fun hinfix => Nat.not_le.mpr h hinfix.length_le

/-- The loops find the first occurrence in the string that ends at a NUL or after `len` bytes. -/
theorem strnstrLoop_val (hs2 : (0 : UInt8) ∉ s2) :
    (strnstrLoop m c2 s2 len s1).val =
      (findSub (c2 :: s2) (cString (m.slice s1 len))).map fun k : Nat => s1 + k + 1 := by
  induction len generalizing s1 with
  | zero => rfl
  | succ len ih =>
    rw [strnstrLoop, Traced.val_bind, Area.val_read, cString_slice_succ, Traced.val_ite]
    by_cases hnul : m.byte s1 = 0
    · rw [if_pos hnul, if_pos hnul]
      rfl
    · rw [if_neg hnul, if_neg hnul]
      -- The search goes on after a byte that starts no match.
      have hnext (hnot : ¬c2 :: s2 <+: m.byte s1 :: cString (m.slice (s1 + 1) len)) :
          (strnstrLoop m c2 s2 len (s1 + 1)).val =
            (findSub (c2 :: s2) (m.byte s1 :: cString (m.slice (s1 + 1) len))).map
              fun k : Nat => s1 + k + 1 := by
        rw [← List.isPrefixOf_iff_prefix] at hnot
        rw [ih, findSub, if_neg hnot, Option.map_map]
        congr 1
        funext k
        simp only [Function.comp_apply]
        omega
      by_cases hc : m.byte s1 = c2
      · have hstarts : c2 :: s2 <+: m.byte s1 :: cString (m.slice (s1 + 1) len) ↔
            s2.length ≤ len ∧ m.At (s1 + 1) s2 := by
          rw [hc, List.prefix_cons_inj, prefix_cString_slice_iff hs2]
        rw [if_neg (not_not.mpr hc), Traced.val_ite]
        by_cases hlen : s2.length > len
        · have hwindow : (cString (m.slice (s1 + 1) len)).length ≤ len := by
            have hle := (List.takeWhile_prefix (· != 0) (l := m.slice (s1 + 1) len)).length_le
            rwa [Area.length_slice] at hle
          rw [if_pos hlen, findSub_of_length_lt (by rw [List.length_cons, List.length_cons]; omega)]
          rfl
        · rw [if_neg hlen, Traced.val_bind, Traced.val_ite]
          by_cases hat : m.At (s1 + 1) s2
          · rw [if_pos ((strncmpAt_val hs2).mpr hat), findSub,
              if_pos (List.isPrefixOf_iff_prefix.mpr (hstarts.mpr ⟨Nat.not_lt.mp hlen, hat⟩))]
            simp
          · rw [if_neg fun h => hat ((strncmpAt_val hs2).mp h)]
            exact hnext fun h => hat (hstarts.mp h).2
      · rw [if_pos hc]
        exact hnext fun h => hc (List.cons_prefix_cons.mp h).1.symm

theorem strnstrLoop_all : (strnstrLoop m c2 s2 len s1).All (ReadsIn s1 len) := by
  induction len generalizing s1 with
  | zero => exact (Traced.all_pure _ _).mpr trivial
  | succ len ih =>
    have hrest : (strnstrLoop m c2 s2 len (s1 + 1)).All (ReadsIn s1 (len + 1)) :=
      fun a ha => (ih a ha).mono (by omega) (by omega)
    simp only [strnstrLoop, Traced.all_bind, Area.all_read, Traced.all_ite, Traced.all_pure]
    refine ⟨⟨Int.le_refl s1, by omega⟩, fun _ => trivial, fun _ => ⟨fun _ => hrest, fun _ => ?_⟩⟩
    refine ⟨fun _ => trivial, fun hlen => ⟨fun a ha => ?_, fun _ => trivial, fun _ => hrest⟩⟩
    exact (strncmpAt_all a ha).mono (by omega) (by omega)

theorem aprscStrnstr_val (hne : needle ≠ []) (hnul : (0 : UInt8) ∉ needle) :
    (aprscStrnstr m s1 needle len).val =
      (findSub needle (cString (m.slice s1 len))).map fun k : Nat => s1 + k + 1 := by
  cases needle with
  | nil => exact absurd rfl hne
  | cons c2 s2 =>
    rw [List.mem_cons, not_or] at hnul
    rw [aprscStrnstr, List.headD_cons, List.drop_one, List.tail_cons, cString_eq_self hnul.2]
    exact strnstrLoop_val hnul.2

/-- The check finds what the model of the whole function looks for in the data. -/
theorem filterCheckTcpip_eq {pb : Pbuf} (hat : m.At 0 pb.data) (hstart : pb.dstcallEnd ≤ pb.qconstStart)
    (hend : pb.qconstStart ≤ pb.data.length) :
    filterCheckTcpip m pb = filterPreprocessDupefilter pb := by
  have hslice : m.slice pb.dstcallEnd (pb.qconstStart - pb.dstcallEnd) =
      (pb.data.drop pb.dstcallEnd).take (pb.qconstStart - pb.dstcallEnd) := by
    have hpart := hat.slice_eq (i := pb.dstcallEnd) (n := pb.qconstStart - pb.dstcallEnd) (by omega)
    rwa [Int.zero_add] at hpart
  have hval := @aprscStrnstr_val m (ascii ",TCPIP*,") pb.dstcallEnd
    (pb.qconstStart - pb.dstcallEnd) (by decide) (by decide)
  rw [filterCheckTcpip, filterPreprocessDupefilter, hval, hslice, Option.isSome_map]
  rfl

/-- The search finds the needle exactly if it occurs before any NUL within the first `len` bytes:
the first occurrence, and without a look at any other byte. -/
theorem strnstr_exact (m : Area UInt8) (s1 : Int) (needle : Bytes) (hne : needle ≠ [])
    (hnul : (0 : UInt8) ∉ needle) (len : Nat) :
    ((aprscStrnstr m s1 needle len).val.isSome ↔
      ∃ k, OccursAt needle (cString (m.slice s1 len)) k) ∧
    (∀ p, (aprscStrnstr m s1 needle len).val = some p →
      ∃ k : Nat, p = s1 + k + 1 ∧ FirstAt needle (cString (m.slice s1 len)) k) ∧
    (aprscStrnstr m s1 needle len).All (ReadsIn s1 len) := by
  rw [aprscStrnstr_val hne hnul]
  refine ⟨?_, fun p hp => ?_, strnstrLoop_all⟩
  · rw [Option.isSome_map, findSub_isSome_iff]
    constructor
    · rintro ⟨front, back, h⟩
      refine ⟨front.length, back, ?_⟩
      rw [← h, List.append_assoc, List.drop_left]
    · rintro ⟨k, h⟩
      exact h.isInfix.trans (List.drop_suffix k _).isInfix
  · cases hfind : findSub needle (cString (m.slice s1 len)) with
    | none =>
      rw [hfind] at hp
      cases hp
    | some k =>
      rw [hfind] at hp
      cases hp
      exact ⟨k, rfl, findSub_eq_some hfind⟩

/-- A path that ends in the middle of the memory. -/
private def tcpipPath : Area UInt8 :=
  (⟨fun _ => 0, fun _ => none⟩ : Area UInt8).load (ascii ",WIDE1-1,TCPIP*,qAC")

theorem strnstr_exact_tcpip :
    (aprscStrnstr tcpipPath 0 (ascii ",TCPIP*,") 16).val.isSome ∧
      (aprscStrnstr tcpipPath 0 (ascii ",TCPIP*,") 16).All (ReadsIn 0 16) := by
  obtain ⟨hfound, -, hreads⟩ :=
    strnstr_exact tcpipPath 0 (ascii ",TCPIP*,") (by decide) (by decide) 16
  have hoccurs : OccursAt (ascii ",TCPIP*,") (cString (tcpipPath.slice 0 16)) 8 := by
    unfold OccursAt
    decide
  exact ⟨hfound.mpr ⟨8, hoccurs⟩, hreads⟩

end

end Aprsc
