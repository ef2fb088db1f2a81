-- SUMMARY: Bit strings with the first bit in front, masks that keep a prefix of them, and the order of bytes in a word.
import Mathlib.Init

/-!
# Prefixes of bit strings

A network is a bit string and the length of a prefix of it. It contains the addresses
that have the same prefix. Words are compared under a mask whose first bits are set. A
word may be stored with its bytes in the opposite order, and is compared then under a
mask that is stored in the same way.
-/

namespace Network

variable {w : Nat}

/-- The bits of a word, the most significant one first. -/
def msbBits (x : BitVec w) : List Bool := (List.range w).map x.getMsbD

@[simp] theorem length_msbBits (x : BitVec w) : (msbBits x).length = w := by
  simp [msbBits]

theorem take_msbBits_eq_iff {x y : BitVec w} {s : Nat} (hs : s ≤ w) :
    (msbBits x).take s = (msbBits y).take s ↔ ∀ i < s, x.getMsbD i = y.getMsbD i := by
  simp only [msbBits, ← List.map_take, List.take_range, Nat.min_eq_left hs, List.map_inj_left,
    List.mem_range]

/-- The first `s` bits of the mask are set, and no others. -/
def IsMask (s : Nat) (m : BitVec w) : Prop := ∀ i < w, m.getMsbD i = decide (i < s)

/-- Words agree under a mask if their prefixes do. -/
theorem and_mask_eq_iff {x y m : BitVec w} {s : Nat} (hm : IsMask s m) (hs : s ≤ w) :
    x &&& m = y &&& m ↔ (msbBits x).take s = (msbBits y).take s := by
  rw [take_msbBits_eq_iff hs]
  constructor
  · intro h i hi
    have hbit := congrArg (·.getMsbD i) h
    simpa [hm i (Nat.lt_of_lt_of_le hi hs), hi] using hbit
  · intro h
    refine BitVec.eq_of_getMsbD_eq fun i hi => ?_
    by_cases his : i < s
    · simp [h i his]
    · simp [hm i hi, his]

/-- The bits of the first word come first. -/
theorem take_append_eq_iff {x y : BitVec w} {s : Nat} {as bs : List Bool} :
    (msbBits x ++ as).take s = (msbBits y ++ bs).take s ↔
      (msbBits x).take s = (msbBits y).take s ∧ as.take (s - w) = bs.take (s - w) := by
  rw [List.take_append, List.take_append, length_msbBits, length_msbBits]
  constructor
  · intro h
    exact List.append_inj h (by simp)
  · rintro ⟨h1, h2⟩
    rw [h1, h2]

/-! ## Byte order -/

/-- A word of four bytes, in the opposite order. -/
def byteSwap (x : BitVec 32) : BitVec 32 :=
  x.extractLsb' 0 8 ++ x.extractLsb' 8 8 ++ x.extractLsb' 16 8 ++ x.extractLsb' 24 8

theorem byteSwap_and (x y : BitVec 32) : byteSwap (x &&& y) = byteSwap x &&& byteSwap y := by
  simp only [byteSwap, BitVec.extractLsb'_and, ← BitVec.and_append]

theorem byteSwap_byteSwap (x : BitVec 32) : byteSwap (byteSwap x) = x := by
  refine BitVec.eq_of_getLsbD_eq fun i hi => ?_
  simp only [byteSwap, BitVec.getLsbD_append, BitVec.getLsbD_extractLsb']
  grind

end Network
