-- SUMMARY: Byte strings.
import Mathlib.Algebra.GroupWithZero.Nat
import Mathlib.Data.List.Induction

namespace Aprsc

/-- The bytes of a memory area. -/
abbrev Bytes := List UInt8

/-- The byte of an ASCII character. -/
def ch (c : Char) : UInt8 := c.toNat.toUInt8

/-- The bytes of an ASCII string. -/
def ascii (s : String) : Bytes := s.toList.map ch

/-- What a computation over a list finds holds for each of its elements. -/
theorem forall_mem_of_all {α : Type*} {p : α → Prop} [DecidablePred p] {xs : List α}
    (h : xs.all (fun x => decide (p x)) = true) : ∀ x ∈ xs, p x := by
  simpa using h

end Aprsc
