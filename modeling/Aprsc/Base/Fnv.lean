-- SUMMARY: The 32-bit FNV-1 hash of a byte string, and that it is injective in the value it starts from.
import Mathlib.Logic.Function.Basic

/-!
# FNV-1

The hash multiplies by a prime and takes the exclusive or with a byte, in turn. A round
loses nothing of the value before it, since the prime is odd: two hashes of one text that
start from different values are different.
-/

namespace Fnv

def prime32 : UInt32 := 16777619

def offset32 : UInt32 := 2166136261

def round (hash : UInt32) (b : UInt8) : UInt32 := hash * prime32 ^^^ b.toUInt32

/-- The hash of a text that starts from a value. -/
def hashFrom (hash : UInt32) (p : List UInt8) : UInt32 := p.foldl round hash

def hash (p : List UInt8) : UInt32 := hashFrom offset32 p

variable {h h' : UInt32} {p q : List UInt8}

@[simp] theorem hashFrom_nil (h : UInt32) : hashFrom h [] = h := rfl

@[simp] theorem hashFrom_cons (h : UInt32) (b : UInt8) (p : List UInt8) :
    hashFrom h (b :: p) = hashFrom (round h b) p := rfl

theorem hashFrom_append (h : UInt32) (p q : List UInt8) :
    hashFrom h (p ++ q) = hashFrom (hashFrom h p) q :=
  List.foldl_append ..

theorem hash_append (p q : List UInt8) : hash (p ++ q) = hashFrom (hash p) q :=
  hashFrom_append ..

theorem offset32_ne_zero : offset32 ≠ 0 := by decide

/-- The inverse of the prime. -/
theorem mul_prime32_cancel (h : UInt32) : h * prime32 * 899433627 = h := by
  have hinv : prime32 * 899433627 = 1 := by decide
  rw [UInt32.mul_assoc, hinv, UInt32.mul_one]

theorem round_injective (b : UInt8) : Function.Injective fun h => round h b := by
  intro h h' heq
  have hmul : h * prime32 = h' * prime32 := (UInt32.xor_left_inj _).mp heq
  rw [← mul_prime32_cancel h, hmul, mul_prime32_cancel]

theorem hashFrom_injective (p : List UInt8) : Function.Injective fun h => hashFrom h p := by
  induction p with
  | nil => exact fun _ _ heq => heq
  | cons b p ih => exact fun h h' heq => round_injective b (ih heq)

end Fnv
