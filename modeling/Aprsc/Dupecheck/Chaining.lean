-- SUMMARY: When the hash of a packet over its two areas is the hash of its concatenated copy, and finds the same record.
import Aprsc.Base.Fnv
import Aprsc.Dupecheck.Justified

/-!
# Hash chaining

`dupecheck` hashes the addresses of a packet and goes on over the payload, with the first
hash as the seed of the second. `dupecheck_add_buf` hashes a copy of the two in one piece.
The seed zero starts a new hash, so the two differ after addresses whose hash is zero.
-/

namespace Aprsc

/-! ## The hash -/

/-- The shifts and additions are a multiplication by the prime. -/
theorem keyhashStep_eq (hash : UInt32) (u : UInt8) : keyhashStep hash u = Fnv.round hash u := by
  have hmul : hash + ((hash <<< 1) + (hash <<< 4) + (hash <<< 7) + (hash <<< 8) + (hash <<< 24)) =
      hash * Fnv.prime32 := by
    apply UInt32.toNat.inj
    simp only [UInt32.toNat_add, UInt32.toNat_mul, UInt32.toNat_shiftLeft, Nat.shiftLeft_eq,
      Fnv.prime32, UInt32.reduceToNat, Nat.reduceMod, Nat.reducePow]
    omega
  rw [keyhashStep, Fnv.round, hmul]

theorem keyhash_eq (p : Bytes) (hash : UInt32) :
    keyhash p hash = Fnv.hashFrom (if hash = 0 then Fnv.offset32 else hash) p := by
  have hstep : keyhashStep = Fnv.round := by
    funext hash u
    exact keyhashStep_eq hash u
  rw [keyhash, hstep]
  rfl

theorem keyhash_zero (p : Bytes) : keyhash p 0 = Fnv.hash p := by
  rw [keyhash_eq, if_pos rfl, Fnv.hash]

/-- The hash goes on where the first area ends, unless it is zero there. -/
theorem keyhash_keyhash_iff (a b : Bytes) :
    keyhash b (keyhash a 0) = keyhash (a ++ b) 0 ↔ Fnv.hash a ≠ 0 := by
  rw [keyhash_zero a, keyhash_zero (a ++ b), Fnv.hash_append, keyhash_eq]
  constructor
  · intro heq hzero
    rw [if_pos hzero] at heq
    exact Fnv.offset32_ne_zero ((Fnv.hashFrom_injective b heq).trans hzero)
  · intro hne
    rw [if_neg hne]

/-! ## The record -/

/-- The record that a search with a hash and a key ends at, among those that are live. -/
def findRecord (hash : UInt32) (key : Bytes) (live : DupeRecord → Prop) [DecidablePred live]
    (s : DupecheckDb) : Option DupeRecord :=
  (s.db (dupecheckIndex hash)).find? fun dp => dp.hash = hash ∧ live dp ∧ dp.packet = key

/-- `dupecheck` looks for a record that is not too old. -/
theorem matchingRecord_eq_findRecord (env : DupecheckEnv) (tick : Int) (pb : Pbuf)
    (s : DupecheckDb) :
    matchingRecord env tick pb s =
      findRecord (keyhash pb.info (keyhash pb.addr 0)) pb.key
        (fun dp => tick - env.dupefilterStoretime ≤ dp.t) s := rfl

/-- `dupecheck_add_buf` looks for a record of any age. -/
theorem refreshRecord_isSome_iff (tick : Int) (key : Bytes) (s : DupecheckDb) :
    (refreshRecord (keyhash key 0) key tick (s.db (dupecheckIndex (keyhash key 0)))).isSome =
      (findRecord (keyhash key 0) key (fun _ => True) s).isSome := by
  unfold findRecord
  generalize s.db (dupecheckIndex (keyhash key 0)) = chain
  induction chain with
  | nil => rfl
  | cons dp rest ih =>
    by_cases hmatch : dp.hash = keyhash key 0 ∧ dp.packet = key
    · simp [refreshRecord, hmatch]
    · simp only [refreshRecord, if_neg hmatch, Option.isSome_map, ih, List.find?_cons, true_and,
        decide_eq_false hmatch]

/-- The hash over two areas is that of their concatenation, and finds the same record of
it, exactly when the first area does not hash to zero. -/
theorem disjoint_hash_iff (a b : Bytes) :
    (keyhash b (keyhash a 0) = keyhash (a ++ b) 0 ∧
      ∀ (live : DupeRecord → Prop) [DecidablePred live] (s : DupecheckDb),
        findRecord (keyhash b (keyhash a 0)) (a ++ b) live s =
          findRecord (keyhash (a ++ b) 0) (a ++ b) live s) ↔
      Fnv.hash a ≠ 0 := by
  rw [← keyhash_keyhash_iff a b]
  exact and_iff_left_of_imp fun heq live _ s => by rw [heq]

/-- The addresses of a packet may hash to zero. -/
theorem disjoint_hash_differs :
    ¬ ∀ a b : Bytes, keyhash b (keyhash a 0) = keyhash (a ++ b) 0 := by
  intro h
  exact absurd (h (ascii "OH0TMA>APRXNO") (ascii ">test")) (by decide)

end Aprsc
