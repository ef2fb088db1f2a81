-- SUMMARY: The FNV-1 key hash of `keyhash.c` and how it chains over disjoint memory areas.
import Aprsc.Base.Bytes

/-!
# Key hash

`keyhash.c` hashes a memory area byte by byte. A caller that holds the key in
two disjoint areas hashes the first one and passes the result as the seed of the
second one. A seed of zero stands for "start a new hash".
-/

namespace Aprsc

/-- `FVN_32_OFFSET`. -/
def fnv32Offset : UInt32 := 2166136261

/-- One round of the loop of `keyhash`: the multiplication by `FNV_32_PRIME` as
shifts and additions, then the byte. -/
def keyhashStep (hash : UInt32) (u : UInt8) : UInt32 :=
  (hash + ((hash <<< 1) + (hash <<< 4) + (hash <<< 7) + (hash <<< 8) + (hash <<< 24))) ^^^
    u.toUInt32

/-- `keyhash`: hash the area `p`, starting from `hash` (or from the FNV offset
when `hash` is zero). -/
def keyhash (p : Bytes) (hash : UInt32) : UInt32 :=
  p.foldl keyhashStep (if hash = 0 then fnv32Offset else hash)

/-- Hashing two areas one after the other is hashing their concatenation, as
long as the first hash is not the value that restarts the hash. -/
theorem keyhash_append {a b : Bytes} (ha : keyhash a 0 ≠ 0) :
    keyhash b (keyhash a 0) = keyhash (a ++ b) 0 := by
  have hseed : (if keyhash a 0 = 0 then fnv32Offset else keyhash a 0) = keyhash a 0 := if_neg ha
  unfold keyhash at hseed ⊢
  rw [hseed, List.foldl_append]

end Aprsc
