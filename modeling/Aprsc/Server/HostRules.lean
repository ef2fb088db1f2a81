-- SUMMARY: The networks that `acl_add` adds for a name, and when they are those of the line.
import Mathlib.Data.List.Forall2
import Aprsc.Server.Rules

/-!
# Rules for the addresses of a name

A name in an access list may resolve to several addresses of both families, in any order.
The loop over them frees the list of `getaddrinfo` at the end of its first pass, so that the
rules of a line are added for one address only. The length of the prefix is a variable of the
loop too, and an IPv4 address cuts it to 32 bits for the passes after it.
-/

namespace Aprsc

open Network

/-! ## The rules of a line -/

/-- The length of the prefix on a line. Without one a host rule is meant. -/
def netspecPrefix (netspec : Bytes) : Option Nat :=
  if (cutAt '/' netspec).length < netspec.length then
    let prefixlen := atoi (netspec.drop ((cutAt '/' netspec).length + 1))
    if prefixlen < 0 ∨ prefixlen > 128 then none else some prefixlen.toNat
  else some 128

/-- The rules that a line states for IPv4 addresses of its name. -/
def rules4 (allow : Bool) (p : Nat) : List Sockaddr → List Rule
  | [] => []
  | .inet addr :: ai => ⟨allow, .inet addr, min p 32⟩ :: rules4 allow p ai
  | _ :: ai => rules4 allow p ai

/-- The rules that a line states for IPv6 addresses of its name. -/
def rules6 (allow : Bool) (p : Nat) : List Sockaddr → List Rule
  | [] => []
  | .inet6 addr :: ai => ⟨allow, .inet6 addr, p⟩ :: rules6 allow p ai
  | _ :: ai => rules6 allow p ai

/-- The entry decides for exactly the addresses of the rule. -/
def Covers4 (e : AclE4) (r : Rule) : Prop :=
  e.allow = r.allow ∧ ∀ addr, (ntohl addr &&& e.mask == e.addr) = r.contains (.inet addr)

def Covers6 (e : AclE6) (r : Rule) : Prop :=
  e.allow = r.allow ∧
    ∀ addr : In6Addr, aclMatch6 addr.s6Addr32 e.mask e.addr = r.contains (.inet6 addr)

/-- For each address an entry was put in front that decides for exactly the network of the
address with the prefix of the line. -/
def AddsRules (allow : Bool) (p : Nat) (ai : List Sockaddr) (acl acl' : Acl) : Prop :=
  ∃ new4 new6, acl'.entries4 = new4 ++ acl.entries4 ∧ acl'.entries6 = new6 ++ acl.entries6 ∧
    List.Forall₂ Covers4 new4 (rules4 allow p ai).reverse ∧
    List.Forall₂ Covers6 new6 (rules6 allow p ai).reverse

/-! ## Entries -/

theorem aclE4_covers (addr : BitVec 32) {p : Nat} (hp : p ≤ 32) (allow : Bool) :
    Covers4 (aclE4 addr p allow) ⟨allow, .inet addr, p⟩ := by
  refine ⟨rfl, fun a => ?_⟩
  have hmatch : (ntohl a &&& mask4 p = ntohl addr &&& mask4 p) ↔
      (msbBits (ntohl addr)).take p = (msbBits (ntohl a)).take p := by
    rw [and_mask_eq_iff (isMask_mask4 p) hp]
    exact eq_comm
  simp [Rule.contains, Sockaddr.sameFamily, Sockaddr.bits, aclE4, hmatch]

theorem aclE6_matches (addr a : In6Addr) (p : Nat) (allow : Bool) :
    aclMatch6 a.s6Addr32 (aclE6 addr p allow).mask (aclE6 addr p allow).addr =
      Rule.contains ⟨allow, .inet6 addr, p⟩ (.inet6 a) := by
  have hmatch := aclMatch6_iff (p := p) a.length_eq addr.length_eq
  rw [aclE6_eq, Bool.eq_iff_iff]
  simpa [Rule.contains, Sockaddr.sameFamily, Sockaddr.bits] using hmatch

theorem aclE6_covers (addr : In6Addr) (p : Nat) (allow : Bool) :
    Covers6 (aclE6 addr p allow) ⟨allow, .inet6 addr, p⟩ :=
  ⟨rfl, fun a => aclE6_matches addr a p allow⟩

/-! ## The loop over the addresses -/

/-- One pass adds the rule of its address. -/
theorem aclAddAddress_rules (allow : Bool) (p : Nat) (sa : Sockaddr) (acl : Acl) :
    AddsRules allow p [sa] acl (aclAddAddress allow p acl sa).2 := by
  cases sa with
  | inet addr =>
    exact ⟨[aclE4 addr (min p 32) allow], [], rfl, rfl,
      .cons (aclE4_covers addr (Nat.min_le_right p 32) allow) .nil, .nil⟩
  | inet6 addr =>
    exact ⟨[], [aclE6 addr p allow], rfl, rfl, .nil, .cons (aclE6_covers addr p allow) .nil⟩
  | other => exact ⟨[], [], rfl, rfl, .nil, .nil⟩

/-- The second pass reads a node that the first one has freed. -/
theorem aclAddAddresses_isSome_iff (allow : Bool) (p : Nat) (ai : List Sockaddr) (acl : Acl) :
    (aclAddAddresses allow false p ai acl).isSome ↔ ai.length ≤ 1 := by
  match ai with
  | [] => simp [aclAddAddresses]
  | [sa] => simp [aclAddAddresses]
  | _ :: _ :: _ => simp [aclAddAddresses]

theorem aclAddAddresses_rules_iff (allow : Bool) (p : Nat) (ai : List Sockaddr) (acl : Acl) :
    (∃ acl', aclAddAddresses allow false p ai acl = some acl' ∧ AddsRules allow p ai acl acl') ↔
      ai.length ≤ 1 := by
  constructor
  · rintro ⟨acl', hadd, -⟩
    rw [← aclAddAddresses_isSome_iff allow p ai acl, hadd]
    rfl
  · intro hlength
    match ai with
    | [] => exact ⟨acl, rfl, [], [], rfl, rfl, .nil, .nil⟩
    | [sa] => exact ⟨_, rfl, aclAddAddress_rules allow p sa acl⟩
    | _ :: _ :: _ => exact absurd hlength (by simp)

/-! ## Result -/

/-- With a prefix that can be used, `acl_add` comes to its loop. -/
theorem aclAdd_eq {getaddrinfo : Bytes → Option (List Sockaddr)} {netspec : Bytes}
    {ai : List Sockaddr} {p : Nat} (hresolves : getaddrinfo (cutAt '/' netspec) = some ai)
    (hpref : netspecPrefix netspec = some p) (acl : Acl) (allow : Bool) :
    aclAdd getaddrinfo acl netspec allow =
      (aclAddAddresses allow false p ai acl).map fun acl => (0, acl) := by
  unfold netspecPrefix at hpref
  simp only [aclAdd, hresolves]
  split at hpref
  next hslash =>
    rw [if_pos hslash]
    dsimp only at hpref ⊢
    split at hpref
    · cases hpref
    next hrange =>
      obtain rfl := Option.some.inj hpref
      rw [if_neg hrange]
  next hslash =>
    rw [if_neg hslash]
    obtain rfl := Option.some.inj hpref
    rfl

/-- `acl_add` adds the rules of its line for all addresses of the name exactly if there is at
most one. After the first of several it goes on in a list that it has freed. -/
theorem acl_add_rules_iff {getaddrinfo : Bytes → Option (List Sockaddr)} {netspec : Bytes}
    {ai : List Sockaddr} {p : Nat} (hresolves : getaddrinfo (cutAt '/' netspec) = some ai)
    (hpref : netspecPrefix netspec = some p) (acl : Acl) (allow : Bool) :
    (∃ acl', aclAdd getaddrinfo acl netspec allow = some (0, acl') ∧
      AddsRules allow p ai acl acl') ↔ ai.length ≤ 1 := by
  simp only [aclAdd_eq hresolves hpref, Option.map_eq_some_iff, Prod.mk.injEq, true_and,
    exists_eq_right]
  exact aclAddAddresses_rules_iff allow p ai acl

/-- A name with the addresses 10.0.0.1 and 2001:db8::1. -/
private def dualHost : List Sockaddr :=
  [.inet (htonl 0x0A000001), .inet6 ⟨[htonl 0x20010DB8, 0, 0, htonl 1], rfl⟩]

theorem acl_add_rules_of_dual_host :
    (∃ acl', aclAdd (fun _ => some dualHost) aclNew (ascii "example.org/32") true =
      some (0, acl') ∧ AddsRules true 32 dualHost aclNew acl') ↔ dualHost.length ≤ 1 :=
  acl_add_rules_iff rfl (by decide) _ _

/-- The first pass frees the node of the second address. -/
theorem host_list_is_freed :
    ¬ ∀ (ai : List Sockaddr) (allow : Bool), ∃ acl',
      aclAdd (fun _ => some ai) aclNew (ascii "example.org") allow = some (0, acl') ∧
        AddsRules allow 128 ai aclNew acl' := by
  intro h
  obtain ⟨acl', hadd, -⟩ := h dualHost true
  rw [aclAdd_eq rfl (by decide : netspecPrefix (ascii "example.org") = some 128)] at hadd
  cases hadd

end Aprsc
