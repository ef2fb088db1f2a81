-- SUMMARY: Access lists: how a file of rules is loaded and copied, and how an address is checked against the rules.
import Aprsc.Base.Network
import Aprsc.Server.Cfgfile

/-!
# Access lists

A listener may have a list of networks that are allowed or denied. `acl_load` reads the
rules of a file and puts each in front of those it has read, in a list for each family
of addresses. The listener gets a copy made by `acl_dup`, and that turns the lists round
once more. `acl_check` takes the first entry that matches.
-/

namespace Aprsc

open Network

/-- `htonl` and `ntohl` of a machine that stores the low byte first. -/
def htonl (x : BitVec 32) : BitVec 32 := byteSwap x

def ntohl (x : BitVec 32) : BitVec 32 := byteSwap x

/-- `struct in6_addr`: four words in network order. -/
structure In6Addr where
  s6Addr32 : List (BitVec 32)
  length_eq : s6Addr32.length = 4
deriving DecidableEq

/-- `union sockaddr_u`: the fields that are compared, in network order. -/
inductive Sockaddr
  | inet (sinAddr : BitVec 32)
  | inet6 (sin6Addr : In6Addr)
  | other
deriving DecidableEq

structure AclE4 where
  addr : BitVec 32
  mask : BitVec 32
  allow : Bool

structure AclE6 where
  addr : List (BitVec 32)
  mask : List (BitVec 32)
  prefixlen : Nat
  allow : Bool

structure Acl where
  entries4 : List AclE4
  entries6 : List AclE6

def aclNew : Acl := { entries4 := [], entries6 := [] }

/-- `acl_dup` goes through the entries and puts a copy of each in front. -/
def aclDup (acl : Acl) : Acl :=
  { entries4 := acl.entries4.foldl (fun es e => e :: es) []
    entries6 := acl.entries6.foldl (fun es e => e :: es) [] }

/-! ## Loading -/

/-- The loop that sets `n` bits of the mask of an IPv4 network from the top. -/
def mask4 : (n : Nat) → BitVec 32
  | 0 => 0
  | n + 1 => mask4 n >>> 1 ||| 0x80000000#32

/-- A word of the mask of an IPv6 network: the shift is done in 64 bits. -/
def maskWord (s : Nat) : BitVec 32 := htonl ((0#64 - (1#64 <<< (32 - s))).setWidth 32)

/-- The loop over the `n` words of an IPv6 address, with `shift` bits of the prefix left. -/
def mask6 : (n : Nat) → (shift : Nat) → List (BitVec 32)
  | 0, _ => []
  | n + 1, shift =>
      let s := if shift > 32 then 32 else shift
      maskWord s :: mask6 n (shift - s)

/-- The entry of an IPv6 network. An address with all its bits in the prefix is taken as
it is. -/
def aclE6 (addr : In6Addr) (prefixlen : Nat) (allow : Bool) : AclE6 :=
  let mask := if prefixlen = 128 then List.replicate 4 0xffffffff#32 else mask6 4 prefixlen
  let addr := if prefixlen = 128 then addr.s6Addr32
    else List.zipWith (· &&& ·) addr.s6Addr32 mask
  { addr, mask, prefixlen, allow }

/-- The entry of an IPv4 network. -/
def aclE4 (addr : BitVec 32) (prefixlen : Nat) (allow : Bool) : AclE4 :=
  { addr := ntohl addr &&& mask4 prefixlen, mask := mask4 prefixlen, allow }

/-- One pass of the loop of `acl_add`: the address goes in front of the list of its family.
The prefix of an IPv4 network is cut to 32 bits, and the passes after it go on with that. -/
def aclAddAddress (allow : Bool) (prefixlen : Nat) (acl : Acl) : Sockaddr → Nat × Acl
  | .inet6 addr =>
      (prefixlen, { acl with entries6 := aclE6 addr prefixlen allow :: acl.entries6 })
  | .inet addr =>
      let prefixlen := min prefixlen 32
      (prefixlen, { acl with entries4 := aclE4 addr prefixlen allow :: acl.entries4 })
  | .other => (prefixlen, acl)

/-- The loop of `acl_add` over the list that `getaddrinfo` allocated. At the end of a pass
`freeaddrinfo` frees the node of the pass and every node after it. Without a result the loop
reads a node that was freed. -/
def aclAddAddresses (allow : Bool) :
    (freed : Bool) → (prefixlen : Nat) → List Sockaddr → Acl → Option Acl
  | _, _, [], acl => some acl
  | true, _, _ :: _, _ => none
  | false, prefixlen, ai :: nextai, acl =>
      let (prefixlen, acl) := aclAddAddress allow prefixlen acl ai
      aclAddAddresses allow true prefixlen nextai acl

/-- `acl_add`: `getaddrinfo` gives the addresses of a name, or nothing. The value that is
returned and the list, if no freed memory is read. -/
def aclAdd (getaddrinfo : Bytes → Option (List Sockaddr)) (acl : Acl) (netspec : Bytes)
    (allow : Bool) : Option (Int × Acl) :=
  let host := cutAt '/' netspec
  let prefixls := if host.length < netspec.length then some (netspec.drop (host.length + 1))
    else none
  match getaddrinfo host with
  | none => some (-1, acl)
  | some ai =>
      match prefixls with
      | none => (aclAddAddresses allow false 128 ai acl).map fun acl => (0, acl)
      | some digits =>
          let prefixlen := atoi digits
          if prefixlen < 0 ∨ prefixlen > 128 then some (-1, acl)
          else (aclAddAddresses allow false prefixlen.toNat ai acl).map fun acl => (0, acl)

/-- The line without its newline and its comment. -/
def aclStrip (buf : Bytes) : Bytes := cutAt '#' (cutAt '\n' (cutAt '\r' (cString buf)))

/-- The command of a line: what the rest of the line is added as, if it is known. -/
def aclCommand (command : Bytes) : Option Bool :=
  if caseEq command (ascii "allow") then some true
  else if caseEq command (ascii "deny") then some false
  else none

/-- One line of the file, with the variable `failed`. A wrong number of words fails, and the
second of them is still added. Without a result a word is read that is not there, or freed
memory. -/
def aclLoadLine (getaddrinfo : Bytes → Option (List Sockaddr)) (load : Acl × Bool)
    (buf : Bytes) : Option (Acl × Bool) :=
  let buf := aclStrip buf
  if buf.isEmpty then some load
  else
    match parseArgs buf with
    | [] => none
    | command :: args =>
        match aclCommand command with
        | none => some (load.1, true)
        | some allow =>
            match args with
            | [] => none
            | netspec :: rest => do
                let (rc, acl) ← aclAdd getaddrinfo load.1 netspec allow
                some (acl, load.2 || !rest.isEmpty || rc != 0)

/-- `ACL_LINEBUF`. -/
def aclLinebuf : Nat := 1024

/-- `acl_load` of a file that can be opened and closed. After a failure the list is freed
and there is none. -/
def aclLoad (getaddrinfo : Bytes → Option (List Sockaddr)) (file : Bytes) :
    Option (Option Acl) := do
  let (acl, failed) ← (fgetsLines aclLinebuf file).foldlM (aclLoadLine getaddrinfo) (aclNew, false)
  some (if failed then none else some acl)

/-! ## Checking -/

def aclCheck4 : List AclE4 → BitVec 32 → Bool
  | [], _ => false
  | a :: next, addr => if addr &&& a.mask == a.addr then a.allow else aclCheck4 next addr

/-- The loop over the words of an address, up to one that differs under the mask. -/
def aclMatch6 : (addr mask net : List (BitVec 32)) → Bool
  | x :: addr, m :: mask, n :: net => if x &&& m != n then false else aclMatch6 addr mask net
  | _, _, _ => true

def aclCheck6 : List AclE6 → List (BitVec 32) → Bool
  | [], _ => false
  | a :: next, addr =>
      if aclMatch6 addr a.mask a.addr then a.allow else aclCheck6 next addr

/-- `IN6_IS_ADDR_V4MAPPED`. -/
def In6Addr.isV4Mapped (addr : In6Addr) : Bool :=
  addr.s6Addr32.take 3 == [0, 0, htonl 0xffff]

/-- `IN6_IS_ADDR_V4COMPAT`. -/
def In6Addr.isV4Compat (addr : In6Addr) : Bool :=
  addr.s6Addr32.take 3 == [0, 0, 0] && ntohl (addr.s6Addr32.getD 3 0) > 1

/-- The translation of an IPv4 address that came as an IPv6 address. -/
def v4Address (sa : Sockaddr) : Sockaddr :=
  match sa with
  | .inet6 addr =>
      if addr.isV4Mapped || addr.isV4Compat then .inet (addr.s6Addr32.getD 3 0) else sa
  | _ => sa

/-- `acl_check`. -/
def aclCheck (acl : Acl) (sa : Sockaddr) : Bool :=
  match v4Address sa with
  | .inet addr => aclCheck4 acl.entries4 (ntohl addr)
  | .inet6 addr => aclCheck6 acl.entries6 addr.s6Addr32
  | .other => false

end Aprsc
