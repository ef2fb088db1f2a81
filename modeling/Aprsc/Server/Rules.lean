-- SUMMARY: An access list decides by the first rule of its file whose network contains the address.
import Aprsc.Server.Acl

/-!
# The order of rules

A rule allows or denies a network, and the first rule of a file whose network contains
the address of the client decides. Nothing of the list is in this order while it is
built. The results here go from a text that states rules to the decisions of the list
that the listener has in the end.
-/

namespace Aprsc

open Network

/-! ## Rules -/

/-- The bits of an address, the first one in front. -/
def wordsBits (ws : List (BitVec 32)) : List Bool := ws.flatMap fun x => msbBits (ntohl x)

def Sockaddr.bits : Sockaddr → List Bool
  | .inet addr => msbBits (ntohl addr)
  | .inet6 addr => wordsBits addr.s6Addr32
  | .other => []

def Sockaddr.sameFamily : Sockaddr → Sockaddr → Bool
  | .inet _, .inet _ => true
  | .inet6 _, .inet6 _ => true
  | _, _ => false

/-- The number of bits of an address. -/
def Sockaddr.width : Sockaddr → Nat
  | .inet _ => 32
  | .inet6 _ => 128
  | .other => 0

/-- A rule of an access list, for the network of the addresses that agree with `net` in
the first `prefixlen` bits. -/
structure Rule where
  allow : Bool
  net : Sockaddr
  prefixlen : Nat

def Rule.contains (r : Rule) (sa : Sockaddr) : Bool :=
  r.net.sameFamily sa && r.net.bits.take r.prefixlen == sa.bits.take r.prefixlen

/-- The first rule that contains the address decides, and without one it is denied. -/
def decision (rules : List Rule) (sa : Sockaddr) : Bool :=
  ((rules.find? (·.contains sa)).map Rule.allow).getD false

/-- The prefix is one of an address of the family. -/
structure Rule.Valid (r : Rule) : Prop where
  internet : r.net ≠ .other
  prefixlen_le : r.prefixlen ≤ r.net.width

/-! ## Files of rules -/

/-- Blanks within a line. -/
def Blank (s : Bytes) : Prop := ∀ b ∈ s, b = ch ' ' ∨ b = ch '\t'

/-- A network is written as an address, with or without the length of its prefix. -/
inductive Netspec (getaddrinfo : Bytes → Option (List Sockaddr)) :
    Bytes → (net : Sockaddr) → (prefixlen : Nat) → Prop
  | host {host : Bytes} {net : Sockaddr} (slash : ch '/' ∉ host)
      (resolves : getaddrinfo host = some [net]) : Netspec getaddrinfo host net net.width
  | network {host digits : Bytes} {net : Sockaddr} (slash : ch '/' ∉ host)
      (resolves : getaddrinfo host = some [net]) (ne : digits ≠ [])
      (digit : ∀ b ∈ digits, ch '0' ≤ b ∧ b ≤ ch '9') :
      Netspec getaddrinfo (host ++ ch '/' :: digits) net (atoiDigits digits)

/-- What ends the text of a line, if anything does. -/
def Ending (rest : Bytes) : Prop := ∀ b ∈ rest.head?, b = ch '#' ∨ b = ch '\r'

/-- A line states a rule, or it has no text before its end. -/
inductive LineOf (getaddrinfo : Bytes → Option (List Sockaddr)) : Bytes → Option Rule → Prop
  | empty {rest : Bytes} (ending : Ending rest) : LineOf getaddrinfo rest none
  | rule {indent command gap netspec trail rest commandText netText : Bytes} {r : Rule}
      (blank_indent : Blank indent)
      (command_word : Word commandText command)
      (command_eq : caseEq commandText (ascii (if r.allow then "allow" else "deny")) = true)
      (blank_gap : Blank gap) (gap_ne : gap ≠ [])
      (netspec_word : Word netText netspec)
      (network : Netspec getaddrinfo netText r.net r.prefixlen) (valid : r.Valid)
      (blank_trail : Blank trail)
      (clean : ∀ b ∈ indent ++ command ++ gap ++ netspec ++ trail,
        b ≠ 0 ∧ b ≠ ch '\r' ∧ b ≠ ch '\n' ∧ b ≠ ch '#')
      (ending : Ending rest) :
      LineOf getaddrinfo (indent ++ command ++ gap ++ netspec ++ trail ++ rest) (some r)

/-- The rules of a file, in its order. A line is shorter than the buffer with its newline,
and the last one may lack that. -/
inductive FileOf (getaddrinfo : Bytes → Option (List Sockaddr)) : Bytes → List Rule → Prop
  | nil : FileOf getaddrinfo [] []
  | last {line : Bytes} {r : Option Rule} (states : LineOf getaddrinfo line r)
      (newline : ch '\n' ∉ line) (ne : line ≠ []) (fits : line.length < aclLinebuf) :
      FileOf getaddrinfo line r.toList
  | cons {line file : Bytes} {r : Option Rule} {rules : List Rule}
      (states : LineOf getaddrinfo line r) (newline : ch '\n' ∉ line)
      (fits : line.length + 1 < aclLinebuf) (tail : FileOf getaddrinfo file rules) :
      FileOf getaddrinfo (line ++ ch '\n' :: file) (r.toList ++ rules)

/-! ## Masks -/

theorem isMask_mask4 (n : Nat) : IsMask n (mask4 n) := by
  induction n with
  | zero =>
    intro i hi
    simp [mask4]
  | succ n ih =>
    intro i hi
    rw [mask4, BitVec.getMsbD_or, BitVec.getMsbD_ushiftRight]
    cases i with
    | zero => simp
    | succ i =>
      have htop : (0x80000000#32).getMsbD (i + 1) = false := by
        rw [show (0x80000000#32) = BitVec.twoPow 32 31 from rfl, BitVec.getMsbD_twoPow]
        simp
      simp [htop, ih i (by omega), hi]

/-- The two ways to a mask agree. -/
theorem maskWord_eq {s : Nat} (hs : s ≤ 32) : maskWord s = htonl (mask4 s) := by
  have hall : ∀ s : Fin 33, maskWord s = htonl (mask4 s) := by decide
  exact hall ⟨s, by omega⟩

theorem and_maskWord_eq_iff {x y : BitVec 32} {s : Nat} (hs : s ≤ 32) :
    x &&& maskWord s = y &&& maskWord s ↔
      (msbBits (ntohl x)).take s = (msbBits (ntohl y)).take s := by
  rw [← and_mask_eq_iff (isMask_mask4 s) hs, maskWord_eq hs]
  constructor
  · intro h
    have hswap := congrArg byteSwap h
    simpa only [byteSwap_and, ntohl, htonl, byteSwap_byteSwap] using hswap
  · intro h
    have hswap := congrArg byteSwap h
    simpa only [byteSwap_and, ntohl, htonl, byteSwap_byteSwap] using hswap

/-! ## Matching -/

theorem wordsBits_cons (x : BitVec 32) (ws : List (BitVec 32)) :
    wordsBits (x :: ws) = msbBits (ntohl x) ++ wordsBits ws := by
  simp [wordsBits]

/-- An address matches under a mask if the prefixes agree. -/
theorem aclMatch6_iff {n p : Nat} {xs ys : List (BitVec 32)} (hxs : xs.length = n)
    (hys : ys.length = n) :
    aclMatch6 xs (mask6 n p) (List.zipWith (· &&& ·) ys (mask6 n p)) = true ↔
      (wordsBits ys).take p = (wordsBits xs).take p := by
  induction n generalizing p xs ys with
  | zero =>
    obtain rfl := List.eq_nil_of_length_eq_zero hxs
    obtain rfl := List.eq_nil_of_length_eq_zero hys
    simp [aclMatch6]
  | succ n ih =>
    obtain ⟨x, xs, rfl⟩ := List.exists_of_length_succ _ hxs
    obtain ⟨y, ys, rfl⟩ := List.exists_of_length_succ _ hys
    have hs : (if p > 32 then 32 else p) = min p 32 := by
      split <;> omega
    have htake : ∀ z : BitVec 32, (msbBits z).take p = (msbBits z).take (min p 32) := fun z => by
      rw [← List.take_take, List.take_of_length_le (Nat.le_of_eq (length_msbBits z))]
    have hsub : p - min p 32 = p - 32 := by omega
    rw [wordsBits_cons, wordsBits_cons, take_append_eq_iff, htake, htake,
      ← and_maskWord_eq_iff (Nat.min_le_right p 32), ← ih (Nat.succ.inj hxs) (Nat.succ.inj hys)]
    simp only [mask6, hs, hsub, List.zipWith_cons_cons, aclMatch6, bne_iff_ne, ne_eq, ite_not]
    by_cases h : x &&& maskWord (min p 32) = y &&& maskWord (min p 32)
    · simp [h]
    · simp [h, Ne.symm h]

theorem mask6_full : mask6 4 128 = List.replicate 4 0xffffffff#32 := by
  decide

theorem zipWith_and_replicate {n : Nat} {xs : List (BitVec 32)} (hxs : xs.length = n) :
    List.zipWith (· &&& ·) xs (List.replicate n 0xffffffff#32) = xs := by
  induction n generalizing xs with
  | zero =>
    obtain rfl := List.eq_nil_of_length_eq_zero hxs
    rfl
  | succ n ih =>
    obtain ⟨x, xs, rfl⟩ := List.exists_of_length_succ _ hxs
    have hall : x &&& 0xffffffff#32 = x := BitVec.and_allOnes
    rw [List.replicate_succ, List.zipWith_cons_cons, ih (Nat.succ.inj hxs), hall]

/-- A whole address is no special case. -/
theorem aclE6_eq (addr : In6Addr) (prefixlen : Nat) (allow : Bool) :
    aclE6 addr prefixlen allow =
      { addr := List.zipWith (· &&& ·) addr.s6Addr32 (mask6 4 prefixlen)
        mask := mask6 4 prefixlen
        prefixlen
        allow } := by
  unfold aclE6
  split
  · rename_i h
    rw [h, mask6_full, zipWith_and_replicate addr.length_eq]
  · rfl

/-! ## Entries -/

/-- The entry of a rule for an IPv4 network. -/
def Rule.e4? (r : Rule) : Option AclE4 :=
  match r.net with
  | .inet addr => some (aclE4 addr r.prefixlen r.allow)
  | _ => none

/-- The entry of a rule for an IPv6 network. -/
def Rule.e6? (r : Rule) : Option AclE6 :=
  match r.net with
  | .inet6 addr => some (aclE6 addr r.prefixlen r.allow)
  | _ => none

/-- The entries are those of the rules. -/
structure Acl.Lists (acl : Acl) (rules : List Rule) : Prop where
  entries4_eq : acl.entries4 = rules.filterMap Rule.e4?
  entries6_eq : acl.entries6 = rules.filterMap Rule.e6?

theorem decision_cons (r : Rule) (rules : List Rule) (sa : Sockaddr) :
    decision (r :: rules) sa = if r.contains sa then r.allow else decision rules sa := by
  unfold decision
  cases h : r.contains sa <;> simp [h]

theorem aclCheck4_rules {rules : List Rule} (hvalid : ∀ r ∈ rules, r.Valid) (addr : BitVec 32) :
    aclCheck4 (rules.filterMap Rule.e4?) (ntohl addr) = decision rules (.inet addr) := by
  induction rules with
  | nil => rfl
  | cons r rules ih =>
    specialize ih fun r hr => hvalid r (List.mem_cons_of_mem _ hr)
    obtain ⟨allow, net, prefixlen⟩ := r
    have hle := (hvalid _ List.mem_cons_self).prefixlen_le
    rw [decision_cons, ← ih]
    cases net with
    | inet net =>
      have hmatch : (ntohl addr &&& mask4 prefixlen = ntohl net &&& mask4 prefixlen) ↔
          (msbBits (ntohl net)).take prefixlen = (msbBits (ntohl addr)).take prefixlen := by
        rw [and_mask_eq_iff (isMask_mask4 prefixlen) hle]
        exact eq_comm
      simp [Rule.e4?, Rule.contains, Sockaddr.sameFamily, Sockaddr.bits, aclCheck4, aclE4, hmatch]
    | inet6 net => simp [List.filterMap_cons, Rule.e4?, Rule.contains, Sockaddr.sameFamily]
    | other => simp [List.filterMap_cons, Rule.e4?, Rule.contains, Sockaddr.sameFamily]

theorem aclCheck6_rules (rules : List Rule) (addr : In6Addr) :
    aclCheck6 (rules.filterMap Rule.e6?) addr.s6Addr32 = decision rules (.inet6 addr) := by
  induction rules with
  | nil => rfl
  | cons r rules ih =>
    obtain ⟨allow, net, prefixlen⟩ := r
    rw [decision_cons, ← ih]
    cases net with
    | inet6 net =>
      have hmatch := aclMatch6_iff (p := prefixlen) addr.length_eq net.length_eq
      simp [Rule.e6?, Rule.contains, Sockaddr.sameFamily, Sockaddr.bits, aclCheck6, aclE6_eq,
        ← hmatch]
    | inet net => simp [List.filterMap_cons, Rule.e6?, Rule.contains, Sockaddr.sameFamily]
    | other => simp [List.filterMap_cons, Rule.e6?, Rule.contains, Sockaddr.sameFamily]

theorem decision_other (rules : List Rule) : decision rules .other = false := by
  induction rules with
  | nil => rfl
  | cons r rules ih =>
    rw [decision_cons, ih]
    cases h : r.net <;> simp [Rule.contains, Sockaddr.sameFamily, h]

/-- `acl_check` takes the decision of the rules on the translated address. -/
theorem aclCheck_of_lists {acl : Acl} {rules : List Rule} (h : acl.Lists rules)
    (hvalid : ∀ r ∈ rules, r.Valid) (sa : Sockaddr) :
    aclCheck acl sa = decision rules (v4Address sa) := by
  unfold aclCheck
  cases v4Address sa with
  | inet addr => rw [h.entries4_eq]; exact aclCheck4_rules hvalid addr
  | inet6 addr => rw [h.entries6_eq]; exact aclCheck6_rules rules addr
  | other => exact (decision_other rules).symm

/-! ## Loading -/

/-- A rule is put in front of the list. -/
def Acl.add (acl : Acl) (r : Rule) : Acl := (aclAddAddress r.allow r.prefixlen acl r.net).2

theorem foldl_add_entries (rules : List Rule) (hvalid : ∀ r ∈ rules, r.Valid) (acl : Acl) :
    (rules.foldl Acl.add acl).entries4 = (rules.filterMap Rule.e4?).reverse ++ acl.entries4 ∧
    (rules.foldl Acl.add acl).entries6 = (rules.filterMap Rule.e6?).reverse ++ acl.entries6 := by
  induction rules generalizing acl with
  | nil => exact ⟨rfl, rfl⟩
  | cons r rules ih =>
    obtain ⟨h4, h6⟩ := ih (fun r hr => hvalid r (List.mem_cons_of_mem _ hr)) (acl.add r)
    obtain ⟨allow, net, prefixlen⟩ := r
    have hle := (hvalid _ List.mem_cons_self).prefixlen_le
    rw [List.foldl_cons, h4, h6]
    cases net with
    | inet addr =>
      have hmin : min prefixlen 32 = prefixlen := Nat.min_eq_left hle
      simp [List.filterMap_cons, Acl.add, aclAddAddress, Rule.e4?, Rule.e6?, hmin]
    | inet6 addr => simp [List.filterMap_cons, Acl.add, aclAddAddress, Rule.e4?, Rule.e6?]
    | other => simp [List.filterMap_cons, Acl.add, aclAddAddress, Rule.e4?, Rule.e6?]

/-- The rules are added one by one, and the copy has them in the order of the file. -/
theorem aclDup_lists {rules : List Rule} (hvalid : ∀ r ∈ rules, r.Valid) :
    (aclDup (rules.foldl Acl.add aclNew)).Lists rules := by
  obtain ⟨h4, h6⟩ := foldl_add_entries rules hvalid aclNew
  have hnew : aclNew.entries4 = [] ∧ aclNew.entries6 = [] := ⟨rfl, rfl⟩
  constructor
  · simp [aclDup, h4, hnew]
  · simp [aclDup, h6, hnew]

section
variable {getaddrinfo : Bytes → Option (List Sockaddr)} {acl : Acl}

theorem cutAt_append {c : Char} {s : Bytes} (h : ch c ∉ s) (rest : Bytes) :
    cutAt c (s ++ rest) = s ++ cutAt c rest :=
  List.takeWhile_append_of_pos (bne_of_mem h)

/-- The text of a line is what comes before its end. -/
theorem aclStrip_append {body rest : Bytes}
    (clean : ∀ b ∈ body, b ≠ 0 ∧ b ≠ ch '\r' ∧ b ≠ ch '\n' ∧ b ≠ ch '#') :
    aclStrip (body ++ rest) = body ++ aclStrip rest := by
  have hnul : cString (body ++ rest) = body ++ cString rest :=
    List.takeWhile_append_of_pos fun b hb => by simpa using (clean b hb).1
  unfold aclStrip
  rw [hnul, cutAt_append fun h => (clean _ h).2.1 rfl, cutAt_append fun h => (clean _ h).2.2.1 rfl,
    cutAt_append fun h => (clean _ h).2.2.2 rfl]

theorem aclStrip_eq_nil {rest : Bytes}
    (h : ∀ b ∈ rest.head?, b = ch '#' ∨ b = ch '\r' ∨ b = ch '\n') : aclStrip rest = [] := by
  cases rest with
  | nil => rfl
  | cons b rest =>
    obtain rfl | rfl | rfl := h b rfl <;> simp [aclStrip, cutAt, cString, ch]

/-- The digits of a number that an `int` holds are read as that number. -/
theorem atoi_digits {digits : Bytes} (hdigit : ∀ b ∈ digits, ch '0' ≤ b ∧ b ≤ ch '9')
    (hfits : atoiDigits digits < 2147483648) : atoi digits = atoiDigits digits := by
  have hspace : digits.dropWhile isspace = digits := by
    cases digits with
    | nil => rfl
    | cons b digits =>
      obtain ⟨hle, -⟩ := hdigit b List.mem_cons_self
      have hb : isspace b = false := by
        simp only [isspace, ch] at hle ⊢
        grind
      simp [hb]
  have hsign : digits.head? ≠ some (ch '-') ∧ digits.head? ≠ some (ch '+') := by
    cases digits with
    | nil => simp
    | cons b digits =>
      obtain ⟨hle, -⟩ := hdigit b List.mem_cons_self
      constructor <;> rintro ⟨⟩ <;> revert hle <;> decide
  have hstrtol : strtol digits = atoiDigits digits := by
    simp only [strtol, hspace, hsign, if_false]
    omega
  rw [atoi, hstrtol]
  exact cInt_of_fits (by omega) (by omega)

/-- A network as it is written adds its rule. -/
theorem aclAdd_netspec {netspec : Bytes} {net : Sockaddr} {prefixlen : Nat}
    (h : Netspec getaddrinfo netspec net prefixlen) (hle : prefixlen ≤ net.width) (allow : Bool) :
    aclAdd getaddrinfo acl netspec allow = some (0, acl.add { allow, net, prefixlen }) := by
  cases h with
  | host slash resolves =>
    have hhost : cutAt '/' netspec = netspec := by
      simpa [cutAt] using cutAt_append slash []
    simp only [aclAdd, hhost, resolves, Nat.lt_irrefl, if_false]
    cases net <;> rfl
  | network slash resolves ne digit =>
    rename_i host digits
    have hhost : cutAt '/' (host ++ ch '/' :: digits) = host := by
      rw [cutAt_append slash]
      simp [cutAt]
    have hdigits : (host ++ ch '/' :: digits).drop (host.length + 1) = digits := by
      rw [List.append_cons, List.drop_left' (by simp)]
    have hlt : host.length < (host ++ ch '/' :: digits).length := by simp
    have hwidth : net.width ≤ 128 := by cases net <;> simp [Sockaddr.width]
    have hatoi : atoi digits = atoiDigits digits := atoi_digits digit (by omega)
    have hbound : ¬(atoi digits < 0 ∨ atoi digits > 128) := by
      rw [hatoi]
      omega
    simp only [aclAdd, hhost, resolves, hlt, if_true, hdigits, hbound, if_false]
    rw [hatoi]
    rfl

theorem isspace_of_blank {s : Bytes} (h : Blank s) : ∀ b ∈ s, isspace b = true := by
  intro b hb
  obtain rfl | rfl := h b hb <;> decide

/-- The words of a rule. -/
theorem parseArgs_rule {indent command gap netspec trail commandText netText : Bytes}
    (hindent : Blank indent) (hcommand : Word commandText command) (hgap : Blank gap)
    (hne : gap ≠ []) (hnetspec : Word netText netspec) (htrail : Blank trail) :
    parseArgs (indent ++ command ++ gap ++ netspec ++ trail) = [commandText, netText] := by
  obtain ⟨b, blank, rfl⟩ := List.exists_cons_of_ne_nil hne
  have hblank : ∀ b ∈ blank, isspace b = true :=
    fun c hc => isspace_of_blank hgap c (List.mem_cons_of_mem _ hc)
  have htail : ∀ b ∈ trail.drop 1, isspace b = true :=
    fun c hc => isspace_of_blank htrail c (List.mem_of_mem_drop hc)
  have hfirst : indent ++ command ++ b :: blank ++ netspec ++ trail =
      indent ++ command ++ (b :: blank ++ netspec ++ trail) := by simp
  have hsecond : (b :: blank ++ netspec ++ trail).drop 1 = blank ++ netspec ++ trail := by simp
  unfold parseArgs
  rw [hfirst, parseArgsFrom_word (isspace_of_blank hindent) hcommand, hsecond,
    parseArgsFrom_word hblank hnetspec, parseArgsFrom_blank htail]
  · rfl
  · intro c hc
    exact isspace_of_blank htrail c (List.mem_of_mem_head? hc)
  · intro c hc
    exact isspace_of_blank hgap c (by simp_all)

theorem aclCommand_of_caseEq {command : Bytes} {allow : Bool}
    (h : caseEq command (ascii (if allow then "allow" else "deny")) = true) :
    aclCommand command = some allow := by
  cases allow with
  | true => exact if_pos (by simpa using h)
  | false =>
    have hdeny : caseEq command (ascii "deny") = true := by simpa using h
    have hother : ¬caseEq command (ascii "allow") = true := by
      have heq : command.map tolower = (ascii "deny").map tolower := by
        simpa [caseEq] using hdeny
      rw [caseEq, heq]
      decide
    exact (if_neg hother).trans (if_pos hdeny)

/-- A line adds the rule that it states. -/
theorem aclLoadLine_of_line {line newline : Bytes} {r : Option Rule} (h : LineOf getaddrinfo line r)
    (hnewline : newline = [] ∨ newline = [ch '\n']) :
    aclLoadLine getaddrinfo (acl, false) (line ++ newline) =
      some (r.toList.foldl Acl.add acl, false) := by
  have hend : ∀ rest : Bytes, Ending rest → aclStrip (rest ++ newline) = [] := by
    intro rest hrest
    refine aclStrip_eq_nil fun b hb => ?_
    cases rest with
    | nil => obtain rfl | rfl := hnewline <;> simp_all
    | cons c rest => obtain h | h := hrest b (by simpa using hb) <;> simp [h]
  cases h with
  | empty ending => simp [aclLoadLine, hend _ ending]
  | @rule indent command gap netspec trail rest commandText netText r hindent hcommand hallow hgap
      hne hnetspec hnetwork hvalid htrail hclean ending =>
    obtain ⟨c, cs, hcons⟩ := List.exists_cons_of_ne_nil hne
    have hbody : (indent ++ command ++ gap ++ netspec ++ trail).isEmpty = false := by
      simp [hcons]
    have hstrip : aclStrip (indent ++ command ++ gap ++ netspec ++ trail ++ rest ++ newline) =
        indent ++ command ++ gap ++ netspec ++ trail := by
      rw [List.append_assoc _ rest newline, aclStrip_append hclean, hend rest ending,
        List.append_nil]
    simp only [aclLoadLine, hstrip, hbody, Bool.false_eq_true, if_false,
      parseArgs_rule hindent hcommand hgap hne hnetspec htrail]
    rw [aclCommand_of_caseEq hallow]
    dsimp only
    rw [aclAdd_netspec hnetwork hvalid.prefixlen_le]
    rfl

/-- `acl_load` adds the rules of the file in its order. -/
theorem aclLoad_of_file {file : Bytes} {rules : List Rule} (h : FileOf getaddrinfo file rules) :
    aclLoad getaddrinfo file = some (some (rules.foldl Acl.add aclNew)) ∧
      ∀ r ∈ rules, r.Valid := by
  have hvalid : ∀ {line r}, LineOf getaddrinfo line r → ∀ s ∈ r.toList, s.Valid := by
    intro line r h
    cases h with
    | empty => simp
    | rule _ _ _ _ _ _ _ hvalid => simpa using hvalid
  suffices hfold : ∀ acl, (fgetsLines aclLinebuf file).foldlM (aclLoadLine getaddrinfo)
      (acl, false) = some (rules.foldl Acl.add acl, false) ∧ ∀ r ∈ rules, r.Valid by
    obtain ⟨hload, hall⟩ := hfold aclNew
    exact ⟨by simp [aclLoad, hload], hall⟩
  intro acl
  induction h generalizing acl with
  | nil => exact ⟨rfl, by simp⟩
  | last states newline ne fits =>
    have hline := @aclLoadLine_of_line _ acl _ _ _ states (.inl rfl)
    rw [List.append_nil] at hline
    rw [fgetsLines_last newline ne fits]
    exact ⟨by simp [hline], hvalid states⟩
  | cons states newline fits tail ih =>
    obtain ⟨ih, ihvalid⟩ := ih _
    rw [fgetsLines_line newline fits, List.foldlM_cons, aclLoadLine_of_line states (.inr rfl),
      List.foldl_append]
    refine ⟨ih, fun r hr => ?_⟩
    obtain hr | hr := List.mem_append.mp hr
    · exact hvalid states r hr
    · exact ihvalid r hr

end

/-- The list of a listener decides by the first rule of the file that contains the
address of the client. An IPv4 address that came as an IPv6 address, mapped or
compatible, is an IPv4 address here. -/
theorem aclCheck_first_rule {getaddrinfo : Bytes → Option (List Sockaddr)} {file : Bytes}
    {rules : List Rule} (h : FileOf getaddrinfo file rules) (sa : Sockaddr) :
    ∃ acl, aclLoad getaddrinfo file = some (some acl) ∧
      aclCheck (aclDup acl) sa = decision rules (v4Address sa) := by
  obtain ⟨hload, hvalid⟩ := aclLoad_of_file h
  exact ⟨_, hload, aclCheck_of_lists (aclDup_lists hvalid) hvalid sa⟩

/-- The addresses of two networks that contain each other's addresses. -/
private def sampleAddrinfo (host : Bytes) : Option (List Sockaddr) :=
  if host = ascii "10.1.0.0" then some [.inet (htonl 0x0A010000)]
  else if host = ascii "10.0.0.0" then some [.inet (htonl 0x0A000000)]
  else if host = ascii "::" then some [.inet6 ⟨[0, 0, 0, 0], rfl⟩]
  else none

/-- A line of plain words, with one blank between them. -/
private theorem lineOf_plain {getaddrinfo : Bytes → Option (List Sockaddr)}
    (command host digits rest : Bytes) {b : UInt8} {r : Rule}
    (hcommand : command ≠ [] ∧ command.any isspace = false ∧
      command.head? ≠ some (ch '"') ∧
      caseEq command (ascii (if r.allow then "allow" else "deny")) = true)
    (hb : b = ch ' ' ∨ b = ch '\t')
    (hspec : host ++ ch '/' :: digits ≠ [] ∧ (host ++ ch '/' :: digits).any isspace = false ∧
      (host ++ ch '/' :: digits).head? ≠ some (ch '"'))
    (hhost : ch '/' ∉ host ∧ getaddrinfo host = some [r.net])
    (hdigits : digits ≠ [] ∧ (digits.all fun b => ch '0' ≤ b ∧ b ≤ ch '9') = true ∧
      atoiDigits digits = r.prefixlen)
    (hvalid : r.Valid)
    (hclean : (([] ++ command ++ [b] ++ (host ++ ch '/' :: digits) ++ []).all fun c =>
      c ≠ 0 ∧ c ≠ ch '\r' ∧ c ≠ ch '\n' ∧ c ≠ ch '#') = true)
    (hrest : Ending rest) :
    LineOf getaddrinfo ([] ++ command ++ [b] ++ (host ++ ch '/' :: digits) ++ [] ++ rest)
      (some r) := by
  obtain ⟨hne, hword, hquote, hcase⟩ := hcommand
  obtain ⟨hspecne, hspecword, hspecquote⟩ := hspec
  obtain ⟨hdigitsne, hdigit, hpref⟩ := hdigits
  have hwords : ∀ {word : Bytes}, word.any isspace = false → ∀ b ∈ word, isspace b = false :=
    fun h b hb => Bool.eq_false_iff.mpr (List.any_eq_false.mp h b hb)
  refine .rule (by simp [Blank]) (.plain hne (hwords hword) hquote) hcase (by simpa [Blank] using hb)
    (by simp) (.plain hspecne (hwords hspecword) hspecquote) ?_ hvalid (by simp [Blank])
    (forall_mem_of_all hclean) hrest
  rw [← hpref]
  exact .network hhost.1 hhost.2 hdigitsne (forall_mem_of_all hdigit)

theorem aclCheck_first_rule_denied :
    ∃ acl, aclLoad sampleAddrinfo (ascii "deny 10.1.0.0/16\nallow 10.0.0.0/8\n") =
        some (some acl) ∧
      aclCheck (aclDup acl) (.inet (htonl 0x0A010203)) =
        decision [⟨false, .inet (htonl 0x0A010000), 16⟩, ⟨true, .inet (htonl 0x0A000000), 8⟩]
          (v4Address (.inet (htonl 0x0A010203))) := by
  have hdeny : LineOf sampleAddrinfo (ascii "deny 10.1.0.0/16")
      (some ⟨false, .inet (htonl 0x0A010000), 16⟩) :=
    lineOf_plain (ascii "deny") (ascii "10.1.0.0") (ascii "16") [] (by decide) (.inl rfl)
      (by decide) (by decide) (by decide) ⟨by decide, by decide⟩ (by decide) (by simp [Ending])
  have hallow : LineOf sampleAddrinfo (ascii "allow 10.0.0.0/8")
      (some ⟨true, .inet (htonl 0x0A000000), 8⟩) :=
    lineOf_plain (ascii "allow") (ascii "10.0.0.0") (ascii "8") [] (by decide) (.inl rfl)
      (by decide) (by decide) (by decide) ⟨by decide, by decide⟩ (by decide) (by simp [Ending])
  exact aclCheck_first_rule (.cons hdeny (by decide) (by decide)
    (.cons hallow (by decide) (by decide) .nil)) _

/-- The translation of mapped addresses only. -/
def mappedAddress (sa : Sockaddr) : Sockaddr :=
  match sa with
  | .inet6 addr => if addr.isV4Mapped then .inet (addr.s6Addr32.getD 3 0) else sa
  | _ => sa

/-- A client at `::10.0.0.1` is denied where every IPv6 address is allowed. -/
theorem compat_address_not_inet6 :
    ¬∀ (getaddrinfo : Bytes → Option (List Sockaddr)) (file : Bytes) (rules : List Rule),
      FileOf getaddrinfo file rules → ∀ sa : Sockaddr,
        ∃ acl, aclLoad getaddrinfo file = some (some acl) ∧
          aclCheck (aclDup acl) sa = decision rules (mappedAddress sa) := by
  intro h
  have hallow : LineOf sampleAddrinfo (ascii "allow ::/0")
      (some ⟨true, .inet6 ⟨[0, 0, 0, 0], rfl⟩, 0⟩) :=
    lineOf_plain (ascii "allow") (ascii "::") (ascii "0") [] (by decide) (.inl rfl) (by decide)
      (by decide) (by decide) ⟨by decide, by decide⟩ (by decide) (by simp [Ending])
  have hfile : FileOf sampleAddrinfo (ascii "allow ::/0\n") _ :=
    .cons hallow (by decide) (by decide) .nil
  obtain ⟨acl, hload, hcheck⟩ := h _ _ _ hfile (.inet6 ⟨[0, 0, 0, htonl 0x0A000001], rfl⟩)
  obtain ⟨hload', hvalid⟩ := aclLoad_of_file hfile
  obtain rfl : _ = acl := Option.some.inj (Option.some.inj (hload'.symm.trans hload))
  rw [aclCheck_of_lists (aclDup_lists hvalid) hvalid] at hcheck
  revert hcheck
  decide

end Aprsc
