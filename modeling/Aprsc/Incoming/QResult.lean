-- SUMMARY: What `q_process` does to a packet that it lets through, by the entries of the path.
import Aprsc.Incoming.QKinds

/-!
# The result of q_process

A packet that `q_process` lets through keeps the construct of its path, or some
entries of the path are kept and a generated construct follows them. Which of the
two, and what stands before a generated construct, is told here from the client
and the entries of the path.
-/

namespace Aprsc

/-! ## What a generated construct follows -/

/-- `TCPIP*` or `TCPXX*` is added before the generated construct. -/
inductive AddsTcp (c : Client) (path : List Bytes) (originated : Bool) : Prop where
  | replaced (replaced : ReplacesPath c path originated)
  | udp (inbound : c.inbound) (udp : c.has clflagsUdpsubmit = true)
      (tail : (uncutPath path).getLast? ≠ some (ascii "TCPIP*"))
  | unverified (inbound : c.inbound) (tcp : c.has clflagsUdpsubmit = false)
      (unverified : c.validated = false) (own : originated = true)

/-- A construct with a NUL protocol stays before the generated one. -/
structure NulStays (c : Client) (path : List Bytes) (originated : Bool) : Prop where
  nul : ∃ type after, qView path = .good 0 type after ∧
    (after = [[ch 'I']] → c.inbound ∧ c.has clflagsUdpsubmit = true)
  generates : c.inbound ∨ c.has clflagsUplinkport = true
  -- a client-only connection cuts the path before the construct
  stays : c.inbound → c.has clflagsUdpsubmit = false →
    ¬ (c.validated = true ∧ c.has clflagsClientonly = true ∧ originated = true)

/-- The packet gets a new construct, after some entries of its path. -/
inductive Generated (cfg : Config) (c : Client) (m : Area UInt8) (h : Header) (path : List Bytes)
    (originated : Bool) : QOut → Prop where
  | intro {kept rest tcp : List Bytes} {proto type : UInt8} {call : Bytes} {pathEnd : Int}
      {replace : Option Int}
      (path_eq : path = kept ++ rest)
      (cut_eq : replace.getD pathEnd = h.pos kept)
      (tcp_eq : tcp = [] ∧ ¬ AddsTcp c path originated ∨
        (tcp = [ascii "TCPIP*"] ∨ tcp = [ascii "TCPXX*"]) ∧
          (AddsTcp c path originated ∨ NulStays c path originated))
      (nul_iff : tcp = [] → ((∃ e ∈ kept, startsQ e = true) ↔ NulStays c path originated))
      (proto_eq : proto = cfg.qProtocolId ∨ NulStays c path originated)
      (type_ok : type ≠ comma ∧ type ≠ ch ':')
      (call_ok : CallOk call) :
      Generated cfg c m h path originated
        ⟨m, joinFields comma (tcp ++ [[ch 'q', proto, type], call]), pathEnd, .null, replace⟩

/-- The types of the constructs that are generated. -/
theorem type_ok {t : Char} (ht : t ∈ ['C', 'X', 'U', 'O', 'o', 'R', 'r', 'S']) :
    ch t ≠ comma ∧ ch t ≠ ch ':' := by
  have hall : ∀ u ∈ ['C', 'X', 'U', 'O', 'o', 'R', 'r', 'S'], ch u ≠ comma ∧ ch u ≠ ch ':' :=
    forall_mem_of_all (by decide)
  exact hall t ht

section

variable {cfg : Config} {c : Client} {m : Area UInt8} {h : Header} {path : List Bytes}
  {originated : Bool} {n : NewQ}

theorem NulForwarded.stays {type : UInt8} {after : List Bytes}
    (hnul : NulForwarded c path originated type after) : NulStays c path originated := by
  cases hnul.forwarded with
  | inl hudp =>
    exact ⟨⟨type, after, hnul.view, fun _ => hudp⟩, .inl hudp.1, fun _ hno => by simp [hno] at hudp⟩
  | inr hpass =>
    obtain ⟨passed, generates, hafter⟩ := hpass
    refine ⟨⟨type, after, hnul.view, fun h => absurd h hafter⟩, generates, fun hin _ hown => ?_⟩
    simp [((passed.2 hin).2 hown.2.2).2] at hown

/-- Where the path is not replaced, a NUL protocol is all that matters. -/
theorem nulStays_iff_forwarded (hrep : ¬ ReplacesPath c path originated)
    (hunver : ¬ (c.inbound ∧ c.has clflagsUdpsubmit = false ∧ c.validated = false ∧
      originated = true)) :
    NulStays c path originated ↔ ∃ type after, NulForwarded c path originated type after := by
  constructor
  · intro hstays
    obtain ⟨type, after, hv, hI⟩ := hstays.nul
    refine ⟨type, after, hv, ?_⟩
    cases Classical.em (c.inbound ∧ c.has clflagsUdpsubmit = true) with
    | inl hudp => exact .inl hudp
    | inr hudp =>
      refine .inr ⟨⟨hrep, fun hin => ?_⟩, hstays.generates, fun hafter => hudp (hI hafter)⟩
      have htcp : c.has clflagsUdpsubmit = false := by simpa [hin] using hudp
      refine ⟨htcp, fun ho => ?_⟩
      have hver : c.validated = true := by
        apply Classical.byContradiction
        intro hval
        exact hunver ⟨hin, htcp, by simpa using hval, ho⟩
      refine ⟨hver, ?_⟩
      simpa [hver, ho] using hstays.stays hin htcp
  · rintro ⟨type, after, hnul⟩
    exact hnul.stays

theorem PassedOn.nulStays_iff (passed : PassedOn c path originated) :
    NulStays c path originated ↔ ∃ type after, NulForwarded c path originated type after := by
  refine nulStays_iff_forwarded passed.1 fun hno => ?_
  simp [((passed.2 hno.1).2 hno.2.2.2).1] at hno

theorem not_addsTcp (hrep : ¬ ReplacesPath c path originated)
    (hudp : c.inbound → c.has clflagsUdpsubmit = false)
    (hver : c.inbound → originated = true → c.validated = true) :
    ¬ AddsTcp c path originated := by
  intro hadds
  cases hadds with
  | replaced h => exact hrep h
  | udp inbound udp => simp [hudp inbound] at udp
  | unverified inbound _ unverified own => simp [hver inbound own] at unverified

theorem PassedOn.not_addsTcp (passed : PassedOn c path originated) : ¬ AddsTcp c path originated :=
  Aprsc.not_addsTcp passed.1 (fun hin => (passed.2 hin).1) fun hin ho => ((passed.2 hin).2 ho).1

/-- When an element is put before the construct. -/
theorem NewCase.tcp_eq (hnew : NewCase cfg c path originated n) :
    n.tcp = [] ∧ ¬ AddsTcp c path originated ∨
      (n.tcp = [ascii "TCPIP*"] ∨ n.tcp = [ascii "TCPXX*"]) ∧
        (AddsTcp c path originated ∨ NulStays c path originated) := by
  cases hnew with
  | replaced replaces =>
    right
    unfold newReplaced
    split
    next => exact ⟨.inl rfl, .inl (.replaced replaces)⟩
    next => exact ⟨.inr rfl, .inl (.replaced replaces)⟩
  | udp inbound udp =>
    unfold tcpipUnlessLast
    split
    next hlast =>
      left
      refine ⟨rfl, fun hadds => ?_⟩
      cases hadds with
      | replaced hrep => simp [hrep.2.1] at udp
      | udp _ _ tail => exact tail hlast
      | unverified _ tcp => simp [tcp] at udp
    next hlast => exact .inr ⟨.inl rfl, .inl (.udp inbound udp hlast)⟩
  | unverified inbound tcp unverified own =>
    exact .inr ⟨.inr rfl, .inl (.unverified inbound tcp unverified own)⟩
  | clientOnlyOwn keeps inbound tcp verified only own =>
    exact .inl ⟨rfl, Aprsc.not_addsTcp keeps (fun _ => tcp) fun _ _ => verified⟩
  | login passed => exact .inl ⟨rfl, passed.not_addsTcp⟩
  | viacall passed => exact .inl ⟨rfl, passed.not_addsTcp⟩
  | address passed => exact .inl ⟨rfl, passed.not_addsTcp⟩
  | own passed inbound lacks absent own =>
    obtain ⟨type, after, hnul⟩ := nulForwarded_of_own passed inbound lacks absent own
    cases tcpipUnlessLast_cases (uncutPath path) with
    | inl h => exact .inl ⟨h, passed.not_addsTcp⟩
    | inr h => exact .inr ⟨.inl h, .inr hnul.stays⟩

/-- A construct with a NUL protocol stands before one without an added element. -/
theorem NewCase.nulStays_iff (hnew : NewCase cfg c path originated n) (htcp : n.tcp = []) :
    (∃ e ∈ n.kept, startsQ e = true) ↔ NulStays c path originated := by
  rw [hnew.nul_iff]
  cases hnew with
  | replaced =>
    unfold newReplaced at htcp
    split at htcp <;> cases htcp
  | udp inbound udp =>
    refine (nulStays_iff_forwarded ?_ ?_).symm
    · intro hrep
      simp [hrep.2.1] at udp
    · intro hno
      simp [hno.2.1] at udp
  | unverified => cases htcp
  | clientOnlyOwn keeps _ _ verified =>
    refine (nulStays_iff_forwarded keeps fun hno => ?_).symm
    simp [verified] at hno
  | login passed => exact passed.nulStays_iff.symm
  | viacall passed => exact passed.nulStays_iff.symm
  | address passed => exact passed.nulStays_iff.symm
  | own passed => exact passed.nulStays_iff.symm

end

/-! ## The result of q_process -/

/-- The construct of the packet is kept, with its type edited by a client-only
connection. -/
inductive Kept (cfg : Config) (c : Client) (m : Area UInt8) (h : Header) (path : List Bytes)
    (originated : Bool) : QOut → Prop where
  | intro {proto type : UInt8} {after : List Bytes} {m' : Area UInt8} {t : UInt8}
      (view : qView path = .good proto type after) (keeps : Keeps c path originated proto)
      (edited : Edited m (h.pos (beforeQ path)) type m' t) :
      Kept cfg c m h path originated
        (keptOut cfg c m' (h.pos (beforeQ path)) h.pathlen proto t after)


namespace Loaded

variable {cfg : Config} {clientlist : List ClientEntry} {c : Client} {m : Area UInt8} {s : Bytes}
  {h : Header} {originated : Bool} {out : QOut} (hl : Loaded m s h)
include hl

theorem generated_of_follows {n : NewQ} (hnew : NewCase cfg c (h.path s) originated n)
    (hfollows : Follows m h n out) : Generated cfg c m h (h.path s) originated out := by
  obtain ⟨area, newQ, pathEnd, start, replace⟩ := out
  obtain ⟨harea, hnewQ, hstart, hcut, -⟩ := hfollows
  cases harea
  cases hnewQ
  cases hstart
  obtain ⟨rest, hpath⟩ := hnew.prefix_uncut.trans (prefix_uncutPath (h.path s))
  obtain ⟨t, ht, htype⟩ := hnew.type_mem
  refine .intro hpath.symm hcut hnew.tcp_eq hnew.nulStays_iff ?_ (htype ▸ type_ok ht)
    (hl.newCase_call_ok hnew)
  refine hnew.proto_cases.imp_right fun hnul => ?_
  obtain ⟨type, after, hnul⟩ := hnul
  exact hnul.stays

/-- A packet that `q_process` lets through, and that has a construct then, has kept its
own or got a new one. -/
theorem qProcess_ok
    (hok : (qProcess cfg clientlist m c h.viaStart h.pathlen originated).val = .ok out)
    (hqc : out.qconstStart ≠ none) :
    Kept cfg c m h (h.path s) originated out ∨
      Regenerates c (h.path s) originated ∧ Generated cfg c m h (h.path s) originated out := by
  cases hl.qProcess_outcome hok with
  | kept view keeps _ edited => exact .inl (.intro view keeps edited)
  | generated regenerates new follows =>
    exact .inr ⟨regenerates, hl.generated_of_follows (newConstruct_cases new) follows⟩
  | missing lost => exact absurd lost hqc

end Loaded

end Aprsc
