-- SUMMARY: The construct that `q_process` generates for a packet, from the client and the entries of its path.
import Aprsc.Incoming.QLoops

/-!
# Generated constructs

The Q construct algorithm in terms of the client and the entries of the path: which
entries stay, and which construct follows them. `q_process` arrives at the same
construct through its pointers.
-/

namespace Aprsc

/-! ## The algorithm -/

/-- The entries that a generated construct may follow. A construct with a NUL protocol
is not taken for one. -/
def uncutPath (path : List Bytes) : List Bytes :=
  match qView path with
  | .good proto _ _ => if proto = 0 then path else beforeQ path
  | _ => beforeQ path

/-- The path has a construct that `q_process` takes for one. -/
def hasConstruct (path : List Bytes) : Bool :=
  match qView path with
  | .good proto _ _ => proto != 0
  | _ => false

/-- The last entries of a path, as `q_process` looks for `,VIACALL,I`. -/
inductive ViaI where
  | absent
  | noViacall
  | viacall (front : List Bytes) (prev : Bytes)
deriving Repr, DecidableEq

def viaI (path : List Bytes) : ViaI :=
  match path.reverse with
  | [] => .absent
  | [e] => if e = [ch 'I'] then .noViacall else .absent
  | e :: prev :: front => if e = [ch 'I'] then .viacall front.reverse prev else .absent

/-- A construct that is generated, and the entries before it. -/
structure NewQ where
  /-- The entries of the path that stay. -/
  kept : List Bytes
  /-- `TCPIP*` or `TCPXX*`, when it is added. -/
  tcp : List Bytes
  proto : UInt8
  type : UInt8
  call : Bytes
deriving Repr, DecidableEq

/-- The entries that are added to the path. -/
def NewQ.added (n : NewQ) : List Bytes := n.tcp ++ [[ch 'q', n.proto, n.type], n.call]

instance (c : Client) (path : List Bytes) (originated : Bool) :
    Decidable (ReplacesPath c path originated) :=
  inferInstanceAs (Decidable (_ ∧ _))

/-- `TCPIP*`, unless it is the last entry already. -/
def tcpipUnlessLast (path : List Bytes) : List Bytes :=
  if path.getLast? = some (ascii "TCPIP*") then [] else [ascii "TCPIP*"]

section

variable (cfg : Config) (c : Client) (path : List Bytes)

/-- The path is replaced. -/
def newReplaced : NewQ :=
  if c.validated then ⟨[], [ascii "TCPIP*"], cfg.qProtocolId, ch 'C', cfg.serverid⟩
  else ⟨[], [ascii "TCPXX*"], cfg.qProtocolId, ch 'X', cfg.serverid⟩

/-- A packet without a construct, of someone else, from a client-only connection. -/
def newClientOnly : NewQ :=
  match viaI (uncutPath path) with
  | .viacall front prev => ⟨front, [], cfg.qProtocolId, ch 'o', printed prev⟩
  | _ => ⟨uncutPath path, [], cfg.qProtocolId, ch 'O', c.username⟩

/-- A packet without a construct from another inbound connection. -/
def newInbound (originated : Bool) : Option NewQ :=
  match viaI (uncutPath path) with
  | .noViacall => none
  | .viacall front prev =>
      if c.username.length == prev.length && caseEq c.username prev then
        some ⟨front, [], cfg.qProtocolId, ch 'R', c.username⟩
      else some ⟨front, [], cfg.qProtocolId, ch 'r', printed prev⟩
  | .absent =>
      if originated then
        -- the protocol is written out here
        some ⟨uncutPath path, tcpipUnlessLast (uncutPath path), ch 'A', ch 'C', cfg.serverid⟩
      else some ⟨uncutPath path, [], cfg.qProtocolId, ch 'S', c.username⟩

/-- A packet without a construct from an uplink. -/
def newUplink : Option NewQ :=
  match viaI (uncutPath path) with
  | .noViacall => none
  | .viacall front prev => some ⟨front, [], cfg.qProtocolId, ch 'r', printed prev⟩
  | .absent => some ⟨uncutPath path, [], cfg.qProtocolId, ch 'S', c.addrHex⟩

/-- The construct that is generated for a packet, when one is. -/
def newConstruct (originated : Bool) : Option NewQ :=
  if ReplacesPath c path originated then some (newReplaced cfg c)
  else if c.inbound then
    if c.has clflagsUdpsubmit then
      some ⟨uncutPath path, tcpipUnlessLast (uncutPath path), cfg.qProtocolId, ch 'U', cfg.serverid⟩
    else if !c.validated && originated then
      some ⟨[], [ascii "TCPXX*"], cfg.qProtocolId, ch 'X', cfg.serverid⟩
    else if c.validated && c.has clflagsClientonly && originated then
      some ⟨beforeQ path, [], cfg.qProtocolId, ch 'C', cfg.serverid⟩
    else if hasConstruct path then none
    else if c.validated && c.has clflagsClientonly then some (newClientOnly cfg c path)
    else newInbound cfg c path originated
  else if c.has clflagsUplinkport && !hasConstruct path then newUplink cfg c path
  else none

end

/-! ## The entries that stay -/

theorem prefix_beforeQ (path : List Bytes) : beforeQ path <+: path := List.takeWhile_prefix _

theorem prefix_uncutPath (path : List Bytes) : uncutPath path <+: path := by
  unfold uncutPath
  split
  next =>
    split
    next => exact List.prefix_rfl
    next => exact prefix_beforeQ path
  next => exact prefix_beforeQ path

theorem hasConstruct_eq_false {path : List Bytes} (h : hasConstruct path = false) {proto type : UInt8}
    {after : List Bytes} (hv : qView path = .good proto type after) : proto = 0 := by
  simpa [hasConstruct, hv] using h

theorem viaI_absent {path : List Bytes} (h : viaI path = .absent) :
    path.getLast? ≠ some [ch 'I'] := by
  unfold viaI at h
  intro hlast
  rw [← List.head?_reverse] at hlast
  split at h
  next hnil => simp [hnil] at hlast
  next e hone =>
    have he : e = [ch 'I'] := by simpa [hone] using hlast
    simp [he] at h
  next e prev front hmore =>
    have he : e = [ch 'I'] := by simpa [hmore] using hlast
    simp [he] at h

theorem viaI_noViacall {path : List Bytes} (h : viaI path = .noViacall) : path = [[ch 'I']] := by
  unfold viaI at h
  split at h
  next => cases h
  next e hone =>
    split at h
    next he =>
      rw [he] at hone
      simpa using congrArg List.reverse hone
    next => cases h
  next => split at h <;> cases h

theorem viaI_viacall {path front : List Bytes} {prev : Bytes} (h : viaI path = .viacall front prev) :
    path = front ++ [prev, [ch 'I']] := by
  unfold viaI at h
  split at h
  next => cases h
  next => split at h <;> cases h
  next e prev front hmore =>
    split at h
    next he =>
      cases h
      rw [he] at hmore
      simpa using congrArg List.reverse hmore
    next => cases h

/-- The entries before `,VIACALL,I` are the start of the path, too. -/
theorem eq_front_append {path kept rest front : List Bytes} {prev : Bytes}
    (hp : path = kept ++ rest) (hI : viaI kept = .viacall front prev) :
    path = front ++ ([prev, [ch 'I']] ++ rest) := by
  rw [hp, viaI_viacall hI, List.append_assoc]

/-! ## What q_process returns -/

/-- The result of `q_process` is this construct. -/
structure Follows (m : Area UInt8) (h : Header) (n : NewQ) (out : QOut) : Prop where
  area_eq : out.area = m
  newQ_eq : out.newQ = joinFields comma n.added
  start_eq : out.newQStart = .null
  cut_eq : out.cut = h.pos n.kept
  pathEnd_le : out.pathEnd ≤ h.pathlen

theorem qText_eq (proto : UInt8) (t : Char) (call : Bytes) :
    qText proto t call = joinFields comma [[ch 'q', proto, ch t], call] := by
  simp [qText]

theorem tcp_qText_eq {tcp : String} (htcp : tcp = ",TCPIP*" ∨ tcp = ",TCPXX*") (proto : UInt8)
    (t : Char) (call : Bytes) :
    ascii tcp ++ qText proto t call =
      joinFields comma [(ascii tcp).tail, [ch 'q', proto, ch t], call] := by
  have hcomma : ascii tcp = comma :: (ascii tcp).tail := by
    cases htcp with
    | inl h => subst h; rfl
    | inr h => subst h; rfl
  conv_lhs => rw [hcomma]
  simp [qText]

/-- `q_dropcheck` leaves a generated construct as it is. -/
theorem qDropcheck_ok {cfg : Config} {clientlist : List ClientEntry} {m : Area UInt8} {c : Client}
    {newQ : Bytes} {qProto qType : UInt8} {qStart : Option Int} {pathEnd : Int}
    {r : Bytes × Option Int} (hI : qType ≠ ch 'I')
    (hok : (qDropcheck cfg clientlist m c newQ qProto qType qStart pathEnd).val = .ok r) :
    r = (newQ, none) := by
  have hI : (qType == ch 'I') = false := by simpa using hI
  unfold qDropcheck at hok
  split at hok
  next => cases hok
  next =>
  split at hok
  next => cases hok
  next =>
  split at hok
  next => cases hok
  next =>
  simp only [Traced.val_bind] at hok
  split at hok
  next => cases hok
  next =>
  simp only [Traced.val_bind] at hok
  split at hok
  next => cases hok
  next =>
    simp only [hI, Bool.false_eq_true, if_false] at hok
    split at hok
    next => exact (Except.ok.inj hok).symm
    next => exact (Except.ok.inj hok).symm

theorem skipToDropcheck_ok {cfg : Config} {clientlist : List ClientEntry} {m : Area UInt8}
    {c : Client} {newQ : Bytes} {qProto qType : UInt8} {qStart : Option Int} {pathEnd : Int}
    {ptr : QPtr} {out : QOut} (hI : qType ≠ ch 'I')
    (hok : (skipToDropcheck cfg clientlist m c newQ qProto qType qStart pathEnd ptr).val = .ok out) :
    out = ⟨m, newQ, pathEnd, ptr, none⟩ := by
  simp only [skipToDropcheck, Traced.val_bind] at hok
  split at hok
  next => cases hok
  next newQ' replace heq =>
    cases qDropcheck_ok hI heq
    exact (Except.ok.inj hok).symm

namespace Loaded

variable {m : Area UInt8} {s : Bytes} {h : Header} (hl : Loaded m s h)
include hl

/-- A path without a construct that `q_process` would keep. -/
theorem val_findQConstruct_zero
    (hz : ∀ proto type after, qView (h.path s) = .good proto type after → proto = 0) :
    ∃ qStart e, (findQConstruct m h.viaStart h.pathlen).val =
      ⟨qStart, e, 0, qTypeOf (h.path s), h.pos (uncutPath (h.path s))⟩ := by
  unfold uncutPath qTypeOf
  cases hv : qView (h.path s) with
  | none =>
    rw [hl.val_findQConstruct_none hv]
    exact ⟨none, 0, by rw [beforeQ_of_none hv, hl.pos_path]⟩
  | malformed =>
    obtain ⟨e, he⟩ := hl.val_findQConstruct_malformed hv
    exact ⟨_, e, he⟩
  | good proto type after =>
    rw [hl.val_findQConstruct_good hv]
    cases hz proto type after hv
    rw [← hl.pos_path]
    exact ⟨_, _, rfl⟩

/-- The last character of the destination callsign. -/
theorem byte_dst_last : m.byte (h.viaStart - 1) ≠ ch '*' := by
  have hvia := hl.admitted.viaStart_eq
  have hne := checkInvalidSrcDst_ne_nil hl.admitted.dst_valid
  have hpos := List.length_pos_of_ne_nil hne
  have hat := hl.at_dst
  rw [Area.at_cons] at hat
  have hlt : (h.dst s).length - 1 < (h.dst s).length := by omega
  have hbyte := hat.2.byte_eq (List.getElem?_eq_getElem hlt)
  rw [show (h.srcLen : Int) + 1 + ((h.dst s).length - 1 : Nat) = h.viaStart - 1 by omega] at hbyte
  rw [hbyte]
  intro hstar
  have hchar := checkInvalidSrcDst_chars hl.admitted.dst_valid (List.getElem_mem hlt)
  rw [hstar] at hchar
  exact absurd hchar (by decide)

/-- The path ends with `,TCPIP*` when its last entry is `TCPIP*`. -/
theorem val_pathEndsTcpip {kept rest : List Bytes} (hp : h.path s = kept ++ rest) :
    (pathEndsTcpip m (h.pos kept) h.pathlen).val = true ↔
      kept.getLast? = some (ascii "TCPIP*") := by
  have hval : (pathEndsTcpip m (h.pos kept) h.pathlen).val = true ↔
      7 < (h.pathlen : Int) ∧ m.At (h.pos kept - 7) (ascii ",TCPIP*") := by
    unfold pathEndsTcpip
    split
    next hlong =>
      simp only [Traced.val_bind, Area.val_bytes, Traced.val_pure, beq_iff_eq, hlong, true_and]
      rfl
    next hshort => simp [hshort]
  rw [hval]
  cases kept.eq_nil_or_concat' with
  | inl hnil =>
    subst hnil
    simp only [Header.pos_nil, List.getLast?_nil, reduceCtorEq, iff_false, not_and]
    intro _ hat
    have hbyte := hat.byte_eq (show (ascii ",TCPIP*")[6]? = some (ch '*') from rfl)
    rw [show (h.viaStart : Int) - 7 + ((6 : Nat) : Int) = h.viaStart - 1 by omega] at hbyte
    exact hl.byte_dst_last hbyte
  | inr hsnoc =>
    obtain ⟨front, e, rfl⟩ := hsnoc
    have hlast := hl.at_last (show h.path s = front ++ e :: rest by simpa using hp)
    have hcomma : comma ∉ e := hl.admitted.no_comma e (by rw [hp]; simp)
    have hfront := h.viaStart_le_pos front
    have hvia := hl.three_le_viaStart
    have hlen := pos_le_pathlen hl hp
    simp only [List.getLast?_append, List.getLast?_singleton, Option.some_or, Option.some.injEq]
    rw [Header.pos_snoc] at hlen ⊢
    constructor
    · rintro ⟨-, hat⟩
      rcases Nat.lt_trichotomy e.length 6 with hlt | heq | hgt
      · -- the comma before the entry would be a letter of `TCPIP*`
        have hget : (ascii ",TCPIP*")[6 - e.length]? ≠ some comma := by
          have hall : ∀ n < 6, (ascii ",TCPIP*")[6 - n]? ≠ some comma := by decide
          exact hall _ hlt
        have hin : 6 - e.length < (ascii ",TCPIP*").length := by
          have : (ascii ",TCPIP*").length = 7 := rfl
          omega
        have hbyte := hat.byte_eq (List.getElem?_eq_getElem hin)
        rw [show h.pos front + 1 + (e.length : Int) - 7 + ((6 - e.length : Nat) : Int) =
          h.pos front by omega, ((Area.at_cons m).mp hlast).1] at hbyte
        rw [List.getElem?_eq_getElem hin, ← hbyte] at hget
        exact absurd rfl hget
      · rw [show h.pos front + 1 + (e.length : Int) - 7 = h.pos front by omega] at hat
        have h1 : m.slice (h.pos front) 7 = ascii ",TCPIP*" := hat
        have h2 : m.slice (h.pos front) (comma :: e).length = comma :: e := hlast
        rw [List.length_cons, heq, h1] at h2
        exact (List.cons.inj h2).2.symm
      · -- the comma would be inside of the entry
        have hin : e.length - 7 < e.length := by omega
        have hbyte := hat.byte_eq (show (ascii ",TCPIP*")[0]? = some comma from rfl)
        have hentry := ((Area.at_cons m).mp hlast).2.byte_eq (List.getElem?_eq_getElem hin)
        rw [show h.pos front + 1 + ((e.length - 7 : Nat) : Int) =
          h.pos front + 1 + (e.length : Int) - 7 + ((0 : Nat) : Int) by omega, hbyte] at hentry
        exact absurd (hentry ▸ List.getElem_mem hin) hcomma
    · intro he
      subst he
      have h6 : (ascii "TCPIP*").length = 6 := rfl
      rw [h6] at hlen ⊢
      refine ⟨by omega, ?_⟩
      rw [show h.pos front + 1 + ((6 : Nat) : Int) - 7 = h.pos front by omega]
      exact hlast

/-- `,VIACALL,I` at the end of the entries that are left. -/
theorem val_pathEndsI {kept rest : List Bytes} (hp : h.path s = kept ++ rest) :
    (pathEndsI m h.viaStart (h.pos kept) h.pathlen).val =
      match viaI kept with
      | .absent => .absent
      | .noViacall => .noViacall
      | .viacall front _ => .viacall (h.pos front) := by
  cases hI : viaI kept with
  | absent => exact hl.pathEndsI_absent hp (viaI_absent hI)
  | noViacall =>
    cases viaI_noViacall hI
    exact hl.pathEndsI_noViacall hp
  | viacall front prev =>
    cases viaI_viacall hI
    exact hl.pathEndsI_viacall hp

end Loaded

section

variable {cfg : Config} {clientlist : List ClientEntry} {c : Client} {m : Area UInt8} {h : Header}
  {kept : List Bytes} {proto : UInt8} {t : Char} {call : Bytes} {pathEnd : Int}
  {replace : Option Int} {out : QOut}

theorem Follows.plain (hcut : replace.getD pathEnd = h.pos kept) (hle : pathEnd ≤ h.pathlen) :
    Follows m h ⟨kept, [], proto, ch t, call⟩
      ⟨m, qText proto t call, pathEnd, .null, replace⟩ :=
  ⟨rfl, qText_eq proto t call, rfl, hcut, hle⟩

theorem Follows.tcp {tcp : String} (htcp : tcp = ",TCPIP*" ∨ tcp = ",TCPXX*")
    (hcut : replace.getD pathEnd = h.pos kept) (hle : pathEnd ≤ h.pathlen) :
    Follows m h ⟨kept, [(ascii tcp).tail], proto, ch t, call⟩
      ⟨m, ascii tcp ++ qText proto t call, pathEnd, .null, replace⟩ :=
  ⟨rfl, tcp_qText_eq htcp proto t call, rfl, hcut, hle⟩

/-- A construct that has passed `q_dropcheck`. -/
theorem Follows.of_skip {qProto : UInt8} {qStart : Option Int} (hle : h.pos kept ≤ h.pathlen)
    (ht : t ∈ ['O', 'o', 'R', 'r', 'S'])
    (hok : (skipToDropcheck cfg clientlist m c (qText proto t call) qProto (ch t) qStart
      (h.pos kept) .null).val = .ok out) :
    Follows m h ⟨kept, [], proto, ch t, call⟩ out := by
  have hI : ∀ u ∈ ['O', 'o', 'R', 'r', 'S'], ch u ≠ ch 'I' := forall_mem_of_all (by decide)
  rw [skipToDropcheck_ok (hI t ht) hok]
  exact .plain rfl hle

end

section

variable {cfg : Config} {clientlist : List ClientEntry} {c : Client} {m : Area UInt8} {s : Bytes}
  {h : Header} {originated : Bool} {out : QOut} {qStart : Option Int} {e : Int} {type : UInt8}
  (hl : Loaded m s h)
include hl

theorem pos_uncutPath_le : h.pos (uncutPath (h.path s)) ≤ h.pathlen := by
  obtain ⟨rest, hpath⟩ := prefix_uncutPath (h.path s)
  exact pos_le_pathlen hl hpath.symm

/-- `TCPIP*` is added where the path does not end with it. -/
theorem follows_tcpip {kept rest : List Bytes} {proto : UInt8} {t : Char} {call : Bytes}
    (hp : h.path s = kept ++ rest)
    (hok : (if (pathEndsTcpip m (h.pos kept) h.pathlen).val = true then
        appendQ m (qText proto t call) (h.pos kept) none
      else appendQ m (ascii ",TCPIP*" ++ qText proto t call) (h.pos kept) none).val = .ok out) :
    Follows m h ⟨kept, tcpipUnlessLast kept, proto, ch t, call⟩ out := by
  have htail := hl.val_pathEndsTcpip hp
  have hle := pos_le_pathlen hl hp
  unfold tcpipUnlessLast
  split at hok
  next hends =>
    cases hok
    rw [if_pos (htail.mp hends)]
    exact .plain rfl hle
  next hends =>
    cases hok
    rw [if_neg (fun h => hends (htail.mpr h))]
    exact .tcp (.inl rfl) rfl hle

theorem follows_qClientOnly
    (hok : (qClientOnly cfg clientlist m c ⟨qStart, e, 0, type, h.pos (uncutPath (h.path s))⟩
      h.viaStart h.pathlen).val = .ok out) :
    Follows m h (newClientOnly cfg c (h.path s)) out := by
  obtain ⟨rest, hpath⟩ := prefix_uncutPath (h.path s)
  have hle := pos_uncutPath_le hl
  unfold qClientOnly at hok
  simp only [bne_self_eq_false, Bool.false_eq_true, if_false, Traced.val_bind,
    hl.val_pathEndsI hpath.symm] at hok
  unfold newClientOnly
  cases hI : viaI (uncutPath (h.path s)) with
  | absent =>
    simp only [hI] at hok
    exact .of_skip hle (by decide) hok
  | noViacall =>
    simp only [hI, Traced.val_bind] at hok
    exact .of_skip hle (by decide) hok
  | viacall front prev =>
    have hcut := viaI_viacall hI
    have hval := hl.val_viacall (hcut ▸ hpath.symm)
    rw [← hcut] at hval
    simp only [hI, Traced.val_bind, hval] at hok
    exact .of_skip (pos_le_pathlen hl (eq_front_append hpath.symm hI)) (by decide) hok

theorem follows_qInbound (hudp : c.has clflagsUdpsubmit = false)
    (hver : originated = true → c.validated = true)
    (honly : (c.validated && c.has clflagsClientonly) = false)
    (hok : (qInbound cfg clientlist m c ⟨qStart, e, 0, type, h.pos (uncutPath (h.path s))⟩
      h.viaStart h.pathlen originated).val = .ok out) :
    ∃ n, newInbound cfg c (h.path s) originated = some n ∧ Follows m h n out := by
  obtain ⟨rest, hpath⟩ := prefix_uncutPath (h.path s)
  have hle := pos_uncutPath_le hl
  have hunver : (!c.validated && originated) = false := by
    cases originated with
    | true => simp [hver rfl]
    | false => simp
  unfold qInbound at hok
  simp only [hudp, hunver, honly, Bool.false_and, Bool.false_eq_true, if_false, bne_self_eq_false,
    Traced.val_bind, hl.val_pathEndsI hpath.symm] at hok
  unfold newInbound
  cases hI : viaI (uncutPath (h.path s)) with
  | absent =>
    simp only [hI] at hok ⊢
    cases originated with
    | true =>
      simp only [if_true, Traced.val_bind] at hok ⊢
      exact ⟨_, rfl, follows_tcpip hl hpath.symm hok⟩
    | false =>
      simp only [Bool.false_eq_true, if_false] at hok ⊢
      exact ⟨_, rfl, .of_skip hle (by decide) hok⟩
  | noViacall =>
    simp only [hI] at hok
    cases hok
  | viacall front prev =>
    have hcut := viaI_viacall hI
    have hval := hl.val_viacall (hcut ▸ hpath.symm)
    have hfront := pos_le_pathlen hl (eq_front_append hpath.symm hI)
    rw [← hcut] at hval
    simp only [hI, Traced.val_bind, hval] at hok ⊢
    split at hok
    next hlogin =>
      rw [if_pos hlogin]
      exact ⟨_, rfl, .of_skip hfront (by decide) hok⟩
    next hlogin =>
      rw [if_neg hlogin]
      exact ⟨_, rfl, .of_skip hfront (by decide) hok⟩

theorem follows_qOutbound (huplink : c.has clflagsUplinkport = true)
    (hok : (qOutbound cfg clientlist m c ⟨qStart, e, 0, type, h.pos (uncutPath (h.path s))⟩
      h.viaStart h.pathlen).val = .ok out) :
    ∃ n, newUplink cfg c (h.path s) = some n ∧ Follows m h n out := by
  obtain ⟨rest, hpath⟩ := prefix_uncutPath (h.path s)
  unfold qOutbound at hok
  simp only [beq_self_eq_true, huplink, Bool.and_self, if_true, Traced.val_bind,
    hl.val_pathEndsI hpath.symm] at hok
  unfold newUplink
  cases hI : viaI (uncutPath (h.path s)) with
  | absent =>
    simp only [hI] at hok ⊢
    exact ⟨_, rfl, .of_skip (pos_uncutPath_le hl) (by decide) hok⟩
  | noViacall =>
    simp only [hI] at hok
    cases hok
  | viacall front prev =>
    have hcut := viaI_viacall hI
    have hval := hl.val_viacall (hcut ▸ hpath.symm)
    rw [← hcut] at hval
    simp only [hI, Traced.val_bind, hval] at hok ⊢
    exact ⟨_, rfl, .of_skip (pos_le_pathlen hl (eq_front_append hpath.symm hI)) (by decide) hok⟩

end

/-! ## The outcomes of q_process -/

/-- No construct of the path is kept. -/
def Regenerates (c : Client) (path : List Bytes) (originated : Bool) : Prop :=
  ∀ proto type after, qView path = .good proto type after → ¬ Keeps c path originated proto

theorem Regenerates.proto_eq_zero {c : Client} {path : List Bytes} {originated : Bool}
    (hgen : Regenerates c path originated) (hpass : PassedOn c path originated) {proto type : UInt8}
    {after : List Bytes} (hv : qView path = .good proto type after) : proto = 0 := by
  apply Classical.byContradiction
  intro hproto
  exact hgen proto type after hv ⟨hpass, .inl hproto⟩

theorem Regenerates.hasConstruct {c : Client} {path : List Bytes} {originated : Bool}
    (hgen : Regenerates c path originated) (hpass : PassedOn c path originated) :
    hasConstruct path = false := by
  unfold Aprsc.hasConstruct
  split
  next proto type after hv => simp [hgen.proto_eq_zero hpass hv]
  next => rfl

/-- What `q_process` may return for a packet that it does not drop. -/
inductive Outcome (cfg : Config) (clientlist : List ClientEntry) (c : Client) (m : Area UInt8)
    (s : Bytes) (h : Header) (originated : Bool) : QOut → Prop where
  /-- The construct is kept, with its type edited by a client-only connection. -/
  | kept {proto type : UInt8} {after : List Bytes} {m' : Area UInt8} {t : UInt8}
      (view : qView (h.path s) = .good proto type after)
      (keeps : Keeps c (h.path s) originated proto)
      (passed : ¬ (ServerFirst cfg after ∨ Refused cfg clientlist s c proto type after))
      (edited : Edited m (h.pos (beforeQ (h.path s))) type m' t) :
      Outcome cfg clientlist c m s h originated
        (keptOut cfg c m' (h.pos (beforeQ (h.path s))) h.pathlen proto t after)
  | generated {n : NewQ} {out : QOut} (regenerates : Regenerates c (h.path s) originated)
      (new : newConstruct cfg c (h.path s) originated = some n) (follows : Follows m h n out) :
      Outcome cfg clientlist c m s h originated out
  /-- A peer does not generate a construct. -/
  | missing {pathEnd : Int} {ptr : QPtr}
      (lost : (QOut.mk m [] pathEnd ptr none).qconstStart = none) (nonneg : 0 ≤ pathEnd)
      (le : pathEnd ≤ h.pathlen) :
      Outcome cfg clientlist c m s h originated ⟨m, [], pathEnd, ptr, none⟩

namespace Loaded

variable {cfg : Config} {clientlist : List ClientEntry} {c : Client} {m : Area UInt8} {s : Bytes}
  {h : Header} {originated : Bool} {out : QOut} (hl : Loaded m s h)
include hl

theorem follows_replaced (hrep : ReplacesPath c (h.path s) originated)
    (hok : (qProcess cfg clientlist m c h.viaStart h.pathlen originated).val = .ok out) :
    Follows m h (newReplaced cfg c) out := by
  have hle : (findQConstruct m h.viaStart h.pathlen).val.pathEnd ≤ h.pathlen := by
    cases hv : qView (h.path s) with
    | none => simp [hl.val_findQConstruct_none hv]
    | malformed =>
      obtain ⟨e, he⟩ := hl.val_findQConstruct_malformed hv
      obtain ⟨rest, hpath⟩ := prefix_beforeQ (h.path s)
      rw [he]
      exact pos_le_pathlen hl hpath.symm
    | good proto type after => simp [hl.val_findQConstruct_good hv]
  rw [hl.val_qProcess_of_replaces hrep] at hok
  cases hok
  unfold newReplaced
  split
  next => exact .tcp (.inl rfl) (by simp) hle
  next => exact .tcp (.inr rfl) (by simp) hle

/-- The UDP branch cuts the path at any construct. -/
theorem udp_pathEnd :
    (if (findQConstruct m h.viaStart h.pathlen).val.qProto != 0 then
        (findQConstruct m h.viaStart h.pathlen).val.qStart.getD
          (findQConstruct m h.viaStart h.pathlen).val.pathEnd
      else (findQConstruct m h.viaStart h.pathlen).val.pathEnd) = h.pos (uncutPath (h.path s)) := by
  unfold uncutPath
  cases hv : qView (h.path s) with
  | none => simp [hl.val_findQConstruct_none hv, beforeQ_of_none hv, hl.pos_path]
  | malformed =>
    obtain ⟨e, he⟩ := hl.val_findQConstruct_malformed hv
    simp [he]
  | good proto type after =>
    cases decEq proto 0 with
    | isTrue hp => simp [hl.val_findQConstruct_good hv, hp, hl.pos_path]
    | isFalse hp => simp [hl.val_findQConstruct_good hv, hp]

theorem follows_unverified {f : QFound} (hudp : c.has clflagsUdpsubmit = false)
    (hunver : (!c.validated && originated) = true)
    (hok : (qInbound cfg clientlist m c f h.viaStart h.pathlen originated).val = .ok out) :
    Follows m h ⟨[], [ascii "TCPXX*"], cfg.qProtocolId, ch 'X', cfg.serverid⟩ out := by
  have hvia : (h.viaStart : Int) ≤ h.pathlen := by
    have := hl.admitted.pathlen_eq
    omega
  unfold qInbound at hok
  simp only [hudp, hunver, Bool.false_eq_true, if_false, if_true] at hok
  split at hok
  next =>
    cases hok
    exact .tcp (.inr rfl) (by simp) hvia
  next =>
    split at hok
    next => cases hok
    next =>
      cases hok
      exact .tcp (.inr rfl) (by simp) hvia

/-- A packet of a client-only connection itself would be replaced, unless its construct
has type `I`. -/
theorem qStart_of_not_replaces (hrep : ¬ ReplacesPath c (h.path s) originated) (hin : c.inbound)
    (hudp : c.has clflagsUdpsubmit = false) (hval : c.validated = true) (ho : originated = true) :
    (findQConstruct m h.viaStart h.pathlen).val.qStart = some (h.pos (beforeQ (h.path s))) := by
  have hI : qTypeOf (h.path s) = ch 'I' := by
    apply Classical.byContradiction
    intro hI
    exact hrep ⟨ho, hudp, .inr ⟨hval, hin.2, hI⟩⟩
  unfold qTypeOf at hI
  split at hI
  next proto type after hv => rw [hl.val_findQConstruct_good hv]
  next => exact absurd hI (by decide)

/-- A packet from an inbound connection whose construct is not kept. -/
theorem follows_inbound (hin : c.inbound) (hrep : ¬ ReplacesPath c (h.path s) originated)
    (hgen : Regenerates c (h.path s) originated)
    (hok : (qInbound cfg clientlist m c (findQConstruct m h.viaStart h.pathlen).val h.viaStart
      h.pathlen originated).val = .ok out) :
    ∃ n, newConstruct cfg c (h.path s) originated = some n ∧ Follows m h n out := by
  unfold newConstruct
  rw [if_neg hrep, if_pos hin]
  cases hudp : c.has clflagsUdpsubmit with
  | true =>
    obtain ⟨rest, hpath⟩ := prefix_uncutPath (h.path s)
    unfold qInbound at hok
    simp only [hudp, if_true, hl.udp_pathEnd, Traced.val_bind] at hok
    exact ⟨_, rfl, follows_tcpip hl hpath.symm hok⟩
  | false =>
    simp only [Bool.false_eq_true, if_false]
    cases hunver : !c.validated && originated with
    | true => exact ⟨_, rfl, hl.follows_unverified hudp hunver hok⟩
    | false =>
      have hver : originated = true → c.validated = true := by
        intro ho
        simpa [ho] using hunver
      simp only [Bool.false_eq_true, if_false]
      cases hown : c.validated && c.has clflagsClientonly && originated with
      | true =>
        simp only [if_true]
        simp only [Bool.and_eq_true] at hown
        obtain ⟨⟨hval, honly⟩, ho⟩ := hown
        obtain ⟨rest, hpath⟩ := prefix_beforeQ (h.path s)
        have hstart := hl.qStart_of_not_replaces hrep hin hudp hval ho
        unfold qInbound at hok
        simp only [hudp, hval, honly, ho, hstart, Bool.false_eq_true, if_false, Bool.not_true,
          Bool.false_and, Bool.and_self, if_true, Option.getD_some] at hok
        cases hok
        exact ⟨_, rfl, .plain rfl (pos_le_pathlen hl hpath.symm)⟩
      | false =>
        have hpass : PassedOn c (h.path s) originated := by
          refine ⟨hrep, fun _ => ⟨hudp, fun ho => ⟨hver ho, ?_⟩⟩⟩
          simpa [ho, hver ho] using hown
        obtain ⟨qStart, e, hf⟩ := hl.val_findQConstruct_zero fun _ _ _ => hgen.proto_eq_zero hpass
        simp only [Bool.false_eq_true, if_false, hgen.hasConstruct hpass]
        rw [hf] at hok
        cases honly : c.validated && c.has clflagsClientonly with
        | true =>
          have ho : originated = false := by simpa [honly] using hown
          unfold qInbound at hok
          simp only [hudp, honly, ho, Bool.false_eq_true, if_false, Bool.and_false, Bool.not_false,
            Bool.and_true, if_true] at hok
          exact ⟨_, rfl, follows_qClientOnly hl hok⟩
        | false =>
          simp only [Bool.false_eq_true, if_false]
          exact follows_qInbound hl hudp hver honly hok

/-- A packet that `q_process` lets through. -/
theorem qProcess_outcome
    (hok : (qProcess cfg clientlist m c h.viaStart h.pathlen originated).val = .ok out) :
    Outcome cfg clientlist c m s h originated out := by
  cases Classical.em (Regenerates c (h.path s) originated) with
  | inr hkeeps =>
    simp only [Regenerates, not_forall, not_not] at hkeeps
    obtain ⟨proto, type, after, hv, hkeeps⟩ := hkeeps
    cases @val_qProcess_kept cfg clientlist _ _ _ _ _ _ _ _ hl hv hkeeps with
    | inl hdrop =>
      obtain ⟨-, rc, -, herr⟩ := hdrop
      rw [herr] at hok
      cases hok
    | inr hkept =>
      obtain ⟨hpassed, m', t, hedit, hval⟩ := hkept
      rw [hval] at hok
      cases hok
      exact .kept hv hkeeps hpassed hedit
  | inl hgen =>
    cases Classical.em (ReplacesPath c (h.path s) originated) with
    | inl hrep =>
      refine .generated hgen ?_ (hl.follows_replaced hrep hok)
      unfold newConstruct
      rw [if_pos hrep]
    | inr hrep =>
      rw [hl.val_qProcess_of_not_replaces hrep] at hok
      split at hok
      next hin =>
        obtain ⟨n, hnew, hfollows⟩ := hl.follows_inbound hin hrep hgen hok
        exact .generated hgen hnew hfollows
      next hout =>
        have hpass : PassedOn c (h.path s) originated := ⟨hrep, fun hin => absurd hin hout⟩
        cases huplink : c.has clflagsUplinkport with
        | true =>
          obtain ⟨qStart, e, hf⟩ := hl.val_findQConstruct_zero fun _ _ _ => hgen.proto_eq_zero hpass
          rw [hf] at hok
          obtain ⟨n, hnew, hfollows⟩ := follows_qOutbound hl huplink hok
          refine .generated hgen ?_ hfollows
          unfold newConstruct
          rw [if_neg hrep, if_neg hout]
          simpa [huplink, hgen.hasConstruct hpass] using hnew
        | false =>
          unfold qOutbound at hok
          simp only [huplink, Bool.and_false, Bool.false_eq_true, if_false, Traced.val_bind] at hok
          cases hv : qView (h.path s) with
          | none =>
            rw [hl.val_findQConstruct_none hv] at hok
            rw [skipToDropcheck_ok (show (0 : UInt8) ≠ ch 'I' by decide) hok]
            exact .missing rfl (by simp) (by simp)
          | malformed =>
            obtain ⟨e, he⟩ := hl.val_findQConstruct_malformed hv
            obtain ⟨rest, hpath⟩ := prefix_beforeQ (h.path s)
            rw [he] at hok
            rw [skipToDropcheck_ok (show (0 : UInt8) ≠ ch 'I' by decide) hok]
            have hlt : ¬ h.pos (beforeQ (h.path s)) + 1 < h.pos (beforeQ (h.path s)) := by omega
            have hpos : 0 ≤ h.pos (beforeQ (h.path s)) := by
              have := h.viaStart_le_pos (beforeQ (h.path s))
              omega
            exact .missing (by simp [QOut.qconstStart, QPtr.after, hlt]) hpos
              (pos_le_pathlen hl hpath.symm)
          | good proto type after =>
            exact absurd ⟨hpass, .inr ⟨hout, huplink⟩⟩ (hgen proto type after hv)

end Loaded

end Aprsc
