-- SUMMARY: Where the reads of `q_process` lie, and exactly when all of them stay inside the header.
import Aprsc.Incoming.QView

/-!
# Reads of the header

`q_process` is called with a header that has passed the checks of
`incoming_parse`. Most of its reads stay between the start of the packet and the
`:` after the path whatever the path is. What does not depend on the path end
that earlier steps have moved: the search for the serverid in `q_dropcheck`, and
the comparison with `,TCPIP*`.
-/

namespace Aprsc

/-- A read of the header: no byte after the `:` at `pathlen`, and no byte before the
packet. -/
def InHeader (m : Area UInt8) (pathlen : Int) : Access → Prop :=
  Access.Within pathlen fun p => ∃ k, p ≤ k ∧ k ≤ pathlen ∧ m.byte k = 0

@[simp] theorem inHeader_span {m : Area UInt8} {pathlen start len : Int} :
    InHeader m pathlen (.span start len) ↔
      0 ≤ len ∧ 0 ≤ start ∧ start + len ≤ pathlen + 1 := Iff.rfl

/-! ## The calls after the construct -/

/-- Starts of calls, in order, between `lo` and `fin`. -/
def Starts (lo fin : Int) : List Int → Prop
  | [] => lo ≤ fin
  | a :: rest => lo ≤ a ∧ Starts (a + 1) fin rest

theorem Starts.mono {lo lo' fin : Int} {as : List Int} (h : Starts lo fin as) (hlo : lo' ≤ lo) :
    Starts lo' fin as := by
  cases as with
  | nil => exact Int.le_trans hlo h
  | cons a rest => exact ⟨Int.le_trans hlo h.1, h.2⟩

theorem Starts.le {lo fin : Int} {as : List Int} (h : Starts lo fin as) : lo ≤ fin := by
  induction as generalizing lo with
  | nil => exact h
  | cons a rest ih =>
    have := ih h.2
    have := h.1
    omega

/-- The calls lie between `lo` and `hi`. -/
def CallsWithin (lo hi : Int) (calls : List (Int × Int)) : Prop :=
  ∀ x ∈ calls, lo ≤ x.1 ∧ 0 ≤ x.2 ∧ x.1 + x.2 ≤ hi

theorem Starts.qcalls_within {lo fin hi : Int} {as : List Int} (h : Starts lo fin as)
    (hfin : fin ≤ hi) : CallsWithin lo hi (qcalls as fin) := by
  induction as generalizing lo with
  | nil => simp [CallsWithin, qcalls]
  | cons a rest ih =>
    obtain ⟨ha, hrest⟩ := h
    have ih := ih hrest
    cases rest with
    | nil =>
      have : a + 1 ≤ fin := hrest
      intro x hx
      simp only [qcalls, List.mem_singleton] at hx
      subst hx
      refine ⟨ha, ?_, ?_⟩ <;> simp <;> omega
    | cons b rest =>
      have hb : a + 1 ≤ b := hrest.1
      intro x hx
      simp only [qcalls, List.mem_cons] at hx
      cases hx with
      | inl hx =>
        subst hx
        -- the next call starts inside of the range, too
        have hbfin : b + 1 ≤ fin := hrest.2.le
        refine ⟨ha, ?_, ?_⟩ <;> simp <;> omega
      | inr hx =>
        have := ih x (by simpa [qcalls] using hx)
        exact ⟨by omega, this.2⟩

/-- The array holds starts of calls between `p` and the end of the path. -/
theorem qcallv_starts (m : Area UInt8) {pathEnd p : Int} (n : Nat) (hp : p ≤ pathEnd) :
    Starts p (qcallv m pathEnd n p).val.2 (qcallv m pathEnd n p).val.1 ∧
      (qcallv m pathEnd n p).val.2 ≤ pathEnd := by
  induction n generalizing p with
  | zero => exact ⟨Int.le_refl p, hp⟩
  | succ n ih =>
    simp only [qcallv]
    split
    next hlt =>
      simp only [Traced.val_bind]
      have hskip := m.scanUntil_bounds (· != comma) (pathEnd - p).toNat p
      have hstop := @Area.stop_scanUntil _ m (· != comma) (pathEnd - p).toNat p
      generalize (m.scanUntil (· != comma) (pathEnd - p).toNat p).val = a at hskip hstop
      split
      next heq => exact ⟨hskip.1, by simp; omega⟩
      next hne =>
        have ha : a < pathEnd := by omega
        have hmove : a < (m.scanUntil (· == comma) (pathEnd - a).toNat a).val := by
          apply m.lt_scanUntil (by omega)
          simpa using hstop (by omega)
        have hend := (m.scanUntil_bounds (· == comma) (pathEnd - a).toNat a).2
        simp only [Traced.val_bind, Traced.val_pure]
        generalize (m.scanUntil (· == comma) (pathEnd - a).toNat a).val = e at hmove hend
        have ih := ih (p := e) (by omega)
        exact ⟨⟨hskip.1, ih.1.mono (by omega)⟩, ih.2⟩
    next hge => exact ⟨Int.le_refl p, hp⟩

theorem qcallsAfter_within (m : Area UInt8) {q pathEnd : Int} (hq : q + 4 ≤ pathEnd) :
    CallsWithin (q + 4) pathEnd (qcallsAfter m (some q) pathEnd).val := by
  have h := qcallv_starts m maxQCalls hq
  exact h.1.qcalls_within h.2

section

variable {m : Area UInt8} {pathlen : Int} {ends : Int → Prop}

theorem all_qcallv {pathEnd p : Int} (n : Nat) (h0 : 0 ≤ p) (hp : p ≤ pathEnd)
    (hend : pathEnd ≤ pathlen) : (qcallv m pathEnd n p).All (Access.Within pathlen ends) := by
  induction n generalizing p with
  | zero => simp [qcallv]
  | succ n ih =>
    have hscan : ∀ (stop : UInt8 → Bool) (a : Int), p ≤ a → a ≤ pathEnd →
        (m.scanUntil stop (pathEnd - a).toNat a).All (Access.Within pathlen ends) := by
      intro stop a h1 h2
      apply Area.all_scanUntil
      intro i hi
      exact ⟨by omega, by omega, by omega⟩
    simp only [qcallv]
    split
    next hlt =>
      have hskip := m.scanUntil_bounds (· != comma) (pathEnd - p).toNat p
      simp only [Traced.all_bind]
      refine ⟨hscan _ p (by omega) (by omega), ?_⟩
      generalize (m.scanUntil (· != comma) (pathEnd - p).toNat p).val = a at hskip
      split
      next => simp
      next =>
        have hend := m.scanUntil_bounds (· == comma) (pathEnd - a).toNat a
        simp only [Traced.all_bind, Traced.all_pure, and_true]
        exact ⟨hscan _ a (by omega) (by omega), ih (by omega) (by omega)⟩
    next => simp

theorem all_qcallsAfter {q pathEnd : Int} (h0 : 0 ≤ q) (hq : q + 4 ≤ pathEnd)
    (hend : pathEnd ≤ pathlen) :
    (qcallsAfter m (some q) pathEnd).All (Access.Within pathlen ends) := by
  simp only [qcallsAfter, Traced.all_bind, Traced.all_pure, and_true]
  exact all_qcallv _ (by omega) hq hend

/-! ## The checks on the calls -/

theorem all_serverInPath {serverid : Bytes} {q pathEnd : Int} (hs : serverid ≠ []) (h0 : 0 ≤ q)
    (hq : q + 4 ≤ pathEnd) (hend : pathEnd ≤ pathlen) :
    (serverInPath m serverid (some q) pathEnd).All (Access.Within pathlen ends) := by
  simp only [serverInPath, Traced.all_bind]
  refine ⟨Area.all_search.mpr ⟨by omega, by omega, by omega⟩, ?_⟩
  split
  next => simp
  next p hp =>
    have hb := m.memmem_bounds (by omega) hs hp
    have hread : ∀ i : Int, q + 3 ≤ i → i ≤ pathEnd →
        (m.read i).All (Access.Within pathlen ends) := by
      intro i h1 h2
      exact Area.all_read.mpr ⟨by omega, by omega, by omega⟩
    simp only [Traced.all_bind]
    refine ⟨hread _ (by omega) (by omega), ?_⟩
    split
    next =>
      simp only [Traced.all_bind]
      refine ⟨hread _ (by omega) (by omega), ?_⟩
      split
      next => simp
      next =>
        split
        next => simp
        next =>
          simp only [Traced.all_bind, Traced.all_pure, and_true]
          exact hread _ (by omega) (by omega)
    next => simp

/-- A call that lies in the header may be read. -/
theorem span_within {lo hi : Int} {x : Int × Int} (hx : lo ≤ x.1 ∧ 0 ≤ x.2 ∧ x.1 + x.2 ≤ hi)
    (h0 : 0 ≤ lo) (hhi : hi ≤ pathlen) : Access.Within pathlen ends (.span x.1 x.2) :=
  ⟨hx.2.1, by omega, by omega⟩

theorem all_callTwice {lo hi a l : Int} {rest : List (Int × Int)} (h0 : 0 ≤ lo)
    (hhi : hi ≤ pathlen) (ha : Access.Within pathlen ends (.span a l))
    (hrest : CallsWithin lo hi rest) :
    (callTwice m a l rest).All (Access.Within pathlen ends) := by
  induction rest with
  | nil => simp [callTwice]
  | cons x rest ih =>
    have hx : Access.Within pathlen ends (.span x.1 x.2) :=
      span_within (hrest x List.mem_cons_self) h0 hhi
    have ih := ih fun y hy => hrest y (List.mem_cons_of_mem _ hy)
    obtain ⟨b, l'⟩ := x
    simp only [callTwice]
    split
    next heq =>
      subst heq
      simp only [Traced.all_bind, Area.all_bytes]
      refine ⟨ha, hx, ?_⟩
      split
      next => simp
      next => exact ih
    next => exact ih

theorem all_checkQCalls {clientlist : List ClientEntry} {c : Client} {qType : UInt8} {lo hi : Int}
    {calls : List (Int × Int)} (login : Bool) (h0 : 0 ≤ lo) (hhi : hi ≤ pathlen)
    (hcalls : CallsWithin lo hi calls) :
    (checkQCalls clientlist m c qType calls login).All (Access.Within pathlen ends) := by
  induction calls generalizing login with
  | nil => simp [checkQCalls]
  | cons x rest ih =>
    have hx := hcalls x List.mem_cons_self
    have hspan : Access.Within pathlen ends (.span x.1 x.2) := span_within hx h0 hhi
    have hrest : CallsWithin lo hi rest := fun y hy => hcalls y (List.mem_cons_of_mem _ hy)
    obtain ⟨a, l⟩ := x
    simp only at hx hspan
    have hlogin : (callIsLogin m c a l).All (Access.Within pathlen ends) := by
      unfold callIsLogin
      split <;> simp [hspan]
    have hcall : ∀ isLogin last,
        (checkQCall clientlist m c a l isLogin last).All (Access.Within pathlen ends) := by
      intro isLogin last
      unfold checkQCall
      split
      next => split <;> simp
      next =>
        simp only [Traced.all_bind, Area.all_bytes]
        refine ⟨hspan, ?_⟩
        split
        next => simp
        next => split <;> simp
    have hqau : (qauSrccall m qType a l).All (Access.Within pathlen ends) := by
      unfold qauSrccall
      split
      next =>
        simp only [Traced.all_bind, Area.all_bytes]
        refine ⟨hspan, ⟨hx.2.1, by omega, by omega⟩, ?_⟩
        split
        next =>
          simp only [Traced.all_bind, Area.all_read, Traced.all_pure, and_true]
          exact ⟨by omega, by omega, by omega⟩
        next => simp
      next => simp
    simp only [checkQCalls, Traced.all_bind]
    refine ⟨all_callTwice h0 hhi hspan hrest, ?_⟩
    split
    next => simp
    next =>
      simp only [Traced.all_bind]
      refine ⟨hlogin, hcall _ _, ?_⟩
      split
      next => simp
      next =>
        simp only [Traced.all_bind]
        refine ⟨hqau, ?_⟩
        split
        next => simp
        next => exact ih _ hrest

theorem all_appendTrace {cfg : Config} {c : Client} {q pathEnd : Int} {login : Bool} (h0 : 0 ≤ q)
    (hq : q + 4 ≤ pathEnd) (hend : pathEnd ≤ pathlen) :
    (appendTrace cfg m c q pathEnd login).All (Access.Within pathlen ends) := by
  unfold appendTrace
  split
  next => simp
  next =>
    simp only [Traced.all_bind, Area.all_bytes]
    refine ⟨⟨by omega, by omega, by omega⟩, ?_⟩
    split <;> split <;> simp

/-- The packet is dropped before the calls after the construct are looked at. -/
def dropsEarly (cfg : Config) (qProto qType : UInt8) : Bool :=
  (qProto != cfg.qProtocolId && cfg.disallowOtherProtocolId) ||
    (qType == ch 'X' && cfg.disallowUnverified) || qType == ch 'Z'

theorem Config.serverid_ne_nil (cfg : Config) : cfg.serverid ≠ [] := by
  have := cfg.serverid_length.1
  intro h
  simp [h] at this

/-- `q_dropcheck` reads only the header exactly when the path ends after the
construct. -/
theorem all_qDropcheck_iff {cfg : Config} {clientlist : List ClientEntry} {c : Client}
    {newQ : Bytes} {qProto qType : UInt8} {q pathEnd : Int} (h0 : 0 ≤ q)
    (hend : pathEnd ≤ pathlen) :
    (qDropcheck cfg clientlist m c newQ qProto qType (some q) pathEnd).All
        (Access.Within pathlen ends) ↔
      dropsEarly cfg qProto qType = true ∨ q + 4 ≤ pathEnd := by
  unfold qDropcheck dropsEarly
  split
  next h => simp [h]
  next h1 =>
    split
    next h => simp [h]
    next h2 =>
      split
      next h => simp [h]
      next h3 =>
        simp only [Bool.not_eq_true] at h1 h2 h3
        simp only [h1, h2, h3, Bool.or_self, Bool.false_eq_true, false_or]
        simp only [Traced.all_bind]
        constructor
        · -- the length passed to `memmem`
          rintro ⟨_, hsrv, _⟩
          simp only [serverInPath, Traced.all_bind] at hsrv
          have := Area.all_search.mp hsrv.1
          have := this.1
          omega
        · intro hq
          refine ⟨all_qcallsAfter h0 hq hend, all_serverInPath cfg.serverid_ne_nil h0 hq hend, ?_⟩
          split
          next => simp
          next =>
            simp only [Traced.all_bind]
            refine ⟨all_checkQCalls _ (by omega) hend (qcallsAfter_within m hq), ?_⟩
            split
            next => simp
            next =>
              split
              next =>
                simp only [Traced.all_bind]
                refine ⟨all_appendTrace h0 hq hend, ?_⟩
                split <;> simp
              next => simp

/-- Without a construct `q_dropcheck` reads nothing. -/
theorem all_qDropcheck_none {cfg : Config} {clientlist : List ClientEntry} {c : Client}
    {newQ : Bytes} {qProto qType : UInt8} {pathEnd : Int} :
    (qDropcheck cfg clientlist m c newQ qProto qType none pathEnd).All
      (Access.Within pathlen ends) := by
  unfold qDropcheck
  split
  next => simp
  next =>
    split
    next => simp
    next =>
      split
      next => simp
      next => simp [qcallsAfter, serverInPath, checkQCalls]

theorem all_skipToDropcheck {P : Access → Prop} {cfg : Config} {clientlist : List ClientEntry}
    {c : Client} {newQ : Bytes} {qProto qType : UInt8} {qStart : Option Int} {pathEnd : Int}
    {ptr : QPtr} :
    (skipToDropcheck cfg clientlist m c newQ qProto qType qStart pathEnd ptr).All P ↔
      (qDropcheck cfg clientlist m c newQ qProto qType qStart pathEnd).All P := by
  unfold skipToDropcheck
  simp only [Traced.all_bind]
  constructor
  · exact And.left
  · intro h
    refine ⟨h, ?_⟩
    split <;> simp

@[simp] theorem all_appendQ {P : Access → Prop} {newQ : Bytes} {pathEnd : Int}
    {qReplace : Option Int} : (appendQ m newQ pathEnd qReplace).All P ↔ True := by
  simp [appendQ]

/-! ## The other scans of q_process -/

theorem all_pathEndsTcpip_iff {pathEnd : Int} (hend : pathEnd ≤ pathlen) :
    (pathEndsTcpip m pathEnd pathlen).All (Access.Within pathlen ends) ↔
      pathlen ≤ 7 ∨ 7 ≤ pathEnd := by
  unfold pathEndsTcpip
  split
  next h =>
    simp only [Traced.all_bind, Area.all_bytes, Traced.all_pure, and_true, Access.Within]
    omega
  next h =>
    simp only [Traced.all_pure, true_iff]
    omega

theorem all_viacall {p pathEnd : Int} (h0 : 0 ≤ p) (hp : p + 3 ≤ pathEnd)
    (hend : pathEnd ≤ pathlen) : (viacall m p pathEnd).All (Access.Within pathlen ends) := by
  unfold viacall
  simp only [Area.all_bytes, Access.Within]
  omega

theorem all_pathEndsI {viaStart pathEnd : Int} (hvia : 3 ≤ viaStart) (hpe : viaStart ≤ pathEnd)
    (hend : pathEnd ≤ pathlen) :
    (pathEndsI m viaStart pathEnd pathlen).All (Access.Within pathlen ends) := by
  have hread : ∀ i : Int, viaStart - 3 ≤ i → i ≤ pathEnd →
      (m.read i).All (Access.Within pathlen ends) := by
    intro i h1 h2
    exact Area.all_read.mpr ⟨by omega, by omega, by omega⟩
  have hback : (prevComma m viaStart pathEnd).All (Access.Within pathlen ends) := by
    unfold prevComma
    split
    next =>
      apply Area.all_scanBack
      intro i hi
      exact ⟨by omega, by omega, by omega⟩
    next => simp
  -- the scan stops between the path start, or just before it, and the `,I`
  have hval : viaStart - 3 ≤ (prevComma m viaStart pathEnd).val ∧
      (prevComma m viaStart pathEnd).val ≤ pathEnd := by
    unfold prevComma
    split
    next =>
      have := m.scanBack_bounds (· == comma) viaStart (pathEnd - 3 - viaStart).toNat
      omega
    next =>
      show viaStart - 3 ≤ pathEnd - 3 ∧ pathEnd - 3 ≤ pathEnd
      omega
  unfold pathEndsI
  split
  next =>
    simp only [Traced.all_bind]
    refine ⟨hread _ (by omega) (by omega), ?_⟩
    split
    next =>
      simp only [Traced.all_bind]
      refine ⟨hread _ (by omega) (by omega), ?_⟩
      split
      next =>
        simp only [Traced.all_bind]
        refine ⟨hback, hread _ hval.1 hval.2, ?_⟩
        split <;> simp
      next => simp
    next => simp
  next => simp

theorem all_findQConstruct {viaStart : Int} (hvia : 0 ≤ viaStart) (hpe : viaStart ≤ pathlen) :
    (findQConstruct m viaStart pathlen).All (Access.Within pathlen ends) := by
  simp only [findQConstruct, Traced.all_bind]
  refine ⟨Area.all_search.mpr ⟨by omega, by omega, by omega⟩, ?_⟩
  split
  next => simp
  next q hq =>
    have hb := m.memmem_bounds (by omega) (by decide) hq
    have htwo : (ascii ",q").length = 2 := rfl
    rw [htwo] at hb
    simp only [Traced.all_bind]
    refine ⟨Area.all_search.mpr ⟨by omega, by omega, by omega⟩, ?_⟩
    split
    next => simp
    next nextcall hn =>
      have hn := m.memchr_bounds (by omega) hn
      split
      next => simp
      next heq =>
        simp only [Traced.all_bind, Area.all_read]
        refine ⟨⟨by omega, by omega, by omega⟩, ⟨by omega, by omega, by omega⟩, ?_, ?_⟩
        · apply Area.all_scanUntil
          intro i hi
          exact ⟨by omega, by omega, by omega⟩
        · split <;> simp

end

/-! ## When a read leaves the header -/

/-- The end of the path that `q_dropcheck` is given lies before the calls after the
construct: the construct is malformed, or its protocol is NUL and it is taken for
the call before a final `,I`. -/
def CutsConstruct (path : List Bytes) : Prop :=
  qView path = .malformed ∨ ∃ type, qView path = .good 0 type [[ch 'I']]

/-- The packet is refused because nothing stands before the `,I`. -/
def NoViacall (path : List Bytes) : Prop :=
  qView path = .malformed ∧ beforeQ path = [[ch 'I']]

/-- The packets for which `q_process` reads outside of the header. -/
inductive QReadsOutside (cfg : Config) (c : Client) (h : Header) (path : List Bytes)
    (originated : Bool) : Prop where
  /-- A UDP submission whose construct starts in the first seven bytes: they are
  compared with `,TCPIP*` from before the packet on. -/
  | tcpip (inbound : c.inbound) (udp : c.has clflagsUdpsubmit = true)
      (cut : qView path = .malformed ∨
        ∃ proto type after, qView path = .good proto type after ∧ proto ≠ 0)
      (start : h.pos (beforeQ path) < 7) (long : 7 < h.pathlen)
  /-- The serverid is searched in a range of negative length. -/
  | clientOnly (passed : PassedOn c path originated) (inbound : c.inbound)
      (only : c.validated = true ∧ c.has clflagsClientonly = true) (cut : CutsConstruct path)
  | inbound (passed : PassedOn c path originated) (inbound : c.inbound)
      (other : ¬ (c.validated = true ∧ c.has clflagsClientonly = true))
      (cut : CutsConstruct path) (viacall : ¬ NoViacall path)
  | uplink (passed : PassedOn c path originated) (outbound : ¬ c.inbound)
      (uplink : c.has clflagsUplinkport = true)
      (cut : CutsConstruct path) (viacall : ¬ NoViacall path)
  | peer (passed : PassedOn c path originated) (outbound : ¬ c.inbound)
      (peer : c.has clflagsUplinkport = false) (cut : qView path = .malformed)
      (others : cfg.disallowOtherProtocolId = false)
  /-- The packet is logged as a C string. -/
  | logged (passed : PassedOn c path originated) (outbound : ¬ c.inbound)
      (peer : c.has clflagsUplinkport = false) (missing : qView path = .none)

section QReadsOutside

variable {cfg : Config} {c : Client} {h : Header} {path : List Bytes} {originated : Bool}

/-- A packet whose path is replaced is not read any further. -/
theorem QReadsOutside.not_replaces (hbad : QReadsOutside cfg c h path originated) :
    ¬ ReplacesPath c path originated := by
  cases hbad with
  | tcpip _ udp =>
    intro hrep
    simp [hrep.2.1] at udp
  | clientOnly passed => exact passed.1
  | inbound passed => exact passed.1
  | uplink passed => exact passed.1
  | peer passed => exact passed.1
  | logged passed => exact passed.1

theorem qReadsOutside_udp (hin : c.inbound) (hudp : c.has clflagsUdpsubmit = true) :
    QReadsOutside cfg c h path originated ↔
      (qView path = .malformed ∨
        ∃ proto type after, qView path = .good proto type after ∧ proto ≠ 0) ∧
      h.pos (beforeQ path) < 7 ∧ 7 < h.pathlen := by
  constructor
  · intro hbad
    cases hbad with
    | tcpip _ _ cut start long => exact ⟨cut, start, long⟩
    | clientOnly passed => simp [(passed.2 hin).1] at hudp
    | inbound passed => simp [(passed.2 hin).1] at hudp
    | uplink _ outbound => exact absurd hin outbound
    | peer _ outbound => exact absurd hin outbound
    | logged _ outbound => exact absurd hin outbound
  · rintro ⟨cut, start, long⟩
    exact .tcpip hin hudp cut start long

theorem qReadsOutside_inbound (hrep : ¬ ReplacesPath c path originated) (hin : c.inbound)
    (hudp : c.has clflagsUdpsubmit = false) :
    QReadsOutside cfg c h path originated ↔
      (originated = true → c.validated = true ∧ c.has clflagsClientonly = false) ∧
      CutsConstruct path ∧
      (¬ (c.validated = true ∧ c.has clflagsClientonly = true) → ¬ NoViacall path) := by
  constructor
  · intro hbad
    cases hbad with
    | tcpip _ udp => simp [hudp] at udp
    | clientOnly passed _ only cut => exact ⟨(passed.2 hin).2, cut, fun other => absurd only other⟩
    | inbound passed _ _ cut viacall => exact ⟨(passed.2 hin).2, cut, fun _ => viacall⟩
    | uplink _ outbound => exact absurd hin outbound
    | peer _ outbound => exact absurd hin outbound
    | logged _ outbound => exact absurd hin outbound
  · rintro ⟨horig, cut, viacall⟩
    have passed : PassedOn c path originated := ⟨hrep, fun _ => ⟨hudp, horig⟩⟩
    cases Classical.em (c.validated = true ∧ c.has clflagsClientonly = true) with
    | inl only => exact .clientOnly passed hin only cut
    | inr other => exact .inbound passed hin other cut (viacall other)

theorem qReadsOutside_uplink (hrep : ¬ ReplacesPath c path originated) (hout : ¬ c.inbound)
    (hup : c.has clflagsUplinkport = true) :
    QReadsOutside cfg c h path originated ↔ CutsConstruct path ∧ ¬ NoViacall path := by
  constructor
  · intro hbad
    cases hbad with
    | tcpip inbound => exact absurd inbound hout
    | clientOnly _ inbound => exact absurd inbound hout
    | inbound _ inbound => exact absurd inbound hout
    | uplink _ _ _ cut viacall => exact ⟨cut, viacall⟩
    | peer _ _ peer => simp [hup] at peer
    | logged _ _ peer => simp [hup] at peer
  · rintro ⟨cut, viacall⟩
    exact .uplink ⟨hrep, fun hin => absurd hin hout⟩ hout hup cut viacall

theorem qReadsOutside_peer (hrep : ¬ ReplacesPath c path originated) (hout : ¬ c.inbound)
    (hup : c.has clflagsUplinkport = false) :
    QReadsOutside cfg c h path originated ↔
      qView path = .none ∨ qView path = .malformed ∧ cfg.disallowOtherProtocolId = false := by
  constructor
  · intro hbad
    cases hbad with
    | tcpip inbound => exact absurd inbound hout
    | clientOnly _ inbound => exact absurd inbound hout
    | inbound _ inbound => exact absurd inbound hout
    | uplink _ _ uplink => simp [hup] at uplink
    | peer _ _ _ cut others => exact .inr ⟨cut, others⟩
    | logged _ _ _ missing => exact .inl missing
  · have passed : PassedOn c path originated := ⟨hrep, fun hin => absurd hin hout⟩
    rintro (missing | ⟨cut, others⟩)
    · exact .logged passed hout hup missing
    · exact .peer passed hout hup cut others

end QReadsOutside

/-- How a path ends. -/
theorem lastI_cases (kept : List Bytes) :
    kept.getLast? ≠ some [ch 'I'] ∨ kept = [[ch 'I']] ∨
      ∃ front prev, kept = front ++ [prev, [ch 'I']] := by
  cases kept.eq_nil_or_concat' with
  | inl hnil => exact .inl (by simp [hnil])
  | inr hsnoc =>
    obtain ⟨es, e, rfl⟩ := hsnoc
    cases decEq e [ch 'I'] with
    | isFalse hne => exact .inl (by simpa using hne)
    | isTrue heq =>
      subst heq
      cases es.eq_nil_or_concat' with
      | inl hnil => exact .inr (.inl (by simp [hnil]))
      | inr hsnoc =>
        obtain ⟨front, prev, rfl⟩ := hsnoc
        exact .inr (.inr ⟨front, prev, by simp⟩)

/-- The end of the path after a final `,VIACALL,I` has been cut off. -/
def Header.iEnd (h : Header) (kept : List Bytes) : Int :=
  if kept.getLast? = some [ch 'I'] ∧ 2 ≤ kept.length then h.pos kept.dropLast.dropLast
  else h.pos kept

theorem Header.iEnd_snoc (h : Header) (front : List Bytes) (prev : Bytes) :
    h.iEnd (front ++ [prev, [ch 'I']]) = h.pos front := by
  have hdrop : (front ++ [prev, [ch 'I']]).dropLast.dropLast = front := by simp
  unfold Header.iEnd
  rw [hdrop]
  apply if_pos
  simp

theorem Header.iEnd_of_ne {h : Header} {kept : List Bytes} (hne : kept.getLast? ≠ some [ch 'I']) :
    h.iEnd kept = h.pos kept := by
  unfold Header.iEnd
  exact if_neg fun hc => hne hc.1

theorem Header.iEnd_single (h : Header) : h.iEnd [[ch 'I']] = h.pos [[ch 'I']] := by
  simp [Header.iEnd]

theorem Header.iEnd_le (h : Header) (kept : List Bytes) : h.iEnd kept ≤ h.pos kept := by
  rcases lastI_cases kept with hne | hsingle | ⟨front, prev, hk⟩
  · exact Int.le_of_eq (Header.iEnd_of_ne hne)
  · rw [hsingle]
    exact Int.le_of_eq h.iEnd_single
  · rw [hk, Header.iEnd_snoc, Header.pos_append]
    omega

/-- The constructs that are generated pass the first checks of `q_dropcheck`. -/
theorem dropsEarly_generated (cfg : Config) {t : Char} (ht : t ∈ ['o', 'O', 'R', 'r', 'S']) :
    dropsEarly cfg cfg.qProtocolId (ch t) = false := by
  have hX : ∀ u ∈ ['o', 'O', 'R', 'r', 'S'], (ch u == ch 'X') = false ∧ (ch u == ch 'Z') = false :=
    forall_mem_of_all (by decide)
  simp [dropsEarly, hX t ht]

section

variable {cfg : Config} {clientlist : List ClientEntry} {c : Client} {m : Area UInt8} {s : Bytes}
  {h : Header} {ends : Int → Prop} {f : QFound} {kept rest : List Bytes}

/-- A generated construct is checked against a path that ends at `pathEnd`. -/
theorem all_skip_generated {newQ : Bytes} {t : Char} {pathEnd : Int} {ptr : QPtr}
    (ht : t ∈ ['o', 'O', 'R', 'r', 'S']) (hq : ∀ q, f.qStart = some q → 0 ≤ q)
    (hend : pathEnd ≤ h.pathlen) :
    (skipToDropcheck cfg clientlist m c newQ cfg.qProtocolId (ch t) f.qStart pathEnd ptr).All
        (Access.Within h.pathlen ends) ↔
      ∀ q, f.qStart = some q → q + 4 ≤ pathEnd := by
  rw [all_skipToDropcheck]
  cases hs : f.qStart with
  | none => simp [all_qDropcheck_none]
  | some q => simp [all_qDropcheck_iff (hq q hs) hend, dropsEarly_generated cfg ht]

variable (hl : Loaded m s h) (hpath : h.path s = kept ++ rest) (hpe : f.pathEnd = h.pos kept)
  (hproto : f.qProto = 0) (hq : ∀ q, f.qStart = some q → 0 ≤ q)
include hl hpath

theorem pos_le_pathlen : h.pos kept ≤ h.pathlen := by
  rw [← hl.pos_path, hpath, Header.pos_append]
  omega

theorem all_pathEndsI_kept :
    (pathEndsI m h.viaStart (h.pos kept) h.pathlen).All (Access.Within h.pathlen ends) :=
  all_pathEndsI hl.three_le_viaStart (h.viaStart_le_pos kept) (pos_le_pathlen hl hpath)

theorem all_viacall_kept {front : List Bytes} {prev : Bytes}
    (hk : kept = front ++ [prev, [ch 'I']]) :
    (viacall m (h.pos front) (h.pos kept)).All (Access.Within h.pathlen ends) := by
  have h1 := hl.three_le_viaStart
  have h2 := h.viaStart_le_pos front
  have h3 : h.pos kept = h.pos front + 1 + prev.length + 2 := by
    simp only [hk, Header.pos_append, joinFields_cons, joinFields_nil, List.append_nil,
      List.length_cons, List.length_append, List.length_nil]
    omega
  exact all_viacall (by omega) (by omega) (pos_le_pathlen hl hpath)

include hpe hproto hq

theorem all_qClientOnly_nul :
    (qClientOnly cfg clientlist m c f h.viaStart h.pathlen).All (Access.Within h.pathlen ends) ↔
      ∀ q, f.qStart = some q → q + 4 ≤ h.iEnd kept := by
  have hlen := pos_le_pathlen hl hpath
  have hlog : Access.Within h.pathlen ends (.span 0 h.pathlen) := ⟨by omega, by omega, by omega⟩
  unfold qClientOnly
  rw [if_neg (by simp [hproto])]
  simp only [Traced.all_bind, hpe, all_pathEndsI_kept hl hpath, true_and]
  rcases lastI_cases kept with hne | hsingle | ⟨front, prev, hk⟩
  · rw [hl.pathEndsI_absent hpath hne, Header.iEnd_of_ne hne]
    exact all_skip_generated (by decide) hq hlen
  · subst hsingle
    rw [hl.pathEndsI_noViacall hpath, Header.iEnd_single]
    simp only [Traced.all_bind, Traced.all_tell, hlog, true_and]
    exact all_skip_generated (by decide) hq hlen
  · have hcall : (viacall m (h.pos front) (h.pos kept)).All (Access.Within h.pathlen ends) :=
      all_viacall_kept hl hpath hk
    subst hk
    rw [hl.pathEndsI_viacall hpath, Header.iEnd_snoc]
    simp only [Traced.all_bind, Traced.all_tell, hlog, true_and, hcall]
    have hfront : h.pos front ≤ h.pathlen := by
      rw [Header.pos_append] at hlen
      omega
    exact all_skip_generated (by decide) hq hfront

/-- A packet without a construct, from an inbound connection that is not
client-only. -/
theorem all_qInbound_nul {originated : Bool} (hudp : c.has clflagsUdpsubmit = false)
    (horig : originated = true → c.validated = true)
    (honly : ¬ (c.validated = true ∧ c.has clflagsClientonly = true))
    (hfit : originated = true → h.pos kept = h.pathlen ∧
      ∀ q, f.qStart = some q → q + 4 ≤ h.pos kept) :
    (qInbound cfg clientlist m c f h.viaStart h.pathlen originated).All
        (Access.Within h.pathlen ends) ↔
      kept = [[ch 'I']] ∨ ∀ q, f.qStart = some q → q + 4 ≤ h.iEnd kept := by
  have hlen := pos_le_pathlen hl hpath
  have hunver : (!c.validated && originated) = false := by
    cases hv : c.validated with
    | true => rfl
    | false => simpa [hv] using horig
  have honly' : ∀ b : Bool, (c.validated && c.has clflagsClientonly && b) = false := by
    intro b
    cases hv : c.validated <;> cases ho : c.has clflagsClientonly <;> simp_all
  unfold qInbound
  rw [if_neg (by simp [hudp]), if_neg (by simp [hunver]), if_neg (by simp [honly']),
    if_neg (by simp [honly']), if_neg (by simp [hproto])]
  simp only [Traced.all_bind, hpe, all_pathEndsI_kept hl hpath, true_and]
  rcases lastI_cases kept with hne | hsingle | ⟨front, prev, hk⟩
  · have hns : kept ≠ [[ch 'I']] := by
      intro hk
      simp [hk] at hne
    rw [hl.pathEndsI_absent hpath hne, Header.iEnd_of_ne hne]
    simp only [hns, false_or]
    split
    next ho =>
      obtain ⟨hfull, hq4⟩ := hfit ho
      simp only [Traced.all_bind]
      have htcpip : (pathEndsTcpip m (h.pos kept) h.pathlen).All (Access.Within h.pathlen ends) :=
        (all_pathEndsTcpip_iff hlen).mpr (by omega)
      simp only [htcpip, true_and]
      constructor
      · intro _
        exact hq4
      · intro _
        split <;> simp
    next => exact all_skip_generated (by decide) hq hlen
  · subst hsingle
    rw [hl.pathEndsI_noViacall hpath]
    simp
  · have hcall : (viacall m (h.pos front) (h.pos kept)).All (Access.Within h.pathlen ends) :=
      all_viacall_kept hl hpath hk
    have hns : kept ≠ [[ch 'I']] := by
      intro hs
      simpa [hs] using congrArg List.length hk
    subst hk
    rw [hl.pathEndsI_viacall hpath, Header.iEnd_snoc]
    simp only [Traced.all_bind, hcall, true_and, hns, false_or]
    have hfront : h.pos front ≤ h.pathlen := by
      rw [Header.pos_append] at hlen
      omega
    split <;> exact all_skip_generated (by decide) hq hfront

/-- Any inbound packet without a construct that is kept. -/
theorem all_qInbound_zero {originated : Bool}
    (hfit : originated = true → c.validated = true → c.has clflagsUdpsubmit = false →
      h.pos kept = h.pathlen ∧ ∀ q, f.qStart = some q → q + 4 ≤ h.pos kept) :
    (qInbound cfg clientlist m c f h.viaStart h.pathlen originated).All
        (Access.Within h.pathlen ends) ↔
      (c.has clflagsUdpsubmit = true ∧ ((h.pathlen : Int) ≤ 7 ∨ 7 ≤ h.pos kept)) ∨
      (c.has clflagsUdpsubmit = false ∧
        ((originated = true ∧ ¬ (c.validated = true ∧ c.has clflagsClientonly = false)) ∨
          (¬ (c.validated = true ∧ c.has clflagsClientonly = true) ∧ kept = [[ch 'I']]) ∨
          ∀ q, f.qStart = some q → q + 4 ≤ h.iEnd kept)) := by
  have hlen := pos_le_pathlen hl hpath
  cases hudp : c.has clflagsUdpsubmit with
  | true =>
    unfold qInbound
    rw [if_pos hudp]
    simp only [hproto, hpe, bne_self_eq_false, Bool.false_eq_true, if_false, Traced.all_bind,
      all_pathEndsTcpip_iff hlen, true_and, false_and, reduceCtorEq, or_false,
      and_iff_left_iff_imp]
    intro _
    split <;> simp
  | false =>
    simp only [Bool.false_eq_true, false_and, true_and, false_or]
    cases hv : c.validated with
    | false =>
      cases ho : originated with
      | true =>
        unfold qInbound
        rw [if_neg (by simp [hudp]), if_pos (by simp [hv])]
        simp [hproto]
      | false =>
        rw [all_qInbound_nul hl hpath hpe hproto hq hudp (by simp) (by simp [hv]) (by simp)]
        simp
    | true =>
      cases ho : c.has clflagsClientonly with
      | false =>
        rw [all_qInbound_nul hl hpath hpe hproto hq hudp (by simp [hv]) (by simp [ho])
          fun horig => hfit horig hv hudp]
        simp
      | true =>
        cases originated with
        | true =>
          unfold qInbound
          rw [if_neg (by simp [hudp]), if_neg (by simp [hv]), if_pos (by simp [hv, ho])]
          simp
        | false =>
          unfold qInbound
          rw [if_neg (by simp [hudp]), if_neg (by simp [hv]), if_neg (by simp [hv, ho]),
            if_pos (by simp [hv, ho]), all_qClientOnly_nul hl hpath hpe hproto hq]
          simp

/-- A packet without a construct, from an uplink. -/
theorem all_qOutbound_uplink (huplink : c.has clflagsUplinkport = true) :
    (qOutbound cfg clientlist m c f h.viaStart h.pathlen).All (Access.Within h.pathlen ends) ↔
      kept = [[ch 'I']] ∨ ∀ q, f.qStart = some q → q + 4 ≤ h.iEnd kept := by
  have hlen := pos_le_pathlen hl hpath
  unfold qOutbound
  rw [if_pos (by simp [hproto, huplink])]
  simp only [Traced.all_bind, hpe, all_pathEndsI_kept hl hpath, true_and]
  rcases lastI_cases kept with hne | hsingle | ⟨front, prev, hk⟩
  · have hns : kept ≠ [[ch 'I']] := by
      intro hk
      simp [hk] at hne
    rw [hl.pathEndsI_absent hpath hne, Header.iEnd_of_ne hne]
    simp only [hns, false_or]
    exact all_skip_generated (by decide) hq hlen
  · subst hsingle
    rw [hl.pathEndsI_noViacall hpath]
    simp
  · have hcall : (viacall m (h.pos front) (h.pos kept)).All (Access.Within h.pathlen ends) :=
      all_viacall_kept hl hpath hk
    have hns : kept ≠ [[ch 'I']] := by
      intro hs
      simpa [hs] using congrArg List.length hk
    subst hk
    rw [hl.pathEndsI_viacall hpath, Header.iEnd_snoc]
    simp only [Traced.all_bind, hcall, true_and, hns, false_or]
    have hfront : h.pos front ≤ h.pathlen := by
      rw [Header.pos_append] at hlen
      omega
    exact all_skip_generated (by decide) hq hfront

end

section

variable {cfg : Config} {clientlist : List ClientEntry} {c : Client} {m : Area UInt8}
  {viaStart pathlen : Int} {ends : Int → Prop} {f : QFound} {q : Int}

/-- A construct that is kept is read inside of the header. -/
theorem all_skip_kept {m : Area UInt8} {qProto qType : UInt8} {ptr : QPtr}
    (hstart : f.qStart = some q) (h0 : 0 ≤ q) (hq : q + 4 ≤ f.pathEnd) (hend : f.pathEnd ≤ pathlen) :
    (skipToDropcheck cfg clientlist m c [] qProto qType f.qStart f.pathEnd ptr).All
      (Access.Within pathlen ends) := by
  rw [all_skipToDropcheck, hstart, all_qDropcheck_iff h0 hend]
  exact .inr hq

/-- An inbound packet with a construct. -/
theorem all_qInbound_kept {originated : Bool} (hproto : f.qProto ≠ 0) (hstart : f.qStart = some q)
    (h0 : 0 ≤ q) (hq : q + 4 ≤ f.pathEnd) (hend : f.pathEnd ≤ pathlen) :
    (qInbound cfg clientlist m c f viaStart pathlen originated).All (Access.Within pathlen ends) ↔
      (c.has clflagsUdpsubmit = true → pathlen ≤ 7 ∨ 7 ≤ q) := by
  have hp : (f.qProto != 0) = true := by simpa using hproto
  unfold qInbound
  split
  next hudp =>
    rw [hstart]
    simp only [Option.getD_some, Traced.all_bind, all_pathEndsTcpip_iff (show q ≤ pathlen by omega),
      hudp, forall_const, and_iff_left_iff_imp]
    intro _
    split <;> simp
  next hudp =>
    simp only [hudp, Bool.false_eq_true, false_imp_iff, iff_true]
    split
    next =>
      split
      next => simp
      next => split <;> simp
    next =>
      split
      next => simp
      next =>
        split
        next =>
          unfold qClientOnly
          rw [if_pos hp]
          split <;> exact all_skip_kept hstart h0 hq hend
        next => exact all_skip_kept hstart h0 hq hend

/-- A packet that is neither from an inbound connection nor gets a new construct. -/
theorem all_qOutbound_other (hother : ¬ (f.qProto = 0 ∧ c.has clflagsUplinkport = true))
    (h0 : ∀ q, f.qStart = some q → 0 ≤ q) (hend : f.pathEnd ≤ pathlen) :
    (qOutbound cfg clientlist m c f viaStart pathlen).All (Access.Within pathlen ends) ↔
      (f.qStart = none → ends 0) ∧
        ∀ q, f.qStart = some q → dropsEarly cfg f.qProto f.qType = true ∨ q + 4 ≤ f.pathEnd := by
  unfold qOutbound logMissing
  rw [if_neg (by simpa using hother)]
  simp only [Traced.all_bind, all_skipToDropcheck]
  cases hs : f.qStart with
  | none => simp [all_qDropcheck_none, Access.Within]
  | some q => simp [all_qDropcheck_iff (h0 q hs) hend]

end

/-- Where the calls after a construct with a NUL protocol start, and where the path
ends after a final `,VIACALL,I` has been cut off. -/
theorem four_le_iEnd_iff {s : Bytes} {h : Header} {type : UInt8} {after : List Bytes}
    (hv : qView (h.path s) = .good 0 type after) :
    h.pos (beforeQ (h.path s)) + 4 ≤ h.iEnd (h.path s) ↔ after ≠ [[ch 'I']] := by
  obtain ⟨hp, next, more, hafter, -⟩ := eq_of_good hv
  generalize beforeQ (h.path s) = before at hp
  rw [hp]
  have hq : ∀ es : List Bytes, h.pos (before ++ [ch 'q', 0, type] :: es) =
      h.pos before + 4 + (joinFields comma es).length := by
    intro es
    rw [Header.pos_append, joinFields_cons]
    simp
    omega
  rcases lastI_cases after with hne | hsingle | ⟨front, prev, hk⟩
  · have hlast : (before ++ [ch 'q', 0, type] :: after).getLast? ≠ some [ch 'I'] := by
      rw [hafter] at hne ⊢
      simpa [List.getLast?_append] using hne
    rw [Header.iEnd_of_ne hlast, hq]
    constructor
    · intro _ hc
      simp [hc] at hne
    · intro _
      omega
  · rw [hsingle, show before ++ [ch 'q', 0, type] :: [[ch 'I']] =
      before ++ [[ch 'q', 0, type], [ch 'I']] by simp, Header.iEnd_snoc]
    constructor
    · intro hle
      omega
    · intro hne
      exact absurd rfl hne
  · rw [hk, show before ++ [ch 'q', 0, type] :: (front ++ [prev, [ch 'I']]) =
      (before ++ [ch 'q', 0, type] :: front) ++ [prev, [ch 'I']] by simp, Header.iEnd_snoc, hq]
    constructor
    · intro _ hc
      simpa using congrArg List.length hc
    · intro _
      omega

/-! ## The whole of q_process -/

section

variable {cfg : Config} {clientlist : List ClientEntry} {c : Client} {m : Area UInt8} {s : Bytes}
  {h : Header} {originated : Bool} (hl : Loaded m s h)
include hl

/-- Only the connection's own branch of `q_process` can read outside of the header. -/
theorem all_qProcess_iff :
    (qProcess cfg clientlist m c h.viaStart h.pathlen originated).All (InHeader m h.pathlen) ↔
      ReplacesPath c (h.path s) originated ∨
        if c.inbound then
          (qInbound cfg clientlist m c (findQConstruct m h.viaStart h.pathlen).val h.viaStart
            h.pathlen originated).All (InHeader m h.pathlen)
        else
          (qOutbound cfg clientlist m c (findQConstruct m h.viaStart h.pathlen).val h.viaStart
            h.pathlen).All (InHeader m h.pathlen) := by
  have hvia := hl.three_le_viaStart
  have hlen : (h.viaStart : Int) ≤ h.pathlen := by
    rw [← hl.pos_path]
    exact h.viaStart_le_pos _
  have hfind : (findQConstruct m h.viaStart h.pathlen).All (InHeader m h.pathlen) :=
    all_findQConstruct (by omega) hlen
  simp only [qProcess, Traced.all_bind, hfind, true_and, hl.findQConstruct_qStart_eq_none,
    hl.findQConstruct_qType, ReplacesPath]
  split
  next hrep =>
    have h1 : originated = true ∧ c.has clflagsUdpsubmit = false := by simpa using hrep.2
    simp only [h1, hrep.1, true_or, and_self, iff_true]
    split <;> simp
  next hrep =>
    split
    next htake =>
      simp only [Bool.and_eq_true, Bool.not_eq_true', bne_iff_ne] at htake
      simp [htake]
    next htake =>
      have hno : ¬ (originated = true ∧ c.has clflagsUdpsubmit = false ∧
          (qView (h.path s) = .none ∨
            c.validated = true ∧ c.has clflagsInport = true ∧ qTypeOf (h.path s) ≠ ch 'I')) := by
        rintro ⟨ho, hu, hcase⟩
        cases hcase with
        | inl hv => exact hrep ⟨hv, ho, by simp [hu]⟩
        | inr hv => exact htake (by simp [ho, hu, hv])
      simp only [hno, false_or, Client.inbound]
      split
      next hin => simp [hin]
      next hin => simp [hin]

/-- The bytes of a header without a construct. -/
theorem byte_ne_zero (hv : qView (h.path s) = .none) {k : Int} (h0 : 0 ≤ k)
    (hk : k ≤ h.pathlen) : m.byte k ≠ 0 := by
  have had := hl.admitted
  have hsep : ∀ b : UInt8, isalnum b = true ∨ b = ch '-' ∨ b = ch '*' → b ≠ 0 := by
    intro b hb hzero
    subst hzero
    revert hb
    decide
  have hsrc : ∀ b ∈ h.src s, b ≠ 0 := fun b hb =>
    hsep b ((checkInvalidSrcDst_chars had.src_valid hb).imp_right .inl)
  have hdst : ∀ b ∈ h.dst s, b ≠ 0 := fun b hb =>
    hsep b ((checkInvalidSrcDst_chars had.dst_valid hb).imp_right .inl)
  have hentry : ∀ e ∈ h.path s, ∀ b ∈ e, b ≠ 0 := by
    intro e he b hb
    have hnq : startsQ e = false := startsQ_of_mem_beforeQ (by rw [beforeQ_of_none hv]; exact he)
    cases had.entries_ok e he (List.ne_nil_of_mem hb) with
    | inl hq => simp_all [isQConstruct, startsQ]
    | inr hq =>
      obtain ⟨afterQ, hq⟩ := hq
      exact hsep b (checkInvalidPathCallsign_chars hq hb)
  have hpath : ∀ b ∈ joinFields comma (h.path s), b ≠ 0 := by
    intro b hb
    obtain ⟨e, he, hb⟩ := List.mem_flatMap.mp hb
    cases hb with
    | head => decide
    | tail _ hb => exact hentry e he b hb
  have hat : m.At 0 (h.src s ++ (ch '>' :: h.dst s ++ (joinFields comma (h.path s) ++ [ch ':']))) := by
    have hat := hl.at_line
    rw [had.line_eq, ← List.cons_append, ← List.singleton_append (x := ch ':'),
      ← List.append_assoc, ← List.append_assoc, ← List.append_assoc, Area.at_append] at hat
    simpa using hat.1
  have hlen := had.pathlen_eq
  have hsl := had.srcLen_eq
  have hvs := had.viaStart_eq
  obtain ⟨i, rfl⟩ : ∃ i : Nat, k = 0 + i := ⟨k.toNat, by omega⟩
  have hlt : i < (h.src s ++ (ch '>' :: h.dst s ++
      (joinFields comma (h.path s) ++ [ch ':']))).length := by
    simp only [List.length_append, List.length_cons, List.length_nil]
    omega
  rw [hat.byte_eq (List.getElem?_eq_getElem hlt)]
  have hmem := List.getElem_mem hlt
  simp only [List.mem_append, List.mem_cons, List.not_mem_nil, or_false] at hmem
  rcases hmem with hb | (hb | hb) | hb | hb
  · exact hsrc _ hb
  · rw [hb]
    decide
  · exact hdst _ hb
  · exact hpath _ hb
  · rw [hb]
    decide

theorem viaStart_nonneg {es : List Bytes} : 0 ≤ h.pos es := by
  have := hl.three_le_viaStart
  have := h.viaStart_le_pos es
  omega

/-- `q_process` stays inside of the header if the connection's own branch of it does. -/
theorem all_qProcess_of_branch {f : QFound}
    (hf : (findQConstruct m h.viaStart h.pathlen).val = f)
    (hinbound : ¬ ReplacesPath c (h.path s) originated → c.inbound →
      ((qInbound cfg clientlist m c f h.viaStart h.pathlen originated).All (InHeader m h.pathlen) ↔
        ¬ QReadsOutside cfg c h (h.path s) originated))
    (houtbound : ¬ ReplacesPath c (h.path s) originated → ¬ c.inbound →
      ((qOutbound cfg clientlist m c f h.viaStart h.pathlen).All (InHeader m h.pathlen) ↔
        ¬ QReadsOutside cfg c h (h.path s) originated)) :
    (qProcess cfg clientlist m c h.viaStart h.pathlen originated).All (InHeader m h.pathlen) ↔
      ¬ QReadsOutside cfg c h (h.path s) originated := by
  rw [all_qProcess_iff hl, hf]
  cases Classical.em (ReplacesPath c (h.path s) originated) with
  | inl hrep =>
    simp only [hrep, true_or, true_iff]
    exact fun hbad => hbad.not_replaces hrep
  | inr hrep =>
    simp only [hrep, false_or]
    split
    next hin => exact hinbound hrep hin
    next hout => exact houtbound hrep hout

/-- A packet whose construct, if it has one, is not kept: `kept` is what is left of
its path. -/
theorem all_qProcess_zero {f : QFound} {kept rest : List Bytes}
    (hf : (findQConstruct m h.viaStart h.pathlen).val = f) (hpath : h.path s = kept ++ rest)
    (hpe : f.pathEnd = h.pos kept) (hproto : f.qProto = 0)
    (hview : ∀ proto type after, qView (h.path s) = .good proto type after → proto = 0)
    (hkept : qView (h.path s) = .malformed ∧ kept = beforeQ (h.path s) ∨
      qView (h.path s) ≠ .malformed ∧ kept = h.path s ∧
        ∀ q, f.qStart = some q → q + 4 ≤ h.pos kept)
    (hq : ∀ q, f.qStart = some q → 0 ≤ q)
    (hfits : (∀ q, f.qStart = some q → q + 4 ≤ h.iEnd kept) ↔ ¬ CutsConstruct (h.path s))
    (hpeer : c.has clflagsUplinkport = false →
      ((qOutbound cfg clientlist m c f h.viaStart h.pathlen).All (InHeader m h.pathlen) ↔
        ¬ (qView (h.path s) = .none ∨
          qView (h.path s) = .malformed ∧ cfg.disallowOtherProtocolId = false))) :
    (qProcess cfg clientlist m c h.viaStart h.pathlen originated).All (InHeader m h.pathlen) ↔
      ¬ QReadsOutside cfg c h (h.path s) originated := by
  have hsingle : CutsConstruct (h.path s) → (kept = [[ch 'I']] ↔ NoViacall (h.path s)) := by
    intro hcut
    rcases hkept with ⟨hmal, hk⟩ | ⟨hmal, hk, -⟩
    · simp [NoViacall, hmal, hk]
    · obtain ⟨type, hgood⟩ := hcut.resolve_left hmal
      have hne : kept ≠ [[ch 'I']] := by
        intro hs
        rw [← hk, hs] at hgood
        revert hgood
        simp [qView, startsQ, ch]
      simp [NoViacall, hmal, hne]
  refine all_qProcess_of_branch hl hf ?_ ?_
  · intro hrep hin
    have hfit : originated = true → c.validated = true → c.has clflagsUdpsubmit = false →
        h.pos kept = h.pathlen ∧ ∀ q, f.qStart = some q → q + 4 ≤ h.pos kept := by
      intro ho hval hudp
      rcases hkept with ⟨hmal, -⟩ | ⟨-, hk, hfour⟩
      · refine absurd ⟨ho, hudp, .inr ⟨hval, hin.2, ?_⟩⟩ hrep
        simp only [qTypeOf, hmal]
        decide
      · exact ⟨by rw [hk, hl.pos_path], hfour⟩
    refine (all_qInbound_zero hl hpath hpe hproto hq hfit).trans ?_
    cases hudp : c.has clflagsUdpsubmit with
    | true =>
      -- with a NUL protocol the UDP branch cuts the path only at a malformed construct
      have hno : ¬ ∃ proto type after, qView (h.path s) = .good proto type after ∧ proto ≠ 0 := by
        rintro ⟨proto, type, after, hgood, hne⟩
        exact hne (hview _ _ _ hgood)
      rw [qReadsOutside_udp hin hudp]
      rcases hkept with ⟨hmal, hk⟩ | ⟨hmal, hk, -⟩
      · simp only [hmal, hk, true_or, true_and, reduceCtorEq, false_and, or_false]
        omega
      · have hfull : h.pos kept = h.pathlen := by rw [hk, hl.pos_path]
        simp only [hmal, hno, or_self, false_and, not_false_eq_true, iff_true, true_and,
          reduceCtorEq, or_false]
        omega
    | false =>
      rw [qReadsOutside_inbound hrep hin hudp, hfits]
      simp only [reduceCtorEq, false_and, true_and, false_or, Classical.not_and_iff_not_or_not,
        Classical.not_imp, not_not]
      refine or_congr_right ?_
      cases Classical.em (CutsConstruct (h.path s)) with
      | inl hcut => simp only [hsingle hcut, hcut, not_true_eq_false, or_false, false_or]
      | inr hcut => simp only [hcut, not_false_eq_true, or_true, true_or]
  · intro hrep hout
    cases hup : c.has clflagsUplinkport with
    | true =>
      refine (all_qOutbound_uplink hl hpath hpe hproto hq hup).trans ?_
      rw [qReadsOutside_uplink hrep hout hup, Classical.not_and_iff_not_or_not, not_not, hfits]
      cases Classical.em (CutsConstruct (h.path s)) with
      | inl hcut => simp only [hsingle hcut, hcut, not_true_eq_false, or_false, false_or]
      | inr hcut => simp only [hcut, not_false_eq_true, or_true, true_or]
    | false =>
      rw [qReadsOutside_peer hrep hout hup]
      exact hpeer hup

theorem all_qProcess_none (hv : qView (h.path s) = .none) :
    (qProcess cfg clientlist m c h.viaStart h.pathlen originated).All (InHeader m h.pathlen) ↔
      ¬ QReadsOutside cfg c h (h.path s) originated := by
  refine all_qProcess_zero hl (hl.val_findQConstruct_none hv)
    (show h.path s = h.path s ++ [] by simp) hl.pos_path.symm rfl (by simp [hv])
    (.inr ⟨by simp [hv], rfl, by simp⟩) (by simp) (by simp [CutsConstruct, hv]) ?_
  intro hup
  simp only [hv, true_or, not_true_eq_false, iff_false]
  intro hall
  have hlog := (all_qOutbound_other (by simp [hup]) (by simp) (Int.le_refl _)).mp hall
  obtain ⟨k, h0, hk, hzero⟩ := hlog.1 rfl
  exact byte_ne_zero hl hv h0 hk hzero

theorem all_qProcess_malformed (hv : qView (h.path s) = .malformed) :
    (qProcess cfg clientlist m c h.viaStart h.pathlen originated).All (InHeader m h.pathlen) ↔
      ¬ QReadsOutside cfg c h (h.path s) originated := by
  obtain ⟨q, rest, hpath, -⟩ := exists_of_ne_none (by rw [hv]; simp)
  obtain ⟨e, he⟩ := hl.val_findQConstruct_malformed hv
  have hstart : ∀ q, some (h.pos (beforeQ (h.path s))) = some q → 0 ≤ q := by
    intro q hq
    cases hq
    exact viaStart_nonneg hl
  refine all_qProcess_zero hl he hpath rfl rfl (by simp [hv]) (.inl ⟨hv, rfl⟩) hstart ?_ ?_
  · have hle := h.iEnd_le (beforeQ (h.path s))
    simp only [Option.some.injEq, forall_eq', CutsConstruct, hv, true_or, not_true_eq_false,
      iff_false]
    omega
  · intro hup
    have hX : ((0 : UInt8) == ch 'X') = false := rfl
    have hZ : ((0 : UInt8) == ch 'Z') = false := rfl
    have hne := cfg.qProtocolId_ne.symm
    refine (all_qOutbound_other (by simp [hup]) hstart (pos_le_pathlen hl hpath)).trans ?_
    simp only [hv, dropsEarly, hX, hZ, bne_iff_ne.mpr hne, Option.some.injEq, forall_eq',
      reduceCtorEq, false_imp_iff, true_and, Bool.true_and, Bool.false_and, Bool.or_false,
      false_or, Bool.not_eq_false]
    constructor
    · intro hdrop
      exact hdrop.resolve_right (by omega)
    · exact .inl

theorem all_qProcess_good {proto type : UInt8} {after : List Bytes}
    (hv : qView (h.path s) = .good proto type after) :
    (qProcess cfg clientlist m c h.viaStart h.pathlen originated).All (InHeader m h.pathlen) ↔
      ¬ QReadsOutside cfg c h (h.path s) originated := by
  have hstart : ∀ q, some (h.pos (beforeQ (h.path s))) = some q → 0 ≤ q := by
    intro q hq
    cases hq
    exact viaStart_nonneg hl
  have hfour : h.pos (beforeQ (h.path s)) + 4 ≤ h.pathlen := by
    rw [← hl.pos_path]
    conv_rhs => rw [(eq_of_good hv).1]
    rw [Header.pos_append, joinFields_cons]
    simp
    omega
  cases decEq proto 0 with
  | isTrue hproto =>
    subst hproto
    refine all_qProcess_zero hl (hl.val_findQConstruct_good hv)
      (show h.path s = h.path s ++ [] by simp) hl.pos_path.symm rfl (by simp_all)
      (.inr ⟨by simp [hv], rfl, ?_⟩) hstart ?_ ?_
    · simpa [hl.pos_path] using hfour
    · simpa [CutsConstruct, hv] using four_le_iEnd_iff hv
    · intro hup
      refine (all_qOutbound_other (by simp [hup]) hstart (Int.le_refl _)).trans ?_
      simp [hv, hfour]
  | isFalse hproto =>
    -- the construct is kept, unless the packet is submitted by UDP
    have hcut : ¬ CutsConstruct (h.path s) := by
      intro hc
      simp [CutsConstruct, hv, hproto] at hc
    refine all_qProcess_of_branch hl (hl.val_findQConstruct_good hv) ?_ ?_
    · intro hrep hin
      refine (all_qInbound_kept hproto rfl (viaStart_nonneg hl) hfour (Int.le_refl _)).trans ?_
      cases hudp : c.has clflagsUdpsubmit with
      | true =>
        have hgood : ∃ proto type after, qView (h.path s) = .good proto type after ∧ proto ≠ 0 :=
          ⟨_, _, _, hv, hproto⟩
        simp only [qReadsOutside_udp hin hudp, hgood, or_true, true_and, forall_const]
        omega
      | false => simp [qReadsOutside_inbound hrep hin hudp, hcut]
    · intro hrep hout
      refine (all_qOutbound_other (by simp [hproto]) hstart (Int.le_refl _)).trans ?_
      cases hup : c.has clflagsUplinkport with
      | true => simp [qReadsOutside_uplink hrep hout hup, hcut, hfour]
      | false => simp [qReadsOutside_peer hrep hout hup, hv, hfour]

theorem all_qProcess :
    (qProcess cfg clientlist m c h.viaStart h.pathlen originated).All (InHeader m h.pathlen) ↔
      ¬ QReadsOutside cfg c h (h.path s) originated := by
  cases hv : qView (h.path s) with
  | none => exact all_qProcess_none hl hv
  | malformed => exact all_qProcess_malformed hl hv
  | good proto type after => exact all_qProcess_good hl hv

end

theorem Loaded.of_parseHeader {cfg : Config} {s : Bytes} {h : Header} (mem : Area UInt8)
    (hok : parseHeader cfg s = .ok h) : Loaded (mem.load s) s h :=
  ⟨mem.at_load s, parseHeader_admitted hok⟩

/-- For every header that `incoming_parse` admits, every client and whatever lies
around the packet in memory, `q_process` and `q_dropcheck` read only the header
and pass no negative length, unless the packet is of one of the kinds of
`QReadsOutside`. For those they do leave the header. -/
theorem q_process_reads_header_iff (cfg : Config) (clientlist : List ClientEntry) (c : Client)
    (mem : Area UInt8) (s : Bytes) (h : Header) (hok : parseHeader cfg s = .ok h) :
    (qProcess cfg clientlist (mem.load s) c h.viaStart h.pathlen (originatedByClient c h s)).All
        (InHeader (mem.load s) h.pathlen) ↔
      ¬ QReadsOutside cfg c h (h.path s) (originatedByClient c h s) :=
  all_qProcess (Loaded.of_parseHeader mem hok)

/-- A configuration without any restriction. -/
private def boundsConfig : Config := .unrestricted

/-- A verified client on an inbound port. -/
private def boundsClient : Client := .verifiedInbound

private def boundsMem : Area UInt8 := ⟨fun _ => 0, fun _ => none⟩

/-- A packet with a construct that is kept stays inside. -/
theorem q_process_reads_header_kept :
    parseHeader boundsConfig (ascii "OH7LZB>APRS,qAR,OH7AB:>test") = .ok ⟨6, 11, 11, 21⟩ ∧
    (qProcess boundsConfig [] (boundsMem.load (ascii "OH7LZB>APRS,qAR,OH7AB:>test")) boundsClient
      11 21 false).All
        (InHeader (boundsMem.load (ascii "OH7LZB>APRS,qAR,OH7AB:>test")) 21) := by
  have hok : parseHeader boundsConfig (ascii "OH7LZB>APRS,qAR,OH7AB:>test") =
      .ok ⟨6, 11, 11, 21⟩ := by rfl
  refine ⟨hok, (q_process_reads_header_iff _ [] boundsClient boundsMem _ _ hok).mpr ?_⟩
  have hv : qView (Header.path ⟨6, 11, 11, 21⟩ (ascii "OH7LZB>APRS,qAR,OH7AB:>test")) =
      .good (ch 'A') (ch 'R') [ascii "OH7AB"] := by rfl
  have hin : boundsClient.inbound := by decide
  intro hbad
  cases hbad with
  | tcpip _ udp => exact absurd udp (by decide)
  | clientOnly _ _ only => exact absurd only (by decide)
  | inbound _ _ _ cut =>
    rw [CutsConstruct, hv] at cut
    simp at cut
    exact absurd cut.1 (by decide)
  | uplink _ outbound => exact outbound hin
  | peer _ outbound => exact outbound hin
  | logged _ outbound => exact outbound hin

/-- A packet with a construct that no call follows: the serverid is searched in a
range of length -4. -/
theorem q_process_reads_outside :
    ¬ ∀ (cfg : Config) (clientlist : List ClientEntry) (c : Client) (mem : Area UInt8) (s : Bytes)
      (h : Header), parseHeader cfg s = .ok h →
      (qProcess cfg clientlist (mem.load s) c h.viaStart h.pathlen (originatedByClient c h s)).All
        (InHeader (mem.load s) h.pathlen) := by
  intro hall
  have hok : parseHeader boundsConfig (ascii "OH7LZB>APRS,qAR:>test") = .ok ⟨6, 11, 11, 15⟩ := by
    rfl
  have hspan := hall boundsConfig [] boundsClient boundsMem _ _ hok (.span 15 (-4)) (by decide)
  exact absurd hspan.1 (by decide)

end Aprsc
