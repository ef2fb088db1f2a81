-- SUMMARY: In every run of the server, no packet goes from one uplink to another or back to where it came from.
import Aprsc.Outgoing.Routing

/-!
# No transit and no echo

What the send loops write is decided by the class lists and by the flags of the packet.
The invariant says of both what they were made from: a client in a list belongs to the
class, and a packet on its way has flags that fit the client that sent it. A step that
writes looks at nothing else.
-/

namespace Aprsc

/-! ## Where packets come from -/

/-- What is known of a queued packet and the client that sent it. -/
structure Routed.Ok (r : Routed) : Prop where
  ready : r.sender.client.ready = true
  /-- Packets from dupefeed clients are not queued. -/
  not_dupefeed : workerClassifyClient r.sender.client ≠ some .dupe
  /-- Packets from upstream are not marked as coming from downstream. -/
  upstream : r.sender.client.upstream = true → r.pb.flags &&& fFromDownstr = 0

/-- The client at the address a packet came from is the one that sent it, as long as its
connection is there. -/
def Routed.OriginOk (n : Net) (r : Routed) : Prop :=
  r.sender.number < n.count ∧
    ∀ p c, n.conns p = some c → c.number = r.sender.number →
      p = r.origin ∧ c.client = r.sender.client

/-- What may be written to whom. -/
structure Sending.Ok (s : Sending) : Prop where
  no_transit : s.packet.sender.client.upstream = true → s.target.client.upstream = false
  no_echo : s.target.number ≠ s.packet.sender.number
  not_ro : workerClassifyClient s.target.client ≠ some .ro
  dupe : s.packet.pb.isDupe = true → workerClassifyClient s.target.client = some .dupe ∧
    s.data = Net.dupTab ++ s.packet.pb.data.take s.packet.pb.packetLen

structure Net.Inv (n : Net) : Prop where
  lists : ∀ w k p, p ∈ n.classes w k → ∃ c, n.conns p = some c ∧ c.client.ready = true ∧
    workerClassifyClient c.client = some k
  numbers : ∀ p c, n.conns p = some c → c.number < n.count
  distinct : ∀ p q c d, n.conns p = some c → n.conns q = some d → c.number = d.number → p = q
  queued : ∀ r ∈ n.queued, r.Ok ∧ r.OriginOk n
  global : ∀ r ∈ n.global, r.Ok ∧ r.OriginOk n
  sent : ∀ s ∈ n.sent, s.Ok

theorem Net.Inv.init : Net.Inv .init where
  lists := by simp [Net.init]
  numbers := by simp [Net.init]
  distinct := by simp [Net.init]
  queued := by simp [Net.init]
  global := by simp [Net.init]
  sent := by simp [Net.init]

/-- A dupefeed client does not get a packet queued. -/
theorem classify_not_dupefeed {c : Client} {cls : UInt16} (h : classify c = .ok cls) :
    workerClassifyClient c ≠ some .dupe := by
  intro hdupe
  unfold workerClassifyClient at hdupe
  split at hdupe
  next => cases hdupe
  next =>
  split at hdupe
  next => cases hdupe
  next hup =>
  split at hdupe
  next hfeed =>
    unfold classify at h
    rw [if_neg (by simpa [Client.upstream] using hup), if_pos hfeed] at h
    cases h
  next => split at hdupe <;> cases hdupe

/-- A client upstream marks its packets as coming from there. -/
theorem classify_upstream {c : Client} {cls : UInt16} (h : classify c = .ok cls)
    (hup : c.upstream = true) : cls = fFromUpstr := by
  unfold classify at h
  rw [if_pos (by simpa [Client.upstream] using hup)] at h
  cases h
  rfl

/-- What `incoming_parse` queues. -/
theorem Routed.Ok.of_queued {env : LineEnv} {p : Nat} {c : Connection} {s : Bytes} {rc : Int}
    {pb : Pbuf} (hready : c.client.ready = true)
    (hq : incomingParse env.toIncomingEnv c.client s = .queued rc pb) : Routed.Ok ⟨pb, p, c⟩ := by
  obtain ⟨s, h, out, qc, cls, f, hp⟩ := queued_passage hq
  refine ⟨hready, classify_not_dupefeed hp.class_eq, fun hup => ?_⟩
  show pb.flags &&& fFromDownstr = 0
  rw [(hp.flags env.leaf_ok).flag_eq (by decide), classify_upstream hp.class_eq hup]
  unfold premarked
  split
  next => decide
  next => decide

/-- The dupecheck thread does not change where a packet came from. -/
theorem drainPacket_downstr (env : DrainEnv) (tick : Int) (pb : Pbuf) (s : DrainDbs) :
    (drainPacket env tick pb s).1.2.flags &&& fFromDownstr = pb.flags &&& fFromDownstr := by
  have hpost : ∀ (h : Historydb) (pb : Pbuf),
      (filterPostprocessDupefilter env.history tick h pb).flags &&& fFromDownstr =
        pb.flags &&& fFromDownstr := by
    intro h pb
    obtain ⟨flags, position, heq, hroute⟩ := filterPostprocessDupefilter_eq env.history tick h pb
    rw [heq]
    exact hroute.flag_eq (by decide)
  simp only [drainPacket]
  split
  next =>
    split
    next => exact hpost _ pb
    next => rfl
  next =>
    split
    next hrc =>
      rw [hpost, markedDupe, if_pos hrc]
      show (pb.flags ||| fDupe) &&& fFromDownstr = _
      apply UInt16.toBitVec_inj.mp
      simp only [UInt16.toBitVec_and, UInt16.toBitVec_or]
      rw [BitVec.and_or_distrib_right]
      exact BitVec.or_zero
    next => rfl

/-! ## Steps that write nothing -/

namespace Net

/-- Nothing was added, and packets are where they were. -/
structure Shrinks (n n' : Net) : Prop where
  conns : ∀ p c, n'.conns p = some c → n.conns p = some c
  count : n'.count = n.count
  queued : n'.queued = n.queued
  global : n'.global = n.global

theorem Shrinks.refl (n : Net) : n.Shrinks n := ⟨fun _ _ h => h, rfl, rfl, rfl⟩

theorem Shrinks.trans {n n' n'' : Net} (h : n.Shrinks n') (h' : n'.Shrinks n'') :
    n.Shrinks n'' :=
  ⟨fun p c hc => h.conns p c (h'.conns p c hc), h'.count.trans h.count,
    h'.queued.trans h.queued, h'.global.trans h.global⟩

theorem Shrinks.originOk {n n' : Net} {r : Routed} (h : n.Shrinks n') (hr : r.OriginOk n) :
    r.OriginOk n' :=
  ⟨h.count ▸ hr.1, fun p c hc hnum => hr.2 p c (h.conns p c hc) hnum⟩

theorem conns_close {n : Net} {p q : Nat} {c : Connection} (h : (n.close p).conns q = some c) :
    q ≠ p ∧ n.conns q = some c := by
  simp only [close, Function.update_apply] at h
  split at h
  next => cases h
  next hne => exact ⟨hne, h⟩

theorem close_shrinks (n : Net) (p : Nat) : n.Shrinks (n.close p) :=
  ⟨fun _ _ h => (conns_close h).2, rfl, rfl, rfl⟩

/-- The clients after one of them was set. -/
theorem conns_update {conns : Nat → Option Connection} {p q : Nat} {c d : Connection}
    (h : Function.update conns p (some c) q = some d) : q = p ∧ d = c ∨ conns q = some d := by
  rw [Function.update_apply] at h
  split at h
  next heq => exact .inl ⟨heq, (Option.some.inj h).symm⟩
  next => exact .inr h

namespace Inv

variable {n : Net}

theorem close (h : n.Inv) (p : Nat) : (n.close p).Inv where
  lists := by
    intro w k q hq
    simp only [Net.close, List.mem_filter, decide_eq_true_eq] at hq
    obtain ⟨c, hc, hclass⟩ := h.lists w k q hq.1
    refine ⟨c, ?_, hclass⟩
    simp only [Net.close, Function.update_apply]
    rw [if_neg hq.2]
    exact hc
  numbers := fun q c hc => h.numbers q c (conns_close hc).2
  distinct := fun q q' c d hc hd => h.distinct q q' c d (conns_close hc).2 (conns_close hd).2
  queued := fun r hr => ⟨(h.queued r hr).1, (n.close_shrinks p).originOk (h.queued r hr).2⟩
  global := fun r hr => ⟨(h.global r hr).1, (n.close_shrinks p).originOk (h.global r hr).2⟩
  sent := h.sent

theorem classify (h : n.Inv) {p : Nat} {c : Connection} (hc : n.conns p = some c)
    (hready : c.client.ready = true) : (n.classify p c).Inv := by
  unfold Net.classify
  cases hclass : workerClassifyClient c.client with
  | none => exact h
  | some cls =>
    refine ⟨?_, h.numbers, h.distinct, h.queued, h.global, h.sent⟩
    intro w k q hq
    simp only at hq
    split at hq
    next hself =>
      cases List.mem_cons.mp hq with
      | inl heq =>
        subst heq
        exact ⟨c, hc, hready, hself.2 ▸ hclass⟩
      | inr hq => exact h.lists w k q hq
    next => exact h.lists w k q hq

/-- A client gets an address that is free. -/
theorem connect (h : n.Inv) {p : Nat} (hfree : n.conns p = none) (client : Client) (noTx : Bool)
    (w : Nat) :
    Inv { n with
      conns := Function.update n.conns p (some ⟨client, noTx, w, n.count⟩)
      count := n.count + 1 } := by
  have horigin : ∀ r : Routed, r.OriginOk n → r.OriginOk { n with
      conns := Function.update n.conns p (some ⟨client, noTx, w, n.count⟩)
      count := n.count + 1 } := by
    intro r hr
    refine ⟨Nat.lt_succ_of_lt hr.1, fun q c hc hnum => ?_⟩
    cases conns_update hc with
    | inl hself =>
      -- the number is new
      have := hr.1
      rw [hself.2] at hnum
      simp only at hnum
      omega
    | inr hold => exact hr.2 q c hold hnum
  refine ⟨?_, ?_, ?_, fun r hr => ⟨(h.queued r hr).1, horigin r (h.queued r hr).2⟩,
    fun r hr => ⟨(h.global r hr).1, horigin r (h.global r hr).2⟩, h.sent⟩
  · intro w' k q hq
    obtain ⟨c, hc, hclass⟩ := h.lists w' k q hq
    refine ⟨c, ?_, hclass⟩
    have hne : q ≠ p := by
      intro heq
      rw [heq, hfree] at hc
      cases hc
    simp only [Function.update_apply]
    rw [if_neg hne]
    exact hc
  · intro q c hc
    cases conns_update hc with
    | inl hself =>
      rw [hself.2]
      exact Nat.lt_succ_self _
    | inr hold => exact Nat.lt_succ_of_lt (h.numbers q c hold)
  · intro q q' c d hc hd hnum
    cases conns_update hc with
    | inl hself =>
      cases conns_update hd with
      | inl hself' => rw [hself.1, hself'.1]
      | inr hold' =>
        have := h.numbers q' d hold'
        rw [hself.2] at hnum
        simp only at hnum
        omega
    | inr hold =>
      cases conns_update hd with
      | inl hself' =>
        have := h.numbers q c hold
        rw [hself'.2] at hnum
        simp only at hnum
        omega
      | inr hold' => exact h.distinct q q' c d hold hold' hnum

/-- A login keeps the number of the connection. The client was in no list, and has queued
no packet. -/
theorem markConnected (h : n.Inv) {p : Nat} {c : Connection} {client : Client} (hc : n.conns p = some c)
    (hlogin : c.client.ready = false) (hstate : client.state = .connected) (noTx : Bool) :
    (n.markConnected p c client noTx).Inv := by
  have horigin : ∀ r : Routed, r.Ok → r.OriginOk n → r.OriginOk { n with
      conns := Function.update n.conns p (some { c with client := client, noTx := noTx }) } := by
    intro r hok hr
    refine ⟨hr.1, fun q d hd hnum => ?_⟩
    cases conns_update hd with
    | inl hself =>
      rw [hself.2] at hnum
      have hsame := (hr.2 p c hc hnum).2
      rw [hsame, hok.ready] at hlogin
      cases hlogin
    | inr hold => exact hr.2 q d hold hnum
  have hinv : Inv { n with
      conns := Function.update n.conns p (some { c with client := client, noTx := noTx }) } := by
    refine ⟨?_, ?_, ?_, ?_, ?_, h.sent⟩
    · intro w k q hq
      obtain ⟨d, hd, hready, hclass⟩ := h.lists w k q hq
      refine ⟨d, ?_, hready, hclass⟩
      have hne : q ≠ p := by
        intro heq
        rw [heq, hc] at hd
        cases hd
        rw [hlogin] at hready
        cases hready
      simp only [Function.update_apply]
      rw [if_neg hne]
      exact hd
    · intro q d hd
      cases conns_update hd with
      | inl hself =>
        rw [hself.2]
        exact h.numbers p c hc
      | inr hold => exact h.numbers q d hold
    · intro q q' d d' hd hd' hnum
      have hold : ∀ q d,
          Function.update n.conns p (some { c with client := client, noTx := noTx }) q = some d →
          ∃ d₀, n.conns q = some d₀ ∧ d₀.number = d.number := by
        intro q d hd
        cases conns_update hd with
        | inl hself =>
          rw [hself.1, hself.2]
          exact ⟨c, hc, rfl⟩
        | inr hold => exact ⟨d, hold, rfl⟩
      obtain ⟨d₀, hd₀, hnum₀⟩ := hold q d hd
      obtain ⟨d₁, hd₁, hnum₁⟩ := hold q' d' hd'
      exact h.distinct q q' d₀ d₁ hd₀ hd₁ (by omega)
    · exact fun r hr => ⟨(h.queued r hr).1, horigin r (h.queued r hr).1 (h.queued r hr).2⟩
    · exact fun r hr => ⟨(h.global r hr).1, horigin r (h.global r hr).1 (h.global r hr).2⟩
  exact hinv.classify (by simp) (by simp [Client.ready, hstate])

theorem line (h : n.Inv) {p : Nat} {c : Connection} {pb : Pbuf} (hc : n.conns p = some c)
    (hok : Routed.Ok ⟨pb, p, c⟩) : Inv { n with queued := n.queued ++ [⟨pb, p, c⟩] } := by
  refine ⟨h.lists, h.numbers, h.distinct, ?_, h.global, h.sent⟩
  intro r hr
  rw [List.mem_append, List.mem_singleton] at hr
  cases hr with
  | inl hold => exact h.queued r hold
  | inr hself =>
    subst hself
    refine ⟨hok, h.numbers p c hc, fun q d hd hnum => ?_⟩
    have heq := h.distinct q p d c hd hc hnum
    subst heq
    rw [hc] at hd
    cases hd
    exact ⟨rfl, rfl⟩

theorem drain (h : n.Inv) {i : Nat} {r : Routed} (hr : n.queued[i]? = some r) (env : DrainEnv)
    (tick : Int) :
    Inv { n with
      queued := n.queued.eraseIdx i
      global := n.global ++ [{ r with pb := (drainPacket env tick r.pb n.dbs).1.2 }]
      dbs := (drainPacket env tick r.pb n.dbs).2 } := by
  refine ⟨h.lists, h.numbers, h.distinct, fun r' hr' => h.queued r' (List.mem_of_mem_eraseIdx hr'),
    ?_, h.sent⟩
  intro r' hr'
  rw [List.mem_append, List.mem_singleton] at hr'
  cases hr' with
  | inl hold => exact h.global r' hold
  | inr hself =>
    subst hself
    obtain ⟨hok, horigin⟩ := h.queued r (List.mem_of_getElem? hr)
    exact ⟨⟨hok.ready, hok.not_dupefeed, fun hup => by
      rw [drainPacket_downstr]
      exact hok.upstream hup⟩, horigin⟩

end Inv

/-! ## Steps that write -/

section

variable {n : Net} {r : Routed} {data : Bytes} (lost : Nat → Bool)

theorem Inv.sendSingle (h : n.Inv) (p : Nat) {c : Connection} (hok : Sending.Ok ⟨r, c, data⟩) :
    (n.sendSingle lost r data p c).Inv ∧ n.Shrinks (n.sendSingle lost r data p c) := by
  have hinv : Inv { n with sent := n.sent ++ [⟨r, c, data⟩] } := by
    refine ⟨h.lists, h.numbers, h.distinct, h.queued, h.global, fun s hs => ?_⟩
    rw [List.mem_append, List.mem_singleton] at hs
    cases hs with
    | inl hold => exact h.sent s hold
    | inr hself => exact hself ▸ hok
  have hshrinks : n.Shrinks { n with sent := n.sent ++ [⟨r, c, data⟩] } :=
    ⟨fun _ _ h => h, rfl, rfl, rfl⟩
  unfold Net.sendSingle
  simp only
  split
  next => exact ⟨hinv.close p, hshrinks.trans (close_shrinks _ p)⟩
  next => exact ⟨hinv, hshrinks⟩

/-- A loop over a list of clients, each of which may be sent the packet if it wants it. -/
theorem Inv.sendLoop (wanted : Nat → Connection → Bool) (ps : List Nat) (h : n.Inv)
    (hps : ∀ p ∈ ps, ∀ c, n.conns p = some c → wanted p c = true → Sending.Ok ⟨r, c, data⟩) :
    (n.sendLoop lost wanted r data ps).Inv ∧ n.Shrinks (n.sendLoop lost wanted r data ps) := by
  induction ps generalizing n with
  | nil => exact ⟨h, .refl n⟩
  | cons p ps ih =>
    simp only [Net.sendLoop]
    have hrest : ∀ n', n.Shrinks n' → ∀ q ∈ ps, ∀ c, n'.conns q = some c → wanted q c = true →
        Sending.Ok ⟨r, c, data⟩ :=
      fun n' hn' q hq c hc => hps q (List.mem_cons_of_mem p hq) c (hn'.conns q c hc)
    cases hc : n.conns p with
    | none => exact ih h (hrest n (.refl n))
    | some c =>
      simp only
      split
      next hwanted =>
        obtain ⟨hinv, hshrinks⟩ := h.sendSingle lost p (hps p List.mem_cons_self c hc hwanted)
        obtain ⟨hinv', hshrinks'⟩ := ih hinv (hrest _ hshrinks)
        exact ⟨hinv', hshrinks.trans hshrinks'⟩
      next => exact ih h (hrest n (.refl n))

/-- A client that is not the origin of a packet is on another connection. -/
theorem ne_of_ne_origin (hr : r.OriginOk n) {p : Nat} {c : Connection} (hc : n.conns p = some c)
    (hne : p ≠ r.origin) : c.number ≠ r.sender.number :=
  fun hnum => hne (hr.2 p c hc hnum).1

/-- Duplicates go to dupefeed clients, which have sent none of them. -/
theorem dupe_ok (h : n.Inv) (hok : r.Ok) (hr : r.OriginOk n) {w p : Nat} {c : Connection}
    (hp : p ∈ n.classes w .dupe) (hc : n.conns p = some c) :
    Sending.Ok ⟨r, c, dupTab ++ r.pb.data.take r.pb.packetLen⟩ := by
  obtain ⟨d, hd, hready, hclass⟩ := h.lists w .dupe p hp
  rw [hc] at hd
  cases hd
  refine ⟨fun _ => ?_, fun hnum => ?_, fun hro => ?_, fun _ => ⟨hclass, rfl⟩⟩
  · cases hup : c.client.upstream with
    | false => rfl
    | true =>
      unfold workerClassifyClient at hclass
      rw [hup] at hclass
      split at hclass <;> cases hclass
  · have hsame := (hr.2 p c hc hnum).2
    exact hok.not_dupefeed (hsame ▸ hclass)
  · rw [hclass] at hro
    cases hro

/-- Packets from downstream go upstream. -/
theorem ups_ok (h : n.Inv) (hok : r.Ok) (hr : r.OriginOk n) (hdupe : r.pb.isDupe = false)
    (hdown : r.pb.flags &&& fFromDownstr ≠ 0) {w p : Nat} {c : Connection}
    (hp : p ∈ n.classes w .ups) (hc : n.conns p = some c) (hne : p ≠ r.origin) :
    Sending.Ok ⟨r, c, data⟩ := by
  obtain ⟨d, hd, -, hclass⟩ := h.lists w .ups p hp
  rw [hc] at hd
  cases hd
  refine ⟨fun hup => absurd (hok.upstream hup) hdown, ne_of_ne_origin hr hc hne, fun hro => ?_,
    fun h => ?_⟩
  · rw [hclass] at hro
    cases hro
  · rw [hdupe] at h
    cases h

/-- All packets go to the other clients, but not to where they came from. -/
theorem other_ok (h : n.Inv) (hr : r.OriginOk n) (hdupe : r.pb.isDupe = false) {w p : Nat}
    {c : Connection} (hp : p ∈ n.classes w .other) (hc : n.conns p = some c) (hne : p ≠ r.origin) :
    Sending.Ok ⟨r, c, data⟩ := by
  obtain ⟨d, hd, -, hclass⟩ := h.lists w .other p hp
  rw [hc] at hd
  cases hd
  refine ⟨fun _ => ?_, ne_of_ne_origin hr hc hne, fun hro => ?_, fun h => ?_⟩
  · cases hup : c.client.upstream with
    | false => rfl
    | true =>
      unfold workerClassifyClient at hclass
      rw [hup] at hclass
      split at hclass <;> cases hclass
  · rw [hclass] at hro
    cases hro
  · rw [hdupe] at h
    cases h

theorem Inv.processOutgoingSingle {filterProcess : Nat → Bool} (h : n.Inv) (w : Nat)
    (hr : r ∈ n.global) : (n.processOutgoingSingle lost filterProcess w r).Inv := by
  obtain ⟨hok, horigin⟩ := h.global r hr
  unfold Net.processOutgoingSingle
  split
  next => exact (h.sendLoop lost _ _ fun p hp c hc _ => dupe_ok h hok horigin hp hc).1
  next hdupe =>
    have hdupe : r.pb.isDupe = false := by simpa using hdupe
    have hother : ∀ {n' : Net}, n'.Inv → r.OriginOk n' →
        (n'.sendLoop lost (otherWanted filterProcess r.origin) r
          (r.pb.data.take r.pb.packetLen) (n'.classes w .other)).Inv := by
      intro n' h' horigin'
      refine (h'.sendLoop lost _ _ fun p hp c hc hwanted => other_ok h' horigin' hdupe hp hc ?_).1
      simp only [otherWanted, Bool.and_eq_true, bne_iff_ne] at hwanted
      exact hwanted.1.2
    simp only
    split
    next hdown =>
      have hups : ∀ p ∈ n.classes w .ups, ∀ c, n.conns p = some c → (p != r.origin) = true →
          Sending.Ok ⟨r, c, r.pb.data.take r.pb.packetLen⟩ :=
        fun p hp c hc hne => ups_ok h hok horigin hdupe hdown hp hc (by simpa using hne)
      obtain ⟨hinv, hshrinks⟩ := h.sendLoop lost (fun p _ => p != r.origin) _ hups
      exact hother hinv (hshrinks.originOk horigin)
    next => exact hother h horigin

end

end Net

/-! ## Every run -/

theorem Net.Inv.step {n : Net} (h : n.Inv) (act : NetAction) : (n.step act).Inv := by
  cases act with
  | collect p client noTx w =>
    simp only [Net.step]
    split
    next hfree =>
      have hinv := h.connect hfree client noTx w
      simp only [Net.collect]
      split
      next hready => exact hinv.classify (by simp) hready
      next => exact hinv
    next => exact h
  | pseudoclient p client =>
    simp only [Net.step]
    split
    next hfree => exact h.connect hfree client false 0
    next => exact h
  | markConnected p client noTx =>
    simp only [Net.step]
    split
    next c hc =>
      split
      next hlogin => exact h.markConnected hc hlogin.1 hlogin.2.2 noTx
      next => exact h
    next => exact h
  | close p => exact h.close p
  | line p env s =>
    simp only [Net.step]
    split
    next c hc =>
      split
      next hready =>
        split
        next rc pb hq => exact h.line hc (.of_queued hready hq)
        next => exact h
      next => exact h
    next => exact h
  | drain env tick i =>
    simp only [Net.step]
    split
    next r hr => exact h.drain hr env tick
    next => exact h
  | outgoing w i tick lost filterProcess =>
    simp only [Net.step]
    split
    next r hr =>
      split
      next => exact h.processOutgoingSingle _ w (List.mem_of_getElem? hr)
      next => exact h
    next => exact h

theorem Net.run_inv (acts : List NetAction) : (Net.run acts).Inv := by
  have hrun : ∀ (acts : List NetAction) (n : Net), n.Inv → (acts.foldl Net.step n).Inv := by
    intro acts
    induction acts with
    | nil => exact fun n h => h
    | cons act acts ih => exact fun n h => ih _ (h.step act)
  exact hrun acts .init .init

/-- In every run, a packet from upstream is not written to anyone upstream, no packet is
written to the connection it came from or to a read-only client, a duplicate is written only
to dupefeed clients and with its prefix, and no packet of a dupefeed client is queued. -/
theorem no_transit_no_echo (acts : List NetAction) :
    (∀ s ∈ (Net.run acts).sent,
      (s.packet.sender.client.upstream = true → s.target.client.upstream = false) ∧
      s.target.number ≠ s.packet.sender.number ∧
      workerClassifyClient s.target.client ≠ some .ro ∧
      (s.packet.pb.isDupe = true → workerClassifyClient s.target.client = some .dupe ∧
        s.data = Net.dupTab ++ s.packet.pb.data.take s.packet.pb.packetLen)) ∧
    ∀ r ∈ (Net.run acts).queued ++ (Net.run acts).global,
      workerClassifyClient r.sender.client ≠ some .dupe := by
  have hinv := Net.run_inv acts
  refine ⟨fun s hs => ?_, fun r hr => ?_⟩
  · obtain ⟨htransit, hecho, hro, hdupe⟩ := hinv.sent s hs
    exact ⟨htransit, hecho, hro, hdupe⟩
  · cases List.mem_append.mp hr with
    | inl hqueued => exact (hinv.queued r hqueued).1.not_dupefeed
    | inr hglobal => exact (hinv.global r hglobal).1.not_dupefeed

/-- A server without any restriction. -/
private def transitEnv : LineEnv := .unrestricted

/-- A client that has logged in, with the given flags and name. -/
private def transitClient (flags : UInt32) (hup : flags &&& clflagsUplinkport = 0) : Client :=
  .onPort flags true hup

/-- An uplink. -/
private def transitUplink : Client where
  state := .connected
  flags := clflagsUplinkport
  validated := true
  username := ascii "T2XYZ"
  addrHex := ascii "C0A80001"
  quirksMode := false
  username_no_nul := by decide
  username_fits := by decide
  username_valid := by decide
  addrHex_valid := by decide
  addrHex_length := by decide

private def transitDrain : DrainEnv where
  dupe := ⟨30, fun _ => true⟩
  history := ⟨3600, fun _ => true⟩
  haveFilteredListeners := false

/-- A client on a full feed and an uplink connect, the client sends a packet, and worker 0
comes to it. -/
private def transitActions : List NetAction :=
  [.collect 100 (transitClient (clflagsInport ||| clflagsFullfeed) (by decide)) false 0,
   .collect 200 transitUplink false 0,
   .line 100 transitEnv (ascii "OH7AA>APRS,TCPIP*:>t"),
   .drain transitDrain 0 0,
   .outgoing 0 0 1 (fun _ => false) fun _ => true]

/-- A packet from a client goes to the uplink. -/
theorem packet_goes_upstream :
    (Net.run transitActions).sent.map (·.target.number) = [1] ∧
      ∀ s ∈ (Net.run transitActions).sent, s.target.number ≠ s.packet.sender.number := by
  refine ⟨by decide, fun s hs => ?_⟩
  exact ((no_transit_no_echo transitActions).1 s hs).2.1

end Aprsc
