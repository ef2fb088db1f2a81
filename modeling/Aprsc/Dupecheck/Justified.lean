-- SUMMARY: The loop of the dupecheck thread over packets, and when the packet that suppresses another was itself sent.
import Aprsc.Dupecheck.Exact
import Aprsc.Historydb
import Aprsc.ParseAprs.Flags
import Aprsc.Pipeline.Machine

/-!
# Justified suppression

`dupecheck_drain_worker` checks each packet, puts those that are not duplicates into the
history database, and sorts them into two lists. A packet that `incoming_parse` has marked
as a duplicate already is checked, and recorded, like any other.
-/

namespace Aprsc

/-! ## The drain loop -/

/-- What the dupecheck thread reads from outside. -/
structure DrainEnv where
  dupe : DupecheckEnv
  history : HistorydbEnv
  haveFilteredListeners : Bool

/-- The databases of the dupecheck thread. -/
structure DrainDbs where
  dupe : DupecheckDb
  history : Historydb

/-- The flags of a packet, as `dupecheck` leaves them. -/
def markedDupe (rc : Int) (pb : Pbuf) : Pbuf :=
  if rc = rcDupe then { pb with flags := pb.flags ||| fDupe } else pb

/-- One turn of the loop of `dupecheck_drain_worker`: the list that the packet goes to, the
packet, and the databases. -/
def drainPacket (env : DrainEnv) (tick : Int) (pb : Pbuf) (s : DrainDbs) :
    (Lane × Pbuf) × DrainDbs :=
  let (rc, dupe) := dupecheck env.dupe tick pb s.dupe
  if rc = 0 then
    if env.haveFilteredListeners then
      let history := historydbInsert env.history tick pb s.history
      ((.main, filterPostprocessDupefilter env.history tick history pb), ⟨dupe, history⟩)
    else ((.main, pb), ⟨dupe, s.history⟩)
  else if rc = rcDupe then
    ((.dupe, filterPostprocessDupefilter env.history tick s.history (markedDupe rc pb)),
      ⟨dupe, s.history⟩)
  else ((.dupe, pb), ⟨dupe, s.history⟩)

/-- A packet that was handed to the workers, and when. -/
structure Drained where
  tick : Int
  lane : Lane
  pb : Pbuf
deriving Repr, DecidableEq

/-- What the dupecheck thread and the cleanup do with the databases. -/
inductive DrainCall where
  | packet (pb : Pbuf)
  | dupecheckCleanup
  | historydbCleanup

/-- A run so far: the databases, and the packets handed to the workers. -/
structure DrainRun where
  dbs : DrainDbs
  out : List Drained

/-- One call at a tick. -/
def DrainRun.step (env : DrainEnv) (r : DrainRun) (c : Int × DrainCall) : DrainRun :=
  match c.2 with
  | .packet pb =>
      let d := drainPacket env c.1 pb r.dbs
      ⟨d.2, r.out ++ [⟨c.1, d.1.1, d.1.2⟩]⟩
  | .dupecheckCleanup =>
      { r with dbs := { r.dbs with dupe := dupecheckCleanup env.dupe c.1 r.dbs.dupe } }
  | .historydbCleanup =>
      { r with dbs := { r.dbs with history := historydbCleanup env.history c.1 r.dbs.history } }

/-- Run a sequence of calls from empty databases. -/
def runDrain (env : DrainEnv) (calls : List (Int × DrainCall)) : DrainRun :=
  calls.foldl (DrainRun.step env) ⟨⟨.init, .init⟩, []⟩

/-! ## Records come from packets that passed -/

/-- The record that makes a packet a duplicate. -/
def matchingRecord (env : DupecheckEnv) (tick : Int) (pb : Pbuf) (s : DupecheckDb) :
    Option DupeRecord :=
  let hash := keyhash pb.info (keyhash pb.addr 0)
  (s.db (dupecheckIndex hash)).find? fun dp =>
    dp.hash = hash ∧ tick - env.dupefilterStoretime ≤ dp.t ∧ dp.packet = pb.addr ++ pb.info

/-- A record is one of the old ones, or was stored at `tick` for a packet with key `ib`. -/
def NewOrOld (s : DupecheckDb) (tick : Int) (ib : Bytes) (s' : DupecheckDb) : Prop :=
  ∀ i, ∀ dp ∈ s'.db i, dp ∈ s.db i ∨ StoredKey ib dp.packet ∧ dp.t = tick

namespace NewOrOld

variable {s s' s'' : DupecheckDb} {tick : Int} {ib : Bytes}

theorem refl (s : DupecheckDb) (tick : Int) (ib : Bytes) : NewOrOld s tick ib s :=
  fun _ _ h => .inl h

theorem of_db_eq (h : s'.db = s.db) : NewOrOld s tick ib s' := by
  intro i dp hdp
  rw [h] at hdp
  exact .inl hdp

theorem trans (h : NewOrOld s tick ib s') (h' : NewOrOld s' tick ib s'') :
    NewOrOld s tick ib s'' := by
  intro i dp hdp
  cases h' i dp hdp with
  | inl hold => exact h i dp hold
  | inr hnew => exact .inr hnew

theorem setBucket {i : Nat} {chain : List DupeRecord}
    (h : ∀ dp ∈ chain, dp ∈ s.db i ∨ StoredKey ib dp.packet ∧ dp.t = tick) :
    NewOrOld s tick ib (s.setBucket i chain) := by
  intro j dp hdp
  simp only [DupecheckDb.setBucket] at hdp
  split at hdp
  next hj => exact hj ▸ h dp hdp
  next => exact .inl hdp

end NewOrOld

section

variable (env : DupecheckEnv) (tick : Int)

/-- A new record is stored, or there is no memory for it. -/
theorem dupecheckLink_newOrOld (i : Nat) (dp : DupeRecord) (s : DupecheckDb) {ib : Bytes}
    (hkey : StoredKey ib dp.packet) (ht : dp.t = tick) :
    NewOrOld s tick ib (dupecheckLink env i dp s).2 := by
  have halloc : (dupecheckDbAlloc env s).2.db = s.db := by
    unfold dupecheckDbAlloc
    split
    next => rfl
    next => split <;> rfl
  simp only [dupecheckLink]
  split
  next =>
    refine (NewOrOld.of_db_eq halloc).trans (.setBucket fun dp' hdp' => ?_)
    rw [List.mem_append, List.mem_singleton] at hdp'
    cases hdp' with
    | inl hold => exact .inl hold
    | inr hself =>
      subst hself
      exact .inr ⟨hkey, ht⟩
  next => exact .of_db_eq halloc

theorem dupecheckAddBuf_newOrOld (k : Bytes) (dtype : Nat) (s : DupecheckDb) {ib : Bytes}
    (hkey : StoredKey ib k) : NewOrOld s tick ib (dupecheckAddBuf env tick k dtype s) := by
  simp only [dupecheckAddBuf]
  split
  next chain hrefresh =>
    obtain ⟨pre, d, post, hhash, hpacket, hold, rfl⟩ := refreshRecord_eq_some hrefresh
    refine .setBucket fun dp hdp => ?_
    rw [hold]
    simp only [List.mem_append, List.mem_cons] at hdp ⊢
    cases hdp with
    | inl hpre => exact .inl (.inl hpre)
    | inr hrest =>
      cases hrest with
      | inl hself =>
        subst hself
        exact .inr ⟨hpacket ▸ hkey, rfl⟩
      | inr hpost => exact .inl (.inr (.inr hpost))
  next => exact dupecheckLink_newOrOld env tick _ _ s hkey rfl

theorem dupecheckMangleStore_newOrOld (addr data : Bytes) (s : DupecheckDb) :
    NewOrOld s tick (addr ++ data) (dupecheckMangleStore env tick addr data s) := by
  have hfold : ∀ (vs : List (Bytes × Nat)) (s : DupecheckDb),
      (∀ v ∈ vs, StoredKey (addr ++ data) v.1) →
      NewOrOld s tick (addr ++ data)
        (vs.foldl (fun s v => dupecheckAddBuf env tick v.1 v.2 s) s) := by
    intro vs
    induction vs with
    | nil => exact fun s _ => .refl s tick _
    | cons v vs ih =>
      intro s hvs
      exact (dupecheckAddBuf_newOrOld env tick v.1 v.2 s (hvs v List.mem_cons_self)).trans
        (ih _ fun w hw => hvs w (List.mem_cons_of_mem v hw))
  simp only [dupecheckMangleStore]
  split
  next => exact .refl s tick _
  next hlen =>
    refine hfold _ s fun v hv => ?_
    have hvariant := mem_mangledVariants_iff.mp (.inr ⟨v.2, hv⟩)
    exact hvariant.imp id fun h => ⟨by omega, h⟩

/-- What a check does, with and without memory: a packet that matches a record is a
duplicate, and the records stay as they are. Else the packet is stored and passes, or the
records stay as they are. -/
theorem dupecheck_outcome (pb : Pbuf) (s : DupecheckDb) :
    ((matchingRecord env tick pb s).isSome = true ∧ (dupecheck env tick pb s).1 = rcDupe ∧
        (dupecheck env tick pb s).2.db = s.db) ∨
      (matchingRecord env tick pb s = none ∧ (dupecheck env tick pb s).1 = 0 ∧
        NewOrOld s tick pb.key (dupecheck env tick pb s).2) ∨
      (matchingRecord env tick pb s = none ∧ (dupecheck env tick pb s).1 = -1 ∧
        (dupecheck env tick pb s).2.db = s.db) := by
  cases hmatch : matchingRecord env tick pb s with
  | some dp =>
    left
    simp only [matchingRecord] at hmatch
    simp only [dupecheck, hmatch]
    split
    next => exact ⟨rfl, rfl, rfl⟩
    next => exact ⟨rfl, rfl, rfl⟩
  | none =>
    right
    simp only [matchingRecord] at hmatch
    simp only [dupecheck, hmatch]
    have happend := dupecheckLink_newOrOld env tick
      (dupecheckIndex (keyhash pb.info (keyhash pb.addr 0)))
      ⟨keyhash pb.info (keyhash pb.addr 0), tick, 0, pb.addr ++ pb.info⟩ s (.inl rfl) rfl
    split
    next =>
      exact .inl ⟨trivial, rfl, happend.trans (dupecheckMangleStore_newOrOld env tick _ _ _)⟩
    next hfull =>
      refine .inr ⟨trivial, rfl, ?_⟩
      simp only [dupecheckAppend, dupecheckLink] at hfull ⊢
      split at hfull
      next => exact absurd rfl hfull
      next hnone =>
        rw [if_neg hnone]
        unfold dupecheckDbAlloc
        split
        next => rfl
        next => split <;> rfl

end

/-! ## Runs -/

/-- The packet comes marked as a duplicate. -/
def Pbuf.isDupe (pb : Pbuf) : Bool := pb.flags &&& fDupe != 0

/-- The thread that walks the histories changes nothing but a flag and the position. -/
theorem filterPostprocessDupefilter_eq (env : HistorydbEnv) (tick : Int) (s : Historydb) (pb : Pbuf) :
    ∃ flags position, filterPostprocessDupefilter env tick s pb =
      { pb with flags := flags, position := position } ∧ SameRoute pb.flags flags := by
  unfold filterPostprocessDupefilter
  split
  next =>
    split
    next hist _ => exact ⟨_, hist.position, rfl, .or_flag (by decide) _⟩
    next => exact ⟨_, pb.position, rfl, .refl _⟩
  next => exact ⟨_, pb.position, rfl, .refl _⟩

/-- What the loop does with a packet: it is a duplicate and nothing is recorded, or it
passes as it came and is recorded, or there is no memory. -/
theorem drainPacket_outcome (env : DrainEnv) (tick : Int) (pb : Pbuf) (s : DrainDbs) :
    let d := drainPacket env tick pb s
    d.1.2.key = pb.key ∧
      (((matchingRecord env.dupe tick pb s.dupe).isSome = true ∧ d.2.dupe.db = s.dupe.db ∧
          d.2.history = s.history) ∨
        (matchingRecord env.dupe tick pb s.dupe = none ∧ d.1.2.isDupe = pb.isDupe ∧
          NewOrOld s.dupe tick pb.key d.2.dupe)) := by
  have hflag : ∀ {flags flags' : UInt16}, SameRoute flags flags' →
      (flags' &&& fDupe != 0) = (flags &&& fDupe != 0) := by
    intro flags flags' h
    rw [h.flag_eq (by decide)]
  cases dupecheck_outcome env.dupe tick pb s.dupe with
  | inl hdupe =>
    obtain ⟨hmatch, hrc, hdb⟩ := hdupe
    obtain ⟨flags, position, heq, -⟩ := filterPostprocessDupefilter_eq env.history tick s.history
      (markedDupe rcDupe pb)
    simp only [drainPacket, hrc]
    rw [if_neg (by decide), if_pos trivial, heq]
    exact ⟨rfl, .inl ⟨hmatch, hdb, rfl⟩⟩
  | inr hrest =>
    cases hrest with
    | inl hpassed =>
      obtain ⟨hmatch, hrc, hnew⟩ := hpassed
      simp only [drainPacket, hrc, if_true]
      split
      next =>
        obtain ⟨flags, position, heq, hroute⟩ := filterPostprocessDupefilter_eq env.history tick
          (historydbInsert env.history tick pb s.history) pb
        rw [heq]
        exact ⟨rfl, .inr ⟨hmatch, hflag hroute, hnew⟩⟩
      next => exact ⟨rfl, .inr ⟨hmatch, rfl, hnew⟩⟩
    | inr hfull =>
      obtain ⟨hmatch, hrc, hdb⟩ := hfull
      simp only [drainPacket, hrc]
      rw [if_neg (by decide), if_neg (by decide)]
      exact ⟨rfl, .inr ⟨hmatch, rfl, .of_db_eq hdb⟩⟩

/-- Every record goes back to a packet that was handed to the workers as one that is not a
duplicate, at the time of the record. -/
def DrainRun.Justified (r : DrainRun) : Prop :=
  ∀ i, ∀ dp ∈ r.dbs.dupe.db i, ∃ d ∈ r.out, d.pb.isDupe = false ∧ d.tick = dp.t ∧
    StoredKey d.pb.key dp.packet

/-- A packet that comes marked as a duplicate meets a live record. -/
def MarkedIsRecorded (env : DrainEnv) (r : DrainRun) (c : Int × DrainCall) : Prop :=
  match c.2 with
  | .packet pb => pb.isDupe = true → (matchingRecord env.dupe c.1 pb r.dbs.dupe).isSome = true
  | _ => True

theorem DrainRun.Justified.step {env : DrainEnv} {r : DrainRun} (h : r.Justified)
    (c : Int × DrainCall) (hc : MarkedIsRecorded env r c) : (r.step env c).Justified := by
  obtain ⟨tick, call⟩ := c
  cases call with
  | dupecheckCleanup =>
    intro i dp hdp
    simp only [DrainRun.step, dupecheckCleanup, dupecheckDbFree] at hdp
    split at hdp
    next => exact h i dp (List.mem_filter.mp hdp).1
    next => exact h i dp hdp
  | historydbCleanup => exact h
  | packet pb =>
    obtain ⟨hkey, hout⟩ := drainPacket_outcome env tick pb r.dbs
    have hold : ∀ i, ∀ dp ∈ r.dbs.dupe.db i, ∃ d ∈ (r.step env (tick, .packet pb)).out,
        d.pb.isDupe = false ∧ d.tick = dp.t ∧ StoredKey d.pb.key dp.packet := by
      intro i dp hdp
      obtain ⟨d, hd, hjust⟩ := h i dp hdp
      exact ⟨d, List.mem_append_left _ hd, hjust⟩
    intro i dp hdp
    cases hout with
    | inl hdupe =>
      rw [show (r.step env (tick, .packet pb)).dbs.dupe.db = r.dbs.dupe.db from hdupe.2.1] at hdp
      exact hold i dp hdp
    | inr hpassed =>
      obtain ⟨hmatch, hflag, hnew⟩ := hpassed
      cases hnew i dp hdp with
      | inl hdp => exact hold i dp hdp
      | inr hself =>
        -- the packet passed, so it did not come marked
        have hunmarked : pb.isDupe = false := by
          cases hdupe : pb.isDupe with
          | false => rfl
          | true =>
            have := hc hdupe
            rw [hmatch] at this
            cases this
        refine ⟨⟨tick, (drainPacket env tick pb r.dbs).1.1, (drainPacket env tick pb r.dbs).1.2⟩,
          List.mem_append_right _ (List.mem_singleton.mpr rfl), hflag.trans hunmarked, hself.2.symm, ?_⟩
        rw [hkey]
        exact hself.1

theorem runDrain_snoc (env : DrainEnv) (cs : List (Int × DrainCall)) (c : Int × DrainCall) :
    runDrain env (cs ++ [c]) = (runDrain env cs).step env c := by
  simp only [runDrain, List.foldl_append, List.foldl_cons, List.foldl_nil]

/-- In a run, each call before which the marked packets are recorded ones. -/
def MarkedAreRecorded (env : DrainEnv) (calls : List (Int × DrainCall)) : Prop :=
  ∀ pre c post, calls = pre ++ c :: post → MarkedIsRecorded env (runDrain env pre) c

theorem MarkedAreRecorded.of_append {env : DrainEnv} {cs cs' : List (Int × DrainCall)}
    (h : MarkedAreRecorded env (cs ++ cs')) : MarkedAreRecorded env cs := by
  intro pre c post heq
  exact h pre c (post ++ cs') (by simp [heq])

theorem runDrain_justified {env : DrainEnv} {calls : List (Int × DrainCall)}
    (h : MarkedAreRecorded env calls) : (runDrain env calls).Justified := by
  induction calls using List.reverseRecOn with
  | nil =>
    intro i dp hdp
    cases hdp
  | append_singleton cs c ih =>
    rw [runDrain_snoc]
    exact (ih h.of_append).step c (h cs c [] rfl)

/-- What suppression should be, for one packet in a run: a packet is a duplicate only by
the record of one that was handed to the workers as one that is not, within the store time;
and a packet that comes marked leaves no trace in the databases. -/
def SuppressionJustified (env : DrainEnv) (tick : Int) (pb : Pbuf) (r : DrainRun) : Prop :=
  (∀ dp, matchingRecord env.dupe tick pb r.dbs.dupe = some dp →
      ∃ d ∈ r.out, d.pb.isDupe = false ∧ d.tick = dp.t ∧ StoredKey d.pb.key dp.packet ∧
        tick - env.dupe.dupefilterStoretime ≤ d.tick) ∧
    (pb.isDupe = true → (r.step env (tick, .packet pb)).dbs.dupe.db = r.dbs.dupe.db ∧
      (r.step env (tick, .packet pb)).dbs.history = r.dbs.history)

/-- In a run where every packet that comes marked as a duplicate meets a live record, each
suppression is justified. -/
theorem suppression_justified (env : DrainEnv) (calls : List (Int × DrainCall))
    (hmarked : MarkedAreRecorded env calls) :
    ∀ pre tick pb post, calls = pre ++ (tick, .packet pb) :: post →
      SuppressionJustified env tick pb (runDrain env pre) := by
  intro pre tick pb post heq
  subst heq
  constructor
  · intro dp hmatch
    obtain ⟨d, hd, hsent, htick, hkey⟩ := runDrain_justified hmarked.of_append _ dp
      (List.mem_of_find?_eq_some hmatch)
    refine ⟨d, hd, hsent, htick, hkey, ?_⟩
    have hlive := List.find?_some hmatch
    simp only [decide_eq_true_eq] at hlive
    rw [htick]
    exact hlive.2.1
  · intro hdupe
    have hrecorded := hmarked pre (tick, .packet pb) post rfl hdupe
    cases (drainPacket_outcome env tick pb (runDrain env pre).dbs).2 with
    | inl hsame => exact hsame.2
    | inr hpassed =>
      rw [hpassed.1] at hrecorded
      cases hrecorded

/-- The packet `A1A>B1B:text` with the given flags. -/
private def markedPacket (flags : UInt16) : Pbuf where
  data := ascii "A1A>B1B:text" ++ [0x0D, 0x0A]
  packetLen := 14
  packettype := tAll
  flags := flags
  srcname := 0
  srcnameLen := 3
  dstname := none
  dstnameLen := 0
  srccallEnd := 3
  dstcallEndOrSsid := 7
  dstcallEnd := 7
  dstcallLen := 3
  qconstStart := 7
  infoStart := 8
  t := 0

private def drainEnv : DrainEnv where
  dupe := ⟨30, fun _ => true⟩
  history := ⟨3600, fun _ => true⟩
  haveFilteredListeners := true

/-- A packet passes, and a marked copy of it from another connection is suppressed by it. -/
theorem marked_copy_suppressed :
    MarkedAreRecorded drainEnv [(10, .packet (markedPacket fFromDownstr)),
        (20, .packet (markedPacket (fFromDownstr ||| fDupe)))] ∧
      SuppressionJustified drainEnv 20 (markedPacket (fFromDownstr ||| fDupe))
        (runDrain drainEnv [(10, .packet (markedPacket fFromDownstr))]) := by
  have hmarked : MarkedAreRecorded drainEnv [(10, .packet (markedPacket fFromDownstr)),
      (20, .packet (markedPacket (fFromDownstr ||| fDupe)))] := by
    intro pre c post heq
    cases pre with
    | nil =>
      cases heq
      exact fun h => absurd h (by decide)
    | cons a pre =>
      cases pre with
      | nil =>
        cases heq
        exact fun _ => by decide
      | cons b pre => simp at heq
  exact ⟨hmarked, suppression_justified drainEnv _ hmarked [_] 20 _ [] rfl⟩

/-- The packet first comes marked, from another connection, and is sent to nobody. Then it
comes from its own station, and is suppressed. -/
theorem suppressed_by_marked_copy :
    ¬ SuppressionJustified drainEnv 20 (markedPacket fFromDownstr)
      (runDrain drainEnv [(10, .packet (markedPacket (fFromDownstr ||| fDupe)))]) := by
  intro h
  have hmatch : (matchingRecord drainEnv.dupe 20 (markedPacket fFromDownstr) (runDrain drainEnv
      [(10, .packet (markedPacket (fFromDownstr ||| fDupe)))]).dbs.dupe).isSome = true := by decide
  have hmarked : ∀ d ∈ (runDrain drainEnv
      [(10, .packet (markedPacket (fFromDownstr ||| fDupe)))]).out, d.pb.isDupe = true := by decide
  obtain ⟨dp, hdp⟩ := Option.isSome_iff_exists.mp hmatch
  obtain ⟨d, hd, hsent, -⟩ := h.1 dp hdp
  rw [hmarked d hd] at hsent
  cases hsent

end Aprsc
