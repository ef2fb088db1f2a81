-- SUMMARY: filter_process on igate ports: a courtesy packet goes to the station that is owed one, once, if each packet is named after its sender.
import Aprsc.Base.Dues
import Aprsc.Filter.Model
import Aprsc.Liveupgrade.HeardDump

/-!
# Courtesy positions

A client on an igate port gets the messages to the stations that were heard from it. So
that it can tell where a message came from, the next position of the sender is passed to
it as well. The sender is noted under its source callsign, but a position is looked up
under the name of what it is about. The two are the same if the packet is named after
its sender, and only then it is the sender who is served.
-/

namespace Aprsc

open Runs Dues

/-! ## Names and hashes of a packet -/

/-- The source callsign. -/
def Pbuf.srccall (pb : Pbuf) : Bytes := pb.data.take pb.srccallEnd

/-- `srcname`: the source callsign of the packet or of the third-party packet in it, or the
name of an object or an item. -/
def Pbuf.sourceName (pb : Pbuf) : Bytes := (pb.data.drop pb.srcname).take pb.srcnameLen

/-- `dstname`: the addressee of a message. -/
def Pbuf.destName (pb : Pbuf) : Bytes := (pb.data.drop (pb.dstname.getD 0)).take pb.dstnameLen

/-- The hashes that `filter_keyhashes` stores in the buffer. -/
def Pbuf.srccallHash (pb : Pbuf) : UInt32 := keyhashuc pb.srccall 0

def Pbuf.srcnameHash (pb : Pbuf) : UInt32 :=
  if pb.srcname = 0 then pb.srccallHash else keyhashuc pb.sourceName 0

def Pbuf.dstnameHash (pb : Pbuf) : UInt32 := if pb.dstname.isSome then keyhashuc pb.destName 0 else 0

/-- A packet in the queue of a worker. `incoming_parse` has checked its source callsign. -/
structure QueuedPacket extends FilterPacket where
  srccall_valid : checkInvalidSrcDst (data.take srccallEnd) = false
  /-- Only the source callsign starts where the packet does. -/
  srcname_eq : srcname = 0 → srcnameLen = srccallEnd

/-! ## filter_process -/

/-- What `filter_process` reads of a client besides its lists. -/
structure FilteredClient where
  /-- `CLFLAGS_IGATE`. -/
  igate : Bool
  username : Bytes
  chains : FilterChains
  warned : Bool

/-- The rule by which `filter_process` passes a packet, or what the filters say. -/
inductive Verdict where
  | message
  | courtesy
  | tcpip
  | filters (rc : Int)
deriving Repr, DecidableEq

/-- What `filter_process` returns. -/
def Verdict.rc : Verdict → Int
  | .filters rc => rc
  | _ => 1

/-- The entry that `heard_find` finds. -/
def heardFind (callsign : Bytes) (hash : UInt32) (l : HeardList) : Option ClientHeard :=
  (l.list (heardIndex hash)).find? (·.isCall hash callsign)

/-- `client_heard_check`. -/
def clientHeardCheck (callsign : Bytes) (hash : UInt32) (l : HeardList) : Bool :=
  (heardFind callsign hash l).isSome

/-- A message to the client or to a station that was heard from it. -/
def HeardState.messageFor (s : HeardState) (c : Nat) (client : FilteredClient) (pb : Pbuf) : Bool :=
  pb.packettype &&& tMessage != 0 &&
    (pb.destName == client.username || clientHeardCheck pb.destName pb.dstnameHash (s.heard c))

/-- The entry that `client_courtesy_needed` finds for a packet of these types. -/
def HeardState.courtesyEntry (s : HeardState) (c : Nat) (pb : Pbuf) : Option ClientHeard :=
  if pb.packettype &&& (tPosition ||| tObject ||| tItem) ≠ 0 then
    heardFind pb.sourceName pb.srcnameHash (s.courtesy c)
  else none

/-- A packet of a station that was heard from the client came over the Internet. -/
def HeardState.tcpipHeard (s : HeardState) (c : Nat) (pb : Pbuf) : Bool :=
  pb.flags &&& fHasTcpip != 0 && clientHeardCheck pb.srccall pb.srccallHash (s.heard c)

section
variable (env : FilterEnv) (printed : Int) (s : HeardState) (c : Nat) (client : FilteredClient)
  (pb : QueuedPacket)

/-- Which way `filter_process` takes. -/
def HeardState.verdict : Verdict :=
  let filters := Verdict.filters (filterProcess env pb.toFilterPacket printed client.warned client.chains)
  if client.igate then
    if s.messageFor c client pb.toPbuf then .message
    else if (s.courtesyEntry c pb.toPbuf).isSome then .courtesy
    else if s.tcpipHeard c pb.toPbuf then .tcpip
    else filters
  else filters

theorem length_le_of_checkInvalidSrcDst {call : Bytes} (h : checkInvalidSrcDst call = false) :
    call.length ≤ callsignlenMax := by
  unfold checkInvalidSrcDst at h
  split at h
  · cases h
  next hlen =>
    simp only [Bool.or_eq_true, decide_eq_true_eq, not_or, not_lt] at hlen
    exact hlen.2

/-- The source callsign is one for the lists. -/
def QueuedPacket.call : HeardCall where
  call := pb.srccall
  length_le := length_le_of_checkInvalidSrcDst pb.srccall_valid
  no_nul hmem := by
    obtain h | h := checkInvalidSrcDst_chars pb.srccall_valid hmem <;> simp [isalnum, ch] at h

/-- What `filter_process` does to the lists. -/
def HeardState.filterProcess (mmap : Bool) : HeardState :=
  match s.verdict env printed c client pb with
  | .message => s.step (.courtesyUpdate c pb.call pb.t mmap)
  | .courtesy => s.step (.courtesyNeeded c pb.sourceName pb.srcnameHash)
  | _ => s

end

/-! ## Runs -/

/-- What may happen to the lists of the clients: `filter_process` takes a packet to a
client, and the rest of the server calls the other operations. -/
inductive CourtesyEvent where
  /-- With what `client_printf` returns if it is called, and what `mmap` says. -/
  | filterProcess (c : Nat) (client : FilteredClient) (env : FilterEnv) (printed : Int)
      (pb : QueuedPacket) (mmap : Bool)
  | heardUpdate (c : Nat) (call : HeardCall) (t : Int) (mmap : Bool)
  | expire (c : Nat) (heardStoretime courtesyStoretime tick : Int)
  /-- The client is closed. -/
  | free (c : Nat)

/-- What has happened, as far as courtesy packets go. -/
inductive CourtesyMark where
  /-- A message of the sender was passed to the client. -/
  | message (c : Nat) (sender : Bytes)
  /-- A packet of the sender was passed as a courtesy packet, for the entry of `used`. -/
  | courtesy (c : Nat) (sender used : Bytes)
  | closed (c : Nat)
  | other
deriving Repr, DecidableEq

/-- The lists, and what has happened so far. -/
structure CourtesyRun where
  lists : HeardState
  marks : List CourtesyMark

def CourtesyRun.init : CourtesyRun := ⟨.init, []⟩

/-- The mark of an event. -/
def HeardState.courtesyMark (s : HeardState) : CourtesyEvent → CourtesyMark
  | .filterProcess c client env printed pb _ =>
      match s.verdict env printed c client pb with
      | .message => .message c pb.srccall
      | .courtesy => .courtesy c pb.srccall (((s.courtesyEntry c pb.toPbuf).map (·.call)).getD [])
      | _ => .other
  | .free c => .closed c
  | _ => .other

def HeardState.courtesyStep (s : HeardState) : CourtesyEvent → HeardState
  | .filterProcess c client env printed pb mmap => s.filterProcess env printed c client pb mmap
  | .heardUpdate c call t mmap => s.step (.heardUpdate c call t mmap)
  | .expire c heardStoretime courtesyStoretime tick =>
      s.step (.expire c heardStoretime courtesyStoretime tick)
  | .free c => s.step (.free c)

def CourtesyRun.step (r : CourtesyRun) (e : CourtesyEvent) : CourtesyRun :=
  ⟨r.lists.courtesyStep e, r.marks ++ [r.lists.courtesyMark e]⟩

/-! ## What courtesy is for -/

/-- A message of the station was passed to the client. -/
def CourtesyMark.isMessage (c : Nat) (station : Bytes) : CourtesyMark → Bool
  | .message c' sender => c' == c && caseEq sender station
  | _ => false

/-- A packet of the station was passed to the client as a courtesy packet. -/
def CourtesyMark.isCourtesy (c : Nat) (station : Bytes) : CourtesyMark → Bool
  | .courtesy c' sender _ => c' == c && caseEq sender station
  | _ => false

/-- Courtesy packets go to the right station, once. -/
structure CourtesyRun.Proper (r : CourtesyRun) : Prop where
  /-- Before a courtesy packet a message of its sender was passed to the client, which has not
  been closed since, and no other courtesy packet of the sender was passed since. -/
  earlier : ∀ before c sender used after, r.marks = before ++ .courtesy c sender used :: after →
    ∃ first m last, before = first ++ m :: last ∧ m.isMessage c sender = true ∧
      ∀ x ∈ last, x.isCourtesy c sender = false ∧ x ≠ .closed c
  /-- A message leads to one courtesy packet at most. -/
  once : ∀ c station,
    r.marks.countP (·.isCourtesy c station) ≤ r.marks.countP (·.isMessage c station)
  /-- A courtesy packet uses up the courtesy of its sender and not that of another station. -/
  own : ∀ c sender used, .courtesy c sender used ∈ r.marks → caseEq used sender = true

/-- If the packet gets as far as the courtesy rule of an igate port, and the courtesy list
has an entry for its name, then it is named after its sender. -/
def CourtesyRun.NamesSender (r : CourtesyRun) : CourtesyEvent → Prop
  | .filterProcess c client _ _ pb _ =>
      client.igate = true → r.lists.messageFor c client pb.toPbuf = false →
        pb.packettype &&& (tPosition ||| tObject ||| tItem) ≠ 0 →
          (∃ call ∈ (r.lists.courtesy c).calls, caseEq pb.sourceName call = true) →
            caseEq pb.sourceName pb.srccall = true
  | _ => True

/-! ## The lists -/

theorem QueuedPacket.srcnameHash_eq (pb : QueuedPacket) :
    pb.srcnameHash = keyhashuc pb.sourceName 0 := by
  unfold Pbuf.srcnameHash
  split
  next h =>
    have hname : pb.sourceName = pb.srccall := by
      simp [Pbuf.sourceName, Pbuf.srccall, h, pb.srcname_eq h]
    rw [hname, Pbuf.srccallHash]
  next => rfl

section
variable {l : HeardList} (hl : l.Wf) {callsign : Bytes}
include hl

theorem HeardList.Wf.heardFind_eq_some {hash : UInt32} {h : ClientHeard}
    (hfind : heardFind callsign hash l = some h) : h ∈ l.entries ∧ caseEq callsign h.call = true := by
  have hmem := List.mem_of_find?_eq_some hfind
  have hcall := List.find?_some hfind
  exact ⟨hl.mem_entries.mpr ⟨_, hmem⟩, ((hl.entry _ h hmem).isCall_iff.mp hcall).2⟩

/-- An entry is found if the hash is that of the callsign and the list has the callsign. -/
theorem HeardList.Wf.isSome_heardFind {hash : UInt32} :
    (heardFind callsign hash l).isSome = true ↔
      hash = keyhashuc callsign 0 ∧ ∃ call ∈ l.calls, caseEq callsign call = true := by
  constructor
  · intro h
    obtain ⟨h, hfind⟩ := Option.isSome_iff_exists.mp h
    obtain ⟨hmem, heq⟩ := hl.heardFind_eq_some hfind
    have hwf := hl.entry _ h (List.mem_of_find?_eq_some hfind)
    have hcall := List.find?_some hfind
    have hhash := (hwf.isCall_iff.mp hcall).1
    refine ⟨?_, h.call, ⟨h, hmem, rfl⟩, heq⟩
    rw [keyhashuc_congr heq, ← hwf.hash_eq, hhash]
  · rintro ⟨rfl, _, ⟨h, hmem, rfl⟩, heq⟩
    obtain ⟨i, hi⟩ := hl.mem_entries.mp hmem
    have hwf := hl.entry i h hi
    have hindex : heardIndex (keyhashuc callsign 0) = i := by
      rw [keyhashuc_congr heq, ← hwf.hash_eq, hwf.index_eq]
    rw [heardFind, List.find?_isSome, hindex]
    exact ⟨h, hi, hwf.isCall_keyhashuc.mpr heq⟩

theorem HeardList.Wf.calls_heardUpdate {ca : HeardCells} (hca : ca.Wf) (mmap : Bool)
    (call : HeardCall) (t : Int) :
    (heardUpdate mmap call.call t l ca).1.calls ⊆ insert call.call l.calls := by
  obtain ⟨h, hfind, heq⟩ | ⟨heq, -⟩ | ⟨cell, hcell, hfind, hroom, heq⟩ :=
    heardUpdate_cases mmap call.call t l ca
  · rw [heq, calls_refreshEntry hl hfind]
    exact Set.subset_insert _ _
  · rw [heq]
    exact Set.subset_insert _ _
  · have hlen := (hca.cellmalloc mmap).1 cell hcell
    rw [heq, mem_calls_insertEntry hl hlen call.length_le call.no_nul hroom hfind]

/-- An entry that is dropped was the only one of its callsign. -/
theorem HeardList.Wf.calls_heardDrop {hash : UInt32} {h : ClientHeard}
    (hfind : heardFind callsign hash l = some h) (ca : HeardCells) {call : Bytes}
    (hmem : call ∈ (heardDrop callsign hash l ca).1.calls) :
    call ∈ l.calls ∧ Distinct h.call call := by
  obtain ⟨before, after, hentries, hset⟩ := l.exists_entries (heardIndex_lt hash)
  obtain ⟨as, bs, hchain, herase⟩ := eraseP_of_find? hfind
  have hdropped : (heardDrop callsign hash l ca).1.entries = before ++ (as ++ bs) ++ after := by
    unfold heardFind at hfind
    simp only [heardDrop, hfind]
    exact (hset _).trans (by rw [herase])
  obtain ⟨g, hg, rfl⟩ := hmem
  rw [hdropped] at hg
  have hperm : l.entries.Perm (h :: (before ++ (as ++ bs) ++ after)) := by
    rw [hentries, hchain]
    have hmid : List.Perm (before ++ as ++ h :: (bs ++ after))
        (h :: (before ++ as ++ (bs ++ after))) := List.perm_middle
    simpa using hmid
  have hpair := ((hperm.map ClientHeard.call).pairwise_iff Distinct.symm).mp hl.distinct
  rw [List.map_cons, List.pairwise_cons] at hpair
  exact ⟨⟨g, hperm.mem_iff.mpr (List.mem_cons_of_mem h hg), rfl⟩,
    hpair.1 g.call (List.mem_map_of_mem hg)⟩

end

/-- The stations on the courtesy lists, in upper case. -/
def HeardState.listed (s : HeardState) : Set (Nat × Bytes) :=
  {k | ∃ call ∈ (s.courtesy k.1).calls, call.map toupper = k.2}

theorem HeardState.mem_listed_onCourtesy {s : HeardState} {c : Nat}
    {f : HeardList → HeardCells → HeardList × HeardCells} {k : Nat × Bytes} :
    k ∈ (s.onCourtesy c f).listed ↔
      if k.1 = c then ∃ call ∈ (f (s.courtesy c) s.cells).1.calls, call.map toupper = k.2
      else k ∈ s.listed := by
  unfold listed onCourtesy
  by_cases h : k.1 = c <;> simp [h]

theorem HeardState.listed_onHeard (s : HeardState) (c : Nat)
    (f : HeardList → HeardCells → HeardList × HeardCells) : (s.onHeard c f).listed = s.listed := rfl

/-! ## Dues -/

/-- A message makes a courtesy due to its sender. -/
def CourtesyMark.due : CourtesyMark → Mark (Nat × Bytes)
  | .message c sender => .owe (c, sender.map toupper)
  | .courtesy c sender _ => .pay (c, sender.map toupper)
  | .closed c => .lapse (·.1 = c)
  | .other => .skip

/-- A courtesy packet is for the entry of its sender. -/
def CourtesyMark.Own : CourtesyMark → Prop
  | .courtesy _ sender used => caseEq used sender = true
  | _ => True

def CourtesyRun.dues (r : CourtesyRun) : List (Mark (Nat × Bytes)) := r.marks.map (·.due)

theorem CourtesyMark.isMessage_iff {m : CourtesyMark} {c : Nat} {station : Bytes} :
    m.isMessage c station = true ↔ m.due = .owe (c, station.map toupper) := by
  cases m <;> simp [isMessage, due, caseEq_iff]

theorem CourtesyMark.isCourtesy_iff {m : CourtesyMark} {c : Nat} {station : Bytes} :
    m.isCourtesy c station = true ↔ m.due = .pay (c, station.map toupper) := by
  cases m <;> simp [isCourtesy, due, caseEq_iff]

theorem CourtesyMark.settles_iff {m : CourtesyMark} {c : Nat} {station : Bytes} :
    m.due.Settles (c, station.map toupper) ↔ m.isCourtesy c station = true ∨ m = .closed c := by
  cases m with
  | message => simp [isCourtesy, due, Mark.Settles]
  | courtesy => simp [isCourtesy, due, Mark.Settles, caseEq_iff]
  | closed c' => simp [isCourtesy, due, Mark.Settles, eq_comm]
  | other => simp [isCourtesy, due, Mark.Settles]

section
variable {r : CourtesyRun}

/-- What is owed to a station goes back to a message. -/
theorem CourtesyRun.mem_owed_iff {ms : List CourtesyMark} {c : Nat} {station : Bytes} :
    (c, station.map toupper) ∈ owed (ms.map (·.due)) ↔
      ∃ first m last, ms = first ++ m :: last ∧ m.isMessage c station = true ∧
        ∀ x ∈ last, x.isCourtesy c station = false ∧ x ≠ .closed c := by
  rw [Dues.mem_owed_iff]
  constructor
  · rintro ⟨first, last, hms, hlast⟩
    obtain ⟨first', rest, rfl, rfl, hrest⟩ := List.map_eq_append_iff.mp hms
    obtain ⟨m, last', rfl, hm, rfl⟩ := List.map_eq_cons_iff.mp hrest
    refine ⟨first', m, last', rfl, CourtesyMark.isMessage_iff.mpr hm, fun x hx => ?_⟩
    have hnot := hlast x.due (List.mem_map_of_mem hx)
    rw [CourtesyMark.settles_iff, not_or, Bool.not_eq_true] at hnot
    exact hnot
  · rintro ⟨first, m, last, rfl, hm, hlast⟩
    refine ⟨first.map (·.due), last.map (·.due), ?_, fun d hd => ?_⟩
    · rw [List.map_append, List.map_cons, CourtesyMark.isMessage_iff.mp hm]
    · obtain ⟨x, hx, rfl⟩ := List.mem_map.mp hd
      rw [CourtesyMark.settles_iff, not_or, Bool.not_eq_true]
      exact hlast x hx

/-- Courtesy is proper if the dues are justified and each packet is for its own entry. -/
theorem CourtesyRun.proper_iff : r.Proper ↔ Justified r.dues ∧ ∀ m ∈ r.marks, m.Own := by
  constructor
  · intro h
    refine ⟨fun before k after hdues => ?_, fun m hm => ?_⟩
    · obtain ⟨before', rest, hmarks, rfl, hrest⟩ := List.map_eq_append_iff.mp hdues
      obtain ⟨m, after', rfl, hm, rfl⟩ := List.map_eq_cons_iff.mp hrest
      cases m with
      | courtesy c sender used =>
        cases hm
        exact mem_owed_iff.mpr (h.earlier before' c sender used after' hmarks)
      | _ => cases hm
    · cases m with
      | courtesy c sender used => exact h.own c sender used hm
      | _ => trivial
  · rintro ⟨hjust, hown⟩
    refine ⟨fun before c sender used after hmarks => ?_, fun c station => ?_,
      fun c sender used hm => hown _ hm⟩
    · refine mem_owed_iff.mp (hjust (before.map (·.due)) _ (after.map (·.due)) ?_)
      rw [CourtesyRun.dues, hmarks, List.map_append, List.map_cons]
      rfl
    · have hle := (hjust.pays_le (c, station.map toupper)).1
      have hpay : ∀ m : CourtesyMark,
          m.due.isPay (c, station.map toupper) = m.isCourtesy c station := fun m =>
        Bool.eq_iff_iff.mpr (Mark.isPay_iff.trans CourtesyMark.isCourtesy_iff.symm)
      have howe : ∀ m : CourtesyMark,
          m.due.isOwe (c, station.map toupper) = m.isMessage c station := fun m =>
        Bool.eq_iff_iff.mpr (Mark.isOwe_iff.trans CourtesyMark.isMessage_iff.symm)
      simpa [pays, owes, CourtesyRun.dues, List.countP_map, Function.comp_def, hpay, howe] using hle

end

/-! ## Steps -/

section
variable {s : HeardState} (hs : s.Wf) {c : Nat} {client : FilteredClient} {pb : QueuedPacket}

theorem HeardState.verdict_eq_courtesy {env : FilterEnv} {printed : Int} :
    s.verdict env printed c client pb = .courtesy ↔
      client.igate = true ∧ s.messageFor c client pb.toPbuf = false ∧
        (s.courtesyEntry c pb.toPbuf).isSome = true := by
  unfold verdict
  cases client.igate <;> cases s.messageFor c client pb.toPbuf <;>
    cases (s.courtesyEntry c pb.toPbuf).isSome <;> cases s.tcpipHeard c pb.toPbuf <;> simp

include hs

theorem HeardState.Wf.isSome_courtesyEntry :
    (s.courtesyEntry c pb.toPbuf).isSome = true ↔
      pb.packettype &&& (tPosition ||| tObject ||| tItem) ≠ 0 ∧
        ∃ call ∈ (s.courtesy c).calls, caseEq pb.sourceName call = true := by
  unfold courtesyEntry
  split
  next h => simp [h, pb.srcnameHash_eq, (hs.courtesy c).isSome_heardFind]
  next h => simp [h]

theorem HeardState.Wf.courtesyEntry_eq_some {h : ClientHeard}
    (hentry : s.courtesyEntry c pb.toPbuf = some h) :
    heardFind pb.sourceName pb.srcnameHash (s.courtesy c) = some h ∧
      (c, h.call.map toupper) ∈ s.listed ∧ caseEq pb.sourceName h.call = true := by
  unfold courtesyEntry at hentry
  split at hentry
  · obtain ⟨hmem, heq⟩ := (hs.courtesy c).heardFind_eq_some hentry
    exact ⟨hentry, ⟨h.call, ⟨h, hmem, rfl⟩, rfl⟩, heq⟩
  · cases hentry

theorem HeardState.Wf.filterProcess {env : FilterEnv} {printed : Int} {mmap : Bool} :
    (s.filterProcess env printed c client pb mmap).Wf := by
  unfold HeardState.filterProcess
  split
  · exact hs.step _
  · exact hs.step _
  · exact hs

theorem HeardState.Wf.courtesyStep (e : CourtesyEvent) : (s.courtesyStep e).Wf := by
  cases e with
  | filterProcess c client env printed pb mmap => exact hs.filterProcess
  | heardUpdate c call t mmap => exact hs.step (.heardUpdate c call t mmap)
  | expire c heardStoretime courtesyStoretime tick =>
    exact hs.step (.expire c heardStoretime courtesyStoretime tick)
  | free c => exact hs.step (.free c)

/-- A packet is passed to a client: what is on the courtesy lists is owed, if it was so
before and a courtesy packet is for its own entry. -/
theorem HeardState.Wf.listed_filterProcess {env : FilterEnv} {printed : Int} {mmap : Bool}
    {owed : Set (Nat × Bytes)} (hlisted : s.listed ⊆ owed)
    (hown : (s.courtesyMark (.filterProcess c client env printed pb mmap)).Own) :
    (s.filterProcess env printed c client pb mmap).listed ⊆
      (s.courtesyMark (.filterProcess c client env printed pb mmap)).due.apply owed := by
  intro k hk
  simp only [courtesyMark] at hown ⊢
  unfold HeardState.filterProcess at hk
  cases hv : s.verdict env printed c client pb with
  | message =>
    simp only [hv, HeardState.step, mem_listed_onCourtesy] at hk
    simp only [CourtesyMark.due, Mark.apply]
    split at hk
    next hc =>
      obtain ⟨call, hcall, hkey⟩ := hk
      obtain rfl | hcall := (hs.courtesy c).calls_heardUpdate hs.cells mmap pb.call pb.t hcall
      · exact .inl (Prod.ext hc hkey.symm)
      · exact .inr (hlisted ⟨call, by rwa [hc], hkey⟩)
    next => exact .inr (hlisted hk)
  | courtesy =>
    obtain ⟨-, -, hsome⟩ := verdict_eq_courtesy.mp hv
    obtain ⟨h, hentry⟩ := Option.isSome_iff_exists.mp hsome
    obtain ⟨hfind, -, -⟩ := hs.courtesyEntry_eq_some hentry
    simp only [hv, hentry, CourtesyMark.Own, Option.map_some, Option.getD_some] at hown
    simp only [hv, HeardState.step, mem_listed_onCourtesy] at hk
    simp only [CourtesyMark.due, Mark.apply]
    split at hk
    next hc =>
      obtain ⟨call, hcall, hkey⟩ := hk
      obtain ⟨hcall, hdist⟩ := (hs.courtesy c).calls_heardDrop hfind s.cells hcall
      refine ⟨hlisted ⟨call, by rwa [hc], hkey⟩, fun heq => ?_⟩
      -- The entry of the sender is the one that was dropped.
      rw [Set.mem_singleton_iff.mp heq] at hkey
      have hsame : caseEq h.call call = true :=
        caseEq_iff.mpr ((caseEq_iff.mp hown).trans hkey.symm)
      rw [Distinct, hsame] at hdist
      cases hdist
    next hc => exact ⟨hlisted hk, fun heq => hc (by rw [Set.mem_singleton_iff.mp heq])⟩
  | tcpip =>
    simp only [hv] at hk
    exact hlisted hk
  | filters rc =>
    simp only [hv] at hk
    exact hlisted hk

/-- What is on the courtesy lists is owed after a step. -/
theorem HeardState.Wf.listed_courtesyStep {owed : Set (Nat × Bytes)} (hlisted : s.listed ⊆ owed)
    (e : CourtesyEvent) (hown : (s.courtesyMark e).Own) :
    (s.courtesyStep e).listed ⊆ (s.courtesyMark e).due.apply owed := by
  cases e with
  | filterProcess c client env printed pb mmap => exact hs.listed_filterProcess hlisted hown
  | heardUpdate c call t mmap => exact hlisted
  | expire c heardStoretime courtesyStoretime tick =>
    intro k hk
    simp only [HeardState.courtesyStep, HeardState.step, mem_listed_onCourtesy, listed_onHeard] at hk
    split at hk
    next hc =>
      obtain ⟨call, ⟨h, hmem, rfl⟩, hkey⟩ := hk
      have hentries := entries_heardExpireSingle courtesyStoretime tick (s.courtesy c)
      refine hlisted ⟨h.call, ⟨h, ?_, rfl⟩, hkey⟩
      rw [hc]
      refine List.mem_of_mem_filter (p := (! ·.old courtesyStoretime tick)) ?_
      rw [← hentries]
      exact hmem
    next => exact hlisted hk
  | free c =>
    intro k hk
    simp only [HeardState.courtesyStep, HeardState.step, mem_listed_onCourtesy, listed_onHeard] at hk
    split at hk
    next hc =>
      obtain ⟨call, ⟨h, hmem, rfl⟩, hkey⟩ := hk
      have hempty := ((hs.courtesy c).free (s.onHeard c heardFree).cells).2
      change h ∈ (heardFree (s.courtesy c) (s.onHeard c heardFree).cells).1.entries at hmem
      rw [hempty] at hmem
      cases hmem
    next hc => exact ⟨hlisted hk, hc⟩

end

/-! ## Runs -/

/-- What every step keeps: as long as courtesy is proper, only what is owed is listed. -/
structure CourtesyRun.Inv (r : CourtesyRun) : Prop where
  lists : r.lists.Wf
  listed : r.Proper → r.lists.listed ⊆ owed r.dues

theorem CourtesyRun.inv_init : CourtesyRun.init.Inv where
  lists := HeardState.wf_init
  listed _ := by
    rintro k ⟨call, ⟨h, hmem, -⟩, -⟩
    rw [show (CourtesyRun.init.lists.courtesy k.1).entries = [] from HeardList.entries_init] at hmem
    cases hmem

theorem CourtesyRun.proper_init : CourtesyRun.init.Proper :=
  proper_iff.mpr ⟨by simp [dues, init], by simp [init]⟩

theorem CourtesyRun.dues_step (r : CourtesyRun) (e : CourtesyEvent) :
    (r.step e).dues = r.dues ++ [(r.lists.courtesyMark e).due] := by
  simp [dues, step]

/-- A step keeps courtesy proper if what it pays is owed and its own. -/
theorem CourtesyRun.proper_step_iff {r : CourtesyRun} {e : CourtesyEvent} :
    (r.step e).Proper ↔ r.Proper ∧ (∀ k, (r.lists.courtesyMark e).due = .pay k → k ∈ owed r.dues) ∧
      (r.lists.courtesyMark e).Own := by
  have hmarks : (∀ m ∈ (r.step e).marks, m.Own) ↔
      (∀ m ∈ r.marks, m.Own) ∧ (r.lists.courtesyMark e).Own := by
    simp [step, or_imp, forall_and]
  rw [proper_iff, proper_iff, dues_step, justified_concat_iff, hmarks]
  tauto

theorem CourtesyRun.Inv.step {r : CourtesyRun} (hr : r.Inv) (e : CourtesyEvent) : (r.step e).Inv where
  lists := hr.lists.courtesyStep e
  listed hproper := by
    obtain ⟨hbefore, -, hown⟩ := proper_step_iff.mp hproper
    rw [dues_step, owed_concat]
    exact hr.lists.listed_courtesyStep (hr.listed hbefore) e hown

/-- A step keeps courtesy proper exactly if a packet that is passed by the courtesy rule is
named after its sender. -/
theorem CourtesyRun.Inv.proper_step_iff {r : CourtesyRun} (hr : r.Inv) (hproper : r.Proper)
    (e : CourtesyEvent) : (r.step e).Proper ↔ r.NamesSender e := by
  rw [CourtesyRun.proper_step_iff, and_iff_right hproper]
  cases e with
  | filterProcess c client env printed pb mmap =>
    simp only [HeardState.courtesyMark, NamesSender]
    constructor
    · rintro ⟨-, hown⟩ higate hmessage htype hlisted
      have hsome := hr.lists.isSome_courtesyEntry.mpr ⟨htype, hlisted⟩
      obtain ⟨h, hentry⟩ := Option.isSome_iff_exists.mp hsome
      obtain ⟨-, -, hname⟩ := hr.lists.courtesyEntry_eq_some hentry
      have hv := (@HeardState.verdict_eq_courtesy _ _ _ _ env printed).mpr
        ⟨higate, hmessage, hsome⟩
      simp only [hv, hentry, CourtesyMark.Own, Option.map_some, Option.getD_some] at hown
      exact caseEq_iff.mpr ((caseEq_iff.mp hname).trans (caseEq_iff.mp hown))
    · intro hnames
      cases hv : r.lists.verdict env printed c client pb with
      | courtesy =>
        obtain ⟨higate, hmessage, hsome⟩ := HeardState.verdict_eq_courtesy.mp hv
        obtain ⟨htype, hlisted⟩ := hr.lists.isSome_courtesyEntry.mp hsome
        obtain ⟨h, hentry⟩ := Option.isSome_iff_exists.mp hsome
        obtain ⟨-, hmem, hname⟩ := hr.lists.courtesyEntry_eq_some hentry
        have hsender := caseEq_iff.mp (hnames higate hmessage htype hlisted)
        have hused : h.call.map toupper = pb.srccall.map toupper :=
          (caseEq_iff.mp hname).symm.trans hsender
        refine ⟨?_, ?_⟩
        · rintro k ⟨⟩
          rw [← hused]
          exact hr.listed hproper hmem
        · simp only [hentry, CourtesyMark.Own, Option.map_some, Option.getD_some]
          exact caseEq_iff.mpr hused
      | _ => exact ⟨by rintro k ⟨⟩, trivial⟩
  | _ => exact iff_of_true ⟨by rintro k ⟨⟩, trivial⟩ trivial

/-- In every run, courtesy packets go to the right station and once throughout if and only
if each packet that is found in the courtesy list by its name is named after its sender. -/
theorem courtesy_proper_iff (es : List CourtesyEvent) :
    Always CourtesyRun.step CourtesyRun.Proper .init es ↔
      Meets CourtesyRun.step CourtesyRun.NamesSender .init es :=
  always_iff_meets (fun _ e hr => hr.step e) (fun _ e hr hproper => hr.proper_step_iff hproper e)
    CourtesyRun.inv_init CourtesyRun.proper_init es

/-! ## An object with the name of a station -/

private def courtesyEnv : FilterEnv where
  parseGeometry _ := false
  parseRange _ := false
  inRange _ _ := false
  filterEntrycallLookup _ := false
  filterWxLookup _ := false

/-- The client on the igate port. -/
private def courtesyClient : FilteredClient := ⟨true, ascii "OH2RX", .init, false⟩

/-- `OH7LZB` sends a message to the client. -/
private def messageFromStation : QueuedPacket where
  data := ascii "OH7LZB>APRS,qAR,OH2GW::OH2RX    :Hello\r\n"
  packetLen := 40
  packettype := tAll ||| tMessage
  flags := 0
  srcname := 0
  srcnameLen := 6
  dstname := some 23
  dstnameLen := 5
  srccallEnd := 6
  dstcallEndOrSsid := 11
  dstcallEnd := 11
  dstcallLen := 4
  qconstStart := 12
  infoStart := 22
  t := 0
  entrycallLen := 5
  symbol := (0, 0)
  qconst_ne := by decide
  srccall_valid := by decide
  srcname_eq := by decide

/-- `N0CALL` sends an object that it calls `OH7LZB`. -/
private def objectWithItsName : QueuedPacket where
  data := ascii "N0CALL>APRS,qAR,OH2GW:;OH7LZB   *111111z6028.51N/02505.68Er\r\n"
  packetLen := 61
  packettype := tAll ||| tObject
  flags := fHaspos
  srcname := 23
  srcnameLen := 6
  dstname := none
  dstnameLen := 0
  srccallEnd := 6
  dstcallEndOrSsid := 11
  dstcallEnd := 11
  dstcallLen := 4
  qconstStart := 12
  infoStart := 22
  t := 0
  entrycallLen := 5
  symbol := (0x2f, 0x72)
  qconst_ne := by decide
  srccall_valid := by decide
  srcname_eq := by decide

private def objectAfterMessage : List CourtesyEvent :=
  [.filterProcess 0 courtesyClient courtesyEnv 0 messageFromStation true,
    .filterProcess 0 courtesyClient courtesyEnv 0 objectWithItsName true]

/-- The object is passed to the client, although no message of its sender was, and it uses
up the courtesy of the station. -/
theorem object_takes_courtesy :
    (run CourtesyRun.step .init objectAfterMessage).marks =
        [.message 0 (ascii "OH7LZB"), .courtesy 0 (ascii "N0CALL") (ascii "OH7LZB")] ∧
      ¬Always CourtesyRun.step CourtesyRun.Proper .init objectAfterMessage := by
  have hmarks : (run CourtesyRun.step .init objectAfterMessage).marks =
      [.message 0 (ascii "OH7LZB"), .courtesy 0 (ascii "N0CALL") (ascii "OH7LZB")] := by
    decide
  refine ⟨hmarks, fun h => ?_⟩
  have hown := h.last.own 0 (ascii "N0CALL") (ascii "OH7LZB") (by simp [hmarks])
  revert hown
  decide

end Aprsc
