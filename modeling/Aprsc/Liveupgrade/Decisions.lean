-- SUMMARY: What filter_process decides after a live upgrade: as before, except for courtesies that are owed to the client.
import Aprsc.Filter.Courtesy
import Aprsc.Liveupgrade.FilterDump

/-!
# Decisions after a live upgrade

On an igate port `filter_process` looks up the lists of the client before it comes to the
filters. The heard list is saved and the courtesy list is not. So a restored client gets
the packets that the original one would get, if its filters and its heard list are kept
and there is no packet that only a courtesy lets through.
-/

namespace Aprsc

open Runs

variable {F : Type}

/-! ## Connections -/

/-- A client with its filters, and the lists of all clients. -/
structure FilteredConnection (F : Type) where
  client : FilterClient F
  lists : HeardState

inductive FilteredEvent (F : Type) where
  | client (e : ClientEvent F)
  /-- `filter_process` takes a packet to the client. With what `client_printf` returns if it is
  called, and what `mmap` says. -/
  | filterProcess (printed : Int) (warned : Bool) (pb : QueuedPacket) (mmap : Bool)
  /-- Another call on the lists of this client or another one. -/
  | lists (e : HeardEvent)

section
variable (env : ClientEnv F) (l : FilterListener) (c : Nat) (username : Bytes)

/-- What `filter_process` reads of the client. -/
def FilterClient.filtered (client : FilterClient F) (warned : Bool) : FilteredClient where
  igate := l.igate
  username
  chains := client.filters.chains
  warned

/-- What `filter_process` decides about a packet. -/
def FilteredConnection.decision (s : FilteredConnection F) (printed : Int) (warned : Bool) (pb : QueuedPacket) :
    Verdict :=
  s.lists.verdict (env.located s.client.loc) printed c (s.client.filtered l username warned) pb

def FilteredConnection.step (s : FilteredConnection F) : FilteredEvent F → Option (FilteredConnection F)
  | .client e => (clientEvent env l s.client e).map fun client => { s with client }
  | .filterProcess printed warned pb mmap =>
      some { s with
        lists := s.lists.filterProcess (env.located s.client.loc) printed c
          (s.client.filtered l username warned) pb mmap }
  | .lists e => some { s with lists := s.lists.step e }

/-- The events of a connection, as long as the process goes on. -/
def filteredStep (s : Option (FilteredConnection F)) (e : FilteredEvent F) :
    Option (FilteredConnection F) :=
  s.bind (·.step env l c username e)

/-- A client is accepted after the server has started. -/
def acceptFiltered : Option (FilteredConnection F) :=
  (l.acceptClientForListener env).map fun client => { client, lists := .init }

end

/-! ## Live upgrade -/

/-- The lists of the new process, which gets a cell with some contents for each entry. The
courtesy list is not saved. -/
def HeardState.restored (s : HeardState) (c : Nat) (cell : Nat → Bytes) (tick : Int) :
    HeardState where
  cells := .init
  heard := Function.update (fun _ => .init) c
    (clientHeardJsonLoad cell tick 0 (clientHeardJson (s.heard c)) .init)
  courtesy _ := .init

section
variable [Zero F] (env : ClientEnv F) (l : FilterListener) (c : Nat) (username : Bytes)

/-- The restored client gets the packets that the original one would get. It was warned about a
filter without a type or not. -/
def FilteredConnection.Survives (s : FilteredConnection F) : Prop :=
  ∃ client', l.acceptLiveupgradeSingle env s.client.workerClientJson = some client' ∧
    ∀ cell tick, (∀ i, (cell i).length = heardFieldSize) → ∀ printed warned pb,
      (FilteredConnection.decision env l c username ⟨client', s.lists.restored c cell tick⟩ printed false
        pb).rc = (s.decision env l c username printed warned pb).rc

/-- A packet that is passed to the client as a courtesy would be passed without it, too. -/
def FilteredConnection.NothingOwed (s : FilteredConnection F) : Prop :=
  l.igate = true → ∀ pb : QueuedPacket,
    s.lists.messageFor c (s.client.filtered l username false) pb.toPbuf = false →
      (s.lists.courtesyEntry c pb.toPbuf).isSome = true →
        s.lists.tcpipHeard c pb.toPbuf = true ∨
          specsVerdict (env.located s.client.loc) pb.toFilterPacket (s.client.filters.specs false)
            (s.client.filters.specs true) = 1

/-- What is kept of the filters when an event takes place, and a new entry of the heard list of
the client gets a clean cell. -/
def KeepsDecisions : Option (FilteredConnection F) → FilteredEvent F → Prop
  | none, _ => False
  | some s, .client e => KeepsFilters env l (some s.client) e
  | some _, .filterProcess .. => True
  | some s, .lists e => ∀ call t mmap, e = .heardUpdate c call t mmap → s.lists.InsertsClean e

end

/-! ## The verdict on a packet -/

section
variable {env : FilterEnv} {printed : Int} {s : HeardState} {c : Nat} {client : FilteredClient}
  {pb : QueuedPacket}

/-- The rules for igates pass a packet, or the filters decide. -/
theorem HeardState.rc_verdict :
    (s.verdict env printed c client pb).rc =
      if client.igate = true ∧ (s.messageFor c client pb.toPbuf = true ∨
          (s.courtesyEntry c pb.toPbuf).isSome = true ∨ s.tcpipHeard c pb.toPbuf = true) then 1
      else Aprsc.filterProcess env pb.toFilterPacket printed client.warned client.chains := by
  unfold verdict
  cases client.igate <;> cases s.messageFor c client pb.toPbuf <;>
    cases (s.courtesyEntry c pb.toPbuf).isSome <;> cases s.tcpipHeard c pb.toPbuf <;> simp [Verdict.rc]

theorem HeardState.heard_filterProcess {mmap : Bool} :
    (s.filterProcess env printed c client pb mmap).heard = s.heard := by
  unfold HeardState.filterProcess
  split <;> rfl

/-- What is found in a list depends on its callsigns only. -/
theorem HeardList.Wf.clientHeardCheck_congr {l l' : HeardList} (hl : l.Wf) (hl' : l'.Wf)
    (hcalls : l'.calls = l.calls) (callsign : Bytes) (hash : UInt32) :
    clientHeardCheck callsign hash l' = clientHeardCheck callsign hash l := by
  apply Bool.eq_iff_iff.mpr
  unfold clientHeardCheck
  rw [hl.isSome_heardFind, hl'.isSome_heardFind, hcalls]

end

section
variable {s : HeardState} (hs : s.Wf) {c : Nat} (hterm : (s.heard c).Terminated)
  {cell : Nat → Bytes} (hcell : ∀ i, (cell i).length = heardFieldSize) (tick : Int)
include hs hterm hcell

/-- The same stations are heard of after a live upgrade. -/
theorem HeardState.Wf.clientHeardCheck_restored (callsign : Bytes) (hash : UInt32) :
    clientHeardCheck callsign hash ((s.restored c cell tick).heard c) =
      clientHeardCheck callsign hash (s.heard c) := by
  have hheard : (s.restored c cell tick).heard c =
      clientHeardJsonLoad cell tick 0 (clientHeardJson (s.heard c)) .init := by
    simp [HeardState.restored]
  rw [hheard]
  exact (hs.heard c).clientHeardCheck_congr
    (wf_load hcell tick (hs.heard c).dump_ok 0 HeardList.wf_init)
    ((hs.heard c).survives_iff.mpr hterm cell tick hcell) callsign hash

theorem HeardState.Wf.messageFor_restored (client : FilteredClient) (pb : Pbuf) :
    (s.restored c cell tick).messageFor c client pb = s.messageFor c client pb := by
  unfold HeardState.messageFor
  rw [hs.clientHeardCheck_restored hterm hcell]

theorem HeardState.Wf.tcpipHeard_restored (pb : Pbuf) :
    (s.restored c cell tick).tcpipHeard c pb = s.tcpipHeard c pb := by
  unfold HeardState.tcpipHeard
  rw [hs.clientHeardCheck_restored hterm hcell]

end

/-- No courtesy is left. -/
theorem HeardState.courtesyEntry_restored (s : HeardState) (c : Nat) (cell : Nat → Bytes)
    (tick : Int) (pb : Pbuf) : (s.restored c cell tick).courtesyEntry c pb = none := by
  unfold courtesyEntry
  split <;> rfl

/-! ## Connections that are saved -/

section
variable [Zero F] {env : ClientEnv F} {l : FilterListener} {c : Nat} {username : Bytes}

variable (env l c) in
/-- The filters and the heard list of the client can be restored. -/
structure FilteredConnection.Saved (s : FilteredConnection F) : Prop where
  client : s.client.Saved env l
  lists : s.lists.Wf
  terminated : (s.lists.heard c).Terminated

variable {s : FilteredConnection F}

/-- If the filters and the heard list are kept, the decisions are the same exactly if nothing is
owed. -/
theorem FilteredConnection.Saved.survives_iff (h : s.Saved env l c) (hl : l.KeepsFilters env) :
    s.Survives env l c username ↔ s.NothingOwed env l c username := by
  obtain ⟨client', hclient', hsame⟩ := h.client.survives hl.fits
  have hrc : ∀ cell tick, (∀ i, (cell i).length = heardFieldSize) → ∀ printed warned pb,
      ((FilteredConnection.decision env l c username ⟨client', s.lists.restored c cell tick⟩ printed false
          pb).rc = (s.decision env l c username printed warned pb).rc ↔
        (l.igate = true → s.lists.messageFor c (s.client.filtered l username false) pb.toPbuf = false →
          (s.lists.courtesyEntry c pb.toPbuf).isSome = true →
            s.lists.tcpipHeard c pb.toPbuf = true ∨
              specsVerdict (env.located s.client.loc) pb.toFilterPacket
                (s.client.filters.specs false) (s.client.filters.specs true) = 1)) := by
    intro cell tick hcell printed warned pb
    have hfilters := h.client.filterProcess_eq pb.toFilterPacket printed warned
    have hmessage : (s.lists.restored c cell tick).messageFor c
        (client'.filtered l username false) pb.toPbuf =
          s.lists.messageFor c (s.client.filtered l username false) pb.toPbuf :=
      h.lists.messageFor_restored h.terminated hcell tick _ _
    have hwarned : s.lists.messageFor c (s.client.filtered l username warned) pb.toPbuf =
        s.lists.messageFor c (s.client.filtered l username false) pb.toPbuf := rfl
    have htcpip := h.lists.tcpipHeard_restored h.terminated hcell tick pb.toPbuf
    have hcourtesy := s.lists.courtesyEntry_restored c cell tick pb.toPbuf
    unfold FilteredConnection.decision
    rw [HeardState.rc_verdict, HeardState.rc_verdict, hmessage, hwarned, htcpip, hcourtesy]
    generalize s.lists.messageFor c _ pb.toPbuf = message
    generalize s.lists.tcpipHeard c pb.toPbuf = tcpip
    generalize s.lists.courtesyEntry c pb.toPbuf = entry
    simp only [FilterClient.filtered, hsame pb.toFilterPacket printed warned, hfilters]
    cases l.igate <;> cases message <;> cases tcpip <;> cases entry <;> simp [eq_comm]
  constructor
  · rintro ⟨client'', hclient'', hall⟩ higate pb
    obtain rfl : client' = client'' := Option.some.inj (hclient'.symm.trans hclient'')
    have hcell : ∀ _ : Nat, newCell.length = heardFieldSize := fun _ => List.length_replicate
    exact (hrc _ 0 hcell 0 false pb).mp (hall _ 0 hcell 0 false pb) higate
  · intro howed
    exact ⟨client', hclient', fun cell tick hcell printed warned pb =>
      (hrc cell tick hcell printed warned pb).mpr fun higate => howed higate pb⟩

/-- One event keeps what is saved. -/
theorem FilteredConnection.Saved.step (h : s.Saved env l c) {e : FilteredEvent F}
    (hkeeps : KeepsDecisions env l c (some s) e) :
    ∃ s', s.step env l c username e = some s' ∧ s'.Saved env l c := by
  cases e with
  | client e =>
    obtain ⟨client', hstep, hclient'⟩ := h.client.clientEvent hkeeps
    exact ⟨⟨client', s.lists⟩, by rw [FilteredConnection.step, hstep]; rfl, hclient', h.lists, h.terminated⟩
  | filterProcess printed warned pb mmap =>
    refine ⟨_, rfl, h.client, h.lists.filterProcess, ?_⟩
    rw [HeardState.heard_filterProcess]
    exact h.terminated
  | lists e =>
    exact ⟨_, rfl, h.client, h.lists.step e, (h.lists.terminated_heard_iff h.terminated e).mpr hkeeps⟩

theorem saved_acceptFiltered (hl : l.KeepsFilters env) :
    ∃ s, acceptFiltered env l = some s ∧ s.Saved env l c := by
  obtain ⟨client, hclient, hsaved⟩ := hl.saved_accept
  exact ⟨⟨client, .init⟩, by rw [acceptFiltered, hclient]; rfl, hsaved, HeardState.wf_init,
    HeardState.terminated_init c⟩

end

/-- If the words of the texts and the entries of the heard list are kept in every event of a
connection, then at every point of it the decisions after a live upgrade are what they were
before if and only if no courtesy is owed to the client that matters. -/
theorem filtering_survives_upgrade [Zero F] {env : ClientEnv F} {l : FilterListener} {c : Nat}
    {username : Bytes} (hl : l.KeepsFilters env) {events : List (FilteredEvent F)}
    (h : Meets (filteredStep env l c username) (KeepsDecisions env l c) (acceptFiltered env l)
      events) :
    Always (filteredStep env l c username)
      (fun s => ∃ s₁, s = some s₁ ∧
        (s₁.Survives env l c username ↔ s₁.NothingOwed env l c username))
      (acceptFiltered env l) events := by
  have hsaved := Meets.always (I := fun s => ∃ s₁, s = some s₁ ∧ s₁.Saved env l c) (by
    rintro s e ⟨s₁, rfl, hs₁⟩ hkeeps
    exact hs₁.step hkeeps) (saved_acceptFiltered hl) h
  refine hsaved.imp ?_
  rintro s ⟨s₁, rfl, hs₁⟩
  exact ⟨s₁, rfl, hs₁.survives_iff hl⟩

private def upgradeEnv : ClientEnv Int where
  parseGeometry _ := true
  parseRange _ := false
  inRange _ _ := true
  filterEntrycallLookup _ := false
  filterWxLookup _ := false
  inMyRange _ _ _ := false
  jsonNumber := id

private def upgradePacket : QueuedPacket where
  data := ascii "OH7AA>APRS,qAR,OH7AC:>hello\r\n"
  packetLen := 29
  packettype := tStatus
  flags := 0
  srcname := 0
  srcnameLen := 5
  dstname := none
  dstnameLen := 0
  srccallEnd := 5
  dstcallEndOrSsid := 10
  dstcallEnd := 10
  dstcallLen := 4
  qconstStart := 11
  infoStart := 21
  t := 0
  entrycallLen := 5
  symbol := (0, 0)
  qconst_ne := by decide
  srccall_valid := by decide
  srcname_eq := by decide

private theorem upgradeTyped {words : List Bytes}
    (h : (words.all fun w => (ownFilter upgradeEnv.toFilterEnv w).map (·.body) ≠ some .empty) = true) :
    Typed upgradeEnv.toFilterEnv words := by
  intro w hw f hown hbody
  apply forall_mem_of_all h w hw
  rw [hown, Option.map_some, hbody]

/-- A client on an igate port, which has a filter of its own, logs in with another filter. It
hears a station, gets a packet, asks for two other filters, and sends its position. -/
theorem filtering_survives_upgrade_commands :
    Always (filteredStep upgradeEnv ⟨[ascii "t/n"], true, true⟩ 0 (ascii "OH2RX"))
      (fun s => ∃ s₁, s = some s₁ ∧
        (s₁.Survives upgradeEnv ⟨[ascii "t/n"], true, true⟩ 0 (ascii "OH2RX") ↔
          s₁.NothingOwed upgradeEnv ⟨[ascii "t/n"], true, true⟩ 0 (ascii "OH2RX")))
      (acceptFiltered upgradeEnv ⟨[ascii "t/n"], true, true⟩)
      [.client (.login (some [ascii "p/OH"])),
        .lists (.heardUpdate 0 ⟨ascii "OH7LZB", by decide, by decide⟩ 0 true),
        .filterProcess 0 false upgradePacket true,
        .client (.command false (ascii "filter r/60/25/100 -b/OH7AA")),
        .client (.position ⟨1, 2, 3⟩)] := by
  have hfits : WordsFit upgradeEnv.toFilterEnv true false [ascii "t/n"] .init :=
    wordsFit_of_short (n := 0) FilterState.merged_init (fun neg f hf => by cases neg <;> cases hf)
      (by decide)
  obtain ⟨s, hs, hmerged⟩ := filterParseAll_merged FilterState.merged_init hfits
  cases hs
  have hlogin : WordsFit upgradeEnv.toFilterEnv true true [ascii "p/OH"] _ :=
    wordsFit_of_short (n := 0) hmerged (fun neg f hf => by cases neg <;> cases hf) (by decide)
  obtain ⟨s', hs', hmerged'⟩ := filterParseAll_merged hmerged hlogin
  cases hs'
  have hcommand : WordsFit upgradeEnv.toFilterEnv true true
      [ascii "r/60/25/100", ascii "-b/OH7AA"] _ :=
    wordsFit_of_short (n := 0) hmerged'.freeUser (fun neg f hf => by cases neg <;> cases hf)
      (by decide)
  refine filtering_survives_upgrade ⟨hfits, ?_⟩ ⟨fun _ _ => ⟨hlogin, ?_⟩, ?_, trivial,
    fun _ _ => ⟨hcommand, ?_, ?_⟩, fun _ => ?_, trivial⟩
  · exact SpecsKept.of_subset (upgradeTyped (by decide)) fun _ hw => hw
  · exact SpecsKept.refl (upgradeTyped (by decide))
  · rintro call t mmap heq hinserts cell hcell
    cases heq
    obtain ⟨k, hk⟩ : ∃ k, cellsPerBlock = k + 1 := ⟨10921, rfl⟩
    obtain rfl : newCell = cell := by
      simpa [cellmalloc, newCellblock, HeardState.init, HeardCells.init, cellblocksMax, hk,
        List.replicate_succ] using hcell
    unfold CleanCell
    decide
  · exact SpecsKept.refl (upgradeTyped (by decide))
  · exact .inl rfl
  · have hno : ([ascii "t/n", ascii "r/60/25/100", ascii "-b/OH7AA"].any isMyRange) = false := by
      decide
    exact .inr fun w hw hmy => absurd hmy (List.any_eq_false.mp hno w (List.mem_append.mpr hw))

/-- The client logs in with `p/OH` and resets its filters. The restored client gets a packet
from a station in Finland, and the original one does not. -/
theorem reset_filter_comes_back :
    ¬∀ (F : Type) (_ : Zero F) (env : ClientEnv F) (l : FilterListener) (c : Nat)
      (username : Bytes) (events : List (FilteredEvent F)) (s : FilteredConnection F),
      run (filteredStep env l c username) (acceptFiltered env l) events = some s →
        s.Survives env l c username := by
  intro h
  obtain ⟨client', hclient', hsame⟩ := h Int inferInstance upgradeEnv ⟨[], true, false⟩ 0
    (ascii "OH7AC") [.client (.login (some [ascii "p/OH"])),
      .client (.command false (ascii "filter default"))] _ rfl
  cases hclient'
  have hdecision := hsame (fun _ => newCell) 0 (fun _ => List.length_replicate) 26 false
    upgradePacket
  revert hdecision
  decide

end Aprsc
