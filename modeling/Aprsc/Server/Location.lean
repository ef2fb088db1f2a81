-- SUMMARY: Where the location of a client comes from: the latest position that it has reported of itself, under an exact condition on lines and upgrades.
import Aprsc.Liveupgrade.Session
import Aprsc.ParseAprs.Leaves
import Aprsc.Server.Lines

/-!
# The location of a client

A client has the coordinates of a packet of its own after `client_loc_update`, for its `m`
filter. The call looks at the type of the packet. A position packet whose coordinates could
not be read has the type, too, and so has one whose position is that of a frame inside. A
live upgrade restores the coordinates, but not the cosine.
-/

namespace Aprsc

open Runs

/-! ## Reports -/

/-- The packet has a position that its source has reported of itself: it is not that of an
object or an item, and not that of a frame inside. -/
def Parsed.selfReport (q : Parsed) : Bool :=
  q.pb.flags &&& fHaspos != 0 && q.pb.packettype &&& (tObject ||| tItem ||| t3rdparty) == 0

/-- The position that the client has reported of itself. -/
def Parsed.ownPosition (q : Parsed) : Option Position :=
  if q.originated && q.selfReport then some q.pb.position else none

/-- `incoming_parse` gets to the update of the location, and makes it. -/
def Parsed.updatesLoc (q : Parsed) : Bool :=
  !decide (q.rc < 0) && !toServer q.rc q.pb && q.pb.packettype &&& tQuery == 0 &&
    (q.originated && q.pb.packettype &&& tPosition != 0)

/-! ## Runs -/

/-- The location of a client that was dumped and restored. -/
def upgradedLoc (j : CJson) (loc : Option Position) : Option Position :=
  resumeLoc j (getObjectItem (locItems loc) "lat") (getObjectItem (locItems loc) "lng") none

/-- What a line reads from outside, with the parsers of positions in `parse_aprs.c`. -/
structure LocEnv (D : AprsFloats) extends SiteEnv where
  leaf_eq : ∃ dstcall m packetLen, leaf = aprsLeaves D dstcall m packetLen

/-- A reader of JSON that gives back every `float`. -/
structure ExactCJson extends CJson where
  valuefloat_float : ∀ f, valuefloat (.float f) = f

/-- What may happen: a line, another step of the server, or a live upgrade. The new process has
the clients again, with their locations. -/
inductive LocAction (D : AprsFloats) where
  | line (p : Nat) (env : LocEnv D) (s : Bytes)
  | site (act : SiteAction)
  | upgrade (j : ExactCJson) (shared : Shared) (session : Nat → Resource Session WriteOutcome)

variable {D : AprsFloats}

def SiteAction.isLine : SiteAction → Bool
  | .line .. => true
  | _ => false

def Site.locStep (w : Site) : LocAction D → Site
  | .line p env s => w.line p env.toSiteEnv s
  | .site act => if act.isLine then w else w.step act
  | .upgrade j shared session => ⟨shared, fun p => ⟨upgradedLoc j.toCJson (w.own p).loc, session p⟩⟩

/-- The packet that a step parses for the client at `p`. -/
def Site.parsed (w : Site) (p : Nat) : LocAction D → Option Parsed
  | .line p' env s =>
      if p' = p then
        (w.shared.net.conns p).bind fun c =>
          if c.client.ready && isPacket s then (parsedPacket env.toIncomingEnv c.client s).toOption
          else none
      else none
  | .site _ | .upgrade .. => none

/-- The step makes a new client at `p`. -/
def Site.collects (w : Site) (p : Nat) : LocAction D → Bool
  | .site (.collect p' ..) => p' = p ∧ (w.shared.net.conns p').isNone
  | _ => false

/-- The server, and the latest position that the client at `p` has reported of itself. -/
structure Located where
  site : Site
  latest : Option Position

def locatedStep (p : Nat) (s : Located) (a : LocAction D) : Located where
  site := s.site.locStep a
  latest :=
    if s.site.collects p a then none
    else ((s.site.parsed p a).bind Parsed.ownPosition).or s.latest

/-! ## What a step does to the location -/

namespace Site

variable (w : Site) (p : Nat)

theorem runHandler_loc (p' : Nat) (writes : Nat → WriteOutcome) (x : ClientM Int) :
    ((w.runHandler p' writes x).own p).loc = (w.own p).loc := by
  unfold runHandler setOwn
  by_cases hp : p = p'
  · subst hp
    simp
  · simp [Function.update_of_ne hp]

theorem noteLocation_loc (q : Parsed) :
    ((w.noteLocation p q).own p).loc =
      if q.originated && q.pb.packettype &&& tPosition != 0 then some q.pb.position
      else (w.own p).loc := by
  unfold noteLocation
  split
  next h => simp [clientLocUpdate, setOwn]
  next h => rfl

theorem incomingParse_loc (env : SiteEnv) (c : Connection) (line : Bytes) :
    ((w.incomingParse env p c line).2.own p).loc =
      match parsedPacket env.toIncomingEnv c.client line with
      | .error _ => (w.own p).loc
      | .ok q => if q.updatesLoc then some q.pb.position else (w.own p).loc := by
  unfold incomingParse
  cases parsedPacket env.toIncomingEnv c.client line with
  | error rc => rfl
  | ok q =>
  simp only
  unfold Parsed.updatesLoc
  split
  next hrc => simp [hrc]
  next hrc =>
  split
  next hserver => split <;> simp [hserver]
  next hserver =>
  split
  next hquery =>
    have hquery' : (q.pb.packettype &&& tQuery == 0) = false := by simpa using hquery
    simp [hquery']
  next hquery =>
    have hquery' : (q.pb.packettype &&& tQuery == 0) = true := by simpa using hquery
    have hserver' : toServer q.rc q.pb = false := by simpa using hserver
    have hupdates : (!decide (q.rc < 0) && !toServer q.rc q.pb && q.pb.packettype &&& tQuery == 0 &&
        (q.originated && q.pb.packettype &&& tPosition != 0)) =
        (q.originated && q.pb.packettype &&& tPosition != 0) := by
      simp [hrc, hserver', hquery']
    rw [hupdates]
    split
    next => exact w.noteLocation_loc p q
    next => split <;> exact w.noteLocation_loc p q

theorem incomingHandler_loc (env : SiteEnv) (c : Connection) (s : Bytes) :
    ((w.incomingHandler env p c s).own p).loc =
      if isPacket s then ((w.incomingParse env p c s).2.own p).loc else (w.own p).loc := by
  unfold incomingHandler
  simp only [runHandler_loc]
  split <;> rfl

/-- A line from another client does not touch the location. -/
theorem line_loc_of_ne {p' : Nat} (hp : p ≠ p') (env : SiteEnv) (s : Bytes) :
    ((w.line p' env s).own p).loc = (w.own p).loc := by
  unfold line
  split
  next => rfl
  next c _ =>
  split
  next =>
    unfold incomingHandler
    rw [runHandler_loc]
    split
    next =>
      obtain ⟨o, ho⟩ := incomingParse_own env p' c s w
      rw [ho, Function.update_of_ne hp]
    next => rfl
  next => rw [runHandler_loc]

/-- A line from the client brings the location of its packet, if that updates it. -/
theorem line_loc (env : SiteEnv) (s : Bytes) :
    ((w.line p env s).own p).loc =
      match (w.shared.net.conns p).bind fun c =>
        if c.client.ready && isPacket s then (parsedPacket env.toIncomingEnv c.client s).toOption
        else none with
      | none => (w.own p).loc
      | some q => if q.updatesLoc then some q.pb.position else (w.own p).loc := by
  unfold line
  cases w.shared.net.conns p with
  | none => rfl
  | some c =>
    simp only [Option.bind_some]
    cases hready : c.client.ready with
    | false => simp [runHandler_loc]
    | true =>
      simp only [if_true, incomingHandler_loc, Bool.true_and]
      cases hpacket : isPacket s with
      | false => rfl
      | true =>
        simp only [if_true, incomingParse_loc]
        cases parsedPacket env.toIncomingEnv c.client s with
        | error rc => rfl
        | ok q => rfl

/-- A step of the server other than a line makes a new client, or leaves the location. -/
theorem step_loc {act : SiteAction} (hline : act.isLine = false) :
    ((w.step act).own p).loc =
      if w.collects p (.site act : LocAction D) then none else (w.own p).loc := by
  cases act with
  | collect p' client noTx wk session =>
    simp only [step, collects, Option.isNone_iff_eq_none, decide_eq_true_eq]
    by_cases hp : p' = p
    · subst hp
      split
      next h => simp [h]
      next h => simp [h]
    · split <;> simp [hp, Function.update_of_ne (Ne.symm hp)]
  | net act => cases act <;> rfl
  | cleanup => rfl
  | dupecheckCleanup => rfl
  | heardExpire => rfl
  | line => cases hline

/-- The location after a step other than an upgrade. -/
theorem locStep_loc (a : LocAction D) (ha : ∀ j shared session, a ≠ .upgrade j shared session) :
    ((w.locStep a).own p).loc =
      if w.collects p a then none
      else match w.parsed p a with
        | none => (w.own p).loc
        | some q => if q.updatesLoc then some q.pb.position else (w.own p).loc := by
  cases a with
  | upgrade j shared session => exact absurd rfl (ha j shared session)
  | site act =>
    simp only [locStep, parsed]
    cases hline : act.isLine with
    | false => exact w.step_loc p hline
    | true => cases act with
      | line => rfl
      | _ => cases hline
  | line p' env s =>
    show ((w.line p' env.toSiteEnv s).own p).loc = _
    by_cases hp : p' = p
    · subst hp
      simp only [collects, parsed, if_true]
      exact w.line_loc p' env.toSiteEnv s
    · rw [line_loc_of_ne w p (Ne.symm hp)]
      simp [collects, parsed, hp]

end Site

/-! ## Packets with a position -/

/-- A packet has a position only if its parser has left one. -/
theorem parsedPacket_position {env : IncomingEnv} (hleaf : env.leaf.Place D) {c : Client}
    {line : Bytes} {q : Parsed} (h : parsedPacket env c line = .ok q)
    (hpos : q.pb.flags &&& fHaspos ≠ 0) :
    ∃ pb f, q.pb = Pbuf.withAprs pb f ∧ PositionParsed D (q.rc, f) := by
  unfold parsedPacket at h
  split at h
  next => cases h
  next s _ =>
  split at h
  next => cases h
  next hdr _ =>
  simp only at h
  split at h
  next => cases h
  next out _ =>
  split at h
  next => cases h
  next pb hpb =>
  cases h
  have hnone : pb.flags &&& fHaspos = 0 := by
    obtain ⟨-, -, cls, qc, flags, hcls, -, hflags, rfl⟩ := rewritePacket_passed hpb
    show flags &&& fHaspos = 0
    rw [hflags]
    obtain rfl | rfl := classify_cases hcls <;> split <;> decide
  cases hparse : (parseAprsPbuf env pb).val with
  | none =>
    rw [hparse] at hpos
    exact absurd hnone hpos
  | some r =>
    refine ⟨pb, r.2, rfl, ?_⟩
    rw [hparse] at hpos
    obtain hflags | hplaced := parseAprs_placed hleaf _ _ _ _ r hparse
    · have hkept : r.2.flags &&& fHaspos = 0 := by rw [hflags]; exact hnone
      exact absurd hkept hpos
    · exact hplaced

/-- What holds of a packet with a position. -/
structure Parsed.Positioned (D : AprsFloats) (q : Parsed) : Prop where
  rc : q.rc = 1
  cosLat : q.pb.position.cosLat = D.cosf q.pb.position.lat
  query : q.pb.packettype &&& tQuery = 0
  own_iff : q.pb.packettype &&& (tObject ||| tItem ||| t3rdparty) = 0 ↔
    q.pb.packettype &&& tPosition ≠ 0 ∧ q.pb.packettype &&& t3rdparty = 0

theorem Site.parsed_positioned {w : Site} {p : Nat} {a : LocAction D} {q : Parsed}
    (h : w.parsed p a = some q) (hpos : q.pb.flags &&& fHaspos ≠ 0) : q.Positioned D := by
  cases a with
  | site act => cases h
  | upgrade j shared session => cases h
  | line p' env s =>
    simp only [parsed] at h
    split at h
    next =>
      obtain ⟨c, -, h⟩ := Option.bind_eq_some_iff.mp h
      split at h
      next =>
        have hok : parsedPacket env.toIncomingEnv c.client s = .ok q := by
          cases hparsed : parsedPacket env.toIncomingEnv c.client s with
          | error rc =>
            rw [hparsed] at h
            cases h
          | ok q' =>
            rw [hparsed] at h
            cases h
            rfl
        have hleaf : env.leaf.Place D := by
          obtain ⟨dstcall, m, packetLen, hleaf⟩ := env.leaf_eq
          rw [hleaf]
          exact aprsLeaves_place D dstcall m packetLen
        obtain ⟨pb, f, hpb, hf⟩ := parsedPacket_position hleaf hok hpos
        have hown := hf.own_iff
        exact ⟨hf.rc, by rw [hpb]; exact hf.cosLat, by rw [hpb]; exact hf.query,
          by rw [hpb]; exact hown⟩
      next => cases h
    next => cases h

/-- A packet that the client has reported itself in updates its location. -/
theorem Parsed.Positioned.updatesLoc {q : Parsed} (h : q.Positioned D) (ho : q.originated = true)
    (hself : q.selfReport = true) : q.updatesLoc = true := by
  have hown := h.own_iff.mp (by simpa using (Bool.and_eq_true_iff.mp hself).2)
  unfold Parsed.updatesLoc toServer
  simp [h.rc, h.query, ho, hown.1]

/-- An update is one with a position that the client has reported of itself, if there is a
position and it is not that of a frame inside. -/
theorem Parsed.Positioned.selfReport {q : Parsed} (h : q.Positioned D)
    (hpos : q.pb.flags &&& fHaspos ≠ 0) (htype : q.pb.packettype &&& tPosition ≠ 0)
    (hinside : q.pb.packettype &&& t3rdparty = 0) : q.selfReport = true := by
  unfold Parsed.selfReport
  simp [hpos, h.own_iff.mpr ⟨htype, hinside⟩]

/-! ## The location -/

/-- The location of the client is the latest position that it has reported of itself, with the
cosine of its latitude. -/
structure Located.Right (D : AprsFloats) (p : Nat) (s : Located) : Prop where
  loc : (s.site.own p).loc = s.latest
  cosLat : ∀ pos ∈ (s.site.own p).loc, pos.cosLat = D.cosf pos.lat

/-- A packet that updates the location has a position, and not that of a frame inside, or it has
the coordinates that are known anyway. A client whose location is known is not upgraded, unless
the cosine is zero. -/
def LocAction.Fits (p : Nat) (s : Located) (a : LocAction D) : Prop :=
  match a with
  | .upgrade .. => ∀ pos ∈ (s.site.own p).loc, D.cosf pos.lat = 0
  | a => ∀ q ∈ s.site.parsed p a, q.updatesLoc = true →
      (q.pb.flags &&& fHaspos ≠ 0 ∧ q.pb.packettype &&& t3rdparty = 0) ∨
        (s.site.own p).loc = some q.pb.position

theorem upgradedLoc_eq (j : ExactCJson) (loc : Option Position) :
    upgradedLoc j.toCJson loc = loc.map fun pos => ⟨pos.lat, pos.lng, 0⟩ := by
  unfold upgradedLoc resumeLoc
  cases loc <;> simp [JsonItem.number?, j.valuefloat_float, Position.zero]

/-- The locations of the model of an upgrade are those of the clients that are restored. -/
theorem LiveClient.Restored.loc_eq {env : UpgradeEnv} {l : LiveListener} {c c' : LiveClient}
    (h : c.Restored env l c') : c'.loc = upgradedLoc env.cjson c.loc := by
  rw [h.loc]
  unfold upgradedLoc resumeLoc
  cases c.loc <;> simp [JsonItem.number?, Position.zero]

/-- A packet brings a position that the client has reported of itself only if it updates the
location. -/
theorem ownPosition_of_updatesLoc {w : Site} {p : Nat} {a : LocAction D} {q : Parsed}
    (hq : w.parsed p a = some q) :
    q.ownPosition =
      if q.updatesLoc = true ∧ q.pb.flags &&& fHaspos ≠ 0 ∧ q.pb.packettype &&& t3rdparty = 0 then
        some q.pb.position
      else none := by
  unfold Parsed.ownPosition
  by_cases hpos : q.pb.flags &&& fHaspos = 0
  · have hself : q.selfReport = false := by simp [Parsed.selfReport, hpos]
    simp [hself, hpos]
  · have hplaced := Site.parsed_positioned hq hpos
    refine if_congr ?_ rfl rfl
    rw [Bool.and_eq_true]
    constructor
    · rintro ⟨ho, hself⟩
      have hown := hplaced.own_iff.mp (by simpa using (Bool.and_eq_true_iff.mp hself).2)
      exact ⟨hplaced.updatesLoc ho hself, hpos, hown.2⟩
    · rintro ⟨hupdates, -, hinside⟩
      simp only [Parsed.updatesLoc, Bool.and_eq_true, bne_iff_ne] at hupdates
      exact ⟨hupdates.2.1, hplaced.selfReport hpos hupdates.2.2 hinside⟩

namespace Located.Right

variable {p : Nat} {s : Located}

/-- A step other than an upgrade. -/
theorem update_iff (h : s.Right D p) {a : LocAction D}
    (ha : ∀ j shared session, a ≠ .upgrade j shared session) :
    (locatedStep p s a).Right D p ↔ ∀ q ∈ s.site.parsed p a, q.updatesLoc = true →
      (q.pb.flags &&& fHaspos ≠ 0 ∧ q.pb.packettype &&& t3rdparty = 0) ∨
        (s.site.own p).loc = some q.pb.position := by
  have hloc := s.site.locStep_loc p a ha
  have hkept : ∀ {t : Located}, (t.site.own p).loc = (s.site.own p).loc → t.latest = s.latest →
      t.Right D p := fun hl ht => ⟨by rw [hl, ht, h.loc], by rw [hl]; exact h.cosLat⟩
  cases hcollects : s.site.collects p a with
  | true =>
    have hparsed : s.site.parsed p a = none := by
      cases a with
      | line => cases hcollects
      | site => rfl
      | upgrade => rfl
    rw [hcollects] at hloc
    rw [hparsed]
    refine iff_of_true ⟨?_, ?_⟩ nofun
    · simp [locatedStep, hloc, hcollects]
    · simp [locatedStep, hloc]
  | false =>
    simp only [hcollects, Bool.false_eq_true, if_false] at hloc
    cases hparsed : s.site.parsed p a with
    | none =>
      rw [hparsed] at hloc
      exact iff_of_true (hkept hloc (by simp [locatedStep, hcollects, hparsed])) nofun
    | some q =>
      have hown := ownPosition_of_updatesLoc hparsed
      simp only [hparsed] at hloc
      simp only [Option.mem_some_iff, forall_eq']
      cases hupdates : q.updatesLoc with
      | false =>
        simp only [hupdates, Bool.false_eq_true, if_false, false_and] at hloc hown
        refine iff_of_true (hkept hloc ?_) nofun
        simp [locatedStep, hcollects, hparsed, hown]
      | true =>
        simp only [hupdates, if_true, true_and] at hloc hown
        by_cases hgood : q.pb.flags &&& fHaspos ≠ 0 ∧ q.pb.packettype &&& t3rdparty = 0
        · rw [if_pos hgood] at hown
          refine iff_of_true ⟨?_, ?_⟩ fun _ => .inl hgood
          · simp [locatedStep, hcollects, hparsed, hloc, hown]
          · simp [locatedStep, hloc, (Site.parsed_positioned hparsed hgood.1).cosLat]
        · -- the location is that of the packet, and the latest position is still the old one
          rw [if_neg hgood] at hown
          have hlatest : (locatedStep p s a).latest = (s.site.own p).loc := by
            simp [locatedStep, hcollects, hparsed, hown, h.loc]
          constructor
          · intro hright _
            rw [← hlatest, ← hright.loc]
            exact .inr hloc
          · intro hfits
            have hsame := (hfits rfl).resolve_left hgood
            exact hkept (hloc.trans hsame.symm) (by rw [hlatest, h.loc])

theorem step_iff (h : s.Right D p) (a : LocAction D) :
    (locatedStep p s a).Right D p ↔ a.Fits p s := by
  cases a with
  | line p' env line => exact h.update_iff fun _ _ _ heq => by cases heq
  | site act => exact h.update_iff fun _ _ _ heq => by cases heq
  | upgrade j shared session =>
    have hloc : ((locatedStep p s (.upgrade j shared session : LocAction D)).site.own p).loc =
        (s.site.own p).loc.map fun pos => ⟨pos.lat, pos.lng, 0⟩ := upgradedLoc_eq j _
    have hlatest : (locatedStep p s (.upgrade j shared session : LocAction D)).latest =
        (s.site.own p).loc := h.loc.symm
    unfold LocAction.Fits
    have hcos := h.cosLat
    constructor
    · intro hright pos hpos
      have hsame := hright.loc
      rw [hloc, hlatest, hpos] at hsame
      rw [← hcos pos hpos]
      exact (congrArg Position.cosLat (Option.some.inj hsame)).symm
    · intro hfits
      have hzero : (s.site.own p).loc.map (fun pos => (⟨pos.lat, pos.lng, 0⟩ : Position)) =
          (s.site.own p).loc := by
        cases hpos : (s.site.own p).loc with
        | none => rfl
        | some pos =>
          have hcosLat : pos.cosLat = 0 := by rw [hcos pos hpos, hfits pos hpos]
          rw [Option.map_some, ← hcosLat]
      exact ⟨by rw [hloc, hzero, hlatest], by rw [hloc, hzero]; exact hcos⟩

end Located.Right

/-- In every run of lines, other steps and upgrades, the location of a client is the latest
position that it has reported of itself, with its cosine, if and only if every update is made
for such a position, and no location is restored. -/
theorem location_provenance_iff (D : AprsFloats) (w : Site) (p : Nat) (hw : (w.own p).loc = none)
    (as : List (LocAction D)) :
    Always (locatedStep p) (Located.Right D p) ⟨w, none⟩ as ↔
      Meets (locatedStep p) (fun s a => a.Fits p s) ⟨w, none⟩ as := by
  refine always_iff_meets (I := fun _ => True) (fun _ _ _ => trivial)
    (fun s a _ h => h.step_iff a) trivial ⟨hw, fun pos hpos => ?_⟩ as
  rw [hw] at hpos
  cases hpos

/-- The floating point numbers for the compressed position `/5L!!<*e7>`: 49.5 degrees north,
72.75 degrees west. -/
private def locFloats : AprsFloats where
  cosf _ := 0x3f26423a
  filterLat2rad _ := 0x3f5d2b0a
  filterLon2rad _ := 0xbfa2866b
  outOfRange _ _ := false
  nmea _ _ := none
  mice _ _ := none
  compressed _ := ⟨0x42460000, 0xc2918001, ch '/', ch '>'⟩
  uncompressed _ := none

private def locEnv (packet : Bytes) : LocEnv locFloats where
  toLineEnv :=
    { IncomingEnv.unrestricted with
      leaf := aprsLeaves locFloats (ascii "APRS")
        (Area.load ⟨fun _ => 0, fun _ => none⟩ (packet ++ crlf ++ [0])) (packet.length + 2)
      leaf_ok := (aprsLeaves_place _ _ _ _).onlySetPosition }
  haveFilteredListeners := false
  entrycallCell := true
  wxCell := true
  heardCell := none
  parseAprsMessage _ := none
  handlers := {
    serverid := ascii "TESTING"
    passcode := ascii "31421"
    verstrAprsis := ascii "aprsc 2"
    quirksMode := false
    disallowLogin := fun _ => false
    incomingParse := fun _ _ => .done 0
    incomingEdits := fun _ line => line
    filterParse := fun neg pos arg => ((neg, pos ++ [arg]), 0)
    parseArgs := fun s => [s]
    sslStrerror := fun _ => []
    x509Error := []
    msgid := ascii "1" }
  udp := false
  writes _ := .sent
  leaf_eq := ⟨_, _, _, rfl⟩

/-- A server with one client. -/
private def locSite : Site where
  shared := {
    net := Net.init.collect 0 .verifiedInbound false 0
    entrycall := .init
    wx := .init
    heard := fun _ => .init }
  own _ := ⟨none, freshSession {
    handlerLineIn := .incoming
    state := .connected
    flags := clflagsInport
    username := ascii "OH7AA"
    validated := 1
    failedCmds := 0
    quirksMode := false
    appName := []
    appVersion := []
    udpclient := false
    udpPort := 0
    cert := none
    filterS := []
    negUserFilters := []
    posUserFilters := [] }⟩

/-- The client reports its position. -/
private def reportAction : LocAction locFloats :=
  .line 0 (locEnv (ascii "OH7AA>APRS,TCPIP*,qAC,TESTING:!/5L!!<*e7>7P["))
    (ascii "OH7AA>APRS:!/5L!!<*e7>7P[")

/-- The client sends a position packet without coordinates. -/
private def garbledAction : LocAction locFloats :=
  .line 0 (locEnv (ascii "OH7AA>APRS,TCPIP*,qAC,TESTING:!no coordinates"))
    (ascii "OH7AA>APRS:!no coordinates")

/-- The client is where it has said. -/
theorem location_of_report :
    Always (locatedStep 0) (Located.Right locFloats 0) ⟨locSite, none⟩ [reportAction] ∧
      ((run (locatedStep 0) ⟨locSite, none⟩ [reportAction]).site.own 0).loc =
        some ⟨0x3f5d2b0a, 0xbfa2866b, 0x3f26423a⟩ := by
  refine ⟨(location_provenance_iff locFloats locSite 0 rfl [reportAction]).mpr ⟨?_, trivial⟩, ?_⟩
  · show ∀ q ∈ locSite.parsed 0 reportAction, q.updatesLoc = true →
      (q.pb.flags &&& fHaspos ≠ 0 ∧ q.pb.packettype &&& t3rdparty = 0) ∨
        (locSite.own 0).loc = some q.pb.position
    decide
  · decide

/-- A position packet without coordinates moves the client to 0 degrees north, 0 degrees
east. -/
theorem location_without_position :
    ¬Always (locatedStep 0) (Located.Right locFloats 0) ⟨locSite, none⟩
      [reportAction, garbledAction] := by
  intro h
  have hright := h.last.loc
  have hloc : ((run (locatedStep 0) ⟨locSite, none⟩ [reportAction, garbledAction]).site.own 0).loc =
      some .zero := by
    decide
  have hlatest : (run (locatedStep 0) ⟨locSite, none⟩ [reportAction, garbledAction]).latest =
      some ⟨0x3f5d2b0a, 0xbfa2866b, 0x3f26423a⟩ := by
    decide
  rw [hloc, hlatest] at hright
  revert hright
  decide

end Aprsc
