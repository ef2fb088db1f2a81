-- SUMMARY: Lines of unverified clients change nothing that is shared, in one step and in whole runs.
import Aprsc.Incoming.Unverified
import Aprsc.Server.Lines

/-!
# Unverified clients

With `disallow_unverified`, a line from a client that is not verified leaves the server as
it was, but for what belongs to that client. So a run of the server comes to the same
packets, tables and heard lists if these lines are left out.
-/

namespace Aprsc

namespace Site

/-! ## One line -/

/-- What a line shares with the server. -/
theorem step_line_shared (w : Site) (p : Nat) (env : SiteEnv) (s : Bytes) :
    (w.step (.line p env s)).shared =
      match w.shared.net.conns p with
      | none => w.shared
      | some c =>
          if c.client.ready && isPacket s then
            match Aprsc.incomingParse env.toIncomingEnv c.client s with
            | .dropped _ => w.shared
            | .queued _ pb => w.shared.queue env p c pb
          else w.shared := by
  show (w.line p env s).shared = _
  unfold line
  cases w.shared.net.conns p with
  | none => rfl
  | some c =>
    simp only
    cases hready : c.client.ready with
    | false => rfl
    | true =>
      simp only [if_true, Bool.true_and, incomingHandler, runHandler_shared]
      split
      next => exact w.incomingParse_shared env p c s
      next => rfl

/-- What a line does not share belongs to its client. -/
theorem step_line_own (w : Site) (p : Nat) (env : SiteEnv) (s : Bytes) :
    ∃ o, (w.step (.line p env s)).own = Function.update w.own p o := by
  show ∃ o, (w.line p env s).own = _
  unfold line
  cases w.shared.net.conns p with
  | none => exact ⟨w.own p, by simp⟩
  | some c =>
    simp only
    split
    next =>
      have hparse : ∃ o, (if isPacket s then w.incomingParse env p c s else (.done 0, w)).2.own =
          Function.update w.own p o := by
        split
        next => exact w.incomingParse_own env p c s
        next => exact ⟨w.own p, by simp⟩
      obtain ⟨o, ho⟩ := hparse
      simp only [incomingHandler, runHandler, setOwn]
      rw [ho]
      exact ⟨_, Function.update_idem _ _ _⟩
    next => exact ⟨_, rfl⟩

/-- A line from an unverified client changes nothing but what belongs to the client. -/
theorem step_unverified {w : Site} {p : Nat} {c : Connection} {env : SiteEnv} (s : Bytes)
    (hc : w.shared.net.conns p = some c) (hval : c.client.validated = false)
    (hset : env.cfg.disallowUnverified = true) : ∃ o, w.step (.line p env s) = w.setOwn p o := by
  obtain ⟨o, ho⟩ := w.step_line_own p env s
  refine ⟨o, ?_⟩
  have hshared : (w.step (.line p env s)).shared = w.shared := by
    rw [step_line_shared, hc]
    simp only
    split
    next =>
      cases hparse : Aprsc.incomingParse env.toIncomingEnv c.client s with
      | dropped rc => rfl
      | queued rc pb =>
        obtain ⟨_, _, _, _, _, _, hp⟩ := queued_passage hparse
        exact absurd (hp.verified hset).1 (by simp [hval])
    next => rfl
  exact congrArg₂ Site.mk hshared ho

/-! ## Runs -/

/-- The action is a line from an unverified client. -/
def unverifiedLine (w : Site) : SiteAction → Bool
  | .line p _ _ => (w.shared.net.conns p).any (! ·.client.validated)
  | _ => false

/-- The actions of a run without the lines of clients that are unverified when they send
them. -/
def verifiedActions (w : Site) : List SiteAction → List SiteAction
  | [] => []
  | act :: acts =>
      if w.unverifiedLine act then (w.step act).verifiedActions acts
      else act :: (w.step act).verifiedActions acts

/-- What is shared depends on nothing else. -/
theorem step_shared_congr {w v : Site} (h : w.shared = v.shared) (act : SiteAction) :
    (w.step act).shared = (v.step act).shared := by
  cases act with
  | collect p client noTx wk session =>
    simp only [step, h]
    split
    next => rfl
    next => exact h
  | net act =>
    simp only [step, h]
    split <;> simp only [h]
  | line p env s => rw [step_line_shared, step_line_shared, h]
  | cleanup env tick => simp only [step, h]
  | dupecheckCleanup env tick => simp only [step, h]
  | heardExpire p storetime tick => simp only [step, h]

/-- The lines of unverified clients can be left out of a run. -/
theorem run_verifiedActions {w v : Site} (acts : List SiteAction)
    (hset : ∀ p env s, .line p env s ∈ acts → env.cfg.disallowUnverified = true)
    (h : w.shared = v.shared) :
    (w.run acts).shared = (v.run (w.verifiedActions acts)).shared := by
  induction acts generalizing w v with
  | nil => exact h
  | cons act acts ih =>
    have hrest : ∀ p env s, .line p env s ∈ acts → env.cfg.disallowUnverified = true :=
      fun p env s hmem => hset p env s (List.mem_cons_of_mem _ hmem)
    simp only [verifiedActions]
    split
    next hline =>
      refine ih hrest ?_
      cases act with
      | line p env s =>
        cases hc : w.shared.net.conns p with
        | none => simp [unverifiedLine, hc] at hline
        | some c =>
          have hval : c.client.validated = false := by simpa [unverifiedLine, hc] using hline
          obtain ⟨o, ho⟩ := step_unverified s hc hval (hset p env s List.mem_cons_self)
          rw [ho]
          exact h
      | _ => cases hline
    next => exact ih hrest (step_shared_congr h act)

end Site

/-- With `disallow_unverified`, a line from an unverified client changes nothing but what
belongs to the client, and the lines of such clients make no difference to what is shared
at the end of a run. No packet of any client is queued whose header was received with a
`TCPXX` entry in its path, nor one with a construct of type `X`. -/
theorem unverified_injects_nothing :
    (∀ (w : Site) (p : Nat) (c : Connection) (env : SiteEnv) (s : Bytes),
      w.shared.net.conns p = some c → c.client.validated = false →
      env.cfg.disallowUnverified = true → ∃ o, w.step (.line p env s) = w.setOwn p o) ∧
    (∀ (w : Site) (acts : List SiteAction),
      (∀ p env s, .line p env s ∈ acts → env.cfg.disallowUnverified = true) →
      (w.run acts).shared = (w.run (w.verifiedActions acts)).shared) ∧
    ∀ (env : IncomingEnv) (c : Client) (line : Bytes) (rc : Int) (pb : Pbuf),
      env.cfg.disallowUnverified = true → incomingParse env c line = .queued rc pb →
      c.validated = true ∧ ¬ ascii ",TCPXX" <:+: headerText line ∧ pb.qType ≠ ch 'X' := by
  refine ⟨fun w p c env s hc hval hset => Site.step_unverified s hc hval hset,
    fun w acts hset => Site.run_verifiedActions acts hset rfl, ?_⟩
  intro env c line rc pb hset hq
  obtain ⟨s, h, out, qc, cls, f, hp⟩ := queued_passage hq
  exact ⟨(hp.verified hset).1, hp.no_tcpxx hset, hp.qType_ne_X hset⟩

/-- A server that does not allow packets of unverified clients. -/
private def unverifiedEnv : SiteEnv where
  toLineEnv :=
    { LineEnv.unrestricted with cfg := { Config.unrestricted with disallowUnverified := true } }
  haveFilteredListeners := true
  entrycallCell := true
  wxCell := true
  heardCell := some (List.replicate 10 0)
  parseAprsMessage := fun _ => none
  handlers := {
    serverid := ascii "TESTING"
    passcode := ascii "31421"
    verstrAprsis := ascii "aprsc 2"
    quirksMode := false
    disallowLogin := fun _ => false
    incomingParse := fun _ _ => .done 0
    incomingEdits := fun _ line => line
    filterParse := fun neg pos arg => ((neg, pos ++ [arg]), 0)
    parseArgs := fun s => [s]
    sslStrerror := fun _ => []
    x509Error := []
    msgid := ascii "1" }
  udp := false
  writes := fun _ => .sent

/-- A client on an igate port. -/
private def unverifiedClient (validated : Bool) : Client :=
  .onPort (clflagsInport ||| clflagsIgate) validated (by decide)

private def unverifiedSession : Session where
  handlerLineIn := .incoming
  state := .connected
  flags := clflagsInport ||| clflagsIgate
  username := ascii "OH7AA"
  validated := 0
  failedCmds := 0
  quirksMode := false
  appName := []
  appVersion := []
  udpclient := false
  udpPort := 0
  cert := none
  filterS := []
  negUserFilters := []
  posUserFilters := []

private def unverifiedPacket : Bytes := ascii "OH7AB>APRS,qAR,OH7AC:>test"

/-- An unverified and a verified client are connected. -/
private def unverifiedSite : Site where
  shared := {
    net := (Net.init.collect 0 (unverifiedClient false) false 0).collect 1 (unverifiedClient true)
      false 0
    entrycall := .init
    wx := .init
    heard := fun _ => .init }
  own := fun _ => ⟨none, freshSession unverifiedSession⟩

/-- The packet of the unverified client is dropped, the same one of the verified client is
queued. -/
theorem unverified_line_dropped :
    (∃ o, unverifiedSite.step (.line 0 unverifiedEnv unverifiedPacket) = unverifiedSite.setOwn 0 o) ∧
      (unverifiedSite.run [.line 0 unverifiedEnv unverifiedPacket,
          .line 1 unverifiedEnv unverifiedPacket]).shared =
        (unverifiedSite.run [.line 1 unverifiedEnv unverifiedPacket]).shared ∧
      ∃ pb, incomingParse unverifiedEnv.toIncomingEnv (unverifiedClient true) unverifiedPacket =
        .queued 0 pb ∧ pb.qType ≠ ch 'X' := by
  obtain ⟨pb, hpb⟩ : ∃ pb, incomingParse unverifiedEnv.toIncomingEnv (unverifiedClient true)
      unverifiedPacket = .queued 0 pb := ⟨_, rfl⟩
  refine ⟨?_, ?_, pb, hpb, ?_⟩
  · exact unverified_injects_nothing.1 unverifiedSite 0 ⟨unverifiedClient false, false, 0, 0⟩
      unverifiedEnv unverifiedPacket rfl rfl rfl
  · refine unverified_injects_nothing.2.1 unverifiedSite [.line 0 unverifiedEnv unverifiedPacket,
      .line 1 unverifiedEnv unverifiedPacket] ?_
    intro p env s hmem
    simp only [List.mem_cons, SiteAction.line.injEq, List.not_mem_nil, or_false] at hmem
    rcases hmem with ⟨-, rfl, -⟩ | ⟨-, rfl, -⟩ <;> rfl
  · exact (unverified_injects_nothing.2.2 unverifiedEnv.toIncomingEnv (unverifiedClient true)
      unverifiedPacket 0 pb rfl hpb).2.2

end Aprsc
