-- SUMMARY: A client that is logged in is known by the name and the proof on the line that logged it in, and by no other.
import Aprsc.Base.Runs
import Aprsc.Worker.Login

/-!
# Validation of logins

The username and the validation level are written before it is known whether a login is
accepted, and a login that is turned down leaves them. The line that is accepted writes
both again. What is left of other lines is a level that a certificate has given, on a port
that asks for one, and there it is asked for on each line.
-/

namespace Aprsc

open ResM Runs

/-! ## Proofs on a line -/

/-- The passcodes that the options of a login give. -/
def loginPasscodes : List Bytes → List Bytes
  | [] => []
  | arg :: args =>
      if caseEq arg (ascii "pass") then
        match args with
        | [] => []
        | p :: args => p :: loginPasscodes args
      else if caseEq arg (ascii "vers") then
        match args with
        | [] => []
        | [_] => []
        | _ :: _ :: args => loginPasscodes args
      else if caseEq arg (ascii "udp") then
        match args with
        | [] => []
        | _ :: args => loginPasscodes args
      else if hasCase (ascii "filter") arg then []
      else loginPasscodes args

/-- What proves a level of validation on a line: the certificate is good, on a port that
asks for one, or one of the passcodes is the one of the user. -/
def Proven (cert : Option CertCheck) (username : Bytes) (options : List Bytes) (validated : Nat) :
    Prop :=
  match cert with
  | some check => check.res = 0 ∧ validated = validatedStrong
  | none =>
      validated = 0 ∨
        (validated = validatedWeak ∧ ∃ p ∈ loginPasscodes options, atoi p = aprsPasscode username)

/-- The arguments of a line log a user in with a level of validation. -/
def LogsIn (cert : Option CertCheck) (argv : List Bytes) (username : Bytes) (validated : Nat) :
    Prop :=
  ∃ cmd options, argv = cmd :: username :: options ∧ Proven cert username options validated

/-! ## One line -/

/-- A client that is not logged in, with a name and a level that may be left over. -/
structure Applying (username : Bytes) (validated : Nat) (c : Session) : Prop where
  handler : c.handlerLineIn = .login
  state : c.state ≠ .connected
  username : c.username = username
  validated : c.validated = validated

/-- A client that is logged in. -/
structure LoggedInAs (username : Bytes) (validated : Nat) (c : Session) : Prop where
  handler : c.handlerLineIn = .incoming
  username : c.username = username
  validated : c.validated = validated

section

variable {env : HandlerEnv} {cert : Option CertCheck} {u : Bytes} {v : Nat}

theorem Applying.set {c c' : Session} (h : Applying u v c) (hhandler : c'.handlerLineIn = c.handlerLineIn)
    (hstate : c'.state = c.state) (husername : c'.username = c.username)
    (hvalidated : c'.validated = c.validated) : Applying u v c' where
  handler := hhandler.trans h.handler
  state := hstate ▸ h.state
  username := husername.trans h.username
  validated := hvalidated.trans h.validated

theorem failedLogin_applying (rc : Int) : Preserves (Applying u v) (failedLogin rc) :=
  failedLogin_preserves (fun _ hc => hc.set rfl rfl rfl rfl) rc

theorem rejectLogin_applying (text : String) : Preserves (Applying u v) (rejectLogin text) :=
  rejectLogin_preserves (fun _ hc => hc.set rfl rfl rfl rfl) text

/-- The options are read: the client is as it was, and a passcode is one of the given ones. -/
def PasscodeRead (u : Bytes) (v : Nat) (pass : Option Bytes) (passcodes : List Bytes)
    (e : LoginEnd) (r : Resource Session WriteOutcome) : Prop :=
  Applying u v r.obj ∧ ∀ p, e = .done (some p) → pass = some p ∨ p ∈ passcodes

section
variable {pass : Option Bytes} {passcodes : List Bytes}

theorem done_passcodeRead :
    Ensures (fun r => Applying u v r.obj) (pure (.done pass) : ClientM LoginEnd)
      (PasscodeRead u v pass passcodes) :=
  Ensures.pure fun _ hr => ⟨hr, fun _ hp => .inl (LoginEnd.done.inj hp)⟩

theorem failed_passcodeRead (rc : Int) :
    Ensures (fun r => Applying u v r.obj) (pure (.failed rc) : ClientM LoginEnd)
      (PasscodeRead u v pass passcodes) :=
  Ensures.pure fun _ hr => ⟨hr, nofun⟩

theorem lost_passcodeRead (rc : Int) :
    Ensures (fun r => Applying u v r.obj) (pure (.lost rc) : ClientM LoginEnd)
      (PasscodeRead u v pass passcodes) :=
  Ensures.pure fun _ hr => ⟨hr, nofun⟩

end

theorem loginFilters_passcodeRead (pass : Option Bytes) (passcodes args : List Bytes) :
    Ensures (fun r => Applying u v r.obj) (loginFilters env pass args)
      (PasscodeRead u v pass passcodes) := by
  induction args with
  | nil => exact done_passcodeRead
  | cons arg args ih =>
    refine .get_obj_bind fun c _ => .modify_obj_bind (fun c hc => hc.set rfl rfl rfl rfl) ?_
    refine .ite (fun _ => ?_) fun _ => ih
    exact (clientPrintf_preserves _).ensures_bind fun rc =>
      .ite (fun _ => lost_passcodeRead rc) fun _ => ih

theorem loginSetAppName_applying (app ver : Bytes) (c : Session) (hc : Applying u v c) :
    Applying u v (loginSetAppName env app ver c) :=
  hc.set rfl rfl rfl rfl

theorem loginOptions_passcodeRead (pass : Option Bytes) (args : List Bytes) :
    Ensures (fun r => Applying u v r.obj) (loginOptions env pass args)
      (PasscodeRead u v pass (loginPasscodes args)) := by
  fun_induction loginPasscodes args generalizing pass with
  | case1 =>
    simp only [loginOptions]
    exact done_passcodeRead
  | case2 arg hpass =>
    simp only [loginOptions, if_pos hpass]
    exact done_passcodeRead
  | case3 arg hpass p args ih =>
    simp only [loginOptions, if_pos hpass]
    refine (ih (some p)).mono (fun _ h => h) fun e r h => ⟨h.1, fun q hq => .inr ?_⟩
    obtain heq | hmem := h.2 q hq
    · exact List.mem_cons.mpr (.inl (Option.some.inj heq).symm)
    · exact List.mem_cons_of_mem p hmem
  | case4 arg hpass hvers =>
    simp only [loginOptions, if_neg hpass, if_pos hvers]
    exact done_passcodeRead
  | case5 arg hpass hvers app =>
    simp only [loginOptions, if_neg hpass, if_pos hvers]
    refine .modify_obj_bind (loginSetAppName_applying app []) (.get_obj_bind fun c _ => ?_)
    refine .ite (fun _ => done_passcodeRead) fun _ => ?_
    exact (clientPrintf_preserves _).ensures_bind fun rc => failed_passcodeRead rc
  | case6 arg hpass hvers app ver args ih =>
    simp only [loginOptions, if_neg hpass, if_pos hvers]
    refine .modify_obj_bind (loginSetAppName_applying app ver) (.get_obj_bind fun c _ => ?_)
    refine .ite (fun _ => ?_) fun _ => ih pass
    exact (clientPrintf_preserves _).ensures_bind fun rc => failed_passcodeRead rc
  | case7 arg hpass hvers hudp =>
    simp only [loginOptions, if_neg hpass, if_neg hvers, if_pos hudp]
    exact done_passcodeRead
  | case8 arg hpass hvers hudp port args ih =>
    simp only [loginOptions, if_neg hpass, if_neg hvers, if_pos hudp]
    refine .ite (fun _ => done_passcodeRead) fun _ => .get_obj_bind fun c _ => .ite (fun _ => ?_) fun _ => ?_
    · exact .modify_obj_bind (fun c hc => hc.set rfl rfl rfl rfl) (ih pass)
    · exact (clientPrintf_preserves _).ensures_bind fun rc =>
        .ite (fun _ => lost_passcodeRead rc) fun _ => ih pass
  | case9 arg args hpass hvers hudp hfilter =>
    unfold loginOptions
    rw [if_neg hpass, if_neg hvers, if_neg hudp, if_pos hfilter]
    refine .get_obj_bind fun c _ => .ite (fun _ => ?_) fun _ => ?_
    · exact (clientPrintf_preserves _).ensures_bind fun rc =>
        .ite (fun _ => lost_passcodeRead rc) fun _ => done_passcodeRead
    · exact .modify_obj_bind (fun c hc => hc.set rfl rfl rfl rfl) (loginFilters_passcodeRead pass _ args)
  | case10 arg args hpass hvers hudp hfilter ih =>
    unfold loginOptions
    rw [if_neg hpass, if_neg hvers, if_neg hudp, if_neg hfilter]
    exact ih pass

/-- After a line the client applies still, with nothing proven on a port without certificates,
or it is logged in with what the line proves. -/
inductive LineDone (cert : Option CertCheck) (argv : List Bytes) (c : Session) : Prop where
  | applying (u : Bytes) (v : Nat) (client : Applying u v c) (unproven : cert = none → v = 0)
  | loggedIn (u : Bytes) (v : Nat) (client : LoggedInAs u v c) (proven : LogsIn cert argv u v)

/-- The level after the passcode of a login was looked at. -/
def levelAfter (sslValidated : Bool) (pass : Option Bytes) (u : Bytes) (v : Nat) : Nat :=
  if !sslValidated && pass.any fun p => 0 ≤ atoi p && atoi p == aprsPasscode u then validatedWeak
  else v

/-- Without a certificate only a good passcode gives a level. -/
theorem levelAfter_weak (pass : Option Bytes) (u : Bytes) :
    levelAfter false pass u 0 = 0 ∨
      (levelAfter false pass u 0 = validatedWeak ∧ ∃ p, pass = some p ∧ atoi p = aprsPasscode u) := by
  unfold levelAfter
  split
  · rename_i hcode
    right
    cases pass with
    | none => simp at hcode
    | some p => exact ⟨rfl, p, rfl, by simp_all⟩
  · exact .inl rfl

/-- The reply and the rest of a login that succeeded keep the name and the level. -/
theorem loginSucceeded_loggedIn (sslValidated : Bool) (pass : Option Bytes) :
    Ensures (fun r => Applying u v r.obj) (loginSucceeded env sslValidated pass) fun _ r =>
      LoggedInAs u (levelAfter sslValidated pass u v) r.obj := by
  refine .modify_obj_bind (J := LoggedInAs u (levelAfter sslValidated pass u v)) (fun c hc => ?_) ?_
  · refine ⟨rfl, hc.username, ?_⟩
    rw [← hc.username, ← hc.validated]
    rfl
  · refine .get_obj_bind fun c _ => (clientPrintf_preserves _).ensures_bind fun rc => ?_
    refine .ite (fun _ => Ensures.pure fun _ hr => hr) fun _ => ?_
    exact .modify_obj_bind (fun c hc => ⟨hc.handler, hc.username, hc.validated⟩)
      (Ensures.pure fun _ hr => hr)

/-- The options and the end of a login, on a port without certificates. -/
theorem loginWithOptions_weak (cmd : Bytes) (options : List Bytes) :
    Ensures (fun r => Applying u 0 r.obj) (loginWithOptions env false options) fun _ r =>
      LineDone none (cmd :: u :: options) r.obj := by
  refine (loginOptions_passcodeRead none options).bind fun e => ?_
  cases e with
  | failed rc => exact fun r hr => .applying u 0 (failedLogin_applying rc r hr.1) fun _ => rfl
  | lost rc => exact Ensures.pure fun _ h => .applying u 0 h.1 fun _ => rfl
  | done pass =>
    intro r hr
    refine .loggedIn u _ (loginSucceeded_loggedIn false pass r hr.1) ⟨cmd, options, rfl, ?_⟩
    obtain hzero | ⟨hweak, p, rfl, hcode⟩ := levelAfter_weak pass u
    · exact .inl hzero
    · obtain hnone | hmem := hr.2 p rfl
      · cases hnone
      · exact .inr ⟨hweak, p, hmem, hcode⟩

/-- The options and the end of a login whose certificate is good. -/
theorem loginWithOptions_strong (cmd : Bytes) (options : List Bytes) {check : CertCheck}
    (hcheck : check.res = 0) :
    Ensures (fun r => Applying u validatedStrong r.obj) (loginWithOptions env true options)
      fun _ r => LineDone (some check) (cmd :: u :: options) r.obj := by
  refine (loginOptions_passcodeRead none options).bind fun e => ?_
  cases e with
  | failed rc => exact fun r hr => .applying u _ (failedLogin_applying rc r hr.1) nofun
  | lost rc => exact Ensures.pure fun _ h => .applying u _ h.1 nofun
  | done pass =>
    exact fun r hr => .loggedIn u _ (loginSucceeded_loggedIn true pass r hr.1)
      ⟨cmd, options, rfl, hcheck, rfl⟩

/-- The certificate is checked, and a good one sets the level. -/
theorem loginClientValidateCert_applying (check : CertCheck) :
    Ensures (fun r => Applying u v r.obj) (loginClientValidateCert env check) fun a r =>
      (a = 1 ∧ check.res = 0 ∧ Applying u validatedStrong r.obj) ∨ (a ≠ 1 ∧ Applying u v r.obj) := by
  intro r hr
  by_cases hres : check.res = 0
  · have hone := (@validateCert_eq_one_iff env check r).mpr hres
    refine .inl ⟨hone, hres, ?_⟩
    unfold loginClientValidateCert
    simp only [hres, if_true]
    exact ⟨hr.handler, hr.state, hr.username, rfl⟩
  · have hone := mt (@validateCert_eq_one_iff env check r).mp hres
    refine .inr ⟨hone, ?_⟩
    unfold loginClientValidateCert
    simp only [hres, if_false]
    refine Preserves.bind (clientPrintf_preserves _) (fun rc => ?_) r hr
    exact .modify_bind (fun c hc => hc.set rfl rfl rfl rfl) (.ite (.pure _) (.pure _))

theorem loginArgs_lineDone (hcert : cert = none → v = 0) (argv : List Bytes) :
    Ensures (fun r => Applying u v r.obj ∧ r.obj.cert = cert) (loginArgs env argv) fun _ r =>
      LineDone cert argv r.obj := by
  have hreject : ∀ {u : Bytes} (text : String), Ensures
      (fun r => Applying u v r.obj ∧ r.obj.cert = cert) (rejectLogin text)
      fun _ r => LineDone cert argv r.obj := fun text r hr =>
    .applying _ v (rejectLogin_applying text r hr.1) hcert
  refine Ensures.bind (R := fun _ r => Applying u v r.obj ∧ r.obj.cert = cert) (fun _ hr => hr)
    fun _ => ?_
  cases argv with
  | nil => exact Ensures.pure fun _ hr => .applying u v hr.1 hcert
  | cons cmd args =>
    refine .ite (fun _ => Ensures.pure fun _ hr => .applying u v hr.1 hcert) fun _ => ?_
    cases args with
    | nil => exact hreject _
    | cons username options =>
      refine .ite (fun _ => ?_) fun _ => .ite (fun _ => hreject _) fun _ => ?_
      · exact fun r hr => .applying u v
          (Preserves.modify_bind (fun c hc => hc.set rfl rfl rfl rfl) (rejectLogin_applying _) r hr.1)
          hcert
      -- From here on the client has the name on the line.
      refine Ensures.bind (R := fun _ r => Applying username v r.obj ∧ r.obj.cert = cert)
        (fun r hr => ⟨⟨hr.1.handler, hr.1.state, rfl, hr.1.validated⟩, hr.2⟩) fun _ => ?_
      refine .ite (fun _ => hreject _) fun _ => .ite (fun _ => hreject _) fun _ =>
        .ite (fun _ => hreject _) fun _ => .ite (fun _ => hreject _) fun _ => ?_
      refine Ensures.bind (R := fun c r => c.cert = cert ∧ Applying username v r.obj)
        (fun r hr => ⟨hr.2, hr.1⟩) fun c => ?_
      rintro r ⟨hc, hr⟩
      rw [hc]
      cases cert with
      | none =>
        obtain rfl := hcert rfl
        exact loginWithOptions_weak cmd options r hr
      | some check =>
        refine Ensures.bind (Q := fun _ r => LineDone (some check) (cmd :: username :: options) r.obj)
          (loginClientValidateCert_applying check) (fun a => ?_) r hr
        refine .ite (fun hminus => ?_) fun _ => .ite (fun hnot => ?_) fun hone => ?_
        · rintro r (⟨hone, -⟩ | ⟨-, hr⟩)
          · rw [hminus] at hone
            cases hone
          · exact .applying username v (failedLogin_applying _ r hr) nofun
        · rintro r (⟨hone, -⟩ | ⟨-, hr⟩)
          · exact absurd hone hnot
          · exact .applying username v (failedLogin_applying _ r hr) nofun
        · rintro r (⟨-, hcheck, hr⟩ | ⟨hnot, -⟩)
          · exact loginWithOptions_strong cmd options hcheck r hr
          · exact absurd hnot hone

/-! ## All lines of a connection -/

/-- The certificate of the peer, checked for the name on a line, on a port that asks for it. -/
def certFor (certOf : Option (Bytes → CertCheck)) (argv : List Bytes) : Option CertCheck :=
  certOf.map fun check => check (argv.getD 1 [])

/-- A line goes to the handler of its client. -/
def sessionLine (env : HandlerEnv) (udp : Bool) (certOf : Option (Bytes → CertCheck))
    (r : Resource Session WriteOutcome) (line : Bytes) : Resource Session WriteOutcome :=
  (handlerLineIn env udp line
    { r with obj := { r.obj with cert := certFor certOf (parseArgsNoshell line).1 } }).2

/-- A line of a client that is not logged in. -/
theorem sessionLine_applying {certOf : Option (Bytes → CertCheck)} (hcert : certOf = none → v = 0)
    (udp : Bool) {r : Resource Session WriteOutcome} (h : Applying u v r.obj) (line : Bytes) :
    LineDone (certFor certOf (parseArgsNoshell line).1) (parseArgsNoshell line).1
      (sessionLine env udp certOf r line).obj := by
  have hline : Ensures
      (fun r => Applying u v r.obj ∧ r.obj.cert = certFor certOf (parseArgsNoshell line).1)
      (handlerLineIn env udp line) fun _ r =>
        LineDone (certFor certOf (parseArgsNoshell line).1) (parseArgsNoshell line).1 r.obj := by
    refine .get_obj_bind (I := fun c => Applying u v c ∧ c.cert = _) fun c hc => ?_
    rw [hc.1.handler]
    exact loginArgs_lineDone (fun hnone => hcert (Option.map_eq_none_iff.mp hnone)) _
  exact hline _ ⟨h.set rfl rfl rfl rfl, rfl⟩

/-- Of a client that is logged in, no line changes the name or the level. -/
theorem sessionLine_loggedIn {certOf : Option (Bytes → CertCheck)} (udp : Bool)
    (r : Resource Session WriteOutcome) (line : Bytes) (h : LoggedInAs u v r.obj) :
    LoggedInAs u v (sessionLine env udp certOf r line).obj := by
  have hline : Preserves (LoggedInAs u v) (handlerLineIn env udp line) := by
    refine .get_bind fun c hc => ?_
    rw [hc.handler]
    exact incomingHandler_preserves (fun _ _ _ _ hc => ⟨hc.handler, hc.username, hc.validated⟩) udp line
  exact hline _ ⟨h.handler, h.username, h.validated⟩

/-- The lines either leave a client that has not logged in, or one of them logs it in for good. -/
theorem sessionLines_cases {certOf : Option (Bytes → CertCheck)} (udp : Bool)
    (lines : List Bytes) {r : Resource Session WriteOutcome} (h : Applying u v r.obj)
    (hcert : certOf = none → v = 0) :
    (run (sessionLine env udp certOf) r lines).obj.state ≠ .connected ∨
    ∃ before line after username validated, lines = before ++ line :: after ∧
      (run (sessionLine env udp certOf) r before).obj.state ≠ .connected ∧
      LogsIn (certFor certOf (parseArgsNoshell line).1) (parseArgsNoshell line).1 username validated ∧
      Always (sessionLine env udp certOf) (fun r => LoggedInAs username validated r.obj)
        (run (sessionLine env udp certOf) r (before ++ [line])) after := by
  induction lines generalizing r u v with
  | nil => exact .inl h.state
  | cons line lines ih =>
    cases sessionLine_applying hcert udp h line with
    | applying u v hclient hunproven =>
      obtain hstate | ⟨before, line', after, username, validated, rfl, hbefore, hlogin, halways⟩ :=
        ih hclient fun hnone => hunproven (by rw [hnone]; rfl)
      · exact .inl hstate
      · exact .inr ⟨line :: before, line', after, username, validated, rfl, hbefore, hlogin, halways⟩
    | loggedIn u v hclient hproven =>
      refine .inr ⟨[], line, lines, u, v, rfl, h.state, hproven, ?_⟩
      exact always_of_step (I := fun r : Resource Session WriteOutcome => LoggedInAs u v r.obj)
        (sessionLine_loggedIn udp) hclient lines

end

/-! ## Result -/

/-- A client that has just connected. -/
structure Session.Fresh (c : Session) : Prop where
  handler : c.handlerLineIn = .login
  state : c.state = .login
  validated : c.validated = 0

/-- When a client is connected after some lines, one of them has logged it in: what its level
of validation says was proven on this line, for the username on it, and no later line has
changed the username or the level. -/
theorem validation_of_login_line (env : HandlerEnv) (udp : Bool)
    (certOf : Option (Bytes → CertCheck)) (lines : List Bytes) (r : Resource Session WriteOutcome)
    (hfresh : r.obj.Fresh)
    (hconnected : (run (sessionLine env udp certOf) r lines).obj.state = .connected) :
    ∃ before line after username validated, lines = before ++ line :: after ∧
      (run (sessionLine env udp certOf) r before).obj.state ≠ .connected ∧
      LogsIn (certFor certOf (parseArgsNoshell line).1) (parseArgsNoshell line).1 username validated ∧
      Always (sessionLine env udp certOf) (fun r => LoggedInAs username validated r.obj)
        (run (sessionLine env udp certOf) r (before ++ [line])) after := by
  have hstart : Applying r.obj.username 0 r.obj :=
    ⟨hfresh.handler, by rw [hfresh.state]; decide, rfl, hfresh.validated⟩
  obtain hstate | hlogin := sessionLines_cases udp lines hstart
    fun _ => rfl
  · exact absurd hconnected hstate
  · exact hlogin

private def validationEnv : HandlerEnv where
  serverid := ascii "TESTING"
  passcode := ascii "31421"
  verstrAprsis := ascii "aprsc 2"
  quirksMode := false
  disallowLogin _ := false
  incomingParse _ _ := .done 0
  incomingEdits _ line := line
  filterParse neg pos arg := ((neg, pos ++ [arg]), 0)
  parseArgs s := [s]
  sslStrerror _ := []
  x509Error := []
  msgid := ascii "1"

private def freshClient : Resource Session WriteOutcome where
  obj :=
    { handlerLineIn := .login
      state := .login
      flags := clflagsInport
      username := []
      validated := 0
      failedCmds := 0
      quirksMode := false
      appName := []
      appVersion := []
      udpclient := false
      udpPort := 0
      cert := none
      filterS := []
      negUserFilters := []
      posUserFilters := [] }
  alive := true
  misused := false
  outs _ := .sent
  made := []

/-- A login with a passcode is turned down, and the next one has another name and no passcode. -/
theorem validation_of_login_line_second :
    let lines := [ascii "user N0CALL pass 13023 vers app", ascii "user OH7AB vers app 1"]
    (run (sessionLine validationEnv false none) freshClient lines).obj.validated = 0 ∧
      ∃ before line after username validated, lines = before ++ line :: after ∧
        (run (sessionLine validationEnv false none) freshClient before).obj.state ≠ .connected ∧
        LogsIn none (parseArgsNoshell line).1 username validated ∧
        Always (sessionLine validationEnv false none) (fun r => LoggedInAs username validated r.obj)
          (run (sessionLine validationEnv false none) freshClient (before ++ [line])) after :=
  ⟨by decide, validation_of_login_line validationEnv false none _ freshClient ⟨rfl, rfl, rfl⟩ (by decide)⟩

end Aprsc
