-- SUMMARY: What a login line writes besides the session: the transmit flag of the client and the account of its UDP feed.
import Aprsc.Worker.Lifetime
import Aprsc.Base.Runs

/-!
# Logins and what they leave behind

`login_handler` writes the fields of the client as it reads the options of a line, and may
turn the line down at a later option. Besides the session, it writes the flag that keeps
packets from broken igates and counts the client in the account of the UDP port.
-/

namespace Aprsc

/-- A client that is logging in: its session, `no_tx`, and the gauge of
`udpclient->portaccount`. -/
structure LoginClient where
  session : Session
  noTx : Bool
  udpGauge : Int
deriving Repr, DecidableEq

abbrev LoginM := ResM LoginClient WriteOutcome

def LoginClient.setSession (session : Session) (c : LoginClient) : LoginClient :=
  { c with session := session }

/-- What the line handlers do to the session. -/
def onSession {α : Type} (x : ClientM α) : LoginM α :=
  ResM.onPart LoginClient.session LoginClient.setSession x

/-- `igate_tx_blacklist`. -/
def igateTxBlacklist : List Bytes := [ascii "GW1000"]

/-- `login_set_app_name`. The transmit flag is set, and never cleared. -/
def LoginClient.setAppName (env : HandlerEnv) (appName appVer : Bytes) (c : LoginClient) :
    LoginClient :=
  let session := loginSetAppName env appName appVer c.session
  { c with
    session := session
    noTx := c.noTx || igateTxBlacklist.any (·.isPrefixOf session.appName) }

/-- `login_setup_udp_feed`, when there is a UDP socket. -/
def LoginClient.setupUdpFeed (port : Int) (c : LoginClient) : LoginClient :=
  { c with
    session := { c.session with udpPort := port }
    udpGauge := c.udpGauge + 1 }

/-- What `client_close` does to the account of the UDP port. -/
def LoginClient.closeFeed (c : LoginClient) : LoginClient :=
  if c.session.udpclient ∧ c.session.udpPort ≠ 0 then { c with udpGauge := c.udpGauge - 1 } else c

/-- The loop over the options of a login. -/
def loginClientOptions (env : HandlerEnv) : (pass : Option Bytes) → List Bytes → LoginM LoginEnd
  | pass, [] => pure (.done pass)
  | pass, arg :: args =>
      if caseEq arg (ascii "pass") then
        match args with
        | [] => pure (.done pass)
        | p :: args => loginClientOptions env (some p) args
      else if caseEq arg (ascii "vers") then
        match args with
        | [] => pure (.done pass)
        | [app] => do
            ResM.modify (LoginClient.setAppName env app [])
            let c ← ResM.get
            if c.session.quirksMode then pure (.done pass)
            else do
              let rc ← onSession (clientPrintf (ascii
                "# Invalid login: software name and version are not separated by a space" ++ crlf))
              pure (.failed rc)
        | app :: ver :: args => do
            ResM.modify (LoginClient.setAppName env app ver)
            let c ← ResM.get
            if caseEq ver (ascii "filter") && !c.session.quirksMode then do
              let rc ← onSession (clientPrintf (ascii
                "# Invalid login: software name and version are not separated by a space" ++ crlf))
              pure (.failed rc)
            else loginClientOptions env pass args
      else if caseEq arg (ascii "udp") then
        match args with
        | [] => pure (.done pass)
        | port :: args =>
            if atoi port < 1024 ∨ atoi port > 65535 then pure (.done pass)
            else do
              let c ← ResM.get
              if c.session.udpclient then do
                ResM.modify (LoginClient.setupUdpFeed (atoi port))
                loginClientOptions env pass args
              else do
                let rc ← onSession
                  (clientPrintf (ascii "# No UDP service available on this port" ++ crlf))
                if rc < -2 then pure (.lost rc) else loginClientOptions env pass args
      else if hasCase (ascii "filter") arg then do
        let c ← ResM.get
        if !c.session.has clflagsUserfilterok then do
          let rc ← onSession
            (clientPrintf (ascii "# No user-specified filters on this port" ++ crlf))
          if rc < -2 then pure (.lost rc) else pure (.done pass)
        else onSession do
          ResM.modify fun c => { c with filterS := loginFilterS c.filterS args }
          loginFilters env pass args
      else loginClientOptions env pass args

/-- `login_handler` from the loop over the options on. -/
def loginClientWithOptions (env : HandlerEnv) (sslValidated : Bool) (args : List Bytes) :
    LoginM Int := do
  match ← loginClientOptions env none args with
  | .failed rc => onSession (failedLogin rc)
  | .lost rc => pure rc
  | .done pass => onSession (loginSucceeded env sslValidated pass)

/-- `login_handler`, for the arguments of a line. -/
def loginClientArgs (env : HandlerEnv) (argv : List Bytes) : LoginM Int := do
  ResM.use
  match argv with
  | [] => pure 0
  | cmd :: args =>
      if cmd.head? = some (ch '#') then pure 0
      else match args with
      | [] => onSession (rejectLogin "# Invalid login string, too few arguments")
      | username :: args =>
          if !caseEq cmd (ascii "user") then onSession do
            ResM.modify fun c =>
              { c with
                failedCmds := (if caseEq cmd (ascii "GET") then 10 else c.failedCmds) + 1 }
            rejectLogin "# Invalid login command"
          else if username.length > callsignlenMax then
            onSession (rejectLogin "# Invalid username format")
          else do
            onSession (ResM.modify fun c => { c with username := username })
            if disallowLoginUsernames.any (caseEq username ·) then
              onSession (rejectLogin "# Login by user not allowed")
            else if env.disallowLogin username then
              onSession (rejectLogin "# Login by user not allowed")
            else if checkInvalidQCallsign username then
              onSession (rejectLogin "# Invalid username format, not allowed")
            else if caseEq username env.serverid then
              onSession (rejectLogin "# Login by user not allowed (our serverid)")
            else do
              let c ← ResM.get
              match c.session.cert with
              | none => loginClientWithOptions env false args
              | some cert => do
                  let sslValidated ← onSession (loginClientValidateCert env cert)
                  if sslValidated = -1 then onSession (failedLogin (-1))
                  else if sslValidated ≠ 1 then onSession (failedLogin 0)
                  else loginClientWithOptions env true args

/-- `login_handler`. -/
def loginClientHandler (env : HandlerEnv) (s : Bytes) : LoginM Int :=
  loginClientArgs env (parseArgsNoshell s).1

/-! ## The feeds that a line sets up -/

/-- The number of UDP feeds that the options of a login set up. -/
def udpFeeds (env : HandlerEnv) : List Bytes → Nat
  | [] => 0
  | arg :: args =>
      if caseEq arg (ascii "pass") then
        match args with
        | [] => 0
        | _ :: args => udpFeeds env args
      else if caseEq arg (ascii "vers") then
        match args with
        | [] => 0
        | [_] => 0
        | app :: ver :: args =>
            if caseEq ver (ascii "filter") && !appQuirks env app then 0 else udpFeeds env args
      else if caseEq arg (ascii "udp") then
        match args with
        | [] => 0
        | port :: args =>
            if atoi port < 1024 ∨ atoi port > 65535 then 0 else udpFeeds env args + 1
      else if hasCase (ascii "filter") arg then 0
      else udpFeeds env args

/-- A line comes to its options: it names a user that may log in, and the certificate of
the client, if it has to have one, is good. -/
def readsOptions (env : HandlerEnv) (c : Session) (cmd username : Bytes) : Bool :=
  cmd.head? != some (ch '#') && caseEq cmd (ascii "user") && !badUsername env username &&
    c.cert.all fun check => check.res == 0

/-- The number of UDP feeds that a line sets up. -/
def lineFeeds (env : HandlerEnv) (c : Session) : List Bytes → Nat
  | cmd :: username :: args =>
      if c.udpclient && readsOptions env c cmd username then udpFeeds env args else 0
  | _ => 0

/-! ## The session -/

section

variable {env : HandlerEnv}

theorem extends_onSession {α : Type} (x : ClientM α) :
    ResM.Extends LoginClient.session (onSession x) x :=
  ResM.Extends.onPart (fun _ _ => rfl) x

theorem extends_setAppName_bind {β : Type} {f : LoginClient → LoginM β} {g : Session → ClientM β}
    (app ver : Bytes) (hf : ∀ c, ResM.Extends LoginClient.session (f c) (g c.session)) :
    ResM.Extends LoginClient.session
      (do ResM.modify (LoginClient.setAppName env app ver); let c ← ResM.get; f c)
      (do ResM.modify (loginSetAppName env app ver); let c ← ResM.get; g c) :=
  (ResM.Extends.modify LoginClient.session (LoginClient.setAppName env app ver)
    (loginSetAppName env app ver) fun _ => rfl).bind fun _ => .get_bind hf

theorem extends_tell {β : Type} {f : Int → LoginM β} {g : Int → ClientM β} (text : Bytes)
    (hf : ∀ rc, ResM.Extends LoginClient.session (f rc) (g rc)) :
    ResM.Extends LoginClient.session (onSession (clientPrintf text) >>= f)
      (clientPrintf text >>= g) :=
  (extends_onSession _).bind hf

theorem loginClientOptions_extends (pass : Option Bytes) (args : List Bytes) :
    ResM.Extends LoginClient.session (loginClientOptions env pass args)
      (loginOptions env pass args) := by
  -- the cases follow the loop: the options that are known, in their order
  induction pass, args using loginOptions.induct with
  | case1 pass => exact .pure _
  | case2 pass arg hpass =>
    simp only [loginClientOptions, loginOptions, if_pos hpass]
    exact .pure _
  | case3 pass arg hpass p args ih =>
    simp only [loginClientOptions, loginOptions, if_pos hpass]
    exact ih
  | case4 pass arg hpass hvers =>
    simp only [loginClientOptions, loginOptions, if_neg hpass, if_pos hvers]
    exact .pure _
  | case5 pass arg hpass hvers app =>
    simp only [loginClientOptions, loginOptions, if_neg hpass, if_pos hvers]
    exact extends_setAppName_bind app [] fun c => .ite (.pure _) (extends_tell _ fun rc => .pure _)
  | case6 pass arg hpass hvers app ver args ih =>
    simp only [loginClientOptions, loginOptions, if_neg hpass, if_pos hvers]
    exact extends_setAppName_bind app ver fun c => .ite (extends_tell _ fun rc => .pure _) ih
  | case7 pass arg hpass hvers hudp =>
    simp only [loginClientOptions, loginOptions, if_neg hpass, if_neg hvers, if_pos hudp]
    exact .pure _
  | case8 pass arg hpass hvers hudp port args hport =>
    simp only [loginClientOptions, loginOptions, if_neg hpass, if_neg hvers, if_pos hudp,
      if_pos hport]
    exact .pure _
  | case9 pass arg hpass hvers hudp port args hport ih =>
    simp only [loginClientOptions, loginOptions, if_neg hpass, if_neg hvers, if_pos hudp,
      if_neg hport]
    refine .get_bind fun c => .ite ?_ (extends_tell _ fun rc => .ite (.pure _) ih)
    exact (ResM.Extends.modify LoginClient.session (LoginClient.setupUdpFeed (atoi port))
      (fun c => { c with udpPort := atoi port }) fun _ => rfl).bind fun _ => ih
  | case10 pass arg args hpass hvers hudp hfilter =>
    unfold loginClientOptions loginOptions
    rw [if_neg hpass, if_neg hpass, if_neg hvers, if_neg hvers, if_neg hudp, if_neg hudp,
      if_pos hfilter, if_pos hfilter]
    refine .get_bind fun c => .ite ?_ (extends_onSession _)
    exact extends_tell _ fun rc => .ite (.pure _) (.pure _)
  | case11 pass arg args hpass hvers hudp hfilter ih =>
    unfold loginClientOptions loginOptions
    rw [if_neg hpass, if_neg hpass, if_neg hvers, if_neg hvers, if_neg hudp, if_neg hudp,
      if_neg hfilter, if_neg hfilter]
    exact ih

theorem loginClientWithOptions_extends (sslValidated : Bool) (args : List Bytes) :
    ResM.Extends LoginClient.session (loginClientWithOptions env sslValidated args)
      (loginWithOptions env sslValidated args) := by
  refine (loginClientOptions_extends none args).bind fun e => ?_
  cases e with
  | failed rc => exact extends_onSession _
  | lost rc => exact .pure rc
  | done pass => exact extends_onSession _

/-- To the session this is the login handler of a client. -/
theorem loginClientHandler_extends (s : Bytes) :
    ResM.Extends LoginClient.session (loginClientHandler env s) (loginHandler env s) := by
  unfold loginClientHandler loginHandler loginClientArgs loginArgs
  refine ResM.Extends.use.bind fun _ => ?_
  cases (parseArgsNoshell s).1 with
  | nil => exact .pure 0
  | cons cmd args =>
    refine .ite (.pure 0) ?_
    cases args with
    | nil => exact extends_onSession _
    | cons username args =>
      refine .ite (extends_onSession _) (.ite (extends_onSession _) ?_)
      refine (extends_onSession _).bind fun _ => ?_
      refine .ite (extends_onSession _) (.ite (extends_onSession _) ?_)
      refine .ite (extends_onSession _) (.ite (extends_onSession _) (.get_bind fun c => ?_))
      cases c.session.cert with
      | none => exact loginClientWithOptions_extends false args
      | some cert =>
        refine (extends_onSession _).bind fun sslValidated => .ite (extends_onSession _) ?_
        exact .ite (extends_onSession _) (loginClientWithOptions_extends true args)

end

/-! ## Counting the feeds -/

/-- The UDP socket, the certificate and the port of the feed. -/
structure UdpAt (socket : Bool) (cert : Option CertCheck) (port : Int) (c : Session) : Prop where
  socket : c.udpclient = socket
  cert : c.cert = cert
  port : c.udpPort = port

section

variable {env : HandlerEnv} {socket : Bool} {cert : Option CertCheck} {port : Int}

open ResM

theorem failedLogin_udpAt (rc : Int) : Preserves (UdpAt socket cert port) (failedLogin rc) :=
  failedLogin_preserves (fun _ hc => ⟨hc.socket, hc.cert, hc.port⟩) rc

theorem rejectLogin_udpAt (text : String) : Preserves (UdpAt socket cert port) (rejectLogin text) :=
  rejectLogin_preserves (fun _ hc => ⟨hc.socket, hc.cert, hc.port⟩) text

theorem loginClientValidateCert_udpAt (check : CertCheck) :
    Preserves (UdpAt socket cert port) (loginClientValidateCert env check) := by
  refine .ite (.modify_bind (fun c hc => ⟨hc.socket, hc.cert, hc.port⟩) (.pure _)) ?_
  refine (clientPrintf_preserves _).bind fun rc => .modify_bind (fun c hc => ⟨hc.socket, hc.cert, hc.port⟩) ?_
  exact .ite (.pure _) (.pure _)

theorem loginFilters_udpAt (pass : Option Bytes) (args : List Bytes) :
    Preserves (UdpAt socket cert port) (loginFilters env pass args) :=
  loginFilters_preserves (fun _ _ _ hc => ⟨hc.socket, hc.cert, hc.port⟩) pass args

theorem loginSucceeded_udpAt (sslValidated : Bool) (pass : Option Bytes) :
    Preserves (UdpAt socket cert port) (loginSucceeded env sslValidated pass) := by
  refine .modify_bind (fun c hc => ⟨hc.socket, hc.cert, hc.port⟩) (.get_bind fun c _ => ?_)
  exact (clientPrintf_preserves _).bind fun rc => .ite (.pure _) (.modify_bind (fun c hc => ⟨hc.socket, hc.cert, hc.port⟩) (.pure _))

end

/-- Since the gauge was `g`, the client was counted in `n` times. It has a feed if it was. -/
structure LoginClient.Fed (socket : Bool) (cert : Option CertCheck) (g : Int) (n : Nat)
    (c : LoginClient) : Prop where
  socket : c.session.udpclient = socket
  cert : c.session.cert = cert
  gauge : c.udpGauge = g + n
  port : c.session.udpPort ≠ 0 ↔ n ≠ 0

/-- The program counts the client in from `n` to `m` times. -/
def Feeds {α : Type} (socket : Bool) (cert : Option CertCheck) (g : Int) (n m : Nat)
    (x : LoginM α) : Prop :=
  ∀ r, r.obj.Fed socket cert g n → (x r).2.obj.Fed socket cert g m

section

variable {env : HandlerEnv} {socket : Bool} {cert : Option CertCheck} {g : Int} {n m k : Nat}
  {α β : Type}

theorem Feeds.pure (a : α) : Feeds socket cert g n n (pure a) := fun _ h => h

theorem Feeds.bind {x : LoginM α} {f : α → LoginM β} (hx : Feeds socket cert g n m x)
    (hf : ∀ a, Feeds socket cert g m k (f a)) : Feeds socket cert g n k (x >>= f) :=
  fun r h => hf _ _ (hx r h)

theorem Feeds.get_bind {f : LoginClient → LoginM β}
    (hf : ∀ c, c.Fed socket cert g n → Feeds socket cert g n m (f c)) :
    Feeds socket cert g n m (ResM.get >>= f) :=
  fun r h => hf r.obj h { r with misused := r.misused || !r.alive } h

theorem Feeds.ite {p : Prop} [Decidable p] {x y : LoginM α} (hx : p → Feeds socket cert g n m x)
    (hy : ¬p → Feeds socket cert g n m y) : Feeds socket cert g n m (if p then x else y) := by
  split
  next h => exact hx h
  next h => exact hy h

theorem Feeds.onSession {x : ClientM α} (hx : ∀ port, ResM.Preserves (UdpAt socket cert port) x) :
    Feeds socket cert g n n (onSession x) := by
  intro r h
  have hat := hx r.obj.session.udpPort (ResM.view LoginClient.session r) ⟨h.socket, h.cert, rfl⟩
  refine ⟨hat.socket, hat.cert, h.gauge, ?_⟩
  simpa [Aprsc.onSession, ResM.onPart, LoginClient.setSession, hat.port] using h.port

theorem Feeds.setupUdpFeed {port : Int} (hport : ¬(port < 1024 ∨ port > 65535)) :
    Feeds socket cert g n (n + 1) (ResM.modify (LoginClient.setupUdpFeed port)) := by
  intro r h
  refine ⟨h.socket, h.cert, ?_, ?_⟩
  · simp only [ResM.modify, LoginClient.setupUdpFeed, h.gauge]
    omega
  · simp only [ResM.modify, LoginClient.setupUdpFeed]
    omega

theorem Feeds.setAppName_bind (app ver : Bytes) {f : LoginClient → LoginM β}
    (hf : ∀ c, c.session.quirksMode = appQuirks env app → Feeds socket cert g n m (f c)) :
    Feeds socket cert g n m
      (do ResM.modify (LoginClient.setAppName env app ver); let c ← ResM.get; f c) :=
  fun _ h => hf _ rfl _ ⟨h.socket, h.cert, h.gauge, h.port⟩

theorem Feeds.tell (text : Bytes) {f : Int → LoginM β} (hf : ∀ rc, Feeds socket cert g n m (f rc)) :
    Feeds socket cert g n m (Aprsc.onSession (clientPrintf text) >>= f) :=
  (Feeds.onSession fun _ => clientPrintf_preserves text).bind hf

theorem loginClientOptions_feeds (pass : Option Bytes) (args : List Bytes) (n : Nat) :
    Feeds socket cert g n (n + if socket then udpFeeds env args else 0)
      (loginClientOptions env pass args) := by
  fun_induction udpFeeds env args generalizing pass n with
  | case1 =>
    simp only [loginClientOptions, ite_self]
    exact .pure _
  | case2 arg hpass =>
    simp only [loginClientOptions, if_pos hpass, ite_self]
    exact .pure _
  | case3 arg hpass p args ih =>
    simp only [loginClientOptions, if_pos hpass]
    exact ih (some p) n
  | case4 arg hpass hvers =>
    simp only [loginClientOptions, if_neg hpass, if_pos hvers, ite_self]
    exact .pure _
  | case5 arg hpass hvers app =>
    simp only [loginClientOptions, if_neg hpass, if_pos hvers, ite_self]
    exact .setAppName_bind app [] fun c _ => .ite (fun _ => .pure _) fun _ => .tell _ fun rc => .pure _
  | case6 arg hpass hvers app ver args hfilter =>
    simp only [loginClientOptions, if_neg hpass, if_pos hvers, ite_self]
    refine .setAppName_bind app ver fun c hc => .ite (fun _ => .tell _ fun rc => .pure _) fun hnot => ?_
    rw [hc] at hnot
    exact absurd hfilter hnot
  | case7 arg hpass hvers app ver args hfilter ih =>
    simp only [loginClientOptions, if_neg hpass, if_pos hvers]
    refine .setAppName_bind app ver fun c hc => .ite (fun hnot => ?_) fun _ => ih pass n
    rw [hc] at hnot
    exact absurd hnot hfilter
  | case8 arg hpass hvers hudp =>
    simp only [loginClientOptions, if_neg hpass, if_neg hvers, if_pos hudp, ite_self]
    exact .pure _
  | case9 arg hpass hvers hudp port args hport =>
    simp only [loginClientOptions, if_neg hpass, if_neg hvers, if_pos hudp, if_pos hport, ite_self]
    exact .pure _
  | case10 arg hpass hvers hudp port args hport ih =>
    simp only [loginClientOptions, if_neg hpass, if_neg hvers, if_pos hudp, if_neg hport]
    refine .get_bind fun c hc => .ite (fun hsocket => ?_) fun hsocket => ?_
    · have hs : socket = true := hc.socket.symm.trans hsocket
      refine (Feeds.setupUdpFeed hport).bind fun _ => ?_
      simpa [hs, Nat.add_comm, Nat.add_left_comm] using ih pass (n + 1)
    · have hs : socket = false := by rw [← hc.socket]; simpa using hsocket
      have hrest := ih pass n
      simp only [hs, Bool.false_eq_true, if_false] at hrest ⊢
      exact .tell _ fun rc => .ite (fun _ => .pure _) fun _ => hrest
  | case11 arg args hpass hvers hudp hfilter =>
    unfold loginClientOptions
    rw [if_neg hpass, if_neg hvers, if_neg hudp, if_pos hfilter]
    simp only [ite_self]
    refine .get_bind fun c _ => .ite (fun _ => ?_) fun _ => .onSession fun port => ?_
    · exact .tell _ fun rc => .ite (fun _ => .pure _) fun _ => .pure _
    · exact .modify_bind (fun c hc => ⟨hc.socket, hc.cert, hc.port⟩) (loginFilters_udpAt pass args)
  | case12 arg args hpass hvers hudp hfilter ih =>
    unfold loginClientOptions
    rw [if_neg hpass, if_neg hvers, if_neg hudp, if_neg hfilter]
    exact ih pass n

theorem loginClientWithOptions_feeds (sslValidated : Bool) (args : List Bytes) (n : Nat) :
    Feeds socket cert g n (n + if socket then udpFeeds env args else 0)
      (loginClientWithOptions env sslValidated args) := by
  refine (loginClientOptions_feeds none args n).bind fun e => ?_
  cases e with
  | failed rc => exact .onSession fun _ => failedLogin_udpAt rc
  | lost rc => exact .pure rc
  | done pass => exact .onSession fun _ => loginSucceeded_udpAt sslValidated pass

theorem Feeds.reject (text : String) : Feeds socket cert g n n (Aprsc.onSession (rejectLogin text)) :=
  .onSession fun _ => rejectLogin_udpAt text

/-- Go on with a value of which something is known. -/
theorem Feeds.bind_val {p : α → Prop} {x : LoginM α} {f : α → LoginM β}
    (hx : Feeds socket cert g n m x) (hval : ∀ r, p (x r).1)
    (hf : ∀ a, p a → Feeds socket cert g m k (f a)) : Feeds socket cert g n k (x >>= f) :=
  fun r h => hf _ (hval r) _ (hx r h)

theorem validateCert_eq_one_iff (check : CertCheck) (r : Resource Session WriteOutcome) :
    (loginClientValidateCert env check r).1 = 1 ↔ check.res = 0 := by
  unfold loginClientValidateCert
  by_cases hres : check.res = 0
  · simp only [hres, if_true]
    exact iff_of_true rfl trivial
  · have hval : ∀ (rc : Int) (r' : Resource Session WriteOutcome),
        ((if rc < 0 then pure rc else pure 0 : ClientM Int) r').1 ≠ 1 := by
      intro rc r'
      split
      next hneg => exact fun h => by rw [show rc = 1 from h] at hneg; exact absurd hneg (by decide)
      next => exact fun h => by cases h
    simp only [hres, if_false, iff_false]
    exact hval _ _

/-- The check of the certificate and the options. -/
theorem loginClientUser_feeds (args : List Bytes) :
    Feeds socket cert g n
      (n + if socket && cert.all (·.res == 0) then udpFeeds env args else 0) (do
        let c ← ResM.get
        match c.session.cert with
        | none => loginClientWithOptions env false args
        | some check => do
            let sslValidated ← Aprsc.onSession (loginClientValidateCert env check)
            if sslValidated = -1 then Aprsc.onSession (failedLogin (-1))
            else if sslValidated ≠ 1 then Aprsc.onSession (failedLogin 0)
            else loginClientWithOptions env true args) := by
  refine .get_bind fun c hc => ?_
  rw [hc.cert]
  cases cert with
  | none => simpa using loginClientWithOptions_feeds false args n
  | some check =>
    refine Feeds.bind_val (p := fun v => v = 1 ↔ check.res = 0) (.onSession fun _ => loginClientValidateCert_udpAt check)
      (fun r => validateCert_eq_one_iff check (ResM.view LoginClient.session r)) fun v hv => ?_
    by_cases hres : check.res = 0
    · rw [hv.2 hres]
      simpa [hres] using loginClientWithOptions_feeds true args n
    · simp only [Option.all_some, hres, beq_iff_eq, Bool.and_eq_true, and_false, if_false,
        Nat.add_zero]
      refine .ite (fun _ => .onSession fun _ => failedLogin_udpAt _) fun _ => ?_
      exact .ite (fun _ => .onSession fun _ => failedLogin_udpAt _) fun hone =>
        absurd (hv.1 (not_not.1 hone)) hres

/-- A line counts the client in once for every feed that it sets up. -/
theorem loginClientArgs_feeds {c : Session} (hsocket : c.udpclient = socket) (hcert : c.cert = cert)
    (argv : List Bytes) :
    Feeds socket cert g n (n + lineFeeds env c argv) (loginClientArgs env argv) := by
  unfold loginClientArgs
  refine (Feeds.pure ()).bind (x := ResM.use) fun _ => ?_
  cases argv with
  | nil => exact .pure 0
  | cons cmd args =>
    cases args with
    | nil => exact .ite (fun _ => .pure 0) fun _ => .reject _
    | cons username args =>
      have hnot : readsOptions env c cmd username = false →
          n + lineFeeds env c (cmd :: username :: args) = n := by
        intro hno
        simp [lineFeeds, hno]
      refine .ite (fun h => ?_) fun hhash => ?_
      · rw [hnot (by simp [readsOptions, h])]
        exact .pure 0
      refine .ite (fun h => ?_) fun huser => ?_
      · rw [hnot (by simp_all [readsOptions])]
        exact .onSession fun _ => .modify_bind (fun c hc => ⟨hc.socket, hc.cert, hc.port⟩)
          (rejectLogin_udpAt _)
      refine .ite (fun h => ?_) fun hlen => ?_
      · rw [hnot (by simp [readsOptions, badUsername, h])]
        exact .reject _
      refine Feeds.bind (.onSession fun _ => .modify fun c hc => ⟨hc.socket, hc.cert, hc.port⟩)
        fun _ => ?_
      refine .ite (fun h => ?_) fun hname => ?_
      · rw [hnot (by simp [readsOptions, badUsername, h])]
        exact .reject _
      refine .ite (fun h => ?_) fun hglob => ?_
      · rw [hnot (by simp [readsOptions, badUsername, h])]
        exact .reject _
      refine .ite (fun h => ?_) fun hcall => ?_
      · rw [hnot (by simp [readsOptions, badUsername, h])]
        exact .reject _
      refine .ite (fun h => ?_) fun hid => ?_
      · rw [hnot (by simp [readsOptions, badUsername, h])]
        exact .reject _
      have hreads : readsOptions env c cmd username = cert.all (·.res == 0) := by
        simp_all [readsOptions, badUsername]
      rw [lineFeeds, hreads, hsocket]
      exact loginClientUser_feeds args

end

/-! ## Lines that name no user -/

/-- The line is turned down before it comes to the name of a user, or is not a login. -/
def namesNoUser : List Bytes → Bool
  | cmd :: username :: _ =>
      cmd.head? == some (ch '#') || !caseEq cmd (ascii "user") || username.length > callsignlenMax
  | _ => true

/-- Only the number of failed commands has changed, and it has grown. It starts from 10 for
a client that speaks another protocol. -/
structure FailedSince (c₀ c : Session) : Prop where
  same : c = { c₀ with failedCmds := c.failedCmds }
  grown : min c₀.failedCmds 10 ≤ c.failedCmds

section

variable {env : HandlerEnv} {c₀ : Session}

open ResM

theorem rejectLogin_failedSince (text : String) :
    Preserves (FailedSince c₀) (rejectLogin text) :=
  rejectLogin_preserves (fun _ hc => ⟨by rw [hc.same], Nat.le_succ_of_le hc.grown⟩) text

/-- The same for the whole client. -/
structure LoginClient.FailedSince (c₀ c : LoginClient) : Prop where
  session : Aprsc.FailedSince c₀.session c.session
  noTx : c.noTx = c₀.noTx
  udpGauge : c.udpGauge = c₀.udpGauge

theorem preserves_onSession {c₀ : LoginClient} {α : Type} {x : ClientM α}
    (hx : Preserves (FailedSince c₀.session) x) :
    Preserves (LoginClient.FailedSince c₀) (onSession x) :=
  fun r h => ⟨hx (view LoginClient.session r) h.session, h.noTx, h.udpGauge⟩

theorem loginClientArgs_failedSince {c₀ : LoginClient} {argv : List Bytes}
    (h : namesNoUser argv) :
    Preserves (LoginClient.FailedSince c₀) (loginClientArgs env argv) := by
  unfold loginClientArgs
  refine Preserves.use.bind fun _ => ?_
  cases argv with
  | nil => exact .pure 0
  | cons cmd args =>
    cases args with
    | nil => exact .ite (.pure 0) (preserves_onSession (rejectLogin_failedSince _))
    | cons username args =>
      by_cases hhash : cmd.head? = some (ch '#')
      · simp only [if_pos hhash]
        exact .pure 0
      simp only [if_neg hhash]
      by_cases huser : caseEq cmd (ascii "user")
      · have hlen : username.length > callsignlenMax := by simpa [namesNoUser, hhash, huser] using h
        simp only [huser, Bool.not_true, Bool.false_eq_true, if_false, if_pos hlen]
        exact preserves_onSession (rejectLogin_failedSince _)
      · simp only [huser, Bool.not_false, if_true]
        refine preserves_onSession (.modify_bind (fun c hc => ?_) (rejectLogin_failedSince _))
        refine ⟨by rw [hc.same], ?_⟩
        have hgrown := hc.grown
        dsimp only
        split <;> omega

end

/-! ## Sequences of lines -/

/-- Lines go to `login_handler` as long as the client is there and not logged in. -/
def LoginClient.reads (r : Resource LoginClient WriteOutcome) : Prop :=
  r.alive = true ∧ r.obj.session.handlerLineIn = .login

instance (r : Resource LoginClient WriteOutcome) : Decidable (LoginClient.reads r) :=
  inferInstanceAs (Decidable (_ ∧ _))

def loginLine (env : HandlerEnv) (r : Resource LoginClient WriteOutcome) (line : Bytes) :
    Resource LoginClient WriteOutcome :=
  if LoginClient.reads r then (loginClientHandler env line r).2 else r

/-- The number of UDP feeds that the lines set up. -/
def totalFeeds (env : HandlerEnv) : Resource LoginClient WriteOutcome → List Bytes → Nat
  | _, [] => 0
  | r, line :: lines =>
      (if LoginClient.reads r then lineFeeds env r.obj.session (parseArgsNoshell line).1 else 0) +
        totalFeeds env (loginLine env r line) lines

section

variable {env : HandlerEnv} {socket : Bool} {cert : Option CertCheck} {g : Int} {n : Nat}

theorem fed_loginLine {r : Resource LoginClient WriteOutcome} (h : r.obj.Fed socket cert g n)
    (line : Bytes) :
    (loginLine env r line).obj.Fed socket cert g
      (n + if LoginClient.reads r then lineFeeds env r.obj.session (parseArgsNoshell line).1
        else 0) := by
  unfold loginLine
  split
  · exact loginClientArgs_feeds h.socket h.cert _ r h
  · exact h

theorem fed_loginLines (env : HandlerEnv) {r : Resource LoginClient WriteOutcome}
    (h : r.obj.Fed socket cert g n) (lines : List Bytes) :
    (Runs.run (loginLine env) r lines).obj.Fed socket cert g (n + totalFeeds env r lines) := by
  induction lines generalizing r n with
  | nil => exact h
  | cons line lines ih =>
    rw [totalFeeds, ← Nat.add_assoc]
    exact ih (fed_loginLine h line)

/-- A client is only set up with a feed if it has a socket for it. -/
theorem lineFeeds_of_no_socket {c : Session} (h : c.udpclient = false) (argv : List Bytes) :
    lineFeeds env c argv = 0 := by
  unfold lineFeeds
  split
  · simp [h]
  · rfl

theorem totalFeeds_of_no_socket {r : Resource LoginClient WriteOutcome}
    (h : r.obj.Fed false cert g n) (lines : List Bytes) : totalFeeds env r lines = 0 := by
  induction lines generalizing r n with
  | nil => rfl
  | cons line lines ih =>
    rw [totalFeeds, ih (fed_loginLine h line), lineFeeds_of_no_socket h.socket, ite_self]

theorem failedSince_loginLines (env : HandlerEnv) {c₀ : LoginClient}
    {r : Resource LoginClient WriteOutcome}
    (h : LoginClient.FailedSince c₀ r.obj) {lines : List Bytes}
    (hnames : ∀ line ∈ lines, namesNoUser (parseArgsNoshell line).1) :
    LoginClient.FailedSince c₀ (Runs.run (loginLine env) r lines).obj := by
  induction lines generalizing r with
  | nil => exact h
  | cons line lines ih =>
    obtain ⟨hline, hlines⟩ := List.forall_mem_cons.1 hnames
    refine ih ?_ hlines
    unfold loginLine
    split
    · exact loginClientArgs_failedSince hline r h
    · exact h

end

/-- A client that has connected: it has not logged in, has no UDP feed, and has not failed
too often yet. -/
structure LoginClient.Connected (r : Resource LoginClient WriteOutcome) : Prop where
  reads : LoginClient.reads r
  udpPort : r.obj.session.udpPort = 0
  failedCmds : r.obj.session.failedCmds < 3

/-- Login lines that name no user leave everything as it was but the number of failed
commands. The lines and the close of the client leave the UDP account as it was exactly if
they set up at most one feed. -/
theorem login_leaves_no_trace (env : HandlerEnv) (lines : List Bytes)
    (r : Resource LoginClient WriteOutcome) (hr : LoginClient.Connected r) :
    ((∀ line ∈ lines, namesNoUser (parseArgsNoshell line).1) →
      ∃ n, r.obj.session.failedCmds ≤ n ∧ (Runs.run (loginLine env) r lines).obj =
        { r.obj with session := { r.obj.session with failedCmds := n } }) ∧
    ((Runs.run (loginLine env) r lines).obj.closeFeed.udpGauge = r.obj.udpGauge ↔
      totalFeeds env r lines ≤ 1) := by
  constructor
  · intro hnames
    have hsame : FailedSince r.obj.session r.obj.session := ⟨rfl, Nat.min_le_left _ _⟩
    have h := failedSince_loginLines env (r := r) ⟨hsame, rfl, rfl⟩ hnames
    generalize (Runs.run (loginLine env) r lines).obj = c at h ⊢
    have hgrown := h.session.grown
    have hlow := hr.failedCmds
    refine ⟨c.session.failedCmds, by omega, ?_⟩
    rw [← h.session.same]
    dsimp only
    rw [← h.noTx, ← h.udpGauge]
  · have hfed : r.obj.Fed r.obj.session.udpclient r.obj.session.cert r.obj.udpGauge 0 :=
      ⟨rfl, rfl, by simp, by simp [hr.udpPort]⟩
    have h := fed_loginLines env hfed lines
    have hnone : r.obj.session.udpclient = false → totalFeeds env r lines = 0 :=
      fun hs => totalFeeds_of_no_socket (hs ▸ hfed) lines
    generalize (Runs.run (loginLine env) r lines).obj = c at h ⊢
    have hport := h.port
    rw [Nat.zero_add] at h hport
    unfold LoginClient.closeFeed
    rw [h.socket]
    by_cases hs : r.obj.session.udpclient
    · by_cases hp : c.session.udpPort = 0
      · have hzero : totalFeeds env r lines = 0 := by simpa [hp] using hport
        simp [hp, h.gauge, hzero]
      · have hpos : totalFeeds env r lines ≠ 0 := hport.1 hp
        simp only [hs, hp, ne_eq, not_false_eq_true, and_self, if_true, h.gauge]
        omega
    · have hzero := hnone (by simpa using hs)
      simp [hs, h.gauge, hzero]

/-- A server, and a client that has connected to a port with a UDP service. -/
private def loginEnv : HandlerEnv where
  serverid := ascii "TESTING"
  passcode := ascii "31421"
  verstrAprsis := ascii "aprsc 2"
  quirksMode := false
  disallowLogin _ := false
  incomingParse _ _ := .done 0
  incomingEdits _ line := line
  filterParse neg pos arg := ((neg, pos ++ [arg]), 0)
  parseArgs s := [s]
  sslStrerror _ := []
  x509Error := []
  msgid := ascii "1"

private def connectedClient : Resource LoginClient WriteOutcome where
  obj :=
    { session :=
        { handlerLineIn := .login
          state := .login
          flags := clflagsInport
          username := []
          validated := 0
          failedCmds := 0
          quirksMode := false
          appName := []
          appVersion := []
          udpclient := true
          udpPort := 0
          cert := none
          filterS := []
          negUserFilters := []
          posUserFilters := [] }
      noTx := false
      udpGauge := 0 }
  alive := true
  misused := false
  outs _ := .sent
  made := []

theorem login_leaves_no_trace_hello :
    ∃ n, (Runs.run (loginLine loginEnv) connectedClient [ascii "hello"]).obj =
      { connectedClient.obj with session := { connectedClient.obj.session with failedCmds := n } } := by
  have hconn : LoginClient.Connected connectedClient := ⟨⟨rfl, rfl⟩, rfl, by decide⟩
  obtain ⟨n, -, h⟩ := (login_leaves_no_trace loginEnv [ascii "hello"] connectedClient hconn).1
    (by simp only [List.forall_mem_singleton]; decide)
  exact ⟨n, h⟩

/-- A login is turned down because it has no version, and the client is kept, with the name
of the user and with two counts for one UDP feed. -/
theorem login_without_version_leaves_traces :
    let r := Runs.run (loginLine loginEnv) connectedClient
      [ascii "user N0CALL udp 2000 udp 2000 vers app"]
    LoginClient.reads r ∧ r.obj.session.username ≠ connectedClient.obj.session.username ∧
      r.obj.session.udpPort ≠ connectedClient.obj.session.udpPort ∧
      r.obj.closeFeed.udpGauge ≠ connectedClient.obj.udpGauge := by
  decide

end Aprsc
