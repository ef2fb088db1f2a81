-- SUMMARY: The parts of a client that are modelled on their own, and the whole client over a login, a live upgrade and the close.
import Aprsc.Liveupgrade.Filters
import Aprsc.Liveupgrade.Session
import Aprsc.Server.Balance
import Aprsc.Server.Clientlist

/-!
# Parts of a client

The port accounts, the client list and the filters of a live upgrade are modelled with the
few fields of a client that they have to do with. The line handlers and the JSON dump have
all of them. What is known of a part over a login, a live upgrade or the close of a client
holds of these fields of the whole client.
-/

namespace Aprsc

/-! ## The UDP feed and its account -/

/-- The ports of the `udp` options of a login. -/
def udpPorts (env : HandlerEnv) : List Bytes → List Int
  | [] => []
  | arg :: args =>
      if caseEq arg (ascii "pass") then
        match args with
        | [] => []
        | _ :: args => udpPorts env args
      else if caseEq arg (ascii "vers") then
        match args with
        | [] => []
        | [_] => []
        | app :: ver :: args =>
            if caseEq ver (ascii "filter") && !appQuirks env app then [] else udpPorts env args
      else if caseEq arg (ascii "udp") then
        match args with
        | [] => []
        | port :: args => atoi port :: udpPorts env args
      else if hasCase (ascii "filter") arg then []
      else udpPorts env args

/-- The ports of the `udp` options of a line. -/
def lineUdpPorts (env : HandlerEnv) (c : Session) : List Bytes → List Int
  | cmd :: username :: args => if readsOptions env c cmd username then udpPorts env args else []
  | _ => []

/-- The client has the UDP feed that it is charged for, and the gauge is that of its socket. -/
structure LoginClient.CountedAs (c : LoginClient) (d : OpenClient) (b : Accounts) : Prop where
  socket : d.udpclient.isSome = c.session.udpclient
  port : d.udpPort ≠ 0 ↔ c.session.udpPort ≠ 0
  gauge : ∀ u ∈ d.udpclient, (b.account (.listener u.listener)).gauge = c.udpGauge

section

variable {env : HandlerEnv} {c : LoginClient} {d : OpenClient} {b : Accounts}

/-- The options that set up a feed are those with the ports that are read. -/
theorem length_feedPorts_udpPorts (args : List Bytes) :
    (feedPorts (udpPorts env args)).length = udpFeeds env args := by
  fun_induction udpFeeds env args with
  | case1 => rfl
  | case2 arg hpass => simp [udpPorts, hpass, feedPorts]
  | case3 arg hpass p args ih => simpa [udpPorts, hpass] using ih
  | case4 arg hpass hvers => simp [udpPorts, hpass, hvers, feedPorts]
  | case5 arg hpass hvers app => simp [udpPorts, hpass, hvers, feedPorts]
  | case6 arg hpass hvers app ver args hfilter =>
    simp only [udpPorts, if_neg hpass, if_pos hvers, if_pos hfilter]
    rfl
  | case7 arg hpass hvers app ver args hfilter ih =>
    simp only [udpPorts, if_neg hpass, if_pos hvers, if_neg hfilter]
    exact ih
  | case8 arg hpass hvers hudp => simp [udpPorts, hpass, hvers, hudp, feedPorts]
  | case9 arg hpass hvers hudp port args hport =>
    simp only [udpPorts, if_neg hpass, if_neg hvers, if_pos hudp, feedPorts]
    rw [List.takeWhile_cons_of_neg (by simp; omega)]
    rfl
  | case10 arg hpass hvers hudp port args hport ih =>
    simp only [udpPorts, if_neg hpass, if_neg hvers, if_pos hudp, feedPorts]
    rw [List.takeWhile_cons_of_pos (by simp; omega)]
    exact congrArg (· + 1) ih
  | case11 arg args hpass hvers hudp hfilter =>
    unfold udpPorts
    rw [if_neg hpass, if_neg hvers, if_neg hudp, if_pos hfilter]
    rfl
  | case12 arg args hpass hvers hudp hfilter ih =>
    unfold udpPorts
    rw [if_neg hpass, if_neg hvers, if_neg hudp, if_neg hfilter]
    exact ih

/-- A line sets up as many feeds as it has ports that are read. -/
theorem lineFeeds_eq (hsocket : c.session.udpclient = true) (argv : List Bytes) :
    lineFeeds env c.session argv = (feedPorts (lineUdpPorts env c.session argv)).length := by
  cases argv with
  | nil => rfl
  | cons cmd args =>
    cases args with
    | nil => rfl
    | cons username args =>
      rw [lineFeeds, lineUdpPorts, hsocket, Bool.true_and]
      split
      · exact (length_feedPorts_udpPorts args).symm
      · rfl

/-- `accept_client_for_listener`. -/
theorem newClient_countedAs {l : LiveListener} {m : Listen} {ports : Ports} {af : Nat} {gauge : Int}
    (hsocket : (clientUdpFind ports.udpclients af m.portnum).isSome = l.udpclient)
    (hgauge : ∀ u ∈ clientUdpFind ports.udpclients af m.portnum,
      (b.account (.listener u.listener)).gauge = gauge)
    (fd : Int) (addrRem addrLoc : Bytes) (now tick : Int) (bufs : Bytes × Bytes) :
    (l.newClient fd addrRem addrLoc now tick bufs gauge).login.CountedAs (m.newClient ports af) b :=
  ⟨hsocket, Iff.rfl, hgauge⟩

/-- `login_setup_udp_feed`. -/
theorem LoginClient.CountedAs.setupUdpFeed (h : c.CountedAs d b) (hsocket : c.session.udpclient = true)
    {port : Int} (hport : port ≠ 0) :
    (c.setupUdpFeed port).CountedAs (loginSetupUdpFeed port d b).1 (loginSetupUdpFeed port d b).2 := by
  have hsome : d.udpclient.isSome = true := h.socket.trans hsocket
  obtain ⟨u, hu⟩ := Option.isSome_iff_exists.mp hsome
  have hgauge := h.gauge u hu
  simp only [loginSetupUdpFeed, hu]
  refine ⟨hsocket.symm, iff_of_true hport hport, fun v hv => ?_⟩
  obtain rfl := Option.some.inj hv
  rw [gauge_account, hgauge]
  simp [portDelta, LoginClient.setupUdpFeed]

/-- A line to `login_handler`. -/
theorem LoginClient.CountedAs.loginHandler {r : Resource LoginClient WriteOutcome}
    (h : r.obj.CountedAs d b) (line : Bytes) :
    let ports := lineUdpPorts env r.obj.session (parseArgsNoshell line).1
    (loginClientHandler env line r).2.obj.CountedAs (loginUdpOptions ports d b).1
      (loginUdpOptions ports d b).2 := by
  intro ports
  -- a client that has a feed already was counted in for it
  obtain ⟨n, hn⟩ : ∃ n : Nat, r.obj.session.udpPort ≠ 0 ↔ n ≠ 0 :=
    ⟨if r.obj.session.udpPort ≠ 0 then 1 else 0, by split <;> simp_all⟩
  have hfed : r.obj.Fed r.obj.session.udpclient r.obj.session.cert (r.obj.udpGauge - n) n :=
    ⟨rfl, rfl, by omega, hn⟩
  have hline : (loginClientHandler env line r).2.obj.Fed r.obj.session.udpclient _ _ _ :=
    loginClientArgs_feeds rfl rfl (parseArgsNoshell line).1 r hfed
  cases hu : d.udpclient with
  | none =>
    have hsocket : r.obj.session.udpclient = false := by rw [← h.socket, hu]; rfl
    rw [lineFeeds_of_no_socket hsocket, Nat.add_zero] at hline
    rw [loginUdpOptions_none hu]
    refine ⟨h.socket.trans hline.socket.symm, h.port.trans (hn.trans hline.port.symm), ?_⟩
    intro u hu'
    rw [hu] at hu'
    cases hu'
  | some u =>
    have hsocket : r.obj.session.udpclient = true := by rw [← h.socket, hu]; rfl
    obtain ⟨hclient, hclients, hdrift⟩ := loginUdpOptions_some hu ports b (.listener u.listener)
    rw [lineFeeds_eq hsocket] at hline
    change LoginClient.Fed _ _ _ (_ + (feedPorts ports).length) _ at hline
    refine ⟨?_, ?_, fun v hv => ?_⟩
    · rw [hclient]
      exact h.socket.trans hline.socket.symm
    · rw [hclient, hline.port]
      by_cases hread : feedPorts ports = []
      · simpa [ports, hread] using h.port.trans hn
      · have hlast := feedPorts_getLastD hread d.udpPort
        have hpos := List.length_pos_iff.mpr hread
        exact iff_of_true hlast (by omega)
    · rw [hclient] at hv
      obtain rfl := Option.some.inj (hu.symm.trans hv)
      have hgauge := h.gauge u hu
      simp only [Accounts.drift, Accounts.charged, hclients, if_true] at hdrift
      rw [hline.gauge]
      omega

/-- The UDP feed of a client that goes on after a live upgrade. -/
theorem LoginClient.CountedAs.resumeFeed (h : c.CountedAs d b) {j : CJson} {udpPort : Option JsonItem}
    {r : Restore} (hr : r.udpPort = (udpPort.bind JsonItem.number?).map j.valueint)
    {d' : OpenClient} {b' : Accounts}
    (hfeed : (match r.feedPort with
      | none => (d, b)
      | some port => loginSetupUdpFeed port d b) = (d', b')) :
    (Aprsc.resumeFeed j udpPort c).CountedAs d' b' := by
  unfold Aprsc.resumeFeed
  unfold Restore.feedPort at hfeed
  cases hitem : udpPort.bind JsonItem.number? with
  | none =>
    rw [hr, hitem] at hfeed
    cases hfeed
    exact h
  | some n =>
    rw [hr, hitem, Option.map_some] at hfeed
    dsimp only
    by_cases hrange : 1024 < j.valueint n ∧ j.valueint n < 65536
    · rw [Option.filter_some_pos (by simpa using hrange)] at hfeed
      dsimp only at hfeed
      -- without a socket neither of the two sets up a feed
      by_cases hsocket : c.session.udpclient = true
      · rw [if_pos ⟨hrange.1, hrange.2, hsocket⟩]
        obtain ⟨rfl, rfl⟩ := Prod.mk.inj hfeed.symm
        exact h.setupUdpFeed hsocket (by omega)
      · rw [if_neg fun hset => hsocket hset.2.2]
        have hnone : d.udpclient = none := by
          rw [← h.socket] at hsocket
          simpa using hsocket
        rw [loginSetupUdpFeed, hnone] at hfeed
        cases hfeed
        exact h
    · rw [Option.filter_some_neg (by simpa using hrange)] at hfeed
      rw [if_neg fun hset => hrange ⟨hset.1, hset.2.1⟩]
      cases hfeed
      exact h

/-- The account of the socket when the client is closed. -/
theorem LoginClient.CountedAs.closeFeed (h : c.CountedAs d b) :
    ∀ u ∈ d.udpclient,
      ((Aprsc.closeFeed d b).account (.listener u.listener)).gauge = c.closeFeed.udpGauge := by
  intro u hu
  have hsocket : c.session.udpclient = true := h.socket.symm.trans (by rw [hu]; rfl)
  have hu' : d.udpclient = some u := hu
  simp only [Aprsc.closeFeed, LoginClient.closeFeed, hu', hsocket, true_and]
  by_cases hport : c.session.udpPort = 0
  · rw [if_neg (mt h.port.mp (not_not.mpr hport)), if_neg (not_not.mpr hport)]
    exact h.gauge u hu
  · rw [if_pos (h.port.mpr hport), if_pos hport, gauge_account, h.gauge u hu]
    simp [portDelta, Int.sub_eq_add_neg]

end

/-! ## The filter text and the name -/

/-- The text of the filters of a session, and whether it is logged in. -/
structure FilterClient.PartOf {F : Type} (f : FilterClient F) (c : Session) : Prop where
  filterS : f.filterS = c.filterS
  loggedIn : f.loggedIn = true ↔ c.handlerLineIn = .incoming

/-- The state and the name of a session. -/
structure ListClient.PartOf (e : ListClient) (c : Session) : Prop where
  state : e.state = c.state
  username : e.username = c.username

/-- `accept_client_for_listener`. -/
theorem newClient_partOf {F : Type} {l : LiveListener} {m : FilterListener}
    (hfilters : m.filterS = l.filterS) {env : ClientEnv F} {f : FilterClient F}
    (hf : m.acceptClientForListener env = some f) (fd : Int) (addrRem addrLoc : Bytes) (now tick : Int)
    (bufs : Bytes × Bytes) (udpGauge : Int) :
    f.PartOf (l.newClient fd addrRem addrLoc now tick bufs udpGauge).session := by
  obtain ⟨filters, -, rfl⟩ := Option.map_eq_some_iff.mp hf
  exact ⟨hfilters, by simp [LiveListener.newClient, LiveClient.session]⟩

section

open ResM

variable {F : Type} {f f' : FilterClient F} {m : FilterListener} {fenv : ClientEnv F}
  {env : HandlerEnv} {r : Resource Session WriteOutcome}

theorem loginSucceeded_partOf (hf : f.filterS = sanitizeAsciiString r.obj.filterS)
    (hlogged : f.loggedIn = true) (sslValidated : Bool) (pass : Option Bytes) :
    f.PartOf (loginSucceeded env sslValidated pass r).2.obj := by
  -- once the text is cleaned and the handler switched, nothing writes them again
  have hrest : Preserves f.PartOf (do
      let c ← ResM.get
      let rc ← clientPrintf (ascii "# logresp " ++ c.username ++ ascii " " ++
        ascii (if c.validated ≠ 0 then "verified" else "unverified") ++ ascii ", server " ++
        env.serverid ++ crlf)
      if rc < -2 then pure rc
      else do
        ResM.modify fun c => { c with state := .connected }
        pure 0 : ClientM Int) := by
    refine .get_bind fun c _ => (clientPrintf_preserves _).bind fun rc => .ite (.pure _) ?_
    exact .modify_bind (fun c hc => ⟨hc.filterS, hc.loggedIn⟩) (.pure _)
  exact hrest _ ⟨hf, iff_of_true hlogged rfl⟩

/-- A login that succeeds, without the filter option. -/
theorem login_partOf (hpart : f.filterS = r.obj.filterS) (hf : f.login fenv m none = some f')
    (sslValidated : Bool) (pass : Option Bytes) :
    f'.PartOf (loginSucceeded env sslValidated pass r).2.obj := by
  obtain rfl := Option.some.inj hf
  exact loginSucceeded_partOf (congrArg _ hpart) rfl sslValidated pass

/-- A login that succeeds, with filters. -/
theorem login_filters_partOf (hpart : f.filterS = r.obj.filterS) (huok : m.userfilterok = true)
    {args : List Bytes} (hf : f.login fenv m (some args) = some f') (sslValidated : Bool)
    (pass : Option Bytes) :
    f'.PartOf (loginSucceeded env sslValidated pass ((do
      ResM.modify fun c => { c with filterS := loginFilterS c.filterS args }
      loginFilters env pass args : ClientM LoginEnd) r).2).2.obj := by
  unfold FilterClient.login at hf
  rw [huok] at hf
  obtain ⟨filters, -, rfl⟩ := Option.map_eq_some_iff.mp hf
  have htext : Preserves (fun c => c.filterS = loginFilterS f.filterS args)
      (loginFilters env pass args) :=
    loginFilters_preserves (fun _ _ _ hc => hc) pass args
  refine loginSucceeded_partOf (congrArg sanitizeAsciiString ?_) rfl sslValidated pass
  exact (htext _ (congrArg (loginFilterS · args) hpart.symm)).symm

end

/-! ## The live upgrade -/

theorem resumeFilters_filterS (env : HandlerEnv) (filter : Bytes) (c : Session) :
    (resumeFilters env filter c).filterS =
      if c.has clflagsUserfilterok && !filter.isEmpty then statusCopy filter else c.filterS := by
  unfold resumeFilters
  split
  · exact filterParses_filterS ..
  · rfl

theorem resumeFeed_session (j : CJson) (udpPort : Option JsonItem) (c : LoginClient) :
    ∃ port, (resumeFeed j udpPort c).session = { c.session with udpPort := port } := by
  unfold resumeFeed
  split
  · exact ⟨_, rfl⟩
  · split
    · exact ⟨_, rfl⟩
    · exact ⟨_, rfl⟩

theorem resumeState_keeps {state username : Bytes} {c c' : Session}
    (h : resumeState state username c = some c') : c'.flags = c.flags ∧ c'.filterS = c.filterS := by
  unfold resumeState at h
  split at h
  · cases h
    exact ⟨rfl, rfl⟩
  · split at h
    · cases h
      exact ⟨rfl, rfl⟩
    · cases h

/-- The fields of a session that its parts have, after a live upgrade. -/
theorem resumeLogin_session {env : UpgradeEnv} {i : ClientItems} {c login : LoginClient}
    (h : resumeLogin env i c = some login) :
    ∃ session, resumeState i.state i.username c.session = some session ∧
      login.session.state = session.state ∧ login.session.username = session.username ∧
      login.session.handlerLineIn = session.handlerLineIn ∧
      login.session.filterS =
        if c.session.has clflagsUserfilterok && !i.filter.isEmpty then statusCopy i.filter
        else c.session.filterS := by
  obtain ⟨session, hsession, hlogin⟩ := Option.bind_eq_some_iff.mp h
  obtain ⟨hflags, hfilterS⟩ := resumeState_keeps hsession
  have hrest : ∀ d : LoginClient, ∃ port neg pos,
      (resumeFeed env.cjson i.udpPort
        (d.setSession (resumeFilters env.handlers i.filter d.session))).session =
      { d.session with
        udpPort := port
        negUserFilters := neg
        posUserFilters := pos
        filterS := (resumeFilters env.handlers i.filter d.session).filterS } := by
    intro d
    obtain ⟨port, hport⟩ := resumeFeed_session env.cjson i.udpPort
      (d.setSession (resumeFilters env.handlers i.filter d.session))
    obtain ⟨neg, pos, s, hfilters⟩ := exists_resumeFilters env.handlers i.filter d.session
    refine ⟨port, neg, pos, ?_⟩
    rw [hport, LoginClient.setSession, hfilters]
  refine ⟨session, hsession, ?_⟩
  obtain rfl := Option.some.inj hlogin
  obtain ⟨port, neg, pos, hlogin⟩ := hrest
    ((c.setSession { session with validated := (env.cjson.valueint i.verified).toNat }).setAppName
      env.handlers i.appName i.appVersion)
  rw [hlogin, resumeFilters_filterS]
  have hhas : session.has clflagsUserfilterok = c.session.has clflagsUserfilterok := by
    rw [Session.has, Session.has, hflags]
  refine ⟨rfl, rfl, rfl, ?_⟩
  rw [← hhas, ← hfilterS]
  rfl

/-- `accept_liveupgrade_single`. -/
theorem resumeLogin_partOf {F : Type} [Zero F] {env : UpgradeEnv} {i : ClientItems}
    {c login : LoginClient} (h : resumeLogin env i c = some login) {m : FilterListener}
    (hfilters : m.filterS = c.session.filterS)
    (hflags : m.userfilterok = c.session.has clflagsUserfilterok) {fenv : ClientEnv F}
    {json : ClientJson F} (hfilter : json.filter = i.filter)
    (hconnected : json.connected = true ↔ i.state = ascii "connected") {f : FilterClient F}
    (hf : m.acceptLiveupgradeSingle fenv json = some f) : f.PartOf login.session := by
  obtain ⟨session, hsession, -, -, hhandler, hfilterS⟩ := resumeLogin_session h
  have hlogged : session.handlerLineIn = .incoming ↔ i.state = ascii "connected" := by
    unfold resumeState at hsession
    split at hsession
    next hc =>
      cases hsession
      exact iff_of_true rfl hc
    next hc =>
      split at hsession
      next =>
        cases hsession
        exact iff_of_false (fun h => by cases h) hc
      next => cases hsession
  obtain ⟨f₀, hf₀, hf⟩ := Option.bind_eq_some_iff.mp hf
  obtain ⟨filters, -, rfl⟩ := Option.map_eq_some_iff.mp hf₀
  rw [hfilter, hflags] at hf
  split at hf
  next hset =>
    rw [if_pos hset] at hfilterS
    obtain ⟨filters', -, hf⟩ := Option.bind_eq_some_iff.mp hf
    cases hf
    exact ⟨hfilterS.symm, by rw [hhandler, hlogged, ← hconnected]⟩
  next hset =>
    rw [if_neg hset] at hfilterS
    cases hf
    exact ⟨hfilters.trans hfilterS.symm, by rw [hhandler, hlogged, ← hconnected]⟩

/-- The entry of a restored client in the client list. -/
theorem restoredClient_partOf {env : UpgradeEnv} {i : ClientItems} {c login : LoginClient}
    (h : resumeLogin env i c = some login) (hnew : c.session.username = [])
    (hname : (0 : UInt8) ∉ i.username) (fd : Nat) (validated : Int) :
    ∃ st : SavedState, (restoredClient fd st i.username validated).PartOf login.session := by
  obtain ⟨session, hsession, hstate, husername, -, -⟩ := resumeLogin_session h
  unfold resumeState at hsession
  split at hsession
  · cases hsession
    refine ⟨.connected, hstate.symm, Eq.trans ?_ husername.symm⟩
    exact (cString_eq_self fun hmem => hname (List.mem_of_mem_take hmem)).symm
  · split at hsession
    · cases hsession
      exact ⟨.login, hstate.symm, (husername.trans hnew).symm⟩
    · cases hsession

end Aprsc
