-- SUMMARY: Which clients go through a live upgrade with their session as it was, in every state that a client can come to.
import Aprsc.Base.Runs
import Aprsc.Liveupgrade.ClientJson

/-!
# Sessions in a live upgrade

A client that is restored from its dump has its name, its validation and its counters, but
the duplicates are dumped and not read. The port of a UDP feed is checked again, in another
range. The two flags that depend on the application are set from its name, and not as they
were.
-/

namespace Aprsc

open Runs

/-! ## Clients that can be resumed -/

/-- What holds of the session of a client of a listener at any time. -/
structure Session.Resumable (c : Session) : Prop where
  inport : c.has clflagsInport = true
  state : c.state = .login ∨ c.state = .connected
  handler : c.handlerLineIn = .login ∨ c.handlerLineIn = .incoming
  username_le : c.username.length ≤ callsignlenMax
  username_no_nul : (0 : UInt8) ∉ c.username
  validated : c.validated ≤ validatedStrong
  appName : sanitizeAsciiString (c.appName.take 31) = c.appName
  udpPort : c.udpPort = 0 ∨ 1024 ≤ c.udpPort ∧ c.udpPort ≤ 65535

structure LiveClient.Resumable (c : LiveClient) : Prop where
  fd : 0 ≤ c.fd ∧ c.fd < 2 ^ 31
  listenerId : -2 ^ 31 ≤ c.listenerId ∧ c.listenerId < 2 ^ 31
  session : c.session.Resumable

/-- The items of the dump of a client of a listener. -/
def LiveClient.items (below : Int → UInt8) (c : LiveClient) : ClientItems where
  fd := .int c.fd
  listenerId := .int c.listenerId
  state := clientStateString c.session.state
  username := c.session.username
  timeConnect := .int c.connectTime
  addrLoc := c.addrLoc
  appName := c.session.appName
  appVersion := c.session.appVersion
  verified := .int c.session.validated
  obufQ := .int (c.iobufs.obuf.obufEnd - c.iobufs.obuf.obufStart)
  bytesRx := .int c.localaccount.rxbytes
  bytesTx := .int c.localaccount.txbytes
  pktsRx := .int c.localaccount.rxpackets
  pktsTx := .int c.localaccount.txpackets
  pktsIgn := .int c.localaccount.rxdrops
  rxErrs := c.localaccount.rxerrs.map jsonInt
  filter := c.session.filterS
  tickConnect := some (jsonInt c.connectTick)
  udpPort := if c.hasFeed then some (jsonInt c.session.udpPort) else none
  ibuf := (workerClientJsonBuffers below c.iobufs).ibuf.map JsonItem.string
  obuf := (workerClientJsonBuffers below c.iobufs).obuf.map JsonItem.string
  clientHeard :=
    if c.session.has clflagsIgate then
      some (.array ((clientHeardJson c.heard).map JsonItem.string))
    else none
  lat := c.loc.map fun loc => .number (.float loc.lat)
  lng := c.loc.map fun loc => .number (.float loc.lng)

/-- Every item that is read has been written, under the name and with the type that are
expected. -/
theorem clientItems_workerClientJson {c : LiveClient} (hc : c.session.Resumable) (tick : Int)
    (below : Int → UInt8) : clientItems (workerClientJson tick below c) = some (c.items below) := by
  have hstate : c.session.state ≠ .corepeer := by
    obtain h | h := hc.state <;> rw [h] <;> decide
  have hmode : modeItems c = [("filter", .string c.session.filterS)] := by
    rw [modeItems, if_neg hstate, if_pos hc.inport]
  simp [clientItems, workerClientJson, liveupItems, accountItems, hmode, hstate, LiveClient.items,
    JsonItem.string?, JsonItem.array?]

/-! ## The restored client -/

theorem sanitizeAsciiString_sanitize (s : Bytes) :
    sanitizeAsciiString (sanitizeAsciiString s) = sanitizeAsciiString s := by
  have hall : ∀ n : Fin 256,
      (let b := UInt8.ofNat n
        let b' := if b < 32 || b ≥ 127 then ch '_' else b
        (if b' < 32 || b' ≥ 127 then ch '_' else b') = b') := by
    decide +kernel
  rw [sanitizeAsciiString, sanitizeAsciiString, List.map_map]
  refine List.map_congr_left fun b _ => ?_
  simpa using hall ⟨b.toNat, b.toNat_lt⟩

/-- The filters do not touch the rest of the session. -/
theorem exists_resumeFilters (env : HandlerEnv) (filter : Bytes) (c : Session) :
    ∃ neg pos s, resumeFilters env filter c =
      { c with negUserFilters := neg, posUserFilters := pos, filterS := s } := by
  have hkeep : ∀ (d : Session) (neg pos : List Bytes) (s : Bytes),
      (∃ neg pos s, d = { c with negUserFilters := neg, posUserFilters := pos, filterS := s }) →
        ∃ neg' pos' s', { d with negUserFilters := neg, posUserFilters := pos, filterS := s } =
          { c with negUserFilters := neg', posUserFilters := pos', filterS := s' } := by
    rintro _ neg pos s ⟨_, _, _, rfl⟩
    exact ⟨neg, pos, s, rfl⟩
  unfold resumeFilters
  split
  · exact filterParses_preserves hkeep _ ⟨_, _, _, rfl⟩
  · exact ⟨_, _, _, rfl⟩

/-- What the new process makes of a client: the fields that are restored, and from what. -/
structure LiveClient.Restored (env : UpgradeEnv) (l : LiveListener) (c c' : LiveClient) : Prop where
  fd : c'.fd = c.fd
  listenerId : c'.listenerId = c.listenerId
  flags : c'.session.flags = l.clientFlags
  udpclient : c'.session.udpclient = l.udpclient
  state : c'.session.state = c.session.state
  handler : c'.session.handlerLineIn = if c.session.state = .connected then .incoming else .login
  username : c'.session.username = if c.session.state = .connected then c.session.username else []
  validated : c'.session.validated = c.session.validated
  appName : c'.session.appName = c.session.appName
  quirksMode : c'.session.quirksMode =
    (env.handlers.quirksMode || quirksModeBlacklist.any (·.isPrefixOf c.session.appName))
  noTx : c'.login.noTx = igateTxBlacklist.any (·.isPrefixOf c.session.appName)
  udpPort : c'.session.udpPort =
    if c.hasFeed = true ∧ 1024 < c.session.udpPort ∧ l.udpclient = true then c.session.udpPort else 0
  connectTime : c'.connectTime = env.cjson.valueint (.int c.connectTime)
  localaccount : ∃ rxerrs, c'.localaccount =
    { rxbytes := env.cjson.valuedouble (.int c.localaccount.rxbytes)
      txbytes := env.cjson.valuedouble (.int c.localaccount.txbytes)
      rxpackets := env.cjson.valuedouble (.int c.localaccount.rxpackets)
      txpackets := env.cjson.valuedouble (.int c.localaccount.txpackets)
      rxdrops := env.cjson.valuedouble (.int c.localaccount.rxdrops)
      rxdupes := 0
      rxerrs }
  loc : c'.loc = c.loc.map fun loc =>
    ⟨env.cjson.valuefloat (.float loc.lat), env.cjson.valuefloat (.float loc.lng), 0⟩

section
variable {c : LiveClient} (hc : c.session.Resumable) (env : UpgradeEnv) (below : Int → UInt8)
include hc

theorem resumeState_items (new : Session) (hnew : new.username = []) :
    resumeState (clientStateString c.session.state) c.session.username new = some { new with
      state := c.session.state
      handlerLineIn := if c.session.state = .connected then .incoming else .login
      username := if c.session.state = .connected then c.session.username else [] } := by
  have hlogin : ¬ascii "login" = ascii "connected" := by decide
  have hlen : c.session.username.length ≤ 15 := Nat.le_trans hc.username_le (by decide)
  unfold resumeState
  obtain h | h := hc.state
  · simp [h, clientStateString, hlogin, ← hnew]
  · simp [h, clientStateString, List.take_of_length_le hlen, cString_eq_self hc.username_no_nul]

/-- The fields of the login, one by one. -/
theorem resumeLogin_items {new : LoginClient} (hname : new.session.username = [])
    (hport : new.session.udpPort = 0) (htx : new.noTx = false) :
    ∃ login, resumeLogin env (c.items below) new = some login ∧
      login.session.flags = new.session.flags ∧
      login.session.udpclient = new.session.udpclient ∧
      login.session.state = c.session.state ∧
      login.session.handlerLineIn = (if c.session.state = .connected then .incoming else .login) ∧
      login.session.username = (if c.session.state = .connected then c.session.username else []) ∧
      login.session.validated = c.session.validated ∧
      login.session.appName = c.session.appName ∧
      login.session.quirksMode =
        (env.handlers.quirksMode || quirksModeBlacklist.any (·.isPrefixOf c.session.appName)) ∧
      login.noTx = igateTxBlacklist.any (·.isPrefixOf c.session.appName) ∧
      login.session.udpPort =
        if c.hasFeed = true ∧ 1024 < c.session.udpPort ∧ new.session.udpclient = true then
          c.session.udpPort else 0 := by
  have hvalidated : (env.cjson.valueint (.int c.session.validated)).toNat = c.session.validated := by
    have hle : c.session.validated ≤ 3 := hc.validated
    rw [env.cjson.valueint_int _ (by omega) (by omega)]
    omega
  have hrange : -2 ^ 31 ≤ c.session.udpPort ∧ c.session.udpPort < 65536 := by
    have h := hc.udpPort
    omega
  have hudp := env.cjson.valueint_int c.session.udpPort hrange.1 (by omega)
  unfold resumeLogin
  simp only [LiveClient.items, resumeState_items hc new.session hname, Option.bind_eq_bind,
    Option.bind_some, LoginClient.setAppName, LoginClient.setSession, loginSetAppName, hc.appName,
    htx, Bool.false_or, hvalidated]
  obtain ⟨neg, pos, s, hfilters⟩ := exists_resumeFilters env.handlers c.session.filterS
    { new.session with
      state := c.session.state
      handlerLineIn := if c.session.state = .connected then .incoming else .login
      username := if c.session.state = .connected then c.session.username else []
      validated := c.session.validated
      quirksMode :=
        env.handlers.quirksMode || quirksModeBlacklist.any (·.isPrefixOf c.session.appName)
      appName := c.session.appName
      appVersion := sanitizeAsciiString (c.session.appVersion.take 31) }
  rw [hfilters]
  refine ⟨_, rfl, ?_⟩
  unfold resumeFeed
  cases hfeed : c.hasFeed with
  | false => simp [hport]
  | true =>
    simp only [if_true, Option.bind_some, number?_jsonInt, hudp, hrange.2, true_and]
    by_cases hset : 1024 < c.session.udpPort ∧ new.session.udpclient = true
    · simp [hset, LoginClient.setupUdpFeed]
    · simp only [gt_iff_lt, hset, if_false, hport, and_self]

end

/-- The listener of a client still exists, and no call that is made for the client fails. -/
structure UpgradeEnv.Admits (env : UpgradeEnv) (c : LiveClient) (l : LiveListener) : Prop where
  peer : (env.getpeername c.fd).isSome = true
  listener : env.listeners.find? (fun l => l.listenerId == c.listenerId) = some l
  alloc : env.clientAlloc.isSome = true
  sockopt : env.sockopt = true
  passed : env.passed = true

section
variable {c : LiveClient} (hc : c.Resumable) {env : UpgradeEnv} {tick : Int} {below : Int → UInt8}
include hc

theorem LiveClient.Resumable.upgradeNewClient_eq_some {new : LiveClient} :
    upgradeNewClient env (c.items below) = some new ↔
      ∃ addrRem, env.getpeername c.fd = some addrRem ∧
      ∃ l, env.listeners.find? (fun l => l.listenerId == c.listenerId) = some l ∧
      ∃ bufs, env.clientAlloc = some bufs ∧
        new = l.newClient c.fd addrRem env.addrLoc env.now env.tick bufs env.udpGauge := by
  obtain ⟨hfd, hfd'⟩ := hc.fd
  have hfdv := env.cjson.valueint_int c.fd (by omega) hfd'
  have hidv := env.cjson.valueint_int c.listenerId hc.listenerId.1 hc.listenerId.2
  simp only [upgradeNewClient, LiveClient.items, hfdv, hidv, not_lt.mpr hfd, if_false,
    Option.bind_eq_bind, Option.bind_eq_some_iff, Option.pure_def, Option.some.injEq,
    eq_comm (a := new)]

/-- A restored client has a listener that admits it. -/
theorem LiveClient.Resumable.admits {c' : LiveClient}
    (h : LiveClient.acceptLiveupgradeSingle env (workerClientJson tick below c) = some c') :
    ∃ l, env.Admits c l := by
  rw [LiveClient.acceptLiveupgradeSingle, clientItems_workerClientJson hc.session, Option.bind_some,
    resumeClient] at h
  obtain ⟨new, hnew, h⟩ := Option.bind_eq_some_iff.mp h
  obtain ⟨login, -, h⟩ := Option.bind_eq_some_iff.mp h
  obtain ⟨addrRem, hpeer, l, hl, bufs, hbufs, rfl⟩ := hc.upgradeNewClient_eq_some.mp hnew
  split at h
  next hcalls =>
    rw [Bool.and_eq_true] at hcalls
    exact ⟨l, by simp [hpeer], hl, by simp [hbufs], hcalls.1, hcalls.2⟩
  next => cases h

/-- A client is restored if its listener admits it, field by field. -/
theorem LiveClient.Resumable.restored {l : LiveListener} (hl : env.Admits c l) :
    ∃ c', LiveClient.acceptLiveupgradeSingle env (workerClientJson tick below c) = some c' ∧
      c.Restored env l c' := by
  obtain ⟨addrRem, hpeer⟩ := Option.isSome_iff_exists.mp hl.peer
  obtain ⟨bufs, hbufs⟩ := Option.isSome_iff_exists.mp hl.alloc
  have hid : l.listenerId = c.listenerId := by simpa using List.find?_some hl.listener
  have hnew := (@LiveClient.Resumable.upgradeNewClient_eq_some _ hc env below _).mpr
    ⟨addrRem, hpeer, l, hl.listener, bufs, hbufs, rfl⟩
  obtain ⟨login, hlogin, hflags, hudp, hstate, hhandler, hname, hvalidated, happ, hquirks, htx, hport⟩ :=
    @resumeLogin_items _ hc.session env below
      (l.newClient c.fd addrRem env.addrLoc env.now env.tick bufs env.udpGauge).login rfl rfl rfl
  rw [LiveClient.acceptLiveupgradeSingle, clientItems_workerClientJson hc.session, Option.bind_some,
    resumeClient, hnew]
  simp only [Option.bind_eq_bind, Option.bind_some, hlogin, hl.sockopt, hl.passed, Bool.and_self,
    if_true]
  refine ⟨_, rfl, rfl, hid, hflags, hudp, hstate, hhandler, hname, hvalidated, happ, hquirks, htx,
    hport, rfl, ⟨_, rfl⟩, ?_⟩
  unfold fillClient LiveClient.items
  cases c.loc <;> rfl

end

/-! ## Runs -/

/-- A connection that is accepted, and what the calls for it return. -/
structure Accepted where
  listener : LiveListener
  fd : Int
  addrRem : Bytes
  addrLoc : Bytes
  now : Int
  tick : Int
  bufs : Bytes × Bytes
  udpGauge : Int
  fd_range : 0 ≤ fd ∧ fd < 2 ^ 31

/-- The client after `do_accept`. -/
def Accepted.client (a : Accepted) : LiveClient :=
  let c := a.listener.newClient a.fd a.addrRem a.addrLoc a.now a.tick a.bufs a.udpGauge
  { c with login := c.login.setSession { c.session with state := .login } }

/-- A line goes to its handler. -/
def liveLine (env : HandlerEnv) (udp : Bool) (s : Bytes) : LoginM Int := do
  let c ← ResM.get
  match c.session.handlerLineIn with
  | .login => loginClientHandler env s
  | _ => onSession (handlerLineIn env udp s)

/-- What happens to a client. -/
inductive LiveEvent where
  /-- A line, with what the writes to the client will do. -/
  | line (env : HandlerEnv) (udp : Bool) (s : Bytes) (writes : Nat → WriteOutcome)
  /-- `clientaccount_add_rx`. -/
  | rx (rxbytes rxpackets rxerr rxdupes : Int)
  /-- `clientaccount_add_tx`. -/
  | tx (txbytes txpackets : Int)
  /-- The rest of the server writes to the buffers, the lists and the location. -/
  | other (iobufs : Iobufs) (heard courtesy : HeardList) (lastRead : Int) (loc : Option Position)
  /-- The client is dumped and restored. -/
  | upgrade (tick : Int) (below : Int → UInt8) (env : UpgradeEnv)

/-- A client that is closed or not restored is gone. -/
def LiveClient.step (c : LiveClient) : LiveEvent → Option LiveClient
  | .line env udp s writes =>
      let r := (liveLine env udp s
        { obj := c.login, alive := true, misused := false, outs := writes, made := [] }).2
      if r.alive then some { c with login := r.obj } else none
  | .rx rxbytes rxpackets rxerr rxdupes =>
      some { c with localaccount := c.localaccount.addRx rxbytes rxpackets rxerr rxdupes }
  | .tx txbytes txpackets => some { c with localaccount := c.localaccount.addTx txbytes txpackets }
  | .other iobufs heard courtesy lastRead loc =>
      some { c with iobufs, heard, courtesy, lastRead, loc }
  | .upgrade tick below env => LiveClient.acceptLiveupgradeSingle env (workerClientJson tick below c)

def liveStep (s : Option LiveClient) (e : LiveEvent) : Option LiveClient := s.bind (·.step e)

theorem Session.resumable_stable (env : HandlerEnv) : LoginStable env Session.Resumable where
  failedCmds _ _ hc := { hc with }
  username _ _ hlen hnul hc := { hc with username_le := hlen, username_no_nul := hnul }
  validated _ _ hv hc := { hc with validated := hv }
  appName c app ver hc := { hc with
    appName := by
      have hlen : (sanitizeAsciiString (app.take 31)).length ≤ 31 := by
        rw [sanitizeAsciiString, List.length_map]
        exact List.length_take_le 31 app
      rw [loginSetAppName, List.take_of_length_le hlen, sanitizeAsciiString_sanitize] }
  udpPort _ _ hlo hhi hc := { hc with udpPort := .inr ⟨hlo, hhi⟩ }
  filters _ _ _ _ hc := { hc with }
  loggedIn _ hc := { hc with handler := .inr rfl }
  connected _ hc := { hc with state := .inr rfl }

theorem Accepted.resumable (a : Accepted) : a.client.Resumable where
  fd := a.fd_range
  listenerId := a.listener.id_range
  session :=
    { inport := by
        have hinport := a.listener.inport
        show (a.listener.clientFlags &&& clflagsInport != 0) = true
        simpa using hinport
      state := .inl rfl
      handler := .inl rfl
      username_le := Nat.zero_le _
      username_no_nul := List.not_mem_nil
      validated := Nat.zero_le _
      appName := rfl
      udpPort := .inl rfl }

theorem liveLine_resumable (env : HandlerEnv) (udp : Bool) (s : Bytes) :
    ResM.Preserves (fun c : LoginClient => c.session.Resumable) (liveLine env udp s) := by
  have hstable := Session.resumable_stable env
  refine .get_bind fun c hc r hr => ?_
  obtain h | h := hc.handler
  · rw [h]
    have hextends := (@loginClientHandler_extends env s r).2
    have hkept := hstable.loginHandler s (ResM.view LoginClient.session r) hr
    rw [← hextends] at hkept
    exact hkept
  · rw [h]
    have hkept : ResM.Preserves Session.Resumable (handlerLineIn env udp s) := by
      refine .get_bind fun d hd => ?_
      obtain h | h := hd.handler
      · rw [h]
        exact hstable.loginHandler s
      · rw [h]
        exact hstable.incomingHandler udp s
    exact hkept (ResM.view LoginClient.session r) hr

/-- What can be resumed once, can be resumed again. -/
theorem LiveClient.Restored.resumable {env : UpgradeEnv} {l : LiveListener} {c c' : LiveClient}
    (hc : c.Resumable) (h : c.Restored env l c') : c'.Resumable where
  fd := by rw [h.fd]; exact hc.fd
  listenerId := by rw [h.listenerId]; exact hc.listenerId
  session :=
    { inport := by simpa [Session.has, h.flags] using l.inport
      state := by rw [h.state]; exact hc.session.state
      handler := by rw [h.handler]; split <;> simp
      username_le := by
        rw [h.username]
        split
        · exact hc.session.username_le
        · exact Nat.zero_le _
      username_no_nul := by
        rw [h.username]
        split
        · exact hc.session.username_no_nul
        · exact List.not_mem_nil
      validated := by rw [h.validated]; exact hc.session.validated
      appName := by rw [h.appName]; exact hc.session.appName
      udpPort := by
        rw [h.udpPort]
        split
        · exact hc.session.udpPort
        · exact .inl rfl }

theorem LiveClient.Resumable.step {c c' : LiveClient} (hc : c.Resumable) {e : LiveEvent}
    (h : c.step e = some c') : c'.Resumable := by
  cases e with
  | line env udp s writes =>
    simp only [LiveClient.step] at h
    split at h
    · cases h
      exact ⟨hc.fd, hc.listenerId, liveLine_resumable env udp s _ hc.session⟩
    · cases h
  | rx => cases h; exact ⟨hc.fd, hc.listenerId, hc.session⟩
  | tx => cases h; exact ⟨hc.fd, hc.listenerId, hc.session⟩
  | other => cases h; exact ⟨hc.fd, hc.listenerId, hc.session⟩
  | upgrade tick below env =>
    obtain ⟨l, hl⟩ := hc.admits h
    obtain ⟨c'', hc'', hrestored⟩ := hc.restored hl
    obtain rfl : c'' = c' := Option.some.inj (hc''.symm.trans h)
    exact hrestored.resumable hc

/-- A client can be resumed at any time. -/
theorem resumable_of_run (a : Accepted) (es : List LiveEvent) :
    ∀ c, run liveStep (some a.client) es = some c → c.Resumable := by
  refine (always_of_step (I := fun s : Option LiveClient => ∀ c, s = some c → c.Resumable) (fun s e hs c' h => ?_)
    (fun c h => ?_) es).last
  · obtain ⟨c, rfl, hstep⟩ := Option.bind_eq_some_iff.mp h
    exact (hs c rfl).step hstep
  · cases h
    exact a.resumable

/-! ## What survives -/

/-- The fields that make up the session are the same. A client that had no UDP feed may be
without one in any way. -/
structure LiveClient.SameSession (c c' : LiveClient) : Prop where
  username : c'.session.username = c.session.username
  validated : c'.session.validated = c.session.validated
  feed : c.hasFeed = true → c'.hasFeed = true ∧ c'.session.udpPort = c.session.udpPort
  bytes : c'.localaccount.rxbytes = c.localaccount.rxbytes ∧
    c'.localaccount.txbytes = c.localaccount.txbytes
  packets : c'.localaccount.rxpackets = c.localaccount.rxpackets ∧
    c'.localaccount.txpackets = c.localaccount.txpackets
  drops : c'.localaccount.rxdrops = c.localaccount.rxdrops
  dupes : c'.localaccount.rxdupes = c.localaccount.rxdupes
  connectTime : c'.connectTime = c.connectTime
  quirksMode : c'.session.quirksMode = c.session.quirksMode
  noTx : c'.login.noTx = c.login.noTx

/-- The client has no duplicates, its UDP feed is not on the lowest port and its listener has
a UDP socket still, its flags are those of the name of its application, and its numbers are
read as they were written. -/
structure LiveClient.Survives (env : UpgradeEnv) (l : LiveListener) (c : LiveClient) : Prop where
  dupes : c.localaccount.rxdupes = 0
  feed : c.hasFeed = true → c.session.udpPort ≠ 1024 ∧ l.udpclient = true
  quirksMode : c.session.quirksMode =
    (env.handlers.quirksMode || quirksModeBlacklist.any (·.isPrefixOf c.session.appName))
  noTx : c.login.noTx = igateTxBlacklist.any (·.isPrefixOf c.session.appName)
  connectTime : env.cjson.valueint (.int c.connectTime) = c.connectTime
  counters : ∀ n ∈ [c.localaccount.rxbytes, c.localaccount.txbytes, c.localaccount.rxpackets,
    c.localaccount.txpackets, c.localaccount.rxdrops], env.cjson.valuedouble (.int n) = n

/-- The UDP feed is set up again on any port but the lowest one. -/
theorem LiveClient.Restored.feed_iff {env : UpgradeEnv} {l : LiveListener} {c c' : LiveClient}
    (hc : c.Resumable) (h : c.Restored env l c') (hfeed : c.hasFeed = true) :
    (c'.hasFeed = true ∧ c'.session.udpPort = c.session.udpPort) ↔
      c.session.udpPort ≠ 1024 ∧ l.udpclient = true := by
  have hport : 1024 ≤ c.session.udpPort ∧ c.session.udpPort ≤ 65535 := by
    refine hc.session.udpPort.resolve_left fun hzero => ?_
    simp [LiveClient.hasFeed, hzero] at hfeed
  unfold LiveClient.hasFeed
  rw [h.udpPort, h.udpclient]
  by_cases hset : 1024 < c.session.udpPort ∧ l.udpclient = true
  · rw [if_pos ⟨hfeed, hset⟩]
    have hne : c.session.udpPort ≠ 0 := by omega
    simp only [bne_iff_ne.mpr hne, hset.2, Bool.and_self, and_self, and_true, true_iff, ne_eq]
    omega
  · rw [if_neg fun hall => hset hall.2]
    refine iff_of_false (fun hzero => ?_) fun hne => hset ⟨by omega, hne.2⟩
    simp at hzero

/-- A client that is connected in any run, and that the new process admits, is restored. Its
session is the same if and only if the client has what survives. -/
theorem session_survives_iff (a : Accepted) (es : List LiveEvent) (c : LiveClient)
    (hrun : run liveStep (some a.client) es = some c) (hconnected : c.session.state = .connected)
    (env : UpgradeEnv) (l : LiveListener) (hl : env.Admits c l) (tick : Int)
    (below : Int → UInt8) :
    ∃ c', LiveClient.acceptLiveupgradeSingle env (workerClientJson tick below c) = some c' ∧
      (c.SameSession c' ↔ c.Survives env l) := by
  have hc := resumable_of_run a es c hrun
  obtain ⟨c', haccept, h⟩ := hc.restored hl
  obtain ⟨rxerrs, haccount⟩ := h.localaccount
  refine ⟨c', haccept, fun hsame => ?_, fun hsurvives => ?_⟩
  · have hbytes := hsame.bytes
    have hpackets := hsame.packets
    have hdrops := hsame.drops
    have hdupes := hsame.dupes
    rw [haccount] at hbytes hpackets hdrops hdupes
    dsimp only at hbytes hpackets hdrops hdupes
    exact {
      dupes := hdupes.symm
      feed := fun hfeed => (h.feed_iff hc hfeed).mp (hsame.feed hfeed)
      quirksMode := by rw [← hsame.quirksMode, h.quirksMode]
      noTx := by rw [← hsame.noTx, h.noTx]
      connectTime := by rw [← h.connectTime, hsame.connectTime]
      counters := by simp [hbytes, hpackets, hdrops] }
  · have hcounters := hsurvives.counters
    simp only [List.mem_cons, List.not_mem_nil, or_false, forall_eq_or_imp, forall_eq] at hcounters
    obtain ⟨hrxb, htxb, hrxp, htxp, hdrops⟩ := hcounters
    exact {
      username := by rw [h.username, if_pos hconnected]
      validated := h.validated
      feed := fun hfeed => (h.feed_iff hc hfeed).mpr (hsurvives.feed hfeed)
      bytes := by rw [haccount]; exact ⟨hrxb, htxb⟩
      packets := by rw [haccount]; exact ⟨hrxp, htxp⟩
      drops := by rw [haccount]; exact hdrops
      dupes := by rw [haccount]; exact hsurvives.dupes.symm
      connectTime := by rw [h.connectTime, hsurvives.connectTime]
      quirksMode := by rw [h.quirksMode, ← hsurvives.quirksMode]
      noTx := by rw [h.noTx, ← hsurvives.noTx] }

/-- A server, and one of its ports with a UDP service. -/
private def liveEnv : HandlerEnv where
  serverid := ascii "TESTING"
  passcode := ascii "31421"
  verstrAprsis := ascii "aprsc 2"
  quirksMode := false
  disallowLogin _ := false
  incomingParse _ _ := .done 0
  incomingEdits _ line := line
  filterParse neg pos arg := ((neg, pos ++ [arg]), 0)
  parseArgs s := [s]
  sslStrerror _ := []
  x509Error := []
  msgid := ascii "1"

private def livePort : LiveListener where
  listenerId := 1
  clientFlags := clflagsInport
  sctp := false
  udpclient := true
  filterS := []
  id_range := by decide
  inport := by decide

private def liveAccepted : Accepted where
  listener := livePort
  fd := 7
  addrRem := ascii "192.0.2.1:5000"
  addrLoc := ascii "192.0.2.2:14580"
  now := 1000
  tick := 100
  bufs := ([], [])
  udpGauge := 0
  fd_range := by decide

private def liveUpgrade : UpgradeEnv where
  cjson :=
    { valueint := fun | .int n => n | .float _ => 0
      valuedouble := fun | .int n => n | .float _ => 0
      valuefloat := fun | .int _ => 0 | .float f => f
      valueint_int := fun _ _ _ => rfl
      valuedouble_int := fun _ _ _ => rfl }
  handlers := liveEnv
  listeners := [livePort]
  tick := 200
  now := 1100
  getpeername _ := some (ascii "192.0.2.1:5000")
  addrLoc := ascii "192.0.2.2:14580"
  clientAlloc := some ([], [])
  udpGauge := 0
  heardCell _ := []
  rxerrMap := []
  sockopt := true
  passed := true

/-- A login with a UDP feed, and a packet. -/
private def liveEvents : List LiveEvent :=
  [.line liveEnv false (ascii "user N0CALL pass -1 vers app 1 udp 2000") fun _ => .sent,
    .rx 40 1 0 0]

private theorem livePort_admits {c : LiveClient} (hid : c.listenerId = 1) :
    liveUpgrade.Admits c livePort where
  peer := rfl
  listener := by rw [hid]; rfl
  alloc := rfl
  sockopt := rfl
  passed := rfl

/-- The session of a client with a UDP feed is the same after the upgrade. -/
theorem session_survives_with_feed :
    ∃ c c', run liveStep (some liveAccepted.client) liveEvents = some c ∧ c.hasFeed = true ∧
      LiveClient.acceptLiveupgradeSingle liveUpgrade (workerClientJson 150 (fun _ => 0) c) = some c' ∧
      c.SameSession c' := by
  have hrun : (run liveStep (some liveAccepted.client) liveEvents).map
      (fun c => (c.listenerId, c.session.state, c.hasFeed, c.session.udpPort)) =
      some (1, .connected, true, 2000) := by
    decide
  have hflags : (run liveStep (some liveAccepted.client) liveEvents).map
      (fun c => (c.localaccount.rxdupes, c.session.quirksMode, c.session.appName, c.login.noTx)) =
      some (0, false, ascii "app", false) := by
    decide
  obtain ⟨c, hc, hfields⟩ := Option.map_eq_some_iff.mp hrun
  rw [hc, Option.map_some] at hflags
  simp only [Option.some.injEq, Prod.mk.injEq] at hfields hflags
  obtain ⟨hid, hconnected, hfeed, hport⟩ := hfields
  obtain ⟨hdupes, hquirks, happ, htx⟩ := hflags
  obtain ⟨c', haccept, hiff⟩ := session_survives_iff liveAccepted liveEvents c hc hconnected
    liveUpgrade livePort (livePort_admits hid) 150 (fun _ => 0)
  refine ⟨c, c', hc, hfeed, haccept, hiff.mpr ?_⟩
  exact {
    dupes := hdupes
    feed := fun _ => ⟨by rw [hport]; decide, rfl⟩
    quirksMode := by rw [hquirks, happ]; decide
    noTx := by rw [htx, happ]; decide
    connectTime := rfl
    counters := fun _ _ => rfl }

/-- A duplicate that the client has sent is not counted any more after the upgrade. -/
theorem duplicates_are_not_restored :
    ∃ c l, run liveStep (some liveAccepted.client) (liveEvents ++ [.rx 40 1 0 1]) = some c ∧
      c.session.state = .connected ∧ liveUpgrade.Admits c l ∧
      ¬∃ c', LiveClient.acceptLiveupgradeSingle liveUpgrade (workerClientJson 150 (fun _ => 0) c) = some c' ∧
        c.SameSession c' := by
  have hrun : (run liveStep (some liveAccepted.client) (liveEvents ++ [.rx 40 1 0 1])).map
      (fun c => (c.listenerId, c.session.state, c.localaccount.rxdupes)) =
      some (1, .connected, 1) := by
    decide
  have hdump : ((run liveStep (some liveAccepted.client) (liveEvents ++ [.rx 40 1 0 1])).bind
      fun c => LiveClient.acceptLiveupgradeSingle liveUpgrade (workerClientJson 150 (fun _ => 0) c)).map
        (fun c => c.localaccount.rxdupes) = some 0 := by
    decide
  obtain ⟨c, hc, hfields⟩ := Option.map_eq_some_iff.mp hrun
  simp only [Prod.mk.injEq] at hfields
  obtain ⟨hid, hconnected, hdupes⟩ := hfields
  refine ⟨c, livePort, hc, hconnected, livePort_admits hid, ?_⟩
  rintro ⟨c', haccept, hsame⟩
  rw [hc, Option.bind_some, haccept, Option.map_some, hsame.dupes, hdupes] at hdump
  cases hdump

end Aprsc
