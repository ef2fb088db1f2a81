-- SUMMARY: The username of a client structure and its stored length, wherever one of them is written, and when they agree.
import Aprsc.Liveupgrade.Session
import Aprsc.Worker.Validation

/-!
# The length of a username

A client structure holds a username in an array of 16 bytes, and the length of it. Readers take
either the text up to its NUL or as many bytes as the length says. The two are written by hand
wherever a client gets a name: in a login, after a live upgrade, when an uplink is made and when it
has logged in, for core peers, and for each packet that comes by HTTP or in a UDP submission.
-/

namespace Aprsc

open ResM Runs

/-! ## The two fields -/

/-- The size of `username` of `struct client_t`. -/
def usernameSize : Nat := 16

/-- `strncpy` into an array of `n` bytes. -/
def strncpy (n : Nat) (src : Bytes) : Bytes :=
  (cString src).take n ++ List.replicate (n - (cString src).length) 0

/-- `strlen`. -/
def strlen (s : Bytes) : Nat := (cString s).length

@[simp] theorem length_strncpy (n : Nat) (src : Bytes) : (strncpy n src).length = n := by
  rw [strncpy, List.length_append, List.length_take, List.length_replicate]
  omega

/-- The fields of `struct client_t` for the username. -/
structure UsernameFields where
  username : Bytes
  usernameLen : Int8
  size : username.length = usernameSize
deriving DecidableEq

namespace UsernameFields

/-- After `memset` in `client_alloc`. -/
def zero : UsernameFields where
  username := List.replicate usernameSize 0
  usernameLen := 0
  size := List.length_replicate

/-- `strncpy` to `username`, and a NUL in its last byte. -/
def copy (src : Bytes) (f : UsernameFields) : UsernameFields where
  username := (strncpy usernameSize src).set (usernameSize - 1) 0
  usernameLen := f.usernameLen
  size := by rw [List.length_set, length_strncpy]

/-- `username_len = strlen(username)`. -/
def measure (f : UsernameFields) : UsernameFields :=
  { f with usernameLen := Int8.ofNat (strlen f.username) }

/-- The three statements with which a name is written. -/
def write (src : Bytes) (f : UsernameFields) : UsernameFields := (f.copy src).measure

/-- `username[0] = 0` and `username_len = 0`. -/
def clear (f : UsernameFields) : UsernameFields where
  username := f.username.set 0 0
  usernameLen := 0
  size := by rw [List.length_set, f.size]

/-- The username as a text. -/
def text (f : UsernameFields) : Bytes := cString f.username

/-- The username has a NUL, and the stored length is the one of the text before it. -/
structure Exact (f : UsernameFields) : Prop where
  terminated : 0 ∈ f.username
  length : f.usernameLen.toInt = strlen f.username

instance (f : UsernameFields) : Decidable f.Exact :=
  decidable_of_iff (0 ∈ f.username ∧ f.usernameLen.toInt = strlen f.username)
    ⟨fun h => ⟨h.1, h.2⟩, fun h => ⟨h.1, h.2⟩⟩

end UsernameFields

/-! ## The functions that write them -/

/-- The username that `login_handler` writes, if it gets that far. -/
def loginUsername : (argv : List Bytes) → Option Bytes
  | cmd :: username :: _ =>
      if cmd.head? = some (ch '#') then none
      else if !caseEq cmd (ascii "user") then none
      else if username.length > callsignlenMax then none
      else some username
  | _ => none

namespace UsernameFields

/-- What `login_handler` does to the fields. -/
def loginHandler (argv : List Bytes) (f : UsernameFields) : UsernameFields :=
  match loginUsername argv with
  | none => f
  | some username => f.write username

/-- What `uplink_logresp_handler` does to the fields. -/
def uplinkLogrespHandler (env : HandlerEnv) (argv : List Bytes) (f : UsernameFields) :
    UsernameFields :=
  match uplinkServerName env argv with
  | none => f
  | some server => f.copy server

/-- What `accept_liveupgrade_single` does to the fields. -/
def acceptLiveupgradeSingle (state username : Bytes) (f : UsernameFields) : UsernameFields :=
  if state = ascii "connected" then f.write username else f

/-- `pseudoclient_push_packet`. In between, `incoming_parse` reads the name. -/
def pseudoclientPushPacket (username : Bytes) (f : UsernameFields) : UsernameFields :=
  (f.write username).clear

end UsernameFields

/-! ## Client structures -/

/-- A client structure: the one of a connection or of a core peer, with what the line handlers read
and write of it, or the one of the HTTP or the UDP service. -/
inductive ClientStruct where
  | connection (session : Session) (name : UsernameFields)
  | pseudo (name : UsernameFields)

/-- The two fields of a client structure. -/
def ClientStruct.name : ClientStruct → UsernameFields
  | .connection _ name => name
  | .pseudo name => name

/-- Where a client structure comes from. -/
inductive ClientOrigin where
  /-- `do_accept`. The port may ask for certificates. -/
  | accept (a : Accepted) (cert : Option CertCheck)
  /-- `accept_liveupgrade_single`. -/
  | upgrade (env : UpgradeEnv) (client : JsonObject)
  /-- `make_uplink`, with the name and the flags of the uplink. -/
  | uplink (name : Bytes) (clientFlags : UInt32) (cert : Option CertCheck)
  /-- `peerip_clients_config`, with the name and the port of the peer. -/
  | corepeer (serverid : Bytes) (remotePort : Int)
  /-- `pseudoclient_setup`. -/
  | pseudo

/-- The session of a client that has a name and does not come from a listener. -/
def namedSession (handlerLineIn : HandlerKind) (state : CState) (flags : UInt32)
    (username : Bytes) : Session where
  handlerLineIn
  state
  flags
  username
  validated := 0
  failedCmds := 0
  quirksMode := false
  appName := []
  appVersion := []
  udpclient := false
  udpPort := 0
  cert := none
  filterS := []
  negUserFilters := []
  posUserFilters := []

/-- The new client structure, if there is one. -/
def ClientOrigin.client : ClientOrigin → Option ClientStruct
  | .accept a cert => some (.connection { a.client.session with cert } .zero)
  | .upgrade env client => do
      let i ← clientItems client
      let c ← resumeClient env i
      some (.connection c.session (UsernameFields.zero.acceptLiveupgradeSingle i.state i.username))
  | .uplink name clientFlags cert =>
      let name := UsernameFields.zero.write name
      some (.connection { namedSession .uplinkLogin .init clientFlags name.text with cert } name)
  | .corepeer serverid remotePort =>
      let name := UsernameFields.zero.write serverid
      some (.connection
        { namedSession .incoming .corepeer clflagsUplinkport name.text with
          validated := validatedWeak
          udpclient := true
          udpPort := remotePort } name)
  | .pseudo => some (.pseudo .zero)

/-- What happens to a client structure. -/
inductive UsernameEvent where
  /-- A line, with what the writes to the client will do, and what is found if the certificate of
  the peer is checked. -/
  | line (env : HandlerEnv) (udp : Bool) (s : Bytes) (writes : Nat → WriteOutcome)
      (check : CertCheck)
  /-- A packet by HTTP or in a UDP submission. -/
  | packet (username : Bytes)
  /-- `client_free`. -/
  | free

/-- The certificate of the peer is checked on a connection that asks for it. -/
def Session.checked (c : Session) (check : CertCheck) : Session :=
  { c with cert := c.cert.map fun _ => check }

/-- The handler of a client gets a line. -/
def handledLine (env : HandlerEnv) (udp : Bool) (s : Bytes) (writes : Nat → WriteOutcome)
    (c : Session) : Resource Session WriteOutcome :=
  (handlerLineIn env udp s
    { obj := c, alive := true, misused := false, outs := writes, made := [] }).2

/-- What the handlers do to the fields. -/
def UsernameFields.line (env : HandlerEnv) (s : Bytes) (handler : HandlerKind)
    (f : UsernameFields) : UsernameFields :=
  match handler with
  | .login => f.loginHandler (parseArgsNoshell s).1
  | .uplinkLogresp => f.uplinkLogrespHandler env (parseArgsNoshell s).1
  | .incoming => f
  | .uplinkLogin => f

/-- The client structure after an event, if it is still there. -/
def ClientStruct.step : ClientStruct → UsernameEvent → Option ClientStruct
  | .connection c name, .line env udp s writes check =>
      let r := handledLine env udp s writes (c.checked check)
      if r.alive then some (.connection r.obj (name.line env s c.handlerLineIn)) else none
  | .pseudo name, .packet username => some (.pseudo (name.pseudoclientPushPacket username))
  | _, .free => none
  -- no packets are handed to a connection, and no lines to the services
  | c, .packet _ => some c
  | c, .line _ _ _ _ _ => some c

def usernameStep (s : Option ClientStruct) (e : UsernameEvent) : Option ClientStruct :=
  s.bind (·.step e)

/-! ## The text of the array -/

/-- A name with a NUL put behind it, cut if it is too long. The rest of the array is filled up. -/
theorem set_strncpy (n : Nat) (src : Bytes) : ∃ k,
    (strncpy (n + 1) src).set n 0 = (cString src).take n ++ 0 :: List.replicate k 0 := by
  rw [strncpy]
  by_cases hlen : (cString src).length ≤ n
  · refine ⟨n - (cString src).length, ?_⟩
    rw [List.take_of_length_le (Nat.le_succ_of_le hlen), List.take_of_length_le hlen,
      List.set_append_right _ _ hlen, List.set_replicate_self, Nat.succ_sub hlen,
      List.replicate_succ]
  · have hlt : n < (cString src).length := Nat.lt_of_not_le hlen
    have htake : n < ((cString src).take (n + 1)).length := by
      rw [List.length_take]
      omega
    refine ⟨0, ?_⟩
    rw [Nat.sub_eq_zero_of_le hlt, List.replicate_zero, List.append_nil,
      List.set_eq_take_append_cons_drop, if_pos htake, List.take_take,
      Nat.min_eq_left (Nat.le_succ n), List.drop_eq_nil_of_le (List.length_take_le ..)]

namespace UsernameFields

theorem zero_exact : zero.Exact := by decide

theorem copy_username (src : Bytes) (f : UsernameFields) : ∃ k,
    (f.copy src).username = (cString src).take (usernameSize - 1) ++ 0 :: List.replicate k 0 :=
  set_strncpy (usernameSize - 1) src

theorem copy_text (src : Bytes) (f : UsernameFields) :
    (f.copy src).text = (cString src).take (usernameSize - 1) := by
  obtain ⟨k, hk⟩ := copy_username src f
  have hnul : (0 : UInt8) ∉ (cString src).take (usernameSize - 1) := fun hmem =>
    zero_not_mem_cString src (List.mem_of_mem_take hmem)
  rw [text, hk, cString_append hnul]
  exact List.append_nil _

/-- A name that is not too long is the text that is read back. -/
theorem copy_text_eq {src : Bytes} (f : UsernameFields) (hnul : 0 ∉ src)
    (hlen : src.length < usernameSize) : (f.copy src).text = src := by
  rw [copy_text, cString_eq_self hnul]
  exact List.take_of_length_le (Nat.le_sub_one_of_lt hlen)

theorem copy_terminated (src : Bytes) (f : UsernameFields) : 0 ∈ (f.copy src).username := by
  obtain ⟨k, hk⟩ := copy_username src f
  rw [hk]
  exact List.mem_append_right _ List.mem_cons_self

/-- The stored length is not too long for its type. -/
theorem measure_length (f : UsernameFields) : f.measure.usernameLen.toInt = strlen f.username := by
  have hle : strlen f.username ≤ usernameSize := by
    rw [strlen, ← f.size]
    exact (List.takeWhile_prefix _).length_le
  have hlt : strlen f.username < 2 ^ 7 := Nat.lt_of_le_of_lt hle (by decide)
  exact Int8.toInt_ofNat_of_lt hlt

theorem write_exact (src : Bytes) (f : UsernameFields) : (f.write src).Exact :=
  ⟨copy_terminated src f, measure_length (f.copy src)⟩

theorem clear_exact (f : UsernameFields) : f.clear.Exact := by
  have hlen : 0 < f.username.length := by
    rw [f.size]
    decide
  obtain ⟨b, rest, hcons⟩ := List.exists_cons_of_length_pos hlen
  have hclear : f.clear.username = 0 :: rest := congrArg (List.set · 0 0) hcons
  refine ⟨?_, ?_⟩
  · rw [hclear]
    exact List.mem_cons_self
  · rw [hclear]
    rfl

/-- When another name is copied over an exact one. -/
theorem copy_exact_iff {f : UsernameFields} {src : Bytes} (h : f.Exact) (hnul : 0 ∉ src)
    (hlen : src.length < usernameSize) : (f.copy src).Exact ↔ src.length = strlen f.username := by
  have hkept : (f.copy src).usernameLen.toInt = strlen f.username := h.length
  have htext : strlen (f.copy src).username = src.length :=
    congrArg List.length (copy_text_eq f hnul hlen)
  constructor
  · intro hexact
    have hnew := hexact.length
    rw [hkept, htext] at hnew
    exact (Int.ofNat.inj hnew).symm
  · intro heq
    refine ⟨copy_terminated src f, ?_⟩
    rw [hkept, htext, heq]

end UsernameFields

/-! ## Names on lines -/

theorem loginUsername_spec {argv : List Bytes} {u : Bytes} (h : loginUsername argv = some u) :
    u ∈ argv ∧ u.length ≤ callsignlenMax := by
  unfold loginUsername at h
  split at h
  next cmd username args =>
    split at h
    next => cases h
    next =>
      split at h
      next => cases h
      next =>
        split at h
        next => cases h
        next hlen =>
          cases h
          exact ⟨by simp, Nat.le_of_not_gt hlen⟩
  next => cases h

theorem uplinkServerName_spec {env : HandlerEnv} {argv : List Bytes} {server : Bytes}
    (hargv : ∀ arg ∈ argv, (0 : UInt8) ∉ arg) (h : uplinkServerName env argv = some server) :
    (0 : UInt8) ∉ server ∧ server.length ≤ callsignlenMax := by
  unfold uplinkServerName at h
  split at h
  next hash logresp call verified word name rest =>
    simp only at h
    split at h
    next hgood =>
      cases h
      refine ⟨fun hmem => ?_, hgood.2.2.2.2.2.1⟩
      exact hargv name (by simp) ((List.takeWhile_prefix _).subset hmem)
    next => cases h
  next => cases h

section

variable {env : HandlerEnv} {u : Bytes} {v : Nat}

/-- A client with the name, whether it is logged in or not. -/
def NamedAs (u : Bytes) (c : Session) : Prop := (∃ v, Applying u v c) ∨ ∃ v, LoggedInAs u v c

theorem loginWithOptions_namedAs (sslValidated : Bool) (args : List Bytes) :
    Ensures (fun r => Applying u v r.obj) (loginWithOptions env sslValidated args)
      fun _ r => NamedAs u r.obj := by
  refine (loginOptions_passcodeRead none args).bind fun e => ?_
  cases e with
  | failed rc => exact fun r hr => .inl ⟨v, failedLogin_applying rc r hr.1⟩
  | lost rc => exact Ensures.pure fun _ hr => .inl ⟨v, hr.1⟩
  | done pass => exact fun r hr => .inr ⟨_, loginSucceeded_loggedIn sslValidated pass r hr.1⟩

/-- The name on the line is there from the check of its length on. -/
theorem loginArgs_namedAs (argv : List Bytes) :
    Ensures (fun r => Applying u v r.obj) (loginArgs env argv)
      fun _ r => NamedAs ((loginUsername argv).getD u) r.obj := by
  have hkeep {argv : List Bytes} (hnone : loginUsername argv = none) (c : Session)
      (hc : Applying u v c) : NamedAs ((loginUsername argv).getD u) c := by
    rw [hnone]
    exact .inl ⟨v, hc⟩
  refine Ensures.bind (R := fun _ r => Applying u v r.obj) (fun _ hr => hr) fun _ => ?_
  cases argv with
  | nil => exact Ensures.pure fun r hr => hkeep rfl r.obj hr
  | cons cmd args =>
    cases args with
    | nil =>
      refine .ite (fun _ => Ensures.pure fun r hr => hkeep rfl r.obj hr) fun _ => ?_
      exact fun r hr => hkeep rfl _ (rejectLogin_applying _ r hr)
    | cons username options =>
      have hname : loginUsername (cmd :: username :: options) =
          if cmd.head? = some (ch '#') then none
          else if !caseEq cmd (ascii "user") then none
          else if username.length > callsignlenMax then none
          else some username := rfl
      refine .ite (fun hhash => ?_) fun hhash => .ite (fun huser => ?_) fun huser =>
        .ite (fun hlen => ?_) fun hlen => ?_
      · have hnone : loginUsername (cmd :: username :: options) = none := by
          rw [hname, if_pos hhash]
        exact Ensures.pure fun r hr => hkeep hnone r.obj hr
      · have hnone : loginUsername (cmd :: username :: options) = none := by
          rw [hname, if_neg hhash, if_pos huser]
        exact fun r hr => hkeep hnone _
          (Preserves.modify_bind (fun c hc => hc.set rfl rfl rfl rfl) (rejectLogin_applying _) r hr)
      · have hnone : loginUsername (cmd :: username :: options) = none := by
          rw [hname, if_neg hhash, if_neg huser, if_pos hlen]
        exact fun r hr => hkeep hnone _ (rejectLogin_applying _ r hr)
      have hsome : loginUsername (cmd :: username :: options) = some username := by
        rw [hname, if_neg hhash, if_neg huser, if_neg hlen]
      rw [hsome, Option.getD_some]
      -- From here on the client has the name on the line.
      have hreject (text : String) : Ensures (fun r => Applying username v r.obj) (rejectLogin text)
          fun _ r => NamedAs username r.obj :=
        fun r hr => .inl ⟨v, rejectLogin_applying text r hr⟩
      refine .modify_obj_bind (J := Applying username v)
        (fun c hc => ⟨hc.handler, hc.state, rfl, hc.validated⟩) ?_
      refine .ite (fun _ => hreject _) fun _ => .ite (fun _ => hreject _) fun _ =>
        .ite (fun _ => hreject _) fun _ => .ite (fun _ => hreject _) fun _ => ?_
      refine .get_obj_bind fun c _ => ?_
      cases c.cert with
      | none => exact loginWithOptions_namedAs false options
      | some check =>
        refine Ensures.bind (R := fun _ r => ∃ w, Applying username w r.obj) (fun r hr => ?_)
          fun a => .ite (fun _ => ?_) fun _ => .ite (fun _ => ?_) fun _ => ?_
        · rcases loginClientValidateCert_applying check r hr with ⟨-, -, hr⟩ | ⟨-, hr⟩
          · exact ⟨validatedStrong, hr⟩
          · exact ⟨v, hr⟩
        · rintro r ⟨w, hr⟩
          exact .inl ⟨w, failedLogin_applying _ r hr⟩
        · rintro r ⟨w, hr⟩
          exact .inl ⟨w, failedLogin_applying _ r hr⟩
        · rintro r ⟨w, hr⟩
          exact loginWithOptions_namedAs true options r hr

end

/-! ## The session and the fields -/

/-- The handlers know the username as the text of the array, and no client that is logging in is
connected. -/
structure SharesName (c : Session) (name : UsernameFields) : Prop where
  username : c.username = name.text
  login : c.handlerLineIn = .login → c.state ≠ .connected

section

variable {env : HandlerEnv} {c : Session} {name : UsernameFields}

theorem SharesName.checked (h : SharesName c name) (check : CertCheck) :
    SharesName (c.checked check) name :=
  ⟨h.username, h.login⟩

theorem NamedAs.sharesName {u : Bytes} (h : NamedAs u c) (hname : name.text = u) :
    SharesName c name := by
  rcases h with ⟨v, h⟩ | ⟨v, h⟩
  · exact ⟨h.username.trans hname.symm, fun _ => h.state⟩
  · refine ⟨h.username.trans hname.symm, fun hlogin => ?_⟩
    rw [h.handler] at hlogin
    cases hlogin

theorem UsernameFields.loginHandler_text {argv : List Bytes}
    (hargv : ∀ arg ∈ argv, (0 : UInt8) ∉ arg) (f : UsernameFields) :
    (f.loginHandler argv).text = (loginUsername argv).getD f.text := by
  unfold UsernameFields.loginHandler
  cases huser : loginUsername argv with
  | none => rfl
  | some username =>
    obtain ⟨hmem, hlen⟩ := loginUsername_spec huser
    exact copy_text_eq f (hargv username hmem) (Nat.lt_of_le_of_lt hlen (by decide))

/-- The handler of logins writes the name that the fields get. -/
theorem loginHandler_sharesName (s : Bytes) (hlogin : c.handlerLineIn = .login)
    (h : SharesName c name) :
    Ensures (fun r => r.obj = c) (loginHandler env s)
      fun _ r => SharesName r.obj (name.loginHandler (parseArgsNoshell s).1) := by
  have hargv (arg : Bytes) (harg : arg ∈ (parseArgsNoshell s).1) : (0 : UInt8) ∉ arg :=
    no_nul_parseArgsLoop harg
  have happly : Applying name.text c.validated c := ⟨hlogin, h.login hlogin, h.username, rfl⟩
  rintro r rfl
  have hdone : NamedAs ((loginUsername (parseArgsNoshell s).1).getD name.text)
      (loginHandler env s r).2.obj := loginArgs_namedAs _ r happly
  exact hdone.sharesName (UsernameFields.loginHandler_text hargv name)

theorem incomingHandler_sharesName (udp : Bool) (s : Bytes)
    (hincoming : c.handlerLineIn = .incoming) (h : SharesName c name) :
    Ensures (fun r => r.obj = c) (incomingHandler env udp s) fun _ r => SharesName r.obj name := by
  have hkeep : Preserves (fun d => d.handlerLineIn = .incoming ∧ d.username = name.text)
      (incomingHandler env udp s) :=
    incomingHandler_preserves (fun _ _ _ _ hd => hd) udp s
  rintro r rfl
  obtain ⟨hhandler, husername⟩ := hkeep r ⟨hincoming, h.username⟩
  refine ⟨husername, fun hlogin => ?_⟩
  rw [hhandler] at hlogin
  cases hlogin

theorem uplinkLoginHandler_sharesName (s : Bytes) (huplink : c.handlerLineIn = .uplinkLogin)
    (h : SharesName c name) :
    Ensures (fun r => r.obj = c) (uplinkLoginHandler env s) fun _ r => SharesName r.obj name := by
  have hkeep : Preserves (fun d => d.handlerLineIn ≠ .login ∧ d.username = name.text)
      (uplinkLoginHandler env s) := by
    refine .get_bind fun d hd => .ite (Preserves.destroy.bind fun _ => .pure 0)
      (.ite (Preserves.destroy.bind fun _ => .pure 0) (.modify_bind (fun d hd => ?_) ?_))
    · split
      · exact hd
      · exact hd
    · refine (clientWrite_preserves _).bind fun rc => .ite (.pure rc) (.modify_bind ?_ (.pure 0))
      exact fun d hd => ⟨nofun, hd.2⟩
  have hstart : c.handlerLineIn ≠ .login := by
    rw [huplink]
    decide
  rintro r rfl
  obtain ⟨hhandler, husername⟩ := hkeep r ⟨hstart, h.username⟩
  exact ⟨husername, fun hlogin => absurd hlogin hhandler⟩

/-- The name of the server, if its login response is accepted. -/
def acceptedServer (env : HandlerEnv) (c : Session) (s : Bytes) : Option Bytes :=
  if certFails CertCheck.phase2 c then none else uplinkServerName env (parseArgsNoshell s).1

theorem acceptedServer_spec {s server : Bytes} (h : acceptedServer env c s = some server) :
    uplinkServerName env (parseArgsNoshell s).1 = some server ∧ (0 : UInt8) ∉ server ∧
      server.length < usernameSize := by
  unfold acceptedServer at h
  split at h
  next => cases h
  next =>
    have hargv (arg : Bytes) (harg : arg ∈ (parseArgsNoshell s).1) : (0 : UInt8) ∉ arg :=
      no_nul_parseArgsLoop harg
    obtain ⟨hnul, hlen⟩ := uplinkServerName_spec hargv h
    exact ⟨h, hnul, Nat.lt_of_le_of_lt hlen (by decide)⟩

theorem UsernameFields.uplinkLogrespHandler_eq {s server : Bytes}
    (h : acceptedServer env c s = some server) (f : UsernameFields) :
    f.uplinkLogrespHandler env (parseArgsNoshell s).1 = f.copy server := by
  unfold UsernameFields.uplinkLogrespHandler
  rw [(acceptedServer_spec h).1]

theorem UsernameFields.uplinkLogrespHandler_text {s server : Bytes}
    (h : acceptedServer env c s = some server) (f : UsernameFields) :
    (f.uplinkLogrespHandler env (parseArgsNoshell s).1).text = server := by
  obtain ⟨-, hnul, hlen⟩ := acceptedServer_spec h
  rw [UsernameFields.uplinkLogrespHandler_eq h, copy_text_eq f hnul hlen]

/-- The client is still there if the response is accepted, and has the name of the server. -/
theorem uplinkLogrespHandler_spec (s : Bytes) :
    Ensures (Live (· = c)) (uplinkLogrespHandler env s) fun _ r =>
      (r.alive = false ∧ acceptedServer env c s = none) ∨
      ∃ server, r.alive = true ∧ acceptedServer env c s = some server ∧
        r.obj.username = server ∧ r.obj.handlerLineIn = .incoming := by
  refine .use_bind ?_
  unfold acceptedServer
  cases uplinkServerName env (parseArgsNoshell s).1 with
  | none => exact destroy_live.bind fun _ => Ensures.pure fun r hr => .inl ⟨hr.2, ite_self none⟩
  | some server =>
    refine Ensures.modify_bind (J := fun d => d.username = server ∧ d.cert = c.cert)
      (fun d hd => ⟨rfl, congrArg Session.cert hd⟩) (.get_bind fun d hd => ?_)
    have hsame : certFails CertCheck.phase2 d = certFails CertCheck.phase2 c := by
      unfold certFails
      rw [hd.2]
    rw [hsame]
    refine .ite (fun hbad => ?_) fun hgood => ?_
    · refine destroy_live.bind fun _ => Ensures.pure fun r hr => .inl ⟨hr.2, ?_⟩
      exact if_pos hbad
    · refine Ensures.modify_bind (J := fun d => d.username = server ∧ d.handlerLineIn = .incoming)
        (fun d hd => ⟨hd.1, rfl⟩) (Ensures.pure fun r hr => .inr ⟨server, hr.alive, ?_, hr.obj⟩)
      exact if_neg hgood

/-- After a line the session still shares its name with the fields, if the client is still there. It
is, if a login response was accepted. -/
theorem handledLine_spec (udp : Bool) (s : Bytes) (writes : Nat → WriteOutcome)
    (h : SharesName c name) :
    ((handledLine env udp s writes c).alive = true →
      SharesName (handledLine env udp s writes c).obj (name.line env s c.handlerLineIn)) ∧
    (c.handlerLineIn = .uplinkLogresp →
      (handledLine env udp s writes c).alive = (acceptedServer env c s).isSome) := by
  have hline : Ensures (Live (· = c)) (handlerLineIn env udp s) fun _ r =>
      (r.alive = true → SharesName r.obj (name.line env s c.handlerLineIn)) ∧
      (c.handlerLineIn = .uplinkLogresp → r.alive = (acceptedServer env c s).isSome) := by
    refine .get_bind fun d hd => ?_
    subst hd
    cases hhandler : d.handlerLineIn with
    | login =>
      exact fun r hr => ⟨fun _ => loginHandler_sharesName s hhandler h r hr.obj, nofun⟩
    | incoming =>
      exact fun r hr => ⟨fun _ => incomingHandler_sharesName udp s hhandler h r hr.obj, nofun⟩
    | uplinkLogin =>
      exact fun r hr => ⟨fun _ => uplinkLoginHandler_sharesName s hhandler h r hr.obj, nofun⟩
    | uplinkLogresp =>
      intro r hr
      rcases uplinkLogrespHandler_spec s r hr with
        ⟨hgone, hnone⟩ | ⟨server, halive, hsome, husername, hincoming⟩
      · rw [hnone, hgone]
        exact ⟨nofun, fun _ => rfl⟩
      · rw [hsome, halive]
        refine ⟨fun _ => ⟨?_, fun hlogin => ?_⟩, fun _ => rfl⟩
        · rw [husername]
          exact (UsernameFields.uplinkLogrespHandler_text hsome name).symm
        · rw [hincoming] at hlogin
          cases hlogin
  exact hline _ ⟨⟨rfl, rfl⟩, rfl⟩

end

/-! ## New client structures -/

theorem SharesName.set {c c' : Session} {name : UsernameFields} (h : SharesName c name)
    (hhandler : c'.handlerLineIn = c.handlerLineIn) (hstate : c'.state = c.state)
    (husername : c'.username = c.username) : SharesName c' name := by
  refine ⟨husername.trans h.username, fun hlogin => ?_⟩
  rw [hstate]
  exact h.login (hhandler.symm.trans hlogin)

theorem resumeState_sharesName {state username : Bytes} {c c' : Session}
    (h : resumeState state username c = some c') (hname : c.username = []) :
    SharesName c' (UsernameFields.zero.acceptLiveupgradeSingle state username) := by
  unfold resumeState at h
  unfold UsernameFields.acceptLiveupgradeSingle
  by_cases hconnected : state = ascii "connected"
  · rw [if_pos hconnected] at h ⊢
    cases h
    have htext : (UsernameFields.zero.write username).text = (cString username).take 15 :=
      UsernameFields.copy_text username UsernameFields.zero
    refine ⟨?_, nofun⟩
    rw [htext]
    exact List.take_takeWhile.symm
  · rw [if_neg hconnected] at h ⊢
    split at h
    next =>
      cases h
      exact ⟨hname, fun _ => nofun⟩
    next => cases h

theorem SharesName.resumeFilters {c : Session} {name : UsernameFields} (h : SharesName c name)
    (env : HandlerEnv) (filter : Bytes) : SharesName (resumeFilters env filter c) name := by
  obtain ⟨neg, pos, s, hfilters⟩ := exists_resumeFilters env filter c
  rw [hfilters]
  exact h.set rfl rfl rfl

theorem SharesName.resumeFeed {c : LoginClient} {name : UsernameFields}
    (h : SharesName c.session name) (j : CJson) (udpPort : Option JsonItem) :
    SharesName (resumeFeed j udpPort c).session name := by
  unfold Aprsc.resumeFeed
  split
  next => exact h
  next =>
    split
    next => exact h.set rfl rfl rfl
    next => exact h

/-- What a live upgrade makes of the session of a new client. -/
theorem resumeLogin_sharesName {env : UpgradeEnv} {i : ClientItems} {c login : LoginClient}
    (h : resumeLogin env i c = some login) (hname : c.session.username = []) :
    SharesName login.session (UsernameFields.zero.acceptLiveupgradeSingle i.state i.username) := by
  obtain ⟨session, hsession, hlogin⟩ := Option.bind_eq_some_iff.mp h
  have hstate := resumeState_sharesName hsession hname
  cases hlogin
  refine SharesName.resumeFeed (SharesName.resumeFilters ?_ _ _) _ _
  exact hstate.set rfl rfl rfl

theorem upgradeNewClient_username {env : UpgradeEnv} {i : ClientItems} {c : LiveClient}
    (h : upgradeNewClient env i = some c) : c.session.username = [] := by
  dsimp only [upgradeNewClient] at h
  split at h
  next => cases h
  next =>
    obtain ⟨addrRem, -, h⟩ := Option.bind_eq_some_iff.mp h
    obtain ⟨l, -, h⟩ := Option.bind_eq_some_iff.mp h
    obtain ⟨bufs, -, h⟩ := Option.bind_eq_some_iff.mp h
    cases h
    rfl

theorem resumeClient_sharesName {env : UpgradeEnv} {i : ClientItems} {c : LiveClient}
    (h : resumeClient env i = some c) :
    SharesName c.session (UsernameFields.zero.acceptLiveupgradeSingle i.state i.username) := by
  obtain ⟨new, hnew, h⟩ := Option.bind_eq_some_iff.mp h
  obtain ⟨login, hlogin, h⟩ := Option.bind_eq_some_iff.mp h
  split at h
  next =>
    cases h
    exact resumeLogin_sharesName hlogin (upgradeNewClient_username hnew)
  next => cases h

/-! ## Runs -/

/-- The session and the fields of a connection share the name. -/
def SharedName : Option ClientStruct → Prop
  | some (.connection c name) => SharesName c name
  | some (.pseudo _) => True
  | none => True

/-- The username has a NUL and `username_len` is its length. -/
def ExactName : Option ClientStruct → Prop
  | some c => c.name.Exact
  | none => True

instance : (s : Option ClientStruct) → Decidable (ExactName s)
  | some c => inferInstanceAs (Decidable c.name.Exact)
  | none => inferInstanceAs (Decidable True)

/-- If a login response of an uplink is accepted, the name of the server is as long as the
username that the client has. -/
def ServerNameFits : Option ClientStruct → UsernameEvent → Prop
  | some (.connection c name), .line env _ s _ check =>
      c.handlerLineIn = .uplinkLogresp → ∀ server,
        acceptedServer env (c.checked check) s = some server → server.length = strlen name.username
  | _, _ => True

theorem UsernameFields.acceptLiveupgradeSingle_exact (state username : Bytes) :
    (UsernameFields.zero.acceptLiveupgradeSingle state username).Exact := by
  unfold UsernameFields.acceptLiveupgradeSingle
  split
  next => exact write_exact username zero
  next => exact zero_exact

theorem ClientOrigin.named (o : ClientOrigin) : SharedName o.client ∧ ExactName o.client := by
  cases o with
  | accept a cert =>
    refine ⟨⟨rfl, fun _ => ?_⟩, UsernameFields.zero_exact⟩
    exact fun h => by cases h
  | upgrade env client =>
    have hclient : (ClientOrigin.upgrade env client).client = (do
        let i ← clientItems client
        let c ← resumeClient env i
        some (.connection c.session
          (UsernameFields.zero.acceptLiveupgradeSingle i.state i.username))) := rfl
    rw [hclient]
    cases clientItems client with
    | none => exact ⟨trivial, trivial⟩
    | some i =>
      rw [Option.bind_eq_bind, Option.bind_some]
      cases hresume : resumeClient env i with
      | none => exact ⟨trivial, trivial⟩
      | some c =>
        exact ⟨resumeClient_sharesName hresume,
          UsernameFields.acceptLiveupgradeSingle_exact i.state i.username⟩
  | uplink name clientFlags cert =>
    exact ⟨⟨rfl, nofun⟩, UsernameFields.write_exact name UsernameFields.zero⟩
  | corepeer serverid remotePort =>
    exact ⟨⟨rfl, nofun⟩, UsernameFields.write_exact serverid UsernameFields.zero⟩
  | pseudo => exact ⟨trivial, UsernameFields.zero_exact⟩

/-- A line other than a login response keeps an exact name exact. -/
theorem UsernameFields.Exact.line_exact {env : HandlerEnv} {s : Bytes} {handler : HandlerKind}
    {f : UsernameFields} (h : f.Exact) (hhandler : handler ≠ .uplinkLogresp) :
    (f.line env s handler).Exact := by
  cases handler with
  | login =>
    change (f.loginHandler (parseArgsNoshell s).1).Exact
    unfold UsernameFields.loginHandler
    cases loginUsername (parseArgsNoshell s).1 with
    | none => exact h
    | some username => exact write_exact username f
  | incoming => exact h
  | uplinkLogin => exact h
  | uplinkLogresp => exact absurd rfl hhandler

/-- A login response that is accepted copies the name of the server. -/
theorem UsernameFields.line_logresp {env : HandlerEnv} {c : Session} {s server : Bytes}
    {f : UsernameFields} (hserver : acceptedServer env c s = some server) (h : f.Exact) :
    (f.line env s .uplinkLogresp).Exact ↔ server.length = strlen f.username := by
  obtain ⟨-, hnul, hlen⟩ := acceptedServer_spec hserver
  change (f.uplinkLogrespHandler env (parseArgsNoshell s).1).Exact ↔ _
  rw [UsernameFields.uplinkLogrespHandler_eq hserver]
  exact copy_exact_iff h hnul hlen

theorem usernameStep_line (env : HandlerEnv) (udp : Bool) (s : Bytes) (writes : Nat → WriteOutcome)
    (check : CertCheck) (c : Session) (name : UsernameFields) :
    usernameStep (some (.connection c name)) (.line env udp s writes check) =
      if (handledLine env udp s writes (c.checked check)).alive then
        some (.connection (handledLine env udp s writes (c.checked check)).obj
          (name.line env s c.handlerLineIn))
      else none := rfl

theorem usernameStep_shared (s : Option ClientStruct) (e : UsernameEvent) (h : SharedName s) :
    SharedName (usernameStep s e) := by
  cases s with
  | none => trivial
  | some c =>
    cases c with
    | pseudo name => cases e <;> trivial
    | connection c name =>
      cases e with
      | packet username => exact h
      | free => trivial
      | line env udp s writes check =>
        have hname : SharesName c name := h
        rw [usernameStep_line]
        split
        next halive => exact (handledLine_spec udp s writes (hname.checked check)).1 halive
        next => trivial

/-- Only an accepted login response can make the length wrong. -/
theorem usernameStep_exact_iff (s : Option ClientStruct) (e : UsernameEvent) (h : SharedName s)
    (hexact : ExactName s) : ExactName (usernameStep s e) ↔ ServerNameFits s e := by
  cases s with
  | none => exact iff_of_true trivial trivial
  | some c =>
    cases c with
    | pseudo name =>
      cases e with
      | line env udp s writes check => exact iff_of_true hexact trivial
      | packet username => exact iff_of_true (UsernameFields.clear_exact _) trivial
      | free => exact iff_of_true trivial trivial
    | connection c name =>
      cases e with
      | packet username => exact iff_of_true hexact trivial
      | free => exact iff_of_true trivial trivial
      | line env udp s writes check =>
        have hname : SharesName c name := h
        have hfields : name.Exact := hexact
        have halive := (@handledLine_spec env _ name udp s writes (hname.checked check)).2
        rw [usernameStep_line]
        change ExactName _ ↔ (c.handlerLineIn = .uplinkLogresp → _)
        by_cases hlogresp : c.handlerLineIn = .uplinkLogresp
        · rw [halive hlogresp, hlogresp]
          cases hserver : acceptedServer env (c.checked check) s with
          | none =>
            refine iff_of_true trivial fun _ server hsome => ?_
            cases hsome
          | some server =>
            rw [if_pos Option.isSome_some]
            change (name.line env s .uplinkLogresp).Exact ↔ _
            rw [UsernameFields.line_logresp hserver hfields]
            constructor
            · rintro hlen _ server' hsome
              cases hsome
              exact hlen
            · intro hlen
              exact hlen rfl server rfl
        · refine iff_of_true ?_ fun hlogin => absurd hlogin hlogresp
          split
          next => exact hfields.line_exact hlogresp
          next => trivial

/-- The username of a client structure has a NUL and the length that is stored, in every state of a
run, if and only if each server that an uplink logs in to has a name of the length of the name that
the uplink had. -/
theorem username_len_exact_iff (o : ClientOrigin) (es : List UsernameEvent) :
    Always usernameStep ExactName o.client es ↔ Meets usernameStep ServerNameFits o.client es :=
  always_iff_meets usernameStep_shared usernameStep_exact_iff o.named.1 o.named.2 es

private def uplinkEnv : HandlerEnv where
  serverid := ascii "TESTING"
  passcode := ascii "31421"
  verstrAprsis := ascii "aprsc 2"
  quirksMode := false
  disallowLogin _ := false
  incomingParse _ _ := .done 0
  incomingEdits _ line := line
  filterParse neg pos arg := ((neg, pos ++ [arg]), 0)
  parseArgs s := [s]
  sslStrerror _ := []
  x509Error := []
  msgid := ascii "1"

private def uplinkLine (s : String) : UsernameEvent :=
  .line uplinkEnv false (ascii s) (fun _ => .sent) ⟨0, 0⟩

/-- An uplink with a name of 10 characters logs in to a server with one of 9. -/
theorem uplink_keeps_old_length :
    ¬Always usernameStep ExactName
      (ClientOrigin.uplink (ascii "CoreRotate") clflagsUplinkport none).client
      [uplinkLine "# aprsc 2.1.19-g730c5c0",
        uplinkLine "# logresp TESTING verified, server T2FINLAND"] :=
  fun h => absurd h.last (by decide)

end Aprsc
