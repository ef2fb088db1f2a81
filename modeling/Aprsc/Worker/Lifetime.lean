-- SUMMARY: What each line handler leaves of its client: it keeps it, closes it, or loses it in a reply.
import Aprsc.Worker.Handlers

/-!
# What handlers leave of their client

A handler returns a negative value when the client is gone, and its callers must not
touch the client then. One lemma for each handler says when this holds, and when a
negative value is returned although the client is still there.
-/

namespace Aprsc

open ResM

/-! ## Replies -/

section

variable {I : Session → Prop} {A : Prop} {B K : List WriteOutcome → Prop} {rc : Int}
  {r : Resource Session WriteOutcome}

/-- A reply was written. The client is there, and a negative value means that a write
could not be made, or `A`. Or the client is gone. -/
def Replied (I : Session → Prop) (A : Prop) (rc : Int) (r : Resource Session WriteOutcome) : Prop :=
  Clean I r ∧ (r.alive = true ∧ -1 ≤ rc ∧ (rc < 0 → .again ∈ r.made ∨ A) ∨
    r.alive = false ∧ rc < -2 ∧ ∃ o ∈ r.made, o.lost = true)

/-- What a handler leaves behind, with conditions on the outcomes of its writes. The client
is there and was used well, and a negative value is only returned if `B`. Or the client is
gone; then it was used well and a negative value is returned, if `K`. -/
def Answered (B K : List WriteOutcome → Prop) (rc : Int) (r : Resource Session WriteOutcome) :
    Prop :=
  r.alive = true ∧ r.misused = false ∧ (rc < 0 → B r.made) ∨
    r.alive = false ∧ (K r.made → r.misused = false ∧ rc < 0)

theorem Replied.imp {A' : Prop} {J : Session → Prop} (h : Replied I A rc r) (hI : ∀ c, I c → J c)
    (hA : A → A') : Replied J A' rc r :=
  ⟨h.1.imp hI, h.2.imp (fun h => ⟨h.1, h.2.1, fun hneg => (h.2.2 hneg).imp_right hA⟩) fun h => h⟩

theorem Replied.answered (h : Replied I A rc r) (hB : .again ∈ r.made ∨ A → B r.made) :
    Answered B K rc r := by
  cases h.2 with
  | inl halive => exact .inl ⟨halive.1, h.1.fine, fun hneg => hB (halive.2.2 hneg)⟩
  | inr hdead =>
    have := hdead.2.1
    exact .inr ⟨hdead.1, fun _ => ⟨h.1.fine, by omega⟩⟩

/-- The client is there after a reply that was not lost. -/
theorem Replied.live (h : Replied I A rc r) (hrc : ¬ rc < -2) : Live I r := by
  cases h.2 with
  | inl halive => exact ⟨h.1, halive.1⟩
  | inr hdead => exact absurd hdead.2.1 hrc

/-- After a lost reply nothing but to return is left to do. -/
theorem Replied.lost_answered (h : Replied I A rc r) (hrc : rc < -2) : Answered B K rc r := by
  cases h.2 with
  | inl halive => omega
  | inr hdead => exact .inr ⟨hdead.1, fun _ => ⟨h.1.fine, by omega⟩⟩

/-- The handler returns 0 with the client in place. -/
theorem Answered.zero (h : Live I r) : Answered B K 0 r :=
  .inl ⟨h.alive, h.fine, fun hneg => absurd hneg (by decide)⟩

theorem WriteOutcome.rc_cases (len : Nat) (o : WriteOutcome) :
    o.lost = false ∧ -1 ≤ o.rc len ∧ (o.rc len < 0 → o = .again) ∨
      o.lost = true ∧ o.rc len < -2 := by
  cases o with
  | sent => exact .inl ⟨rfl, by simp only [WriteOutcome.rc]; omega,
      by simp only [WriteOutcome.rc]; omega⟩
  | again => exact .inl ⟨rfl, Int.le_refl (-1), fun _ => rfl⟩
  | epipe => exact .inr ⟨rfl, show (-9 : Int) < -2 by decide⟩
  | failed => exact .inr ⟨rfl, show (-11 : Int) < -2 by decide⟩
  | full => exact .inr ⟨rfl, show (-12 : Int) < -2 by decide⟩
  | tlsFailed => exact .inr ⟨rfl, show (-13 : Int) < -2 by decide⟩

theorem clientWrite_replied (p : Bytes) :
    Ensures (Live I) (clientWrite p) (Replied I False) := by
  refine (call_live WriteOutcome.lost).bind fun o => Ensures.pure fun r hr => ?_
  obtain ⟨ho, hclean, halive⟩ := hr
  refine ⟨hclean, ?_⟩
  rw [halive]
  cases o.rc_cases p.length with
  | inl h => exact .inl ⟨by simp [h.1], h.2.1, fun hneg => .inl (h.2.2 hneg ▸ ho)⟩
  | inr h => exact .inr ⟨by simp [h.1], h.2, o, ho, h.1⟩

/-- A text that may be too long for `client_printf`. -/
theorem clientPrintf_replied (text : Bytes) :
    Ensures (Live I) (clientPrintf text) (Replied I (packetlenMax ≤ text.length)) := by
  refine .use_bind (.ite (fun hlong => ?_) fun _ => ?_)
  · exact Ensures.pure fun r hr => ⟨hr.toClean, .inl ⟨hr.alive, by decide, fun _ => .inr hlong⟩⟩
  · exact (clientWrite_replied text).mono (fun _ h => h)
      fun rc r h => h.imp (fun _ h => h) False.elim

theorem clientPrintf_short {text : Bytes} (hshort : text.length < packetlenMax) :
    Ensures (Live I) (clientPrintf text) (Replied I False) :=
  (clientPrintf_replied text).mono (fun _ h => h)
    fun _ _ h => h.imp (fun _ h => h) fun hlong => by omega

theorem clientPrintf_any (text : Bytes) :
    Ensures (Live I) (clientPrintf text) (Replied I True) :=
  (clientPrintf_replied text).mono (fun _ h => h)
    fun _ _ h => h.imp (fun _ h => h) fun _ => trivial

/-! ## Filter commands and messages -/

theorem messagingMessageClient_replied (env : HandlerEnv) (text : Bytes) :
    Ensures (Live I) (messagingMessageClient env text) (Replied I True) :=
  .get_bind fun _ _ => clientPrintf_any _

theorem filterCommandReply_replied (env : HandlerEnv) (inMessage : Bool) {text : Bytes}
    (hshort : text.length < 500) :
    Ensures (Live I) (filterCommandReply env inMessage text)
      (Replied (fun _ => True) (inMessage = true)) := by
  cases inMessage with
  | false =>
    refine (clientPrintf_short ?_).mono (fun _ h => h)
      fun rc r h => h.imp (fun _ _ => trivial) False.elim
    have h2 : (ascii "# ").length = 2 := rfl
    simp only [List.length_append, List.length_take, h2, crlf, List.length_cons, List.length_nil,
      packetlenMax]
    omega
  | true =>
    exact (messagingMessageClient_replied env text).mono (fun _ h => h)
      fun rc r h => h.imp (fun _ _ => trivial) fun _ => rfl

/-- `filter_parse` does not touch the text for the status page. -/
@[simp] theorem filterParses_filterS (env : HandlerEnv) (args : List Bytes) (c : Session) :
    (args.foldl (fun c arg => c.filterParse env arg) c).filterS = c.filterS := by
  induction args generalizing c with
  | nil => rfl
  | cons arg args ih => exact ih (c.filterParse env arg)

/-- The text for the status page is cut to the size of its buffer. -/
theorem newFilters_filterS (env : HandlerEnv) (s : Bytes) (c : Session) :
    (newFilters env s c).filterS.length < filterSSize := by
  simp only [newFilters, filterParses_filterS, sanitizeAsciiString, List.length_map, List.length_take,
    filterSSize]
  omega

theorem filterCommands_replied (env : HandlerEnv) (inMessage : Bool) (s : Bytes) :
    Ensures (Live I) (filterCommands env inMessage s)
      (Replied (fun _ => True) (inMessage = true)) := by
  refine .get_bind fun c hc => .ite (fun _ => ?_) fun _ => .ite (fun _ => ?_) fun _ =>
    .ite (fun _ => ?_) fun _ => ?_
  · exact (clientWrite_replied _).mono (fun _ h => h)
      fun rc r h => h.imp (fun _ _ => trivial) False.elim
  · exact filterCommandReply_replied env inMessage (by decide)
  · exact Ensures.modify_bind (J := fun _ => True) (fun _ _ => trivial)
      (filterCommandReply_replied env inMessage (by decide))
  · have hcut : ∀ c, I c → (newFilters env ((s.drop 6).drop 1) c).filterS.length < filterSSize :=
      fun c _ => newFilters_filterS env _ c
    refine Ensures.modify_bind (J := fun c => c.filterS.length < filterSSize) hcut
      (.get_bind fun c hc => filterCommandReply_replied env inMessage ?_)
    have h1 : (ascii "filter ").length = 7 := rfl
    have h2 : (ascii " active").length = 7 := rfl
    simp only [List.length_append, h1, h2]
    unfold filterSSize at hc
    omega

theorem ackMessage_replied (env : HandlerEnv) (srcname : Bytes) (msgid : Option Bytes) :
    Ensures (Live I) (ackMessage env srcname msgid) (Replied I True) := by
  cases msgid with
  | none => exact Ensures.pure fun r hr => ⟨hr.toClean, .inl ⟨hr.alive, by decide, fun _ => .inr trivial⟩⟩
  | some msgid => exact clientPrintf_any _

theorem incomingServerMessage_replied (env : HandlerEnv) (srcname : Bytes)
    (message : Option AprsMessage) :
    Ensures (Live I) (incomingServerMessage env srcname message)
      (Replied (fun _ => True) True) := by
  have hnothing : Ensures (Live I) (pure 0 : ClientM Int) (Replied (fun _ => True) True) :=
    Ensures.pure fun r hr => ⟨⟨hr.fine, trivial⟩, .inl ⟨hr.alive, by decide, fun _ => .inr trivial⟩⟩
  cases message with
  | none => exact hnothing
  | some am =>
    refine .ite (fun _ => hnothing) fun _ => ?_
    refine (ackMessage_replied env srcname am.msgid).bind fun e => ?_
    refine .ite (fun _ => Ensures.pure fun _ h => h.imp (fun _ _ => trivial) fun h => h) fun hneg => ?_
    have hlive : ∀ r, Replied I True e r → Live I r := fun r h => h.live (by omega)
    have hany : ∀ rc r, Replied I True rc r → Replied (fun _ => True) True rc r :=
      fun _ _ h => h.imp (fun _ _ => trivial) fun h => h
    refine .ite (fun _ => ?_) fun _ => .ite (fun _ => ?_) fun _ => ?_
    · exact Ensures.mono (.get_bind fun c _ => messagingMessageClient_replied env _) hlive hany
    · exact (filterCommands_replied env true am.body).mono hlive
        fun _ _ h => h.imp (fun _ h => h) fun _ => trivial
    · exact (messagingMessageClient_replied env _).mono hlive hany

/-! ## Packets -/

theorem accountPacket_answered : Ensures (Live I) accountPacket (Answered B K) :=
  .use_bind (Ensures.pure fun _ hr => .zero hr)

/-- The line is a filter command of a client that may use them. -/
def isFilterCommand (udp : Bool) (c : Session) (s : Bytes) : Bool :=
  s.length ≤ packetlenMax - 2 && s.head? == some (ch '#') && !udp &&
    c.has clflagsUserfilterok && (memcasestr (ascii "filter") s).isSome

/-- The line is a message to `SERVER`. -/
def isServerMessage (env : HandlerEnv) (c : Session) (s : Bytes) : Bool :=
  s.length ≤ packetlenMax - 2 && s.head? != some (ch '#') &&
    match env.incomingParse c s with
    | .toServer _ _ => true
    | .done _ => false

/-- No reply closed the client. -/
def NoneLost (outs : List WriteOutcome) : Prop := ∀ o ∈ outs, o.lost = false

instance (outs : List WriteOutcome) : Decidable (NoneLost outs) :=
  inferInstanceAs (Decidable (∀ o ∈ outs, o.lost = false))

theorem incomingHandler_answered (env : HandlerEnv) (udp : Bool) (c₀ : Session) (s : Bytes) :
    Ensures (Live (· = c₀)) (incomingHandler env udp s)
      (Answered (fun outs => isFilterCommand udp c₀ s = true ∧ .again ∈ outs)
        (fun outs => isServerMessage env c₀ s = true → NoneLost outs)) := by
  refine .ite (fun _ => accountPacket_answered) fun hlen => .ite (fun hhash => ?_) fun hhash => ?_
  · refine .get_bind fun c hc => ?_
    subst hc
    split
    next off hoff =>
      refine (filterCommands_replied env false _).mono (fun _ h => h) fun rc r h => ?_
      apply h.answered
      intro hagain
      refine ⟨?_, hagain.resolve_right (by decide)⟩
      split at hoff
      next hok =>
        simp only [isFilterCommand, hoff, hhash, Option.isSome_some, Bool.and_true,
          beq_self_eq_true, decide_eq_true_eq, Bool.and_eq_true]
        simp only [Bool.and_eq_true] at hok
        exact ⟨⟨by omega, hok.1⟩, hok.2⟩
      next => cases hoff
    next => exact Ensures.pure fun _ hr => .zero hr
  · refine .get_bind fun c hc => ?_
    subst hc
    cases hparse : env.incomingParse c s with
    | done rc => exact accountPacket_answered
    | toServer srcname message =>
      refine (incomingServerMessage_replied env srcname message).bind fun e r h => ?_
      cases h.2 with
      | inl halive => exact accountPacket_answered r ⟨h.1, halive.1⟩
      | inr hdead =>
        -- the packet is accounted for although the client is gone
        obtain ⟨hdead, -, o, ho, hlost⟩ := hdead
        have hmsg : isServerMessage env c s = true := by
          simp only [isServerMessage, hparse, Bool.and_true, Bool.and_eq_true, decide_eq_true_eq,
            bne_iff_ne]
          exact ⟨by omega, hhash⟩
        refine .inr ⟨hdead, fun hnone => ?_⟩
        have := hnone hmsg o ho
        rw [hlost] at this
        cases this

/-! ## Logins -/

/-- The client has had `n` failed commands, and its certificate is checked as given. -/
def Failures (n : Nat) (cert : Option CertCheck) (c : Session) : Prop :=
  c.failedCmds = n ∧ c.cert = cert

/-- `failed_login` counts the failure and closes the client at the third. -/
theorem failedLogin_run (hrc : ¬ rc < -2) (r : Resource Session WriteOutcome) :
    (failedLogin rc r).2.made = r.made ∧
      (failedLogin rc r).2.misused = (r.misused || !r.alive) ∧
      if r.obj.failedCmds + 1 ≥ 3 then
        (failedLogin rc r).1 = -3 ∧ (failedLogin rc r).2.alive = false
      else (failedLogin rc r).1 = rc ∧ (failedLogin rc r).2.alive = r.alive := by
  unfold failedLogin
  rw [if_neg hrc]
  simp only [Bind.bind, ResM.modify, ResM.get, clientClose, ResM.destroy]
  split
  next hmany => simp [Pure.pure, hmany]
  next hfew => simp [Pure.pure, hfew]

/-- `goto failed_login` after a reply. Fewer than three failed commands leave the client
in place. -/
theorem failedLogin_answered {n : Nat} {cert : Option CertCheck}
    (hB : n + 1 < 3 → ∀ outs, .again ∈ outs → B outs) :
    Ensures (Replied (Failures n cert) False rc) (failedLogin rc) (Answered B K) := by
  intro r h
  cases Int.lt_or_le rc (-2) with
  | inl hlost =>
    unfold failedLogin
    rw [if_pos hlost]
    exact h.lost_answered hlost
  | inr hrc =>
    have hlive := h.live (by omega)
    obtain ⟨hmade, hfine, hrun⟩ := failedLogin_run (by omega : ¬ rc < -2) r
    rw [hlive.fine, hlive.alive] at hfine
    rw [hlive.obj.1] at hrun
    split at hrun
    next hmany =>
      refine .inr ⟨hrun.2, fun _ => ⟨hfine, ?_⟩⟩
      rw [hrun.1]
      decide
    next hfew =>
      refine .inl ⟨hrun.2.trans hlive.alive, hfine, fun hneg => ?_⟩
      rw [hrun.1] at hneg
      rw [hmade]
      apply hB (by omega)
      cases h.2 with
      | inl halive => exact (halive.2.2 hneg).resolve_right id
      | inr hdead => exact absurd hdead.2.1 (by omega)

theorem rejectLogin_answered {n : Nat} {cert : Option CertCheck} {text : String}
    (hshort : (ascii text).length < 500) (hB : n + 1 < 3 → ∀ outs, .again ∈ outs → B outs) :
    Ensures (Live (Failures n cert)) (rejectLogin text) (Answered B K) := by
  refine (clientPrintf_short ?_).bind fun rc => failedLogin_answered hB
  simp only [List.length_append, crlf, List.length_cons, List.length_nil, packetlenMax]
  omega

/-- A good certificate leaves the client in place. After a bad one, the next failure closes
it, if the reply did not lose it. -/
theorem loginClientValidateCert_spec (env : HandlerEnv) {n : Nat} {cert : Option CertCheck}
    (check : CertCheck) :
    Ensures (Live (Failures n cert)) (loginClientValidateCert env check) fun v r =>
      if check.res = 0 then v = 1 ∧ Live (Failures n cert) r
      else v ≠ 1 ∧ (Live (Failures 10 cert) r ∨
        r.alive = false ∧ ∃ o ∈ r.made, o.lost = true) := by
  refine .ite (fun hgood => ?_) fun hbad => ?_
  · refine Ensures.modify_bind (J := Failures n cert) (fun c hc => hc) (Ensures.pure fun r hr => ?_)
    rw [if_pos hgood]
    exact ⟨rfl, hr⟩
  · refine (clientPrintf_any _).bind fun rc r h => ?_
    rw [if_neg hbad]
    have hrc : ∀ r' : Resource Session WriteOutcome,
        ((if rc < 0 then Pure.pure rc else Pure.pure 0 : ClientM Int) r').1 ≠ 1 ∧
        ((if rc < 0 then Pure.pure rc else Pure.pure 0 : ClientM Int) r').2 = r' := by
      intro r'
      split
      next hneg => exact ⟨by simp only [Pure.pure]; omega, rfl⟩
      next => exact ⟨by simp only [Pure.pure]; decide, rfl⟩
    simp only [Bind.bind, hrc]
    refine ⟨(hrc _).1, ?_⟩
    cases h.2 with
    | inl halive =>
      refine .inl (modify_live (J := Failures 10 cert) (fun c hc => ⟨rfl, hc.2⟩) r ⟨h.1, halive.1⟩)
    | inr hdead => exact .inr ⟨hdead.1, hdead.2.2⟩

/-- The client is closed after a bad certificate. -/
theorem failedLogin_cert {cert : Option CertCheck} {e : Int} (he : ¬ e < -2)
    (hK : ∀ outs, K outs → NoneLost outs) :
    Ensures (fun r => Live (Failures 10 cert) r ∨ r.alive = false ∧ ∃ o ∈ r.made, o.lost = true)
      (failedLogin e) (Answered B K) := by
  intro r h
  obtain ⟨hmade, hfine, hrun⟩ := failedLogin_run he r
  cases h with
  | inl hlive =>
    rw [hlive.fine, hlive.alive] at hfine
    rw [hlive.obj.1, if_pos (by decide)] at hrun
    refine .inr ⟨hrun.2, fun _ => ⟨hfine, ?_⟩⟩
    rw [hrun.1]
    decide
  | inr hdead =>
    obtain ⟨hdead, o, ho, hlost⟩ := hdead
    have hgone : (failedLogin e r).2.alive = false := by
      split at hrun
      next => exact hrun.2
      next => exact hrun.2.trans hdead
    refine .inr ⟨hgone, fun hk => ?_⟩
    rw [hmade] at hk
    have := hK _ hk o ho
    rw [hlost] at this
    cases this

/-! ### Options -/

/-- An application that is let off with a name that is not separated from its version. -/
def appQuirks (env : HandlerEnv) (app : Bytes) : Bool :=
  env.quirksMode || quirksModeBlacklist.any (·.isPrefixOf (sanitizeAsciiString (app.take 31)))

/-- The options of a login come to an application without a version. -/
def appUnversioned (env : HandlerEnv) : List Bytes → Bool
  | [] => false
  | arg :: args =>
      if caseEq arg (ascii "pass") then
        match args with
        | [] => false
        | _ :: args => appUnversioned env args
      else if caseEq arg (ascii "vers") then
        match args with
        | [] => false
        | [app] => !appQuirks env app
        | app :: ver :: args =>
            if caseEq ver (ascii "filter") && !appQuirks env app then true
            else appUnversioned env args
      else if caseEq arg (ascii "udp") then
        match args with
        | [] => false
        | port :: args =>
            if atoi port < 1024 ∨ atoi port > 65535 then false else appUnversioned env args
      else if hasCase (ascii "filter") arg then false
      else appUnversioned env args

/-- What the loop over the options leaves behind. -/
def OptionsRead (J : Session → Prop) (unversioned : Bool) (e : LoginEnd)
    (r : Resource Session WriteOutcome) : Prop :=
  match e with
  | .done _ => Live J r
  | .failed rc => unversioned = true ∧ Replied J False rc r
  | .lost rc => r.alive = false ∧ r.misused = false ∧ rc < 0

/-- The client is told something, and the login goes on if it is still there. -/
theorem OptionsRead.told {J : Session → Prop} {u : Bool} (text : Bytes) {next : ClientM LoginEnd}
    (hnext : Ensures (Live J) next (OptionsRead J u)) :
    Ensures (Live J)
      (clientPrintf text >>= fun rc => if rc < -2 then pure (.lost rc) else next)
      (OptionsRead J u) := by
  refine (clientPrintf_any text).bind fun rc => .ite (fun hlost => ?_) fun hrc => ?_
  · refine Ensures.pure fun r h => ?_
    cases h.2 with
    | inl halive => omega
    | inr hdead => exact ⟨hdead.1, h.1.fine, by omega⟩
  · exact hnext.mono (fun r h => h.live hrc) fun _ _ h => h

theorem loginFilters_read (env : HandlerEnv) {n : Nat} {cert : Option CertCheck} {u : Bool}
    (pass : Option Bytes) (args : List Bytes) :
    Ensures (Live (Failures n cert)) (loginFilters env pass args)
      (OptionsRead (Failures n cert) u) := by
  induction args with
  | nil => exact Ensures.pure fun r hr => hr
  | cons arg args ih =>
    refine .get_bind fun c _ => Ensures.modify_bind (J := Failures n cert) (fun c hc => hc) ?_
    exact .ite (fun _ => .told _ ih) fun _ => ih

/-- The reply to an application without a version. -/
theorem unversioned_read {n : Nat} {cert : Option CertCheck} {u : Bool} (hu : u = true) :
    Ensures (Live (Failures n cert)) (clientPrintf (ascii
        "# Invalid login: software name and version are not separated by a space" ++ crlf) >>=
          fun rc => pure (.failed rc))
      (OptionsRead (Failures n cert) u) :=
  (clientPrintf_short (by decide)).bind fun _ => Ensures.pure fun _ h => ⟨hu, h⟩

/-- The name of the application is set, and decides whether it is let off. -/
theorem loginSetAppName_bind (env : HandlerEnv) {n : Nat} {cert : Option CertCheck}
    (app ver : Bytes) {f : Session → ClientM LoginEnd}
    {Q : LoginEnd → Resource Session WriteOutcome → Prop}
    (hf : ∀ c, c.quirksMode = appQuirks env app → Ensures (Live (Failures n cert)) (f c) Q) :
    Ensures (Live (Failures n cert))
      (ResM.modify (loginSetAppName env app ver) >>= fun _ => ResM.get >>= f) Q := by
  refine Ensures.modify_bind
    (J := fun c => Failures n cert c ∧ c.quirksMode = appQuirks env app)
    (fun c hc => ⟨hc, rfl⟩) (.get_bind fun c hc => ?_)
  exact (hf c hc.2).mono (fun r hr => ⟨hr.toClean.imp fun _ h => h.1, hr.alive⟩) fun _ _ h => h

theorem loginOptions_read (env : HandlerEnv) {n : Nat} {cert : Option CertCheck}
    (pass : Option Bytes) (args : List Bytes) :
    Ensures (Live (Failures n cert)) (loginOptions env pass args)
      (OptionsRead (Failures n cert) (appUnversioned env args)) := by
  -- the cases follow the loop: the options that are known, in their order
  fun_induction appUnversioned env args generalizing pass with
  | case1 => exact Ensures.pure fun r hr => hr
  | case2 arg hpass =>
    unfold loginOptions
    rw [if_pos hpass]
    exact Ensures.pure fun r hr => hr
  | case3 arg hpass p args ih =>
    unfold loginOptions
    rw [if_pos hpass]
    exact ih (some p)
  | case4 arg hpass hvers =>
    unfold loginOptions
    rw [if_neg hpass, if_pos hvers]
    exact Ensures.pure fun r hr => hr
  | case5 arg hpass hvers app =>
    unfold loginOptions
    rw [if_neg hpass, if_pos hvers]
    refine loginSetAppName_bind env app [] fun c hc => ?_
    refine .ite (fun _ => Ensures.pure fun r hr => hr) fun hquirks => ?_
    rw [hc] at hquirks
    exact unversioned_read (by simpa using hquirks)
  | case6 arg hpass hvers app ver args hfilter =>
    unfold loginOptions
    rw [if_neg hpass, if_pos hvers]
    refine loginSetAppName_bind env app ver fun c hc => ?_
    rw [hc, if_pos hfilter]
    exact unversioned_read rfl
  | case7 arg hpass hvers app ver args hfilter ih =>
    unfold loginOptions
    rw [if_neg hpass, if_pos hvers]
    refine loginSetAppName_bind env app ver fun c hc => ?_
    rw [hc, if_neg hfilter]
    exact ih pass
  | case8 arg hpass hvers hudp =>
    unfold loginOptions
    rw [if_neg hpass, if_neg hvers, if_pos hudp]
    exact Ensures.pure fun r hr => hr
  | case9 arg hpass hvers hudp port args hport =>
    unfold loginOptions
    rw [if_neg hpass, if_neg hvers, if_pos hudp]
    simp only [if_pos hport]
    exact Ensures.pure fun r hr => hr
  | case10 arg hpass hvers hudp port args hport ih =>
    unfold loginOptions
    rw [if_neg hpass, if_neg hvers, if_pos hudp]
    simp only [if_neg hport]
    refine .get_bind fun c hc => .ite (fun _ => ?_) fun _ => .told _ (ih pass)
    exact Ensures.modify_bind (J := Failures n cert) (fun c hc => hc) (ih pass)
  | case11 arg args hpass hvers hudp hfilter =>
    unfold loginOptions
    rw [if_neg hpass, if_neg hvers, if_neg hudp, if_pos hfilter]
    refine .get_bind fun c hc => .ite (fun _ => ?_) fun _ => ?_
    · exact .told _ (Ensures.pure fun r hr => hr)
    · exact Ensures.modify_bind (J := Failures n cert) (fun c hc => hc)
        (loginFilters_read env pass args)
  | case12 arg args hpass hvers hudp hfilter ih =>
    unfold loginOptions
    rw [if_neg hpass, if_neg hvers, if_neg hudp, if_neg hfilter]
    exact ih pass

theorem loginSucceeded_answered (env : HandlerEnv) (sslValidated : Bool) (pass : Option Bytes) :
    Ensures (Live I) (loginSucceeded env sslValidated pass) (Answered B K) := by
  refine Ensures.modify_bind (J := fun _ => True) (fun _ _ => trivial) (.get_bind fun c _ => ?_)
  refine (clientPrintf_any _).bind fun rc => .ite (fun hlost => ?_) fun hrc => ?_
  · exact Ensures.pure fun r h => h.lost_answered hlost
  · refine Ensures.mono (Q := Answered B K) ?_ (fun r h => h.live hrc) fun _ _ h => h
    exact Ensures.modify_bind (J := fun _ => True) (fun _ _ => trivial)
      (Ensures.pure fun r hr => .zero hr)

theorem loginWithOptions_answered (env : HandlerEnv) (sslValidated : Bool) {n : Nat}
    {cert : Option CertCheck} (args : List Bytes)
    (hB : appUnversioned env args = true → n + 1 < 3 → ∀ outs, .again ∈ outs → B outs) :
    Ensures (Live (Failures n cert)) (loginWithOptions env sslValidated args) (Answered B K) := by
  refine (loginOptions_read env none args).bind fun e => ?_
  cases e with
  | failed rc => exact fun r h => failedLogin_answered (hB h.1) r h.2
  | lost rc => exact Ensures.pure fun r h => .inr ⟨h.1, fun _ => h.2⟩
  | done pass => exact loginSucceeded_answered env sslValidated pass

/-! ### Lines -/

/-- The user name of a login is not accepted. -/
def badUsername (env : HandlerEnv) (username : Bytes) : Bool :=
  username.length > callsignlenMax || disallowLoginUsernames.any (caseEq username ·) ||
    env.disallowLogin username || checkInvalidQCallsign username || caseEq username env.serverid

/-- The certificate of the client is checked for the arguments of a login, and is not good. -/
def loginCertFails (env : HandlerEnv) (c : Session) : List Bytes → Bool
  | cmd :: username :: _ =>
      cmd.head? != some (ch '#') && caseEq cmd (ascii "user") && !badUsername env username &&
        c.cert.any fun check => check.res != 0
  | _ => false

/-- A login is refused with a reply, and the client kept. -/
def loginRefused (env : HandlerEnv) (c : Session) : List Bytes → Bool
  | [] => false
  | [cmd] => cmd.head? != some (ch '#') && c.failedCmds + 1 < 3
  | cmd :: username :: args =>
      cmd.head? != some (ch '#') &&
        if !caseEq cmd (ascii "user") then !caseEq cmd (ascii "GET") && c.failedCmds + 2 < 3
        else (badUsername env username ||
          c.cert.all (·.res == 0) && appUnversioned env args) && c.failedCmds + 1 < 3

/-- A login that comes to the check of the certificate and to its options. -/
theorem loginUser_answered (env : HandlerEnv) {n : Nat} {cert : Option CertCheck}
    (args : List Bytes)
    (hB : cert.all (·.res == 0) = true → appUnversioned env args = true → n + 1 < 3 →
      ∀ outs, .again ∈ outs → B outs)
    (hK : cert.any (·.res != 0) = true → ∀ outs, K outs → NoneLost outs) :
    Ensures (Live (Failures n cert)) (do
        let c ← ResM.get
        match c.cert with
        | none => loginWithOptions env false args
        | some check => do
            let sslValidated ← loginClientValidateCert env check
            if sslValidated = -1 then failedLogin (-1)
            else if sslValidated ≠ 1 then failedLogin 0
            else loginWithOptions env true args) (Answered B K) := by
  refine .get_bind fun c hc => ?_
  rw [hc.2]
  cases cert with
  | none => exact loginWithOptions_answered env false args (hB rfl)
  | some check =>
    refine (loginClientValidateCert_spec env check).bind fun v => ?_
    split
    next hgood =>
      intro r h
      obtain ⟨rfl, hlive⟩ := h
      exact loginWithOptions_answered env true args (hB (by simp [hgood])) r hlive
    next hbad =>
      intro r h
      have hnone := hK (by simp [hbad])
      have hgone : ∀ e : Int, ¬ e < -2 → Answered B K (failedLogin e r).1 (failedLogin e r).2 :=
        fun e he => failedLogin_cert he hnone r h.2
      split
      next => exact hgone (-1) (by decide)
      next => 
        rw [if_pos h.1]
        exact hgone 0 (by decide)

theorem loginArgs_answered (env : HandlerEnv) (c₀ : Session) (argv : List Bytes) :
    Ensures (Live (· = c₀)) (loginArgs env argv)
      (Answered (fun outs => loginRefused env c₀ argv = true ∧ .again ∈ outs)
        (fun outs => loginCertFails env c₀ argv = true → NoneLost outs)) := by
  refine .use_bind ?_
  have hstart : ∀ r : Resource Session WriteOutcome, Live (· = c₀) r →
      Live (Failures c₀.failedCmds c₀.cert) r :=
    fun r h => ⟨h.toClean.imp fun c hc => hc ▸ ⟨rfl, rfl⟩, h.alive⟩
  cases argv with
  | nil => exact Ensures.pure fun r hr => .zero hr
  | cons cmd args =>
    refine .ite (fun _ => Ensures.pure fun r hr => .zero hr) fun hhash => ?_
    have hcmd : (cmd.head? != some (ch '#')) = true := by simpa using hhash
    cases args with
    | nil =>
      refine (rejectLogin_answered (by decide) fun hfew outs hagain => ⟨?_, hagain⟩).mono hstart
        fun _ _ h => h
      simp only [loginRefused, hcmd, Bool.true_and, decide_eq_true_eq]
      exact hfew
    | cons username args =>
      refine .ite (fun huser => ?_) fun huser => ?_
      · -- another command counts twice
        refine Ensures.modify_bind
          (J := Failures ((if caseEq cmd (ascii "GET") then 10 else c₀.failedCmds) + 1) c₀.cert)
          (fun c hc => hc ▸ ⟨rfl, rfl⟩) ?_
        refine rejectLogin_answered (by decide) fun hfew outs hagain => ⟨?_, hagain⟩
        simp only [loginRefused, hcmd, huser, if_true, Bool.true_and, Bool.and_eq_true,
          decide_eq_true_eq]
        split at hfew
        next => omega
        next hget => exact ⟨by simpa using hget, by omega⟩
      · have hrefused : c₀.failedCmds + 1 < 3 → (badUsername env username ||
            c₀.cert.all (·.res == 0) && appUnversioned env args) = true →
            loginRefused env c₀ (cmd :: username :: args) = true := by
          intro hfew hwhy
          simp only [loginRefused, hcmd, huser, hwhy, hfew, decide_true, Bool.and_self,
            Bool.false_eq_true, if_false]
        have hreject : ∀ text : String, (ascii text).length < 500 →
            badUsername env username = true →
            Ensures (Live (Failures c₀.failedCmds c₀.cert)) (rejectLogin text)
              (Answered
                (fun outs => loginRefused env c₀ (cmd :: username :: args) = true ∧ .again ∈ outs)
                (fun outs => loginCertFails env c₀ (cmd :: username :: args) = true →
                  NoneLost outs)) :=
          fun text hshort hbad => rejectLogin_answered hshort fun hfew outs hagain =>
            ⟨hrefused hfew (by simp [hbad]), hagain⟩
        refine .ite (fun hlong => ?_) fun hlong => ?_
        · exact (hreject _ (by decide) (by simp [badUsername, hlong])).mono hstart fun _ _ h => h
        refine Ensures.modify_bind (J := Failures c₀.failedCmds c₀.cert)
          (fun c hc => hc ▸ ⟨rfl, rfl⟩) ?_
        refine .ite (fun hpass => hreject _ (by decide) (by simp [badUsername, hpass]))
          fun hpass => .ite (fun hglob => hreject _ (by decide) (by simp [badUsername, hglob]))
          fun hglob => .ite (fun hinvalid => hreject _ (by decide) (by simp [badUsername, hinvalid]))
          fun hinvalid => .ite (fun hours => hreject _ (by decide) (by simp [badUsername, hours]))
          fun hours => ?_
        have hgood : badUsername env username = false := by
          simp only [badUsername, hpass, hglob, hinvalid, hours, decide_eq_false hlong, Bool.or_self]
        refine loginUser_answered env args (fun hcert hver hfew outs hagain => ?_)
          fun hcert outs hk => hk ?_
        · exact ⟨hrefused hfew (by simp [hcert, hver]), hagain⟩
        · simp only [loginCertFails, hcmd, hgood, hcert, Bool.true_and, Bool.not_false, Bool.and_true]
          simpa using huser

/-- `login_handler` keeps its client, or says that it is gone. It loses track of it when a
reply to a bad certificate is lost. -/
theorem loginHandler_answered (env : HandlerEnv) (c₀ : Session) (s : Bytes) :
    Ensures (Live (· = c₀)) (loginHandler env s)
      (Answered (fun outs => loginRefused env c₀ (parseArgsNoshell s).1 = true ∧ .again ∈ outs)
        (fun outs => loginCertFails env c₀ (parseArgsNoshell s).1 = true → NoneLost outs)) :=
  loginArgs_answered env c₀ (parseArgsNoshell s).1

/-! ## Uplinks -/

theorem closed_answered : Ensures (Live I) (clientClose >>= fun _ => pure 0)
    (Answered B fun _ => False) :=
  destroy_live.bind fun _ => Ensures.pure fun _ h => .inr ⟨h.2, False.elim⟩

theorem Answered.imp {B' K' : List WriteOutcome → Prop} (h : Answered B K rc r)
    (hB : ∀ outs, B outs → B' outs) (hK : ∀ outs, K' outs → K outs) : Answered B' K' rc r :=
  Or.imp (fun h => ⟨h.1, h.2.1, fun hneg => hB _ (h.2.2 hneg)⟩)
    (fun h => ⟨h.1, fun hk => h.2 (hK _ hk)⟩) h

/-- `uplink_login_handler` returns 0 when it closes its client. -/
theorem uplinkLoginHandler_answered (env : HandlerEnv) (c₀ : Session) (s : Bytes) :
    Ensures (Live (· = c₀)) (uplinkLoginHandler env s)
      (Answered (fun _ => False) fun _ =>
        certFails CertCheck.phase1 c₀ = false ∧ uplinkWelcomes (parseArgsNoshell s).1 = true) := by
  refine .get_bind fun c hc => ?_
  subst hc
  refine .ite (fun hbad => ?_) fun hgood => .ite (fun hbad => ?_) fun hwelcome => ?_
  · exact closed_answered.mono (fun _ h => h) fun _ _ h => h.imp (fun _ h => h) fun _ hk => by
      rw [hbad] at hk
      cases hk.1
  · exact closed_answered.mono (fun _ h => h) fun _ _ h => h.imp (fun _ h => h) fun _ hk => by
      rw [hk.2] at hbad
      cases hbad
  · refine Ensures.modify_bind (J := fun _ => True) (fun _ _ => trivial) ?_
    refine (clientWrite_replied _).bind fun rc => .ite (fun hlost => ?_) fun hrc => ?_
    · exact Ensures.pure fun r h => h.lost_answered hlost
    · refine Ensures.mono (Q := Answered _ _) ?_ (fun r h => h.live hrc) fun _ _ h => h
      exact Ensures.modify_bind (J := fun _ => True) (fun _ _ => trivial)
        (Ensures.pure fun r hr => .zero hr)

/-- `uplink_logresp_handler` returns 0 when it closes its client. -/
theorem uplinkLogrespHandler_answered (env : HandlerEnv) (c₀ : Session) (s : Bytes) :
    Ensures (Live (· = c₀)) (uplinkLogrespHandler env s)
      (Answered (fun _ => False) fun _ =>
        (uplinkServerName env (parseArgsNoshell s).1).isSome = true ∧
          certFails CertCheck.phase2 c₀ = false) := by
  refine .use_bind ?_
  cases uplinkServerName env (parseArgsNoshell s).1 with
  | none =>
    exact closed_answered.mono (fun _ h => h) fun _ _ h => h.imp (fun _ h => h) fun _ hk => by
      cases hk.1
  | some name =>
    refine Ensures.modify_bind (J := fun c => c.cert = c₀.cert) (fun c hc => hc ▸ rfl)
      (.get_bind fun c hc => ?_)
    refine .ite (fun hbad => ?_) fun hgood => ?_
    · refine closed_answered.mono (fun _ h => h) fun _ _ h => h.imp (fun _ h => h) fun _ hk => ?_
      have hsame : certFails CertCheck.phase2 c = certFails CertCheck.phase2 c₀ := by
        unfold certFails
        rw [hc]
      rw [hsame, hk.2] at hbad
      cases hbad
    · exact Ensures.modify_bind (J := fun _ => True) (fun _ _ => trivial)
        (Ensures.pure fun r hr => .zero hr)

end

end Aprsc
