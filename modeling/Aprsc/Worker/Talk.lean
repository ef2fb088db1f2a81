-- SUMMARY: Runs of a client: no use after it is destroyed, and no line handled twice, as far as its handlers keep to their contract.
import Aprsc.Worker.Lifetime
import Aprsc.Worker.Deframe

/-!
# Conversations with a client

The deframer hands the lines of a client to its handler, and the client is read again as
long as it is there. What each write will do is given by a script, line by line. The log
says for each line which handler had it, and what its writes did.

The handlers tell the deframer by their return value that the client is gone. Where they do
not, the client is used after it was destroyed; where they return a negative value for a
client that is still there, the line stays in the buffer and comes again.
-/

namespace Aprsc

open ResM Buffer

/-- A line that was handed to the handler of a client, with the client before, and what the
writes of the handler did. -/
structure Delivery where
  client : Session
  line : Bytes
  outs : List WriteOutcome
deriving Repr, DecidableEq

/-- A client, what the writes for each of the lines to come will do, and the lines handled so
far. -/
structure Talk where
  client : Resource Session WriteOutcome
  script : Nat → Nat → WriteOutcome
  log : List Delivery

/-- A client that has connected. -/
def Talk.init (c : Session) (script : Nat → Nat → WriteOutcome) : Talk :=
  ⟨⟨c, true, false, script 0, []⟩, script, []⟩

/-- The client is there, and was used well. -/
def Talk.ok (t : Talk) : Bool := t.client.alive && !t.client.misused

/-- The client was destroyed, and was used well. -/
def Talk.closed (t : Talk) : Bool := !t.client.alive && !t.client.misused

/-- A field of the client is read or written. -/
def Talk.use (t : Talk) : Talk := { t with client := (ResM.use t.client).2 }

/-- `c->handler_line_in(self, c, c->ai_protocol, ibuf + start, len)`. What a client does that
was destroyed before is not defined; here it stops. -/
def Talk.deliver (env : HandlerEnv) (udp : Bool) : LineHandler Talk := fun t ibuf start len =>
  if t.ok then
    let line := segment ibuf start (start + len)
    let r := handlerLineIn env udp line { t.client with outs := t.script 0, made := [] }
    { state :=
        { client := r.2
          script := fun n => t.script (n + 1)
          log := t.log ++ [⟨t.client.obj, line, r.2.made⟩] }
      ibuf := memcpy ibuf start
        ((lineAfter env t.client.obj line (ibuf.getD (start + len) 0)).take (len + 1))
      rc := r.1 }
  else ⟨{ t with client := { t.client with misused := true } }, ibuf, -1⟩

/-- A client is read only as long as it is there. -/
def Inflow.serve {W : Type} (use : W → W) (handlerLineIn : LineHandler W) (ok : W → Bool)
    (s : Inflow W) (n : Nat) : Inflow W :=
  if ok s.state && !s.eof then handleClientReadable use handlerLineIn s n else s

/-- The client is read again and again. -/
def Inflow.serves {W : Type} (use : W → W) (handlerLineIn : LineHandler W) (ok : W → Bool)
    (s : Inflow W) (ns : List Nat) : Inflow W :=
  ns.foldl (Inflow.serve use handlerLineIn ok) s

/-! ## The contract of the handlers -/

/-- The handler keeps its client, or says that it is gone and does not touch it again.

`login_handler` counts a failure after a lost reply to a bad certificate, `incoming_handler`
accounts for the packet after a lost reply to a message to `SERVER`, and the handlers of
uplinks return 0 after they have closed their client. -/
def Delivery.Careful (env : HandlerEnv) (d : Delivery) : Prop :=
  match d.client.handlerLineIn with
  | .login => loginCertFails env d.client (parseArgsNoshell d.line).1 = true → NoneLost d.outs
  | .incoming => isServerMessage env d.client d.line = true → NoneLost d.outs
  | .uplinkLogin => certFails CertCheck.phase1 d.client = false ∧
      uplinkWelcomes (parseArgsNoshell d.line).1 = true
  | .uplinkLogresp => (uplinkServerName env (parseArgsNoshell d.line).1).isSome = true ∧
      certFails CertCheck.phase2 d.client = false

instance (env : HandlerEnv) (d : Delivery) : Decidable (d.Careful env) :=
  match h : d.client.handlerLineIn with
  | .login => decidable_of_iff
      (loginCertFails env d.client (parseArgsNoshell d.line).1 = true → NoneLost d.outs)
      (by simp only [Delivery.Careful, h])
  | .incoming => decidable_of_iff (isServerMessage env d.client d.line = true → NoneLost d.outs)
      (by simp only [Delivery.Careful, h])
  | .uplinkLogin => decidable_of_iff (certFails CertCheck.phase1 d.client = false ∧
      uplinkWelcomes (parseArgsNoshell d.line).1 = true) (by simp only [Delivery.Careful, h])
  | .uplinkLogresp => decidable_of_iff
      ((uplinkServerName env (parseArgsNoshell d.line).1).isSome = true ∧
        certFails CertCheck.phase2 d.client = false) (by simp only [Delivery.Careful, h])

/-- A reply could not be written, and the handler returns the result of the write to the
deframer: a filter command, or a login that is refused. -/
def Delivery.Unanswered (env : HandlerEnv) (udp : Bool) (d : Delivery) : Prop :=
  match d.client.handlerLineIn with
  | .login => loginRefused env d.client (parseArgsNoshell d.line).1 = true ∧ .again ∈ d.outs
  | .incoming => isFilterCommand udp d.client d.line = true ∧ .again ∈ d.outs
  | .uplinkLogin => False
  | .uplinkLogresp => False

instance (env : HandlerEnv) (udp : Bool) (d : Delivery) : Decidable (d.Unanswered env udp) :=
  match h : d.client.handlerLineIn with
  | .login => decidable_of_iff
      (loginRefused env d.client (parseArgsNoshell d.line).1 = true ∧ .again ∈ d.outs)
      (by simp only [Delivery.Unanswered, h])
  | .incoming => decidable_of_iff (isFilterCommand udp d.client d.line = true ∧ .again ∈ d.outs)
      (by simp only [Delivery.Unanswered, h])
  | .uplinkLogin => isFalse (by simp [Delivery.Unanswered, h])
  | .uplinkLogresp => isFalse (by simp [Delivery.Unanswered, h])

/-- Every handler keeps its client, or says that it is gone, as `Delivery.Careful` and
`Delivery.Unanswered` say. -/
theorem handlerLineIn_answered (env : HandlerEnv) (udp : Bool) (c₀ : Session) (s : Bytes) :
    Ensures (Live (· = c₀)) (handlerLineIn env udp s)
      (Answered (fun outs => Delivery.Unanswered env udp ⟨c₀, s, outs⟩)
        (fun outs => Delivery.Careful env ⟨c₀, s, outs⟩)) := by
  refine .get_bind fun c hc => ?_
  subst hc
  simp only [Delivery.Unanswered, Delivery.Careful]
  cases c.handlerLineIn with
  | login => exact loginHandler_answered env c s
  | incoming => exact incomingHandler_answered env udp c s
  | uplinkLogin => exact uplinkLoginHandler_answered env c s
  | uplinkLogresp => exact uplinkLogrespHandler_answered env c s

/-! ## One line -/

section

variable {env : HandlerEnv} {udp : Bool} {t : Talk} {ibuf : Bytes} {start len : Nat}

theorem Talk.ok_iff : t.ok = true ↔ t.client.alive = true ∧ t.client.misused = false := by
  simp [Talk.ok]

theorem Talk.closed_iff : t.closed = true ↔ t.client.alive = false ∧ t.client.misused = false := by
  simp [Talk.closed]

@[simp] theorem Talk.use_log : t.use.log = t.log := rfl

@[simp] theorem Talk.init_log (c : Session) (script : Nat → Nat → WriteOutcome) :
    (Talk.init c script).log = [] := rfl

theorem Talk.use_ok (h : t.ok = true) : t.use.ok = true := by
  rw [Talk.ok_iff] at h ⊢
  exact ⟨h.1, by simp [Talk.use, ResM.use, h.1, h.2]⟩

/-- What becomes of a client that was there. -/
theorem Talk.deliver_spec (h : t.ok = true) :
    let r := t.deliver env udp ibuf start len
    ∃ d : Delivery, r.state.log = t.log ++ [d] ∧
      (r.state.ok = true ∧ (r.rc < 0 → d.Unanswered env udp) ∨
        r.state.ok = false ∧ (d.Careful env → r.state.closed = true ∧ r.rc < 0)) := by
  have hok := Talk.ok_iff.mp h
  have hlive : Live (O := WriteOutcome) (· = t.client.obj)
      { t.client with outs := t.script 0, made := [] } := ⟨⟨hok.2, rfl⟩, hok.1⟩
  have hspec := handlerLineIn_answered env udp t.client.obj (segment ibuf start (start + len)) _ hlive
  simp only [Talk.deliver, if_pos h]
  refine ⟨_, rfl, ?_⟩
  cases hspec with
  | inl halive => exact .inl ⟨Talk.ok_iff.mpr ⟨halive.1, halive.2.1⟩, halive.2.2⟩
  | inr hdead =>
    refine .inr ⟨by simp [Talk.ok, hdead.1], fun hcareful => ?_⟩
    obtain ⟨hfine, hrc⟩ := hdead.2 hcareful
    exact ⟨Talk.closed_iff.mpr ⟨hdead.1, hfine⟩, hrc⟩

theorem Talk.deliver_not_ok (h : t.ok = false) :
    (t.deliver env udp ibuf start len).state.ok = false ∧
      (t.deliver env udp ibuf start len).state.log = t.log := by
  unfold Talk.deliver
  rw [h]
  exact ⟨by simp [Talk.ok], rfl⟩

/-- The log only grows. -/
theorem Talk.mem_deliver_log {d : Delivery} (hd : d ∈ t.log) :
    d ∈ (t.deliver env udp ibuf start len).state.log := by
  cases h : t.ok with
  | true =>
    obtain ⟨d', hlog, -⟩ := @Talk.deliver_spec env udp t ibuf start len h
    rw [hlog]
    exact List.mem_append_left _ hd
  | false =>
    rw [(Talk.deliver_not_ok h).2]
    exact hd

end

/-! ## Clients that are there, and clients that are gone -/

section

variable {W : Type} {use : W → W} {handlerLineIn : LineHandler W} {Up Down : W → Prop}

/-- A use of the client keeps `Up`. The handler keeps it as well, or leaves `Down` behind
and returns a negative value. -/
structure HandlerEnds (use : W → W) (handlerLineIn : LineHandler W) (Up Down : W → Prop) : Prop where
  use_up : ∀ w, Up w → Up (use w)
  line_up : ∀ w ibuf start len, Up w → Up (handlerLineIn w ibuf start len).state ∨
    Down (handlerLineIn w ibuf start len).state ∧ (handlerLineIn w ibuf start len).rc < 0

variable (h : HandlerEnds use handlerLineIn Up Down)
include h

theorem feedLine_ends {w : W} (hw : Up w) (ibuf : Bytes) (rowStart i : Nat) :
    let r := feedLine use handlerLineIn w ibuf rowStart i
    Up r.state ∨ Down r.state ∧ r.rc < 0 := by
  unfold feedLine
  split
  next => exact h.line_up _ _ _ _ (h.use_up _ hw)
  next => exact .inl hw

/-- When the client is gone, the deframer returns -1. -/
theorem deframeLoop_ends (fuel : Nat) {w : W} (hw : Up w) (ibuf : Bytes) (ibufEnd i rowStart : Nat) :
    let r := deframeLoop use handlerLineIn fuel w ibuf ibufEnd i rowStart
    Up r.state ∨ Down r.state ∧ r.rc = -1 := by
  induction fuel generalizing w ibuf i rowStart with
  | zero => exact .inl hw
  | succ fuel ih =>
    have hw := h.use_up w hw
    simp only [deframeLoop]
    split
    next =>
      split
      next =>
        have hline := feedLine_ends h hw ibuf rowStart i
        generalize feedLine use handlerLineIn (use w) ibuf rowStart i = r at hline
        split
        next => exact hline.imp id fun hdown => ⟨hdown.1, rfl⟩
        next hrc =>
          have hup := hline.resolve_right fun hdown => hrc hdown.2
          exact ih (h.use_up _ hup) r.ibuf _ _
      next => exact ih hw ibuf _ _
    next => exact .inl hw

/-- And so does `client_postread`, which does not touch it. -/
theorem clientPostread_ends {s : Inflow W} (hs : Up s.state) (r : Nat) :
    let s' := clientPostread use handlerLineIn s r
    Up s'.state ∨ Down s'.state ∧ s'.consumed = -1 ∧ s'.rc = -1 := by
  have hloop := deframeLoop_ends h (s.buf.ibufEnd + r + 1) (h.use_up _ hs) s.buf.ibuf
    (s.buf.ibufEnd + r) 0 0
  simp only [clientPostread, deframeAprsisInputLines]
  generalize deframeLoop use handlerLineIn _ _ _ _ _ _ = d at hloop
  simp only [afterConsume]
  split
  next hrc => exact hloop.imp id fun hdown => ⟨hdown.1, hrc, rfl⟩
  next hrc =>
    have hup := h.use_up _ (hloop.resolve_right fun hdown => hrc hdown.2)
    left
    split
    next => exact hup
    next =>
      split
      next => exact hup
      next => exact hup

theorem handleClientReadable_ends {s : Inflow W} (hs : Up s.state) (n : Nat) :
    let s' := handleClientReadable use handlerLineIn s n
    Up s'.state ∨ Down s'.state ∧ s'.consumed = -1 ∧ s'.rc = -1 := by
  unfold handleClientReadable
  simp only
  split
  next => exact .inl hs
  next =>
    split
    next => exact .inl hs
    next =>
      apply clientPostread_ends h
      exact hs

/-- Over all reads, the client is there, or the last read has returned -1. -/
theorem serves_ends {ok : W → Bool} (hdown : ∀ w, Down w → ok w = false) {s : Inflow W}
    (hs : Up s.state ∨ Down s.state ∧ s.consumed = -1 ∧ s.rc = -1) (ns : List Nat) :
    let s' := s.serves use handlerLineIn ok ns
    Up s'.state ∨ Down s'.state ∧ s'.consumed = -1 ∧ s'.rc = -1 := by
  induction ns generalizing s with
  | nil => exact hs
  | cons n ns ih =>
    apply ih
    unfold Inflow.serve
    split
    next hserved =>
      cases hs with
      | inl hup => exact handleClientReadable_ends h hup n
      | inr hgone =>
        rw [hdown _ hgone.1] at hserved
        cases hserved
    next => exact hs

end

/-! ## No use of a destroyed client -/

/-- The client is there, or some handler was not careful. -/
def Talk.Up (env : HandlerEnv) (t : Talk) : Prop :=
  t.ok = true ∨ ∃ d ∈ t.log, ¬ d.Careful env

theorem Talk.deliver_ends (env : HandlerEnv) (udp : Bool) :
    HandlerEnds Talk.use (Talk.deliver env udp) (Talk.Up env) fun t => t.closed = true where
  use_up t h := h.imp Talk.use_ok id
  line_up t ibuf start len h := by
    cases h with
    | inr hbad =>
      obtain ⟨d, hd, hcareless⟩ := hbad
      exact .inl (.inr ⟨d, Talk.mem_deliver_log hd, hcareless⟩)
    | inl hok =>
      obtain ⟨d, hlog, hspec⟩ := @Talk.deliver_spec env udp t ibuf start len hok
      cases hspec with
      | inl halive => exact .inl (.inl halive.1)
      | inr hdead =>
        by_cases hcareful : d.Careful env
        · exact .inr (hdead.2 hcareful)
        · refine .inl (.inr ⟨d, ?_, hcareful⟩)
          rw [hlog]
          exact List.mem_append_right _ (List.mem_singleton.mpr rfl)

theorem Talk.closed_not_ok (t : Talk) (h : t.closed = true) : t.ok = false := by
  simp [Talk.ok, (Talk.closed_iff.mp h).1]

/-- The client was not used after it was destroyed, and when it was destroyed, the deframer
and `client_postread` have returned -1. -/
def Inflow.Safe (s : Inflow Talk) : Prop :=
  s.state.client.misused = false ∧
    (s.state.client.alive = false → s.consumed = -1 ∧ s.rc = -1)

instance (s : Inflow Talk) : Decidable s.Safe :=
  inferInstanceAs (Decidable (_ ∧ (_ → _ ∧ _)))

/-- However a client is read and whatever its writes do: if its handlers are careful, then
the client is never used after it was destroyed. -/
theorem no_use_of_destroyed_client (env : HandlerEnv) (udp : Bool) (c : Session)
    (script : Nat → Nat → WriteOutcome) (mem stream : Bytes) (ns : List Nat)
    (hcareful : ∀ d ∈ ((Inflow.init (Talk.init c script) mem stream).serves Talk.use
      (Talk.deliver env udp) Talk.ok ns).state.log, d.Careful env) :
    ((Inflow.init (Talk.init c script) mem stream).serves Talk.use (Talk.deliver env udp)
      Talk.ok ns).Safe := by
  have hrun := serves_ends (Talk.deliver_ends env udp) Talk.closed_not_ok
    (s := Inflow.init (Talk.init c script) mem stream) (.inl (.inl rfl)) ns
  cases hrun with
  | inr hgone => exact ⟨(Talk.closed_iff.mp hgone.1).2, fun _ => hgone.2⟩
  | inl hup =>
    cases hup with
    | inl hok =>
      obtain ⟨halive, hfine⟩ := Talk.ok_iff.mp hok
      refine ⟨hfine, fun hdead => ?_⟩
      rw [halive] at hdead
      cases hdead
    | inr hbad =>
      obtain ⟨d, hd, hcareless⟩ := hbad
      exact absurd (hcareful d hd) hcareless

/-- A server that knows its own name. -/
private def talkEnv : HandlerEnv where
  serverid := ascii "TESTING"
  passcode := ascii "31421"
  verstrAprsis := ascii "aprsc 2"
  quirksMode := false
  disallowLogin _ := false
  incomingParse _ _ := .done 0
  incomingEdits _ line := line
  filterParse neg pos arg := ((neg, pos ++ [arg]), 0)
  parseArgs s := [s]
  sslStrerror _ := []
  x509Error := []
  msgid := ascii "1"

/-- A client with the given handler and port flags. -/
private def talkClient (kind : HandlerKind) (flags : UInt32) : Session where
  handlerLineIn := kind
  state := .login
  flags := flags
  username := []
  validated := 0
  failedCmds := 0
  quirksMode := false
  appName := []
  appVersion := []
  udpclient := false
  udpPort := 0
  cert := none
  filterS := []
  negUserFilters := []
  posUserFilters := []

/-- A login that is answered, and a filter command whose reply finds the connection broken. -/
theorem no_use_after_broken_reply :
    let s := (Inflow.init (Talk.init (talkClient .login clflagsUserfilterok)
      fun line _ => if line = 0 then .sent else .epipe) (List.replicate 64 0)
      (ascii "user N0CALL" ++ crlf ++ ascii "#filter b/N1" ++ crlf ++ ascii "#" ++ crlf)).serves
        Talk.use (Talk.deliver talkEnv false) Talk.ok [20, 20, 20]
    (∀ d ∈ s.state.log, d.Careful talkEnv) ∧ s.state.client.alive = false ∧ s.Safe := by
  intro s
  have hcareful : ∀ d ∈ s.state.log, d.Careful talkEnv := by decide
  exact ⟨hcareful, by decide, no_use_of_destroyed_client _ _ _ _ _ _ _ hcareful⟩

/-- The other server refuses our login. The handler closes the client and returns 0, and the
deframer goes on with it. -/
theorem used_after_refused_login :
    ¬ ((Inflow.init (Talk.init (talkClient .uplinkLogresp 0) fun _ _ => .sent)
      (List.replicate 64 0) (ascii "# logresp TESTING unverified, server T2X" ++ crlf)).serves
        Talk.use (Talk.deliver talkEnv false) Talk.ok [60]).Safe := by
  decide

/-! ## No line is handled twice -/

/-- The client is gone, or a reply could not be written. -/
def Talk.Stops (env : HandlerEnv) (udp : Bool) (t : Talk) : Prop :=
  t.ok = false ∨ ∃ d ∈ t.log, d.Unanswered env udp

theorem Talk.deliver_stops (env : HandlerEnv) (udp : Bool) :
    HandlerStops (Talk.deliver env udp) (Talk.Stops env udp) where
  rc_or t ibuf start len := by
    cases hok : t.ok with
    | false => exact .inr (.inl (Talk.deliver_not_ok hok).1)
    | true =>
      obtain ⟨d, hlog, hspec⟩ := @Talk.deliver_spec env udp t ibuf start len hok
      cases hspec with
      | inr hdead => exact .inr (.inl hdead.1)
      | inl halive =>
        cases Int.lt_or_le (t.deliver env udp ibuf start len).rc 0 with
        | inr hrc => exact .inl hrc
        | inl hneg =>
          refine .inr (.inr ⟨d, ?_, halive.2 hneg⟩)
          rw [hlog]
          exact List.mem_append_right _ (List.mem_singleton.mpr rfl)
  length_eq t ibuf start len hlen := by
    unfold Talk.deliver
    split
    next =>
      apply length_memcpy
      rw [List.length_take]
      omega
    next => rfl
  drop_eq t ibuf start len hlen := by
    unfold Talk.deliver
    split
    next =>
      apply drop_memcpy (by omega)
      rw [List.length_take]
      omega
    next => rfl

/-- A reply that could not be written stays in the log. -/
theorem Talk.deliver_unanswered (env : HandlerEnv) (udp : Bool) :
    HandlerEnds (recordingUse Talk.use) (recording (Talk.deliver env udp))
      (fun w => ∃ d ∈ w.1.log, d.Unanswered env udp) fun _ => False where
  use_up w h := h
  line_up w ibuf start len h := by
    obtain ⟨d, hd, hunanswered⟩ := h
    exact .inl ⟨d, Talk.mem_deliver_log hd, hunanswered⟩

/-- What has been read was handed over, or reading has stopped, or a reply could not be
written. -/
def Inflow.HandledOnce (env : HandlerEnv) (udp : Bool) (stream : Bytes) (size : Nat)
    (s : Inflow (Talk × List Bytes)) : Prop :=
  (∃ read, s.Framed stream size read) ∨
    (s.state.1.ok && !s.eof) = false ∧ s.state.2 <+: streamLines isEol stream ∨
    ∃ d ∈ s.state.1.log, d.Unanswered env udp

theorem Inflow.Framed.lines_start {W : Type} {stream read : Bytes} {size : Nat}
    {s : Inflow (W × List Bytes)} (h : s.Framed stream size read) :
    s.state.2 <+: streamLines isEol stream := by
  rw [h.lines_eq, h.stream_eq, streamLines_append]
  exact List.prefix_append _ _

theorem serve_once {env : HandlerEnv} {udp : Bool} {stream : Bytes} {size : Nat}
    {s : Inflow (Talk × List Bytes)} (h : s.HandledOnce env udp stream size) (n : Nat) :
    (s.serve (recordingUse Talk.use) (recording (Talk.deliver env udp)) (fun w => w.1.ok) n).HandledOnce
      env udp stream size := by
  unfold Inflow.serve
  split
  next hserved =>
    cases h with
    | inl hframed =>
      obtain ⟨read, hframed⟩ := hframed
      cases handleClientReadable_framed (Talk.deliver_stops env udp) hframed n with
      | inl hstop =>
        cases hstop.1 with
        | inl hgone => exact .inr (.inl ⟨by rw [hgone]; rfl, hstop.2⟩)
        | inr hunanswered => exact .inr (.inr hunanswered)
      | inr hgo =>
        cases hgo with
        | inl hfull =>
          rw [hfull.2.2]
          exact .inr (.inl ⟨by simp, hframed.lines_start⟩)
        | inr hnext =>
          obtain ⟨chunk, hnext, -⟩ := hnext
          exact .inl ⟨_, hnext⟩
    | inr hrest =>
      cases hrest with
      | inl hstopped =>
        rw [hstopped.1] at hserved
        cases hserved
      | inr hunanswered =>
        have hkept := handleClientReadable_ends (Talk.deliver_unanswered env udp) hunanswered n
        exact .inr (.inr (hkept.resolve_right fun hno => hno.1))
  next => exact h

/-- However a client is read and whatever its writes do: if every reply that its handlers
pass on to the deframer could be written, then the lines that were handled are the lines of
the stream from its start on, each once. -/
theorem each_line_handled_once (env : HandlerEnv) (udp : Bool) (c : Session)
    (script : Nat → Nat → WriteOutcome) (mem stream : Bytes) (ns : List Nat)
    (hanswered : ∀ d ∈ ((Inflow.init (Talk.init c script, []) mem stream).serves
      (recordingUse Talk.use) (recording (Talk.deliver env udp)) (fun w => w.1.ok)
        ns).state.1.log, ¬ d.Unanswered env udp) :
    ((Inflow.init (Talk.init c script, []) mem stream).serves (recordingUse Talk.use)
      (recording (Talk.deliver env udp)) (fun w => w.1.ok) ns).state.2 <+:
        streamLines isEol stream := by
  have hrun : ∀ (ns : List Nat) (s : Inflow (Talk × List Bytes)),
      s.HandledOnce env udp stream mem.length →
      (s.serves (recordingUse Talk.use) (recording (Talk.deliver env udp)) (fun w => w.1.ok)
        ns).HandledOnce env udp stream mem.length := by
    intro ns
    induction ns with
    | nil => exact fun s h => h
    | cons n ns ih => exact fun s h => ih _ (serve_once h n)
  have hinit : (Inflow.init (Talk.init c script, ([] : List Bytes)) mem stream).Framed stream
      mem.length [] := ⟨rfl, rfl, rfl, rfl, Nat.zero_le _, rfl⟩
  cases hrun ns _ (.inl ⟨[], hinit⟩) with
  | inl hframed =>
    obtain ⟨read, hframed⟩ := hframed
    exact hframed.lines_start
  | inr hrest =>
    cases hrest with
    | inl hstopped => exact hstopped.2
    | inr hunanswered =>
      obtain ⟨d, hd, hunanswered⟩ := hunanswered
      exact absurd hunanswered (hanswered d hd)

/-- The first line's writes find the buffers of the kernel full. -/
private def talkScript (line _ : Nat) : WriteOutcome := if line = 0 then .again else .sent

/-- A login whose reply cannot be written is not handled again, nor is the command after it. -/
theorem login_handled_once :
    let s := (Inflow.init (Talk.init (talkClient .login clflagsUserfilterok) talkScript, [])
      (List.replicate 64 0) (ascii "user N0CALL" ++ crlf ++ ascii "#filter b/N1" ++ crlf)).serves
        (recordingUse Talk.use) (recording (Talk.deliver talkEnv false)) (fun w => w.1.ok) [20, 20]
    (∀ d ∈ s.state.1.log, ¬ d.Unanswered talkEnv false) ∧
      s.state.1.log.map Delivery.outs = [[.again], [.sent]] ∧
      s.state.2 <+: streamLines isEol (ascii "user N0CALL" ++ crlf ++ ascii "#filter b/N1" ++ crlf) := by
  intro s
  have hanswered : ∀ d ∈ s.state.1.log, ¬ d.Unanswered talkEnv false := by decide
  refine ⟨hanswered, by decide, ?_⟩
  exact each_line_handled_once talkEnv false (talkClient .login clflagsUserfilterok) talkScript
    (List.replicate 64 0) (ascii "user N0CALL" ++ crlf ++ ascii "#filter b/N1" ++ crlf) [20, 20]
    hanswered

/-- The reply to a filter command cannot be written. The client stays, and with the next
read the command is handled again. -/
theorem filter_command_handled_twice :
    ¬ ((Inflow.init (Talk.init (talkClient .incoming clflagsUserfilterok) talkScript, [])
      (List.replicate 64 0)
      (ascii "#filter b/N1" ++ crlf ++ ascii "#" ++ crlf)).serves
        (recordingUse Talk.use) (recording (Talk.deliver talkEnv false)) (fun w => w.1.ok)
          [14, 3]).state.2 <+: streamLines isEol (ascii "#filter b/N1" ++ crlf ++ ascii "#" ++ crlf) := by
  decide

end Aprsc
