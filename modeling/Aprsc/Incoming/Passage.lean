-- SUMMARY: What a line has passed when `incoming_parse` queues it, and the flags of the queued packet.
import Aprsc.Incoming.Parse
import Aprsc.Incoming.QView
import Aprsc.ParseAprs.Flags

/-!
# The passage of a line

A line that is queued has passed every check of `incoming_parse`. What each of them
found is told here once, and what is said about queued packets rests on it.
-/

namespace Aprsc

/-- The source callsign is logged in on another connection. -/
def sourceElsewhere (env : IncomingEnv) (c : Client) (h : Header) (s : Bytes) : Bool :=
  !originatedByClient c h s && clientlistCheckIfValidatedClient env.clientlist (h.src s) != -1

/-- The flags that a packet of the given class has before it is parsed. -/
def premarked (env : IncomingEnv) (c : Client) (h : Header) (s : Bytes) (cls : UInt16) : UInt16 :=
  if sourceElsewhere env c h s then cls ||| fDupe else cls

/-- What `incoming_parse` found on its way to queue `pb` for a line: the line `s` that is
parsed, its header, the result of `q_process`, the class of the packet, and what
`parse_aprs` set. -/
structure Passage (env : IncomingEnv) (c : Client) (line : Bytes) (pb : Pbuf) (s : Bytes)
    (h : Header) (out : QOut) (qc : Int) (cls : UInt16) (f : AprsFields) : Prop where
  line_eq : lineOf env c line = .ok s
  header_eq : parseHeader env.cfg s = .ok h
  q_eq : (qProcess env.cfg env.clientlist (env.mem.load s) c h.viaStart h.pathlen
    (originatedByClient c h s)).val = .ok out
  igate_ok : disallowedIgate env.cfg out = false
  fits : newLen s.length out ≤ packetlenMax
  class_eq : classify c = .ok cls
  qconst_eq : out.qconstStart = some qc
  aprs_eq : f = ((parseAprsPbuf env (out.pbuf h s.length (premarked env c h s cls) qc
    env.tick)).val.getD (0, (out.pbuf h s.length (premarked env c h s cls) qc
    env.tick).aprsFields)).2
  verified : env.cfg.disallowUnverified = true → c.validated = true ∧
    findSub (ascii ",TCPXX") (out.area.slice h.viaStart (h.pathlen - h.viaStart)) = none
  pb_eq : pb = filterPreprocessDupefilter
    ((out.pbuf h s.length (premarked env c h s cls) qc env.tick).withAprs f)

/-- The buffer that is built when the packet is not dropped, and the checks before it. -/
theorem rewritePacket_passed {env : IncomingEnv} {c : Client} {h : Header} {len : Nat}
    {originated : Bool} {src : Bytes} {out : QOut} {pb : Pbuf}
    (hok : rewritePacket env c h len originated src out = .ok pb) :
    disallowedIgate env.cfg out = false ∧ newLen len out ≤ packetlenMax ∧
      ∃ cls qc flags, classify c = .ok cls ∧ out.qconstStart = some qc ∧
        flags = (if !originated && clientlistCheckIfValidatedClient env.clientlist src != -1 then
          cls ||| fDupe else cls) ∧
        pb = out.pbuf h len flags qc env.tick := by
  unfold rewritePacket at hok
  split at hok
  next => cases hok
  next higate =>
  split at hok
  next => cases hok
  next hlen =>
  split at hok
  next => cases hok
  next =>
  split at hok
  next => cases hok
  next cls hcls =>
  simp only at hok
  split at hok
  next => cases hok
  next qc hqc =>
    cases hok
    exact ⟨by simpa using higate, by omega, cls, qc, _, hcls, hqc, rfl, rfl⟩

theorem classify_cases {c : Client} {cls : UInt16} (h : classify c = .ok cls) :
    cls = fFromUpstr ∨ cls = fFromDownstr := by
  unfold classify at h
  split at h
  next =>
    cases h
    exact .inl rfl
  next =>
  split at h
  next => cases h
  next =>
  split at h
  next =>
    cases h
    exact .inr rfl
  next => cases h

/-- A packet that is queued at the end has passed the last checks. -/
theorem queuePbuf_queued {env : IncomingEnv} {c : Client} {via : Bytes} {originated : Bool}
    {rc rc' : Int} {pb pb' : Pbuf} (hq : queuePbuf env c via originated rc pb = .queued rc' pb') :
    (env.cfg.disallowUnverified = true → c.validated = true ∧
      findSub (ascii ",TCPXX") via = none) ∧ pb' = filterPreprocessDupefilter pb := by
  unfold queuePbuf at hq
  split at hq
  next => cases hq
  next =>
  split at hq
  next => split at hq <;> cases hq
  next =>
  split at hq
  next => cases hq
  next =>
  split at hq
  next => cases hq
  next hvalid =>
  split at hq
  next => cases hq
  next hpath =>
    cases hq
    refine ⟨fun hset => ?_, rfl⟩
    rw [hset] at hvalid hpath
    exact ⟨by simpa using hvalid, by simpa using hpath⟩

/-- A queued packet has passed every check of `incoming_parse`. -/
theorem queued_passage {env : IncomingEnv} {c : Client} {line : Bytes} {rc : Int} {pb : Pbuf}
    (hq : incomingParse env c line = .queued rc pb) :
    ∃ s h out qc cls f, Passage env c line pb s h out qc cls f := by
  unfold incomingParse at hq
  split at hq
  next => cases hq
  next s hline =>
  unfold incomingParseLine at hq
  split at hq
  next => cases hq
  next h hok =>
  simp only at hq
  split at hq
  next => cases hq
  next out hout =>
  split at hq
  next => cases hq
  next pb₀ hrewrite =>
  obtain ⟨higate, hfits, cls, qc, flags, hcls, hqc, rfl, rfl⟩ := rewritePacket_passed hrewrite
  obtain ⟨hverified, rfl⟩ := queuePbuf_queued hq
  exact ⟨s, h, out, qc, cls, _, hline, hok, hout, higate, hfits, hcls, hqc, rfl, hverified, rfl⟩

/-- The passage of a line whose header is known. -/
theorem queued_passage_of {env : IncomingEnv} {c : Client} {line s : Bytes} {h : Header} {rc : Int}
    {pb : Pbuf} (hline : lineOf env c line = .ok s) (hok : parseHeader env.cfg s = .ok h)
    (hq : incomingParse env c line = .queued rc pb) :
    ∃ out qc cls f, Passage env c line pb s h out qc cls f := by
  obtain ⟨s', h', out, qc, cls, f, hp⟩ := queued_passage hq
  have hs := hp.line_eq
  rw [hline] at hs
  cases hs
  have hh := hp.header_eq
  rw [hok] at hh
  cases hh
  exact ⟨out, qc, cls, f, hp⟩

/-! ## Flags -/

theorem filterPreprocessDupefilter_flags (pb : Pbuf) :
    SameRoute pb.flags (filterPreprocessDupefilter pb).flags := by
  unfold filterPreprocessDupefilter
  simp only
  split
  next => exact .or_flag (by decide) _
  next => exact .refl _

/-- A queued packet is sent as its class and its source say. -/
theorem Passage.flags {env : IncomingEnv} {c : Client} {line : Bytes} {pb : Pbuf} {s : Bytes}
    {h : Header} {out : QOut} {qc : Int} {cls : UInt16} {f : AprsFields}
    (hp : Passage env c line pb s h out qc cls f) (hleaf : env.leaf.OnlySetPosition) :
    SameRoute (premarked env c h s cls) pb.flags := by
  rw [hp.pb_eq]
  refine SameRoute.trans ?_ (filterPreprocessDupefilter_flags _)
  show SameRoute (premarked env c h s cls) f.flags
  rw [hp.aprs_eq]
  cases hparse : (parseAprsPbuf env (out.pbuf h s.length (premarked env c h s cls) qc
      env.tick)).val with
  | none => exact .refl _
  | some r => exact parseAprs_flags hleaf _ _ _ _ r hparse

end Aprsc
