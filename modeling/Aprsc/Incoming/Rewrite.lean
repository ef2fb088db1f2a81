-- SUMMARY: What `incoming_parse` writes to the packet buffer, and where it says that the Q construct starts.
import Aprsc.Incoming.QResult
import Aprsc.Incoming.Passage

/-!
# The rewritten packet

`incoming_parse` copies the header up to a point that `q_process` tells, appends
the text that `q_process` gave, and copies the information field. Every part of
the buffer is told here from the line and the result of `q_process`, and so is
the construct that `qconst_start` points at.
-/

namespace Aprsc

/-! ## The buffer of a queued packet -/

theorem filterPreprocessDupefilter_eq (pb : Pbuf) :
    ∃ flags, filterPreprocessDupefilter pb = { pb with flags := flags } := by
  unfold filterPreprocessDupefilter
  simp only
  split
  · exact ⟨_, rfl⟩
  · exact ⟨pb.flags, rfl⟩

/-- The steps after the rewrite change only what `parse_aprs` sets, and the flags. -/
theorem Passage.pb_eq_with_flags {env : IncomingEnv} {c : Client} {line s : Bytes} {pb : Pbuf}
    {h : Header} {out : QOut} {qc : Int} {cls : UInt16} {f : AprsFields}
    (hp : Passage env c line pb s h out qc cls f) :
    ∃ flags, pb = { (out.pbuf h s.length (premarked env c h s cls) qc env.tick).withAprs f with
      flags := flags } := by
  obtain ⟨flags, hflags⟩ := filterPreprocessDupefilter_eq
    ((out.pbuf h s.length (premarked env c h s cls) qc env.tick).withAprs f)
  exact ⟨flags, hp.pb_eq.trans hflags⟩

/-- The line with other entries in its path. -/
def Header.lineWith (h : Header) (s : Bytes) (path : List Bytes) : Bytes :=
  h.src s ++ ch '>' :: (h.dst s ++ (joinFields comma path ++ ch ':' :: h.info s))

namespace Loaded

variable {m : Area UInt8} {s : Bytes} {h : Header} (hl : Loaded m s h)
include hl

theorem at_lineWith : m.At 0 (h.lineWith s (h.path s)) := by
  have hat := hl.at_line
  rw [hl.admitted.line_eq] at hat
  exact hat

/-- The line after the type of its construct has been edited. -/
theorem edited_at {proto type t : UInt8} {after : List Bytes} {m' : Area UInt8}
    (hv : qView (h.path s) = .good proto type after)
    (hedit : Edited m (h.pos (beforeQ (h.path s))) type m' t) :
    m'.At 0 (h.lineWith s (beforeQ (h.path s) ++ [ch 'q', proto, t] :: after)) := by
  have hat := hl.at_lineWith
  have hpos : h.pos (beforeQ (h.path s)) =
      h.viaStart + (joinFields comma (beforeQ (h.path s))).length := rfl
  rw [(eq_of_good hv).1] at hat
  cases hedit with
  | inl hedit =>
    obtain ⟨rfl, rfl⟩ := hedit
    rwa [← (eq_of_good hv).1] at hat ⊢
  | inr hedit =>
    obtain ⟨-, rfl⟩ := hedit
    have hsplit : ∀ x : UInt8, h.lineWith s (beforeQ (h.path s) ++ [ch 'q', proto, x] :: after) =
        (h.src s ++ ch '>' :: (h.dst s ++ joinFields comma (beforeQ (h.path s))) ++
          [comma, ch 'q', proto]) ++ x :: (joinFields comma after ++ ch ':' :: h.info s) := by
      intro x
      simp [Header.lineWith]
    have hsrc := hl.admitted.srcLen_eq
    have hvia := hl.admitted.viaStart_eq
    rw [hsplit] at hat ⊢
    apply hat.set_mid
    simp only [List.length_append, List.length_cons, List.length_nil]
    omega

/-- The buffer, when the copied part of the header ends in the path. -/
theorem data_eq {out : QOut} {path : List Bytes} {pre post : Bytes}
    (hat : out.area.At 0 (h.lineWith s path)) (hsplit : joinFields comma path = pre ++ post)
    (hlen : h.pathlen = h.viaStart + (joinFields comma path).length)
    (hcut : out.cut = h.viaStart + pre.length) :
    out.data s.length h.pathlen =
      h.src s ++ ch '>' :: (h.dst s ++ (pre ++ (out.newQ ++ (ch ':' :: h.info s ++ [0x0D, 0x0A])))) := by
  have hsrc := hl.admitted.srcLen_eq
  have hvia := hl.admitted.viaStart_eq
  have hline := congrArg List.length hl.admitted.line_eq
  have hpl := hl.admitted.pathlen_eq
  have htotal : s.length = h.pathlen + (ch ':' :: h.info s).length := by
    simp only [List.length_append, List.length_cons] at hline ⊢
    omega
  have hhead : out.area.slice 0 out.cut.toNat = h.src s ++ ch '>' :: (h.dst s ++ pre) := by
    have hlw : h.lineWith s path =
        (h.src s ++ ch '>' :: (h.dst s ++ pre)) ++ (post ++ ch ':' :: h.info s) := by
      simp [Header.lineWith, hsplit]
    rw [hlw, Area.at_append] at hat
    have hn : out.cut.toNat = (h.src s ++ ch '>' :: (h.dst s ++ pre)).length := by
      simp only [List.length_append, List.length_cons]
      omega
    rw [hn]
    exact hat.1
  have htail : out.area.slice h.pathlen (s.length - h.pathlen) = ch ':' :: h.info s := by
    have hlw : h.lineWith s path =
        (h.src s ++ ch '>' :: (h.dst s ++ joinFields comma path)) ++ ch ':' :: h.info s := by
      simp [Header.lineWith]
    rw [hlw, Area.at_append] at hat
    have hn : (0 : Int) + (h.src s ++ ch '>' :: (h.dst s ++ joinFields comma path)).length =
        h.pathlen := by
      simp only [List.length_append, List.length_cons]
      omega
    rw [hn] at hat
    rw [show s.length - h.pathlen = (ch ':' :: h.info s).length by omega]
    exact hat.2
  unfold QOut.data
  rw [hhead, htail]
  simp

end Loaded

/-- The path of a rewritten packet starts with this text: a prefix of the path of the
line, or the whole path with the type of its construct edited by a client-only
connection. -/
inductive CopiedPath (path : List Bytes) : Bytes → Prop where
  | initial {text : Bytes} (h : text <+: joinFields comma path) : CopiedPath path text
  | edited {proto type t : UInt8} {after : List Bytes}
      (view : qView path = .good proto type after) (edit : clientOnlyType type = some t) :
      CopiedPath path (joinFields comma (beforeQ path ++ [ch 'q', proto, t] :: after))

/-- The end of the copied part, and the buffer, with `via` copied of the path. -/
def Copies (h : Header) (s : Bytes) (out : QOut) (via : Bytes) : Prop :=
  out.cut = h.viaStart + via.length ∧
    out.data s.length h.pathlen =
      h.src s ++ ch '>' :: (h.dst s ++ (via ++ (out.newQ ++ (ch ':' :: h.info s ++ [0x0D, 0x0A]))))

/-- The length of a path with an edited type. -/
theorem length_edited {path after : List Bytes} {proto type t : UInt8}
    (hv : qView path = .good proto type after) :
    (joinFields comma (beforeQ path ++ [ch 'q', proto, t] :: after)).length =
      (joinFields comma path).length := by
  have hpath := congrArg (fun p => (joinFields comma p).length) (eq_of_good hv).1
  simp only [joinFields_append, joinFields_cons, List.length_append, List.length_cons] at hpath ⊢
  exact hpath.symm

namespace Loaded

variable {cfg : Config} {clientlist : List ClientEntry} {c : Client} {m m' : Area UInt8} {s : Bytes}
  {h : Header} {originated : Bool} {out : QOut} {proto type t : UInt8} {after : List Bytes}
  (hl : Loaded m s h)
include hl

/-- A trace is written again after the comma before it. -/
theorem copies_trace (hv : qView (h.path s) = .good proto (ch 'I') after) :
    Copies h s (keptOut cfg c m (h.pos (beforeQ (h.path s))) h.pathlen proto (ch 'I') after)
      (joinFields comma (beforeQ (h.path s)) ++ [comma]) := by
  have hsplit : joinFields comma (h.path s) = (joinFields comma (beforeQ (h.path s)) ++ [comma]) ++
      ([ch 'q', proto, ch 'I'] ++ joinFields comma after) := by
    conv_lhs => rw [(eq_of_good hv).1]
    simp
  have hcut : (keptOut cfg c m (h.pos (beforeQ (h.path s))) h.pathlen proto (ch 'I') after).cut =
      h.viaStart + (joinFields comma (beforeQ (h.path s)) ++ [comma]).length := by
    simp only [keptOut, if_true, QOut.cut, Option.getD_some, Header.pos, List.length_append,
      List.length_singleton]
    omega
  exact ⟨hcut, hl.data_eq hl.at_lineWith hsplit hl.admitted.pathlen_eq hcut⟩

/-- Any other construct is copied with the whole path. -/
theorem copies_kept (hv : qView (h.path s) = .good proto type after)
    (hedit : Edited m (h.pos (beforeQ (h.path s))) type m' t) (hI : t ≠ ch 'I') :
    Copies h s (keptOut cfg c m' (h.pos (beforeQ (h.path s))) h.pathlen proto t after)
      (joinFields comma (beforeQ (h.path s) ++ [ch 'q', proto, t] :: after)) := by
  have hlen : h.pathlen = h.viaStart +
      (joinFields comma (beforeQ (h.path s) ++ [ch 'q', proto, t] :: after)).length := by
    rw [length_edited hv]
    exact hl.admitted.pathlen_eq
  have hcut : (keptOut cfg c m' (h.pos (beforeQ (h.path s))) h.pathlen proto t after).cut =
      h.viaStart +
        (joinFields comma (beforeQ (h.path s) ++ [ch 'q', proto, t] :: after)).length := by
    simp only [keptOut, hI, if_false, QOut.cut, Option.getD_none]
    omega
  refine ⟨hcut, hl.data_eq ?_ (List.append_nil _).symm hlen hcut⟩
  simpa [keptOut, hI] using hl.edited_at hv hedit

/-- A generated construct follows whole entries. -/
theorem copies_generated {kept rest : List Bytes} (hpath : h.path s = kept ++ rest)
    (harea : out.area = m) (hcut : out.cut = h.pos kept) : Copies h s out (joinFields comma kept) := by
  have hsplit : joinFields comma (h.path s) = joinFields comma kept ++ joinFields comma rest := by
    rw [hpath, joinFields_append]
  refine ⟨hcut, hl.data_eq ?_ hsplit hl.admitted.pathlen_eq hcut⟩
  rw [harea]
  exact hl.at_lineWith

/-- The part of the path that is copied, and the buffer. -/
theorem exists_copies
    (hok : (qProcess cfg clientlist m c h.viaStart h.pathlen originated).val = .ok out)
    (hqc : out.qconstStart ≠ none) :
    ∃ via, CopiedPath (h.path s) via ∧ Copies h s out via := by
  cases hl.qProcess_ok hok hqc with
  | inl hkept =>
    obtain @⟨proto, type, after, m', t, hv, hkeeps, hedit⟩ := hkept
    cases decEq t (ch 'I') with
    | isTrue hI =>
      subst hI
      -- an edited construct is no trace
      cases hedit with
      | inr hedit => exact absurd rfl (plainType_of_clientOnlyType hedit.1).2.2.2.2
      | inl hedit =>
        obtain ⟨rfl, rfl⟩ := hedit
        refine ⟨_, .initial ?_, hl.copies_trace hv⟩
        conv_rhs => rw [(eq_of_good hv).1]
        simp
    | isFalse hI =>
      refine ⟨_, ?_, hl.copies_kept hv hedit hI⟩
      cases hedit with
      | inl hedit =>
        rw [hedit.2, ← (eq_of_good hv).1]
        exact .initial List.prefix_rfl
      | inr hedit => exact .edited hv hedit.1
  | inr hgen =>
    obtain @⟨kept, rest, tcp, proto, type, call, pathEnd, replace, hpath, hcut, -, -, -, -, -⟩ :=
      hgen.2
    refine ⟨joinFields comma kept, .initial ?_, hl.copies_generated hpath rfl hcut⟩
    rw [hpath, joinFields_append]
    exact List.prefix_append _ _

end Loaded

/-- Outside of quirks mode, the buffer of a queued packet holds the source and the
destination callsign of the line, a prefix of its path (or all of it, with the type
of its construct edited), what `q_process` appends, and the information field, and
its pointers delimit these parts. -/
theorem rewrite_faithful (env : IncomingEnv) (c : Client) (line : Bytes) (rc : Int) (pb : Pbuf)
    (hquirks : c.quirksMode = false) (hq : incomingParse env c line = .queued rc pb) :
    ∃ h out via, parseHeader env.cfg line = .ok h ∧
      line = h.src line ++ ch '>' :: (h.dst line ++
        (joinFields comma (h.path line) ++ ch ':' :: h.info line)) ∧
      (qProcess env.cfg env.clientlist (env.mem.load line) c h.viaStart h.pathlen
        (originatedByClient c h line)).val = .ok out ∧
      CopiedPath (h.path line) via ∧
      pb.data = h.src line ++ ch '>' :: (h.dst line ++ (via ++ (out.newQ ++
        (ch ':' :: h.info line ++ [0x0D, 0x0A])))) ∧
      pb.srccallEnd = (h.src line).length ∧
      pb.dstcallEndOrSsid = pb.srccallEnd + 1 + (callBody (h.dst line)).length ∧
      pb.dstcallEnd = pb.srccallEnd + 1 + (h.dst line).length ∧
      pb.dstcallLen = (h.dst line).length ∧
      pb.infoStart = pb.dstcallEnd + via.length + out.newQ.length + 1 ∧
      pb.packetLen = pb.data.length := by
  obtain ⟨s, h, out, qc, cls, f, hp⟩ := queued_passage hq
  have hline := hp.line_eq
  simp only [lineOf, hquirks, Bool.false_eq_true, if_false, Except.ok.injEq] at hline
  subst hline
  have hl := Loaded.of_parseHeader env.mem hp.header_eq
  obtain ⟨via, hvia, hcut, hdata⟩ := hl.exists_copies hp.q_eq (by simp [hp.qconst_eq])
  obtain ⟨flags, rfl⟩ := hp.pb_eq_with_flags
  have hsrc := hl.admitted.srcLen_eq
  have hdst := hl.admitted.viaStart_eq
  refine ⟨h, out, via, hp.header_eq, hl.admitted.line_eq, hp.q_eq, hvia, hdata, hsrc,
    hl.admitted.dstcallEndOrSsid_eq, hdst, ?_, ?_, rfl⟩
  · simp only [Pbuf.withAprs, QOut.pbuf]
    omega
  · simp only [Pbuf.withAprs, QOut.pbuf, QOut.infoStart, hcut]
    omega

/-- A server without any restriction. -/
private def rewriteEnv : IncomingEnv := .unrestricted

/-- A verified client on an inbound port. -/
private def rewriteClient : Client := .verifiedInbound

/-- A packet without a construct: `qAS` and the login are appended. -/
theorem rewrite_appends :
    ∃ pb via, incomingParse rewriteEnv rewriteClient (ascii "OH7AB>APRS,WIDE2-1:>test") =
        .queued 0 pb ∧ CopiedPath [ascii "WIDE2-1"] via ∧ pb.packetLen = pb.data.length ∧
      pb.data = ascii "OH7AB>APRS" ++ (via ++ (ascii ",qAS,OH7AA" ++ ascii ":>test\r\n")) := by
  obtain ⟨pb, hpb⟩ : ∃ pb, incomingParse rewriteEnv rewriteClient
      (ascii "OH7AB>APRS,WIDE2-1:>test") = .queued 0 pb := ⟨_, rfl⟩
  obtain ⟨h, out, via, hok, -, hout, hvia, hdata, -, -, -, -, -, hlen⟩ :=
    rewrite_faithful rewriteEnv rewriteClient _ 0 pb rfl hpb
  cases (show Except.ok ⟨5, 10, 10, 18⟩ = Except.ok h from hok)
  have hnewQ : out.newQ = ascii ",qAS,OH7AA" := by
    cases hout
    rfl
  rw [hnewQ] at hdata
  exact ⟨pb, via, hpb, hvia, hlen, hdata⟩

/-! ## The construct of a queued packet -/

/-- The path of the packet in a buffer. -/
def Pbuf.viaText (pb : Pbuf) : Bytes := (pb.data.take (pb.infoStart - 1)).drop pb.dstcallEnd

/-- `qconst_start` points at a construct with a call after it. Before it is the part of
the path without any construct. -/
def QconstOk (pb : Pbuf) : Prop :=
  ∃ (before : List Bytes) (proto type : UInt8) (call : Bytes) (more : List Bytes),
    pb.viaText = joinFields comma (before ++ [ch 'q', proto, type] :: call :: more) ∧
    pb.qconstStart = pb.dstcallEnd + (joinFields comma before).length + 1 ∧
    (∀ e ∈ before, startsQ e = false) ∧ call ≠ [] ∧
    ∀ e ∈ before ++ [ch 'q', proto, type] :: call :: more, comma ∉ e ∧ ch ':' ∉ e

/-- The packets for which `qconst_start` does not point at the construct, or the path of
the buffer does not hold one. -/
inductive QconstLost (cfg : Config) (c : Client) (path : List Bytes) (originated : Bool) :
    Prop where
  /-- `qconst_start` points at the added element. -/
  | tcp (adds : AddsTcp c path originated)
  /-- There is a construct before `qconst_start`. -/
  | nul (stays : NulStays c path originated)
  /-- The configured protocol does not fit in a path. -/
  | protocol (generates : Regenerates c path originated)
      (bad : cfg.qProtocolId = comma ∨ cfg.qProtocolId = ch ':')
  /-- The name of an uplink server that is added to a trace is not checked. -/
  | login (proto : UInt8) (after : List Bytes) (view : qView path = .good proto (ch 'I') after)
      (keeps : Keeps c path originated proto) (validated : c.validated = true)
      (peer : c.state ≠ .corepeer) (bad : ch ':' ∈ c.username)

/-- What a construct is in the text of the path. -/
theorem QconstOk.split {pb : Pbuf} {kept : List Bytes} {tail : Bytes} (hok : QconstOk pb)
    (htext : pb.viaText = joinFields comma kept ++ tail)
    (hstart : pb.qconstStart = pb.dstcallEnd + (joinFields comma kept).length + 1)
    (hcomma : ∀ e ∈ kept, comma ∉ e) :
    (∀ e ∈ kept, startsQ e = false) ∧ ∃ proto rest, tail = comma :: ch 'q' :: proto :: rest ∧
      proto ≠ comma ∧ proto ≠ ch ':' := by
  obtain ⟨before, proto, type, call, more, htext', hstart', hq, -, hchars⟩ := hok
  rw [htext, joinFields_append] at htext'
  obtain ⟨hbefore, htail⟩ := List.append_inj htext' (by omega)
  have heq : kept = before := by
    rw [← fields_joinFields hcomma, hbefore, fields_joinFields]
    exact fun e he => (hchars e (List.mem_append_left _ he)).1
  have hproto := hchars [ch 'q', proto, type] (by simp)
  refine ⟨heq ▸ hq, proto, type :: joinFields comma (call :: more), by simpa using htail, ?_, ?_⟩
  · intro h
    exact hproto.1 (by simp [h])
  · intro h
    exact hproto.2 (by simp [h])

/-- The text of the path has no `:`. -/
theorem QconstOk.colon {pb : Pbuf} (hok : QconstOk pb) : ch ':' ∉ pb.viaText := by
  obtain ⟨before, proto, type, call, more, htext, -, -, -, hchars⟩ := hok
  rw [htext]
  intro hmem
  obtain ⟨e, he, hb⟩ := List.mem_flatMap.mp hmem
  cases hb with
  | tail _ hb => exact (hchars e he).2 hb

/-- The path of the buffer, and `qconst_start`. -/
theorem viaText_eq {m : Area UInt8} {s : Bytes} {h : Header} {out : QOut} {flags flags' : UInt16}
    {qc tick : Int} {f : AprsFields} {via : Bytes} (hl : Loaded m s h) (hcopies : Copies h s out via) :
    Pbuf.viaText { (out.pbuf h s.length flags qc tick).withAprs f with flags := flags' } =
      via ++ out.newQ := by
  obtain ⟨hcut, hdata⟩ := hcopies
  have hsrc := hl.admitted.srcLen_eq
  have hvia := hl.admitted.viaStart_eq
  simp only [Pbuf.viaText, Pbuf.withAprs, QOut.pbuf, QOut.infoStart, hdata]
  have hlen : (h.src s ++ ch '>' :: h.dst s).length = h.viaStart := by
    simp only [List.length_append, List.length_cons]
    omega
  have hsplit : h.src s ++ ch '>' :: (h.dst s ++ (via ++ (out.newQ ++
      (ch ':' :: h.info s ++ [0x0D, 0x0A])))) =
      ((h.src s ++ ch '>' :: h.dst s) ++ (via ++ out.newQ)) ++
        (ch ':' :: h.info s ++ [0x0D, 0x0A]) := by
    simp
  have hend : out.cut.toNat + out.newQ.length + 1 - 1 =
      ((h.src s ++ ch '>' :: h.dst s) ++ (via ++ out.newQ)).length := by
    rw [List.length_append, hlen, List.length_append]
    omega
  rw [hsplit, hend, List.take_left, ← hlen, List.drop_left]

section

variable {env : IncomingEnv} {c : Client} {line s : Bytes} {pb : Pbuf} {h : Header} {out : QOut}
  {qc : Int} {cls : UInt16} {f : AprsFields} (hp : Passage env c line pb s h out qc cls f)
include hp

/-- The path of a queued packet, of which `via` was copied. -/
theorem Passage.viaText_eq {via : Bytes} (hcopies : Copies h s out via) :
    pb.viaText = via ++ out.newQ := by
  obtain ⟨flags, hpb⟩ := hp.pb_eq_with_flags
  rw [hpb]
  exact Aprsc.viaText_eq (Loaded.of_parseHeader env.mem hp.header_eq) hcopies

theorem Passage.dstcallEnd_eq : pb.dstcallEnd = h.viaStart := by
  obtain ⟨flags, hpb⟩ := hp.pb_eq_with_flags
  rw [hpb]
  rfl

theorem Passage.qconstStart_eq : pb.qconstStart = qc.toNat := by
  obtain ⟨flags, hpb⟩ := hp.pb_eq_with_flags
  rw [hpb]
  rfl

end

/-- `qconst_start` for a construct that is kept. -/
theorem qconstStart_keptOut {cfg : Config} {c : Client} {m : Area UInt8} {q pathEnd qc : Int}
    {proto type : UInt8} {after : List Bytes}
    (h : (keptOut cfg c m q pathEnd proto type after).qconstStart = some qc) : qc = q + 1 := by
  have hat : (keptOut cfg c m q pathEnd proto type after).newQStart = .at (q + 1) := by
    unfold keptOut
    split <;> rfl
  simp only [QOut.qconstStart, hat] at h
  split at h
  next => exact (Option.some.inj h).symm
  next => cases h

theorem clientOnlyType_cases {type t : UInt8} (h : clientOnlyType type = some t) :
    t = ch 'o' ∨ t = ch 'O' := by
  unfold clientOnlyType at h
  split at h
  next => exact .inl (Option.some.inj h).symm
  next =>
  split at h
  next => exact .inr (Option.some.inj h).symm
  next =>
  split at h
  next => exact .inr (Option.some.inj h).symm
  next => cases h

theorem Edited.type_eq {m m' : Area UInt8} {q : Int} {type t : UInt8} (h : Edited m q type m' t) :
    t = type ∨ clientOnlyType type = some t :=
  h.imp (·.2) (·.1)

section

variable {cfg : Config} {c : Client} {m m' : Area UInt8} {s : Bytes} {h : Header} {originated : Bool}
  {out : QOut} {proto type t : UInt8} {after : List Bytes} {pb : Pbuf} (hl : Loaded m s h)
include hl

/-- The entries of a path with an edited type. -/
theorem edited_chars (hv : qView (h.path s) = .good proto type after)
    (hedit : t = type ∨ clientOnlyType type = some t) :
    ∀ e ∈ beforeQ (h.path s) ++ [ch 'q', proto, t] :: after, comma ∉ e ∧ ch ':' ∉ e := by
  have hpath := (eq_of_good hv).1
  have hchars : ∀ e ∈ h.path s, comma ∉ e ∧ ch ':' ∉ e := fun e he =>
    ⟨hl.admitted.no_comma e he, hl.admitted.no_colon e he⟩
  have hq := hchars [ch 'q', proto, type] (by rw [hpath]; simp)
  intro e he
  rw [List.mem_append, List.mem_cons] at he
  rcases he with he | he | he
  · exact hchars e (mem_of_mem_beforeQ he)
  · subst he
    cases hedit with
    | inl hedit =>
      rw [hedit]
      exact hq
    | inr hedit =>
      simp only [List.mem_cons, not_or] at hq ⊢
      cases clientOnlyType_cases hedit with
      | inl ht =>
        subst ht
        exact ⟨⟨hq.1.1, hq.1.2.1, by decide, by simp⟩, hq.2.1, hq.2.2.1, by decide, by simp⟩
      | inr ht =>
        subst ht
        exact ⟨⟨hq.1.1, hq.1.2.1, by decide, by simp⟩, hq.2.1, hq.2.2.1, by decide, by simp⟩
  · exact hchars e (by rw [hpath]; exact List.mem_append_right _ (List.mem_cons_of_mem _ he))

omit hl in
/-- A kept construct is lost only to the name of an uplink. -/
theorem qconstLost_of_keeps {path : List Bytes} (hv : qView path = .good proto type after)
    (hkeeps : Keeps c path originated proto) :
    QconstLost cfg c path originated ↔
      type = ch 'I' ∧ c.validated = true ∧ c.state ≠ .corepeer ∧ ch ':' ∈ c.username := by
  constructor
  · intro hlost
    cases hlost with
    | tcp adds =>
      cases adds with
      | replaced hrep => exact absurd hrep hkeeps.passedOn.1
      | udp inbound udp => simp [(hkeeps.passedOn.2 inbound).1] at udp
      | unverified inbound _ unverified own =>
        simp [((hkeeps.passedOn.2 inbound).2 own).1] at unverified
    | nul stays =>
      obtain ⟨type', after', hv', -⟩ := stays.nul
      rw [hv] at hv'
      cases hv'
      have hpeer := hkeeps.proto.resolve_left (by simp)
      cases stays.generates with
      | inl hin => exact absurd hin hpeer.1
      | inr hup => simp [hpeer.2] at hup
    | protocol generates => exact absurd hkeeps (generates proto type after hv)
    | login _ _ view _ validated peer bad =>
      rw [hv] at view
      cases view
      exact ⟨rfl, validated, peer, bad⟩
  · rintro ⟨rfl, hval, hpeer, hbad⟩
    exact .login proto after hv hkeeps hval hpeer hbad

end

/-! ## Logins with a colon -/

theorem tolower_eq_colon {b : UInt8} (h : tolower b = ch ':') : b = ch ':' := by
  unfold tolower at h
  split at h
  next hup =>
    simp only [Bool.and_eq_true, decide_eq_true_eq] at hup
    have h1 : (ch 'A').toNat ≤ b.toNat := hup.1
    have h2 : b.toNat ≤ (ch 'Z').toNat := hup.2
    have h3 := congrArg UInt8.toNat h
    have hA : (ch 'A').toNat = 65 := rfl
    have hZ : (ch 'Z').toNat = 90 := rfl
    have hc : (ch ':').toNat = 58 := rfl
    rw [UInt8.toNat_add] at h3
    have : (32 : UInt8).toNat = 32 := rfl
    omega
  next => exact h

theorem mem_of_caseEq {a b : Bytes} (h : caseEq a b = true) (hb : ch ':' ∈ b) : ch ':' ∈ a := by
  have hmap : a.map tolower = b.map tolower := by simpa [caseEq] using h
  have hlow : tolower (ch ':') ∈ a.map tolower := by
    rw [hmap]
    exact List.mem_map_of_mem hb
  obtain ⟨x, hx, hxl⟩ := List.mem_map.mp hlow
  rwa [tolower_eq_colon hxl] at hx

/-- The calls are entries, but for a comma at the end. -/
theorem mem_callTexts {n : Nat} {es : List Bytes} {call : Bytes} (h : call ∈ callTexts n es) :
    call ∈ es ∨ ∃ e ∈ es, call = e ++ [comma] := by
  induction n generalizing es with
  | zero => cases es <;> simp [callTexts] at h
  | succ n ih =>
    cases es with
    | nil => simp [callTexts] at h
    | cons e es =>
      simp only [callTexts] at h
      split at h
      next =>
        right
        exact ⟨e, List.mem_cons_self, by simpa using h⟩
      next =>
        rw [List.mem_cons] at h
        cases h with
        | inl h => exact .inl (h ▸ List.mem_cons_self)
        | inr h =>
          cases ih h with
          | inl h => exact .inl (List.mem_cons_of_mem _ h)
          | inr h =>
            obtain ⟨f, hf, h⟩ := h
            exact .inr ⟨f, List.mem_cons_of_mem _ hf, h⟩

/-- A login with a `:` is no call of the path, so it is added to a trace. -/
theorem colon_mem_tracedLogin {c : Client} {after : List Bytes} (n : Nat)
    (hcolon : ∀ e ∈ after, ch ':' ∉ e) :
    ch ':' ∈ tracedLogin c (callTexts n after) ↔
      c.validated = true ∧ c.state ≠ .corepeer ∧ ch ':' ∈ c.username := by
  have hne : ch ':' ≠ comma := by decide
  constructor
  · intro hmem
    unfold tracedLogin at hmem
    split at hmem
    next hadd =>
      simp only [Bool.and_eq_true, bne_iff_ne] at hadd
      exact ⟨hadd.1.1, hadd.2, by simpa [hne] using hmem⟩
    next => cases hmem
  · rintro ⟨hval, hpeer, hmem⟩
    have hno : (callTexts n after).any (isLoginCall c) = false := by
      rw [List.any_eq_false]
      intro call hcall hlogin
      simp only [isLoginCall, Bool.and_eq_true] at hlogin
      have hin := mem_of_caseEq hlogin.2 hmem
      cases mem_callTexts hcall with
      | inl h => exact hcolon call h hin
      | inr h =>
        obtain ⟨e, he, rfl⟩ := h
        exact hcolon e he (by simpa [hne] using hin)
    simp [tracedLogin, hval, hno, hpeer, hmem]

/-! ## Where qconst_start points -/

section

variable {cfg : Config} {c : Client} {m m' : Area UInt8} {s : Bytes} {h : Header} {originated : Bool}
  {out : QOut} {proto type t : UInt8} {after : List Bytes} {pb : Pbuf} (hl : Loaded m s h)
include hl

theorem qconstOk_kept (hv : qView (h.path s) = .good proto type after)
    (hedit : Edited m (h.pos (beforeQ (h.path s))) type m' t)
    (htext : pb.viaText = joinFields comma (beforeQ (h.path s) ++ [ch 'q', proto, t] :: after))
    (hstart : pb.qconstStart = pb.dstcallEnd + (joinFields comma (beforeQ (h.path s))).length + 1) :
    QconstOk pb := by
  have hchars := edited_chars hl hv hedit.type_eq
  obtain ⟨-, next, more, rfl, hnext⟩ := eq_of_good hv
  exact ⟨_, proto, t, next, more, htext, hstart, fun e he => startsQ_of_mem_beforeQ he, hnext, hchars⟩

theorem qconstOk_trace (hv : qView (h.path s) = .good proto (ch 'I') after)
    (htext : pb.viaText =
      joinFields comma (beforeQ (h.path s) ++ [ch 'q', proto, ch 'I'] :: after) ++
        (tracedLogin c (callTexts maxQCalls after) ++ comma :: cfg.serverid))
    (hstart : pb.qconstStart = pb.dstcallEnd + (joinFields comma (beforeQ (h.path s))).length + 1) :
    QconstOk pb ↔
      ¬ (c.validated = true ∧ c.state ≠ .corepeer ∧ ch ':' ∈ c.username) := by
  have hchars := edited_chars hl hv (.inl rfl)
  obtain ⟨-, next, more, hafter, hnext⟩ := eq_of_good hv
  have hcolon : ∀ e ∈ after, ch ':' ∉ e := fun e he =>
    (hchars e (List.mem_append_right _ (List.mem_cons_of_mem _ he))).2
  rw [← colon_mem_tracedLogin maxQCalls hcolon]
  generalize hlogin : tracedLogin c (callTexts maxQCalls after) = login at htext
  constructor
  · intro hok hmem
    apply hok.colon
    rw [htext]
    exact List.mem_append_right _ (List.mem_append_left _ hmem)
  · intro hno
    -- the added text is split at its commas
    have hhead : ∀ x ∈ (login ++ comma :: cfg.serverid).head?, x = comma := by
      intro x hx
      rw [← hlogin] at hx
      unfold tracedLogin at hx
      split at hx <;> simpa using hx.symm
    have hjoin := joinFields_fields hhead
    refine ⟨beforeQ (h.path s), proto, ch 'I', next,
      more ++ fields comma (login ++ comma :: cfg.serverid), ?_, hstart,
      fun e he => startsQ_of_mem_beforeQ he, hnext, ?_⟩
    · rw [htext, hafter]
      simp only [joinFields_append, joinFields_cons, hjoin]
      simp
    · intro e he
      have hcases : e ∈ beforeQ (h.path s) ++ [ch 'q', proto, ch 'I'] :: after ∨
          e ∈ fields comma (login ++ comma :: cfg.serverid) := by
        rw [hafter]
        simp only [List.mem_append, List.mem_cons] at he ⊢
        tauto
      cases hcases with
      | inl he => exact hchars e he
      | inr he =>
        refine ⟨not_mem_of_mem_fields he, fun hmem => ?_⟩
        have hin : ch ':' ∈ login ++ comma :: cfg.serverid := by
          rw [← hjoin]
          exact List.mem_flatMap.mpr ⟨e, he, List.mem_cons_of_mem _ hmem⟩
        rw [List.mem_append, List.mem_cons] at hin
        rcases hin with hin | hin | hin
        · exact hno hin
        · exact absurd hin (by decide)
        · exact cfg.serverid_ok.2.2 hin

omit hl in
theorem qconstOk_generated {kept rest tcp path : List Bytes} {call : Bytes}
    (hgen : Regenerates c path originated) (hpath : path = kept ++ rest)
    (hchars : ∀ e ∈ path, comma ∉ e ∧ ch ':' ∉ e)
    (htcp : tcp = [] ∧ ¬ AddsTcp c path originated ∨
      (tcp = [ascii "TCPIP*"] ∨ tcp = [ascii "TCPXX*"]) ∧
        (AddsTcp c path originated ∨ NulStays c path originated))
    (hnul : tcp = [] → ((∃ e ∈ kept, startsQ e = true) ↔ NulStays c path originated))
    (hproto : proto = cfg.qProtocolId ∨ NulStays c path originated)
    (htype : type ≠ comma ∧ type ≠ ch ':') (hcall : CallOk call)
    (htext : pb.viaText =
      joinFields comma kept ++ joinFields comma (tcp ++ [[ch 'q', proto, type], call]))
    (hstart : pb.qconstStart = pb.dstcallEnd + (joinFields comma kept).length + 1) :
    QconstOk pb ↔ ¬ QconstLost cfg c path originated := by
  have hkept : ∀ e ∈ kept, comma ∉ e ∧ ch ':' ∉ e := fun e he =>
    hchars e (hpath ▸ List.mem_append_left _ he)
  constructor
  · intro hok hlost
    obtain ⟨hnoq, x, tail, htail, hx1, hx2⟩ := hok.split htext hstart fun e he => (hkept e he).1
    rcases htcp with ⟨rfl, hadds⟩ | ⟨htcp, -⟩
    · have hstays : ¬ NulStays c path originated := by
        rw [← hnul rfl]
        rintro ⟨e, he, hq⟩
        simp [hnoq e he] at hq
      have hx : x = cfg.qProtocolId := by
        rw [← hproto.resolve_right hstays]
        simp only [List.nil_append, joinFields_cons, List.cons_append, List.cons.injEq] at htail
        exact htail.2.2.1.symm
      cases hlost with
      | tcp adds => exact hadds adds
      | nul stays => exact hstays stays
      | protocol _ bad =>
        rw [← hx] at bad
        exact bad.elim hx1 hx2
      | login _ _ view keeps => exact hgen _ _ _ view keeps
    · -- the added element is no construct
      have hq : (joinFields comma (tcp ++ [[ch 'q', proto, type], call]))[1]? = some (ch 'q') := by
        rw [htail]
        rfl
      rcases htcp with rfl | rfl
      · exact absurd (Option.some.inj hq) (by decide)
      · exact absurd (Option.some.inj hq) (by decide)
  · intro hno
    have hstays : ¬ NulStays c path originated := fun h => hno (.nul h)
    have hadds : ¬ AddsTcp c path originated := fun h => hno (.tcp h)
    rcases htcp with ⟨rfl, -⟩ | ⟨-, hor⟩
    · refine ⟨kept, proto, type, call, [], by rw [htext]; simp, hstart, ?_, hcall.1, ?_⟩
      · intro e he
        apply Bool.eq_false_iff.mpr
        intro hq
        exact hstays ((hnul rfl).mp ⟨e, he, hq⟩)
      · have hp := hproto.resolve_right hstays
        have hp1 : proto ≠ comma := fun h => hno (.protocol hgen (.inl (hp ▸ h)))
        have hp2 : proto ≠ ch ':' := fun h => hno (.protocol hgen (.inr (hp ▸ h)))
        have hq : comma ∉ [ch 'q', proto, type] ∧ ch ':' ∉ [ch 'q', proto, type] := by
          simp only [List.mem_cons, List.not_mem_nil, or_false, not_or]
          exact ⟨⟨by decide, hp1.symm, htype.1.symm⟩, by decide, hp2.symm, htype.2.symm⟩
        intro e he
        simp only [List.mem_append, List.mem_cons, List.not_mem_nil, or_false] at he
        rcases he with he | rfl | rfl
        · exact hkept e he
        · exact hq
        · exact hcall.2
    · exact absurd hor (by simp [hadds, hstays])

/-- A packet that keeps its construct. -/
theorem qconstOk_of_kept {qc : Int} (hkept : Kept cfg c m h (h.path s) originated out)
    (htext : ∀ via, Copies h s out via → pb.viaText = via ++ out.newQ)
    (hdst : pb.dstcallEnd = h.viaStart) (hqc : out.qconstStart = some qc)
    (hstart : pb.qconstStart = qc.toNat) :
    QconstOk pb ↔ ¬ QconstLost cfg c (h.path s) originated := by
  obtain @⟨proto, type, after, m', t, hv, hkeeps, hedit⟩ := hkept
  have hstart : pb.qconstStart =
      pb.dstcallEnd + (joinFields comma (beforeQ (h.path s))).length + 1 := by
    rw [hstart, hdst, qconstStart_keptOut hqc]
    unfold Header.pos
    omega
  rw [qconstLost_of_keeps hv hkeeps]
  cases decEq t (ch 'I') with
  | isTrue hI =>
    subst hI
    cases hedit with
    | inr hedit => exact absurd rfl (plainType_of_clientOnlyType hedit.1).2.2.2.2
    | inl hedit =>
      obtain ⟨rfl, rfl⟩ := hedit
      have htrace : pb.viaText =
          joinFields comma (beforeQ (h.path s) ++ [ch 'q', proto, ch 'I'] :: after) ++
            (tracedLogin c (callTexts maxQCalls after) ++ comma :: cfg.serverid) := by
        rw [htext _ (hl.copies_trace hv)]
        simp [keptOut]
      rw [qconstOk_trace hl hv htrace hstart]
      simp
  | isFalse hI =>
    have htype : type ≠ ch 'I' := by
      intro htype
      cases hedit with
      | inl hedit => exact hI (hedit.2.trans htype)
      | inr hedit => exact absurd htype (plainType_of_clientOnlyType hedit.1).1.2.2.2
    simp only [htype, false_and, not_false_eq_true, iff_true]
    refine qconstOk_kept hl hv hedit ?_ hstart
    rw [htext _ (hl.copies_kept hv hedit hI)]
    simp [keptOut, hI]

/-- A packet that gets a new construct. -/
theorem qconstOk_of_generated {qc : Int} (hregen : Regenerates c (h.path s) originated)
    (hgen : Generated cfg c m h (h.path s) originated out)
    (htext : ∀ via, Copies h s out via → pb.viaText = via ++ out.newQ)
    (hdst : pb.dstcallEnd = h.viaStart) (hqc : out.qconstStart = some qc)
    (hstart : pb.qconstStart = qc.toNat) :
    QconstOk pb ↔ ¬ QconstLost cfg c (h.path s) originated := by
  obtain @⟨kept, rest, tcp, proto, type, call, pathEnd, replace, hpath, hcut, htcp, hnul, hproto,
    htype, hcall⟩ := hgen
  refine qconstOk_generated hregen hpath
    (fun e he => ⟨hl.admitted.no_comma e he, hl.admitted.no_colon e he⟩) htcp hnul hproto htype
    hcall (htext _ (hl.copies_generated hpath rfl hcut)) ?_
  have hcut : replace.getD pathEnd = h.viaStart + ((joinFields comma kept).length : Int) := hcut
  have hlen : (joinFields comma (tcp ++ [[ch 'q', proto, type], call])).length > 0 := by
    simp only [joinFields_append, joinFields_cons, List.length_append, List.length_cons]
    omega
  simp only [QOut.qconstStart, QOut.cut, hlen, if_true, hcut, Option.some.injEq] at hqc
  omega

end

/-- `qconst_start` of a queued packet points at the construct of its path, unless the
packet is of one of the kinds of `QconstLost`. For those it does not. -/
theorem qconst_start_iff (env : IncomingEnv) (c : Client) (line s : Bytes) (h : Header) (rc : Int)
    (pb : Pbuf) (hline : lineOf env c line = .ok s) (hok : parseHeader env.cfg s = .ok h)
    (hq : incomingParse env c line = .queued rc pb) :
    QconstOk pb ↔ ¬ QconstLost env.cfg c (h.path s) (originatedByClient c h s) := by
  obtain ⟨out, qc, cls, f, hp⟩ := queued_passage_of hline hok hq
  have hl := Loaded.of_parseHeader env.mem hok
  have htext : ∀ via, Copies h s out via → pb.viaText = via ++ out.newQ := fun _ => hp.viaText_eq
  have hqc := hp.qconst_eq
  cases hl.qProcess_ok hp.q_eq (by simp [hqc]) with
  | inl hkept => exact qconstOk_of_kept hl hkept htext hp.dstcallEnd_eq hqc hp.qconstStart_eq
  | inr hgen =>
    exact qconstOk_of_generated hl hgen.1 hgen.2 htext hp.dstcallEnd_eq hqc hp.qconstStart_eq

/-- A construct that is kept. -/
theorem qconst_start_kept :
    ∃ pb, incomingParse rewriteEnv rewriteClient (ascii "OH7AB>APRS,WIDE2-1,qAR,OH7AC:>test") =
      .queued 0 pb ∧ QconstOk pb := by
  obtain ⟨pb, hpb⟩ : ∃ pb, incomingParse rewriteEnv rewriteClient
      (ascii "OH7AB>APRS,WIDE2-1,qAR,OH7AC:>test") = .queued 0 pb := ⟨_, rfl⟩
  refine ⟨pb, hpb, (qconst_start_iff rewriteEnv rewriteClient
    (ascii "OH7AB>APRS,WIDE2-1,qAR,OH7AC:>test") _ ⟨5, 10, 10, 28⟩ 0 pb rfl rfl hpb).mpr ?_⟩
  have hv : qView (Header.path ⟨5, 10, 10, 28⟩ (ascii "OH7AB>APRS,WIDE2-1,qAR,OH7AC:>test")) =
      .good (ch 'A') (ch 'R') [ascii "OH7AC"] := rfl
  have hkeeps : Keeps rewriteClient
      (Header.path ⟨5, 10, 10, 28⟩ (ascii "OH7AB>APRS,WIDE2-1,qAR,OH7AC:>test")) false (ch 'A') :=
    ⟨⟨fun h => absurd h.1 (by decide), fun _ => ⟨by decide, fun h => absurd h (by decide)⟩⟩,
      .inl (by decide)⟩
  exact fun hlost => absurd ((qconstLost_of_keeps hv hkeeps).mp hlost).1 (by decide)

/-- A packet that the client sends itself: `qconst_start` points at `TCPIP*`. -/
theorem qconst_start_at_tcpip :
    ¬ ∀ (env : IncomingEnv) (c : Client) (line : Bytes) (rc : Int) (pb : Pbuf),
      incomingParse env c line = .queued rc pb → QconstOk pb := by
  intro hall
  have hok := hall rewriteEnv rewriteClient (ascii "OH7AA>APRS,WIDE2-1:>test") 0 _ rfl
  obtain ⟨-, proto, rest, htail, -⟩ := hok.split
    (show _ = joinFields comma [] ++ ascii ",TCPIP*,qAC,TESTING" from rfl) rfl (by simp)
  have hq := congrArg (·[1]?) htail
  exact absurd (Option.some.inj hq) (by decide)

end Aprsc
