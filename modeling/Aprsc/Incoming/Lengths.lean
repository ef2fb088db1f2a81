-- SUMMARY: The lengths that `q_process` and `incoming_parse` compute, and the buffers that must hold them.
import Aprsc.Incoming.Rewrite
import Aprsc.Outgoing.Routing

/-!
# Lengths of packets and buffers

`q_process` returns the length of a text that `snprintf` may have cut, and
`incoming_parse` sums up the size of a packet before it writes it. The lengths are
compared here with the bytes that are really written.
-/

namespace Aprsc

/-! ## The appended path -/

/-- The array `path_append` while `q_process` fills it. -/
structure AppendBuf where
  /-- The bytes from its start that were written. -/
  text : Bytes
  /-- `new_q_len`. -/
  len : Nat
deriving Repr, DecidableEq

namespace AppendBuf

def empty : AppendBuf := ⟨[], 0⟩

def memcpy (text : Bytes) : AppendBuf := ⟨text, text.length⟩

/-- `new_q_len += snprintf(new_q + new_q_len, new_q_size - new_q_len, ...)`: the text is cut
where the array has no room for it and a NUL, but its whole length is added. -/
def snprintf (b : AppendBuf) (text : Bytes) : AppendBuf :=
  ⟨b.text ++ text.take ((pathAppendLen - b.len).toNat - 1), b.len + text.length⟩

theorem snprintf_of_fits {b : AppendBuf} {text : Bytes}
    (hfits : (b.len + text.length : Int) < pathAppendLen) :
    b.snprintf text = ⟨b.text ++ text, b.len + text.length⟩ := by
  have htake : text.take ((pathAppendLen - b.len).toNat - 1) = text := by
    apply List.take_of_length_le
    omega
  rw [snprintf, htake]

end AppendBuf

/-- The array after a trace has been written to it again. -/
def traceBuf (cfg : Config) (c : Client) (trace : Bytes) (loginInPath : Bool) :
    Except Int AppendBuf :=
  if (trace.length : Int) > pathAppendLen then .error inerrQNewqBufferSmall
  else
    let b := AppendBuf.memcpy trace
    let b :=
      if c.validated && !loginInPath && c.state != .corepeer then b.snprintf (comma :: c.username)
      else b
    if pathAppendLen - b.len < 20 then .error inerrQNewqBufferSmall
    else .ok (b.snprintf (comma :: cfg.serverid))

/-- The array when `q_process` returns: a generated construct is printed with one call, a
trace is copied and appended to, and nothing is written for another construct that is
kept. -/
inductive PathAppend (cfg : Config) (c : Client) : QOut → AppendBuf → Prop where
  | construct {m : Area UInt8} {text : Bytes} {pathEnd : Int} {replace : Option Int} :
      PathAppend cfg c ⟨m, text, pathEnd, .null, replace⟩ (AppendBuf.empty.snprintf text)
  | trace {m : Area UInt8} {newQ : Bytes} {q pathEnd : Int} {loginInPath : Bool} {b : AppendBuf}
      (written : traceBuf cfg c (m.slice (q + 1) (pathEnd - q - 1).toNat) loginInPath = .ok b) :
      PathAppend cfg c ⟨m, newQ, pathEnd, .at (q + 1), some (q + 1)⟩ b
  | nothing {m : Area UInt8} {newQ : Bytes} {pathEnd : Int} {ptr : QPtr} (kept : ptr ≠ .null) :
      PathAppend cfg c ⟨m, newQ, pathEnd, ptr, none⟩ .empty

/-- A trace that is short enough is written whole. -/
theorem traceBuf_eq (cfg : Config) {c : Client} {trace : Bytes} {calls : List Bytes}
    (hshort : trace.length + (tracedLogin c calls).length ≤ 580) :
    traceBuf cfg c trace (calls.any (isLoginCall c)) =
      .ok (.memcpy (trace ++ tracedLogin c calls ++ comma :: cfg.serverid)) := by
  have hserver := cfg.serverid_length.2
  unfold callsignlenMax at hserver
  have hlogin : (if c.validated && !calls.any (isLoginCall c) && c.state != .corepeer then
      (AppendBuf.memcpy trace).snprintf (comma :: c.username) else AppendBuf.memcpy trace) =
      AppendBuf.memcpy (trace ++ tracedLogin c calls) := by
    unfold tracedLogin at hshort ⊢
    split
    next hadd =>
      rw [if_pos hadd] at hshort
      rw [AppendBuf.snprintf_of_fits]
      · simp [AppendBuf.memcpy]
      · simp only [AppendBuf.memcpy, pathAppendLen]
        omega
    next => simp
  unfold traceBuf
  rw [if_neg (by unfold pathAppendLen; omega)]
  simp only [hlogin]
  rw [if_neg (by simp only [AppendBuf.memcpy, pathAppendLen, List.length_append]; omega),
    AppendBuf.snprintf_of_fits]
  · simp only [AppendBuf.memcpy, List.length_append]
  · simp only [AppendBuf.memcpy, pathAppendLen, List.length_append, List.length_cons]
    omega

/-- What `q_process` returns as its length is written. -/
def Appended (cfg : Config) (c : Client) (out : QOut) : Prop :=
  ∃ b, PathAppend cfg c out b ∧ b.text = out.newQ ∧ b.len = out.newQ.length ∧
    b.len ≤ b.text.length

/-! ## Lengths of calls -/

theorem checkInvalidPathCallsign_length {call : Bytes} {afterQ : Bool}
    (h : checkInvalidPathCallsign call afterQ = false) : call.length ≤ 33 := by
  simp only [checkInvalidPathCallsign, callsignlenMax] at h
  generalize hc : (if call.length > 1 && call.getLast? == some (ch '*') then call.dropLast
    else call) = stripped at h
  have hlen : call.length ≤ stripped.length + 1 := by
    rw [← hc]
    split
    next =>
      rw [List.length_dropLast]
      omega
    next => omega
  split at h
  next => cases h
  next =>
  split at h
  next => cases h
  next hlong =>
    simp only [gt_iff_lt, Bool.and_eq_true, decide_eq_true_eq, Bool.not_eq_true', Bool.and_eq_false_iff,
      beq_eq_false_iff_ne, not_and, not_or, not_not] at hlong
    omega

theorem Header.EntryOk.length_le {e : Bytes} (h : Header.EntryOk e) : e.length ≤ 33 := by
  cases h with
  | inl hq =>
    simp only [isQConstruct, Bool.and_eq_true, beq_iff_eq] at hq
    omega
  | inr hcall =>
    obtain ⟨afterQ, hcall⟩ := hcall
    exact checkInvalidPathCallsign_length hcall

namespace Loaded

variable {cfg : Config} {clientlist : List ClientEntry} {c : Client} {m : Area UInt8} {s : Bytes}
  {h : Header} {originated : Bool} {out : QOut} (hl : Loaded m s h)
include hl

theorem newCase_call_length {n : NewQ} (hnew : NewCase cfg c (h.path s) originated n) :
    n.call.length ≤ 33 := by
  have hserver : cfg.serverid.length ≤ 33 := by
    have := cfg.serverid_length.2
    unfold callsignlenMax at this
    omega
  have hlogin : c.username.length ≤ 33 := by
    have := c.username_fits
    omega
  cases hnew with
  | replaced replaces =>
    unfold newReplaced
    split <;> exact hserver
  | udp => exact hserver
  | unverified => exact hserver
  | clientOnlyOwn => exact hserver
  | login => exact hlogin
  | @viacall t front prev call _ _ _ _ via call_eq =>
    cases call_eq with
    | inl hcall =>
      rw [hcall.2]
      exact hlogin
    | inr hcall =>
      obtain ⟨rest, hpath⟩ := prefix_uncutPath (h.path s)
      have hmem : prev ∈ h.path s := by
        rw [eq_front_append hpath.symm via]
        simp
      have hprinted : call.length ≤ prev.length := by
        rw [hcall]
        exact (List.takeWhile_sublist _).length_le
      cases decEq prev [] with
      | isTrue hnil =>
        rw [hnil] at hprinted
        exact Nat.le_trans hprinted (by decide)
      | isFalse hne =>
        exact Nat.le_trans hprinted (hl.admitted.entries_ok prev hmem hne).length_le
  | address _ uplink _ _ =>
    have := c.addrHex_length (by simpa [Client.has] using uplink)
    show c.addrHex.length ≤ 33
    omega
  | own => exact hserver

theorem appended_generated {n : NewQ} (hnew : NewCase cfg c (h.path s) originated n)
    (hfollows : Follows m h n out) : Appended cfg c out := by
  have hcall := hl.newCase_call_length hnew
  have htcp : (joinFields comma n.tcp).length ≤ 7 := by
    rcases hnew.tcp_cases with htcp | htcp | htcp <;> rw [htcp] <;> decide
  obtain ⟨area, newQ, pathEnd, start, replace⟩ := out
  obtain ⟨-, hnewQ, hstart, -, -⟩ := hfollows
  simp only at hnewQ hstart
  subst hstart
  have hlen : newQ.length ≤ 45 := by
    rw [hnewQ]
    simp only [NewQ.added, joinFields_append, joinFields_cons, joinFields_nil, List.length_append,
      List.length_cons, List.length_nil]
    omega
  refine ⟨_, .construct, ?_⟩
  rw [AppendBuf.snprintf_of_fits (by simp only [AppendBuf.empty, pathAppendLen]; omega)]
  simp [AppendBuf.empty]

/-- A trace fits when `q_dropcheck` has not found the array too small. -/
theorem appended_kept {proto type : UInt8} {after : List Bytes} {m' : Area UInt8} {t : UInt8}
    (hv : qView (h.path s) = .good proto type after)
    (hpassed : ¬ (ServerFirst cfg after ∨ Refused cfg clientlist s c proto type after))
    (hedit : Edited m (h.pos (beforeQ (h.path s))) type m' t) :
    Appended cfg c (keptOut cfg c m' (h.pos (beforeQ (h.path s))) h.pathlen proto t after) := by
  unfold keptOut
  split
  next hI =>
    obtain ⟨hat, hend⟩ := hl.at_construct hv
    have hat := hedit.at_construct hat
    generalize htrace : ch 'q' :: proto :: t :: joinFields comma after = trace at hat
    have hshort : trace.length + (tracedLogin c (callTexts maxQCalls after)).length ≤ 580 := by
      apply Classical.byContradiction
      intro hlong
      apply hpassed
      right
      rw [← hedit.refused_iff]
      refine .buffer hI ?_
      rw [← htrace] at hlong
      simp only [List.length_cons] at hlong
      omega
    have hslice : m'.slice (h.pos (beforeQ (h.path s)) + 1)
        (h.pathlen - h.pos (beforeQ (h.path s)) - 1).toNat = trace := by
      rw [show (h.pathlen - h.pos (beforeQ (h.path s)) - 1).toNat = trace.length by
        rw [← htrace]
        simp only [List.length_cons]
        omega]
      exact hat
    have hbuf := traceBuf_eq cfg hshort
    rw [← hslice] at hbuf
    refine ⟨_, .trace hbuf, ?_⟩
    rw [hslice, ← htrace]
    exact ⟨rfl, rfl, Nat.le_refl _⟩
  next => exact ⟨_, .nothing (by simp), rfl, rfl, Nat.le_refl _⟩

theorem qProcess_appended
    (hok : (qProcess cfg clientlist m c h.viaStart h.pathlen originated).val = .ok out) :
    Appended cfg c out := by
  cases hl.qProcess_outcome hok with
  | kept view _ passed edited => exact hl.appended_kept view passed edited
  | generated _ new follows => exact hl.appended_generated (newConstruct_cases new) follows
  | @missing pathEnd ptr lost =>
    cases ptr with
    | null =>
      refine ⟨_, .construct, ?_⟩
      simp [AppendBuf.snprintf, AppendBuf.empty]
    | low => exact ⟨_, .nothing (by simp), rfl, rfl, Nat.le_refl _⟩
    | «at» off => exact ⟨_, .nothing (by simp), rfl, rfl, Nat.le_refl _⟩

end Loaded

/-! ## The packet buffer -/

def packetlenMaxSmall : Nat := 100
def packetlenMaxMedium : Nat := 180
def packetlenMaxLarge : Nat := packetlenMax

/-- The `buf_len` of the buffers that `pbuf_get` chooses for a packet. -/
def pbufLen (len : Int) : Option Nat :=
  if len ≤ packetlenMaxSmall then some packetlenMaxSmall
  else if len ≤ packetlenMaxMedium then some packetlenMaxMedium
  else if len ≤ packetlenMaxLarge then some packetlenMaxLarge
  else none

/-- The size of `dupe_sendbuf`. -/
def dupeSendbufLen : Nat := packetlenMax + 7

theorem pbufLen_of_le {len : Int} (hle : len ≤ packetlenMax) :
    ∃ size, pbufLen len = some size ∧ len ≤ size := by
  unfold pbufLen
  split
  next h => exact ⟨_, rfl, h⟩
  next =>
  split
  next h => exact ⟨_, rfl, h⟩
  next =>
  split
  next h => exact ⟨_, rfl, h⟩
  next h => exact absurd hle h

theorem QOut.length_data (q : QOut) (len pathlen : Nat) :
    (q.data len pathlen).length = q.cut.toNat + q.newQ.length + (len - pathlen) + 2 := by
  simp [QOut.data, Area.length_slice]
  omega

/-- The bytes of the packet, its CRLF and a NUL. -/
theorem QOut.length_data_lt {q : QOut} {len pathlen : Nat} (hcut : 0 ≤ q.cut)
    (hend : q.pathEnd ≤ pathlen) (hlen : pathlen ≤ len) :
    ((q.data len pathlen).length : Int) + 1 ≤ newLen len q := by
  rw [QOut.length_data]
  unfold QOut.cut at hcut ⊢
  unfold newLen
  cases hr : q.qReplace with
  | none =>
    simp only [hr, Option.getD_none] at hcut ⊢
    omega
  | some r =>
    simp only [hr, Option.getD_some] at hcut ⊢
    omega

namespace Loaded

variable {cfg : Config} {clientlist : List ClientEntry} {c : Client} {m : Area UInt8} {s : Bytes}
  {h : Header} {originated : Bool} {out : QOut} (hl : Loaded m s h)
include hl

/-- Where the copied part of the header may end. -/
theorem qProcess_ends
    (hok : (qProcess cfg clientlist m c h.viaStart h.pathlen originated).val = .ok out) :
    0 ≤ out.cut ∧ out.pathEnd ≤ h.pathlen := by
  have hpos : ∀ es, 0 ≤ h.pos es := by
    intro es
    have := h.viaStart_le_pos es
    omega
  cases hl.qProcess_outcome hok with
  | kept view _ _ _ =>
    have hq := hpos (beforeQ (h.path s))
    unfold keptOut QOut.cut
    split
    next =>
      simp only [Option.getD_some, Int.le_refl, and_true]
      omega
    next => simp
  | generated _ _ follows =>
    rw [follows.cut_eq]
    exact ⟨hpos _, follows.pathEnd_le⟩
  | missing _ nonneg le => exact ⟨nonneg, le⟩

end Loaded

/-- The lengths of a packet, for every header and every result of `q_process` for it: the
appended path is written whole, the packet with CRLF and NUL fits in `new_len` bytes, and
these fit in the buffer that is chosen for them. A packet that is queued is one that the
next server accepts, and its copy for the clients that get duplicates fits in
`dupe_sendbuf`. -/
theorem packet_fits_buffers (env : IncomingEnv) (c : Client) (line s : Bytes) (h : Header) (out : QOut)
    (hline : lineOf env c line = .ok s) (hok : parseHeader env.cfg s = .ok h)
    (hout : (qProcess env.cfg env.clientlist (env.mem.load s) c h.viaStart h.pathlen
      (originatedByClient c h s)).val = .ok out) :
    Appended env.cfg c out ∧
      ((out.data s.length h.pathlen).length : Int) + 1 ≤ newLen s.length out ∧
      (newLen s.length out ≤ packetlenMax →
        ∃ size, pbufLen (newLen s.length out) = some size ∧ newLen s.length out ≤ size) ∧
      ∀ rc pb, incomingParse env c line = .queued rc pb →
        pb.data = out.data s.length h.pathlen ∧ pb.packetLen = pb.data.length ∧
          pb.packetLen - 2 ≤ packetlenMax - 2 ∧
          (Net.dupTab ++ pb.data.take pb.packetLen).length ≤ dupeSendbufLen := by
  have hl := Loaded.of_parseHeader env.mem hok
  obtain ⟨hcut, hend⟩ := hl.qProcess_ends hout
  have hwritten := QOut.length_data_lt hcut hend (Nat.le_of_lt hl.pathlen_lt_length)
  refine ⟨hl.qProcess_appended hout, hwritten, pbufLen_of_le, ?_⟩
  intro rc pb hq
  obtain ⟨out', qc, cls, f, hp⟩ := queued_passage_of hline hok hq
  have ho := hp.q_eq
  rw [hout] at ho
  cases ho
  have hfits := hp.fits
  obtain ⟨flags, hpb⟩ := filterPreprocessDupefilter_eq
    ((out.pbuf h s.length (premarked env c h s cls) qc env.tick).withAprs f)
  rw [← hp.pb_eq] at hpb
  have hdata : pb.data = out.data s.length h.pathlen := by
    rw [hpb]
    rfl
  have hlen : pb.packetLen = pb.data.length := by
    rw [hpb]
    rfl
  have hdup : (Net.dupTab ++ pb.data.take pb.packetLen).length = 4 + pb.packetLen := by
    rw [hlen, List.take_length, List.length_append]
    rfl
  refine ⟨hdata, hlen, ?_, ?_⟩
  · rw [hlen, hdata]
    omega
  · rw [hdup, hlen, hdata]
    unfold dupeSendbufLen
    omega

private def lengthsEnv : IncomingEnv := .unrestricted

private def lengthsClient : Client := .verifiedInbound

/-- A trace: `,qAI,OH7AC` is written again with the login and the serverid. -/
theorem trace_fits_buffers :
    ∃ out pb, incomingParse lengthsEnv lengthsClient (ascii "OH7AB>APRS,qAI,OH7AC:>test") =
        .queued 0 pb ∧ out.newQ = ascii "qAI,OH7AC,OH7AA,TESTING" ∧
      Appended lengthsEnv.cfg lengthsClient out ∧ newLen 26 out = 43 ∧ pb.packetLen = 42 ∧
      (Net.dupTab ++ pb.data.take pb.packetLen).length ≤ dupeSendbufLen := by
  obtain ⟨out, hout⟩ : ∃ out, (qProcess lengthsEnv.cfg lengthsEnv.clientlist
      (lengthsEnv.mem.load (ascii "OH7AB>APRS,qAI,OH7AC:>test")) lengthsClient 10 20 false).val =
        .ok out := ⟨_, rfl⟩
  obtain ⟨pb, hpb⟩ : ∃ pb, incomingParse lengthsEnv lengthsClient
      (ascii "OH7AB>APRS,qAI,OH7AC:>test") = .queued 0 pb := ⟨_, rfl⟩
  obtain ⟨happended, -, -, hqueued⟩ := packet_fits_buffers lengthsEnv lengthsClient
    (ascii "OH7AB>APRS,qAI,OH7AC:>test") (ascii "OH7AB>APRS,qAI,OH7AC:>test") ⟨5, 10, 10, 20⟩ out
    rfl rfl hout
  obtain ⟨hdata, hlen, -, hdup⟩ := hqueued 0 pb hpb
  refine ⟨out, pb, hpb, ?_, happended, ?_, ?_, hdup⟩
  · cases hout
    rfl
  · cases hout
    rfl
  · rw [hlen, hdata]
    cases hout
    rfl

end Aprsc
