-- SUMMARY: The packets that incoming_parse queues are packets as the filters take them.
import Aprsc.Filter.Courtesy
import Aprsc.Incoming.Rewrite

/-!
# Queued packets

What the filters rely on in a packet holds of every packet that `incoming_parse` queues:
`qconst_start` points to a construct, or to the `TCPIP*` or `TCPXX*` that was added in front
of it, and the source callsign was checked.
-/

namespace Aprsc

/-- A character of the path in the buffer. -/
theorem Pbuf.getD_of_viaText {pb : Pbuf} {i : Nat} {b : UInt8} (h : pb.viaText[i]? = some b) :
    pb.data.getD (pb.dstcallEnd + i) 0 = b := by
  rw [Pbuf.viaText, List.getElem?_drop, List.getElem?_take] at h
  obtain ⟨-, hget⟩ := Option.ite_none_right_eq_some.mp h
  rw [List.getD_eq_getElem?_getD, hget, Option.getD_some]

section
variable {m : Area UInt8} {s : Bytes} {h : Header} (hl : Loaded m s h) {cfg : Config} {c : Client}
  {originated : Bool} {out : QOut} {pb : Pbuf} {qc : Int}
  (htext : ∀ via, Copies h s out via → pb.viaText = via ++ out.newQ)
  (hdst : pb.dstcallEnd = h.viaStart) (hqc : out.qconstStart = some qc)
  (hstart : pb.qconstStart = qc.toNat)
include hl htext hdst hqc hstart

/-- A construct that is kept. -/
theorem qconst_kept (hkept : Kept cfg c m h (h.path s) originated out) :
    pb.data.getD pb.qconstStart 0 = ch 'q' := by
  obtain @⟨proto, type, after, m', t, hv, -, hedit⟩ := hkept
  have hpos : pb.qconstStart = pb.dstcallEnd + ((joinFields comma (beforeQ (h.path s))).length + 1) := by
    rw [hstart, hdst, qconstStart_keptOut hqc]
    unfold Header.pos
    omega
  rw [hpos]
  apply Pbuf.getD_of_viaText
  cases decEq t (ch 'I') with
  | isTrue hI =>
    subst hI
    obtain ⟨rfl, rfl⟩ : m' = m ∧ ch 'I' = type :=
      hedit.resolve_right fun hedit => (plainType_of_clientOnlyType hedit.1).2.2.2.2 rfl
    rw [htext _ (hl.copies_trace hv)]
    simp [keptOut]
  | isFalse hI =>
    rw [htext _ (hl.copies_kept hv hedit hI)]
    simp [keptOut, hI]

/-- A construct that is generated, or what is added in front of it. -/
theorem qconst_generated (hgen : Generated cfg c m h (h.path s) originated out) :
    pb.data.getD pb.qconstStart 0 = ch 'q' ∨ pb.data.getD pb.qconstStart 0 = ch 'T' := by
  obtain @⟨kept, rest, tcp, proto, type, call, pathEnd, replace, hpath, hcut, htcp, -⟩ := hgen
  have hcut' : replace.getD pathEnd = h.viaStart + ((joinFields comma kept).length : Int) := hcut
  have hlen : (joinFields comma (tcp ++ [[ch 'q', proto, type], call])).length > 0 := by
    simp only [joinFields_append, joinFields_cons, List.length_append, List.length_cons]
    omega
  simp only [QOut.qconstStart, QOut.cut, hlen, if_true, hcut', Option.some.injEq] at hqc
  have hpos : pb.qconstStart = pb.dstcallEnd + ((joinFields comma kept).length + 1) := by omega
  have hvia := htext _ (hl.copies_generated hpath rfl hcut)
  have hget : ∀ b, (joinFields comma (tcp ++ [[ch 'q', proto, type], call]))[1]? = some b →
      pb.data.getD pb.qconstStart 0 = b := by
    intro b hb
    rw [hpos]
    apply Pbuf.getD_of_viaText
    rw [hvia, List.getElem?_append_right (Nat.le_succ _), Nat.succ_sub (Nat.le_refl _),
      Nat.sub_self]
    exact hb
  obtain ⟨rfl, -⟩ | ⟨rfl | rfl, -⟩ := htcp
  · exact .inl (hget _ rfl)
  · exact .inr (hget _ rfl)
  · exact .inr (hget _ rfl)

end

/-- A packet that is queued is one for the filters, and its source callsign is valid. -/
theorem exists_filterPacket {env : IncomingEnv} {c : Client} {line : Bytes} {rc : Int} {pb : Pbuf}
    (hq : incomingParse env c line = .queued rc pb) (entrycallLen : Nat) (symbol : UInt8 × UInt8) :
    ∃ fp : FilterPacket, fp.toPbuf = pb ∧ fp.entrycallLen = entrycallLen ∧ fp.symbol = symbol ∧
      checkInvalidSrcDst fp.srccall = false := by
  obtain ⟨s, h, out, qc, cls, f, hp⟩ := queued_passage hq
  have hl := Loaded.of_parseHeader env.mem hp.header_eq
  have htext : ∀ via, Copies h s out via → pb.viaText = via ++ out.newQ := fun _ => hp.viaText_eq
  have hne : pb.data.getD pb.qconstStart 0 ≠ ch '*' := by
    cases hl.qProcess_ok hp.q_eq (by simp [hp.qconst_eq]) with
    | inl hkept =>
      rw [qconst_kept hl htext hp.dstcallEnd_eq hp.qconst_eq hp.qconstStart_eq hkept]
      decide
    | inr hgen =>
      obtain hb | hb := qconst_generated hl htext hp.dstcallEnd_eq hp.qconst_eq hp.qconstStart_eq
        hgen.2
      · rw [hb]
        decide
      · rw [hb]
        decide
  have hsrc : pb.srccall = h.src s := by
    obtain ⟨via, -, -, hdata⟩ := hl.exists_copies hp.q_eq (by simp [hp.qconst_eq])
    obtain ⟨flags, rfl⟩ := hp.pb_eq_with_flags
    have hlen := hl.admitted.srcLen_eq
    simp only [Pbuf.srccall, Pbuf.withAprs, QOut.pbuf, hdata, hlen, List.take_left]
  refine ⟨⟨pb, entrycallLen, symbol, hne⟩, rfl, rfl, rfl, ?_⟩
  exact hsrc ▸ hl.admitted.src_valid

end Aprsc
