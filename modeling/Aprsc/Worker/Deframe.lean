-- SUMMARY: The input buffer of a client: lines are handed over once and in order however the stream is cut into reads.
import Aprsc.Base.Bytes
import Aprsc.Base.Buffer
import Aprsc.Base.Lines
import Mathlib.Data.List.TakeWhile

/-!
# Deframing

What is read from a client is appended to its input buffer `ibuf`. The lines in the
buffer are handed to the line handler of the client, and what is left of it, the
start of a line, is moved to the start of the buffer.

The handler may change the state of the client, which is of any type, and the
buffer. Where the code reads or writes a field of the client, `use` is applied to the
state.
-/

namespace Aprsc

open Buffer

/-- CR or LF. -/
def isEol (b : UInt8) : Bool := b == 0x0D || b == 0x0A

/-- The input buffer of `struct client_t`. -/
structure Ibuf where
  ibuf : Bytes
  ibufEnd : Nat
deriving Repr, DecidableEq

/-- The bytes in the buffer. -/
def Ibuf.content (b : Ibuf) : Bytes := segment b.ibuf 0 b.ibufEnd

/-- The room that `read` is given. -/
def Ibuf.room (b : Ibuf) : Nat := b.ibuf.length - b.ibufEnd - 1

/-- What a function leaves behind: the state of the client, the memory of its input
buffer, and the return value. -/
structure Handled (W : Type) where
  state : W
  ibuf : Bytes
  rc : Int

/-- `handler_line_in`, for the line of length `len` at `start`. -/
abbrev LineHandler (W : Type) := W → (ibuf : Bytes) → (start len : Nat) → Handled W

section

variable {W : Type} (use : W → W) (handlerLineIn : LineHandler W)

/-- The line is fed forward, unless it is empty. -/
def feedLine (w : W) (ibuf : Bytes) (rowStart i : Nat) : Handled W :=
  if i - rowStart > 0 then handlerLineIn (use w) ibuf rowStart (i - rowStart) else ⟨w, ibuf, 0⟩

/-- The first position from `i` on that is not CR or LF. -/
def skipEol (ibuf : Bytes) (ibufEnd i : Nat) : Nat :=
  i + ((segment ibuf i ibufEnd).takeWhile isEol).length

/-- The loop of `deframe_aprsis_input_lines`. -/
def deframeLoop : (fuel : Nat) → W → Bytes → (ibufEnd i rowStart : Nat) → Handled W
  | 0, w, ibuf, _, _, rowStart => ⟨w, ibuf, rowStart⟩
  | fuel + 1, w, ibuf, ibufEnd, i, rowStart =>
      let w := use w
      if i < ibufEnd then
        if isEol (ibuf.getD i 0) then
          let r := feedLine use handlerLineIn w ibuf rowStart i
          if r.rc < 0 then { r with rc := -1 }
          else
            -- the first part of the EOL, which the handler might have changed, is skipped
            let i := skipEol r.ibuf ibufEnd (i + 1)
            deframeLoop fuel (use r.state) r.ibuf ibufEnd (i + 1) i
        else deframeLoop fuel w ibuf ibufEnd (i + 1) rowStart
      else ⟨w, ibuf, rowStart⟩

/-- `deframe_aprsis_input_lines`. -/
def deframeAprsisInputLines (w : W) (b : Ibuf) : Handled W :=
  deframeLoop use handlerLineIn (b.ibufEnd + 1) w b.ibuf b.ibufEnd 0 0

/-- A client whose input is read, with the bytes that were sent to it and not read yet. -/
structure Inflow (W : Type) where
  state : W
  buf : Ibuf
  unread : Bytes
  /-- `read` returned 0. -/
  eof : Bool
  /-- The value `deframe_aprsis_input_lines` returned last. -/
  consumed : Int
  /-- The value `client_postread` returned last. -/
  rc : Int

/-- `client_postread` from the return of `handler_consume_input` on. -/
def afterConsume (s : Inflow W) (ibufEnd : Nat) (d : Handled W) : Inflow W :=
  let s := { s with consumed := d.rc }
  if d.rc = -1 then { s with state := d.state, buf := ⟨d.ibuf, ibufEnd⟩, rc := -1 }
  else
    let s := { s with state := use d.state, rc := 0 }
    let consumed := d.rc.toNat
    if consumed ≥ ibufEnd then { s with buf := ⟨d.ibuf, 0⟩ }
    else if consumed > 0 then
      { s with buf := ⟨memmove d.ibuf consumed (ibufEnd - consumed), ibufEnd - consumed⟩ }
    else { s with buf := ⟨d.ibuf, ibufEnd⟩ }

/-- `client_postread`, after `r` bytes were read. -/
def clientPostread (s : Inflow W) (r : Nat) : Inflow W :=
  let ibufEnd := s.buf.ibufEnd + r
  afterConsume use s ibufEnd
    (deframeAprsisInputLines use handlerLineIn (use s.state) ⟨s.buf.ibuf, ibufEnd⟩)

/-- `handle_client_readable`, when the kernel is ready to hand over at most `n` bytes. -/
def handleClientReadable (s : Inflow W) (n : Nat) : Inflow W :=
  let chunk := s.unread.take (min n s.buf.room)
  if n = 0 ∨ s.unread.isEmpty then { s with rc := 0 }
  else if chunk.isEmpty then { s with eof := true, rc := -1 }
  else
    clientPostread use handlerLineIn
      { s with
        buf := { s.buf with ibuf := memcpy s.buf.ibuf s.buf.ibufEnd chunk }
        unread := s.unread.drop chunk.length }
      chunk.length

/-- Successive reads. -/
def Inflow.reads (s : Inflow W) (ns : List Nat) : Inflow W :=
  ns.foldl (handleClientReadable use handlerLineIn) s

end

/-- A client that has connected, with the memory of its buffer. -/
def Inflow.init {W : Type} (w : W) (mem stream : Bytes) : Inflow W := ⟨w, ⟨mem, 0⟩, stream, false, 0, 0⟩

/-! ## What handlers receive -/

section

variable {W : Type} (use : W → W) (handlerLineIn : LineHandler W)

/-- The handler, with a list of the lines that it has received. -/
def recording : LineHandler (W × List Bytes) := fun w ibuf start len =>
  let r := handlerLineIn w.1 ibuf start len
  ⟨(r.state, w.2 ++ [segment ibuf start (start + len)]), r.ibuf, r.rc⟩

/-- The use of a client does not change the lines. -/
def recordingUse : W × List Bytes → W × List Bytes := fun w => (use w.1, w.2)

/-- The handler does not change what comes after the terminator of the line, and when it
returns a negative value, the state is one where reading stops. -/
structure HandlerStops (Stop : W → Prop) : Prop where
  rc_or : ∀ w ibuf start len, 0 ≤ (handlerLineIn w ibuf start len).rc ∨
    Stop (handlerLineIn w ibuf start len).state
  length_eq : ∀ w ibuf start len, start + len < ibuf.length →
    (handlerLineIn w ibuf start len).ibuf.length = ibuf.length
  drop_eq : ∀ w ibuf start len, start + len < ibuf.length →
    (handlerLineIn w ibuf start len).ibuf.drop (start + len + 1) = ibuf.drop (start + len + 1)

/-- The handler accepts every line, and does not change what comes after the
terminator of the line. -/
structure HandlerOk : Prop where
  rc_nonneg : ∀ w ibuf start len, 0 ≤ (handlerLineIn w ibuf start len).rc
  length_eq : ∀ w ibuf start len, start + len < ibuf.length →
    (handlerLineIn w ibuf start len).ibuf.length = ibuf.length
  drop_eq : ∀ w ibuf start len, start + len < ibuf.length →
    (handlerLineIn w ibuf start len).ibuf.drop (start + len + 1) = ibuf.drop (start + len + 1)

variable {use} {handlerLineIn}

theorem HandlerOk.stops (hok : HandlerOk handlerLineIn) :
    HandlerStops handlerLineIn fun _ => False :=
  ⟨fun w ibuf start len => .inl (hok.rc_nonneg w ibuf start len), hok.length_eq, hok.drop_eq⟩

variable {Stop : W → Prop} (hok : HandlerStops handlerLineIn Stop)
include hok

/-- A line is handed over, unless it is empty. -/
theorem feedLine_spec (w : W × List Bytes) {ibuf : Bytes} {rowStart i : Nat} (hle : rowStart ≤ i)
    (hi : i < ibuf.length) :
    let r := feedLine (recordingUse use) (recording handlerLineIn) w ibuf rowStart i
    (0 ≤ r.rc ∨ Stop r.state.1) ∧ r.ibuf.length = ibuf.length ∧
      r.ibuf.drop (i + 1) = ibuf.drop (i + 1) ∧
      r.state.2 = w.2 ++
        if (segment ibuf rowStart i).isEmpty then [] else [segment ibuf rowStart i] := by
  unfold feedLine
  have hend : rowStart + (i - rowStart) = i := by omega
  have hlen : (segment ibuf rowStart i).length = i - rowStart := length_segment (Nat.le_of_lt hi)
  split
  next hpos =>
    have hne : (segment ibuf rowStart i).isEmpty = false := by
      rw [List.isEmpty_eq_false_iff, ← List.length_pos_iff, hlen]
      exact hpos
    have hdrop := hok.drop_eq (use w.1) ibuf rowStart (i - rowStart) (by omega)
    rw [hend] at hdrop
    refine ⟨hok.rc_or _ _ _ _, hok.length_eq _ _ _ _ (by omega), hdrop, ?_⟩
    simp only [recording, recordingUse, hend, hne, Bool.false_eq_true, if_false]
  next hpos =>
    have hnil : segment ibuf rowStart i = [] := List.length_eq_zero_iff.mp (by omega)
    simp [hnil]

omit hok in
theorem segment_skipEol (ibuf : Bytes) (ibufEnd i : Nat) :
    segment ibuf (skipEol ibuf ibufEnd i) ibufEnd = (segment ibuf i ibufEnd).dropWhile isEol := by
  unfold skipEol
  rw [← drop_segment]
  conv_lhs =>
    arg 2
    rw [← List.takeWhile_append_dropWhile (p := isEol) (l := segment ibuf i ibufEnd)]
  exact List.drop_left

omit hok in
theorem skipEol_le (ibuf : Bytes) {ibufEnd i : Nat} (hi : i ≤ ibufEnd) :
    skipEol ibuf ibufEnd i ≤ ibufEnd := by
  have hlen := (List.takeWhile_sublist isEol (l := segment ibuf i ibufEnd)).length_le
  have hseg : (segment ibuf i ibufEnd).length ≤ ibufEnd - i := by
    simp only [Buffer.segment, List.length_take]
    omega
  unfold skipEol
  omega

omit hok in
/-- The byte at a position splits what comes from there on. -/
theorem segment_eq_cons {ibuf : Bytes} {ibufEnd i : Nat} (hi : i < ibufEnd)
    (hend : ibufEnd ≤ ibuf.length) :
    segment ibuf i ibufEnd = ibuf.getD i 0 :: segment ibuf (i + 1) ibufEnd := by
  have hlt : i < ibuf.length := by omega
  have hn : ibufEnd - i = (ibufEnd - (i + 1)) + 1 := by omega
  rw [Buffer.segment, List.drop_eq_getElem_cons hlt, hn, List.take_succ_cons]
  simp [Buffer.segment, hlt]

omit hok in
theorem segment_one {ibuf : Bytes} {i : Nat} (hi : i < ibuf.length) :
    segment ibuf i (i + 1) = [ibuf.getD i 0] := by
  rw [segment_eq_cons (Nat.lt_succ_self i) hi, segment_self]

omit hok in
/-- After the line ends there is a byte of the next line, if there is any. -/
theorem free_skipEol (ibuf : Bytes) {ibufEnd i : Nat} (hi : i ≤ ibufEnd)
    (hend : ibufEnd ≤ ibuf.length) :
    ∀ x ∈ segment ibuf (skipEol ibuf ibufEnd i) (min (skipEol ibuf ibufEnd i + 1) ibufEnd),
      isEol x = false := by
  have hskip := skipEol_le ibuf hi
  have hnext := segment_skipEol ibuf ibufEnd i
  generalize skipEol ibuf ibufEnd i = j at hskip hnext ⊢
  cases Nat.lt_or_ge j ibufEnd with
  | inl hlt =>
    have hfirst := List.head?_dropWhile_not isEol (segment ibuf i ibufEnd)
    rw [← hnext, segment_eq_cons hlt hend] at hfirst
    rw [Nat.min_eq_left hlt, segment_one (by omega)]
    simpa using hfirst
  | inr hge =>
    have heq : j = ibufEnd := by omega
    simp [heq]

omit hok in
/-- Where there is no line left, the loop stops. -/
theorem deframe_stop {lines : List Bytes} {ibuf : Bytes} {ibufEnd rowStart : Nat}
    (hstart : rowStart ≤ ibufEnd)
    (hfree : ∀ x ∈ segment ibuf rowStart ibufEnd, isEol x = false) :
    lines = lines ++ streamLines isEol (segment ibuf rowStart ibufEnd) ∧
      ∃ row : Nat, (rowStart : Int) = row ∧ row ≤ ibufEnd ∧
        segment ibuf row ibufEnd = streamTail isEol (segment ibuf rowStart ibufEnd) := by
  rw [streamLines_of_free hfree, streamTail_of_free hfree]
  exact ⟨by simp, rowStart, rfl, hstart, rfl⟩

/-- The loop hands over the lines of what comes after `rowStart`, and stops where their
tail starts, or after a line that the handler did not accept. -/
theorem deframeLoop_spec {fuel : Nat} (w : W × List Bytes) {ibuf : Bytes} {ibufEnd i rowStart : Nat}
    (hfuel : ibufEnd < fuel + i) (hrow : rowStart ≤ i) (hstart : rowStart ≤ ibufEnd)
    (hend : ibufEnd ≤ ibuf.length)
    (hfree : ∀ x ∈ segment ibuf rowStart (min i ibufEnd), isEol x = false) :
    let d := deframeLoop (recordingUse use) (recording handlerLineIn) fuel w ibuf ibufEnd i rowStart
    (d.rc = -1 ∧ Stop d.state.1 ∧ ∃ lines, d.state.2 = w.2 ++ lines ∧
        lines <+: streamLines isEol (segment ibuf rowStart ibufEnd)) ∨
      d.ibuf.length = ibuf.length ∧
      d.state.2 = w.2 ++ streamLines isEol (segment ibuf rowStart ibufEnd) ∧
      ∃ row : Nat, d.rc = row ∧ row ≤ ibufEnd ∧
        segment d.ibuf row ibufEnd = streamTail isEol (segment ibuf rowStart ibufEnd) := by
  induction fuel generalizing w ibuf i rowStart with
  | zero =>
    rw [Nat.min_eq_right (by omega)] at hfree
    exact .inr ⟨rfl, deframe_stop hstart hfree⟩
  | succ fuel ih =>
    simp only [deframeLoop]
    split
    next hi =>
      rw [Nat.min_eq_left (Nat.le_of_lt hi)] at hfree
      split
      next heol =>
        have hline : segment ibuf rowStart ibufEnd =
            segment ibuf rowStart i ++ ibuf.getD i 0 :: segment ibuf (i + 1) ibufEnd := by
          rw [← segment_eq_cons hi hend, segment_append hrow (Nat.le_of_lt hi)]
        obtain ⟨hrc, hlen, hdrop, hlines⟩ :=
          @feedLine_spec _ use _ _ hok (recordingUse use w) ibuf _ _ hrow (by omega)
        generalize feedLine (recordingUse use) (recording handlerLineIn) (recordingUse use w) ibuf
          rowStart i = r at hrc hlen hdrop hlines ⊢
        rw [hline, streamLines_segment hfree _ heol, streamTail_append_cons _ _ heol]
        split
        next hneg =>
          -- the handler does not accept the line
          refine .inl ⟨rfl, hrc.resolve_left (by omega), _, hlines, ?_⟩
          exact List.prefix_append _ _
        next hnonneg =>
          -- what comes after the line is as it was, and starts with the next line
          have hnext := segment_skipEol r.ibuf ibufEnd (i + 1)
          have hafter : segment r.ibuf (i + 1) ibufEnd = segment ibuf (i + 1) ibufEnd := by
            rw [Buffer.segment, Buffer.segment, hdrop]
          rw [hafter] at hnext
          have hskip := skipEol_le r.ibuf (Nat.succ_le_of_lt hi)
          have hhead := free_skipEol r.ibuf (Nat.succ_le_of_lt hi) (by omega)
          have hij : i + 1 ≤ skipEol r.ibuf ibufEnd (i + 1) := Nat.le_add_right _ _
          generalize skipEol r.ibuf ibufEnd (i + 1) = j at hnext hskip hhead hij ⊢
          have hrest := ih (recordingUse use r.state) (by omega) (Nat.le_succ j) hskip (by omega) hhead
          rw [hnext, streamLines_dropWhile, streamTail_dropWhile] at hrest
          have hstate : (recordingUse use r.state).2 = w.2 ++
              if (segment ibuf rowStart i).isEmpty then [] else [segment ibuf rowStart i] := hlines
          rw [hstate] at hrest
          cases hrest with
          | inl hrest =>
            obtain ⟨hrc', hstop, lines, hlines', hpre⟩ := hrest
            rw [List.append_assoc] at hlines'
            exact .inl ⟨hrc', hstop, _, hlines', List.prefix_append_right_inj _ |>.mpr hpre⟩
          | inr hrest =>
            obtain ⟨hlen', hlines', hrow'⟩ := hrest
            rw [List.append_assoc] at hlines'
            exact .inr ⟨hlen'.trans hlen, hlines', hrow'⟩
      next heol =>
        have hfree' : ∀ x ∈ segment ibuf rowStart (min (i + 1) ibufEnd), isEol x = false := by
          rw [Nat.min_eq_left hi, ← segment_append hrow (Nat.le_succ i), segment_one (by omega)]
          intro x hx
          rw [List.mem_append, List.mem_singleton] at hx
          cases hx with
          | inl hx => exact hfree x hx
          | inr hx => simpa [hx] using heol
        exact ih (recordingUse use w) (by omega) (by omega) hstart hend hfree'
    next hi =>
      rw [Nat.min_eq_right (by omega)] at hfree
      exact .inr ⟨rfl, deframe_stop hstart hfree⟩

omit hok in
/-- What was not consumed stays in the buffer. -/
theorem afterConsume_spec (s : Inflow W) {e row : Nat} {d : Handled W} (hrc : d.rc = row)
    (hrow : row ≤ e) (hend : e ≤ d.ibuf.length) :
    let s' := afterConsume use s e d
    s'.state = use d.state ∧ s'.buf.content = segment d.ibuf row e ∧
      s'.buf.ibuf.length = d.ibuf.length ∧ s'.buf.ibufEnd ≤ e ∧
      s'.unread = s.unread ∧ s'.eof = s.eof := by
  simp only [afterConsume]
  rw [if_neg (by omega), hrc, Int.toNat_natCast]
  split
  next hall =>
    have heq : row = e := by omega
    subst heq
    exact ⟨rfl, by simp [Ibuf.content], rfl, Nat.zero_le _, rfl, rfl⟩
  next =>
    split
    next =>
      have hle : row + (e - row) ≤ d.ibuf.length := by omega
      refine ⟨rfl, ?_, length_memmove hle, Nat.sub_le _ _, rfl, rfl⟩
      simp only [Ibuf.content]
      rw [segment_memmove hle]
      congr 1
      omega
    next hzero =>
      have heq : row = 0 := by omega
      subst heq
      exact ⟨rfl, rfl, rfl, Nat.le_refl _, rfl, rfl⟩

/-- The lines of what is in the buffer are handed over, and their tail stays in it, or
reading stops after a line that the handler did not accept. -/
theorem clientPostread_spec {s : Inflow (W × List Bytes)} {r : Nat}
    (hend : s.buf.ibufEnd + r ≤ s.buf.ibuf.length) :
    let s' := clientPostread (recordingUse use) (recording handlerLineIn) s r
    let arrived := segment s.buf.ibuf 0 (s.buf.ibufEnd + r)
    s'.unread = s.unread ∧ s'.eof = s.eof ∧
      ((Stop s'.state.1 ∧ ∃ lines, s'.state.2 = s.state.2 ++ lines ∧
          lines <+: streamLines isEol arrived) ∨
        s'.state.2 = s.state.2 ++ streamLines isEol arrived ∧
        s'.buf.content = streamTail isEol arrived ∧
        s'.buf.ibuf.length = s.buf.ibuf.length ∧ s'.buf.ibufEnd ≤ s.buf.ibufEnd + r) := by
  have hloop := @deframeLoop_spec _ use _ _ hok (s.buf.ibufEnd + r + 1) (recordingUse use s.state)
    s.buf.ibuf (s.buf.ibufEnd + r) 0 0 (by omega) (Nat.le_refl 0) (Nat.zero_le _) hend (by simp)
  simp only [clientPostread, deframeAprsisInputLines]
  cases hloop with
  | inl hstop =>
    obtain ⟨hrc, hstop, lines, hlines, hpre⟩ := hstop
    simp only [afterConsume]
    rw [if_pos hrc]
    exact ⟨rfl, rfl, .inl ⟨hstop, lines, hlines, hpre⟩⟩
  | inr hgo =>
    obtain ⟨hlen, hlines, row, hrc, hrow, htail⟩ := hgo
    obtain ⟨hstate, hcontent, hlen', hend', hunread, heof⟩ :=
      @afterConsume_spec _ (recordingUse use) s _ _ _ hrc hrow (by omega)
    refine ⟨hunread, heof, .inr ⟨?_, hcontent.trans htail, hlen'.trans hlen, hend'⟩⟩
    rw [hstate]
    exact hlines

end

/-! ## Every way of reading a stream -/

/-- What has been read of the stream was handed over, but for the tail in the buffer. -/
structure Inflow.Framed {W : Type} (stream : Bytes) (size : Nat) (read : Bytes)
    (s : Inflow (W × List Bytes)) : Prop where
  stream_eq : stream = read ++ s.unread
  lines_eq : s.state.2 = streamLines isEol read
  content_eq : s.buf.content = streamTail isEol read
  size_eq : s.buf.ibuf.length = size
  end_le : s.buf.ibufEnd ≤ size
  open_eq : s.eof = false

/-- Every line fits in the buffer with its terminator, and one byte is left. -/
structure LinesFit (stream : Bytes) (size : Nat) : Prop where
  size_ge : 2 ≤ size
  lines : ∀ line ∈ streamLines isEol stream, line.length + 1 ≤ size - 1
  tail : (streamTail isEol stream).length ≤ size - 1

/-- There is room for what comes next. -/
theorem LinesFit.room {read rest : Bytes} {size : Nat} (h : LinesFit (read ++ rest) size)
    (hrest : rest ≠ []) : (streamTail isEol read).length + 2 ≤ size := by
  have hsize := h.size_ge
  have hfree := streamTail_free isEol read
  have hsplit := List.takeWhile_append_dropWhile (p := (! isEol ·)) (l := rest)
  have hrow : ∀ x ∈ rest.takeWhile (! isEol ·), isEol x = false := by
    intro x hx
    simpa using List.mem_takeWhile_imp hx
  have hlines := h.lines
  have htail := h.tail
  rw [streamLines_append] at hlines
  rw [streamTail_append] at htail
  have hfront : ∀ x ∈ streamTail isEol read ++ rest.takeWhile (! isEol ·), isEol x = false := by
    intro x hx
    rw [List.mem_append] at hx
    exact hx.elim (hfree x) (hrow x)
  generalize streamTail isEol read = t at hfront hlines htail ⊢
  cases hd : rest.dropWhile (! isEol ·) with
  | nil =>
    -- the stream ends without another line
    rw [hd, List.append_nil] at hsplit
    rw [hsplit] at hfront
    rw [streamTail_of_free hfront, List.length_append] at htail
    have := List.length_pos_of_ne_nil hrest
    omega
  | cons sep after =>
    have hsep : isEol sep = true := by
      have := List.head?_dropWhile_not (! isEol ·) rest
      rw [hd] at this
      simpa using this
    rw [hd] at hsplit
    rw [← hsplit, ← List.append_assoc, streamLines_segment hfront after hsep] at hlines
    cases ht : t ++ rest.takeWhile (! isEol ·) with
    | nil =>
      have hnil : t = [] := (List.append_eq_nil_iff.mp ht).1
      simpa [hnil] using hsize
    | cons x xs =>
      have hline := hlines (t ++ rest.takeWhile (! isEol ·)) (by simp [ht])
      rw [List.length_append] at hline
      omega

section

variable {W : Type} {use : W → W} {handlerLineIn : LineHandler W} {Stop : W → Prop}
  {stream read : Bytes} {size : Nat} {s : Inflow (W × List Bytes)}
  (hok : HandlerStops handlerLineIn Stop)
include hok

/-- One read keeps the stream framed, or the buffer is full, or reading stops and no line
was handed over twice. -/
theorem handleClientReadable_framed (h : s.Framed stream size read) (n : Nat) :
    let s' := handleClientReadable (recordingUse use) (recording handlerLineIn) s n
    (Stop s'.state.1 ∧ s'.state.2 <+: streamLines isEol stream) ∨
      (s.unread ≠ [] ∧ s.buf.room = 0 ∧ s' = { s with eof := true, rc := -1 }) ∨
      ∃ chunk, s'.Framed stream size (read ++ chunk) ∧ (0 < n → s.unread ≠ [] → chunk ≠ []) := by
  unfold handleClientReadable
  simp only
  split
  next hnone =>
    refine .inr (.inr ⟨[], ⟨?_, ?_, ?_, h.size_eq, h.end_le, h.open_eq⟩, ?_⟩)
    · simpa using h.stream_eq
    · simpa using h.lines_eq
    · simpa using h.content_eq
    · intro hn hne
      cases hnone with
      | inl hzero => omega
      | inr hnil => exact absurd (List.isEmpty_iff.mp hnil) hne
  next hsome =>
    have hne : s.unread ≠ [] := fun hnil => hsome (.inr (by simp [hnil]))
    have hn : 0 < n := by omega
    have hchunk : s.unread.take (min n s.buf.room) = [] ↔ s.buf.room = 0 := by
      simp only [List.take_eq_nil_iff, hne, or_false]
      omega
    have hlen : (s.unread.take (min n s.buf.room)).length ≤ size - s.buf.ibufEnd - 1 := by
      rw [← h.size_eq, List.length_take]
      unfold Ibuf.room
      omega
    have hunread : s.unread = s.unread.take (min n s.buf.room) ++
        s.unread.drop (s.unread.take (min n s.buf.room)).length :=
      (List.prefix_iff_eq_append.mp (List.take_prefix _ _)).symm
    generalize s.unread.take (min n s.buf.room) = chunk at hchunk hlen hunread ⊢
    by_cases hfull : chunk = []
    · rw [if_pos (List.isEmpty_iff.mpr hfull)]
      exact .inr (.inl ⟨hne, hchunk.mp hfull, rfl⟩)
    rw [if_neg (by simpa using hfull)]
    have hsize := h.size_eq
    have hend := h.end_le
    have hbuf : s.buf.ibufEnd + chunk.length ≤ s.buf.ibuf.length := by omega
    have hcopy := length_memcpy hbuf
    -- the buffer holds the tail of what was read before, and the new bytes
    have harrived : segment (memcpy s.buf.ibuf s.buf.ibufEnd chunk) 0
        (s.buf.ibufEnd + chunk.length) = streamTail isEol read ++ chunk := by
      rw [← segment_append (Nat.zero_le s.buf.ibufEnd) (Nat.le_add_right _ _),
        segment_memcpy (by omega), segment_memcpy_of_le (Nat.le_refl _) (by omega)]
      exact congrArg (· ++ chunk) h.content_eq
    have hstream : stream = read ++ chunk ++ s.unread.drop chunk.length := by
      rw [List.append_assoc, ← hunread]
      exact h.stream_eq
    obtain ⟨hunread', heof, hpost⟩ :=
      @clientPostread_spec _ use _ _ hok
        { s with
          buf := { s.buf with ibuf := memcpy s.buf.ibuf s.buf.ibufEnd chunk }
          unread := s.unread.drop chunk.length }
        chunk.length (by simp only [hcopy]; exact hbuf)
    simp only [harrived, h.lines_eq] at hpost
    cases hpost with
    | inl hstop =>
      obtain ⟨hstop, lines, hlines, hpre⟩ := hstop
      refine .inl ⟨hstop, ?_⟩
      rw [hlines, hstream, streamLines_append, streamLines_append]
      exact ((List.prefix_append_right_inj _).mpr hpre).trans (List.prefix_append _ _)
    | inr hgo =>
      obtain ⟨hlines, hcontent, hlen', hend'⟩ := hgo
      refine .inr (.inr ⟨chunk, ⟨?_, ?_, ?_, ?_, ?_, ?_⟩, fun _ _ => hfull⟩)
      · rw [hunread']
        exact hstream
      · rw [streamLines_append]
        exact hlines
      · rw [streamTail_append]
        exact hcontent
      · exact hlen'.trans (hcopy.trans hsize)
      · exact hend'.trans (show s.buf.ibufEnd + chunk.length ≤ size by omega)
      · rw [heof]
        exact h.open_eq

end

section

variable {W : Type} {use : W → W} {handlerLineIn : LineHandler W} {stream read : Bytes} {size : Nat}
  {s : Inflow (W × List Bytes)} (hok : HandlerOk handlerLineIn) (hfit : LinesFit stream size)
include hok hfit

theorem reads_framed (ns : List Nat) (h : s.Framed stream size read) :
    ∃ chunk, (s.reads (recordingUse use) (recording handlerLineIn) ns).Framed stream size
        (read ++ chunk) ∧ ((∀ n ∈ ns, 0 < n) → s.unread.length ≤ ns.length →
          (s.reads (recordingUse use) (recording handlerLineIn) ns).unread = []) := by
  induction ns generalizing s read with
  | nil =>
    refine ⟨[], ?_, fun _ hlen => ?_⟩
    · rw [List.append_nil]
      exact h
    · exact List.length_eq_zero_iff.mp (Nat.le_zero.mp hlen)
  | cons n ns ih =>
    -- the buffer is never full
    have hroom : s.unread ≠ [] → s.buf.room ≠ 0 := by
      intro hne hzero
      have hroom := (h.stream_eq ▸ hfit).room hne
      have hsize := h.size_eq
      have hend := h.end_le
      rw [← h.content_eq, Ibuf.content, length_segment (by omega)] at hroom
      unfold Ibuf.room at hzero
      omega
    obtain ⟨chunk, hstep, hmoves⟩ :=
      ((@handleClientReadable_framed _ use _ _ _ _ _ _ hok.stops h n).resolve_left
        fun h => h.1).resolve_left fun h => hroom h.1 h.2.1
    obtain ⟨more, hrun, hempty⟩ := ih hstep
    refine ⟨chunk ++ more, ?_, fun hpos hlen => ?_⟩
    · rw [← List.append_assoc]
      exact hrun
    · apply hempty fun k hk => hpos k (List.mem_cons_of_mem n hk)
      -- a read takes at least one byte of what is there
      have heq := h.stream_eq.symm.trans hstep.stream_eq
      rw [List.append_assoc, List.append_cancel_left_eq] at heq
      have hlen' := congrArg List.length heq
      rw [List.length_append] at hlen'
      simp only [List.length_cons] at hlen
      cases hu : s.unread with
      | nil =>
        rw [hu] at hlen'
        simp only [List.length_nil] at hlen'
        omega
      | cons x xs =>
        have := List.length_pos_of_ne_nil (hmoves (hpos n List.mem_cons_self) (by simp [hu]))
        omega

end

/-- However a stream is cut into reads, the handler has received the lines of what was
read, each once and in order, and the buffer holds their tail. When as many reads as
there are bytes each bring something, the whole stream is read. -/
theorem deframe_chunk_independent {W : Type} (use : W → W) (handlerLineIn : LineHandler W) (w : W)
    (mem stream : Bytes) (ns : List Nat) (hok : HandlerOk handlerLineIn)
    (hfit : LinesFit stream mem.length) :
    let s := (Inflow.init (w, []) mem stream).reads (recordingUse use) (recording handlerLineIn) ns
    ∃ read, stream = read ++ s.unread ∧ s.state.2 = streamLines isEol read ∧
      s.buf.content = streamTail isEol read ∧ s.eof = false ∧
      ((∀ n ∈ ns, 0 < n) → stream.length ≤ ns.length → s.unread = []) := by
  have hinit : (Inflow.init (w, ([] : List Bytes)) mem stream).Framed stream mem.length [] :=
    ⟨rfl, rfl, rfl, rfl, Nat.zero_le _, rfl⟩
  obtain ⟨read, hframed, hempty⟩ := @reads_framed _ use _ _ _ _ _ hok hfit ns hinit
  exact ⟨read, hframed.stream_eq, hframed.lines_eq, hframed.content_eq, hframed.open_eq, hempty⟩

/-- A handler that ends each line with a NUL, as the handlers for logins do. -/
private def nulHandler : LineHandler Nat := fun w ibuf start len =>
  ⟨w + 1, ibuf.set (start + len) 0, 0⟩

/-- A stream with CRLF, where the two bytes come in different reads. -/
theorem deframe_split_crlf :
    ∃ read, (ascii "user" ++ [0x0D, 0x0A, 0x0A] ++ ascii "pass" ++ [0x0D] ++ ascii "ve") =
        read ++ [] ∧ streamLines isEol read = [ascii "user", ascii "pass"] := by
  have hok : HandlerOk nulHandler := by
    refine ⟨fun _ _ _ _ => Int.le_refl 0, fun _ _ _ _ _ => List.length_set, ?_⟩
    intro _ ibuf start len _
    exact List.drop_set_of_lt (Nat.lt_succ_self _)
  have hfit : LinesFit (ascii "user" ++ [0x0D, 0x0A, 0x0A] ++ ascii "pass" ++ [0x0D] ++ ascii "ve")
      (List.replicate 16 (0 : UInt8)).length := ⟨by decide, by decide, by decide⟩
  obtain ⟨read, hread, hlines, -⟩ := deframe_chunk_independent id nulHandler 0 (List.replicate 16 0)
    (ascii "user" ++ [0x0D, 0x0A, 0x0A] ++ ascii "pass" ++ [0x0D] ++ ascii "ve") [3, 2, 1, 9]
    hok hfit
  exact ⟨read, hread, hlines.symm⟩

end Aprsc
