-- SUMMARY: The output buffer of a client: what the kernel took and what is buffered is all that was written, in order.
import Aprsc.Base.Bytes
import Aprsc.Base.Buffer

/-!
# Output buffers

Data for a client is appended to its output buffer `obuf`. It goes out to the
kernel from two places: from `tcp_client_write`, when the buffer is over its flush
size, and when the poller finds the socket writable. The kernel may take any part
of what is offered, or nothing.
-/

namespace Aprsc

open Buffer

/-! ## The buffer -/

/-- The output buffer of `struct client_t`. -/
structure Obuf where
  obuf : Bytes
  obufStart : Int
  obufEnd : Int
  obufFlushsize : Int
deriving Repr, DecidableEq

/-- `obuf_size`. -/
def Obuf.obufSize (o : Obuf) : Int := o.obuf.length

/-- `obuf[obuf_start..obuf_end)`. -/
def Obuf.pending (o : Obuf) : Bytes := segment o.obuf o.obufStart.toNat o.obufEnd.toNat

/-- `client_buffer_outgoing_allocate`: the buffer with room for `len` bytes at its
end, if they fit. -/
def clientBufferOutgoingAllocate (o : Obuf) (len : Int) : Option Obuf :=
  if o.obufEnd + len > o.obufSize then
    if len > o.obufSize - (o.obufEnd - o.obufStart) then none
    else
      some { o with
        obuf :=
          if o.obufStart > 0 then memmove o.obuf o.obufStart.toNat (o.obufEnd - o.obufStart).toNat
          else o.obuf
        obufEnd := o.obufEnd - o.obufStart
        obufStart := 0 }
  else some o

/-- `client_buffer_outgoing_data`. The client is closed with -12 when the data does
not fit. -/
def clientBufferOutgoingData (o : Obuf) (p : Bytes) : Option Obuf :=
  match clientBufferOutgoingAllocate o p.length with
  | none => none
  | some o =>
      some { o with
        obuf := if p.length > 0 then memcpy o.obuf o.obufEnd.toNat p else o.obuf
        obufEnd := o.obufEnd + p.length }

/-! ## Writing to the kernel -/

/-- What `write` returns. -/
inductive WriteResult where
  /-- So many bytes were taken, but not more than were offered. -/
  | wrote (n : Nat)
  | eintr
  /-- Also `EWOULDBLOCK`. -/
  | eagain
  | epipe
  | error
deriving Repr, DecidableEq

/-- A client with its output buffer, and the bytes that the kernel has accepted. -/
structure Conn where
  out : Obuf
  accepted : Bytes
  /-- Packets go to the client over UDP: `c->udp_port && c->udpclient`. -/
  udp : Bool
deriving Repr, DecidableEq

/-- The kernel takes `n` bytes of what is pending. -/
def Conn.sent (c : Conn) (n : Nat) : Conn :=
  { c with
    out := { c.out with obufStart := c.out.obufStart + min n c.out.pending.length }
    accepted := c.accepted ++ c.out.pending.take n }

/-- The end of a function that writes to a client. -/
inductive Written where
  /-- The client is still there. -/
  | kept (rc : Int) (c : Conn)
  /-- The client was closed, and its structure freed. -/
  | closed (rc : Int)
  /-- `write` was interrupted every time so far. -/
  | retrying
deriving Repr, DecidableEq

/-- The result of the first `write` that was not interrupted. -/
def writeRetry2 : List WriteResult → Option WriteResult
  | [] => none
  | .eintr :: results => writeRetry2 results
  | r :: _ => some r

/-- An output buffer that is empty starts over. -/
def Obuf.allDone (o : Obuf) : Obuf :=
  if o.obufStart ≥ o.obufEnd then { o with obufStart := 0, obufEnd := 0 } else o

/-- `tcp_client_write`. `results` are the results of the calls of `write` and `sendto`
is the result of `udp_client_write`. -/
def tcpClientWrite (results : List WriteResult) (sendto : Int) (c : Conn) (p : Bytes) : Written :=
  if c.udp ∧ p.length > 0 ∧ p.head? ≠ some (ch '#') then .kept sendto c
  else match clientBufferOutgoingData c.out p with
  | none => .closed (-12)
  | some o =>
      let c := { c with out := o }
      if o.obufEnd > o.obufFlushsize ∨ p.length = 0 ∧ o.obufEnd > o.obufStart then
        match writeRetry2 results with
        | none => .retrying
        | some .epipe => .closed (-9)
        | some .eagain => .kept (-1) c
        | some (.wrote n) =>
            .kept p.length { c.sent n with out := (c.sent n).out.allDone }
        | some _ =>
            if p.length ≠ 0 then .closed (-11)
            else .kept p.length { c with out := o.allDone }
      else .kept p.length { c with out := o.allDone }

/-- `handle_client_writable`. -/
def handleClientWritable (result : WriteResult) (c : Conn) : Written :=
  match result with
  | .eintr => .kept 0 c
  | .eagain => .kept 0 c
  | .epipe => .closed (-1)
  | .error => .closed (-1)
  | .wrote n =>
      let o := (c.sent n).out
      .kept 0 { c.sent n with
        out := if o.obufStart = o.obufEnd then { o with obufStart := 0, obufEnd := 0 } else o }

/-- The output part of `handle_client_event`, for a socket that is writable. -/
def handleClientEvent (result : WriteResult) (c : Conn) : Written :=
  if c.out.obufStart = c.out.obufEnd then
    .kept 0 { c with out := { c.out with obufStart := 0, obufEnd := 0 } }
  else handleClientWritable result c

/-! ## Runs -/

/-- What happens to the output of a client. -/
inductive OutEvent where
  | write (p : Bytes) (results : List WriteResult) (sendto : Int)
  | writable (result : WriteResult)
  /-- The keepalive manager changes the flush size. -/
  | flushsize (n : Int)
deriving Repr, DecidableEq

/-- The data passed to `tcp_client_write`. -/
def OutEvent.data : OutEvent → Bytes
  | .write p _ _ => p
  | _ => []

/-- The client after an event, as long as it is not closed. -/
def Written.conn? : Written → Option Conn
  | .kept _ c => some c
  | _ => none

def Conn.step (c : Conn) : OutEvent → Option Conn
  | .write p results sendto => (tcpClientWrite results sendto c p).conn?
  | .writable result => (handleClientEvent result c).conn?
  | .flushsize n => some { c with out := { c.out with obufFlushsize := n } }

def Conn.run (c : Conn) : List OutEvent → Option Conn
  | [] => some c
  | e :: es => do
      let c ← c.step e
      c.run es

/-- A client that has connected, with the memory of its buffer. -/
def Conn.init (mem : Bytes) : Conn := ⟨⟨mem, 0, 0, 0⟩, [], false⟩

/-! ## The buffer operations -/

/-- The offsets of a buffer are in order. -/
structure Obuf.Wf (o : Obuf) : Prop where
  start_nonneg : 0 ≤ o.obufStart
  start_le_end : o.obufStart ≤ o.obufEnd
  end_le_size : o.obufEnd ≤ o.obufSize

theorem Obuf.Wf.length_pending {o : Obuf} (h : o.Wf) :
    (o.pending.length : Int) = o.obufEnd - o.obufStart := by
  have h1 := h.start_nonneg
  have h2 := h.start_le_end
  have h3 := h.end_le_size
  unfold Obuf.obufSize at h3
  rw [Obuf.pending, length_segment (by omega)]
  omega

/-- The offsets of a buffer as natural numbers. -/
theorem Obuf.Wf.exists_nat {o : Obuf} (h : o.Wf) :
    ∃ start n : Nat, o.obufStart = start ∧ o.obufEnd = ((start + n : Nat) : Int) ∧
      start + n ≤ o.obuf.length := by
  have h1 := h.start_nonneg
  have h2 := h.start_le_end
  have h3 := h.end_le_size
  unfold Obuf.obufSize at h3
  exact ⟨o.obufStart.toNat, (o.obufEnd - o.obufStart).toNat, by omega, by omega, by omega⟩

/-- Making room changes neither what is pending nor the size of the buffer. -/
theorem clientBufferOutgoingAllocate_spec {o o' : Obuf} {len : Nat} (h : o.Wf)
    (hok : clientBufferOutgoingAllocate o len = some o') :
    o'.Wf ∧ o'.pending = o.pending ∧ o'.obufSize = o.obufSize ∧ o'.obufEnd + len ≤ o'.obufSize := by
  unfold clientBufferOutgoingAllocate at hok
  split at hok
  next =>
    split at hok
    next => cases hok
    next hroom =>
      cases hok
      obtain ⟨start, n, hstart, hend, hle⟩ := h.exists_nat
      have hn : o.obufEnd - o.obufStart = n := by omega
      unfold Obuf.obufSize at *
      -- the pending bytes are moved to the start, unless they are there already
      have hmove : ∃ buf : Bytes, (if o.obufStart > 0 then memmove o.obuf o.obufStart.toNat
            (o.obufEnd - o.obufStart).toNat else o.obuf) = buf ∧
          buf.length = o.obuf.length ∧ segment buf 0 n = o.pending := by
        rw [hn]
        simp only [Obuf.pending, hstart, hend, Int.toNat_natCast]
        split
        next => exact ⟨_, rfl, length_memmove hle, segment_memmove hle⟩
        next hzero =>
          have hzero : start = 0 := by omega
          exact ⟨_, rfl, rfl, by rw [hzero, Nat.zero_add]⟩
      obtain ⟨buf, hbuf, hlen, hseg⟩ := hmove
      rw [hbuf, hn]
      simp only [Obuf.pending, Int.toNat_natCast, hlen]
      refine ⟨⟨Int.le_refl 0, Int.natCast_nonneg n, ?_⟩, hseg, trivial, by omega⟩
      simp only [Obuf.obufSize, hlen]
      omega
  next hroom =>
    cases hok
    exact ⟨h, rfl, rfl, by omega⟩

/-- Data is appended to what is pending. -/
theorem clientBufferOutgoingData_spec {o o' : Obuf} {p : Bytes} (h : o.Wf)
    (hok : clientBufferOutgoingData o p = some o') :
    o'.Wf ∧ o'.pending = o.pending ++ p ∧ o'.obufSize = o.obufSize := by
  unfold clientBufferOutgoingData at hok
  split at hok
  next => cases hok
  next o₁ halloc =>
    obtain ⟨hwf, hpending, hsize, hroom⟩ := clientBufferOutgoingAllocate_spec h halloc
    cases hok
    rw [← hpending, ← hsize]
    obtain ⟨start, n, hstart, he, -⟩ := hwf.exists_nat
    unfold Obuf.obufSize at *
    have hle : start + n + p.length ≤ o₁.obuf.length := by omega
    have hcopy : (if p.length > 0 then memcpy o₁.obuf o₁.obufEnd.toNat p else o₁.obuf) =
        memcpy o₁.obuf (start + n) p := by
      rw [he, Int.toNat_natCast]
      split
      next => rfl
      next hnil =>
        have hnil : p = [] := List.length_eq_zero_iff.mp (by omega)
        simp [hnil, memcpy]
    rw [hcopy]
    refine ⟨⟨hwf.start_nonneg, by simp only; omega, ?_⟩, ?_, ?_⟩
    · simp only [Obuf.obufSize, length_memcpy hle]
      omega
    · have hend : (o₁.obufEnd + p.length).toNat = start + n + p.length := by omega
      simp only [Obuf.pending]
      rw [hstart, hend, he, Int.toNat_natCast, Int.toNat_natCast, ← segment_append (Nat.le_add_right start n) (Nat.le_add_right (start + n) p.length),
        segment_memcpy (by omega), segment_memcpy_of_le (Nat.le_refl _) (by omega)]
    · rw [length_memcpy hle]

/-- What the kernel took is no longer pending. -/
theorem Conn.sent_spec {c : Conn} {n : Nat} (h : c.out.Wf) :
    (c.sent n).out.Wf ∧
      (c.sent n).accepted ++ (c.sent n).out.pending = c.accepted ++ c.out.pending ∧
      (c.sent n).out.obufSize = c.out.obufSize := by
  have h1 := h.start_nonneg
  have h2 := h.start_le_end
  have hlen := h.length_pending
  have hrest : (c.sent n).out.pending = c.out.pending.drop n := by
    cases Nat.le_total n c.out.pending.length with
    | inl hn =>
      have hstart : (c.out.obufStart + (min n c.out.pending.length : Nat)).toNat =
          c.out.obufStart.toNat + n := by omega
      simp only [Conn.sent, Obuf.pending] at hstart ⊢
      rw [hstart, drop_segment]
    | inr hn =>
      have hstart : c.out.obufStart + (min n c.out.pending.length : Nat) = c.out.obufEnd := by omega
      rw [List.drop_eq_nil_of_le hn]
      simp only [Conn.sent, Obuf.pending] at hstart ⊢
      rw [hstart, segment_self]
  refine ⟨⟨?_, ?_, h.end_le_size⟩, ?_, rfl⟩
  · simp only [Conn.sent]
    omega
  · simp only [Conn.sent]
    omega
  · rw [hrest]
    simp [Conn.sent]

/-- A buffer with nothing pending starts over. -/
theorem Obuf.reset_spec {o : Obuf} (hempty : o.obufStart = o.obufEnd) :
    Obuf.Wf { o with obufStart := 0, obufEnd := 0 } ∧
      Obuf.pending { o with obufStart := 0, obufEnd := 0 } = o.pending := by
  have hsize : 0 ≤ o.obufSize := Int.natCast_nonneg _
  exact ⟨⟨Int.le_refl 0, Int.le_refl 0, hsize⟩, by simp [Obuf.pending, hempty]⟩

theorem Obuf.allDone_spec {o : Obuf} (h : o.Wf) :
    o.allDone.Wf ∧ o.allDone.pending = o.pending ∧ o.allDone.obufSize = o.obufSize := by
  unfold Obuf.allDone
  split
  next hge =>
    have hempty : o.obufStart = o.obufEnd := Int.le_antisymm h.start_le_end hge
    exact ⟨(Obuf.reset_spec hempty).1, (Obuf.reset_spec hempty).2, rfl⟩
  next => exact ⟨h, rfl, rfl⟩

/-! ## Nothing is lost -/

/-- The offsets are in order, and what was accepted and what is pending is the data
that was given to the client. -/
structure Conn.Fifo (size : Int) (given : Bytes) (c : Conn) : Prop where
  wf : c.out.Wf
  size_eq : c.out.obufSize = size
  data_eq : c.accepted ++ c.out.pending = given
  tcp : c.udp = false

variable {size : Int} {given : Bytes} {c c' : Conn}

/-- The buffer starts over, or is left as it is. -/
theorem Conn.Fifo.allDone (h : c.Fifo size given) :
    Conn.Fifo size given { c with out := c.out.allDone } := by
  obtain ⟨hwf, hpending, hsize⟩ := Obuf.allDone_spec h.wf
  exact ⟨hwf, hsize.trans h.size_eq, by rw [hpending, h.data_eq], h.tcp⟩

/-- The kernel takes a part of the data. -/
theorem Conn.Fifo.sent (h : c.Fifo size given) (n : Nat) : (c.sent n).Fifo size given := by
  obtain ⟨hwf, hdata, hsize⟩ := Conn.sent_spec h.wf
  exact ⟨hwf, hsize.trans h.size_eq, by rw [hdata, h.data_eq], h.tcp⟩

theorem tcpClientWrite_fifo {results : List WriteResult} {sendto rc : Int} {p : Bytes}
    (h : c.Fifo size given) (hok : tcpClientWrite results sendto c p = .kept rc c') :
    c'.Fifo size (given ++ p) := by
  have hudp : ¬ (c.udp = true ∧ p.length > 0 ∧ p.head? ≠ some (ch '#')) := by simp [h.tcp]
  unfold tcpClientWrite at hok
  rw [if_neg hudp] at hok
  split at hok
  next => cases hok
  next o hdata =>
    obtain ⟨hwf, hpending, hsize⟩ := clientBufferOutgoingData_spec h.wf hdata
    have hbuf : Conn.Fifo size (given ++ p) { c with out := o } :=
      ⟨hwf, hsize.trans h.size_eq, by rw [hpending, ← List.append_assoc, h.data_eq], h.tcp⟩
    split at hok
    next =>
      split at hok
      next => cases hok
      next => cases hok
      next =>
        cases hok
        exact hbuf
      next n _ =>
        cases hok
        exact (hbuf.sent n).allDone
      next =>
        split at hok
        next => cases hok
        next =>
          cases hok
          exact hbuf.allDone
    next =>
      cases hok
      exact hbuf.allDone

theorem handleClientWritable_fifo {result : WriteResult} {rc : Int} (h : c.Fifo size given)
    (hok : handleClientWritable result c = .kept rc c') : c'.Fifo size given := by
  cases result with
  | eintr =>
    cases hok
    exact h
  | eagain =>
    cases hok
    exact h
  | epipe => cases hok
  | error => cases hok
  | wrote n =>
    have hsent := h.sent n
    simp only [handleClientWritable] at hok
    cases hok
    split
    next hempty =>
      obtain ⟨hwf, hpending⟩ := Obuf.reset_spec hempty
      exact ⟨hwf, hsent.size_eq, by rw [hpending]; exact hsent.data_eq, hsent.tcp⟩
    next => exact hsent

theorem handleClientEvent_fifo {result : WriteResult} {rc : Int} (h : c.Fifo size given)
    (hok : handleClientEvent result c = .kept rc c') : c'.Fifo size given := by
  unfold handleClientEvent at hok
  split at hok
  next hempty =>
    cases hok
    obtain ⟨hwf, hpending⟩ := Obuf.reset_spec hempty
    exact ⟨hwf, h.size_eq, by rw [hpending]; exact h.data_eq, h.tcp⟩
  next => exact handleClientWritable_fifo h hok

theorem Conn.step_fifo {e : OutEvent} (h : c.Fifo size given) (hok : c.step e = some c') :
    c'.Fifo size (given ++ e.data) := by
  have hkept : ∀ w : Written, w.conn? = some c' → ∃ rc, w = .kept rc c' := by
    intro w hw
    cases w with
    | kept rc c =>
      cases hw
      exact ⟨rc, rfl⟩
    | closed => cases hw
    | retrying => cases hw
  cases e with
  | write p results sendto =>
    obtain ⟨rc, hw⟩ := hkept _ hok
    exact tcpClientWrite_fifo h hw
  | writable result =>
    obtain ⟨rc, hw⟩ := hkept _ hok
    simpa [OutEvent.data] using handleClientEvent_fifo h hw
  | flushsize n =>
    cases hok
    simp only [OutEvent.data, List.append_nil]
    exact ⟨⟨h.wf.start_nonneg, h.wf.start_le_end, h.wf.end_le_size⟩, h.size_eq, h.data_eq, h.tcp⟩

theorem Conn.run_fifo {es : List OutEvent} (h : c.Fifo size given) (hok : c.run es = some c') :
    c'.Fifo size (given ++ es.flatMap OutEvent.data) := by
  induction es generalizing c given with
  | nil =>
    cases hok
    simpa using h
  | cons e es ih =>
    simp only [Conn.run, Option.bind_eq_bind, Option.bind_eq_some_iff] at hok
    obtain ⟨c₁, hstep, hrun⟩ := hok
    have := ih (Conn.step_fifo h hstep) hrun
    rwa [List.append_assoc, ← List.flatMap_cons] at this

/-- In every run without a UDP side channel, as long as the client is not closed, the
output buffer is a lossless queue. -/
theorem obuf_lossless_fifo (mem : Bytes) (es : List OutEvent) (c : Conn)
    (hrun : (Conn.init mem).run es = some c) :
    0 ≤ c.out.obufStart ∧ c.out.obufStart ≤ c.out.obufEnd ∧ c.out.obufEnd ≤ c.out.obufSize ∧
      c.out.obufSize = mem.length ∧
      c.accepted ++ c.out.pending = es.flatMap OutEvent.data := by
  have hinit : (Conn.init mem).Fifo mem.length [] :=
    ⟨⟨Int.le_refl 0, Int.le_refl 0, Int.natCast_nonneg _⟩, rfl, by simp [Conn.init, Obuf.pending],
      rfl⟩
  have h := Conn.run_fifo hinit hrun
  exact ⟨h.wf.start_nonneg, h.wf.start_le_end, h.wf.end_le_size, h.size_eq, by simpa using h.data_eq⟩

private def outEvents : List OutEvent :=
  [.write [1, 2, 3] [.eintr, .wrote 2] 0, .write [4, 5] [.eagain] 0, .writable (.wrote 1),
    .flushsize 4, .write [6, 7] [] 0]

/-- Data that is written in parts, moved to make room, and held back. -/
theorem obuf_under_pressure :
    ∃ c, (Conn.init [0, 0, 0, 0]).run outEvents = some c ∧
      c.accepted ++ c.out.pending = [1, 2, 3, 4, 5, 6, 7] := by
  refine ⟨_, rfl, ?_⟩
  exact (obuf_lossless_fifo [0, 0, 0, 0] outEvents _ rfl).2.2.2.2

end Aprsc
