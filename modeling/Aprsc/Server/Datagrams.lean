-- SUMMARY: The two receivers of UDP datagrams: what they hand on and touch of their buffers, and when that is all there.
import Aprsc.Base.Area
import Aprsc.Worker.Handlers

/-!
# Datagrams

Packets come in UDP datagrams to the ports for submissions and from core peers. The
receive buffers are shorter than a datagram may be. With `MSG_TRUNC` the system stores as
much as fits, and returns the length that the datagram had.

What is handed on to another function, or scanned, must be in what was stored; all that is
touched must be in the buffer. Behind the datagram a buffer holds what was there before. A
text that is logged is read up to a NUL, wherever that is.
-/

namespace Aprsc

/-! ## Uses of a buffer -/

/-- What a receiver does with its buffer. -/
inductive BufferUse where
  /-- Some bytes are handed on to a function with their length, or are scanned. -/
  | pass (start len : Int)
  /-- Some bytes are read or written. -/
  | touch (start len : Int)
deriving Repr, DecidableEq

/-- The use keeps to what was stored, or to the buffer. -/
def BufferUse.Ok (stored size : Nat) : BufferUse → Prop
  | pass start len => 0 ≤ start ∧ 0 ≤ len ∧ start + len ≤ stored
  | touch start len => 0 ≤ start ∧ 0 ≤ len ∧ start + len ≤ size

/-- `recvfrom` with `MSG_TRUNC`, into a buffer that takes `room` bytes. -/
def recvfrom (room : Nat) (dgram : Bytes) (m : Area UInt8) : Area UInt8 := m.load (dgram.take room)

/-- Write a byte. -/
def putByte (m : Area UInt8) (p : Int) (b : UInt8) : Traced BufferUse (Area UInt8) := do
  Traced.tell (.touch p 1)
  pure (m.set p b)

/-- `memchr`. -/
def findByte (m : Area UInt8) (p : Int) (b : UInt8) (n : Int) : Traced BufferUse (Option Int) := do
  Traced.tell (.touch p n)
  pure (m.memchr p b n).val

/-- How much of a buffer of `size` bytes a C string takes without its NUL, or all the rest. -/
def textLen (m : Area UInt8) (size : Nat) (p : Int) : Nat :=
  ((m.slice p (size - p).toNat).takeWhile (· != 0)).length

/-- Read a C string with its NUL. If there is none the byte behind the buffer is read, too. -/
def readText (m : Area UInt8) (size : Nat) (p : Int) : Traced BufferUse PUnit :=
  Traced.tell (.touch p (textLen m size p + 1))

/-! ## Submissions -/

def lf : UInt8 := 0x0A
def cr : UInt8 := 0x0D

/-- A line end is overwritten, if there is one, and ends the text before it. -/
def cutByte (m : Area UInt8) (p : Int) (b : UInt8) (n : Int) : Traced BufferUse (Area UInt8 × Int) := do
  match ← findByte m p b n with
  | none => pure (m, n)
  | some e => do
      let m ← putByte m e 0
      pure (m, e - p)

/-- `loginpost_split`: the buffer with the line ends overwritten, and the packet with its
length. -/
def loginpostSplit (m : Area UInt8) (len : Int) : Traced BufferUse (Option (Area UInt8 × Int × Int)) := do
  match ← findByte m 0 lf len with
  | none => pure none
  | some e => do
      let m ← putByte m e 0
      let (m, _) ← cutByte m 0 cr e
      let (m, n) ← cutByte m (e + 1) lf (len - (e + 1))
      let (m, n) ← cutByte m (e + 1) cr n
      pure (some (m, e + 1, n))

/-- The loop of `http_udp_upload_login` over the options. -/
def uploadOptions (username : Bytes) : (validated : Int) → List Bytes → Int
  | validated, [] => validated
  | validated, arg :: args =>
      if caseEq arg (ascii "pass") then
        match args with
        | [] => validated
        | p :: args =>
            uploadOptions username
              (if 0 ≤ atoi p ∧ atoi p = aprsPasscode username then 1 else validated) args
      else if caseEq arg (ascii "vers") then
        match args with
        | _ :: _ :: args => uploadOptions username validated args
        | _ => validated
      else uploadOptions username validated args

/-- `http_udp_upload_login`. -/
def httpUdpUploadLogin (disallowLogin : Bytes → Bool) (s : Bytes) : Int :=
  match (parseArgsNoshell s).1 with
  | cmd :: username :: options =>
      if !caseEq cmd (ascii "user") then -1
      else if username.length > callsignlenMax then -1
      else if disallowLoginUsernames.any (caseEq username ·) then -1
      else if disallowLogin username then -1
      else if checkInvalidQCallsign username then -1
      else uploadOptions username 0 options
  | _ => -1

/-- What the receivers read from outside. -/
structure DatagramEnv where
  logLevel : Nat
  disallowLogin : Bytes → Bool
  /-- A packet as `incoming_parse` leaves it. It may put another letter for the type of a Q
  construct. -/
  incomingEdits : Bytes → Bytes
  edits_length : ∀ packet, (incomingEdits packet).length = packet.length
  edits_nul : ∀ packet, ∀ i : Nat, (incomingEdits packet)[i]? = some 0 ↔ packet[i]? = some 0

def logInfo : Nat := 6
def logDebug : Nat := 7

/-- A message with a text in it, if it is logged. -/
def hlogText (env : DatagramEnv) (level : Nat) (m : Area UInt8) (size : Nat) (p : Int) :
    Traced BufferUse PUnit :=
  if level > env.logLevel then pure ⟨⟩ else readText m size p

/-- The buffer of `accept_udp_recv`. -/
def udpBufSize : Nat := 2000

/-- `accept_process_udpsubmit`. -/
def acceptProcessUdpsubmit (env : DatagramEnv) (m : Area UInt8) (len : Int) :
    Traced BufferUse PUnit := do
  Traced.tell (.pass 0 len)
  match ← loginpostSplit m len with
  | none => pure ⟨⟩
  | some (m, packet, packetLen) => do
      hlogText env logDebug m udpBufSize 0
      hlogText env logDebug m udpBufSize packet
      readText m udpBufSize 0
      let login := m.slice 0 (textLen m udpBufSize 0)
      if httpUdpUploadLogin env.disallowLogin login ≠ 1 then pure ⟨⟩
      else if packetLen < packetlenMin ∨ packetLen > packetlenMax - 2 then pure ⟨⟩
      else do
        Traced.tell (.pass packet packetLen)
        let m := m.write packet (env.incomingEdits (m.slice packet packetLen.toNat))
        hlogText env logDebug m udpBufSize packet

/-- `accept_udp_recv`, for one datagram and what the buffer held before. -/
def acceptUdpRecv (env : DatagramEnv) (udpsubmit : Bool) (m : Area UInt8) (dgram : Bytes) :
    Traced BufferUse PUnit :=
  if !udpsubmit then pure ⟨⟩
  else acceptProcessUdpsubmit env (recvfrom (udpBufSize - 1) dgram m) dgram.length

/-! ## Core peers -/

/-- The loop of `handle_corepeer_readable` over `n` bytes from offset `i` on. -/
def corepeerScan (m : Area UInt8) : (n : Nat) → (i : Int) → Traced BufferUse Int
  | 0, i => pure i
  | n + 1, i => do
      Traced.tell (.pass i 1)
      if m.byte i == cr || m.byte i == lf then pure i else corepeerScan m n (i + 1)

/-- `handle_corepeer_readable`, for a datagram of a known peer or not, and an input buffer of
`room + 1` bytes. -/
def handleCorepeerReadable (env : DatagramEnv) (known : Bool) (room : Nat) (m : Area UInt8)
    (dgram : Bytes) : Traced BufferUse PUnit :=
  let m := recvfrom room dgram m
  if dgram.length = 0 then pure ⟨⟩
  else if !known then hlogText env logInfo m (room + 1) 0
  else do
    let r ← corepeerScan m dgram.length 0
    Traced.tell (.pass 0 r)

/-! ## Texts -/

/-- A text ends in the buffer: there is a NUL from its start on. -/
def TextEnds (m : Area UInt8) (size : Nat) (p : Int) : Prop :=
  ∃ i : Int, p ≤ i ∧ i < size ∧ m.byte i = 0

section

variable {m : Area UInt8} {stored size : Nat} {p : Int}

theorem textLen_le (m : Area UInt8) (size : Nat) (p : Int) : textLen m size p ≤ (size - p).toNat := by
  have hlen := (List.takeWhile_sublist (· != 0) (l := m.slice p (size - p).toNat)).length_le
  rwa [Area.length_slice] at hlen

/-- All bytes of a text are read in the buffer if it ends there. -/
theorem readText_ok (hp : 0 ≤ p) (hsize : p ≤ size) :
    (readText m size p).All (BufferUse.Ok stored size) ↔ TextEnds m size p := by
  have hle := textLen_le m size p
  have hall : textLen m size p = (size - p).toNat ↔ ∀ b ∈ m.slice p (size - p).toNat, b ≠ 0 := by
    have hsub := List.takeWhile_sublist (· != 0) (l := m.slice p (size - p).toNat)
    have hlen := m.length_slice p (size - p).toNat
    constructor
    · intro heq b hb
      have hself := hsub.eq_of_length (heq.trans hlen.symm)
      simpa using List.takeWhile_eq_self_iff.mp hself b hb
    · intro hne
      have hself : (m.slice p (size - p).toNat).takeWhile (· != 0) = m.slice p (size - p).toNat :=
        List.takeWhile_eq_self_iff.mpr (by simpa using hne)
      rw [textLen, hself, hlen]
  simp only [readText, Traced.all_tell, BufferUse.Ok]
  constructor
  · intro h
    have hshort : ¬textLen m size p = (size - p).toNat := by omega
    rw [hall] at hshort
    push Not at hshort
    obtain ⟨b, hb, rfl⟩ := hshort
    obtain ⟨i, hlo, hhi, hbyte⟩ := m.mem_slice.mp hb
    exact ⟨i, hlo, by omega, hbyte⟩
  · rintro ⟨i, hlo, hhi, hbyte⟩
    have hshort : ¬textLen m size p = (size - p).toNat := by
      rw [hall]
      exact fun hne => hne _ (m.mem_slice.mpr ⟨i, hlo, by omega, hbyte⟩) rfl
    omega

theorem hlogText_ok {env : DatagramEnv} {level : Nat} (hp : 0 ≤ p) (hsize : p ≤ size) :
    (hlogText env level m size p).All (BufferUse.Ok stored size) ↔
      (level ≤ env.logLevel → TextEnds m size p) := by
  unfold hlogText
  rw [Traced.all_ite, readText_ok hp hsize]
  simp

/-! ## Splitting a submission -/

variable {b : UInt8} {n : Int}

theorem cutByte_cases (hn : 0 ≤ n) :
    ((cutByte m p b n).val = (m, n) ∧ ∀ i, p ≤ i → i < p + n → m.byte i ≠ b) ∨
      ∃ e, (cutByte m p b n).val = (m.set e 0, e - p) ∧ p ≤ e ∧ e < p + n ∧ m.byte e = b := by
  obtain ⟨hnone, hall⟩ | ⟨e, hsome, hlo, hhi, hbyte, -⟩ := m.memchr_cases (a := p) (c := b) hn
  · refine .inl ⟨?_, hall⟩
    simp only [cutByte, findByte, Traced.val_bind, Traced.val_pure, hnone]
  · refine .inr ⟨e, ?_, hlo, hhi, hbyte⟩
    simp only [cutByte, findByte, putByte, Traced.val_bind, Traced.val_pure, hsome]

theorem cutByte_ok (hp : 0 ≤ p) (hn : 0 ≤ n) (hsize : p + n ≤ size) :
    (cutByte m p b n).All (BufferUse.Ok stored size) := by
  obtain ⟨hnone, -⟩ | ⟨e, hsome, hlo, hhi, -, -⟩ := m.memchr_cases (a := p) (c := b) hn
  · simp only [cutByte, findByte, Traced.all_bind, Traced.val_bind, Traced.val_pure, hnone,
      Traced.all_tell, Traced.all_pure, BufferUse.Ok, and_true]
    omega
  · simp only [cutByte, findByte, putByte, Traced.all_bind, Traced.val_bind, Traced.val_pure, hsome,
      Traced.all_tell, Traced.all_pure, BufferUse.Ok, and_true]
    omega

theorem Area.byte_set (m : Area UInt8) (p i : Int) (b : UInt8) :
    (m.set p b).byte i = if i = p then b else m.byte i := rfl

/-- A cut changes at most a line end in its range. -/
theorem cutByte_byte (hn : 0 ≤ n) (i : Int) :
    (cutByte m p b n).val.1.byte i = m.byte i ∨
      ((cutByte m p b n).val.1.byte i = 0 ∧ p ≤ i ∧ i < p + n ∧ m.byte i = b) := by
  obtain ⟨hval, -⟩ | ⟨e, hval, hlo, hhi, hbyte⟩ := cutByte_cases (m := m) (p := p) (b := b) hn
  · rw [hval]
    exact .inl rfl
  · rw [hval, Area.byte_set]
    split
    · rename_i heq
      exact .inr ⟨rfl, by omega, by omega, by rw [heq, hbyte]⟩
    · exact .inl rfl

/-- A NUL stays a NUL. -/
theorem cutByte_nul (hn : 0 ≤ n) {i : Int} (h : m.byte i = 0) : (cutByte m p b n).val.1.byte i = 0 := by
  obtain heq | ⟨hzero, -⟩ := cutByte_byte (m := m) (p := p) (b := b) hn i
  · rw [heq, h]
  · exact hzero

theorem cutByte_len (hn : 0 ≤ n) : 0 ≤ (cutByte m p b n).val.2 ∧ (cutByte m p b n).val.2 ≤ n := by
  obtain ⟨hval, -⟩ | ⟨e, hval, hlo, hhi, -⟩ := cutByte_cases (m := m) (p := p) (b := b) hn
  · rw [hval]
    exact ⟨hn, Int.le_refl n⟩
  · rw [hval]
    dsimp only
    omega

/-- After a cut there is a NUL in the range if a line end was there. -/
theorem cutByte_cuts (hn : 0 ≤ n) {i : Int} (hlo : p ≤ i) (hhi : i < p + n) (hbyte : m.byte i = b) :
    ∃ e, p ≤ e ∧ e < p + n ∧ (cutByte m p b n).val.1.byte e = 0 := by
  obtain ⟨-, hnone⟩ | ⟨e, hval, helo, hehi, -⟩ := cutByte_cases (m := m) (p := p) (b := b) hn
  · exact absurd hbyte (hnone i hlo hhi)
  · refine ⟨e, helo, hehi, ?_⟩
    rw [hval, Area.byte_set, if_pos rfl]

/-- The packet of a submission, cut at its line end. -/
def cutPacket (m : Area UInt8) (p n : Int) : Area UInt8 × Int :=
  (cutByte (cutByte m p lf n).val.1 p cr (cutByte m p lf n).val.2).val

/-- A packet that is cut ends in the buffer if there was a NUL or a line end. -/
theorem textEnds_cutPacket (hn : 0 ≤ n) (hsize : p + n ≤ size) :
    TextEnds (cutPacket m p n).1 size p ↔
      ∃ i : Int, p ≤ i ∧ i < size ∧ (m.byte i = 0 ∨ i < p + n ∧ (m.byte i = lf ∨ m.byte i = cr)) := by
  have hlen := cutByte_len (m := m) (p := p) (b := lf) hn
  unfold cutPacket
  constructor
  · rintro ⟨i, hlo, hhi, hzero⟩
    refine ⟨i, hlo, hhi, ?_⟩
    obtain hsame | ⟨-, -, hin, hcr⟩ :=
      cutByte_byte (m := (cutByte m p lf n).val.1) (p := p) (b := cr) hlen.1 i
    · obtain hsame' | ⟨-, -, hin, hlf⟩ := cutByte_byte (m := m) (p := p) (b := lf) hn i
      · exact .inl (by rw [← hsame', ← hsame, hzero])
      · exact .inr ⟨hin, .inl hlf⟩
    · obtain hsame' | ⟨hnul, -⟩ := cutByte_byte (m := m) (p := p) (b := lf) hn i
      · exact .inr ⟨by omega, .inr (by rw [← hsame', hcr])⟩
      · rw [hnul] at hcr
        cases hcr
  · rintro ⟨i, hlo, hhi, hzero | ⟨hin, hlf | hcr⟩⟩
    · exact ⟨i, hlo, hhi, cutByte_nul hlen.1 (cutByte_nul hn hzero)⟩
    · obtain ⟨e, helo, hehi, he⟩ := cutByte_cuts hn hlo hin hlf
      exact ⟨e, helo, by omega, cutByte_nul hlen.1 he⟩
    · -- The line feed may come first, and then it ends the packet.
      obtain ⟨hval, -⟩ | ⟨e, hval, helo, hehi, -⟩ := cutByte_cases (m := m) (p := p) (b := lf) hn
      · rw [hval]
        obtain ⟨e, helo, hehi, he⟩ := cutByte_cuts (b := cr) hn hlo hin hcr
        exact ⟨e, helo, by omega, he⟩
      · refine ⟨e, helo, by omega, cutByte_nul hlen.1 ?_⟩
        rw [hval, Area.byte_set, if_pos rfl]

/-- A submission without a line end has no packet. Otherwise the packet follows the first
line feed, up to the next line end or the end of the datagram. -/
theorem loginpostSplit_cases {len : Nat} (hsize : len ≤ size) :
    (loginpostSplit m len).All (BufferUse.Ok stored size) ∧
    (((loginpostSplit m len).val = none ∧ ∀ i : Int, 0 ≤ i → i < len → m.byte i ≠ lf) ∨
      ∃ (e : Int) (m₁ : Area UInt8), 0 ≤ e ∧ e < len ∧ m.byte e = lf ∧
        (∀ i, 0 ≤ i → i < e → m.byte i ≠ lf) ∧ m₁.byte e = 0 ∧ (∀ i, e < i → m₁.byte i = m.byte i) ∧
        (loginpostSplit m len).val = some ((cutPacket m₁ (e + 1) (len - (e + 1))).1, e + 1,
          (cutPacket m₁ (e + 1) (len - (e + 1))).2)) := by
  obtain ⟨hnone, hall⟩ | ⟨e, hsome, hlo, hhi, hbyte, hfirst⟩ :=
    m.memchr_cases (a := 0) (c := lf) (n := len) (by omega)
  · constructor
    · simp only [loginpostSplit, findByte, Traced.all_bind, Traced.val_bind, Traced.val_pure, hnone,
        Traced.all_tell, Traced.all_pure, BufferUse.Ok, and_true]
      omega
    · refine .inl ⟨?_, fun i h0 hi => hall i h0 (by omega)⟩
      simp only [loginpostSplit, findByte, Traced.val_bind, Traced.val_pure, hnone]
  · have hn : 0 ≤ (len : Int) - (e + 1) := by omega
    have hlen := fun m => cutByte_len (m := m) (p := e + 1) (b := lf) hn
    constructor
    · simp only [loginpostSplit, findByte, putByte, Traced.all_bind, Traced.val_bind,
        Traced.val_pure, hsome, Traced.all_tell, Traced.all_pure, BufferUse.Ok, and_true]
      refine ⟨by omega, by omega, cutByte_ok (by omega) hlo (by omega),
        cutByte_ok (by omega) hn (by omega), cutByte_ok (by omega) (hlen _).1 ?_⟩
      have hle := (hlen (cutByte (m.set e 0) 0 cr e).val.1).2
      omega
    · refine .inr ⟨e, (cutByte (m.set e 0) 0 cr e).val.1, hlo, by omega, hbyte,
        hfirst, cutByte_nul hlo (by rw [Area.byte_set, if_pos rfl]), fun i hi => ?_, ?_⟩
      · obtain hsame | ⟨-, -, hin, -⟩ := cutByte_byte (m := m.set e 0) (p := 0) (b := cr) hlo i
        · rw [hsame, Area.byte_set, if_neg (by omega)]
        · omega
      · simp only [loginpostSplit, findByte, putByte, Traced.val_bind, Traced.val_pure, hsome,
          cutPacket]

end

/-! ## Submissions that fit -/

section

variable {m : Area UInt8} {dgram : Bytes}

theorem byte_load_of_le (m : Area UInt8) {i : Int} (h : (dgram.length : Int) ≤ i) :
    (m.load dgram).byte i = m.byte i := by
  simp only [Area.load]
  rw [if_pos (by omega), List.getD_eq_getElem?_getD, List.getElem?_eq_none (by omega)]
  rfl

/-- The bytes of a datagram from an offset on are the ones that were stored there. -/
theorem mem_drop_iff (m : Area UInt8) {k : Nat} (hk : k ≤ dgram.length) {b : UInt8} :
    b ∈ dgram.drop k ↔
      ∃ i : Int, k ≤ i ∧ i < dgram.length ∧ (m.load dgram).byte i = b := by
  have hslice := (m.at_load dgram).slice_eq (i := k) (n := dgram.length - k) (by omega)
  rw [List.take_of_length_le (by rw [List.length_drop])] at hslice
  rw [← hslice, Area.mem_slice]
  constructor
  · rintro ⟨i, hlo, hhi, hb⟩
    exact ⟨i, by omega, by omega, hb⟩
  · rintro ⟨i, hlo, hhi, hb⟩
    exact ⟨i, by omega, by omega, hb⟩

/-- The text of a packet that follows a login line ends in the buffer. -/
def PacketEnds (m : Area UInt8) (dgram packet : Bytes) : Prop :=
  0 ∈ packet ∨ lf ∈ packet ∨ cr ∈ packet ∨
    ∃ i : Int, dgram.length ≤ i ∧ i < udpBufSize ∧ m.byte i = 0

theorem packetEnds_iff {k : Nat} (hk : k ≤ dgram.length) (hsize : dgram.length ≤ udpBufSize) :
    PacketEnds m dgram (dgram.drop k) ↔
      ∃ i : Int, k ≤ i ∧ i < udpBufSize ∧ ((m.load dgram).byte i = 0 ∨
        i < dgram.length ∧ ((m.load dgram).byte i = lf ∨ (m.load dgram).byte i = cr)) := by
  simp only [PacketEnds, mem_drop_iff m hk]
  constructor
  · rintro (⟨i, hlo, hhi, hb⟩ | ⟨i, hlo, hhi, hb⟩ | ⟨i, hlo, hhi, hb⟩ | ⟨i, hlo, hhi, hb⟩)
    · exact ⟨i, hlo, by omega, .inl hb⟩
    · exact ⟨i, hlo, by omega, .inr ⟨hhi, .inl hb⟩⟩
    · exact ⟨i, hlo, by omega, .inr ⟨hhi, .inr hb⟩⟩
    · exact ⟨i, by omega, hhi, .inl (by rw [byte_load_of_le m hlo, hb])⟩
  · rintro ⟨i, hlo, hhi, hb | ⟨hin, hb | hb⟩⟩
    · by_cases hin : i < dgram.length
      · exact .inl ⟨i, hlo, hin, hb⟩
      · rw [byte_load_of_le m (by omega)] at hb
        exact .inr (.inr (.inr ⟨i, by omega, hhi, hb⟩))
    · exact .inr (.inl ⟨i, hlo, hin, hb⟩)
    · exact .inr (.inr (.inl ⟨i, hlo, hin, hb⟩))

/-- The edits of a packet leave the NULs of the buffer where they are. -/
theorem byte_write_edits (env : DatagramEnv) (m : Area UInt8) (p : Int) (n : Nat) (i : Int) :
    (m.write p (env.incomingEdits (m.slice p n))).byte i = 0 ↔ m.byte i = 0 := by
  simp only [Area.write]
  split
  · rename_i hp
    have hoff : p + ((i - p).toNat : Int) = i := by omega
    have hget := env.edits_nul (m.slice p n) (i - p).toNat
    have hlen := env.edits_length (m.slice p n)
    rw [Area.getElem?_slice, hoff] at hget
    rw [Area.length_slice] at hlen
    rw [List.getD_eq_getElem?_getD]
    by_cases hin : (i - p).toNat < n
    · rw [if_pos hin, List.getElem?_eq_getElem (by omega)] at hget
      rw [List.getElem?_eq_getElem (by omega)]
      simpa using hget
    · rw [List.getElem?_eq_none (by omega), Option.getD_none]
  · rfl

theorem textEnds_write_edits (env : DatagramEnv) (m : Area UInt8) (size : Nat) (p : Int) (n : Nat) :
    TextEnds (m.write p (env.incomingEdits (m.slice p n))) size p ↔ TextEnds m size p := by
  simp only [TextEnds, byte_write_edits]

/-- A submission fits if its datagram fits into the buffer, and its packet ends there when
it is logged. -/
def SubmissionFits (env : DatagramEnv) (m : Area UInt8) (dgram : Bytes) : Prop :=
  dgram.length < udpBufSize ∧
    (logDebug ≤ env.logLevel → ∀ login packet, dgram = login ++ lf :: packet → lf ∉ login →
      PacketEnds m dgram packet)

/-- The first line feed of a datagram splits it. -/
theorem split_at_first {e : Int} (hlo : 0 ≤ e) (hhi : e < dgram.length)
    (hbyte : (m.load dgram).byte e = lf)
    (hfirst : ∀ i, 0 ≤ i → i < e → (m.load dgram).byte i ≠ lf) :
    (∃ login, dgram = login ++ lf :: dgram.drop (e.toNat + 1) ∧ lf ∉ login) ∧
      ∀ login packet, dgram = login ++ lf :: packet → lf ∉ login →
        packet = dgram.drop (e.toNat + 1) := by
  have hat := (m.at_load dgram)
  have hget : ∀ i : Nat, i < dgram.length → dgram[i]? = some ((m.load dgram).byte i) := by
    intro i hi
    rw [List.getElem?_eq_getElem hi, hat.byte_eq (List.getElem?_eq_getElem hi) |>.symm, Int.zero_add]
  have he : ((e.toNat : Nat) : Int) = e := by omega
  have hlt : e.toNat < dgram.length := by omega
  constructor
  · refine ⟨dgram.take e.toNat, ?_, fun hmem => ?_⟩
    · have hlf : dgram[e.toNat] = lf := by
        have h := hget e.toNat hlt
        rw [List.getElem?_eq_getElem hlt, he, hbyte] at h
        exact Option.some.inj h
      rw [← hlf, ← List.drop_eq_getElem_cons hlt, List.take_append_drop]
    · obtain ⟨i, hi⟩ := List.mem_iff_getElem?.mp hmem
      rw [List.getElem?_take] at hi
      split at hi
      · rw [hget i (by omega)] at hi
        exact hfirst i (by omega) (by omega) (Option.some.inj hi)
      · cases hi
  · intro login packet hsplit hno
    have hlen : login.length < dgram.length := by
      rw [hsplit, List.length_append, List.length_cons]
      omega
    have hbyte' : (m.load dgram).byte login.length = lf := by
      have h := hget login.length hlen
      rw [hsplit, List.getElem?_append_right (Nat.le_refl _), Nat.sub_self, List.getElem?_cons_zero,
        ← hsplit] at h
      exact (Option.some.inj h).symm
    have hle : e ≤ login.length := by
      by_contra hlt'
      exact hfirst login.length (by omega) (by omega) hbyte'
    have heq : login.length = e.toNat := by
      by_contra hne
      have h := hget e.toNat hlt
      rw [hsplit, List.getElem?_append_left (by omega), ← hsplit, he, hbyte] at h
      exact hno (List.mem_of_getElem? h)
    rw [hsplit, ← heq, List.drop_append]
    simp

theorem acceptProcessUdpsubmit_ok (env : DatagramEnv) (hsize : dgram.length < udpBufSize) :
    (acceptProcessUdpsubmit env (m.load dgram) dgram.length).All
        (BufferUse.Ok dgram.length udpBufSize) ↔
      (logDebug ≤ env.logLevel → ∀ login packet, dgram = login ++ lf :: packet → lf ∉ login →
        PacketEnds m dgram packet) := by
  have hpass : BufferUse.Ok dgram.length udpBufSize (.pass 0 dgram.length) :=
    ⟨by omega, by omega, by omega⟩
  obtain ⟨hok, ⟨hval, hnone⟩ | ⟨e, m₁, hlo, hhi, hbyte, hfirst, hnul, hsame, hval⟩⟩ :=
    @loginpostSplit_cases (m.load dgram) dgram.length udpBufSize dgram.length (by omega)
  · have hno : lf ∉ dgram := by
      have h := mem_drop_iff m (Nat.zero_le dgram.length) (b := lf)
      rw [List.drop_zero] at h
      rw [h]
      rintro ⟨i, hi, hlt, hb⟩
      exact hnone i (by omega) hlt hb
    simp only [acceptProcessUdpsubmit, Traced.all_bind, Traced.all_tell, hval, Traced.all_pure]
    refine iff_of_true ⟨hpass, hok, trivial⟩ fun _ login packet hsplit => ?_
    rw [hsplit] at hno
    simp at hno
  · -- The packet is at `e + 1`. Its memory is the one after the cuts.
    have hn : 0 ≤ (dgram.length : Int) - (e + 1) := by omega
    have hend := @textEnds_cutPacket m₁ udpBufSize (e + 1) _ hn (by omega)
    have hlen₁ := cutByte_len (m := m₁) (p := e + 1) (b := lf) hn
    have hlen₂ := cutByte_len (m := (cutByte m₁ (e + 1) lf (dgram.length - (e + 1))).val.1) (p := e + 1)
      (b := cr) hlen₁.1
    have hlogin : TextEnds (cutPacket m₁ (e + 1) (dgram.length - (e + 1))).1 udpBufSize 0 :=
      ⟨e, hlo, by omega, cutByte_nul hlen₁.1 (cutByte_nul hn hnul)⟩
    obtain ⟨⟨login, hsplit, hno⟩, hunique⟩ := split_at_first hlo hhi hbyte hfirst
    have hpacket : TextEnds (cutPacket m₁ (e + 1) (dgram.length - (e + 1))).1 udpBufSize (e + 1) ↔
        PacketEnds m dgram (dgram.drop (e.toNat + 1)) := by
      rw [hend, packetEnds_iff (by omega) (by omega)]
      refine exists_congr fun i => ?_
      constructor
      · rintro ⟨hge, hlt, h⟩
        rw [hsame i (by omega)] at h
        exact ⟨by omega, hlt, h.imp_right fun h => ⟨by omega, h.2⟩⟩
      · rintro ⟨hge, hlt, h⟩
        rw [hsame i (by omega)]
        exact ⟨by omega, hlt, h.imp_right fun h => ⟨by omega, h.2⟩⟩
    have hwhole : (∀ login packet, dgram = login ++ lf :: packet → lf ∉ login →
        PacketEnds m dgram packet) ↔ PacketEnds m dgram (dgram.drop (e.toNat + 1)) :=
      ⟨fun h => h login _ hsplit hno, fun h login packet hs hn => hunique login packet hs hn ▸ h⟩
    rw [hwhole, ← hpacket]
    simp only [acceptProcessUdpsubmit, Traced.all_bind, Traced.all_tell, hval, Traced.all_ite,
      Traced.all_pure, hlogText_ok (Int.le_refl 0) (Int.natCast_nonneg _),
      @hlogText_ok _ _ udpBufSize (e + 1) _ _ (by omega) (by omega),
      readText_ok (Int.le_refl 0) (Int.natCast_nonneg _), textEnds_write_edits]
    constructor
    · exact fun h => h.2.2.2.1
    · intro h
      refine ⟨hpass, hok, fun _ => hlogin, h, hlogin, fun _ => trivial, fun _ => ⟨fun _ => trivial,
        fun _ => ⟨⟨by omega, hlen₂.1, ?_⟩, h⟩⟩⟩
      have hle := hlen₂.2
      unfold cutPacket
      omega

theorem acceptUdpRecv_ok (env : DatagramEnv) :
    (acceptUdpRecv env true m dgram).All
        (BufferUse.Ok (min dgram.length (udpBufSize - 1)) udpBufSize) ↔
      SubmissionFits env m dgram := by
  unfold acceptUdpRecv SubmissionFits
  simp only [Bool.not_true, Bool.false_eq_true, if_false, recvfrom]
  by_cases hsize : dgram.length < udpBufSize
  · rw [List.take_of_length_le (by omega), Nat.min_eq_left (by omega), acceptProcessUdpsubmit_ok env hsize]
    exact (and_iff_right hsize).symm
  · -- The first thing is to hand on the length.
    refine iff_of_false (fun h => ?_) fun h => hsize h.1
    have hpass : BufferUse.Ok (min dgram.length (udpBufSize - 1)) udpBufSize (.pass 0 dgram.length) :=
      h _ (by simp [acceptProcessUdpsubmit, Traced.tell, bind])
    have hlen := hpass.2.2
    unfold udpBufSize at hsize hlen
    omega

/-! ## Core peers -/

/-- The bytes of a datagram before its first line end. -/
def lineLen (b : Bytes) : Nat := (b.takeWhile fun b => !(b == cr || b == lf)).length

theorem lineLen_le (b : Bytes) : lineLen b ≤ b.length := (List.takeWhile_sublist _).length_le

theorem lineLen_lt_iff {b : Bytes} : lineLen b < b.length ↔ lf ∈ b ∨ cr ∈ b := by
  induction b with
  | nil => simp [lineLen]
  | cons x b ih =>
    unfold lineLen at ih ⊢
    rw [List.takeWhile_cons]
    by_cases hend : x = cr ∨ x = lf
    · have hstop : (!(x == cr || x == lf)) = false := by obtain rfl | rfl := hend <;> simp
      rw [hstop, if_neg (by simp), List.length_nil, List.length_cons]
      obtain rfl | rfl := hend
      · simp
      · simp
    · have hgo : (!(x == cr || x == lf)) = true := by simpa using hend
      rw [if_pos hgo, List.length_cons, List.length_cons, Nat.add_lt_add_iff_right, ih]
      rw [not_or] at hend
      simp [Ne.symm hend.1, Ne.symm hend.2]

/-- The first line end is in the first part if one is there. -/
theorem lineLen_append_lt {a b : Bytes} : lineLen (a ++ b) < a.length ↔ lf ∈ a ∨ cr ∈ a := by
  rw [← lineLen_lt_iff, lineLen, List.takeWhile_append]
  split
  · rename_i hall
    rw [List.length_append, lineLen, hall]
    omega
  · rfl

theorem corepeerScan_val (m : Area UInt8) (n : Nat) (i : Int) :
    (corepeerScan m n i).val = i + lineLen (m.slice i n) := by
  induction n generalizing i with
  | zero => simp [corepeerScan, Area.slice, lineLen]
  | succ n ih =>
    simp only [corepeerScan, Traced.val_bind, Traced.val_ite, Traced.val_pure, ih, Area.slice]
    unfold lineLen
    rw [List.takeWhile_cons]
    cases m.byte i == cr || m.byte i == lf with
    | true => simp
    | false =>
      simp only [Bool.false_eq_true, if_false, Bool.not_false, if_true, List.length_cons]
      omega

/-- The scan reads up to the first line end, or all bytes. -/
theorem corepeerScan_ok {stored size : Nat} (n : Nat) {i : Int} (hlo : 0 ≤ i) (hhi : i ≤ stored) :
    (corepeerScan m n i).All (BufferUse.Ok stored size) ↔
      i + min n (lineLen (m.slice i n) + 1) ≤ stored := by
  induction n generalizing i with
  | zero => simpa [corepeerScan] using hhi
  | succ n ih =>
    simp only [corepeerScan, Traced.all_bind, Traced.all_tell, Traced.all_ite, Traced.all_pure,
      BufferUse.Ok, Area.slice]
    by_cases hfit : i + 1 ≤ stored
    · rw [ih (by omega) hfit]
      unfold lineLen
      rw [List.takeWhile_cons]
      cases m.byte i == cr || m.byte i == lf with
      | true =>
        simp
        omega
      | false =>
        simp
        omega
    · refine iff_of_false (fun h => hfit h.1.2.2) fun h => hfit ?_
      omega

/-- A datagram fits if it comes from a peer that is not known and its text ends in the buffer
when it is logged, or if it fits into the buffer at least up to a line end. -/
def CorepeerFits (env : DatagramEnv) (known : Bool) (room : Nat) (m : Area UInt8) (dgram : Bytes) :
    Prop :=
  dgram = [] ∨
    (known = false ∧ (logInfo ≤ env.logLevel → TextEnds (recvfrom room dgram m) (room + 1) 0)) ∨
    (known = true ∧ (dgram.length ≤ room ∨ lf ∈ dgram.take room ∨ cr ∈ dgram.take room))

/-- What is scanned of a datagram was stored if it fits, or if there is a line end in time. -/
theorem scanned_le_iff {room : Nat} (m : Area UInt8) (dgram : Bytes) :
    min dgram.length (lineLen ((recvfrom room dgram m).slice 0 dgram.length) + 1) ≤
        min dgram.length room ↔
      dgram.length ≤ room ∨ lf ∈ dgram.take room ∨ cr ∈ dgram.take room := by
  by_cases hfit : dgram.length ≤ room
  · refine iff_of_true ?_ (.inl hfit)
    omega
  · have hstored : (recvfrom room dgram m).slice 0 room = dgram.take room := by
      have hat : (recvfrom room dgram m).At 0 (dgram.take room) := m.at_load _
      rwa [Area.At, List.length_take, Nat.min_eq_left (by omega)] at hat
    have hsplit : dgram.length = room + (dgram.length - room) := by omega
    have hlen : (dgram.take room).length = room := List.length_take_of_le (by omega)
    have hline := lineLen_append_lt (a := dgram.take room)
      (b := (recvfrom room dgram m).slice (0 + room) (dgram.length - room))
    rw [← hstored, ← Area.slice_append, ← hsplit, hstored, hlen] at hline
    rw [← hline]
    omega

theorem handleCorepeerReadable_ok (env : DatagramEnv) (known : Bool) (room : Nat) :
    (handleCorepeerReadable env known room m dgram).All
        (BufferUse.Ok (min dgram.length room) (room + 1)) ↔
      CorepeerFits env known room m dgram := by
  unfold handleCorepeerReadable CorepeerFits
  simp only [Traced.all_ite, Traced.all_pure, Traced.all_bind, Traced.all_tell]
  by_cases hempty : dgram = []
  · simp [hempty]
  have hlen : dgram.length ≠ 0 := fun h => hempty (List.length_eq_zero_iff.mp h)
  cases known with
  | false =>
    simp only [hempty, hlen, hlogText_ok (Int.le_refl 0) (Int.natCast_nonneg _)]
    simp
  | true =>
    have hscan := @scanned_le_iff room m dgram
    simp only [hempty, hlen, @corepeerScan_ok (recvfrom room dgram m) (min dgram.length room)
      (room + 1) dgram.length _ (Int.le_refl 0) (by omega), corepeerScan_val, BufferUse.Ok]
    rw [← hscan]
    simp
    have hle := lineLen_le ((recvfrom room dgram m).slice 0 dgram.length)
    rw [Area.length_slice] at hle
    omega

end

/-! ## Result -/

/-- Of a datagram of any length, what is handed on and scanned was stored, and nothing outside
of the buffer is touched, exactly if the datagram fits in one of the ways above. -/
theorem datagram_lengths_iff (env : DatagramEnv) (m : Area UInt8) (dgram : Bytes) (known : Bool)
    (room : Nat) :
    ((acceptUdpRecv env true m dgram).All
        (BufferUse.Ok (min dgram.length (udpBufSize - 1)) udpBufSize) ↔ SubmissionFits env m dgram) ∧
    (acceptUdpRecv env false m dgram).All
        (BufferUse.Ok (min dgram.length (udpBufSize - 1)) udpBufSize) ∧
    ((handleCorepeerReadable env known room m dgram).All
        (BufferUse.Ok (min dgram.length room) (room + 1)) ↔ CorepeerFits env known room m dgram) :=
  ⟨acceptUdpRecv_ok env, by simp [acceptUdpRecv], handleCorepeerReadable_ok env known room⟩

private def datagramEnv : DatagramEnv where
  logLevel := logInfo
  disallowLogin _ := false
  incomingEdits packet := packet
  edits_length _ := rfl
  edits_nul _ _ := .rfl

/-- A submission of 2000 bytes is handed on with its length, of which one byte was not stored. A
core peer's datagram of 8000 bytes is scanned with the byte behind what was stored. -/
theorem long_datagram_not_stored :
    ¬(acceptUdpRecv datagramEnv true ⟨fun _ => 0, fun _ => none⟩ (List.replicate 2000 (ch 'x'))).All
        (BufferUse.Ok (min 2000 (udpBufSize - 1)) udpBufSize) ∧
    ¬(handleCorepeerReadable datagramEnv true 7999 ⟨fun _ => 0, fun _ => none⟩
          (List.replicate 8000 (ch 'x'))).All
        (BufferUse.Ok (min 8000 7999) 8000) := by
  constructor
  · have hok := @acceptUdpRecv_ok ⟨fun _ => 0, fun _ => none⟩ (List.replicate 2000 (ch 'x'))
      datagramEnv
    rw [List.length_replicate] at hok
    rw [hok, SubmissionFits, List.length_replicate]
    exact fun h => absurd h.1 (by decide)
  · have hok := @handleCorepeerReadable_ok ⟨fun _ => 0, fun _ => none⟩
      (List.replicate 8000 (ch 'x')) datagramEnv true 7999
    rw [List.length_replicate] at hok
    rw [hok, CorepeerFits, List.length_replicate]
    rintro (hnil | ⟨hknown, -⟩ | ⟨-, hlen | hlf | hcr⟩)
    · have hlen := congrArg List.length hnil
      rw [List.length_replicate] at hlen
      cases hlen
    · cases hknown
    · exact absurd hlen (by decide)
    · exact absurd (List.eq_of_mem_replicate (List.mem_of_mem_take hlf)) (by decide)
    · exact absurd (List.eq_of_mem_replicate (List.mem_of_mem_take hcr)) (by decide)

end Aprsc
