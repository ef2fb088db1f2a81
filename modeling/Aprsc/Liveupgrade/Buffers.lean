-- SUMMARY: The bytes a client has not read or written yet go through a live upgrade as hexadecimal text.
import Aprsc.Historydb
import Aprsc.Worker.Obuf

/-!
# Pending bytes in a live upgrade

The old process writes the pending bytes of a client into its JSON dump with
`hex_encode`, and the new process reads them back with `hex_decode`. The encoder takes
its bytes as signed characters and shifts them, so a byte with the top bit set gives a
negative index into the table of digits. What is read there is not part of the table.
-/

namespace Aprsc

open Buffer

/-! ## Hexadecimal text -/

/-- The table of `hex_encode`. -/
def hexLut : Bytes := ascii "0123456789abcdef"

/-- `lut[i]`. The memory in front of the table is a parameter. -/
def lutAt (below : Int → UInt8) (i : Int) : UInt8 :=
  if i < 0 then below i else hexLut.getD i.toNat 0

/-- `c >> 4`: the shift keeps the sign of a character. -/
def highIndex (c : UInt8) : Int := c.toInt8.toInt >>> (4 : Nat)

/-- `hex_encode`. -/
def hexEncode (below : Int → UInt8) (buf : Bytes) : Bytes :=
  buf.flatMap fun c => [lutAt below (highIndex c), lutAt below (c &&& 15).toNat]

/-- The value of a digit. -/
def hexValue (c : UInt8) : Option UInt8 :=
  let h := toupper c
  if 0x30 ≤ h && h ≤ 0x39 then some (h - 0x30)
  else if 0x41 ≤ h && h ≤ 0x46 then some (h - 0x41 + 10)
  else none

/-- The loop of `hex_decode`: what it returns, and the output buffer. -/
def hexDecodeLoop : (hex : Bytes) → (oi : Nat) → (obuf : Bytes) → Option Nat × Bytes
  | h :: l :: hex, oi, obuf =>
      match hexValue h, hexValue l with
      | some h, some l => hexDecodeLoop hex (oi + 1) (obuf.set oi (h * 16 + l))
      | _, _ => (none, obuf)
  | _, oi, obuf => (some oi, obuf)

/-- `hex_decode` into a buffer. -/
def hexDecode (obuf hex : Bytes) : Option Nat × Bytes :=
  if hex.length % 2 = 1 then (none, obuf)
  else if obuf.length < hex.length / 2 then (none, obuf)
  else hexDecodeLoop hex 0 obuf

/-! ## The buffers of a client -/

/-- The input and output buffers of `struct client_t`. -/
structure Iobufs where
  ibuf : Bytes
  ibufEnd : Int
  obuf : Obuf

/-- `ibuf[0..ibuf_end)`. -/
def Iobufs.input (c : Iobufs) : Bytes := segment c.ibuf 0 c.ibufEnd.toNat

/-- `obuf[obuf_start..obuf_end)`. -/
def Iobufs.output (c : Iobufs) : Bytes := c.obuf.pending

/-- The buffers of `client_alloc`. -/
def Iobufs.init (ibuf obuf : Bytes) : Iobufs :=
  { ibuf, ibufEnd := 0, obuf := { obuf, obufStart := 0, obufEnd := 0, obufFlushsize := 0 } }

/-- The buffers in the JSON dump of a client. -/
structure SavedBuffers where
  obuf : Option Bytes
  ibuf : Option Bytes

/-- The buffers in `worker_client_json`. The dump holds C strings. -/
def workerClientJsonBuffers (below : Int → UInt8) (c : Iobufs) : SavedBuffers :=
  { obuf := if c.obuf.obufEnd - c.obuf.obufStart > 0 then
        some (cString (hexEncode below c.output)) else none
    ibuf := if c.ibufEnd > 0 then some (cString (hexEncode below c.input)) else none }

/-- The input buffer in `accept_liveupgrade_single`. -/
def acceptIbuf (ibuf : Option Bytes) (c : Iobufs) : Iobufs :=
  match ibuf with
  | none => c
  | some hex =>
      match hexDecode c.ibuf hex with
      | (none, buf) => { c with ibuf := buf }
      | (some l, buf) => { c with ibuf := buf, ibufEnd := l }

/-- The output buffer in `accept_liveupgrade_single`. -/
def acceptObuf (obuf : Option Bytes) (c : Iobufs) : Iobufs :=
  match obuf with
  | none => c
  | some hex =>
      match hexDecode c.obuf.obuf hex with
      | (none, buf) => { c with obuf := { c.obuf with obuf := buf } }
      | (some l, buf) =>
          { c with obuf := { c.obuf with obuf := buf, obufStart := 0, obufEnd := l } }

/-- The buffers in `accept_liveupgrade_single`. -/
def acceptBuffers (saved : SavedBuffers) (c : Iobufs) : Iobufs :=
  acceptObuf saved.obuf (acceptIbuf saved.ibuf c)

/-! ## Round trips -/

/-- The index of the first digit of a byte. -/
theorem highIndex_eq (c : UInt8) :
    highIndex c = if c < 128 then (c.toNat / 16 : Int) else (c.toNat / 16 : Int) - 16 := by
  have hall : ∀ n : Fin 256, highIndex (UInt8.ofNat n) =
      if UInt8.ofNat n < 128 then ((UInt8.ofNat n).toNat / 16 : Int)
      else ((UInt8.ofNat n).toNat / 16 : Int) - 16 := by
    decide +kernel
  simpa using hall ⟨c.toNat, c.toNat_lt⟩

/-- The digits of a byte below 128 are those of its halves, and they are read back. -/
theorem hexValue_hexLut (c : UInt8) :
    ∃ h l, hexValue (hexLut.getD (c.toNat / 16) 0) = some h ∧
      hexValue (hexLut.getD (c &&& 15).toNat 0) = some l ∧ h * 16 + l = c := by
  have hall : ∀ n : Fin 256, ((hexValue (hexLut.getD ((UInt8.ofNat n).toNat / 16) 0)).bind fun h =>
      (hexValue (hexLut.getD (UInt8.ofNat n &&& 15).toNat 0)).map fun l => h * 16 + l) =
        some (UInt8.ofNat n) := by
    decide +kernel
  have hc := hall ⟨c.toNat, c.toNat_lt⟩
  simp only [UInt8.ofNat_toNat, Option.bind_eq_some_iff, Option.map_eq_some_iff] at hc
  obtain ⟨h, hh, l, hl, heq⟩ := hc
  exact ⟨h, l, hh, hl, heq⟩

theorem ne_zero_of_hexValue {c v : UInt8} (h : hexValue c = some v) : c ≠ 0 := by
  have hzero : hexValue 0 = none := by decide
  rintro rfl
  simp [hzero] at h

theorem lutAt_low (below : Int → UInt8) (n : Nat) : lutAt below n = hexLut.getD n 0 := by
  rw [lutAt, if_neg (by omega), Int.toNat_natCast]

theorem lutAt_high (below : Int → UInt8) {c : UInt8} (hc : c < 128) :
    lutAt below (highIndex c) = hexLut.getD (c.toNat / 16) 0 := by
  rw [highIndex_eq, if_pos hc]
  exact_mod_cast lutAt_low below (c.toNat / 16)

theorem lutAt_high_ne_zero (below : Int → UInt8) {c : UInt8} (hc : c < 128) :
    lutAt below (highIndex c) ≠ 0 := by
  obtain ⟨h, -, hh, -⟩ := hexValue_hexLut c
  rw [lutAt_high below hc]
  exact ne_zero_of_hexValue hh

/-- A byte from 128 on has a digit from in front of the table. -/
theorem lutAt_negative (below : Int → UInt8) {c : UInt8} (hc : ¬c < 128) :
    lutAt below (highIndex c) = below (highIndex c) := by
  have hlt := c.toNat_lt
  have hneg : highIndex c < 0 := by
    rw [highIndex_eq, if_neg hc]
    omega
  rw [lutAt, if_pos hneg]

theorem hexEncode_cons (below : Int → UInt8) (c : UInt8) (buf : Bytes) :
    hexEncode below (c :: buf) =
      lutAt below (highIndex c) :: hexLut.getD (c &&& 15).toNat 0 :: hexEncode below buf := by
  rw [← lutAt_low below]
  rfl

theorem length_hexEncode (below : Int → UInt8) (buf : Bytes) :
    (hexEncode below buf).length = 2 * buf.length := by
  induction buf with
  | nil => rfl
  | cons c buf ih =>
    rw [hexEncode_cons, List.length_cons, List.length_cons, ih, List.length_cons]
    omega

/-- The loop reads the digits of a text and writes the text. -/
theorem hexDecodeLoop_hexEncode (below : Int → UInt8) {b : Bytes} (hb : ∀ c ∈ b, c < 128)
    {oi : Nat} {obuf : Bytes} (hfits : oi + b.length ≤ obuf.length) :
    hexDecodeLoop (hexEncode below b) oi obuf = (some (oi + b.length), memcpy obuf oi b) := by
  induction b generalizing oi obuf with
  | nil => simp [hexEncode, hexDecodeLoop, memcpy]
  | cons c b ih =>
    obtain ⟨h, l, hh, hl, hc⟩ := hexValue_hexLut c
    rw [List.length_cons] at hfits
    rw [hexEncode_cons, lutAt_high below (hb c List.mem_cons_self)]
    simp only [hexDecodeLoop, hh, hl, hc]
    rw [ih (fun c hc => hb c (List.mem_cons_of_mem _ hc)) (by simp; omega),
      memcpy_set (by omega)]
    simp only [List.length_cons]
    congr 2
    omega

theorem cString_hexEncode {below : Int → UInt8} {b : Bytes}
    (h : ∀ c ∈ b, lutAt below (highIndex c) ≠ 0) :
    cString (hexEncode below b) = hexEncode below b := by
  have hlow : ∀ c : UInt8, hexLut.getD (c &&& 15).toNat 0 ≠ 0 := by
    intro c
    obtain ⟨-, l, -, hl, -⟩ := hexValue_hexLut c
    exact ne_zero_of_hexValue hl
  refine List.takeWhile_eq_self_iff.mpr fun x hx => ?_
  obtain ⟨c, hc, hx⟩ := List.mem_flatMap.mp hx
  rw [lutAt_low] at hx
  obtain rfl | rfl : x = lutAt below (highIndex c) ∨ x = hexLut.getD (c &&& 15).toNat 0 := by
    simpa using hx
  · simpa using h c hc
  · simpa using hlow c

/-- A text of bytes below 128 is read back as it was. -/
theorem hexDecode_hexEncode (below : Int → UInt8) {b buf : Bytes} (hb : ∀ c ∈ b, c < 128)
    (hfits : b.length ≤ buf.length) :
    hexDecode buf (cString (hexEncode below b)) = (some b.length, memcpy buf 0 b) := by
  rw [cString_hexEncode fun c hc => lutAt_high_ne_zero below (hb c hc), hexDecode,
    length_hexEncode, if_neg (by omega), if_neg (by omega),
    hexDecodeLoop_hexEncode below hb (by omega), Nat.zero_add]

/-- The memory in front of the table may hold no digits. -/
def noDigits (_ : Int) : UInt8 := ch 'z'

theorem hexDecodeLoop_noDigits {b : Bytes} (hb : ¬∀ c ∈ b, c < 128) (oi : Nat) (obuf : Bytes) :
    (hexDecodeLoop (hexEncode noDigits b) oi obuf).1 = none := by
  induction b generalizing oi obuf with
  | nil => simp at hb
  | cons c b ih =>
    obtain ⟨h, l, hh, hl, hc⟩ := hexValue_hexLut c
    rw [hexEncode_cons]
    by_cases hlt : c < 128
    · rw [lutAt_high noDigits hlt]
      simp only [hexDecodeLoop, hh, hl]
      refine ih (fun hall => hb fun d hd => ?_) _ _
      obtain rfl | hd := List.mem_cons.mp hd
      · exact hlt
      · exact hall d hd
    · have hz : hexValue (noDigits (highIndex c)) = none := by
        simp only [noDigits]
        decide
      rw [lutAt_negative noDigits hlt]
      simp [hexDecodeLoop, hz]

theorem hexDecode_noDigits {b : Bytes} (hb : ¬∀ c ∈ b, c < 128) (buf : Bytes) :
    (hexDecode buf (cString (hexEncode noDigits b))).1 = none := by
  have hnul : ∀ c ∈ b, lutAt noDigits (highIndex c) ≠ 0 := by
    intro c hc
    by_cases hlt : c < 128
    · exact lutAt_high_ne_zero noDigits hlt
    · rw [lutAt_negative noDigits hlt, noDigits]
      decide
  rw [cString_hexEncode hnul, hexDecode]
  split
  · rfl
  · split
    · rfl
    · exact hexDecodeLoop_noDigits hb 0 buf

/-! ## Clients -/

/-- Whatever lies in front of the table, the text is read back in full. -/
def Reproduced (buf b : Bytes) : Prop :=
  ∀ below, (hexDecode buf (cString (hexEncode below b))).1 = some b.length ∧
    segment (hexDecode buf (cString (hexEncode below b))).2 0 b.length = b

/-- Whatever lies in front of the table, a client with new buffers gets the pending bytes. -/
def Iobufs.Restored (c : Iobufs) (ibuf obuf : Bytes) : Prop :=
  ∀ below,
    (acceptBuffers (workerClientJsonBuffers below c) (Iobufs.init ibuf obuf)).input = c.input ∧
    (acceptBuffers (workerClientJsonBuffers below c) (Iobufs.init ibuf obuf)).output = c.output

/-- The offsets of the buffers are in order. -/
structure Iobufs.Wf (c : Iobufs) : Prop where
  end_nonneg : 0 ≤ c.ibufEnd
  end_le_size : c.ibufEnd ≤ c.ibuf.length
  obuf : c.obuf.Wf

theorem reproduced_iff {b buf : Bytes} (hfits : b.length ≤ buf.length) :
    Reproduced buf b ↔ ∀ c ∈ b, c < 128 := by
  constructor
  · intro h
    by_contra hb
    obtain ⟨hlen, -⟩ := h noDigits
    rw [hexDecode_noDigits hb] at hlen
    cases hlen
  · intro hb below
    have hseg := @segment_memcpy _ buf b 0 (Nat.zero_le buf.length)
    rw [hexDecode_hexEncode below hb hfits]
    exact ⟨rfl, by simpa using hseg⟩

/-- What `hex_decode` leaves in an empty buffer. -/
def decoded (buf hex : Bytes) : Bytes :=
  segment (hexDecode buf hex).2 0 ((hexDecode buf hex).1.getD 0)

theorem decoded_iff {b buf : Bytes} (hfits : b.length ≤ buf.length) :
    (∀ below, decoded buf (cString (hexEncode below b)) = b) ↔ ∀ c ∈ b, c < 128 := by
  constructor
  · intro h
    by_contra hb
    have hempty := h noDigits
    rw [decoded, hexDecode_noDigits hb, Option.getD_none, segment_self] at hempty
    subst hempty
    exact hb (by simp)
  · intro hb below
    obtain ⟨hlen, hseg⟩ := (reproduced_iff hfits).mpr hb below
    rw [decoded, hlen]
    exact hseg

theorem decoded_nil (buf : Bytes) : decoded buf (cString []) = [] := rfl

theorem acceptObuf_input (obuf : Option Bytes) (c : Iobufs) :
    (acceptObuf obuf c).input = c.input := by
  unfold acceptObuf
  split
  · rfl
  · split <;> rfl

theorem acceptIbuf_obuf (ibuf : Option Bytes) (c : Iobufs) : (acceptIbuf ibuf c).obuf = c.obuf := by
  unfold acceptIbuf
  split
  · rfl
  · split <;> rfl

theorem input_acceptIbuf_some (ibuf obuf hex : Bytes) :
    (acceptIbuf (some hex) (Iobufs.init ibuf obuf)).input = decoded ibuf hex := by
  simp only [acceptIbuf, Iobufs.init, decoded]
  obtain ⟨r, buf⟩ := hexDecode ibuf hex
  cases r with
  | none => simp [Iobufs.input]
  | some l => rfl

theorem output_acceptObuf_some (hex : Bytes) {c : Iobufs} (hstart : c.obuf.obufStart = 0)
    (hend : c.obuf.obufEnd = 0) : (acceptObuf (some hex) c).output = decoded c.obuf.obuf hex := by
  simp only [acceptObuf, decoded]
  obtain ⟨r, buf⟩ := hexDecode c.obuf.obuf hex
  cases r with
  | none => simp [Iobufs.output, Obuf.pending, hstart, hend]
  | some l => rfl

section
variable {c : Iobufs} (h : c.Wf) (below : Int → UInt8) (ibuf obuf : Bytes)
include h

/-- The new input buffer holds what is decoded, and nothing if nothing was pending. -/
theorem input_acceptBuffers :
    (acceptBuffers (workerClientJsonBuffers below c) (Iobufs.init ibuf obuf)).input =
      decoded ibuf (cString (hexEncode below c.input)) := by
  rw [acceptBuffers, acceptObuf_input, workerClientJsonBuffers]
  dsimp only
  split
  · exact input_acceptIbuf_some ibuf obuf _
  · have hnone : c.ibufEnd = 0 := by
      have := h.end_nonneg
      omega
    have hinput : c.input = [] := by simp [Iobufs.input, hnone]
    have hsegment : (Iobufs.init ibuf obuf).input = [] := segment_self
    rw [hinput, acceptIbuf, hsegment]
    exact (decoded_nil ibuf).symm

/-- The new output buffer holds what is decoded, and nothing if nothing was pending. -/
theorem output_acceptBuffers :
    (acceptBuffers (workerClientJsonBuffers below c) (Iobufs.init ibuf obuf)).output =
      decoded obuf (cString (hexEncode below c.output)) := by
  have hobuf := acceptIbuf_obuf (workerClientJsonBuffers below c).ibuf (Iobufs.init ibuf obuf)
  rw [acceptBuffers]
  generalize acceptIbuf _ _ = c' at hobuf ⊢
  have hmem : c'.obuf.obuf = obuf := by rw [hobuf]; rfl
  have hstart : c'.obuf.obufStart = 0 := by rw [hobuf]; rfl
  have hend : c'.obuf.obufEnd = 0 := by rw [hobuf]; rfl
  rw [workerClientJsonBuffers]
  dsimp only
  split
  · rw [output_acceptObuf_some _ hstart hend, hmem]
  · have hlen := h.obuf.length_pending
    have houtput : c.output = [] := List.eq_nil_of_length_eq_zero (by
      rw [Iobufs.output]
      omega)
    rw [houtput]
    simp [acceptObuf, Iobufs.output, Obuf.pending, hstart, hend, hexEncode, decoded_nil]

end

/-- A byte string is read back as it was if and only if all its bytes are below 128, and
so the buffers of a client go through a live upgrade if and only if all pending bytes
are. -/
theorem pending_restored_iff {b buf ibuf obuf : Bytes} {c : Iobufs} (hb : b.length ≤ buf.length)
    (hc : c.Wf) (hibuf : c.input.length ≤ ibuf.length) (hobuf : c.output.length ≤ obuf.length) :
    (Reproduced buf b ↔ ∀ x ∈ b, x < 128) ∧
    (c.Restored ibuf obuf ↔ (∀ x ∈ c.input, x < 128) ∧ ∀ x ∈ c.output, x < 128) := by
  refine ⟨reproduced_iff hb, ?_⟩
  unfold Iobufs.Restored
  simp only [input_acceptBuffers hc, output_acceptBuffers hc]
  rw [forall_and, decoded_iff hibuf, decoded_iff hobuf]

theorem pending_restored_iff_hello :
    Reproduced (List.replicate 8 0) (ascii "OH7LZB") ∧
      ({ ibuf := ascii "OH7", ibufEnd := 2, obuf := ⟨ascii "# aprsc", 2, 7, 0⟩ } :
        Iobufs).Restored (List.replicate 8 0) (List.replicate 8 0) := by
  have h := @pending_restored_iff (ascii "OH7LZB") (List.replicate 8 0) (List.replicate 8 0)
    (List.replicate 8 0) { ibuf := ascii "OH7", ibufEnd := 2, obuf := ⟨ascii "# aprsc", 2, 7, 0⟩ }
    (by decide) ⟨by decide, by decide, ⟨by decide, by decide, by decide⟩⟩ (by decide) (by decide)
  exact ⟨h.1.mpr (forall_mem_of_all (by decide)),
    h.2.mpr ⟨forall_mem_of_all (by decide), forall_mem_of_all (by decide)⟩⟩

/-- A byte of UTF-8 text is not read back. -/
theorem utf8_byte_not_reproduced :
    ¬∀ b buf : Bytes, b.length ≤ buf.length → Reproduced buf b := by
  intro h
  have hbyte := (reproduced_iff (by decide)).mp (h [0xC3] [0] (by decide))
  exact absurd (hbyte 0xC3 (by simp)) (by decide)

end Aprsc
