-- SUMMARY: The quoting of packets in the log: what is written, where, and that the packet can be told from it.
import Aprsc.Base.PrefixCode
import Aprsc.Historydb
import Aprsc.Base.Area

/-!
# Quoted packets

`str_quote` writes a packet into a line of the log. Printable bytes stay, a backslash is
doubled, and the other bytes are written in hexadecimal. The room for a doubled backslash
is kept free from the start, and the room for the four bytes of an escape is checked.
-/

namespace Aprsc

/-! ## The loop -/

/-- A byte that is written at an index of the destination. -/
structure DstWrite where
  di : Nat
  byte : UInt8
deriving Repr, DecidableEq

/-- The destination, the index of the next byte, and the source from `si` on. -/
structure Quote where
  dst : Area UInt8
  di : Nat
  left : Bytes

namespace Quote

/-- `dst[di++] = c`. -/
def put (q : Quote) (c : UInt8) : Traced DstWrite Quote := do
  Traced.tell ⟨q.di, c⟩
  pure { q with dst := q.dst.set q.di c, di := q.di + 1 }

/-- A digit of the `%X` format. -/
def hexDigitUpper (n : Nat) : UInt8 := (ascii "0123456789ABCDEF").getD n 0

/-- `di += snprintf(dst + di, 3, "%.2X", c)`, with the NUL that `snprintf` writes. -/
def printHex (q : Quote) (c : UInt8) : Traced DstWrite Quote := do
  let q ← q.put (hexDigitUpper (c.toNat / 16))
  let q ← q.put (hexDigitUpper (c.toNat % 16))
  Traced.tell ⟨q.di, 0⟩
  pure { q with dst := q.dst.set q.di 0 }

/-- A printable byte. The escape is escaped. -/
def putPrintable (q : Quote) (c : UInt8) : Traced DstWrite Quote :=
  if c = ch '\\' then do
    let q ← q.put (ch '\\')
    q.put c
  else q.put c

/-- A byte in hexadecimal. -/
def putHex (q : Quote) (c : UInt8) : Traced DstWrite Quote := do
  let q ← q.put (ch '\\')
  let q ← q.put (ch 'x')
  q.printHex c

end Quote

/-- The bytes of printable ASCII. -/
def IsPrintable (c : UInt8) : Prop := 0x20 ≤ c ∧ c < 0x7f

instance (c : UInt8) : Decidable (IsPrintable c) := inferInstanceAs (Decidable (_ ∧ _))

/-- The loop of `str_quote`. -/
def strQuoteLoop (dstUseLen : Int) : (src : Bytes) → Quote → Traced DstWrite Quote
  | [], q => pure { q with left := [] }
  | c :: src, q =>
      if q.di ≥ dstUseLen then pure { q with left := c :: src }
      else if IsPrintable c then do
        let q ← q.putPrintable c
        strQuoteLoop dstUseLen src q
      -- A hexadecimal escape takes more space.
      else if q.di ≥ dstUseLen - 4 then pure { q with left := c :: src }
      else do
        let q ← q.putHex c
        strQuoteLoop dstUseLen src q

/-- `str_quote`. Its value is the index in the end. -/
def strQuote (dst : Area UInt8) (dstLen : Int) (src : Bytes) : Traced DstWrite Quote := do
  let q ← strQuoteLoop (dstLen - 2) src ⟨dst, 0, src⟩
  q.put 0

/-! ## Quoted text -/

/-- How a byte is quoted. -/
def quoteByte (c : UInt8) : Bytes :=
  if c = ch '\\' then [ch '\\', ch '\\']
  else if IsPrintable c then [c]
  else [ch '\\', ch 'x', Quote.hexDigitUpper (c.toNat / 16), Quote.hexDigitUpper (c.toNat % 16)]

/-- The string at the destination. -/
def Quote.text (q : Quote) : Bytes := cString (q.dst.slice 0 q.di)

theorem hexDigitUpper_printable : ∀ n : Fin 16, IsPrintable (Quote.hexDigitUpper n) := by decide

theorem hexDigitUpper_injective :
    ∀ m n : Fin 16, Quote.hexDigitUpper m = Quote.hexDigitUpper n → m = n := by
  decide

theorem quoteByte_printable (c : UInt8) : ∀ b ∈ quoteByte c, IsPrintable b := by
  have hhigh := hexDigitUpper_printable ⟨c.toNat / 16, by have := c.toNat_lt; omega⟩
  have hlow := hexDigitUpper_printable ⟨c.toNat % 16, by omega⟩
  have hslash : IsPrintable (ch '\\') := by decide
  have hx : IsPrintable (ch 'x') := by decide
  intro b hb
  unfold quoteByte at hb
  split at hb
  · simp only [List.mem_cons, List.not_mem_nil, or_false, or_self] at hb
    exact hb ▸ hslash
  · split at hb
    next hc => exact List.mem_singleton.mp hb ▸ hc
    next hc =>
      simp only [List.mem_cons, List.not_mem_nil, or_false] at hb
      rcases hb with rfl | rfl | rfl | rfl
      · exact hslash
      · exact hx
      · exact hhigh
      · exact hlow

theorem quoteByte_plain {c : UInt8} (hc : IsPrintable c) (hslash : c ≠ ch '\\') :
    quoteByte c = [c] := by
  rw [quoteByte, if_neg hslash, if_pos hc]

theorem quoteByte_slash : quoteByte (ch '\\') = [ch '\\', ch '\\'] := rfl

theorem quoteByte_hex {c : UInt8} (hc : ¬IsPrintable c) :
    quoteByte c = [ch '\\', ch 'x', Quote.hexDigitUpper (c.toNat / 16),
      Quote.hexDigitUpper (c.toNat % 16)] := by
  have hslash : c ≠ ch '\\' := by
    rintro rfl
    exact absurd hc (by decide)
  rw [quoteByte, if_neg hslash, if_neg hc]

/-- The digits determine the byte. -/
theorem eq_of_hexDigits {a b : UInt8}
    (hhigh : Quote.hexDigitUpper (a.toNat / 16) = Quote.hexDigitUpper (b.toNat / 16))
    (hlow : Quote.hexDigitUpper (a.toNat % 16) = Quote.hexDigitUpper (b.toNat % 16)) : a = b := by
  have ha := a.toNat_lt
  have hb := b.toNat_lt
  have hdiv := hexDigitUpper_injective ⟨a.toNat / 16, by omega⟩ ⟨b.toNat / 16, by omega⟩ hhigh
  have hmod := hexDigitUpper_injective ⟨a.toNat % 16, by omega⟩ ⟨b.toNat % 16, by omega⟩ hlow
  rw [Fin.mk.injEq] at hdiv hmod
  exact UInt8.toNat_inj.mp (by omega)

/-- The second byte of an escape tells which of the two it is. -/
theorem quoteByte_prefixCode : PrefixCode quoteByte where
  ne_nil c := by
    unfold quoteByte
    split
    · exact List.cons_ne_nil _ _
    · split <;> exact List.cons_ne_nil _ _
  eq_of_prefix := by
    intro a b hpre
    by_cases ha : IsPrintable a <;> by_cases hb : IsPrintable b
    · by_cases has : a = ch '\\' <;> by_cases hbs : b = ch '\\'
      · rw [has, hbs]
      · subst has
        rw [quoteByte_slash, quoteByte_plain hb hbs] at hpre
        exact absurd (List.cons_prefix_cons.mp hpre).1.symm hbs
      · subst hbs
        rw [quoteByte_slash, quoteByte_plain ha has] at hpre
        exact absurd (List.cons_prefix_cons.mp hpre).1 has
      · rw [quoteByte_plain ha has, quoteByte_plain hb hbs] at hpre
        exact (List.cons_prefix_cons.mp hpre).1
    · rw [quoteByte_hex hb] at hpre
      by_cases has : a = ch '\\'
      · subst has
        rw [quoteByte_slash] at hpre
        exact absurd (List.cons_prefix_cons.mp (List.cons_prefix_cons.mp hpre).2).1 (by decide)
      · rw [quoteByte_plain ha has] at hpre
        exact absurd (List.cons_prefix_cons.mp hpre).1 has
    · rw [quoteByte_hex ha] at hpre
      by_cases hbs : b = ch '\\'
      · subst hbs
        exact absurd hpre.length_le (by simp [quoteByte_slash])
      · rw [quoteByte_plain hb hbs] at hpre
        exact absurd hpre.length_le (by simp)
    · rw [quoteByte_hex ha, quoteByte_hex hb] at hpre
      simp only [List.cons_prefix_cons, true_and] at hpre
      exact eq_of_hexDigits hpre.1 hpre.2.1

/-! ## What is written -/

namespace Quote

/-- The bytes that are written so far. -/
def Holds (q : Quote) (out : Bytes) : Prop := q.dst.At 0 out ∧ q.di = out.length

variable {q : Quote} {out : Bytes}

theorem Holds.put (h : q.Holds out) (c : UInt8) : (q.put c).val.Holds (out ++ [c]) := by
  obtain ⟨hat, hdi⟩ := h
  refine ⟨Area.at_append _ |>.mpr ⟨hat.set (.inr (by rw [hdi]; omega)), ?_⟩, ?_⟩
  · rw [Area.at_cons]
    refine ⟨?_, Area.at_nil ..⟩
    simp [Quote.put, Area.set, hdi]
  · rw [List.length_append, List.length_singleton, ← hdi]
    rfl

theorem Holds.putPrintable (h : q.Holds out) {c : UInt8} (hc : IsPrintable c) :
    (q.putPrintable c).val.Holds (out ++ quoteByte c) := by
  rw [Quote.putPrintable, Traced.val_ite]
  by_cases hslash : c = ch '\\'
  · subst hslash
    rw [if_pos rfl, quoteByte_slash, List.append_cons]
    exact (h.put _).put _
  · rw [if_neg hslash, quoteByte_plain hc hslash]
    exact h.put c

theorem Holds.putHex (h : q.Holds out) {c : UInt8} (hc : ¬IsPrintable c) :
    (q.putHex c).val.Holds (out ++ quoteByte c) := by
  rw [quoteByte_hex hc]
  have hdigits := (((h.put (ch '\\')).put (ch 'x')).put (hexDigitUpper (c.toNat / 16))).put
    (hexDigitUpper (c.toNat % 16))
  simp only [List.append_assoc, List.singleton_append] at hdigits
  -- The NUL is after the digits.
  exact ⟨hdigits.1.set (.inr (by rw [hdigits.2]; omega)), hdigits.2⟩

variable {dstUseLen : Int}

/-- A doubled backslash may take the index after those that are in use. -/
theorem putPrintable_bounds (hdi : q.di < dstUseLen) (c : UInt8) :
    (q.putPrintable c).All (fun w => (w.di : Int) ≤ dstUseLen) ∧
      ((q.putPrintable c).val.di : Int) ≤ dstUseLen + 1 := by
  rw [Quote.putPrintable, Traced.all_ite, Traced.val_ite]
  refine ⟨⟨fun _ => ?_, fun _ => ?_⟩, ?_⟩
  · simp only [Quote.put, Traced.all_bind, Traced.all_tell, Traced.all_pure, Traced.val_bind,
      Traced.val_pure, and_true]
    omega
  · simp only [Quote.put, Traced.all_bind, Traced.all_tell, Traced.all_pure, and_true]
    omega
  · split <;> simp only [Quote.put, Traced.val_bind, Traced.val_pure] <;> omega

theorem putHex_bounds (hdi : q.di < dstUseLen - 4) (c : UInt8) :
    (q.putHex c).All (fun w => (w.di : Int) ≤ dstUseLen) ∧
      ((q.putHex c).val.di : Int) ≤ dstUseLen + 1 := by
  simp only [Quote.putHex, Quote.printHex, Quote.put, Traced.all_bind, Traced.all_tell,
    Traced.all_pure, Traced.val_bind, Traced.val_pure, and_true]
  omega

end Quote

/-- The loop quotes a start of the source, and leaves room for the NUL. -/
theorem strQuoteLoop_spec {dstUseLen : Int} (src : Bytes) {q : Quote} {out : Bytes}
    (h : q.Holds out) (hdi : q.di ≤ dstUseLen + 1) :
    (strQuoteLoop dstUseLen src q).All (fun w => (w.di : Int) ≤ dstUseLen) ∧
    ((strQuoteLoop dstUseLen src q).val.di : Int) ≤ dstUseLen + 1 ∧
    ∃ taken, src = taken ++ (strQuoteLoop dstUseLen src q).val.left ∧
      (strQuoteLoop dstUseLen src q).val.Holds (out ++ taken.flatMap quoteByte) := by
  induction src generalizing q out with
  | nil =>
    refine ⟨(Traced.all_pure _ _).mpr trivial, hdi, [], rfl, ?_⟩
    rw [List.flatMap_nil, List.append_nil]
    exact h
  | cons c src ih =>
    have hstop : ∃ taken, c :: src = taken ++ c :: src ∧
        Quote.Holds { q with left := c :: src } (out ++ taken.flatMap quoteByte) :=
      ⟨[], rfl, by rw [List.flatMap_nil, List.append_nil]; exact h⟩
    -- The rest of the loop, after the byte was quoted.
    have hround {t : Traced DstWrite Quote} (hholds : t.val.Holds (out ++ quoteByte c))
        (hbounds : t.All (fun w => (w.di : Int) ≤ dstUseLen) ∧ (t.val.di : Int) ≤ dstUseLen + 1) :
        (t >>= strQuoteLoop dstUseLen src).All (fun w => (w.di : Int) ≤ dstUseLen) ∧
        ((t >>= strQuoteLoop dstUseLen src).val.di : Int) ≤ dstUseLen + 1 ∧
        ∃ taken, c :: src = taken ++ (t >>= strQuoteLoop dstUseLen src).val.left ∧
          (t >>= strQuoteLoop dstUseLen src).val.Holds (out ++ taken.flatMap quoteByte) := by
      obtain ⟨hall, hlast, taken, hsrc, hout⟩ := ih hholds hbounds.2
      rw [Traced.all_bind, Traced.val_bind]
      refine ⟨⟨hbounds.1, hall⟩, hlast, c :: taken, ?_, ?_⟩
      · rw [List.cons_append, ← hsrc]
      · rw [List.flatMap_cons, ← List.append_assoc]
        exact hout
    rw [strQuoteLoop]
    by_cases hfull : q.di ≥ dstUseLen
    · rw [if_pos hfull]
      exact ⟨(Traced.all_pure _ _).mpr trivial, hdi, hstop⟩
    · rw [if_neg hfull]
      by_cases hc : IsPrintable c
      · rw [if_pos hc]
        exact hround (h.putPrintable hc) (Quote.putPrintable_bounds (by omega) c)
      · rw [if_neg hc]
        by_cases hroom : q.di ≥ dstUseLen - 4
        · rw [if_pos hroom]
          exact ⟨(Traced.all_pure _ _).mpr trivial, hdi, hstop⟩
        · rw [if_neg hroom]
          exact hround (h.putHex hc) (Quote.putHex_bounds (by omega) c)

/-- `str_quote` stays in the destination and terminates the string there, which is the quoted start
of the source before what is left. -/
theorem strQuote_spec (dst : Area UInt8) {dstLen : Int} (hlen : 2 ≤ dstLen) (src : Bytes) :
    (strQuote dst dstLen src).All (fun w => (w.di : Int) < dstLen) ∧
    ∃ taken, src = taken ++ (strQuote dst dstLen src).val.left ∧
      (strQuote dst dstLen src).val.Holds (taken.flatMap quoteByte ++ [0]) := by
  have hempty : Quote.Holds ⟨dst, 0, src⟩ [] := ⟨Area.at_nil .., rfl⟩
  have hstart : ((⟨dst, 0, src⟩ : Quote).di : Int) ≤ dstLen - 2 + 1 := by
    simp only []
    omega
  obtain ⟨hall, hlast, taken, hsrc, hout⟩ := strQuoteLoop_spec src hempty hstart
  rw [List.nil_append] at hout
  refine ⟨?_, taken, hsrc, hout.put 0⟩
  rw [strQuote, Traced.all_bind]
  refine ⟨fun w hw => ?_, ?_⟩
  · have hle := hall w hw
    omega
  · simp only [Quote.put, Traced.all_bind, Traced.all_tell, Traced.all_pure, and_true]
    omega

theorem Quote.Holds.text_eq {q : Quote} {out : Bytes} (h : q.Holds (out ++ [0]))
    (hout : (0 : UInt8) ∉ out) : q.text = out := by
  have hslice : q.dst.slice 0 (out ++ [0]).length = out ++ [0] := h.1
  rw [Quote.text, h.2, hslice, cString_append hout]
  exact List.append_nil out

theorem zero_not_mem_flatMap_quoteByte (src : Bytes) : (0 : UInt8) ∉ src.flatMap quoteByte := by
  intro hmem
  obtain ⟨c, -, hc⟩ := List.mem_flatMap.mp hmem
  exact absurd (quoteByte_printable c 0 hc) (by decide)

/-- A quoted packet stays in its place in the line, is printable, and if it is not cut off it is not the
quote of another packet. -/
theorem quoted_packet_safe (dst dst' : Area UInt8) {dstLen dstLen' : Int} (hlen : 2 ≤ dstLen)
    (hlen' : 2 ≤ dstLen') (src src' : Bytes) :
    (strQuote dst dstLen src).All (fun w => (w.di : Int) < dstLen) ∧
    (∃ out, (strQuote dst dstLen src).val.dst.At 0 (out ++ [0]) ∧
      (strQuote dst dstLen src).val.di = out.length + 1 ∧ ∀ b ∈ out, IsPrintable b) ∧
    ((strQuote dst dstLen src).val.left = [] → (strQuote dst' dstLen' src').val.left = [] →
      src ≠ src' → (strQuote dst dstLen src).val.text ≠ (strQuote dst' dstLen' src').val.text) := by
  obtain ⟨hall, taken, hsrc, hout⟩ := strQuote_spec dst hlen src
  obtain ⟨-, taken', hsrc', hout'⟩ := strQuote_spec dst' hlen' src'
  refine ⟨hall, ⟨_, hout.1, ?_, fun b hb => ?_⟩, fun hleft hleft' hne htext => ?_⟩
  · rw [hout.2, List.length_append, List.length_singleton]
  · obtain ⟨c, -, hc⟩ := List.mem_flatMap.mp hb
    exact quoteByte_printable c b hc
  · rw [hout.text_eq (zero_not_mem_flatMap_quoteByte taken),
      hout'.text_eq (zero_not_mem_flatMap_quoteByte taken')] at htext
    have hequal := quoteByte_prefixCode.flatMap_injective htext
    rw [hleft, List.append_nil] at hsrc
    rw [hleft', List.append_nil] at hsrc'
    exact hne (hsrc.trans (hequal.trans hsrc'.symm))

private def emptyLine : Area UInt8 := ⟨fun _ => 0, fun _ => none⟩

/-- A newline is not taken for the text of its escape. -/
theorem quoted_packet_safe_newline :
    (strQuote emptyLine 64 [10]).val.text ≠ (strQuote emptyLine 64 (ascii "\\x0A")).val.text :=
  (@quoted_packet_safe emptyLine emptyLine 64 64 (by decide) (by decide) [10]
    (ascii "\\x0A")).2.2 (by decide) (by decide) (by decide)

end Aprsc
