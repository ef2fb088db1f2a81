-- SUMMARY: Memory seen from one base pointer, and the C scanning functions over it with the accesses they make.
import Aprsc.Base.Traced
import Aprsc.Base.Fields

/-!
# Memory areas

A program that parses a buffer holds pointers into it and scans it with `memchr`,
`memmem`, `memcmp` and loops over single elements. A pointer is an offset from
the start of the buffer. It may lie outside of the buffer, so the memory is a
function of every offset, and each scan logs the range it was told to read.

A length is a signed number that C converts to `size_t`. A negative one becomes
huge, and the scan runs away; what it finds then is a parameter of the memory.
-/

/-- Memory around a base pointer. -/
structure Area (α : Type u) where
  byte : Int → α
  /-- What a search from the given offset finds when its length has wrapped around. -/
  runaway : Int → Option Int

/-- A read of memory. -/
inductive Access where
  /-- A read of a range that starts at an offset, with the length passed. -/
  | span (start len : Int)
  /-- A read of a C string, up to its terminating NUL. -/
  | cstr (start : Int)
deriving Repr, DecidableEq

/-- The access reads only offsets from 0 to `last`, both included, and passes no
negative length. `ends` says of which strings the terminating NUL is there. -/
def Access.Within (last : Int) (ends : Int → Prop) : Access → Prop
  | .span start len => 0 ≤ len ∧ 0 ≤ start ∧ start + len ≤ last + 1
  | .cstr start => ends start

namespace Area

variable {α : Type} (m : Area α)

/-! ## Contents -/

/-- The `n` elements from offset `a` on. -/
def slice (a : Int) : Nat → List α
  | 0 => []
  | n + 1 => m.byte a :: slice (a + 1) n

theorem getElem?_slice (a : Int) (n i : Nat) :
    (m.slice a n)[i]? = if i < n then some (m.byte (a + i)) else none := by
  induction n generalizing a i with
  | zero => simp [slice]
  | succ n ih =>
    cases i with
    | zero => simp [slice]
    | succ i =>
      have hoff : a + 1 + (i : Int) = a + ((i + 1 : Nat) : Int) := by omega
      rw [slice, List.getElem?_cons_succ, ih, hoff]
      simp only [Nat.add_lt_add_iff_right]

/-- The elements of a slice are the ones at its offsets. -/
theorem mem_slice {a : Int} {n : Nat} {x : α} :
    x ∈ m.slice a n ↔ ∃ p : Int, a ≤ p ∧ p < a + n ∧ m.byte p = x := by
  simp only [List.mem_iff_getElem?, getElem?_slice, Option.ite_none_right_eq_some,
    Option.some.injEq]
  constructor
  · rintro ⟨i, hi, rfl⟩
    exact ⟨a + i, by omega, by omega, rfl⟩
  · rintro ⟨p, hlo, hhi, rfl⟩
    exact ⟨(p - a).toNat, by omega, by rw [show a + ((p - a).toNat : Int) = p by omega]⟩

/-- The memory holds `xs` at offset `a`. -/
def At (a : Int) (xs : List α) : Prop := m.slice a xs.length = xs

@[simp] theorem length_slice (a : Int) (n : Nat) : (m.slice a n).length = n := by
  induction n generalizing a with
  | zero => rfl
  | succ n ih => simp [slice, ih]

theorem slice_append (a : Int) (n k : Nat) :
    m.slice a (n + k) = m.slice a n ++ m.slice (a + n) k := by
  induction n generalizing a with
  | zero => simp [slice]
  | succ n ih =>
    rw [Nat.add_right_comm]
    simp only [slice, List.cons_append, ih]
    rw [show a + 1 + (n : Int) = a + ((n + 1 : Nat) : Int) by omega]

@[simp] theorem at_nil (a : Int) : m.At a [] := rfl

@[simp] theorem at_cons {a : Int} {x : α} {xs : List α} :
    m.At a (x :: xs) ↔ m.byte a = x ∧ m.At (a + 1) xs := by
  simp [At, slice]

theorem at_append {a : Int} {xs ys : List α} :
    m.At a (xs ++ ys) ↔ m.At a xs ∧ m.At (a + xs.length) ys := by
  simp only [At, List.length_append, slice_append]
  constructor
  · intro h
    exact List.append_inj h (by simp)
  · rintro ⟨hx, hy⟩
    rw [hx, hy]

theorem At.byte_eq {m : Area α} {a : Int} {xs : List α} (h : m.At a xs) {i : Nat} {x : α}
    (hx : xs[i]? = some x) : m.byte (a + i) = x := by
  induction xs generalizing a i with
  | nil => simp at hx
  | cons y ys ih =>
    rw [at_cons] at h
    cases i with
    | zero => simpa [← h.1] using hx
    | succ i =>
      have hi : m.byte (a + 1 + i) = x := ih h.2 (by simpa using hx)
      rw [← hi]
      congr 1
      omega

/-- A part of an area whose contents are known. -/
theorem At.slice_eq {m : Area α} {a : Int} {xs : List α} (h : m.At a xs) {i n : Nat}
    (hn : i + n ≤ xs.length) : m.slice (a + i) n = (xs.drop i).take n := by
  rw [← List.take_append_drop i xs, ← List.take_append_drop n (xs.drop i), at_append,
    at_append] at h
  have hpart : m.slice (a + (xs.take i).length) ((xs.drop i).take n).length =
      (xs.drop i).take n := h.2.1
  rwa [List.length_take, List.length_take, List.length_drop, Nat.min_eq_left (by omega),
    Nat.min_eq_left (by omega)] at hpart

/-- The memory with `xs` stored at offset 0. -/
def load (xs : List α) : Area α :=
  { m with byte := fun i => if 0 ≤ i then xs.getD i.toNat (m.byte i) else m.byte i }

theorem at_iff {a : Int} {xs : List α} :
    m.At a xs ↔ ∀ (i : Nat) (x : α), xs[i]? = some x → m.byte (a + i) = x := by
  constructor
  · intro h i x hx
    exact h.byte_eq hx
  · intro h
    induction xs generalizing a with
    | nil => simp
    | cons y ys ih =>
      rw [at_cons]
      refine ⟨by simpa using h 0 y rfl, ih ?_⟩
      intro i x hx
      rw [show a + 1 + (i : Int) = a + ((i + 1 : Nat) : Int) by omega]
      exact h (i + 1) x (by simpa using hx)

theorem at_load (xs : List α) : (m.load xs).At 0 xs := by
  rw [at_iff]
  intro i x hx
  simp [load, hx]

/-- The memory with one element overwritten. -/
def set (p : Int) (x : α) : Area α :=
  { m with byte := fun i => if i = p then x else m.byte i }

/-- The memory with `xs` written at offset `a`. -/
def write (a : Int) (xs : List α) : Area α :=
  { m with byte := fun i => if a ≤ i then xs.getD (i - a).toNat (m.byte i) else m.byte i }

/-- Overwriting an element leaves the areas beside it as they are. -/
theorem At.set {m : Area α} {a p : Int} {x : α} {xs : List α} (h : m.At a xs)
    (hp : p < a ∨ a + xs.length ≤ p) : (m.set p x).At a xs := by
  rw [at_iff] at h ⊢
  intro i y hy
  have hlt := (List.getElem?_eq_some_iff.mp hy).1
  have hne : a + (i : Int) ≠ p := by omega
  simpa [Area.set, hne] using h i y hy

/-- Overwriting an element of an area whose contents are known. -/
theorem At.set_mid {m : Area α} {a p : Int} {x y : α} {xs ys : List α}
    (h : m.At a (xs ++ x :: ys)) (hp : p = a + xs.length) : (m.set p y).At a (xs ++ y :: ys) := by
  rw [at_append, at_cons] at h ⊢
  refine ⟨h.1.set (.inr (by omega)), ?_, h.2.2.set (.inl (by omega))⟩
  simp [Area.set, hp]

/-! ## Scans -/

/-- `*p`. -/
def read (p : Int) : Traced Access α := do
  Traced.tell (.span p 1)
  pure (m.byte p)

/-- The `n` elements a comparison or a copy is told to read. -/
def bytes (a n : Int) : Traced Access (List α) := do
  Traced.tell (.span a n)
  pure (m.slice a n.toNat)

/-- A search through `n` elements from `a` on, for what `find` looks for. -/
def search (find : List α → Option Nat) (a n : Int) : Traced Access (Option Int) := do
  Traced.tell (.span a n)
  if n < 0 then pure (m.runaway a)
  else pure ((find (m.slice a n.toNat)).map fun i : Nat => a + (i : Int))

/-- `memchr`. -/
def memchr [BEq α] (a : Int) (c : α) (n : Int) : Traced Access (Option Int) :=
  m.search (List.findIdx? (· == c)) a n

/-- `memmem`. -/
def memmem [BEq α] (a n : Int) (needle : List α) : Traced Access (Option Int) :=
  m.search (findSub needle) a n

/-- Advance from `p` over at most `n` elements, up to the first that `stop` holds
of. -/
def scanUntil (stop : α → Bool) : Nat → Int → Traced Access Int
  | 0, p => pure p
  | n + 1, p => do
      if stop (← m.read p) then pure p else scanUntil stop n (p + 1)

/-- Go back from `lo + n` to the last element that `stop` holds of, but not below
`lo`. -/
def scanBack (stop : α → Bool) (lo : Int) : Nat → Traced Access Int
  | 0 => pure lo
  | n + 1 => do
      if stop (← m.read (lo + (n + 1))) then pure (lo + (n + 1)) else scanBack stop lo n

section Values

@[simp] theorem val_read (p : Int) : (m.read p).val = m.byte p := rfl

@[simp] theorem val_bytes (a n : Int) : (m.bytes a n).val = m.slice a n.toNat := rfl

theorem val_search (find : List α → Option Nat) (a n : Int) :
    (m.search find a n).val =
      if n < 0 then m.runaway a else (find (m.slice a n.toNat)).map fun i : Nat => a + (i : Int) := by
  simp [search, Traced.val_ite]

/-- A search over an area whose contents are known. -/
theorem At.val_search {m : Area α} {a n : Int} {xs : List α} (h : m.At a xs)
    (hn : n = xs.length) (find : List α → Option Nat) :
    (m.search find a n).val = (find xs).map fun i : Nat => a + (i : Int) := by
  have h' : m.slice a xs.length = xs := h
  rw [Area.val_search, hn, if_neg (by omega), Int.toNat_natCast, h']

theorem val_scanUntil (stop : α → Bool) (n : Nat) (p : Int) :
    (m.scanUntil stop n p).val = p + ((m.slice p n).takeWhile (! stop ·)).length := by
  induction n generalizing p with
  | zero => simp [scanUntil, slice]
  | succ n ih =>
    simp only [scanUntil, Traced.val_bind, slice, List.takeWhile_cons]
    split
    next h =>
      rw [val_read] at h
      simp [h]
    next h =>
      rw [val_read, Bool.not_eq_true] at h
      simp only [ih, h, Bool.not_false, if_true, List.length_cons]
      omega

/-- The backward scan stops at the last hit. -/
theorem val_scanBack {stop : α → Bool} {lo : Int} {k n : Nat} (hk : k ≤ n)
    (hit : k = 0 ∨ stop (m.byte (lo + k)) = true)
    (hmiss : ∀ i : Nat, k < i → i ≤ n → stop (m.byte (lo + i)) = false) :
    (m.scanBack stop lo n).val = lo + k := by
  induction n with
  | zero =>
    have : k = 0 := by omega
    simp [scanBack, this]
  | succ n ih =>
    simp only [scanBack, Traced.val_bind]
    cases Nat.lt_or_ge n k with
    | inl hlt =>
      have hkn : k = n + 1 := by omega
      subst hkn
      have hs : stop (m.byte (lo + (n + 1))) = true := by simpa using hit
      simp [hs]
    | inr hge =>
      have hs : stop (m.byte (lo + (n + 1))) = false := by
        simpa using hmiss (n + 1) (by omega) (by omega)
      simpa [hs] using ih hge fun i h1 h2 => hmiss i h1 (by omega)

theorem scanUntil_bounds (stop : α → Bool) (n : Nat) (p : Int) :
    p ≤ (m.scanUntil stop n p).val ∧ (m.scanUntil stop n p).val ≤ p + n := by
  rw [val_scanUntil]
  have h := (List.takeWhile_sublist (! stop ·) (l := m.slice p n)).length_le
  rw [length_slice] at h
  omega

/-- A forward scan that stops early stops at a hit. -/
theorem stop_scanUntil {stop : α → Bool} {n : Nat} {p : Int}
    (h : (m.scanUntil stop n p).val < p + n) : stop (m.byte (m.scanUntil stop n p).val) = true := by
  induction n generalizing p with
  | zero => simp [scanUntil] at h
  | succ n ih =>
    simp only [scanUntil, Traced.val_bind] at h ⊢
    split
    next hs => simpa using hs
    next hs =>
      rw [if_neg hs] at h
      apply ih
      push_cast at h
      omega

/-- A forward scan moves when it does not start at a hit. -/
theorem lt_scanUntil {stop : α → Bool} {n : Nat} {p : Int} (hn : 0 < n)
    (h : stop (m.byte p) = false) : p < (m.scanUntil stop n p).val := by
  cases n with
  | zero => omega
  | succ n =>
    have hb := (m.scanUntil_bounds stop n (p + 1)).1
    simp only [scanUntil, Traced.val_bind]
    rw [if_neg (by simp [h])]
    omega

theorem scanBack_bounds (stop : α → Bool) (lo : Int) (n : Nat) :
    lo ≤ (m.scanBack stop lo n).val ∧ (m.scanBack stop lo n).val ≤ lo + n := by
  induction n with
  | zero => simp [scanBack]
  | succ n ih =>
    simp only [scanBack, Traced.val_bind]
    split
    next =>
      simp only [Traced.val_pure]
      omega
    next => omega

/-- What is found lies in the range that was searched. -/
theorem memmem_bounds [BEq α] [LawfulBEq α] {a n p : Int} {needle : List α} (hn : 0 ≤ n)
    (hne : needle ≠ []) (h : (m.memmem a n needle).val = some p) :
    a ≤ p ∧ p + needle.length ≤ a + n := by
  unfold memmem at h
  rw [val_search, if_neg (by omega)] at h
  cases hf : findSub needle (m.slice a n.toNat) with
  | none => simp [hf] at h
  | some i =>
    have h : a + (i : Int) = p := by simpa [hf] using h
    have hlen := (findSub_eq_some hf).1.length_le
    have hpos := List.length_pos_of_ne_nil hne
    rw [List.length_drop, length_slice] at hlen
    omega

theorem memchr_bounds [BEq α] [LawfulBEq α] {a n p : Int} {c : α} (hn : 0 ≤ n)
    (h : (m.memchr a c n).val = some p) : a ≤ p ∧ p < a + n := by
  unfold memchr at h
  rw [val_search, if_neg (by omega)] at h
  cases hf : (m.slice a n.toNat).findIdx? (· == c) with
  | none => simp [hf] at h
  | some i =>
    have h : a + (i : Int) = p := by simpa [hf] using h
    have hlt := (List.getElem?_eq_some_iff.mp (findIdx?_beq_eq_some hf).1).1
    rw [length_slice] at hlt
    omega

/-- What a search for an element finds: the first one. -/
theorem memchr_cases [BEq α] [LawfulBEq α] {a n : Int} {c : α} (hn : 0 ≤ n) :
    ((m.memchr a c n).val = none ∧ ∀ p, a ≤ p → p < a + n → m.byte p ≠ c) ∨
      ∃ p, (m.memchr a c n).val = some p ∧ a ≤ p ∧ p < a + n ∧ m.byte p = c ∧
        ∀ q, a ≤ q → q < p → m.byte q ≠ c := by
  have hval := m.val_search (List.findIdx? (· == c)) a n
  rw [if_neg (by omega)] at hval
  unfold memchr
  cases hfind : (m.slice a n.toNat).findIdx? (· == c) with
  | some i =>
    rw [hfind] at hval
    obtain ⟨hget, -, hfirst⟩ := findIdx?_beq_eq_some hfind
    rw [getElem?_slice] at hget
    obtain ⟨hi, hbyte⟩ := Option.ite_none_right_eq_some.mp hget
    refine .inr ⟨a + i, hval, by omega, by omega, Option.some.inj hbyte, fun q hlo hhi heq => ?_⟩
    have hq : a + ((q - a).toNat : Int) = q := by omega
    refine hfirst (List.mem_iff_getElem?.mpr ⟨(q - a).toNat, ?_⟩)
    rw [List.getElem?_take_of_lt (by omega), getElem?_slice, if_pos (by omega), hq, heq]
  | none =>
    rw [hfind] at hval
    refine .inl ⟨hval, fun p hlo hhi heq => ?_⟩
    rw [List.findIdx?_eq_none_iff] at hfind
    have hmem : m.byte p ∈ m.slice a n.toNat := m.mem_slice.mpr ⟨p, hlo, by omega, rfl⟩
    exact beq_eq_false_iff_ne.mp (hfind _ hmem) heq

end Values

section Accesses

variable {m} {P : Access → Prop}

@[simp] theorem all_read {p : Int} : (m.read p).All P ↔ P (.span p 1) := by
  simp [read]

@[simp] theorem all_bytes {a n : Int} : (m.bytes a n).All P ↔ P (.span a n) := by
  simp [bytes]

@[simp] theorem all_search {find : List α → Option Nat} {a n : Int} :
    (m.search find a n).All P ↔ P (.span a n) := by
  simp [search, Traced.all_ite]

theorem all_scanUntil {stop : α → Bool} {n : Nat} {p : Int}
    (h : ∀ i : Nat, i < n → P (.span (p + i) 1)) : (m.scanUntil stop n p).All P := by
  induction n generalizing p with
  | zero => simp [scanUntil]
  | succ n ih =>
    simp only [scanUntil, Traced.all_bind, all_read, Traced.all_ite, Traced.all_pure]
    refine ⟨by simpa using h 0 (by omega), fun _ => trivial, fun _ => ?_⟩
    apply ih
    intro i hi
    have := h (i + 1) (by omega)
    rwa [show p + 1 + (i : Int) = p + ((i + 1 : Nat) : Int) by omega]

theorem all_scanBack {stop : α → Bool} {lo : Int} {n : Nat}
    (h : ∀ i : Nat, i < n → P (.span (lo + (i + 1)) 1)) : (m.scanBack stop lo n).All P := by
  induction n with
  | zero => simp [scanBack]
  | succ n ih =>
    simp only [scanBack, Traced.all_bind, all_read, Traced.all_ite, Traced.all_pure]
    exact ⟨h n (by omega), fun _ => trivial, fun _ => ih fun i hi => h i (by omega)⟩

end Accesses

end Area
