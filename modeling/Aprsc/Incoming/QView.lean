-- SUMMARY: The Q construct of a path in terms of its entries, and what the scans of `q_process` find of it.
import Aprsc.Incoming.Qconst

/-!
# Paths and their constructs

`q_process` works on pointers. Here the path is a list of entries, its construct
is an entry that starts with `q`, and each scan of `q_process` is evaluated in
these terms.
-/

namespace Aprsc

/-! ## The construct of a path -/

/-- The entry starts with `q`. -/
def startsQ (e : Bytes) : Bool := e.head? == some (ch 'q')

/-- The entries before the first one that starts with `q`. -/
def beforeQ (path : List Bytes) : List Bytes := path.takeWhile (! startsQ ·)

/-- The first entry that starts with `q`, as `q_process` sees it. -/
inductive QView where
  | none
  /-- It does not have three characters, or no call follows it. -/
  | malformed
  | good (proto type : UInt8) (after : List Bytes)
deriving Repr, DecidableEq

/-- The construct of a path. -/
def qView (path : List Bytes) : QView :=
  match path.dropWhile (! startsQ ·) with
  | [] => .none
  | [_, proto, type] :: next :: more =>
      if next.isEmpty then .malformed else .good proto type (next :: more)
  | _ => .malformed

theorem startsQ_of_mem_beforeQ {path : List Bytes} {e : Bytes} (h : e ∈ beforeQ path) :
    startsQ e = false := by
  simpa using List.mem_takeWhile_imp h

theorem mem_of_mem_beforeQ {path : List Bytes} {e : Bytes} (h : e ∈ beforeQ path) : e ∈ path :=
  (List.takeWhile_sublist _).subset h

/-- A path without a construct. -/
theorem beforeQ_of_none {path : List Bytes} (h : qView path = .none) : beforeQ path = path := by
  unfold qView at h
  have hsplit := List.takeWhile_append_dropWhile (p := (! startsQ ·)) (l := path)
  split at h
  next hnil => simpa [beforeQ, hnil] using hsplit
  next => split at h <;> cases h
  next => cases h

/-- A path with an entry that starts with `q`. -/
theorem exists_of_ne_none {path : List Bytes} (h : qView path ≠ .none) :
    ∃ e es, path = beforeQ path ++ e :: es ∧ startsQ e = true := by
  have hsplit := List.takeWhile_append_dropWhile (p := (! startsQ ·)) (l := path)
  cases hd : path.dropWhile (! startsQ ·) with
  | nil => simp [qView, hd] at h
  | cons e es =>
    refine ⟨e, es, ?_, ?_⟩
    · rw [hd] at hsplit
      exact hsplit.symm
    · have := List.head?_dropWhile_not (! startsQ ·) path
      rw [hd] at this
      simpa using this

theorem dropWhile_beforeQ {path : List Bytes} {e : Bytes} {es : List Bytes}
    (h : path = beforeQ path ++ e :: es) : path.dropWhile (! startsQ ·) = e :: es := by
  have hsplit := List.takeWhile_append_dropWhile (p := (! startsQ ·)) (l := path)
  exact List.append_cancel_left (hsplit.trans h)

/-- A path with a construct. -/
theorem eq_of_good {path after : List Bytes} {proto type : UInt8}
    (h : qView path = .good proto type after) :
    path = beforeQ path ++ [ch 'q', proto, type] :: after ∧
      ∃ next more, after = next :: more ∧ next ≠ [] := by
  obtain ⟨e, es, hpath, he⟩ := exists_of_ne_none (by rw [h]; simp)
  unfold qView at h
  rw [dropWhile_beforeQ hpath] at h
  split at h
  next hnil => cases hnil
  next b p t next more heq =>
    split at h
    · cases h
    next hne =>
      cases h
      cases heq
      have hb : b = ch 'q' := by simpa [startsQ] using he
      subst hb
      exact ⟨hpath, next, more, rfl, by simpa using hne⟩
  next => cases h

/-- The type of the construct, 0 when there is none. -/
def qTypeOf (path : List Bytes) : UInt8 :=
  match qView path with
  | .good _ type _ => type
  | _ => 0

/-! ## Kinds of packets -/

/-- The client is connected on an inbound port. -/
def Client.inbound (c : Client) : Prop := c.state = .connected ∧ c.has clflagsInport = true

instance (c : Client) : Decidable c.inbound :=
  inferInstanceAs (Decidable (_ ∧ _))

/-- `originated_by_client`: the source callsign is the login of the client. -/
def originatedByClient (c : Client) (h : Header) (s : Bytes) : Bool := c.username == h.src s

/-- The path of the packet is replaced outright, because the client itself sent it. -/
def ReplacesPath (c : Client) (path : List Bytes) (originated : Bool) : Prop :=
  originated = true ∧ c.has clflagsUdpsubmit = false ∧
    (qView path = .none ∨
      c.validated = true ∧ c.has clflagsInport = true ∧ qTypeOf path ≠ ch 'I')

/-- The packet is not replaced, is not a UDP submission, and was not originated by
an unverified or client-only inbound client: it goes on to the checks on the calls
after its construct. -/
def PassedOn (c : Client) (path : List Bytes) (originated : Bool) : Prop :=
  ¬ ReplacesPath c path originated ∧
    (c.inbound → c.has clflagsUdpsubmit = false ∧
      (originated = true → c.validated = true ∧ c.has clflagsClientonly = false))

/-! ## Headers in memory -/

/-- An admitted header is in memory, at offset 0. -/
structure Loaded (m : Area UInt8) (s : Bytes) (h : Header) : Prop where
  at_line : m.At 0 s
  admitted : h.Admitted s

/-- The offset where the entries that follow `es` start. -/
def Header.pos (h : Header) (es : List Bytes) : Int := h.viaStart + (joinFields comma es).length

@[simp] theorem Header.pos_nil (h : Header) : h.pos [] = h.viaStart := by simp [Header.pos]

theorem Header.pos_append (h : Header) (es fs : List Bytes) :
    h.pos (es ++ fs) = h.pos es + (joinFields comma fs).length := by
  simp only [Header.pos, joinFields_append, List.length_append]
  omega

theorem Header.pos_snoc (h : Header) (es : List Bytes) (e : Bytes) :
    h.pos (es ++ [e]) = h.pos es + 1 + e.length := by
  simp only [Header.pos_append, joinFields_cons, joinFields_nil, List.append_nil, List.length_cons]
  omega

theorem Header.viaStart_le_pos (h : Header) (es : List Bytes) : (h.viaStart : Int) ≤ h.pos es := by
  unfold Header.pos
  omega

namespace Loaded

variable {m : Area UInt8} {s : Bytes} {h : Header} (hl : Loaded m s h)
include hl

theorem pos_path : h.pos (h.path s) = h.pathlen := by
  simp only [Header.pos]
  rw [hl.admitted.pathlen_eq]
  omega

theorem three_le_viaStart : (3 : Int) ≤ h.viaStart := by
  have hs := List.length_pos_of_ne_nil (checkInvalidSrcDst_ne_nil hl.admitted.src_valid)
  have hd := List.length_pos_of_ne_nil (checkInvalidSrcDst_ne_nil hl.admitted.dst_valid)
  have h1 := hl.admitted.srcLen_eq
  have h2 := hl.admitted.viaStart_eq
  omega

/-- The destination callsign, after the `>`. -/
theorem at_dst : m.At (h.srcLen : Int) (ch '>' :: h.dst s) := by
  have hat := hl.at_line
  rw [hl.admitted.line_eq, Area.at_append, ← List.cons_append, Area.at_append,
    ← hl.admitted.srcLen_eq, Int.zero_add] at hat
  exact hat.2.1

/-- The path and the `:`. -/
theorem at_path : m.At h.viaStart (joinFields comma (h.path s) ++ [ch ':']) := by
  have hat := hl.at_line
  rw [hl.admitted.line_eq, Area.at_append, ← List.cons_append, Area.at_append,
    ← List.singleton_append (x := ch ':'), ← List.append_assoc, Area.at_append] at hat
  have heq : (0 : Int) + (h.src s).length + (ch '>' :: h.dst s).length = h.viaStart := by
    rw [hl.admitted.viaStart_eq, hl.admitted.srcLen_eq, List.length_cons]
    omega
  rw [heq] at hat
  exact hat.2.2.1

/-- A part of the path. -/
theorem at_entries {es fs gs : List Bytes} (hp : h.path s = es ++ (fs ++ gs)) :
    m.At (h.pos es) (joinFields comma fs) := by
  have hat := hl.at_path
  rw [hp, joinFields_append, joinFields_append, List.append_assoc, List.append_assoc,
    Area.at_append, Area.at_append] at hat
  exact hat.2.1

/-- Before the path stand at least two characters that are no comma: the
destination callsign, or `>` and a destination callsign of one character. -/
theorem byte_before_via {i : Int} (h1 : h.viaStart - 2 ≤ i) (h2 : i < h.viaStart) :
    m.byte i ≠ comma := by
  have hvia := hl.admitted.viaStart_eq
  have hd := List.length_pos_of_ne_nil (checkInvalidSrcDst_ne_nil hl.admitted.dst_valid)
  obtain ⟨k, hk⟩ : ∃ k : Nat, i = h.srcLen + k := ⟨(i - h.srcLen).toNat, by omega⟩
  have hlt : k < (ch '>' :: h.dst s).length := by
    rw [List.length_cons]
    omega
  have hget := List.getElem?_eq_getElem hlt
  rw [hk, hl.at_dst.byte_eq hget]
  have hmem := List.getElem_mem hlt
  intro hc
  rw [hc, List.mem_cons] at hmem
  cases hmem with
  | inl hgt => exact absurd hgt (by decide)
  | inr hdst => exact hl.admitted.dst_no_comma hdst

end Loaded

/-! ## Finding the construct -/

/-- The search for `,q` finds the first entry that starts with `q`. -/
theorem findSub_q {path : List Bytes} (hc : ∀ e ∈ path, comma ∉ e) :
    findSub (ascii ",q") (joinFields comma path) =
      if qView path = .none then none else some (joinFields comma (beforeQ path)).length := by
  induction path with
  | nil => rfl
  | cons e es ih =>
    have he : comma ∉ e := hc e List.mem_cons_self
    have ih := ih fun f hf => hc f (List.mem_cons_of_mem _ hf)
    have hneedle : ascii ",q" = [comma, ch 'q'] := rfl
    rw [hneedle] at ih ⊢
    -- the entry starts with `q`, or it is passed over
    cases hq : startsQ e with
    | true =>
      have hview : qView (e :: es) ≠ .none := by
        intro hn
        have := beforeQ_of_none hn
        simp [beforeQ, hq] at this
      have hpre : [comma, ch 'q'].isPrefixOf (joinFields comma (e :: es)) = true := by
        cases e with
        | nil => simp [startsQ] at hq
        | cons b e =>
          have hb : b = ch 'q' := by simpa [startsQ] using hq
          simp [hb]
      simp only [joinFields_cons, List.cons_append] at hpre ⊢
      simp [findSub, hpre, hview, beforeQ, hq]
    | false =>
      have hpre : [comma, ch 'q'].isPrefixOf (joinFields comma (e :: es)) = false := by
        cases e with
        | nil =>
          cases es with
          | nil => rfl
          | cons f fs =>
            have hne : (ch 'q' == comma) = false := rfl
            simp only [joinFields_cons, List.nil_append, List.cons_append,
              List.isPrefixOf_cons_cons, hne, Bool.false_and, Bool.and_false]
        | cons b e =>
          have hb : (ch 'q' == b) = false := by
            rw [beq_eq_false_iff_ne]
            intro hb
            simp [startsQ, ← hb] at hq
          simp only [joinFields_cons, List.cons_append, List.isPrefixOf_cons_cons, hb,
            Bool.false_and, Bool.and_false]
      have hview : qView (e :: es) = qView es := by
        simp [qView, hq]
      simp only [joinFields_cons, List.cons_append] at hpre ⊢
      simp only [findSub, hpre, Bool.false_eq_true, if_false, findSub_append_of_not_mem he, ih,
        hview]
      split
      · rfl
      · simp only [Option.map_some, beforeQ, hq, List.takeWhile_cons, Bool.not_false, if_true,
          joinFields_cons, List.cons_append, List.length_cons, List.length_append]
        congr 1
        omega

namespace Loaded

variable {m : Area UInt8} {s : Bytes} {h : Header} (hl : Loaded m s h)
include hl

theorem val_findQ : (m.memmem h.viaStart (h.pathlen - h.viaStart) (ascii ",q")).val =
    if qView (h.path s) = .none then none else some (h.pos (beforeQ (h.path s))) := by
  have hat : m.At (h.pos []) (joinFields comma (h.path s)) :=
    hl.at_entries (show h.path s = [] ++ (h.path s ++ []) by simp)
  rw [Header.pos_nil] at hat
  unfold Area.memmem
  rw [hat.val_search, findSub_q hl.admitted.no_comma]
  · split
    · rfl
    · simp [Header.pos]
  · have := hl.pos_path
    unfold Header.pos at this
    omega

/-- The text after the comma of an entry. -/
theorem at_tail {es fs : List Bytes} {e : Bytes} (hp : h.path s = es ++ e :: fs) :
    m.At (h.pos es + 1) (e ++ joinFields comma fs) ∧
      h.pathlen - h.pos es - 1 = (e ++ joinFields comma fs).length := by
  have hat := hl.at_entries (show h.path s = es ++ (e :: fs ++ []) by simpa using hp)
  have hpos := hl.pos_path
  rw [hp, Header.pos_append] at hpos
  rw [joinFields_cons, List.cons_append, Area.at_cons] at hat
  simp only [joinFields_cons, List.cons_append, List.length_cons] at hpos
  exact ⟨hat.2, by omega⟩

/-- The search for the comma after an entry. -/
theorem val_memchr_comma {es fs : List Bytes} {e : Bytes} (hp : h.path s = es ++ e :: fs) :
    (m.memchr (h.pos es + 1) comma (h.pathlen - h.pos es - 1)).val =
      if fs.isEmpty then none else some (h.pos es + 1 + e.length) := by
  obtain ⟨hat, hlen⟩ := hl.at_tail hp
  have he : comma ∉ e := hl.admitted.no_comma e (by rw [hp]; simp)
  unfold Area.memchr
  rw [hat.val_search hlen, findIdx?_joinFields he]
  split <;> simp

/-- The scan over the call that follows a construct. -/
theorem val_scan_call {es fs : List Bytes} {e next : Bytes}
    (hp : h.path s = es ++ e :: next :: fs) (he : e.length = 3) :
    (m.scanUntil (fun b => b == comma || b == ch ':') (h.pathlen - (h.pos es + 5)).toNat
      (h.pos es + 5)).val = h.pos es + 5 + next.length := by
  obtain ⟨hat, hlen⟩ := hl.at_tail (show h.path s = (es ++ [e]) ++ next :: fs by simpa using hp)
  rw [Header.pos_snoc, he] at hat hlen
  have hstart : h.pos es + 1 + (3 : Nat) + 1 = h.pos es + 5 := by omega
  rw [hstart] at hat
  have hn : (h.pathlen - (h.pos es + 5)).toNat = (next ++ joinFields comma fs).length := by omega
  have hslice : m.slice (h.pos es + 5) (next ++ joinFields comma fs).length =
      next ++ joinFields comma fs := hat
  have hmem : next ∈ h.path s := by
    rw [hp]
    simp
  have hcomma := hl.admitted.no_comma next hmem
  have hcolon := hl.admitted.no_colon next hmem
  rw [Area.val_scanUntil, hn, hslice, takeWhile_joinFields]
  · intro b hb
    simp only [Bool.not_or, Bool.and_eq_true, Bool.not_eq_true', beq_eq_false_iff_ne]
    exact ⟨fun hc => hcomma (hc ▸ hb), fun hc => hcolon (hc ▸ hb)⟩
  · simp

theorem val_findQConstruct_none (hv : qView (h.path s) = .none) :
    (findQConstruct m h.viaStart h.pathlen).val = ⟨none, 0, 0, 0, h.pathlen⟩ := by
  simp [findQConstruct, hl.val_findQ, hv]

theorem val_findQConstruct_good {proto type : UInt8} {after : List Bytes}
    (hv : qView (h.path s) = .good proto type after) :
    (findQConstruct m h.viaStart h.pathlen).val =
      ⟨some (h.pos (beforeQ (h.path s))), h.pos (beforeQ (h.path s)) + 5 + (after.headD []).length,
        proto, type, h.pathlen⟩ := by
  obtain ⟨hp, next, more, rfl, hnext⟩ := eq_of_good hv
  generalize hb : beforeQ (h.path s) = before at hp
  obtain ⟨hat, hlen⟩ := hl.at_tail hp
  simp only [List.cons_append, List.nil_append, Area.at_cons] at hat
  have hproto : m.byte (h.pos before + 2) = proto := by
    rw [← hat.2.1]
    congr 1
  have htype : m.byte (h.pos before + 3) = type := by
    rw [← hat.2.2.1]
    congr 1
  have hcall := hl.val_scan_call hp rfl
  have hcomma := hl.val_memchr_comma hp
  have hnext' : h.pos before + 1 + ([ch 'q', proto, type] : Bytes).length = h.pos before + 4 := by
    simp
    omega
  rw [hnext'] at hcomma
  have hadd : h.pos before + 4 + 1 = h.pos before + 5 := by omega
  have hne : ¬ h.pos before + 5 = h.pos before + 5 + next.length := by
    have := List.length_pos_of_ne_nil hnext
    omega
  have hfour : h.pos before + 4 - h.pos before = 4 := by omega
  simp [findQConstruct, hl.val_findQ, hv, hb, hcomma, hadd, hcall, hne, hfour, hproto, htype]

theorem val_findQConstruct_malformed (hv : qView (h.path s) = .malformed) :
    ∃ e, (findQConstruct m h.viaStart h.pathlen).val =
      ⟨some (h.pos (beforeQ (h.path s))), e, 0, 0, h.pos (beforeQ (h.path s))⟩ := by
  obtain ⟨q, es, hp, hq⟩ := exists_of_ne_none (by rw [hv]; simp)
  have hdrop := dropWhile_beforeQ hp
  generalize hb : beforeQ (h.path s) = before at hp
  have hcomma := hl.val_memchr_comma hp
  cases es with
  | nil => exact ⟨0, by simp [findQConstruct, hl.val_findQ, hv, hb, hcomma]⟩
  | cons next more =>
    simp only [List.isEmpty_cons, Bool.false_eq_true, if_false] at hcomma
    cases Nat.decEq q.length 3 with
    | isFalse hlen =>
      have hne : h.pos before + 1 + q.length - h.pos before ≠ 4 := by omega
      exact ⟨0, by simp [findQConstruct, hl.val_findQ, hv, hb, hcomma, hne]⟩
    | isTrue hlen =>
      -- three characters: then the call after it is empty
      have hnext : next = [] := by
        obtain ⟨b, x, y, rfl⟩ := List.length_eq_three.mp hlen
        simp only [qView, hdrop] at hv
        split at hv
        next hnil => simpa using hnil
        next => cases hv
      have hcall := hl.val_scan_call hp hlen
      have hpos : h.pos before + 1 + (q.length : Int) = h.pos before + 4 := by omega
      have hadd : h.pos before + 4 + 1 = h.pos before + 5 := by omega
      have hfour : h.pos before + 4 - h.pos before = 4 := by omega
      rw [hpos] at hcomma
      subst hnext
      refine ⟨h.pos before + 5, ?_⟩
      simp [findQConstruct, hl.val_findQ, hv, hb, hcomma, hadd, hcall, hfour]

theorem findQConstruct_qStart_eq_none :
    (findQConstruct m h.viaStart h.pathlen).val.qStart = none ↔ qView (h.path s) = .none := by
  cases hv : qView (h.path s) with
  | none => simp [hl.val_findQConstruct_none hv]
  | malformed =>
    obtain ⟨e, he⟩ := hl.val_findQConstruct_malformed hv
    simp [he]
  | good proto type after => simp [hl.val_findQConstruct_good hv]

theorem findQConstruct_qType :
    (findQConstruct m h.viaStart h.pathlen).val.qType = qTypeOf (h.path s) := by
  unfold qTypeOf
  cases hv : qView (h.path s) with
  | none => simp [hl.val_findQConstruct_none hv]
  | malformed =>
    obtain ⟨e, he⟩ := hl.val_findQConstruct_malformed hv
    simp [he]
  | good proto type after => simp [hl.val_findQConstruct_good hv]

/-! ## The end of the path -/

/-- The last entry that is left of the path. -/
theorem at_last {es fs : List Bytes} {e : Bytes} (hp : h.path s = es ++ e :: fs) :
    m.At (h.pos es) (comma :: e) := by
  have hat := hl.at_entries (show h.path s = es ++ ([e] ++ fs) by simpa using hp)
  simpa using hat

theorem two_lt_pathlen : (2 : Int) < h.pathlen := by
  have h1 := hl.three_le_viaStart
  have h2 := hl.admitted.pathlen_eq
  omega

/-- `,I` at the end of the path is its last entry. -/
theorem pathEndsI_absent {kept rest : List Bytes} (hp : h.path s = kept ++ rest)
    (hlast : kept.getLast? ≠ some [ch 'I']) :
    (pathEndsI m h.viaStart (h.pos kept) h.pathlen).val = .absent := by
  have key : m.byte (h.pos kept - 1) = ch 'I' → m.byte (h.pos kept - 2) ≠ comma := by
    intro hI
    cases kept.eq_nil_or_concat' with
    | inl hnil =>
      subst hnil
      rw [Header.pos_nil]
      exact hl.byte_before_via (by omega) (by omega)
    | inr hsnoc =>
      obtain ⟨es, e, rfl⟩ := hsnoc
      have hat := hl.at_last (show h.path s = es ++ e :: rest by simpa using hp)
      have hcomma : comma ∉ e := hl.admitted.no_comma e (by rw [hp]; simp)
      rw [Header.pos_snoc] at hI ⊢
      match e, hat, hcomma, hlast, hI with
      | [], hat, _, _, hI =>
        rw [Area.at_cons] at hat
        simp only [List.length_nil] at hI
        rw [show h.pos es + 1 + ((0 : Nat) : Int) - 1 = h.pos es by omega, hat.1] at hI
        exact absurd hI (by decide)
      | [b], hat, _, hlast, hI =>
        simp only [Area.at_cons] at hat
        simp only [List.length_singleton] at hI
        rw [show h.pos es + 1 + ((1 : Nat) : Int) - 1 = h.pos es + 1 by omega, hat.2.1] at hI
        subst hI
        simp at hlast
      | b :: b' :: bs, hat, hcomma, _, _ =>
        -- the byte before the last one is inside of the entry
        have hlt : bs.length + 1 < (comma :: b :: b' :: bs).length := by simp
        have hget := List.getElem?_eq_getElem hlt
        have hbyte := hat.byte_eq hget
        intro hc
        apply hcomma
        simp only [List.length_cons] at hc
        rw [show h.pos es + 1 + ((bs.length + 1 + 1 : Nat) : Int) - 2 =
          h.pos es + ((bs.length + 1 : Nat) : Int) by omega, hbyte] at hc
        rw [← hc, List.getElem_cons_succ]
        exact List.getElem_mem _
  unfold pathEndsI
  rw [if_pos hl.two_lt_pathlen]
  simp only [Traced.val_bind]
  split
  next hI =>
    simp only [Traced.val_bind]
    split
    next hc =>
      exact absurd (by simpa using hc) (key (by simpa using hI))
    next => rfl
  next => rfl

/-- The result once `,I` is found, by where the scan for the call stops. -/
theorem val_pathEndsI_of_hit {pathEnd p : Int} (hI : m.byte (pathEnd - 1) = ch 'I')
    (hc : m.byte (pathEnd - 2) = comma)
    (hscan : (prevComma m h.viaStart pathEnd).val = p) :
    (pathEndsI m h.viaStart pathEnd h.pathlen).val =
      if m.byte p = comma then .viacall p else .noViacall := by
  unfold pathEndsI
  rw [if_pos hl.two_lt_pathlen]
  simp only [Traced.val_bind]
  rw [if_pos (by simpa using hI)]
  simp only [Traced.val_bind]
  rw [if_pos (by simpa using hc)]
  simp only [Traced.val_bind, hscan]
  simp [Traced.val_ite]

/-- A path that is only `,I`. -/
theorem pathEndsI_noViacall {rest : List Bytes} (hp : h.path s = [[ch 'I']] ++ rest) :
    (pathEndsI m h.viaStart (h.pos [[ch 'I']]) h.pathlen).val = .noViacall := by
  have hat := hl.at_last (show h.path s = [] ++ [ch 'I'] :: rest by simpa using hp)
  simp only [Header.pos_nil, Area.at_cons] at hat
  have hpos : h.pos [[ch 'I']] = h.viaStart + 2 := by simp [Header.pos]
  have h1 : h.pos [[ch 'I']] - 1 = h.viaStart + 1 := by omega
  have h2 : h.pos [[ch 'I']] - 2 = h.viaStart := by omega
  have hscan : (prevComma m h.viaStart (h.pos [[ch 'I']])).val = h.pos [[ch 'I']] - 3 := by
    unfold prevComma
    rw [if_neg (by omega)]
    rfl
  rw [hl.val_pathEndsI_of_hit (by rw [h1]; exact hat.2.1) (by rw [h2]; exact hat.1) hscan]
  exact if_neg (hl.byte_before_via (by omega) (by omega))

/-- A call and `,I` at the end of the path. -/
theorem pathEndsI_viacall {front rest : List Bytes} {prev : Bytes}
    (hp : h.path s = (front ++ [prev, [ch 'I']]) ++ rest) :
    (pathEndsI m h.viaStart (h.pos (front ++ [prev, [ch 'I']])) h.pathlen).val =
      .viacall (h.pos front) := by
  have hat := hl.at_entries (show h.path s = front ++ ([prev, [ch 'I']] ++ rest) by simpa using hp)
  have hprev : comma ∉ prev := hl.admitted.no_comma prev (by rw [hp]; simp)
  have hpos : h.pos (front ++ [prev, [ch 'I']]) = h.pos front + 1 + prev.length + 2 := by
    simp only [Header.pos_append, joinFields_cons, joinFields_nil, List.append_nil,
      List.length_cons, List.length_append, List.length_nil]
    omega
  simp only [joinFields_cons, joinFields_nil, List.append_nil, List.cons_append, Area.at_cons,
    Area.at_append] at hat
  obtain ⟨hcomma, hat, hc, hI, -⟩ := hat
  have h1 : h.pos (front ++ [prev, [ch 'I']]) - 1 = h.pos front + 1 + prev.length + 1 := by omega
  have h2 : h.pos (front ++ [prev, [ch 'I']]) - 2 = h.pos front + 1 + prev.length := by omega
  -- the scan goes back over the call, to the comma before it
  have hscan : (prevComma m h.viaStart (h.pos (front ++ [prev, [ch 'I']]))).val =
      h.pos front := by
    unfold prevComma
    split
    next hlt =>
      have hfront : h.pos front = h.viaStart + ((joinFields comma front).length : Int) := rfl
      rw [hfront]
      apply Area.val_scanBack
      · omega
      · right
        rw [← hfront, hcomma]
        simp
      · intro i hlo hhi
        obtain ⟨k, hk⟩ : ∃ k : Nat, (i : Int) + h.viaStart = h.pos front + 1 + k :=
          ⟨(i + h.viaStart - h.pos front - 1).toNat, by omega⟩
        have hlt : k < prev.length := by omega
        rw [Int.add_comm, hk, hat.byte_eq (List.getElem?_eq_getElem hlt)]
        have hmem := List.getElem_mem hlt
        exact beq_eq_false_iff_ne.mpr fun he => hprev (he ▸ hmem)
    next hge =>
      have := h.viaStart_le_pos front
      show h.pos (front ++ [prev, [ch 'I']]) - 3 = h.pos front
      omega
  rw [hl.val_pathEndsI_of_hit (by rw [h1]; exact hI) (by rw [h2]; exact hc) hscan]
  exact if_pos hcomma

/-- The call that is found before `,I`. -/
theorem val_viacall {front rest : List Bytes} {prev : Bytes}
    (hp : h.path s = (front ++ [prev, [ch 'I']]) ++ rest) :
    (viacall m (h.pos front) (h.pos (front ++ [prev, [ch 'I']]))).val = prev := by
  have hat := hl.at_entries (show h.path s = front ++ ([prev, [ch 'I']] ++ rest) by simpa using hp)
  simp only [joinFields_cons, List.cons_append, Area.at_cons, Area.at_append] at hat
  have hpos : (h.pos (front ++ [prev, [ch 'I']]) - 2 - (h.pos front + 1)).toNat = prev.length := by
    simp only [Header.pos_append, joinFields_cons, joinFields_nil, List.append_nil,
      List.length_cons, List.length_append, List.length_nil]
    omega
  unfold viacall
  rw [Area.val_bytes, hpos]
  exact hat.2.1

/-! ## The branches of q_process -/

/-- A path that is replaced gets a construct of this server. -/
theorem val_qProcess_of_replaces {cfg : Config} {clientlist : List ClientEntry} {c : Client}
    {originated : Bool} (hrep : ReplacesPath c (h.path s) originated) :
    (qProcess cfg clientlist m c h.viaStart h.pathlen originated).val =
      .ok ⟨m, (if c.validated then ascii ",TCPIP*" ++ qText cfg.qProtocolId 'C' cfg.serverid
          else ascii ",TCPXX*" ++ qText cfg.qProtocolId 'X' cfg.serverid),
        (findQConstruct m h.viaStart h.pathlen).val.pathEnd, .null, some h.viaStart⟩ := by
  obtain ⟨ho, hu, hcase⟩ := hrep
  simp only [qProcess, Traced.val_bind, hl.findQConstruct_qStart_eq_none, hl.findQConstruct_qType,
    ho, hu, appendQ]
  cases hv : c.validated with
  | true =>
    cases hcase with
    | inl hnone => simp [hnone]
    | inr hother =>
      simp only [hother.2.1]
      split
      · simp
      · simp [hother.2.2]
  | false =>
    cases hcase with
    | inl hnone => simp [hnone]
    | inr hother => simp [hv] at hother

/-- Any other packet is processed by the kind of its connection. -/
theorem val_qProcess_of_not_replaces {cfg : Config} {clientlist : List ClientEntry} {c : Client}
    {originated : Bool} (hrep : ¬ ReplacesPath c (h.path s) originated) :
    (qProcess cfg clientlist m c h.viaStart h.pathlen originated).val =
      if c.inbound then
        (qInbound cfg clientlist m c (findQConstruct m h.viaStart h.pathlen).val h.viaStart
          h.pathlen originated).val
      else
        (qOutbound cfg clientlist m c (findQConstruct m h.viaStart h.pathlen).val h.viaStart
          h.pathlen).val := by
  simp only [qProcess, Traced.val_bind, hl.findQConstruct_qStart_eq_none, hl.findQConstruct_qType]
  split
  next htake =>
    exact absurd ⟨htake.2.1, by simpa using htake.2.2, .inl htake.1⟩ hrep
  next =>
    split
    next htake =>
      simp only [Bool.and_eq_true, Bool.not_eq_true', bne_iff_ne] at htake
      exact absurd ⟨htake.1.1.1.2, htake.2, .inr ⟨htake.1.1.1.1, htake.1.1.2, htake.1.2⟩⟩ hrep
    next =>
      simp only [Client.inbound]
      split
      next hin => simp [hin]
      next hin => simp [hin]

/-- The bytes of a construct, and what follows it. -/
theorem at_construct {proto type : UInt8} {after : List Bytes}
    (hv : qView (h.path s) = .good proto type after) :
    m.At (h.pos (beforeQ (h.path s)) + 1) (ch 'q' :: proto :: type :: joinFields comma after) ∧
      (h.pathlen : Int) = h.pos (beforeQ (h.path s)) + 4 + (joinFields comma after).length := by
  obtain ⟨hat, hlen⟩ := hl.at_tail (eq_of_good hv).1
  simp only [List.cons_append, List.nil_append, List.length_cons] at hat hlen
  exact ⟨hat, by omega⟩

end Loaded

end Aprsc
