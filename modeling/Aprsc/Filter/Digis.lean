-- SUMMARY: The digipeater filter passes the packets that a station of the set has digipeated, as long as the names of the set are counted.
import Aprsc.Filter.Merge

/-!
# The digipeater filter

The callsigns of the path up to the Q construct are via elements. An asterisk at the end of
one says that the packet has gone through it and those before it. The loops of
`filter_process_one_d` scan the text of the packet, and their results are stated on the
list of the elements here.

The names of a set are counted in an `int16_t`, and the names that are not counted are never
compared. Above 32767 names the count is negative, and the filter passes nothing.
-/

namespace Aprsc

/-! ## Via elements -/

/-- The packet has gone through the element. -/
def isUsed (v : Bytes) : Bool := v.getLast? == some (ch '*')

/-- A via element without its asterisk. -/
def viaCallsign (v : Bytes) : Bytes := if isUsed v then v.dropLast else v

/-- A via element that is not too long to be a callsign. -/
structure IsVia (v : Bytes) : Prop where
  no_comma : comma ∉ v
  nonempty : viaCallsign v ≠ []
  length_le : (viaCallsign v).length ≤ callsignlenMax

/-- The via elements between `d` and the Q construct, each after a comma. -/
structure ViaPath (pb : FilterPacket) (d : Nat) (vs : List Bytes) : Prop where
  text : ∃ rest, pb.data.drop d = joinFields comma vs ++ comma :: rest
  end_eq : d + (joinFields comma vs).length + 1 = pb.qconstStart
  via : ∀ v ∈ vs, IsVia v

/-- The name of an entry is the callsign, or the start of it for an entry with a wildcard. -/
def RefCallsign.Names (r : RefCallsign) (call : Bytes) : Prop :=
  caseEq call r.callsign = true ∨
    r.wildCard = true ∧ r.callsign ≠ [] ∧ caseEq (call.take r.callsign.length) r.callsign = true

/-- Some element matches the set, and it or one after it is used. -/
def Digipeated (refs : List RefCallsign) (vs : List Bytes) : Prop :=
  ∃ pre v post, vs = pre ++ v :: post ∧ (∃ r ∈ refs, r.Names (viaCallsign v)) ∧
    ∃ w ∈ v :: post, isUsed w = true

/-- The names that the count of a set leaves. -/
def countedNames (refs : List RefCallsign) : List RefCallsign :=
  refs.take (int16 refs.length).toNat

/-- The names that are counted name every via callsign that a name of the set does. -/
def NamesCounted (refs : List RefCallsign) : Prop :=
  ∀ v, IsVia v → (∃ r ∈ refs, r.Names (viaCallsign v)) →
    ∃ r ∈ countedNames refs, r.Names (viaCallsign v)

/-- `check_path_calls` lets only callsigns through. -/
theorem viaCallsign_ne_nil {v : Bytes} {afterQ : Bool}
    (h : checkInvalidPathCallsign v afterQ = false) : viaCallsign v ≠ [] := by
  intro hnil
  unfold viaCallsign at hnil
  unfold checkInvalidPathCallsign at h
  split at hnil
  · rename_i hused
    have hlast := beq_iff_eq.mp hused
    obtain ⟨init, rfl⟩ := List.getLast?_eq_some_iff.mp hlast
    rw [List.dropLast_concat] at hnil
    subst hnil
    revert h
    decide +revert
  · subst hnil
    simp at h

/-! ## One element -/

namespace IsVia

variable {v : Bytes}

theorem viaCallsign_of_not (hused : isUsed v = false) : viaCallsign v = v := by
  rw [viaCallsign, hused, if_neg Bool.false_ne_true]

theorem length_eq (v : Bytes) :
    (viaCallsign v).length = if isUsed v = true then v.length - 1 else v.length := by
  unfold viaCallsign
  split
  · exact List.length_dropLast
  · rfl

/-- The callsign of an element is its start. -/
theorem take_length (v : Bytes) : v.take (viaCallsign v).length = viaCallsign v := by
  cases hused : isUsed v with
  | true => rw [length_eq, if_pos hused, ← List.dropLast_eq_take, viaCallsign, if_pos hused]
  | false => rw [viaCallsign_of_not hused, List.take_length]

theorem length_pos (h : IsVia v) : 0 < v.length := by
  have hcall := List.length_pos_of_ne_nil h.nonempty
  rw [length_eq] at hcall
  split at hcall <;> omega

theorem length_le_succ (h : IsVia v) : v.length ≤ callsignlenMax + 1 := by
  have hle := h.length_le
  rw [length_eq] at hle
  split at hle <;> omega

end IsVia

/-! ## The text of an element -/

section
variable {pb : FilterPacket} {m : Bytes → Bool} {d : Nat} {v rest : Bytes} {vs : List Bytes}

theorem getD_of_drop (h : pb.data.drop d = v ++ comma :: rest) (i : Nat) :
    pb.data.getD (d + i) 0 = (v ++ comma :: rest).getD i 0 := by
  rw [← h, List.getD_eq_getElem?_getD, List.getD_eq_getElem?_getD, List.getElem?_drop]

/-- The last character of an element is an asterisk. -/
theorem last_of_drop (hv : IsVia v) (h : pb.data.drop d = v ++ comma :: rest) :
    (pb.data.getD (d + v.length - 1) 0 == ch '*') = isUsed v := by
  have hpos := hv.length_pos
  rw [Nat.add_sub_assoc hpos, getD_of_drop h, List.getD_eq_getElem?_getD,
    List.getElem?_append_left (by omega), isUsed, List.getLast?_eq_getElem?,
    List.getElem?_eq_getElem (by omega)]
  rfl

/-- After the callsign of an element there is its asterisk or a comma. -/
theorem next_of_drop (h : pb.data.drop d = v ++ comma :: rest) :
    (pb.data.getD (d + (viaCallsign v).length) 0 == ch '*') = isUsed v := by
  rw [getD_of_drop h]
  cases hused : isUsed v with
  | true =>
    obtain ⟨init, rfl⟩ := List.getLast?_eq_some_iff.mp (beq_iff_eq.mp hused)
    rw [viaCallsign, if_pos hused, List.dropLast_concat]
    simp
  | false =>
    rw [IsVia.viaCallsign_of_not hused]
    simp [comma, ch]

theorem part_of_drop (h : pb.data.drop d = v ++ comma :: rest) :
    pb.part d (viaCallsign v).length = viaCallsign v := by
  have hle : (viaCallsign v).length ≤ v.length := by
    rw [IsVia.length_eq]
    split <;> omega
  rw [FilterPacket.part, h, List.take_append_of_le_length hle, IsVia.take_length]

theorem viaLength_of_drop (hv : IsVia v) (h : pb.data.drop d = v ++ comma :: rest)
    (hend : d + v.length ≤ pb.qconstStart) : viaLength pb d = v.length := by
  have hle := hv.length_le_succ
  have hno : ∀ b ∈ v, (b != comma) = true := fun b hb =>
    bne_iff_ne.mpr fun heq => hv.no_comma (heq ▸ hb)
  rw [viaLength, FilterPacket.part, h, List.take_append, List.take_of_length_le (by omega),
    List.takeWhile_append_of_pos hno]
  cases min (callsignlenMax + 1) (pb.qconstStart - d) - v.length with
  | zero => simp
  | succ k => simp

/-- The comma in front of an element is skipped, and the loop may also start after it. -/
theorem viaStart_of_drop (hv : IsVia v) (h : pb.data.drop d = comma :: v ++ comma :: rest) :
    viaStart pb d = d + 1 ∧ viaStart pb (d + 1) = d + 1 := by
  have hfirst : pb.data.getD d 0 = comma := by
    have hget := getD_of_drop h 0
    simpa using hget
  have hnext : pb.data.getD (d + 1) 0 ≠ comma := by
    obtain ⟨b, v, rfl⟩ := List.exists_cons_of_length_pos hv.length_pos
    have hget := getD_of_drop h 1
    intro heq
    rw [heq] at hget
    exact hv.no_comma (by simp at hget; simp [← hget])
  rw [viaStart, viaStart, hfirst, beq_self_eq_true, if_pos rfl, if_neg (by simpa using hnext)]
  exact ⟨rfl, rfl⟩

end

/-! ## The loops -/

section
variable {pb : FilterPacket} {m : Bytes → Bool} {n d : Nat} {v : Bytes} {vs : List Bytes}

theorem ViaPath.head (h : ViaPath pb d (v :: vs)) :
    ∃ rest, pb.data.drop d = comma :: v ++ comma :: rest := by
  obtain ⟨rest, htext⟩ := h.text
  cases vs with
  | nil => exact ⟨rest, by simpa using htext⟩
  | cons w vs => exact ⟨w ++ joinFields comma vs ++ comma :: rest, by simpa using htext⟩

theorem ViaPath.tail (h : ViaPath pb d (v :: vs)) : ViaPath pb (d + 1 + v.length) vs where
  text := by
    obtain ⟨rest, htext⟩ := h.text
    refine ⟨rest, ?_⟩
    rw [Nat.add_assoc, ← List.drop_drop, htext]
    simp [Nat.add_comm 1]
  end_eq := by
    have hend := h.end_eq
    simp only [joinFields_cons, List.cons_append, List.length_cons, List.length_append] at hend
    omega
  via w hw := h.via w (List.mem_cons_of_mem _ hw)

/-- The loops go on at an element, from its comma or from its start. -/
theorem ViaPath.lt (h : ViaPath pb d (v :: vs)) :
    d + 1 < pb.qconstStart - 1 ∧ d + 1 + v.length ≤ pb.qconstStart := by
  have hend := h.end_eq
  have hpos := (h.via v List.mem_cons_self).length_pos
  simp only [joinFields_cons, List.cons_append, List.length_cons, List.length_append] at hend
  omega

theorem ViaPath.not_lt (h : ViaPath pb d []) : ¬d < pb.qconstStart - 1 := by
  have hend := h.end_eq
  rw [joinFields_nil, List.length_nil] at hend
  omega

theorem digiStar_cons (h : ViaPath pb d (v :: vs)) :
    digiStar pb (n + 1) d = (isUsed v || digiStar pb n (d + 1 + v.length)) := by
  have hv := h.via v List.mem_cons_self
  obtain ⟨rest, htext⟩ := h.head
  have hnext : pb.data.drop (d + 1) = v ++ comma :: rest := by
    rw [← List.drop_drop, htext]
    rfl
  rw [digiStar, if_pos (by have hlt := h.lt.1; omega)]
  dsimp only
  rw [(viaStart_of_drop hv htext).1, viaLength_of_drop hv hnext h.lt.2, last_of_drop hv hnext]

theorem digiMatch_cons (h : ViaPath pb d (v :: vs)) :
    digiMatch pb m (n + 1) d =
      if m (viaCallsign v) then isUsed v || digiStar pb n (d + 1 + v.length)
      else digiMatch pb m n (d + 1 + v.length) := by
  have hv := h.via v List.mem_cons_self
  obtain ⟨rest, htext⟩ := h.head
  have hnext : pb.data.drop (d + 1) = v ++ comma :: rest := by
    rw [← List.drop_drop, htext]
    rfl
  rw [digiMatch, if_pos (by have hlt := h.lt.1; omega)]
  dsimp only
  rw [(viaStart_of_drop hv htext).1, viaLength_of_drop hv hnext h.lt.2, last_of_drop hv hnext,
    ← IsVia.length_eq, Nat.min_eq_left hv.length_le, part_of_drop hnext, next_of_drop hnext]

/-- The first loop starts after the comma. -/
theorem digiMatch_succ (h : ViaPath pb d vs) :
    digiMatch pb m n (d + 1) = digiMatch pb m n d := by
  cases n with
  | zero => rfl
  | succ n =>
    cases vs with
    | nil =>
      have hnot := h.not_lt
      rw [digiMatch, digiMatch, if_neg hnot, if_neg (by omega)]
    | cons v vs =>
      obtain ⟨rest, htext⟩ := h.head
      obtain ⟨hcomma, hstart⟩ := viaStart_of_drop (h.via v List.mem_cons_self) htext
      have hlt := h.lt.1
      have hlt' : d < pb.qconstStart - 1 := by omega
      simp only [digiMatch, if_pos hlt, if_pos hlt', hcomma, hstart]

/-- The last loop looks at all elements. -/
theorem digiStar_eq (h : ViaPath pb d vs) (hn : vs.length ≤ n) :
    digiStar pb n d = vs.any isUsed := by
  induction vs generalizing n d with
  | nil =>
    cases n with
    | zero => rfl
    | succ n => rw [digiStar, if_neg h.not_lt, List.any_nil]
  | cons v vs ih =>
    obtain ⟨n, rfl⟩ := Nat.exists_eq_add_one_of_ne_zero (Nat.ne_of_gt (Nat.lt_of_lt_of_le
      (Nat.succ_pos _) hn))
    rw [digiStar_cons h, ih h.tail (Nat.le_of_succ_le_succ hn), List.any_cons]

/-- An asterisk after a later element that matches is one after the first one, too. -/
theorem digiMatch_iff (h : ViaPath pb d vs) (hn : vs.length ≤ n) :
    digiMatch pb m n d = true ↔
      ∃ pre v post, vs = pre ++ v :: post ∧ m (viaCallsign v) = true ∧
        ∃ w ∈ v :: post, isUsed w = true := by
  induction vs generalizing n d with
  | nil =>
    have hfalse : digiMatch pb m n d = false := by
      cases n with
      | zero => rfl
      | succ n => rw [digiMatch, if_neg h.not_lt]
    rw [hfalse]
    simp
  | cons v vs ih =>
    obtain ⟨n, rfl⟩ := Nat.exists_eq_add_one_of_ne_zero (Nat.ne_of_gt (Nat.lt_of_lt_of_le
      (Nat.succ_pos _) hn))
    have hle := Nat.le_of_succ_le_succ hn
    rw [digiMatch_cons h]
    split
    · rename_i hmatch
      rw [digiStar_eq h.tail hle, ← List.any_cons, List.any_eq_true]
      constructor
      · rintro ⟨w, hw, hused⟩
        exact ⟨[], v, vs, rfl, hmatch, w, hw, hused⟩
      · rintro ⟨pre, v', post, heq, -, w, hw, hused⟩
        exact ⟨w, heq ▸ List.mem_append_right _ hw, hused⟩
    · rename_i hno
      rw [ih h.tail hle]
      constructor
      · rintro ⟨pre, v', post, rfl, hrest⟩
        exact ⟨v :: pre, v', post, rfl, hrest⟩
      · rintro ⟨pre, v', post, heq, hmatch, hrest⟩
        cases pre with
        | nil =>
          obtain ⟨rfl, rfl⟩ := List.cons.inj heq
          exact absurd hmatch hno
        | cons _ pre =>
          obtain ⟨-, rfl⟩ := List.cons.inj heq
          exact ⟨pre, v', post, rfl, hmatch, hrest⟩

end

/-! ## The filter -/

/-- A set matches the callsigns that one of its entries names. -/
theorem isMatch_iff_names {r : RefCallsign} {call : Bytes} (hcall : call ≠ []) :
    r.isMatch .matchWild call = true ↔ r.Names call := by
  have htake : caseEq (call.take r.callsign.length) r.callsign = true →
      r.callsign.length ≤ call.length := by
    intro h
    have hlen := length_eq_of_caseEq h
    rw [List.length_take] at hlen
    omega
  simp only [RefCallsign.isMatch, RefCallsign.Names, Bool.and_eq_true, Bool.not_eq_true',
    Bool.or_eq_false_iff, decide_eq_false_iff_not, beq_eq_false_iff_ne, Bool.or_eq_true,
    beq_iff_eq]
  constructor
  · rintro ⟨⟨⟨hle, hne⟩, hsame⟩, hwild | hlen⟩
    · exact .inr ⟨hwild, List.ne_nil_of_length_pos (by omega), hsame⟩
    · rw [hlen, List.take_length] at hsame
      exact .inl hsame
  · rintro (hsame | ⟨hwild, hne, hsame⟩)
    · have hlen := length_eq_of_caseEq hsame
      have hpos := List.length_pos_of_ne_nil hcall
      rw [← hlen, List.take_length]
      exact ⟨⟨⟨by omega, by omega⟩, hsame⟩, .inr rfl⟩
    · have hpos := List.length_pos_of_ne_nil hne
      have hle := htake hsame
      exact ⟨⟨⟨by omega, by omega⟩, hsame⟩, .inl hwild⟩

theorem matchOnCallsignset_iff (refs : List RefCallsign) {call : Bytes} (hcall : call ≠ []) :
    (FilterBody.callsigns refs (int16 refs.length)).matchOnCallsignset .matchWild call = true ↔
      ∃ r ∈ countedNames refs, r.Names call := by
  rw [FilterBody.matchOnCallsignset, List.any_eq_true]
  exact exists_congr fun r => and_congr_right fun _ => isMatch_iff_names hcall

theorem countedNames_of_length_le {refs : List RefCallsign}
    (h : (refs.length : Int) ≤ int16Max) : countedNames refs = refs := by
  rw [countedNames, int16_of_le (Int.natCast_nonneg _) h, Int.toNat_natCast, List.take_length]

/-- Up to 32767 names are all counted. -/
theorem NamesCounted.of_length_le {refs : List RefCallsign}
    (h : (refs.length : Int) ≤ int16Max) : NamesCounted refs := by
  intro v _ hnames
  rwa [countedNames_of_length_le h]

/-- The filter matches exactly if the packet has been digipeated by a callsign of the names
that are counted. -/
theorem filterProcessOneD_iff (pb : FilterPacket) (refs : List RefCallsign) {vs : List Bytes}
    (hvs : vs.length ≤ 10) (hpath : ViaPath pb (pb.srccallEnd + 1 + pb.dstcallLen) vs) :
    filterProcessOneD pb
        ((FilterBody.callsigns refs (int16 refs.length)).matchOnCallsignset .matchWild) = true ↔
      Digipeated (countedNames refs) vs := by
  rw [filterProcessOneD, digiMatch_succ hpath, digiMatch_iff hpath hvs]
  have hmatch := fun v hv => matchOnCallsignset_iff refs (hpath.via v hv).nonempty
  unfold Digipeated
  constructor
  · rintro ⟨pre, v, post, rfl, hm, hused⟩
    exact ⟨pre, v, post, rfl, (hmatch v (by simp)).mp hm, hused⟩
  · rintro ⟨pre, v, post, rfl, hm, hused⟩
    exact ⟨pre, v, post, rfl, (hmatch v (by simp)).mpr hm, hused⟩

/-- A packet through one digipeater. -/
def viaPacket (call : Bytes) : FilterPacket where
  data := ascii "A>B" ++ comma :: call ++ ch '*' :: comma :: ascii "qAR,C:\r\n"
  packetLen := call.length + 13
  packettype := tStatus
  flags := 0
  srcname := 0
  srcnameLen := 1
  dstname := none
  dstnameLen := 0
  srccallEnd := 1
  dstcallEndOrSsid := 3
  dstcallEnd := 3
  dstcallLen := 1
  qconstStart := call.length + 6
  infoStart := call.length + 11
  t := 0
  entrycallLen := 1
  symbol := (0, 0)
  qconst_ne := by
    have hlength : (ascii "A>B" ++ comma :: call).length = call.length + 4 := by simp [ascii]
    rw [List.getD_eq_getElem?_getD, List.getElem?_append_right (by omega), hlength,
      show call.length + 6 - (call.length + 4) = 2 by omega]
    decide

theorem isVia_used {v : Bytes} (hv : IsVia v) :
    IsVia (viaCallsign v ++ [ch '*']) ∧ viaCallsign (viaCallsign v ++ [ch '*']) = viaCallsign v := by
  have hused : isUsed (viaCallsign v ++ [ch '*']) = true := by simp [isUsed]
  have hcall : viaCallsign (viaCallsign v ++ [ch '*']) = viaCallsign v := by
    rw [viaCallsign, if_pos hused, List.dropLast_concat]
  refine ⟨⟨fun hmem => ?_, by rw [hcall]; exact hv.nonempty, by rw [hcall]; exact hv.length_le⟩,
    hcall⟩
  obtain hmem | hmem := List.mem_append.mp hmem
  · rw [← IsVia.take_length v] at hmem
    exact hv.no_comma (List.mem_of_mem_take hmem)
  · exact absurd hmem (by decide)

theorem viaPacket_path {v : Bytes} (hv : IsVia v) :
    ViaPath (viaPacket (viaCallsign v))
      ((viaPacket (viaCallsign v)).srccallEnd + 1 + (viaPacket (viaCallsign v)).dstcallLen)
      [viaCallsign v ++ [ch '*']] where
  text := ⟨ascii "qAR,C:\r\n", by simp [viaPacket, ascii]⟩
  end_eq := by
    simp only [viaPacket, joinFields_cons, joinFields_nil, List.append_nil, List.length_cons,
      List.length_append, List.length_nil]
    omega
  via w hw := by
    rw [List.mem_singleton.mp hw]
    exact (isVia_used hv).1

/-- On the packets with at most ten via elements, the filter matches exactly those that have
been digipeated by a callsign of the set, if and only if the names that are counted do for
all of them. -/
theorem filter_process_one_d_iff (refs : List RefCallsign) :
    (∀ (pb : FilterPacket) (vs : List Bytes), vs.length ≤ 10 →
      ViaPath pb (pb.srccallEnd + 1 + pb.dstcallLen) vs →
        (filterProcessOneD pb
            ((FilterBody.callsigns refs (int16 refs.length)).matchOnCallsignset .matchWild) = true ↔
          Digipeated refs vs)) ↔
      NamesCounted refs := by
  constructor
  · intro h v hv hnames
    obtain ⟨-, hcall⟩ := isVia_used hv
    have hone := h _ _ (by simp) (viaPacket_path hv)
    rw [filterProcessOneD_iff _ refs (by simp) (viaPacket_path hv)] at hone
    have hdigi : Digipeated refs [viaCallsign v ++ [ch '*']] :=
      ⟨[], _, [], rfl, hcall.symm ▸ hnames, _, List.mem_singleton_self _, by simp [isUsed]⟩
    obtain ⟨pre, w, post, heq, hcounted, -⟩ := hone.mpr hdigi
    have hw : w ∈ [viaCallsign v ++ [ch '*']] := heq ▸ List.mem_append_right _ List.mem_cons_self
    rwa [List.mem_singleton.mp hw, hcall] at hcounted
  · intro h pb vs hvs hpath
    rw [filterProcessOneD_iff pb refs hvs hpath]
    unfold Digipeated
    constructor
    · rintro ⟨pre, v, post, rfl, ⟨r, hr, hname⟩, hused⟩
      exact ⟨pre, v, post, rfl, ⟨r, List.mem_of_mem_take hr, hname⟩, hused⟩
    · rintro ⟨pre, v, post, rfl, hnames, hused⟩
      exact ⟨pre, v, post, rfl, h v (hpath.via v (by simp)) hnames, hused⟩

/-- With 32768 names the count is negative, and a packet that the first one has digipeated is
not passed. -/
theorem uncounted_names_match_nothing :
    ¬ ∀ (refs : List RefCallsign) (pb : FilterPacket) (vs : List Bytes), vs.length ≤ 10 →
      ViaPath pb (pb.srccallEnd + 1 + pb.dstcallLen) vs →
        (filterProcessOneD pb
            ((FilterBody.callsigns refs (int16 refs.length)).matchOnCallsignset .matchWild) = true ↔
          Digipeated refs vs) := by
  intro h
  have hvia : IsVia (ascii "OH7AB") := ⟨by decide, by decide, by decide⟩
  obtain ⟨n, hn⟩ : ∃ n : Nat, (int16 (n + 1 : Nat)).toNat = 0 := ⟨32767, by decide⟩
  have hone := h (⟨ascii "OH7AB", false⟩ :: List.replicate n ⟨[], false⟩) _ _ (by simp)
    (viaPacket_path hvia)
  rw [filterProcessOneD_iff _ _ (by simp) (viaPacket_path hvia)] at hone
  obtain ⟨-, -, -, -, ⟨r, hr, -⟩, -⟩ := hone.mpr
    ⟨[], _, [], rfl, ⟨_, List.mem_cons_self, .inl (by decide)⟩, _, List.mem_cons_self, by decide⟩
  rw [countedNames, List.length_cons, List.length_replicate, hn] at hr
  cases hr

end Aprsc
