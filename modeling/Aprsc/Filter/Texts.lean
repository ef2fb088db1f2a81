-- SUMMARY: The filter query gives the accepted texts in every state of a run exactly if texts are merged only into records whose text is in the buffer.
import Aprsc.Filter.Records

/-!
# The filter query

`#filter?` is answered with the texts of the records of the user. A text that is merged
into a record is appended to the buffer of the record, or to a copy of the buffer on the
heap. Once there is such a copy, the buffer is no longer the text of the record, and a
further text is appended to the wrong one of the two, or to neither.
-/

namespace Aprsc

open Runs

/-! ## The reply -/

/-- Texts with a space after each. -/
def spaced (texts : List Bytes) : Bytes := texts.flatMap (· ++ [ch ' '])

/-- Texts with a space between them. -/
def joinTexts (texts : List Bytes) : Bytes := [ch ' '].intercalate texts

/-- The reply of `filter_commands` to a query: the negative chain, and then the positive one. -/
def filterReply (neg pos : List Bytes) : Bytes :=
  ascii "# filters: " ++ spaced neg ++ spaced pos ++ ascii "\r\n"

/-- The records of a client, and the texts that were accepted for each of them since the
filters were discarded, in order. -/
structure TextState where
  records : FilterRecords
  merged : ChainId → List (List Bytes)

def TextState.init : TextState := ⟨.init, fun _ => []⟩

/-- A text was accepted for a chain of `n` records, of which there are `n'` then. Without a
new record it is merged into the last one. -/
def noteText (n n' : Nat) (filt : Bytes) (merged : List (List Bytes)) : List (List Bytes) :=
  if n < n' then merged ++ [[filt]] else merged.dropLast ++ [merged.getLastD [] ++ [filt]]

/-- `recordStep`, with a note of the accepted texts. -/
def textStep (env : FilterEnv) (userfilterok : Bool) (s : Option TextState) :
    RecordEvent → Option TextState
  | .parse call =>
      s.bind fun s =>
        match parseRecord env userfilterok s.records call with
        | .rejected records => some { s with records }
        | .accepted records =>
            some
              { records
                merged := Function.update s.merged call.chain
                  (noteText (s.records call.chain).length (records call.chain).length call.filt
                    (s.merged call.chain)) }
        | .overrun => none
        | .exits => none
  | .discard =>
      s.map fun s =>
        { records := Function.update (Function.update s.records .neguser []) .posuser []
          merged := Function.update (Function.update s.merged .neguser []) .posuser [] }

/-- The chains of the user. -/
def ChainId.IsUser (id : ChainId) : Prop := id = .neguser ∨ id = .posuser

/-- The query gives every accepted text, in order, and the text of each record is made up
of those merged into it. -/
structure Truthful (s : TextState) : Prop where
  reply : filterReply ((s.records .neguser).map (·.text)) ((s.records .posuser).map (·.text)) =
    filterReply (s.merged .neguser).flatten (s.merged .posuser).flatten
  texts : ∀ id : ChainId, id.IsUser → (s.records id).map (·.text) = (s.merged id).map joinTexts

/-- A text of the user that is merged into a record finds the text of the record in its
buffer. -/
def MergesInBuffer (userfilterok : Bool) : (s : Option TextState) → RecordEvent → Prop
  | some s, .parse call =>
      call.isUserFilter = true →
        ∀ r, Extends userfilterok s.records call.toFilterCall r → r.heapText = none
  | _, _ => True

/-! ## Texts -/

theorem joinTexts_singleton (filt : Bytes) : joinTexts [filt] = filt := by
  simp [joinTexts, List.intercalate]

theorem joinTexts_cons_cons (text text' : Bytes) (texts : List Bytes) :
    joinTexts (text :: text' :: texts) = text ++ ch ' ' :: joinTexts (text' :: texts) := by
  simp [joinTexts, List.intercalate]

theorem joinTexts_concat {texts : List Bytes} (hne : texts ≠ []) (filt : Bytes) :
    joinTexts (texts ++ [filt]) = joinTexts texts ++ ch ' ' :: filt := by
  induction texts with
  | nil => exact absurd rfl hne
  | cons text texts ih =>
    cases texts with
    | nil => simp [joinTexts_singleton, joinTexts_cons_cons]
    | cons text' texts =>
      have htail := ih (by simp)
      rw [List.cons_append, List.cons_append, joinTexts_cons_cons, ← List.cons_append, htail,
        joinTexts_cons_cons, List.append_assoc, List.cons_append]

theorem joinTexts_append_space {texts : List Bytes} (hne : texts ≠ []) :
    joinTexts texts ++ [ch ' '] = spaced texts := by
  induction texts with
  | nil => exact absurd rfl hne
  | cons text texts ih =>
    cases texts with
    | nil => simp [joinTexts_singleton, spaced]
    | cons text' texts =>
      have htail := ih (by simp)
      rw [joinTexts_cons_cons, List.append_assoc, List.cons_append, htail]
      simp [spaced]

/-- The texts of a chain are given by what is merged into its records. -/
theorem spaced_map_joinTexts {merged : List (List Bytes)} (hne : ∀ texts ∈ merged, texts ≠ []) :
    spaced (merged.map joinTexts) = spaced merged.flatten := by
  induction merged with
  | nil => rfl
  | cons texts merged ih =>
    have htail := ih fun texts h => hne texts (List.mem_cons_of_mem _ h)
    have hhead := joinTexts_append_space (hne texts List.mem_cons_self)
    simp only [spaced, List.map_cons, List.flatMap_cons, List.flatten_cons,
      List.flatMap_append] at htail hhead ⊢
    rw [htail, hhead]

/-! ## Records and their texts -/

/-- What becomes of the text of a record. In the buffer it is complete. On the heap it is
complete or too short, and what is in the buffer is too short. -/
structure TextInv (r : FilterRecord) (texts : List Bytes) : Prop where
  nonempty : texts ≠ []
  buffered : r.heapText = none → r.textbuf = joinTexts texts
  moved : ∀ t, r.heapText = some t → r.textbuf.length < (joinTexts texts).length ∧
    (t = joinTexts texts ∨ t.length < (joinTexts texts).length)

theorem textInv_newRecord (type : UInt8) (refs : List RefCallsign) (n : Int) (body : FilterBody)
    (filt0 : Bytes) : TextInv (newRecord type refs n body filt0) [filt0] := by
  unfold newRecord filterText
  split
  · exact ⟨by simp, fun _ => (joinTexts_singleton filt0).symm, by simp⟩
  · rename_i hlong
    refine ⟨by simp, by simp, fun t ht => ?_⟩
    cases ht
    rw [joinTexts_singleton]
    unfold filtTextbufsize at hlong
    exact ⟨by rw [List.length_nil]; omega, .inl rfl⟩

section
variable {r : FilterRecord} {texts : List Bytes} (refs : List RefCallsign) (n : Int) (filt0 : Bytes)

theorem TextInv.extend (h : TextInv r texts) {text : FilterText}
    (htext : r.toFilterText.extend filt0 = some text) :
    TextInv { r with toFilterText := text, refcallsigns := refs, numnames := n }
      (texts ++ [filt0]) := by
  have hjoin := joinTexts_concat h.nonempty filt0
  have hlen := congrArg List.length hjoin
  rw [List.length_append, List.length_cons] at hlen
  unfold FilterText.extend at htext
  dsimp only at htext
  split at htext
  swap
  · cases htext
  split at htext
  · cases htext
    refine ⟨by simp, fun hnone => ?_, fun t ht => ?_⟩
    · rw [hjoin, ← h.buffered hnone]
    · obtain ⟨hbuf, ht⟩ := h.moved t ht
      refine ⟨?_, .inr ?_⟩
      · dsimp only
        rw [List.length_append, List.length_cons]
        omega
      · obtain rfl | hlt := ht <;> omega
  · cases htext
    refine ⟨by simp, by simp, fun t ht => ?_⟩
    cases ht
    cases hheap : r.heapText with
    | none =>
      rw [hjoin, ← h.buffered hheap]
      exact ⟨by simp, .inl rfl⟩
    | some t =>
      obtain ⟨hbuf, -⟩ := h.moved t hheap
      dsimp only
      refine ⟨by omega, .inr ?_⟩
      rw [List.length_append, List.length_cons]
      omega

/-- The text of a record that is right has room for more. -/
theorem TextInv.hasRoom (h : TextInv r texts) (htext : r.text = joinTexts texts) :
    r.HasRoom filt0 := by
  have hle : r.textbuf.length ≤ r.text.length := by
    cases hheap : r.heapText with
    | none =>
      rw [FilterText.text, hheap]
      exact Nat.le_refl _
    | some t =>
      rw [htext]
      exact Nat.le_of_lt (h.moved t hheap).1
  unfold FilterText.HasRoom
  omega

/-- A text that is merged into a record is part of its text if and only if the text of the
record was in its buffer. -/
theorem TextInv.text_extend_iff (h : TextInv r texts) (htext : r.text = joinTexts texts)
    {text : FilterText} (hextend : r.toFilterText.extend filt0 = some text) :
    text.text = joinTexts (texts ++ [filt0]) ↔ r.heapText = none := by
  have hjoin := joinTexts_concat h.nonempty filt0
  rw [hjoin]
  unfold FilterText.extend at hextend
  dsimp only at hextend
  rw [if_pos (h.hasRoom filt0 htext)] at hextend
  cases hheap : r.heapText with
  | none =>
    have hbuf := h.buffered hheap
    refine iff_of_true ?_ rfl
    split at hextend <;> cases hextend <;> simp [FilterText.text, hbuf, hheap]
  | some t =>
    obtain ⟨hbuf, -⟩ := h.moved t hheap
    refine iff_of_false ?_ (by simp)
    intro heq
    have hlen := congrArg List.length heq
    rw [List.length_append, List.length_cons] at hlen
    simp only [FilterText.text, hheap, Option.getD_some] at htext
    split at hextend
    · cases hextend
      simp only [FilterText.text, hheap, Option.getD_some] at hlen
      rw [htext] at hlen
      omega
    · cases hextend
      simp only [FilterText.text, Option.getD_some, List.length_append, List.length_cons] at hlen
      omega

end

/-! ## Chains -/

/-- The records of a chain and the texts merged into each. -/
def ChainInv (rs : List FilterRecord) (merged : List (List Bytes)) : Prop :=
  List.Forall₂ TextInv rs merged

theorem ChainInv.ne_nil {rs : List FilterRecord} {merged : List (List Bytes)}
    (h : ChainInv rs merged) : ∀ texts ∈ merged, texts ≠ [] := by
  induction h with
  | nil => simp
  | cons hr _ ih => simpa using ⟨hr.nonempty, ih⟩

/-- Only the buffer and the text on the heap matter. -/
theorem ChainInv.congr {rs rs' : List FilterRecord} {merged : List (List Bytes)}
    (h : ChainInv rs merged) (hsame : rs'.map (·.counted) = rs.map (·.counted)) :
    ChainInv rs' merged := by
  induction h generalizing rs' with
  | nil =>
    obtain rfl : rs' = [] := by simpa using hsame
    exact .nil
  | @cons r texts rs merged hr h ih =>
    cases rs' with
    | nil => simp at hsame
    | cons r' rs' =>
      rw [List.map_cons, List.map_cons, List.cons.injEq] at hsame
      have hbuf : r'.counted.textbuf = r.counted.textbuf := congrArg (·.textbuf) hsame.1
      have hheap : r'.counted.heapText = r.counted.heapText := congrArg (·.heapText) hsame.1
      simp only [FilterRecord.counted] at hbuf hheap
      refine .cons ⟨hr.nonempty, ?_, ?_⟩ (ih hsame.2)
      · rw [hbuf, hheap]
        exact hr.buffered
      · rw [hbuf, hheap]
        exact hr.moved

theorem ChainInv.concat {rs : List FilterRecord} {merged : List (List Bytes)}
    (h : ChainInv rs merged) {r : FilterRecord} {texts : List Bytes} (hr : TextInv r texts) :
    ChainInv (rs ++ [r]) (merged ++ [texts]) := by
  induction h with
  | nil => exact .cons hr .nil
  | cons hfirst _ ih => exact .cons hfirst ih

/-- The last record of a chain, and what is merged into it. -/
theorem ChainInv.of_concat {rs : List FilterRecord} {merged : List (List Bytes)}
    {r : FilterRecord} (h : ChainInv (rs ++ [r]) merged) :
    ∃ merged' texts, merged = merged' ++ [texts] ∧ ChainInv rs merged' ∧ TextInv r texts := by
  induction rs generalizing merged with
  | nil =>
    cases h with
    | @cons _ texts _ _ hr h =>
      cases h
      exact ⟨[], texts, rfl, .nil, hr⟩
  | cons first rs ih =>
    cases h with
    | @cons _ firstTexts _ _ hfirst h =>
      obtain ⟨merged', texts, rfl, hrs, hr⟩ := ih h
      exact ⟨firstTexts :: merged', texts, rfl, .cons hfirst hrs, hr⟩

/-! ## States -/

/-- The texts of all four chains are as they become. -/
structure TextState.Inv (s : TextState) : Prop where
  wf : s.records.Wf
  chains : ∀ id, ChainInv (s.records id) (s.merged id)

/-- What a call makes of the records and the texts. -/
inductive TextCase (userfilterok : Bool) (s : TextState) (call : FilterCall) :
    Option TextState → Prop where
  | rejected (hnot : ∀ r, ¬Extends userfilterok s.records call r) (records : FilterRecords)
      (hwf : records.Wf)
      (hsame : ∀ id, (records id).map (·.counted) = (s.records id).map (·.counted)) :
      TextCase userfilterok s call (some { s with records })
  | linked (hnot : ∀ r, ¬Extends userfilterok s.records call r) (r : FilterRecord) (hwf : r.Wf)
      (htext : TextInv r [call.filt]) (hr : r.text = call.filt) :
      TextCase userfilterok s call (some
        { records := Function.update s.records call.chain (s.records call.chain ++ [r])
          merged := Function.update s.merged call.chain (s.merged call.chain ++ [[call.filt]]) })
  | extended (rs : List FilterRecord) (r : FilterRecord) (refs : List RefCallsign) (n : Int)
      (hn : n ≤ refs.length) (hr : Extends userfilterok s.records call r)
      (hrs : s.records call.chain = rs ++ [r]) (merged : List (List Bytes)) (texts : List Bytes)
      (hmerged : s.merged call.chain = merged ++ [texts]) (hinit : ChainInv rs merged)
      (htext : TextInv r texts) (text : FilterText)
      (hextend : r.toFilterText.extend call.filt = some text) :
      TextCase userfilterok s call (some
        { records := Function.update s.records call.chain
            (rs ++ [{ r with toFilterText := text, refcallsigns := refs, numnames := n }])
          merged := Function.update s.merged call.chain (merged ++ [texts ++ [call.filt]]) })
  /-- The text of the record that is extended is not right any more. -/
  | gone (hnot : ∀ r, Extends userfilterok s.records call r → call.isUserFilter = true →
        ¬Truthful s) :
      TextCase userfilterok s call none

section
variable {env : FilterEnv} {userfilterok : Bool}

theorem isUser_chain_iff (call : FilterCall) : call.chain.IsUser ↔ call.isUserFilter = true := by
  unfold FilterCall.chain ChainId.IsUser
  split <;> simp_all

/-- In a truthful state the text of the last record of a chain of the user is right. -/
theorem Truthful.last {s : TextState} (htrue : Truthful s) {id : ChainId} (hid : id.IsUser)
    {rs : List FilterRecord} {r : FilterRecord} (hrs : s.records id = rs ++ [r])
    {merged : List (List Bytes)} {texts : List Bytes} (hmerged : s.merged id = merged ++ [texts]) :
    rs.map (·.text) = merged.map joinTexts ∧ r.text = joinTexts texts := by
  have htexts := htrue.texts id hid
  rw [hrs, hmerged, List.map_append, List.map_append] at htexts
  obtain ⟨hinit, hlast⟩ := List.append_inj' htexts rfl
  simpa [hinit] using hlast

theorem textStep_cases {s : TextState} (hs : s.Inv) (call : RecordCall) :
    TextCase userfilterok s call.toFilterCall
      (textStep env userfilterok (some s) (.parse call)) := by
  rw [textStep, Option.bind_some]
  by_cases hext : ∃ r, Extends userfilterok s.records call.toFilterCall r
  · obtain ⟨r, hr⟩ := hext
    obtain ⟨refs, n, hn, hparse⟩ := parseRecord_extends hr
    rw [hparse]
    obtain ⟨rs, hrs⟩ := List.getLast?_eq_some_iff.mp hr.last
    have hchain := hs.chains call.chain
    rw [hrs] at hchain
    obtain ⟨merged, texts, hmerged, hinit, htext⟩ := hchain.of_concat
    cases hextend : r.toFilterText.extend call.filt with
    | none =>
      refine .gone fun r' hr' huser htrue => ?_
      obtain ⟨-, hright⟩ := htrue.last ((isUser_chain_iff _).mpr huser) hrs hmerged
      have hroom := htext.hasRoom call.filt hright
      rw [← r.toFilterText.extend_isSome_iff, hextend] at hroom
      cases hroom
    | some text =>
      have hsame : ¬(rs ++ [r]).length <
          (rs ++ [{ r with toFilterText := text, refcallsigns := refs, numnames := n }]).length := by
        simp
      simp only [setLast, Function.update_self, hrs, List.dropLast_concat, Option.toList_some,
        noteText, if_neg hsame, hmerged, List.getLastD_concat]
      exact .extended rs r refs n hn hr hrs merged texts hmerged hinit htext text hextend
  · rw [not_exists] at hext
    have hcases := parseRecord_cases env userfilterok hs.wf call
    generalize parseRecord env userfilterok s.records call = outcome at hcases ⊢
    cases hcases with
    | rejected records hwf hsame => exact .rejected hext records hwf hsame
    | linked type refs n body hn =>
      have hlt : (s.records call.chain).length <
          (s.records call.chain ++ [newRecord type refs n body call.filt]).length := by simp
      simp only [Function.update_self, noteText, if_pos hlt]
      exact .linked hext _ (wf_newRecord hn) (textInv_newRecord ..)
        (text_filterText call.filt)
    | extended r refs n text hr => exact absurd hr (hext r)
    | overrun => exact .gone fun r hr => absurd hr (hext r)
    | exits => exact .gone fun r hr => absurd hr (hext r)

theorem TextState.Inv.update {s : TextState} (hs : s.Inv) {id : ChainId} {rs : List FilterRecord}
    {merged : List (List Bytes)} (hwf : ∀ r ∈ rs, r.Wf) (h : ChainInv rs merged) :
    TextState.Inv
      { records := Function.update s.records id rs, merged := Function.update s.merged id merged } where
  wf := hs.wf.update hwf
  chains id' := by
    by_cases hid : id' = id
    · subst hid
      simpa using h
    · simpa [hid] using hs.chains id'

theorem TextState.Inv.step {s : TextState} (hs : s.Inv) (e : RecordEvent) :
    ∀ s' ∈ textStep env userfilterok (some s) e, s'.Inv := by
  intro s' hs'
  cases e with
  | discard =>
    cases hs'
    exact TextState.Inv.update (TextState.Inv.update hs (by simp) .nil) (by simp) .nil
  | parse call =>
    have hcases := @textStep_cases env userfilterok _ hs call
    rw [Option.mem_def] at hs'
    rw [hs'] at hcases
    have hwf := hs.wf call.chain
    cases hcases with
    | rejected _ records hwf hsame =>
      exact ⟨hwf, fun id => (hs.chains id).congr (hsame id)⟩
    | linked _ r hr htext =>
      refine hs.update ?_ ((hs.chains call.chain).concat htext)
      intro r' hr'
      obtain hr' | hr' := List.mem_append.mp hr'
      · exact hwf r' hr'
      · rw [List.mem_singleton.mp hr']
        exact hr
    | extended rs r refs n hn hr hrs merged texts hmerged hinit htext text hextend =>
      refine hs.update ?_ (hinit.concat (htext.extend refs n call.filt hextend))
      intro r' hr'
      obtain hr' | hr' := List.mem_append.mp hr'
      · exact hwf r' (by rw [hrs]; exact List.mem_append_left _ hr')
      · rw [List.mem_singleton.mp hr']
        exact hn

/-- If the texts of the records are right, the reply is. -/
theorem TextState.Inv.truthful {s : TextState} (hs : s.Inv)
    (h : ∀ id : ChainId, id.IsUser → (s.records id).map (·.text) = (s.merged id).map joinTexts) :
    Truthful s where
  reply := by
    rw [h .neguser (.inl rfl), h .posuser (.inr rfl), filterReply, filterReply,
      spaced_map_joinTexts (hs.chains .neguser).ne_nil,
      spaced_map_joinTexts (hs.chains .posuser).ne_nil]
  texts := h

/-- A call keeps the reply truthful if and only if it does not merge a text of the user into
a record whose text is on the heap. -/
theorem truthful_textStep_iff {s : TextState} (hs : s.Inv) (htrue : Truthful s)
    (e : RecordEvent) :
    (∀ s' ∈ textStep env userfilterok (some s) e, Truthful s') ↔
      MergesInBuffer userfilterok (some s) e := by
  have hinv := @TextState.Inv.step env userfilterok _ hs e
  cases e with
  | discard =>
    refine iff_of_true ?_ trivial
    intro s' hs'
    apply (hinv s' hs').truthful
    cases hs'
    rintro id (rfl | rfl) <;> simp
  | parse call =>
    have hcases := @textStep_cases env userfilterok _ hs call
    generalize textStep env userfilterok (some s) (.parse call) = outcome at hcases hinv ⊢
    cases hcases with
    | gone hnot =>
      exact iff_of_true (by simp) fun huser r hr => absurd htrue (hnot r hr huser)
    | rejected hnot records hwf hsame =>
      refine iff_of_true ?_ fun _ r hr => absurd hr (hnot r)
      intro s' hs'
      apply (hinv s' hs').truthful
      cases hs'
      intro id hid
      rw [← htrue.texts id hid]
      exact texts_congr (hsame id)
    | linked hnot r hwf htext hr =>
      refine iff_of_true ?_ fun _ r hr => absurd hr (hnot r)
      intro s' hs'
      apply (hinv s' hs').truthful
      cases hs'
      intro id hid
      have hold := htrue.texts id hid
      by_cases hchain : id = call.chain
      · subst hchain
        simp [hold, hr, joinTexts_singleton]
      · simpa [hchain] using hold
    | extended rs r refs n hn hr hrs merged texts hmerged hinit htext text hextend =>
      have hheap : MergesInBuffer userfilterok (some s) (.parse call) ↔
          (call.isUserFilter = true → r.heapText = none) := by
        constructor
        · exact fun h huser => h huser r hr
        · intro h huser r' hr'
          obtain rfl : r = r' := Option.some.inj (hr.last.symm.trans hr'.last)
          exact h huser
      rw [hheap, ← isUser_chain_iff]
      constructor
      · intro h huser
        obtain ⟨-, hlast⟩ := htrue.last huser hrs hmerged
        obtain ⟨-, hlast'⟩ := (h _ rfl).last huser (Function.update_self ..)
          (Function.update_self ..)
        exact (htext.text_extend_iff call.filt hlast hextend).1 hlast'
      · intro h s' hs'
        apply (hinv s' hs').truthful
        cases hs'
        intro id hid
        by_cases hchain : id = call.chain
        · subst hchain
          obtain ⟨hinit', hlast⟩ := htrue.last hid hrs hmerged
          have hnew := (htext.text_extend_iff call.filt hlast hextend).2 (h hid)
          simp [hinit', hnew]
        · simpa [hchain] using htrue.texts id hid

/-- In a run of a client, every reply to a query is truthful if and only if no text of the
user is merged into a record whose text is on the heap. -/
theorem query_truthful_iff (events : List RecordEvent) :
    Always (textStep env userfilterok) (fun s => ∀ s' ∈ s, Truthful s') (some .init) events ↔
      Meets (textStep env userfilterok) (MergesInBuffer userfilterok) (some .init) events := by
  apply always_iff_meets (I := fun s : Option TextState => ∀ s' ∈ s, s'.Inv)
  · intro s e hs
    cases s with
    | none => cases e <;> simp [textStep]
    | some s => exact (hs s rfl).step e
  · intro s e hs hP
    cases s with
    | none => exact iff_of_true (by cases e <;> simp [textStep]) (by cases e <;> trivial)
    | some s => exact truthful_textStep_iff (hs s rfl) (hP s rfl) e
  · intro s hs
    cases hs
    exact ⟨fun id r hr => (by cases hr), fun id => .nil⟩
  · intro s hs
    cases hs
    exact ⟨rfl, fun id _ => rfl⟩

end

private def queryEnv : FilterEnv where
  parseGeometry _ := false
  parseRange _ := false
  inRange _ _ := false
  filterEntrycallLookup _ := false
  filterWxLookup _ := false

private def queryCall (filt : Bytes) : RecordCall where
  filt := filt
  isUserFilter := true
  cell := true
  junk _ := ⟨[], false⟩

theorem slashParts_letters {n : Nat} (hn : n ≠ 0) :
    slashParts (List.replicate n (ch 'A')) = [List.replicate n (ch 'A')] := by
  obtain ⟨n, rfl⟩ := Nat.exists_eq_succ_of_ne_zero hn
  have hA : (ch 'A' != ch '/') = true := by decide
  rw [Nat.succ_eq_add_one, List.replicate_succ, slashParts_cons, ← List.replicate_succ]
  simp [hA]

/-- The record of a long prefix has its text on the heap. -/
theorem parseRecord_letters {n : Nat} (hn : filtTextbufsize ≤ n) :
    ∃ r : FilterRecord, parseRecord queryEnv true .init
        (queryCall (ch 'p' :: ch '/' :: List.replicate n (ch 'A'))) =
          .accepted (Function.update FilterRecords.init .posuser [r]) ∧
      (queryCall (ch 'p' :: ch '/' :: List.replicate n (ch 'A'))).chain = .posuser ∧
      r.type = ch 'p' ∧ r.numnames = 1 ∧ r.heapText ≠ none := by
  have hdash : ¬some (ch 'p') = some (ch '-') := by decide
  have hp : ¬ch 'p' = ch '/' := by decide
  have hn0 : n ≠ 0 := by
    unfold filtTextbufsize at hn
    omega
  generalize hfilt : ch 'p' :: ch '/' :: List.replicate n (ch 'A') = filt
  have htype : (queryCall filt).type = ch 'p' := by
    subst hfilt
    simp [FilterCall.type, queryCall, hdash]
  have hchain : (queryCall filt).chain = .posuser := by
    subst hfilt
    rfl
  have hparts : slashParts (namesText (queryCall filt).filt) = [List.replicate n (ch 'A')] := by
    rw [← slashParts_letters hn0]
    subst hfilt
    simp [namesText, queryCall, hdash, hp]
  have hwildok : setWildok (queryCall filt).type = some .matchPrefix := by
    rw [htype]
    decide
  have hpermitted : ∀ name ∈ slashParts (namesText (queryCall filt).filt),
      Permitted .matchPrefix name := by
    have hstar : ¬ch '*' = ch 'A' := by decide
    simp [hparts, Permitted, hstar]
  have hparse := @parseRecord_fresh queryEnv true .init _ _ rfl
    hwildok rfl (by simp [hparts]) hpermitted
  have hlong : ¬(queryCall filt).filt.length < filtTextbufsize := by
    subst hfilt
    simp only [queryCall, List.length_cons, List.length_replicate]
    omega
  have hcell : (queryCall filt).cell = true := rfl
  rw [linkRecord, if_pos hcell, hchain, htype, hparts, newRecord, filterText, if_neg hlong] at hparse
  have hone : int16 (1 : Nat) = 1 := by decide
  refine ⟨_, hparse, hchain, rfl, ?_, by simp⟩
  dsimp only
  rw [List.length_singleton, hone]

/-- After a prefix of 448 letters, a second one is all that the reply gives. -/
theorem long_text_is_lost :
    ¬∀ (env : FilterEnv) (userfilterok : Bool) (events : List RecordEvent),
      Always (textStep env userfilterok) (fun s => ∀ s' ∈ s, Truthful s') (some .init) events := by
  intro h
  obtain ⟨n, hn⟩ : ∃ n : Nat, filtTextbufsize ≤ n := ⟨_, Nat.le_refl _⟩
  obtain ⟨r, hparse, hchain, htype, hcount, hheap⟩ := parseRecord_letters hn
  generalize queryCall (ch 'p' :: ch '/' :: List.replicate n (ch 'A')) = call at hparse hchain
  have hinit : TextState.Inv .init := ⟨fun id r hr => (by cases hr), fun id => .nil⟩
  have hinv := @TextState.Inv.step queryEnv true _ hinit (.parse call)
  obtain ⟨-, htrue, hlater⟩ := h queryEnv true [.parse call, .parse (queryCall (ascii "p/B"))]
  obtain ⟨s, hs⟩ : ∃ s, textStep queryEnv true (some .init) (.parse call) = some s ∧
      s.records = Function.update FilterRecords.init .posuser [r] := by
    rw [textStep, Option.bind_some, TextState.init, hparse]
    exact ⟨_, rfl, rfl⟩
  rw [hs.1] at hinv htrue hlater
  have hmerges := (truthful_textStep_iff (hinv s rfl) (htrue s rfl) _).1 hlater
  have hext : Extends true s.records (queryCall (ascii "p/B")).toFilterCall r := by
    have hchain' : (queryCall (ascii "p/B")).chain = .posuser := by decide
    refine ⟨rfl, ?_, ?_, ?_, by decide, .matchPrefix, by decide, by decide⟩
    · rw [hs.2, hchain', Function.update_self]
      rfl
    · rw [htype]
      decide
    · rw [hcount]
      decide
  exact hheap (hmerges rfl r hext)

end Aprsc
