-- SUMMARY: A filter that is turned down changes no chain, and one that is accepted stays in its memory, as long as the record it extends has not lost count of its names and its text is in one place.
import Aprsc.Base.Runs
import Aprsc.Filter.Merge

/-!
# Records of filters

The names of a filter are in an array of their own, and its text is in a buffer of the
record or on the heap. A set of names is parsed in two passes: the first one counts the
names to make room for them, and the second one stores them, in the array of the last
filter of the chain if that is of the same type. The second pass may fail halfway.

The count of a record is an `int16_t`. With more names than that it becomes negative, and
the next names go to memory in front of the array. The room for a text is measured on what
`text` points to, and after a text on the heap the buffer may hold more than that.
-/

namespace Aprsc

open Runs

/-! ## The two passes -/

/-- The text after the type of a filter and the first slash. -/
def namesText (filt0 : Bytes) : Bytes :=
  let filt := if filt0.head? = some (ch '-') then filt0.drop 1 else filt0
  (filt.dropWhile (· != ch '/')).drop 1

/-- The first pass of `filter_parse_one_callsignset`: the number of names in `p`. -/
def countNames : (fuel : Nat) → (p : Bytes) → Nat
  | 0, _ => 0
  | _ + 1, [] => 0
  | fuel + 1, b :: p => countNames fuel (((b :: p).dropWhile (· != ch '/')).drop 1) + 1

/-- One name of the second pass and what is left of the text. There is none if an asterisk
is not permitted. -/
def collectName (wildok : MatchEnum) :
    (p prefixbuf : Bytes) → (i : Nat) → (wildcard : Bool) → Option (RefCallsign × Bytes)
  | [], prefixbuf, _, wildcard => some (⟨prefixbuf, wildcard⟩, [])
  | b :: p, prefixbuf, i, wildcard =>
      if b = ch '/' then some (⟨prefixbuf, wildcard⟩, b :: p)
      else if b = ch '*' then
        if wildok ≠ .matchWild then none else collectName wildok p prefixbuf i true
      else collectName wildok p (if i < callsignlenMax then prefixbuf ++ [b] else prefixbuf) (i + 1)
        wildcard

/-- What the second pass comes to. -/
inductive StoreResult where
  | stored (refbuf : List RefCallsign) (refcount : Int)
  /-- An asterisk is not permitted. -/
  | refused (refbuf : List RefCallsign)
  /-- A name goes to memory that is not part of the array. -/
  | overrun
deriving DecidableEq

/-- The second pass of `filter_parse_one_callsignset`: the names of `p` go to the array from
`refcount` on. -/
def storeNames (wildok : MatchEnum) :
    (fuel : Nat) → (p : Bytes) → (refbuf : List RefCallsign) → (refcount : Int) → StoreResult
  | 0, _, refbuf, refcount => .stored refbuf refcount
  | _ + 1, [], refbuf, refcount => .stored refbuf refcount
  | fuel + 1, b :: p, refbuf, refcount =>
      match collectName wildok (b :: p) [] 0 false with
      | none => .refused refbuf
      | some (name, p) =>
          if 0 ≤ refcount ∧ refcount < refbuf.length then
            storeNames wildok fuel (p.drop 1) (refbuf.set refcount.toNat name) (refcount + 1)
          else .overrun

theorem splitOnP_eq (p : UInt8 → Bool) (s : Bytes) :
    s.splitOnP p = s.takeWhile (!p ·) ::
      match s.dropWhile (!p ·) with
      | [] => []
      | _ :: rest => rest.splitOnP p := by
  induction s with
  | nil => rfl
  | cons b s ih =>
    rw [List.splitOnP_cons_eq_if_modifyHead]
    by_cases hb : p b = true
    · simp [hb]
    · simp [hb, ih]

/-- The first name of a text, and the others. -/
theorem slashParts_cons (b : UInt8) (p : Bytes) :
    slashParts (b :: p) = (b :: p).takeWhile (· != ch '/') ::
      slashParts (((b :: p).dropWhile (· != ch '/')).drop 1) := by
  have hsplit := splitOnP_eq (· == ch '/') (b :: p)
  have hnot : (fun a : UInt8 => !(a == ch '/')) = (· != ch '/') := rfl
  rw [hnot] at hsplit
  have happend := List.takeWhile_append_dropWhile (p := (· != ch '/')) (l := b :: p)
  generalize (b :: p).takeWhile (· != ch '/') = name at hsplit happend ⊢
  cases hd : (b :: p).dropWhile (· != ch '/') with
  | nil =>
    rw [hd] at hsplit happend
    rw [List.append_nil] at happend
    simp [slashParts, hsplit, happend]
  | cons c rest =>
    rw [hd] at hsplit
    have hne := List.splitOnP_ne_nil (· == ch '/') rest
    simp only [slashParts, hsplit, List.drop_succ_cons, List.drop_zero]
    generalize rest.splitOnP (· == ch '/') = parts at hne
    cases parts with
    | nil => exact absurd rfl hne
    | cons part parts =>
      rw [List.getLastD_cons, List.getLastD_cons, List.dropLast_cons_cons]
      rw [List.getLastD_cons]
      split <;> rfl

@[simp] theorem slashParts_nil : slashParts [] = [] := by decide

theorem length_rest_le {fuel : Nat} {b : UInt8} {p : Bytes} (h : (b :: p).length ≤ fuel + 1) :
    (((b :: p).dropWhile (· != ch '/')).drop 1).length ≤ fuel := by
  have hle := (List.dropWhile_sublist (· != ch '/') (l := b :: p)).length_le
  rw [List.length_drop]
  omega

/-- The first pass counts the names. -/
theorem countNames_eq {fuel : Nat} {p : Bytes} (h : p.length ≤ fuel) :
    countNames fuel p = (slashParts p).length := by
  induction fuel generalizing p with
  | zero =>
    rw [List.length_eq_zero_iff.mp (Nat.le_zero.mp h)]
    rfl
  | succ fuel ih =>
    cases p with
    | nil => rfl
    | cons b p => rw [countNames, ih (length_rest_le h), slashParts_cons, List.length_cons]

/-- A name with an asterisk is refused by some types. -/
def Permitted (wildok : MatchEnum) (name : Bytes) : Prop :=
  ¬(wildok ≠ .matchWild ∧ name.contains (ch '*') = true)

instance (wildok : MatchEnum) (name : Bytes) : Decidable (Permitted wildok name) :=
  inferInstanceAs (Decidable ¬_)

theorem collectName_eq {wildok : MatchEnum} {p prefixbuf : Bytes} {i : Nat} {wildcard : Bool}
    (hi : prefixbuf.length = min i callsignlenMax) :
    collectName wildok p prefixbuf i wildcard =
      if Permitted wildok (p.takeWhile (· != ch '/')) then
        some ({ callsign := prefixbuf ++ ((p.takeWhile (· != ch '/')).filter (· != ch '*')).take
                  (callsignlenMax - prefixbuf.length)
                wildCard := wildcard || (p.takeWhile (· != ch '/')).contains (ch '*') },
          p.dropWhile (· != ch '/'))
      else none := by
  induction p generalizing prefixbuf i wildcard with
  | nil => simp [collectName, Permitted]
  | cons b p ih =>
    rw [collectName]
    by_cases hslash : b = ch '/'
    · simp [hslash, Permitted]
    · rw [if_neg hslash]
      have hname : (b :: p).takeWhile (· != ch '/') = b :: p.takeWhile (· != ch '/') := by
        simp [hslash]
      have hrest : (b :: p).dropWhile (· != ch '/') = p.dropWhile (· != ch '/') := by
        simp [hslash]
      rw [hname, hrest]
      generalize p.takeWhile (· != ch '/') = name at ih
      by_cases hstar : b = ch '*'
      · subst hstar
        rw [if_pos rfl, ih hi]
        by_cases hwild : wildok = .matchWild
        · simp [Permitted, hwild]
        · simp [Permitted, hwild]
      · rw [if_neg hstar, List.filter_cons_of_pos (by simpa using hstar), List.contains_cons]
        have hbeq : (ch '*' == b) = false := by simpa using Ne.symm hstar
        rw [hbeq, Bool.false_or]
        have hpermitted : Permitted wildok (b :: name) ↔ Permitted wildok name := by
          simp [Permitted, Ne.symm hstar]
        by_cases hlt : i < callsignlenMax
        · have hi' : (prefixbuf ++ [b]).length = min (i + 1) callsignlenMax := by
            rw [List.length_append, hi, List.length_singleton]
            omega
          rw [if_pos hlt, ih hi']
          have htake : callsignlenMax - prefixbuf.length =
              callsignlenMax - (prefixbuf ++ [b]).length + 1 := by
            rw [List.length_append, List.length_singleton]
            omega
          simp [hpermitted, htake, List.take_succ_cons]
        · have hi' : prefixbuf.length = min (i + 1) callsignlenMax := by omega
          have hzero : callsignlenMax - prefixbuf.length = 0 := by omega
          rw [if_neg hlt, ih hi']
          simp [hpermitted, hzero]

/-- A name of the second pass is the name as it is stored. -/
theorem collectName_start (wildok : MatchEnum) (p : Bytes) :
    collectName wildok p [] 0 false =
      if Permitted wildok (p.takeWhile (· != ch '/')) then
        some (refCallsign (p.takeWhile (· != ch '/')), p.dropWhile (· != ch '/'))
      else none := by
  rw [collectName_eq (by rfl)]
  rfl

/-- The second pass stores the names after the first `k` ones, or it comes to one that is
refused. The first `k` ones stay. -/
theorem storeNames_cases {wildok : MatchEnum} {fuel : Nat} {p : Bytes} {refbuf : List RefCallsign}
    {k : Nat} (hfuel : p.length ≤ fuel) (hroom : k + (slashParts p).length ≤ refbuf.length) :
    ((∀ name ∈ slashParts p, Permitted wildok name) ∧
      storeNames wildok fuel p refbuf k =
        .stored (refbuf.take k ++ (slashParts p).map refCallsign ++
          refbuf.drop (k + (slashParts p).length)) (k + (slashParts p).length)) ∨
      (∃ name ∈ slashParts p, ¬Permitted wildok name) ∧
        ∃ refbuf', storeNames wildok fuel p refbuf k = .refused refbuf' ∧
          refbuf'.take k = refbuf.take k ∧ refbuf'.length = refbuf.length := by
  induction fuel generalizing p refbuf k with
  | zero =>
    rw [List.length_eq_zero_iff.mp (Nat.le_zero.mp hfuel)]
    exact .inl ⟨by simp, by simp [storeNames]⟩
  | succ fuel ih =>
    cases p with
    | nil => exact .inl ⟨by simp, by simp [storeNames]⟩
    | cons b p =>
      rw [storeNames, collectName_start]
      rw [slashParts_cons, List.length_cons] at hroom
      rw [slashParts_cons]
      have hrest := length_rest_le hfuel
      generalize (b :: p).takeWhile (· != ch '/') = name
      generalize (b :: p).dropWhile (· != ch '/') = rest at hroom hrest ⊢
      by_cases hname : Permitted wildok name
      · rw [if_pos hname]
        have hin : (0 : Int) ≤ k ∧ (k : Int) < refbuf.length := by omega
        dsimp only
        rw [if_pos hin, Int.toNat_natCast]
        have hset : k < refbuf.length := by omega
        have hroom' : k + 1 + (slashParts (rest.drop 1)).length ≤
            (refbuf.set k (refCallsign name)).length := by
          rw [List.length_set]
          omega
        obtain ⟨hall, hstored⟩ | ⟨⟨bad, hmem, hbad⟩, refbuf', hrefused, htake, hlen⟩ :=
          ih hrest hroom'
        · refine .inl ⟨by simpa [hname] using hall, ?_⟩
          have htake : (refbuf.set k (refCallsign name)).take (k + 1) =
              refbuf.take k ++ [refCallsign name] := by
            rw [List.take_add_one, List.take_set_of_le (Nat.le_refl k),
              List.getElem?_set_self hset, Option.toList_some]
          rw [← Int.natCast_succ, hstored, htake, List.drop_set_of_lt (by omega)]
          simp only [List.map_cons, List.append_assoc, List.cons_append, List.nil_append,
            StoreResult.stored.injEq, List.length_cons, Int.natCast_succ]
          refine ⟨?_, by omega⟩
          rw [Nat.add_right_comm k 1, Nat.add_assoc k]
        · refine .inr ⟨⟨bad, List.mem_cons_of_mem _ hmem, hbad⟩, refbuf', hrefused, ?_,
            by simpa using hlen⟩
          have htake' := congrArg (·.take k) htake
          simpa [List.take_take, List.take_set_of_le] using htake'
      · rw [if_neg hname]
        exact .inr ⟨⟨name, List.mem_cons_self, hname⟩, refbuf, rfl, rfl, rfl⟩

/-- In front of the array there is no place for a name. -/
theorem storeNames_neg {wildok : MatchEnum} {fuel : Nat} {p : Bytes} {refbuf : List RefCallsign}
    {refcount : Int} {name : Bytes} {names : List Bytes} (hp : slashParts p = name :: names)
    (hfuel : p.length ≤ fuel) (hneg : refcount < 0) :
    storeNames wildok fuel p refbuf refcount =
      if Permitted wildok name then .overrun else .refused refbuf := by
  cases p with
  | nil => simp at hp
  | cons b p =>
    cases fuel with
    | zero => simp at hfuel
    | succ fuel =>
      rw [slashParts_cons, List.cons.injEq] at hp
      rw [storeNames, collectName_start, hp.1]
      have hout : ¬(0 ≤ refcount ∧ refcount < refbuf.length) := by omega
      by_cases hname : Permitted wildok name
      · simp [hname, hout]
      · simp [hname]

/-! ## Records -/

/-- `struct filter_t`. The array of names may be longer than their number. -/
structure FilterRecord extends FilterText where
  type : UInt8
  refcallsigns : List RefCallsign
  numnames : Int
  /-- What the types without names keep. -/
  body : FilterBody
deriving DecidableEq

/-- The filter as packets are matched with it. -/
def FilterRecord.toFilter (r : FilterRecord) : FilterT where
  toFilterText := r.toFilterText
  type := r.type
  body := if setLetter r.type then .callsigns r.refcallsigns r.numnames else r.body

/-- The four chains of a client. -/
abbrev FilterRecords := ChainId → List FilterRecord

def FilterRecords.init : FilterRecords := fun _ => []

def FilterRecords.toChains (s : FilterRecords) : FilterChains where
  negdefaultfilters := (s .negdefault).map (·.toFilter)
  posdefaultfilters := (s .posdefault).map (·.toFilter)
  neguserfilters := (s .neguser).map (·.toFilter)
  posuserfilters := (s .posuser).map (·.toFilter)

/-- New memory for `n` names. -/
def newNames (junk : Nat → RefCallsign) (n : Nat) : List RefCallsign := (List.range n).map junk

/-- `hrealloc` of an array. The process exits if it is given no size, or a negative one. -/
def reallocNames (junk : Nat → RefCallsign) (refbuf : List RefCallsign) (refcount : Int) :
    Option (List RefCallsign) :=
  if refcount ≤ 0 then none
  else some (refbuf.take refcount.toNat ++ newNames junk (refcount.toNat - refbuf.length))

/-- A text is appended to that of a record. -/
def FilterRecord.extendText (ff : FilterRecord) (filt0 : Bytes) : Option FilterRecord :=
  (ff.toFilterText.extend filt0).map fun text => { ff with toFilterText := text }

/-- What `filter_parse_one_callsignset` comes to. -/
inductive SetResult where
  /-- A negative value, with the last record of the chain as it is left. -/
  | rejected (ff : Option FilterRecord)
  | fresh (refcallsigns : List RefCallsign) (numnames : Int)
  | extended (ff : FilterRecord)
  /-- A name goes to memory that is not part of the array, or a text to memory behind the one
  it was given. -/
  | overrun
  | exits

/-- `filter_parse_one_callsignset`, where `ff` is the last record of the chain. -/
def parseOneCallsignset (junk : Nat → RefCallsign) (filt0 : Bytes) (type : UInt8)
    (ff : Option FilterRecord) (wildok : MatchEnum) : SetResult :=
  let p := namesText filt0
  let refmax := countNames p.length p
  let fresh :=
    match storeNames wildok p.length p (newNames junk refmax) 0 with
    | .stored refbuf refcount => .fresh refbuf (int16 refcount)
    | .refused _ => .rejected ff
    | .overrun => .overrun
  if refmax = 0 then .rejected ff
  else
    match ff with
    | none => fresh
    | some ff =>
        if ff.type = type then
          match reallocNames junk ff.refcallsigns (ff.numnames + refmax) with
          | none => .exits
          | some refbuf =>
              match storeNames wildok p.length p refbuf ff.numnames with
              | .stored refbuf refcount =>
                  let ff := { ff with refcallsigns := refbuf, numnames := int16 refcount }
                  match ff.extendText filt0 with
                  | some ff => .extended ff
                  | none => .overrun
              | .refused refbuf => .rejected (some { ff with refcallsigns := refbuf })
              | .overrun => .overrun
        else fresh

/-- The types that are sets of names, and what an asterisk is to them. -/
def setWildok (type : UInt8) : Option MatchEnum :=
  let letter := tolower type
  if letter == ch 'p' then some .matchPrefix
  else if setLetter type then some .matchWild
  else none

/-! ## Parsing -/

/-- A call of `filter_parse`, and what is in the memory it is given. -/
structure RecordCall extends FilterCall where
  junk : Nat → RefCallsign

/-- The type of the specification. -/
def FilterCall.type (call : FilterCall) : UInt8 :=
  (if call.filt.head? = some (ch '-') then call.filt.drop 1 else call.filt).headD 0

/-- A record with the text of the specification. -/
def newRecord (type : UInt8) (refcallsigns : List RefCallsign) (numnames : Int) (body : FilterBody)
    (filt0 : Bytes) : FilterRecord :=
  { toFilterText := filterText filt0, type, refcallsigns, numnames, body }

/-- What `filter_parse` comes to. -/
inductive RecordOutcome where
  | rejected (s : FilterRecords)
  | accepted (s : FilterRecords)
  /-- A name or a text goes to memory that is not its own. -/
  | overrun
  /-- The process exits. -/
  | exits

/-- The end of `filter_parse`: a record is linked to the tail. -/
def linkRecord (s : FilterRecords) (call : FilterCall) (r : FilterRecord) : RecordOutcome :=
  if call.cell then .accepted (Function.update s call.chain (s call.chain ++ [r]))
  else .rejected s

/-- The last record of a chain is changed. -/
def setLast (s : FilterRecords) (id : ChainId) (ff : Option FilterRecord) : FilterRecords :=
  Function.update s id ((s id).dropLast ++ ff.toList)

/-- `filter_parse`, on a client that may have filters of the user or may not. -/
def parseRecord (env : FilterEnv) (userfilterok : Bool) (s : FilterRecords) (call : RecordCall) :
    RecordOutcome :=
  if call.isUserFilter && !userfilterok then .rejected s
  else
    match setWildok call.type with
    | some wildok =>
        match parseOneCallsignset call.junk call.filt call.type (s call.chain).getLast? wildok with
        | .rejected ff => .rejected (setLast s call.chain ff)
        | .fresh refcallsigns numnames =>
            linkRecord s call.toFilterCall
              (newRecord call.type refcallsigns numnames .empty call.filt)
        | .extended ff => .accepted (setLast s call.chain (some ff))
        | .overrun => .overrun
        | .exits => .exits
    | none =>
        match ownFilter env call.filt with
        | none => .rejected s
        | some f => linkRecord s call.toFilterCall (newRecord f.type [] 0 f.body call.filt)

/-- What happens to the filters of a client. -/
inductive RecordEvent where
  | parse (call : RecordCall)
  /-- The filters of the user are discarded. -/
  | discard

/-- There is no state after an overrun or an exit. -/
def recordStep (env : FilterEnv) (userfilterok : Bool) (s : Option FilterRecords) :
    RecordEvent → Option FilterRecords
  | .parse call =>
      s.bind fun s =>
        match parseRecord env userfilterok s call with
        | .rejected s => some s
        | .accepted s => some s
        | .overrun => none
        | .exits => none
  | .discard => s.map fun s => Function.update (Function.update s .neguser []) .posuser []

/-! ## What packets see of a record -/

/-- The record with the names that count. -/
def FilterRecord.counted (r : FilterRecord) : FilterRecord :=
  { r with refcallsigns := r.refcallsigns.take r.numnames.toNat }

/-- All the names that count are in the array. -/
def FilterRecord.Wf (r : FilterRecord) : Prop := r.numnames ≤ r.refcallsigns.length

def FilterRecords.Wf (s : FilterRecords) : Prop := ∀ id, ∀ r ∈ s id, r.Wf

theorem matchOnCallsignset_take (wildok : MatchEnum) (refs : List RefCallsign) (n : Int) :
    (FilterBody.callsigns (refs.take n.toNat) n).matchOnCallsignset wildok =
      (FilterBody.callsigns refs n).matchOnCallsignset wildok := by
  funext key
  simp only [FilterBody.matchOnCallsignset, List.take_take, Nat.min_self]

/-- What is in the array after the names that count is never looked at. -/
theorem FilterRecord.filterProcessOne_counted (env : FilterEnv) (pb : FilterPacket)
    (r : FilterRecord) :
    filterProcessOne env pb r.counted.toFilter = filterProcessOne env pb r.toFilter := by
  cases hset : setLetter r.type with
  | false => simp [FilterRecord.toFilter, FilterRecord.counted, hset]
  | true =>
    have hprocess : ∀ letter, filterProcessSet pb letter
        (.callsigns (r.refcallsigns.take r.numnames.toNat) r.numnames) =
          filterProcessSet pb letter (.callsigns r.refcallsigns r.numnames) := by
      intro letter
      simp only [filterProcessSet, matchOnCallsignset_take]
    have hbody : r.toFilter.body = .callsigns r.refcallsigns r.numnames := by
      simp [FilterRecord.toFilter, hset]
    have hbody' : r.counted.toFilter.body =
        .callsigns (r.refcallsigns.take r.numnames.toNat) r.numnames := by
      simp [FilterRecord.toFilter, FilterRecord.counted, hset]
    rw [filterProcessOne_set pb hbody, filterProcessOne_set pb hbody', hprocess]
    rfl

/-- A chain gives what the records do whose names count. -/
theorem anyMatch_counted (env : FilterEnv) (pb : FilterPacket) (rs : List FilterRecord) :
    anyMatch env pb ((rs.map (·.counted)).map (·.toFilter)) =
      anyMatch env pb (rs.map (·.toFilter)) := by
  induction rs with
  | nil => rfl
  | cons r rs ih =>
    simp only [anyMatch, List.map_cons, List.any_cons] at ih ⊢
    rw [ih, r.filterProcessOne_counted]

theorem userLoop_counted (env : FilterEnv) (pb : FilterPacket) (printed : Int) (hit : Int → Int)
    (warned : Bool) (rs : List FilterRecord) :
    userLoop env pb printed hit warned ((rs.map (·.counted)).map (·.toFilter)) =
      userLoop env pb printed hit warned (rs.map (·.toFilter)) := by
  induction rs generalizing warned with
  | nil => rfl
  | cons r rs ih => simp only [userLoop, List.map_cons, r.filterProcessOne_counted, ih]

/-- Records whose names that count are the same match the same packets. -/
theorem filterProcess_congr {s s' : FilterRecords}
    (h : ∀ id, (s' id).map (·.counted) = (s id).map (·.counted)) (env : FilterEnv)
    (pb : FilterPacket) (printed : Int) (warned : Bool) :
    filterProcess env pb printed warned s'.toChains =
      filterProcess env pb printed warned s.toChains := by
  have hany : ∀ id, anyMatch env pb ((s' id).map (·.toFilter)) =
      anyMatch env pb ((s id).map (·.toFilter)) := by
    intro id
    rw [← anyMatch_counted, h, anyMatch_counted]
  have hloop : ∀ id hit warned, userLoop env pb printed hit warned ((s' id).map (·.toFilter)) =
      userLoop env pb printed hit warned ((s id).map (·.toFilter)) := by
    intro id hit warned
    rw [← userLoop_counted, h, userLoop_counted]
  simp only [filterProcess, FilterRecords.toChains, hany, hloop]
  rfl

theorem texts_congr {rs rs' : List FilterRecord}
    (h : rs'.map (·.counted) = rs.map (·.counted)) :
    rs'.map (·.text) = rs.map (·.text) := by
  have hmap := congrArg (List.map fun r => r.text) h
  simpa [Function.comp_def, FilterRecord.counted] using hmap

/-! ## Sets of names -/

/-- The record has lost count of its names, and there is room for fewer new ones than are
stored. -/
def FilterRecord.LosesCount (r : FilterRecord) (wildok : MatchEnum) (names : List Bytes) : Prop :=
  r.numnames < 0 ∧ 0 < r.numnames + names.length ∧ ∃ name ∈ names.head?, Permitted wildok name

/-- What a set of names comes to. -/
inductive SetCase (filt0 : Bytes) (type : UInt8) (wildok : MatchEnum) (ff : Option FilterRecord) :
    SetResult → Prop where
  | rejected : SetCase filt0 type wildok ff (.rejected ff)
  | fresh (hall : ∀ name ∈ slashParts (namesText filt0), Permitted wildok name) :
      SetCase filt0 type wildok ff (.fresh ((slashParts (namesText filt0)).map refCallsign)
        (int16 (slashParts (namesText filt0)).length))
  /-- The array of the record was moved. -/
  | refused (r : FilterRecord) (refbuf : List RefCallsign) (hff : ff = some r)
      (htake : refbuf.take r.numnames.toNat = r.refcallsigns.take r.numnames.toNat)
      (hwf : r.numnames ≤ refbuf.length) :
      SetCase filt0 type wildok ff (.rejected (some { r with refcallsigns := refbuf }))
  | extended (r : FilterRecord) (hff : ff = some r) (htype : r.type = type) (h0 : 0 ≤ r.numnames)
      (hne : slashParts (namesText filt0) ≠ [])
      (hall : ∀ name ∈ slashParts (namesText filt0), Permitted wildok name)
      (text : FilterText) (htext : r.toFilterText.extend filt0 = some text) :
      SetCase filt0 type wildok ff
        (.extended
          { r with
            toFilterText := text
            refcallsigns := r.refcallsigns.take r.numnames.toNat ++
              (slashParts (namesText filt0)).map refCallsign
            numnames := int16 (r.numnames + (slashParts (namesText filt0)).length) })
  | overrunText (r : FilterRecord) (hff : ff = some r) (htype : r.type = type)
      (h0 : 0 ≤ r.numnames) (hne : slashParts (namesText filt0) ≠ [])
      (hall : ∀ name ∈ slashParts (namesText filt0), Permitted wildok name)
      (hroom : ¬r.HasRoom filt0) : SetCase filt0 type wildok ff .overrun
  | overrun (r : FilterRecord) (hff : ff = some r) (htype : r.type = type)
      (hloses : r.LosesCount wildok (slashParts (namesText filt0))) :
      SetCase filt0 type wildok ff .overrun
  | exits (r : FilterRecord) (hff : ff = some r) (h0 : r.numnames < 0) :
      SetCase filt0 type wildok ff .exits

@[simp] theorem length_newNames (junk : Nat → RefCallsign) (n : Nat) :
    (newNames junk n).length = n := by
  simp [newNames]

/-- `hrealloc` keeps the names there is still room for. -/
theorem reallocNames_eq_some {junk : Nat → RefCallsign} {refs refbuf : List RefCallsign}
    {refcount : Int} (h : reallocNames junk refs refcount = some refbuf) :
    0 < refcount ∧ refbuf.length = refcount.toNat ∧
      ∀ k, k ≤ refcount.toNat → k ≤ refs.length → refbuf.take k = refs.take k := by
  unfold reallocNames at h
  split at h
  · cases h
  · rename_i hpos
    cases h
    refine ⟨by omega, ?_, fun k hk hk' => ?_⟩
    · simp only [List.length_append, List.length_take, length_newNames]
      omega
    · have hle : k ≤ (refs.take refcount.toNat).length := by
        rw [List.length_take]
        omega
      rw [List.take_append_of_le_length hle, List.take_take, Nat.min_eq_left hk]

section
variable {junk : Nat → RefCallsign} {filt0 : Bytes} {type : UInt8} {wildok : MatchEnum}
  {ff : Option FilterRecord}

/-- An array of its own holds just the names. -/
theorem storeNames_newNames :
    ((∀ name ∈ slashParts (namesText filt0), Permitted wildok name) ∧
      storeNames wildok (namesText filt0).length (namesText filt0)
          (newNames junk (slashParts (namesText filt0)).length) 0 =
        .stored ((slashParts (namesText filt0)).map refCallsign)
          (slashParts (namesText filt0)).length) ∨
      (∃ name ∈ slashParts (namesText filt0), ¬Permitted wildok name) ∧
        ∃ refbuf, storeNames wildok (namesText filt0).length (namesText filt0)
          (newNames junk (slashParts (namesText filt0)).length) 0 = .refused refbuf := by
  have hroom : 0 + (slashParts (namesText filt0)).length ≤
      (newNames junk (slashParts (namesText filt0)).length).length := by simp
  obtain ⟨hall, hstored⟩ | ⟨hbad, refbuf, hrefused, -⟩ :=
    storeNames_cases (Nat.le_refl _) hroom
  · rw [Int.natCast_zero] at hstored
    have hdrop : (newNames junk (slashParts (namesText filt0)).length).drop
        (slashParts (namesText filt0)).length = [] := by
      rw [List.drop_eq_nil_iff, length_newNames]
    exact .inl ⟨hall, by simpa [hdrop] using hstored⟩
  · exact .inr ⟨hbad, refbuf, hrefused⟩

theorem parseOneCallsignset_cases (hwf : ∀ r, ff = some r → r.Wf) :
    SetCase filt0 type wildok ff (parseOneCallsignset junk filt0 type ff wildok) := by
  unfold parseOneCallsignset
  dsimp only
  have hcount := countNames_eq (Nat.le_refl (namesText filt0).length)
  rw [hcount]
  by_cases hzero : (slashParts (namesText filt0)).length = 0
  · rw [if_pos hzero]
    exact .rejected
  rw [if_neg hzero]
  have hfresh : SetCase filt0 type wildok ff
      (match storeNames wildok (namesText filt0).length (namesText filt0)
          (newNames junk (slashParts (namesText filt0)).length) 0 with
        | .stored refbuf refcount => .fresh refbuf (int16 refcount)
        | .refused _ => .rejected ff
        | .overrun => .overrun) := by
    obtain ⟨hall, hstored⟩ | ⟨-, refbuf, hrefused⟩ :=
      @storeNames_newNames junk filt0 wildok
    · rw [hstored]
      exact .fresh hall
    · rw [hrefused]
      exact .rejected
  cases ff with
  | none => exact hfresh
  | some r =>
    dsimp only
    by_cases htype : r.type = type
    swap
    · rw [if_neg htype]
      exact hfresh
    rw [if_pos htype]
    have hr := hwf r rfl
    unfold FilterRecord.Wf at hr
    obtain ⟨name, names, hnames⟩ := List.exists_cons_of_length_pos (Nat.pos_of_ne_zero hzero)
    cases hrealloc : reallocNames junk r.refcallsigns
        (r.numnames + (slashParts (namesText filt0)).length) with
    | none =>
      unfold reallocNames at hrealloc
      split at hrealloc
      · exact .exits r rfl (by omega)
      · cases hrealloc
    | some refbuf =>
      obtain ⟨hpos, hlen, hkeep⟩ := reallocNames_eq_some hrealloc
      dsimp only
      obtain hneg | h0 := Int.lt_or_le r.numnames 0
      · rw [storeNames_neg hnames (Nat.le_refl _) hneg]
        by_cases hname : Permitted wildok name
        · rw [if_pos hname]
          exact .overrun r rfl htype ⟨hneg, hpos, name, by simp [hnames], hname⟩
        · rw [if_neg hname]
          have hzero : r.numnames.toNat = 0 := by omega
          exact .refused r refbuf rfl (by simp [hzero]) (by omega)
      · obtain ⟨k, hk⟩ := Int.eq_ofNat_of_zero_le h0
        have hroom : k + (slashParts (namesText filt0)).length ≤ refbuf.length := by omega
        obtain ⟨hall, hstored⟩ | ⟨-, refbuf', hrefused, htake, hlen'⟩ :=
          storeNames_cases (Nat.le_refl _) hroom
        · rw [← hk] at hstored
          rw [hstored]
          have hdrop : refbuf.drop (k + (slashParts (namesText filt0)).length) = [] := by
            rw [List.drop_eq_nil_iff]
            omega
          have hsome := r.toFilterText.extend_isSome_iff filt0
          simp only [FilterRecord.extendText]
          cases htext : r.toFilterText.extend filt0 with
          | none =>
            refine .overrunText r rfl htype h0 (by simp [hnames]) hall ?_
            rw [← hsome, htext]
            simp
          | some text =>
            have hextended := SetCase.extended r rfl htype h0 (by simp [hnames]) hall text htext
            have htoNat : r.numnames.toNat = k := by omega
            rw [htoNat, ← hkeep k (by omega) (by omega)] at hextended
            simpa [hdrop] using hextended
        · rw [← hk] at hrefused
          rw [hrefused]
          refine .refused r refbuf' rfl ?_ (by omega)
          rw [hk, Int.toNat_natCast, htake, hkeep k (by omega) (by omega)]

/-- Without a record to extend, the names that are permitted get an array of their own. -/
theorem parseOneCallsignset_fresh (hne : slashParts (namesText filt0) ≠ [])
    (hall : ∀ name ∈ slashParts (namesText filt0), Permitted wildok name) :
    parseOneCallsignset junk filt0 type none wildok =
      .fresh ((slashParts (namesText filt0)).map refCallsign)
        (int16 (slashParts (namesText filt0)).length) := by
  unfold parseOneCallsignset
  have hcount := countNames_eq (Nat.le_refl (namesText filt0).length)
  have hzero : (slashParts (namesText filt0)).length ≠ 0 := by simpa using hne
  obtain ⟨-, hstored⟩ | ⟨⟨name, hmem, hbad⟩, -⟩ :=
    @storeNames_newNames junk filt0 wildok
  · simp only [hcount, if_neg hzero, hstored]
  · exact absurd (hall name hmem) hbad

/-- Names that are permitted extend a record that has not lost count, if there is room for
their text. -/
theorem parseOneCallsignset_extends {r : FilterRecord} (htype : r.type = type)
    (h0 : 0 ≤ r.numnames) (hne : slashParts (namesText filt0) ≠ [])
    (hall : ∀ name ∈ slashParts (namesText filt0), Permitted wildok name) :
    ∃ refs n, n ≤ refs.length ∧ parseOneCallsignset junk filt0 type (some r) wildok =
      match r.toFilterText.extend filt0 with
      | some text =>
          .extended { r with toFilterText := text, refcallsigns := refs, numnames := n }
      | none => .overrun := by
  obtain ⟨k, hk⟩ := Int.eq_ofNat_of_zero_le h0
  have hcount := countNames_eq (Nat.le_refl (namesText filt0).length)
  have hpos := List.length_pos_iff.mpr hne
  have hroom : ¬r.numnames + ((slashParts (namesText filt0)).length : Int) ≤ 0 := by omega
  unfold parseOneCallsignset
  cases hrealloc : reallocNames junk r.refcallsigns
      (r.numnames + (slashParts (namesText filt0)).length) with
  | none =>
    rw [reallocNames, if_neg hroom] at hrealloc
    cases hrealloc
  | some refbuf =>
    have hlen := (reallocNames_eq_some hrealloc).2.1
    have hfits : k + (slashParts (namesText filt0)).length ≤ refbuf.length := by omega
    obtain ⟨-, hstored⟩ | ⟨⟨name, hmem, hbad⟩, -⟩ :=
      @storeNames_cases wildok _ _ _ _ (Nat.le_refl _) hfits
    · rw [← hk] at hstored
      simp only [hcount, if_neg (Nat.ne_of_gt hpos), if_pos htype, hrealloc, hstored,
        FilterRecord.extendText]
      refine ⟨_, _, ?_, by cases r.toFilterText.extend filt0 <;> rfl⟩
      have hle := int16_le (k + (slashParts (namesText filt0)).length)
      rw [Int.natCast_add, ← hk] at hle
      simp only [List.length_append, List.length_take, List.length_map, List.length_drop]
      omega
    · exact absurd (hall name hmem) hbad

/-- A record that has lost count is overrun. -/
theorem parseOneCallsignset_losesCount {r : FilterRecord} (htype : r.type = type)
    (h : r.LosesCount wildok (slashParts (namesText filt0))) :
    parseOneCallsignset junk filt0 type (some r) wildok = .overrun := by
  obtain ⟨hneg, hpos, name, hname, hpermitted⟩ := h
  cases hnames : slashParts (namesText filt0) with
  | nil => simp [hnames] at hname
  | cons first names =>
    obtain rfl : first = name := by simpa [hnames] using hname
    unfold parseOneCallsignset
    have hcount := countNames_eq (Nat.le_refl (namesText filt0).length)
    have hne : (slashParts (namesText filt0)).length ≠ 0 := by simp [hnames]
    have hroom : ¬r.numnames + ((slashParts (namesText filt0)).length : Int) ≤ 0 := by omega
    simp [hcount, hne, htype, reallocNames, hroom,
      storeNames_neg hnames (Nat.le_refl _) hneg, hpermitted]

end

/-! ## Calls -/

theorem setLast_getLast? (s : FilterRecords) (id : ChainId) :
    setLast s id (s id).getLast? = s := by
  unfold setLast
  have hlast : (s id).dropLast ++ (s id).getLast?.toList = s id := by
    cases List.eq_nil_or_concat (s id) with
    | inl h => simp [h]
    | inr h =>
      obtain ⟨rs, r, h⟩ := h
      simp [h]
  rw [hlast, Function.update_eq_self]

/-- A change of the last record that leaves the names that count. -/
theorem map_counted_setLast {s : FilterRecords} {id : ChainId} {r r' : FilterRecord}
    (hlast : (s id).getLast? = some r) (h : r'.counted = r.counted) (id' : ChainId) :
    (setLast s id (some r') id').map (·.counted) = (s id').map (·.counted) := by
  unfold setLast
  by_cases hid : id' = id
  · subst hid
    obtain ⟨rs, hrs⟩ := List.getLast?_eq_some_iff.mp hlast
    simp [hrs, h]
  · simp [hid]

theorem FilterRecords.Wf.update {s : FilterRecords} (hs : s.Wf) {id : ChainId}
    {rs : List FilterRecord} (hrs : ∀ r ∈ rs, r.Wf) :
    FilterRecords.Wf (Function.update s id rs) := by
  intro id' r hr
  by_cases hid : id' = id
  · subst hid
    exact hrs r (by simpa using hr)
  · exact hs id' r (by simpa [hid] using hr)

theorem FilterRecords.Wf.setLast {s : FilterRecords} (hs : s.Wf) (id : ChainId)
    {ff : Option FilterRecord} (hff : ∀ r ∈ ff, r.Wf) : (setLast s id ff).Wf := by
  apply hs.update
  intro r hr
  obtain hr | hr := List.mem_append.mp hr
  · exact hs id r (List.mem_of_mem_dropLast hr)
  · exact hff r (by simpa using hr)

theorem wf_newRecord {type : UInt8} {refs : List RefCallsign} {n : Int} {body : FilterBody}
    {filt0 : Bytes} (h : n ≤ refs.length) : (newRecord type refs n body filt0).Wf := by
  exact h

/-- The specification extends the record `r`. -/
structure Extends (userfilterok : Bool) (s : FilterRecords) (call : FilterCall)
    (r : FilterRecord) : Prop where
  permitted : (call.isUserFilter && !userfilterok) = false
  last : (s call.chain).getLast? = some r
  sameType : r.type = call.type
  nonneg : 0 ≤ r.numnames
  named : slashParts (namesText call.filt) ≠ []
  names : ∃ wildok ∈ setWildok call.type,
    ∀ name ∈ slashParts (namesText call.filt), Permitted wildok name

/-- The specification extends a record that has lost count of its names. -/
def WritesInFront (userfilterok : Bool) (s : FilterRecords) (call : FilterCall) : Prop :=
  (call.isUserFilter && !userfilterok) = false ∧
    ∃ wildok ∈ setWildok call.type, ∃ r ∈ (s call.chain).getLast?,
      r.type = call.type ∧ r.LosesCount wildok (slashParts (namesText call.filt))

/-- The specification extends a record whose text it writes beyond the end of its memory. -/
def WritesBehind (userfilterok : Bool) (s : FilterRecords) (call : FilterCall) : Prop :=
  ∃ r, Extends userfilterok s call r ∧ ¬r.HasRoom call.filt

/-- What a call comes to. -/
inductive ParseCase (userfilterok : Bool) (s : FilterRecords) (call : FilterCall) :
    RecordOutcome → Prop where
  | rejected (s' : FilterRecords) (hwf : s'.Wf)
      (hsame : ∀ id, (s' id).map (·.counted) = (s id).map (·.counted)) :
      ParseCase userfilterok s call (.rejected s')
  | linked (type : UInt8) (refs : List RefCallsign) (n : Int) (body : FilterBody)
      (hn : n ≤ refs.length) :
      ParseCase userfilterok s call (.accepted (Function.update s call.chain
        (s call.chain ++ [newRecord type refs n body call.filt])))
  | extended (r : FilterRecord) (refs : List RefCallsign) (n : Int) (text : FilterText)
      (hr : Extends userfilterok s call r) (hn : n ≤ refs.length)
      (htext : r.toFilterText.extend call.filt = some text) :
      ParseCase userfilterok s call (.accepted (setLast s call.chain
        (some { r with toFilterText := text, refcallsigns := refs, numnames := n })))
  | overrun (h : WritesInFront userfilterok s call ∨ WritesBehind userfilterok s call) :
      ParseCase userfilterok s call .overrun
  | exits : ParseCase userfilterok s call .exits

theorem linkRecord_cases {userfilterok : Bool} {s : FilterRecords} (hs : s.Wf) (call : FilterCall)
    {type : UInt8} {refs : List RefCallsign} {n : Int} {body : FilterBody} (hn : n ≤ refs.length) :
    ParseCase userfilterok s call (linkRecord s call (newRecord type refs n body call.filt)) := by
  unfold linkRecord
  split
  · exact .linked type refs n body hn
  · exact .rejected s hs fun _ => rfl

theorem parseRecord_cases (env : FilterEnv) (userfilterok : Bool) {s : FilterRecords} (hs : s.Wf)
    (call : RecordCall) :
    ParseCase userfilterok s call.toFilterCall (parseRecord env userfilterok s call) := by
  unfold parseRecord
  split
  · exact .rejected s hs fun _ => rfl
  rename_i huser
  rw [Bool.not_eq_true] at huser
  split
  · rename_i wildok hwildok
    have hwf : ∀ r, (s call.chain).getLast? = some r → r.Wf := fun r hr =>
      hs call.chain r (List.mem_of_getLast? hr)
    have hcases := @parseOneCallsignset_cases call.junk call.filt call.type wildok _ hwf
    generalize parseOneCallsignset call.junk call.filt call.type (s call.chain).getLast? wildok =
      result at hcases
    cases hcases with
    | rejected =>
      dsimp only
      rw [setLast_getLast?]
      exact .rejected s hs fun _ => rfl
    | fresh hall =>
      apply linkRecord_cases hs
      rw [List.length_map]
      exact int16_le _
    | refused r refbuf hff htake hle =>
      refine .rejected _ (hs.setLast _ ?_) (map_counted_setLast hff ?_)
      · intro r' hr'
        cases hr'
        exact hle
      · simp only [FilterRecord.counted, htake]
    | extended r hff htype h0 hne hall text htext =>
      refine .extended r _ _ text ⟨huser, hff, htype, h0, hne, wildok, hwildok, hall⟩ ?_ htext
      have hr := hwf r hff
      unfold FilterRecord.Wf at hr
      rw [List.length_append, List.length_take, List.length_map]
      obtain ⟨k, hk⟩ := Int.eq_ofNat_of_zero_le h0
      have hle := int16_le (k + (slashParts (namesText call.filt)).length)
      rw [hk] at hr ⊢
      simp only [Int.natCast_add, Int.toNat_natCast] at hle ⊢
      omega
    | overrunText r hff htype h0 hne hall hroom =>
      exact .overrun (.inr ⟨r, ⟨huser, hff, htype, h0, hne, wildok, hwildok, hall⟩, hroom⟩)
    | overrun r hff htype hloses =>
      exact .overrun (.inl ⟨huser, wildok, hwildok, r, hff, htype, hloses⟩)
    | exits => exact .exits
  · split
    · exact .rejected s hs fun _ => rfl
    · exact linkRecord_cases hs call.toFilterCall (by simp)

/-- The first specification of a chain gets a record of its own. -/
theorem parseRecord_fresh {env : FilterEnv} {userfilterok : Bool} {s : FilterRecords}
    {call : RecordCall} {wildok : MatchEnum}
    (huser : (call.isUserFilter && !userfilterok) = false)
    (hwildok : setWildok call.type = some wildok) (hlast : (s call.chain).getLast? = none)
    (hne : slashParts (namesText call.filt) ≠ [])
    (hall : ∀ name ∈ slashParts (namesText call.filt), Permitted wildok name) :
    parseRecord env userfilterok s call =
      linkRecord s call.toFilterCall
        (newRecord call.type ((slashParts (namesText call.filt)).map refCallsign)
          (int16 (slashParts (namesText call.filt)).length) .empty call.filt) := by
  unfold parseRecord
  rw [huser, hwildok, hlast]
  simp only [Bool.false_eq_true, if_false, parseOneCallsignset_fresh hne hall]

/-- A specification that extends a record is accepted if there is room for its text. -/
theorem parseRecord_extends {env : FilterEnv} {userfilterok : Bool} {s : FilterRecords}
    {call : RecordCall} {r : FilterRecord}
    (h : Extends userfilterok s call.toFilterCall r) :
    ∃ refs n, n ≤ refs.length ∧ parseRecord env userfilterok s call =
      match r.toFilterText.extend call.filt with
      | some text =>
          .accepted (setLast s call.chain
            (some { r with toFilterText := text, refcallsigns := refs, numnames := n }))
      | none => .overrun := by
  obtain ⟨wildok, hwildok, hall⟩ := h.names
  rw [Option.mem_def] at hwildok
  obtain ⟨refs, n, hn, hset⟩ := @parseOneCallsignset_extends call.junk _ _ _ _ h.sameType
    h.nonneg h.named hall
  refine ⟨refs, n, hn, ?_⟩
  unfold parseRecord
  rw [h.permitted, hwildok, h.last]
  simp only [Bool.false_eq_true, if_false, hset]
  cases r.toFilterText.extend call.filt <;> rfl

/-- The outcome of a call leaves all the names that count in their arrays. -/
theorem parseRecord_wf (env : FilterEnv) (userfilterok : Bool) {s : FilterRecords} (hs : s.Wf)
    (call : RecordCall) {s' : FilterRecords}
    (h : parseRecord env userfilterok s call = .rejected s' ∨
      parseRecord env userfilterok s call = .accepted s') : s'.Wf := by
  have hcases := parseRecord_cases env userfilterok hs call
  obtain h | h := h
  all_goals
    rw [h] at hcases
    cases hcases
  case inl.rejected hwf _ => exact hwf
  case inr.linked hn =>
    apply hs.update
    intro r' hr'
    obtain hr' | hr' := List.mem_append.mp hr'
    · exact hs _ r' hr'
    · rw [List.mem_singleton.mp hr']
      exact wf_newRecord hn
  case inr.extended hn _ =>
    apply hs.setLast
    intro r' hr'
    cases hr'
    exact hn

section
variable {env : FilterEnv} {userfilterok : Bool}

/-- In every state of a run the names that count are in their arrays. -/
theorem wf_of_run {events : List RecordEvent} {s₀ : Option FilterRecords}
    (h₀ : ∀ s ∈ s₀, FilterRecords.Wf s) :
    ∀ s ∈ run (recordStep env userfilterok) s₀ events, FilterRecords.Wf s := by
  refine (always_of_step (I := fun s₀ : Option FilterRecords => ∀ s ∈ s₀, s.Wf) ?_ h₀ events).last
  intro s₁ event h₁ s' hs'
  cases s₁ with
  | none => cases event <;> simp [recordStep] at hs'
  | some s₁ =>
    have hs₁ := h₁ s₁ rfl
    cases event with
    | discard =>
      cases hs'
      exact (hs₁.update (by simp)).update (by simp)
    | parse call =>
      have hwf := fun s => @parseRecord_wf env userfilterok _ hs₁ call s
      rw [recordStep, Option.bind_some] at hs'
      cases houtcome : parseRecord env userfilterok s₁ call with
      | rejected s =>
        rw [houtcome] at hs'
        cases hs'
        exact hwf _ (.inl houtcome)
      | accepted s =>
        rw [houtcome] at hs'
        cases hs'
        exact hwf _ (.inr houtcome)
      | overrun => simp [houtcome] at hs'
      | exits => simp [houtcome] at hs'

/-- A specification that is turned down leaves all four chains matching the same packets
and with the same texts, and the names and the text of one that is accepted are in the memory
that is allocated for them. -/
def Harmless (env : FilterEnv) (userfilterok : Bool) (s : FilterRecords) (call : RecordCall) :
    Prop :=
  match parseRecord env userfilterok s call with
  | .rejected s' =>
      (∀ env pb printed warned, filterProcess env pb printed warned s'.toChains =
        filterProcess env pb printed warned s.toChains) ∧
      ∀ id, (s' id).map (·.text) = (s id).map (·.text)
  | .accepted _ => True
  | .overrun => False
  | .exits => True

/-- Whatever the filters of a client have been through, a specification is harmless if and
only if it extends neither a record that has lost count of its names nor one whose buffer holds
more than the text of the record. -/
theorem harmless_iff {events : List RecordEvent} {s : FilterRecords}
    (hrun : run (recordStep env userfilterok) (some .init) events = some s) (call : RecordCall) :
    Harmless env userfilterok s call ↔
      ¬(WritesInFront userfilterok s call.toFilterCall ∨
        WritesBehind userfilterok s call.toFilterCall) := by
  have hs : s.Wf := by
    apply wf_of_run _ s hrun
    intro s hs
    cases hs
    intro id r hr
    cases hr
  constructor
  · rintro h (⟨huser, wildok, hwildok, r, hr, htype, hloses⟩ | ⟨r, hr, hroom⟩)
    · rw [Option.mem_def] at hwildok hr
      unfold Harmless parseRecord at h
      rw [huser, hwildok, hr] at h
      simp only [Bool.false_eq_true, if_false, parseOneCallsignset_losesCount htype hloses] at h
    · obtain ⟨refs, n, -, hparse⟩ := @parseRecord_extends env _ _ _ _ hr
      have hnone : r.toFilterText.extend call.filt = none := by
        rwa [← Option.not_isSome_iff_eq_none, r.toFilterText.extend_isSome_iff]
      rw [hnone] at hparse
      unfold Harmless at h
      rw [hparse] at h
      exact h
  · intro hnot
    have hcases := parseRecord_cases env userfilterok hs call
    unfold Harmless
    generalize parseRecord env userfilterok s call = outcome at hcases ⊢
    cases hcases with
    | rejected s' _ hsame =>
      exact ⟨filterProcess_congr hsame, fun id => texts_congr (hsame id)⟩
    | linked => trivial
    | extended => trivial
    | overrun h => exact hnot h
    | exits => trivial

end

private def recordEnv : FilterEnv where
  parseGeometry _ := false
  parseRange _ := false
  inRange _ _ := false
  filterEntrycallLookup _ := false
  filterWxLookup _ := false

/-- A specification of a listener. -/
private def recordCall (filt : Bytes) : RecordCall where
  filt := filt
  isUserFilter := false
  cell := true
  junk _ := ⟨[], false⟩

/-- An asterisk is not permitted in the second name, and the record is not extended. -/
theorem harmless_iff_prefixes :
    ∃ s, run (recordStep recordEnv true) (some .init) [.parse (recordCall (ascii "p/SM/OH2"))] =
        some s ∧
      (Harmless recordEnv true s (recordCall (ascii "p/OH7/A*")) ↔
        ¬(WritesInFront true s (recordCall (ascii "p/OH7/A*")).toFilterCall ∨
          WritesBehind true s (recordCall (ascii "p/OH7/A*")).toFilterCall)) := by
  obtain ⟨s, hs⟩ := Option.isSome_iff_exists.mp (by decide : (run (recordStep recordEnv true)
    (some .init) [.parse (recordCall (ascii "p/SM/OH2"))]).isSome = true)
  exact ⟨s, hs, harmless_iff hs _⟩

theorem slashParts_slashes (n : Nat) :
    slashParts (List.replicate n (ch '/')) = List.replicate n [] := by
  induction n with
  | zero => rfl
  | succ n ih =>
    rw [List.replicate_succ, slashParts_cons]
    simpa [List.replicate_succ] using ih

theorem namesText_slashes (n : Nat) :
    namesText (ch 'p' :: ch '/' :: List.replicate n (ch '/')) = List.replicate n (ch '/') := by
  have hdash : ¬some (ch 'p') = some (ch '-') := by decide
  have hp : ¬ch 'p' = ch '/' := by decide
  simp [namesText, hdash, hp]

/-- A specification with as many empty names as slashes. -/
theorem parseRecord_slashes {n : Nat} (hn : n ≠ 0) :
    parseRecord recordEnv true .init
        (recordCall (ch 'p' :: ch '/' :: List.replicate n (ch '/'))) =
      .accepted (Function.update FilterRecords.init .posdefault
        [newRecord (ch 'p') (List.replicate n (refCallsign [])) (int16 n) .empty
          (ch 'p' :: ch '/' :: List.replicate n (ch '/'))]) := by
  have hparts := slashParts_slashes n
  rw [← namesText_slashes] at hparts
  generalize hfilt : ch 'p' :: ch '/' :: List.replicate n (ch '/') = filt at hparts ⊢
  have htype : (recordCall filt).type = ch 'p' := by
    have hdash : ¬some (ch 'p') = some (ch '-') := by decide
    subst hfilt
    simp [FilterCall.type, recordCall, hdash]
  have hchain : (recordCall filt).chain = .posdefault := by
    subst hfilt
    rfl
  have hwildok : setWildok (recordCall filt).type = some .matchPrefix := by
    rw [htype]
    decide
  have hparts' : slashParts (namesText (recordCall filt).filt) = List.replicate n [] := hparts
  rw [parseRecord_fresh rfl hwildok rfl (by simp [hparts', hn]) (by simp [hparts', Permitted]),
    hparts', htype, linkRecord, hchain]
  simp only [List.map_replicate, List.length_replicate]
  rfl

/-- With 65535 names the count is -1, and of two more names the first one goes in front of
the array, for which there is just one left. -/
theorem names_in_front :
    ¬∀ (env : FilterEnv) (userfilterok : Bool) (events : List RecordEvent) (s : FilterRecords),
      run (recordStep env userfilterok) (some .init) events = some s →
        ∀ call, Harmless env userfilterok s call := by
  intro h
  obtain ⟨n, hn, hcount⟩ : ∃ n : Nat, n ≠ 0 ∧ int16 n = -1 := ⟨65535, by decide, by decide⟩
  have hparse := parseRecord_slashes hn
  generalize ch 'p' :: ch '/' :: List.replicate n (ch '/') = filt at hparse
  generalize int16 n = count at hparse hcount
  have hrun : run (recordStep recordEnv true) (some .init) [.parse (recordCall filt)] =
      some (Function.update FilterRecords.init .posdefault
        [newRecord (ch 'p') (List.replicate n (refCallsign [])) count .empty filt]) := by
    simp only [run_cons, run_nil, recordStep, Option.bind_some, hparse]
  obtain ⟨r, hrecord, htype, hcounted⟩ : ∃ r : FilterRecord,
      newRecord (ch 'p') (List.replicate n (refCallsign [])) count .empty filt = r ∧
        r.type = ch 'p' ∧ r.numnames = count := ⟨_, rfl, rfl, rfl⟩
  rw [hrecord] at hrun
  have hharmless := h recordEnv true _ _ hrun (recordCall (ascii "p/A/B"))
  have hloses : r.LosesCount .matchPrefix
      (slashParts (namesText (recordCall (ascii "p/A/B")).filt)) := by
    refine ⟨?_, ?_, ascii "A", by decide, by decide⟩
    · rw [hcounted, hcount]
      decide
    · rw [hcounted, hcount]
      decide
  have hoverrun := @parseOneCallsignset_losesCount (recordCall (ascii "p/A/B")).junk _ _ _ _
    htype hloses
  have huser : ((recordCall (ascii "p/A/B")).isUserFilter && !true) = false := rfl
  have hchain : (recordCall (ascii "p/A/B")).chain = .posdefault := by decide
  have hcalltype : (recordCall (ascii "p/A/B")).type = ch 'p' := by decide
  have hwildok : setWildok (ch 'p') = some .matchPrefix := by decide
  unfold Harmless parseRecord at hharmless
  rw [huser, hcalltype, hchain, hwildok] at hharmless
  simp [hoverrun] at hharmless

end Aprsc
