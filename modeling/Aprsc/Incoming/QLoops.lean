-- SUMMARY: What makes `q_dropcheck` drop a packet with a Q construct, and the loops it misses.
import Aprsc.Incoming.QBounds
import Aprsc.Incoming.Parse

/-!
# Loops after the construct

For a packet whose construct is kept, `q_dropcheck` looks at the calls after it.
Its pointer arithmetic is evaluated here to rules on the list of these calls.
-/

namespace Aprsc

/-! ## The calls that are looked at -/

/-- The starts of the calls that `qcallv` holds, for entries that follow `p`. -/
def callStarts : Nat → Int → List Bytes → List Int
  | 0, _, _ => []
  | _ + 1, _, [] => []
  | n + 1, p, e :: es => if e.isEmpty then [] else (p + 1) :: callStarts n (p + 1 + e.length) es

/-- The pointer where the loop over the calls stops. -/
def callsEnd : Nat → Int → List Bytes → Int
  | 0, p, _ => p
  | _ + 1, p, [] => p
  | n + 1, p, e :: es => if e.isEmpty then p + 1 else callsEnd n (p + 1 + e.length) es

/-- The calls as `q_dropcheck` sees them: at most `n`, and the last one includes a
comma after it when the path ends there. -/
def callTexts : Nat → List Bytes → List Bytes
  | 0, _ => []
  | _ + 1, [] => []
  | n + 1, e :: es =>
      if n ≠ 0 ∧ es = [[]] then [e ++ [comma]] else e :: callTexts n es

/-- Only the last of some entries is empty. -/
def InnerNonempty : List Bytes → Prop
  | [] => True
  | e :: es => (es = [] ∨ e ≠ []) ∧ InnerNonempty es

theorem innerNonempty_iff {es : List Bytes} : InnerNonempty es ↔ ∀ e ∈ es.dropLast, e ≠ [] := by
  induction es with
  | nil => simp [InnerNonempty]
  | cons e es ih =>
    cases es with
    | nil => simp [InnerNonempty]
    | cons f fs => simp_all [InnerNonempty]

theorem innerNonempty_of_append {es fs : List Bytes} (h : InnerNonempty (es ++ fs)) :
    InnerNonempty fs := by
  induction es with
  | nil => exact h
  | cons e es ih => exact ih h.2

section

variable {m : Area UInt8}

/-- The scans over one entry. -/
theorem val_scan_entry {p pathEnd : Int} {e : Bytes} {es : List Bytes}
    (hat : m.At p (joinFields comma (e :: es))) (he : comma ∉ e)
    (hend : pathEnd = p + (joinFields comma (e :: es)).length) (hne : e ≠ []) :
    (m.scanUntil (· != comma) (pathEnd - p).toNat p).val = p + 1 ∧
      (m.scanUntil (· == comma) (pathEnd - (p + 1)).toNat (p + 1)).val = p + 1 + e.length := by
  have hslice : m.slice p (joinFields comma (e :: es)).length = joinFields comma (e :: es) := hat
  have hn : (pathEnd - p).toNat = (joinFields comma (e :: es)).length := by omega
  rw [joinFields_cons, List.cons_append, Area.at_cons] at hat
  have hslice' : m.slice (p + 1) (e ++ joinFields comma es).length = e ++ joinFields comma es :=
    hat.2
  have hn' : (pathEnd - (p + 1)).toNat = (e ++ joinFields comma es).length := by
    rw [joinFields_cons, List.cons_append, List.length_cons] at hend
    omega
  constructor
  · rw [Area.val_scanUntil, hn, hslice]
    cases e with
    | nil => exact absurd rfl hne
    | cons b e =>
      have hb : b ≠ comma := fun hc => he (hc ▸ List.mem_cons_self)
      simp [hb]
  · rw [Area.val_scanUntil, hn', hslice', takeWhile_joinFields]
    · intro b hb
      simpa using fun hc : b = comma => he (hc ▸ hb)
    · simp

/-- The loop finds the calls of the entries. -/
theorem val_qcallv {p pathEnd : Int} {es : List Bytes} (n : Nat)
    (hat : m.At p (joinFields comma es)) (hc : ∀ e ∈ es, comma ∉ e)
    (hend : pathEnd = p + (joinFields comma es).length) (hinner : InnerNonempty es) :
    (qcallv m pathEnd n p).val = (callStarts n p es, callsEnd n p es) := by
  induction n generalizing p es with
  | zero => cases es <;> rfl
  | succ n ih =>
    cases es with
    | nil =>
      have hge : ¬ p < pathEnd := by
        rw [joinFields_nil, List.length_nil] at hend
        omega
      simp [qcallv, hge, callStarts, callsEnd]
    | cons e es =>
      have he : comma ∉ e := hc e List.mem_cons_self
      have hlen : (joinFields comma (e :: es)).length = 1 + e.length + (joinFields comma es).length := by
        simp only [joinFields_cons, List.cons_append, List.length_cons, List.length_append]
        omega
      have hlt : p < pathEnd := by omega
      cases decEq e [] with
      | isTrue hnil =>
        -- a comma at the end of the path
        have hes : es = [] := hinner.1.resolve_right (by simp [hnil])
        subst hnil hes
        have hbyte : m.byte p = comma := (Area.at_cons m).mp hat |>.1
        have hpe : pathEnd = p + 1 := by simpa using hend
        have hscan : (m.scanUntil (· != comma) (pathEnd - p).toNat p).val = pathEnd := by
          rw [show (pathEnd - p).toNat = 1 by omega]
          simp [Area.val_scanUntil, Area.slice, hbyte, hpe]
        simp only [qcallv]
        rw [if_pos hlt]
        simp only [Traced.val_bind, hscan, if_true, Traced.val_pure]
        simp [callStarts, callsEnd, hpe]
      | isFalse hne =>
        obtain ⟨h1, h2⟩ := val_scan_entry hat he hend hne
        have hpos := List.length_pos_of_ne_nil hne
        have hnend : ¬ p + 1 = pathEnd := by omega
        have hat' : m.At (p + 1 + e.length) (joinFields comma es) := by
          rw [joinFields_cons, List.cons_append, Area.at_cons, Area.at_append] at hat
          exact hat.2.2
        have ih := ih hat' (fun f hf => hc f (List.mem_cons_of_mem _ hf)) (by omega) hinner.2
        simp only [qcallv]
        rw [if_pos hlt]
        simp [h1, h2, hnend, ih, callStarts, callsEnd, hne]

/-- The text of a call. -/
def callText (m : Area UInt8) (x : Int × Int) : Bytes := m.slice x.1 x.2.toNat

/-- The first call starts after the first comma. -/
theorem callStarts_eq_cons {n : Nat} {p b : Int} {es : List Bytes} {bs : List Int}
    (h : callStarts n p es = b :: bs) : b = p + 1 := by
  cases n with
  | zero => simp [callStarts] at h
  | succ n =>
    cases es with
    | nil => simp [callStarts] at h
    | cons e es =>
      simp only [callStarts] at h
      split at h
      · cases h
      · cases h
        rfl

theorem callsEnd_of_callStarts_nil {n : Nat} {p : Int} {es : List Bytes}
    (h : callStarts n p es = []) (hinner : InnerNonempty es) (hfirst : es ≠ [[]]) :
    callsEnd n p es = p := by
  cases n with
  | zero => rfl
  | succ n =>
    cases es with
    | nil => rfl
    | cons e es =>
      simp only [callStarts, List.isEmpty_iff, ite_eq_left_iff, reduceCtorEq, imp_false,
        not_not] at h
      subst h
      exact absurd (by rw [hinner.1.resolve_right (by simp)]) hfirst

/-- The texts between the pointers of the array. -/
theorem map_callText_qcalls {p : Int} {es : List Bytes} (n : Nat)
    (hat : m.At p (joinFields comma es)) (hinner : InnerNonempty es) (hfirst : es ≠ [[]]) :
    (qcalls (callStarts n p es) (callsEnd n p es)).map (callText m) = callTexts n es := by
  induction n generalizing p es with
  | zero => cases es <;> rfl
  | succ n ih =>
    cases es with
    | nil => rfl
    | cons e es =>
      have hne : e ≠ [] := by
        intro hnil
        apply hfirst
        rw [hnil, hinner.1.resolve_right (by simp [hnil])]
      have hat' := hat
      rw [joinFields_cons, List.cons_append, Area.at_cons, Area.at_append] at hat'
      obtain ⟨-, hate, hates⟩ := hat'
      have htext : m.slice (p + 1) e.length = e := hate
      simp only [callStarts, callsEnd, callTexts, List.isEmpty_iff, hne, if_false]
      cases decEq es [[]] with
      | isTrue hes =>
        subst hes
        cases n with
        | zero =>
          simp only [callStarts, callsEnd, qcalls, callText, List.map_cons, List.map_nil]
          rw [show (p + 1 + (e.length : Int) + 1 - (p + 1) - 1).toNat = e.length by omega]
          simp [htext, callTexts]
        | succ n =>
          -- the comma that ends the path is taken for a part of the call
          have hcomma : m.byte (p + 1 + e.length) = comma := ((Area.at_cons m).mp hates).1
          simp only [callStarts, callsEnd, qcalls, callText, List.map_cons, List.map_nil,
            List.isEmpty_nil, if_true]
          rw [show (p + 1 + (e.length : Int) + 1 + 1 - (p + 1) - 1).toNat = e.length + 1 by omega,
            Area.slice_append, htext]
          simp [Area.slice, hcomma]
      | isFalse hes =>
        have ih := ih hates hinner.2 hes
        rw [if_neg (by simp [hes]), ← ih]
        -- the length of this call is told by the start of the next one
        cases hstarts : callStarts n (p + 1 + e.length) es with
        | nil =>
          simp only [qcalls, callText, List.map_cons, List.map_nil,
            callsEnd_of_callStarts_nil hstarts hinner.2 hes]
          rw [show (p + 1 + (e.length : Int) + 1 - (p + 1) - 1).toNat = e.length by omega, htext]
        | cons b bs =>
          simp only [qcalls, callText, List.map_cons, callStarts_eq_cons hstarts]
          rw [show (p + 1 + (e.length : Int) + 1 - (p + 1) - 1).toNat = e.length by omega, htext]

/-! ## The checks on the calls -/

/-- The call is the login of the client. -/
def isLoginCall (c : Client) (call : Bytes) : Bool :=
  call.length == c.username.length && caseEq call c.username

/-- What step 2) and 3) say of a call. -/
def callRefused (clientlist : List ClientEntry) (c : Client) (last : Bool) (call : Bytes) :
    Option Int :=
  if isLoginCall c call then
    if c.inbound ∧ !last then some inerrQPathLoginNotLast else none
  else if clientlistCheckIfValidatedClient clientlist call ≠ -1 then
    some inerrQPathCallIsLocalClient
  else if checkInvalidQCallsign call then some inerrQPathCallIsInvalid
  else none

/-- The packet starts with the call and a `>`. -/
def isSrccall (s call : Bytes) : Bool := (call ++ [ch '>']).isPrefixOf s

theorem val_callTwice {a l : Int} {rest : List (Int × Int)} (hl : 0 ≤ l)
    (hrest : ∀ x ∈ rest, 0 ≤ x.2) :
    (callTwice m a l rest).val = (rest.map (callText m)).contains (callText m (a, l)) := by
  induction rest with
  | nil => rfl
  | cons x rest ih =>
    have ih := ih fun y hy => hrest y (List.mem_cons_of_mem _ hy)
    have hx := hrest x List.mem_cons_self
    obtain ⟨b, l'⟩ := x
    simp only [callTwice, List.map_cons, List.contains_cons]
    split
    next heq =>
      subst heq
      simp only [Traced.val_bind]
      split
      next h =>
        have h : (callText m (a, l) == callText m (b, l)) = true := h
        simp [h]
      next h =>
        have h : (callText m (a, l) == callText m (b, l)) = false := Bool.eq_false_iff.mpr h
        rw [ih, h, Bool.false_or]
    next hne =>
      have htext : (callText m (a, l) == callText m (b, l')) = false := by
        rw [beq_eq_false_iff_ne]
        intro h
        have := congrArg List.length h
        simp only [callText, Area.length_slice] at this
        simp only at hx
        omega
      rw [ih, htext, Bool.false_or]

theorem val_callIsLogin {c : Client} {a l : Int} (hl : 0 ≤ l) :
    (callIsLogin m c a l).val = isLoginCall c (callText m (a, l)) := by
  unfold callIsLogin isLoginCall callText
  split
  next h =>
    have hlen : l.toNat = c.username.length := by omega
    simp [hlen]
  next h =>
    have hlen : ¬ l.toNat = c.username.length := by omega
    simp [hlen]

theorem val_checkQCall {clientlist : List ClientEntry} {c : Client} {a l : Int} {last : Bool} :
    (checkQCall clientlist m c a l (isLoginCall c (callText m (a, l))) last).val =
      callRefused clientlist c last (callText m (a, l)) := by
  unfold checkQCall callRefused Client.inbound
  cases isLoginCall c (callText m (a, l)) with
  | true =>
    simp only [if_true, and_assoc]
    split <;> rfl
  | false =>
    have hbytes : (m.bytes a l).val = callText m (a, l) := rfl
    simp only [Bool.false_eq_true, if_false, Traced.val_bind]
    split
    next h =>
      rw [hbytes] at h
      simp [h]
    next h =>
      rw [hbytes] at h
      rw [if_neg h]
      split
      next h' =>
        rw [hbytes] at h'
        simp [h']
      next h' =>
        rw [hbytes] at h'
        simp [h']

/-- A text at the start of the packet. -/
theorem slice_eq_iff_prefix {s text : Bytes} (hat : m.At 0 s) (hlen : text.length ≤ s.length) :
    m.slice 0 text.length = text ↔ text <+: s := by
  have htake : m.slice 0 text.length = s.take text.length := by
    rw [← List.take_append_drop text.length s, Area.at_append] at hat
    have hslice : m.slice 0 (s.take text.length).length = s.take text.length := hat.1
    rwa [List.length_take, Nat.min_eq_left hlen] at hslice
  rw [htake, List.prefix_iff_eq_take]
  exact eq_comm

theorem val_qauSrccall {s : Bytes} {qType : UInt8} {a l : Int} (hat : qType = ch 'U' → m.At 0 s)
    (hl : 0 ≤ l) (hlen : l < s.length) :
    (qauSrccall m qType a l).val = (qType == ch 'U' && isSrccall s (callText m (a, l))) := by
  unfold qauSrccall isSrccall
  split
  next hU =>
    have htext : (callText m (a, l)).length = l.toNat := by simp [callText]
    have hsrc := slice_eq_iff_prefix (hat (by simpa using hU))
      (show (callText m (a, l) ++ [ch '>']).length ≤ s.length by
        rw [List.length_append, htext, List.length_singleton]
        omega)
    have hbyte : m.slice (0 + (l.toNat : Int)) 1 = [m.byte l] := by
      rw [show (0 : Int) + (l.toNat : Int) = l by omega]
      rfl
    rw [List.length_append, htext, List.length_singleton, Area.slice_append, hbyte] at hsrc
    rw [Bool.eq_iff_iff]
    simp only [hU, Bool.true_and, List.isPrefixOf_iff_prefix, ← hsrc, Traced.val_bind]
    split
    next h =>
      have h : callText m (a, l) = m.slice 0 l.toNat := by simpa [callText] using h
      simp [h]
    next h =>
      have h : ¬ callText m (a, l) = m.slice 0 l.toNat := by simpa [callText] using h
      simp [Ne.symm h]
  next hU => simp [hU]

/-- The loop over the calls, in terms of their texts. -/
def callsVerdict (clientlist : List ClientEntry) (s : Bytes) (c : Client) (qType : UInt8) :
    List Bytes → Bool → Except Int Bool
  | [], login => .ok login
  | call :: rest, login =>
      if rest.contains call then .error inerrQQpathCallTwice
      else match callRefused clientlist c rest.isEmpty call with
      | some rc => .error rc
      | none =>
          if qType == ch 'U' && isSrccall s call then .error inerrQQauPathCallIsSrccall
          else callsVerdict clientlist s c qType rest (login || isLoginCall c call)

theorem val_checkQCalls {clientlist : List ClientEntry} {s : Bytes} {c : Client} {qType : UInt8}
    {calls : List (Int × Int)} (hat : qType = ch 'U' → m.At 0 s)
    (hcalls : ∀ x ∈ calls, 0 ≤ x.2 ∧ x.2 < s.length) (login : Bool) :
    (checkQCalls clientlist m c qType calls login).val =
      callsVerdict clientlist s c qType (calls.map (callText m)) login := by
  induction calls generalizing login with
  | nil => rfl
  | cons x rest ih =>
    have hx := hcalls x List.mem_cons_self
    have hrest : ∀ y ∈ rest, 0 ≤ y.2 ∧ y.2 < s.length := fun y hy =>
      hcalls y (List.mem_cons_of_mem _ hy)
    obtain ⟨a, l⟩ := x
    have hempty : (rest.map (callText m)).isEmpty = rest.isEmpty := by
      cases rest <;> rfl
    simp only [checkQCalls, List.map_cons, callsVerdict, Traced.val_bind,
      val_callTwice hx.1 fun y hy => (hrest y hy).1, hempty]
    split
    · rfl
    · simp only [Traced.val_bind, val_callIsLogin hx.1, val_checkQCall]
      cases callRefused clientlist c rest.isEmpty (callText m (a, l)) with
      | some rc => rfl
      | none =>
        simp only [Traced.val_bind, val_qauSrccall hat hx.1 hx.2]
        split
        next hu => rfl
        next hu => exact ih hrest _

/-- The calls after the construct for which the packet is dropped. -/
inductive CallsRefused (clientlist : List ClientEntry) (s : Bytes) (c : Client)
    (qType : UInt8) (calls : List Bytes) : Prop where
  /-- A call is found twice. -/
  | twice (h : ¬ calls.Nodup)
  /-- The login of an inbound client is not the last call. -/
  | loginNotLast (call : Bytes) (mem : call ∈ calls.dropLast) (login : isLoginCall c call = true)
      (inbound : c.inbound)
  /-- A call is logged in on another connection. -/
  | localClient (call : Bytes) (mem : call ∈ calls) (other : isLoginCall c call = false)
      (found : clientlistCheckIfValidatedClient clientlist call ≠ -1)
  | invalid (call : Bytes) (mem : call ∈ calls) (other : isLoginCall c call = false)
      (bad : checkInvalidQCallsign call = true)
  /-- A call after `qAU` is the source callsign. -/
  | srccall (call : Bytes) (mem : call ∈ calls) (qau : qType = ch 'U')
      (src : isSrccall s call = true)

/-- One call for which the packet is dropped. -/
theorem callRefused_isSome_iff {clientlist : List ClientEntry} {c : Client} {last : Bool}
    {call : Bytes} :
    (callRefused clientlist c last call).isSome = true ↔
      (isLoginCall c call = true ∧ c.inbound ∧ last = false) ∨
      (isLoginCall c call = false ∧ clientlistCheckIfValidatedClient clientlist call ≠ -1) ∨
      (isLoginCall c call = false ∧ checkInvalidQCallsign call = true) := by
  unfold callRefused
  cases isLoginCall c call with
  | true => split <;> simp_all
  | false =>
    simp only [Bool.false_eq_true, if_false, false_and, true_and, false_or]
    split
    next found => simp [found]
    next found => split <;> simp_all

theorem callRefused_neg {clientlist : List ClientEntry} {c : Client} {last : Bool} {call : Bytes}
    {rc : Int} (h : callRefused clientlist c last call = some rc) : rc < 0 := by
  unfold callRefused at h
  split at h
  · split at h <;> cases h
    decide
  · split at h
    · cases h
      decide
    · split at h <;> cases h
      decide

theorem CallsRefused.cons {clientlist : List ClientEntry} {s : Bytes} {c : Client} {qType : UInt8}
    {rest : List Bytes} (h : CallsRefused clientlist s c qType rest) (call : Bytes) :
    CallsRefused clientlist s c qType (call :: rest) := by
  cases h with
  | twice h => exact .twice fun hn => h (List.nodup_cons.mp hn).2
  | loginNotLast call' mem login inbound =>
    refine .loginNotLast call' ?_ login inbound
    cases rest with
    | nil => simp at mem
    | cons call'' rest => exact List.mem_cons_of_mem _ mem
  | localClient call' mem other found =>
    exact .localClient call' (List.mem_cons_of_mem _ mem) other found
  | invalid call' mem other bad => exact .invalid call' (List.mem_cons_of_mem _ mem) other bad
  | srccall call' mem qau src => exact .srccall call' (List.mem_cons_of_mem _ mem) qau src

theorem callsRefused_cons {clientlist : List ClientEntry} {s : Bytes} {c : Client} {qType : UInt8}
    {call : Bytes} {rest : List Bytes} :
    CallsRefused clientlist s c qType (call :: rest) ↔
      call ∈ rest ∨ (callRefused clientlist c rest.isEmpty call).isSome = true ∨
        (qType = ch 'U' ∧ isSrccall s call = true) ∨ CallsRefused clientlist s c qType rest := by
  rw [callRefused_isSome_iff]
  constructor
  · intro h
    cases h with
    | twice h =>
      rw [List.nodup_cons, not_and_or, not_not] at h
      cases h with
      | inl h => exact .inl h
      | inr h => exact .inr (.inr (.inr (.twice h)))
    | loginNotLast call' mem login inbound =>
      cases rest with
      | nil => simp at mem
      | cons call'' rest =>
        rw [List.dropLast_cons_cons] at mem
        cases mem with
        | head => exact .inr (.inl (.inl ⟨login, inbound, rfl⟩))
        | tail _ mem => exact .inr (.inr (.inr (.loginNotLast call' mem login inbound)))
    | localClient call' mem other found =>
      cases mem with
      | head => exact .inr (.inl (.inr (.inl ⟨other, found⟩)))
      | tail _ mem => exact .inr (.inr (.inr (.localClient call' mem other found)))
    | invalid call' mem other bad =>
      cases mem with
      | head => exact .inr (.inl (.inr (.inr ⟨other, bad⟩)))
      | tail _ mem => exact .inr (.inr (.inr (.invalid call' mem other bad)))
    | srccall call' mem qau src =>
      cases mem with
      | head => exact .inr (.inr (.inl ⟨qau, src⟩))
      | tail _ mem => exact .inr (.inr (.inr (.srccall call' mem qau src)))
  · rintro (h | (⟨login, inbound, hlast⟩ | ⟨other, found⟩ | ⟨other, bad⟩) | ⟨qau, src⟩ | h)
    · exact .twice (by simp [h])
    · refine .loginNotLast call ?_ login inbound
      cases rest with
      | nil => simp at hlast
      | cons call' rest => simp
    · exact .localClient call List.mem_cons_self other found
    · exact .invalid call List.mem_cons_self other bad
    · exact .srccall call List.mem_cons_self qau src
    · exact h.cons call

/-- The loop drops the packet for exactly these calls, and else tells whether the
login is among them. -/
theorem callsVerdict_cases (clientlist : List ClientEntry) (s : Bytes) (c : Client) (qType : UInt8)
    (calls : List Bytes) (login : Bool) :
    (CallsRefused clientlist s c qType calls ∧
        ∃ rc, rc < 0 ∧ callsVerdict clientlist s c qType calls login = .error rc) ∨
      (¬ CallsRefused clientlist s c qType calls ∧
        callsVerdict clientlist s c qType calls login = .ok (login || calls.any (isLoginCall c))) := by
  induction calls generalizing login with
  | nil =>
    right
    refine ⟨?_, by simp [callsVerdict]⟩
    intro h
    cases h with
    | twice h => simp at h
    | loginNotLast _ mem => simp at mem
    | localClient _ mem => simp at mem
    | invalid _ mem => simp at mem
    | srccall _ mem => simp at mem
  | cons call rest ih =>
    rw [callsRefused_cons]
    simp only [callsVerdict]
    split
    next htwice =>
      have htwice : call ∈ rest := by simpa using htwice
      exact .inl ⟨.inl htwice, _, by decide, rfl⟩
    next htwice =>
      have htwice : call ∉ rest := by simpa using htwice
      cases href : callRefused clientlist c rest.isEmpty call with
      | some rc =>
        exact .inl ⟨.inr (.inl rfl), rc, callRefused_neg href, rfl⟩
      | none =>
        simp only
        split
        next hsrc =>
          have hsrc : qType = ch 'U' ∧ isSrccall s call = true := by simpa using hsrc
          exact .inl ⟨.inr (.inr (.inl hsrc)), _, by decide, rfl⟩
        next hsrc =>
          have hsrc : ¬ (qType = ch 'U' ∧ isSrccall s call = true) := by simpa using hsrc
          simp only [htwice, hsrc, Option.isSome_none, Bool.false_eq_true, false_or, List.any_cons]
          rw [← Bool.or_assoc]
          exact ih (login || isLoginCall c call)

/-! ## The serverid among the calls -/

theorem Config.comma_not_mem_serverid (cfg : Config) : comma ∉ cfg.serverid := by
  intro hmem
  exact absurd (checkInvalidQCallsign_chars cfg.serverid_valid hmem) (by decide)

/-- The first call that holds the serverid, even as a part, is the serverid. -/
def ServerFirst (cfg : Config) (after : List Bytes) : Prop :=
  after.find? (fun e => (findSub cfg.serverid e).isSome) = some cfg.serverid

theorem val_serverInPath {cfg : Config} {q pathEnd : Int} {after : List Bytes}
    (hat : m.At (q + 4) (joinFields comma after))
    (hend : pathEnd = q + 4 + (joinFields comma after).length)
    (hcomma : ∀ e ∈ after, comma ∉ e) (hcolon : ∀ e ∈ after, ch ':' ∉ e) :
    (serverInPath m cfg.serverid (some q) pathEnd).val = true ↔ ServerFirst cfg after := by
  have hsearch : (m.memmem (q + 4) (pathEnd - q - 4) cfg.serverid).val =
      (findSub cfg.serverid (joinFields comma after)).map fun i : Nat => q + 4 + (i : Int) :=
    hat.val_search (by omega) _
  have hno : ∀ b ∈ joinFields comma after, b ≠ ch ':' := by
    intro b hb
    obtain ⟨e, he, hb⟩ := List.mem_flatMap.mp hb
    cases hb with
    | head => decide
    | tail _ hb => exact fun hc => hcolon e he (hc ▸ hb)
  rw [ServerFirst, ← wholeField_findSub_iff cfg.comma_not_mem_serverid cfg.serverid_ne_nil hcomma]
  simp only [serverInPath, Traced.val_bind]
  cases hf : findSub cfg.serverid (joinFields comma after) with
  | none => simp [hsearch, hf]
  | some k =>
    have hlen := (findSub_eq_some hf).1.length_le
    have hpos := List.length_pos_of_ne_nil cfg.serverid_ne_nil
    rw [List.length_drop] at hlen
    have hk : 0 < k := by
      apply Nat.pos_of_ne_zero
      intro h0
      subst h0
      have hp := (findSub_eq_some hf).1
      rw [List.drop_zero, ← List.nil_append (joinFields comma after),
        prefix_append_joinFields cfg.comma_not_mem_serverid] at hp
      exact cfg.serverid_ne_nil (List.prefix_nil.mp hp)
    have hget : ∀ i : Nat, (hi : i < (joinFields comma after).length) →
        m.byte (q + 4 + i) = (joinFields comma after)[i] := fun i hi =>
      hat.byte_eq (List.getElem?_eq_getElem hi)
    have hbefore : (m.byte (q + 4 + k - 1) == comma) = true ↔
        (joinFields comma after)[k - 1]? = some comma := by
      rw [List.getElem?_eq_getElem (by omega), ← hget (k - 1) (by omega),
        show q + 4 + ((k - 1 : Nat) : Int) = q + 4 + k - 1 by omega]
      simp
    have hafter : (m.byte (q + 4 + k + cfg.serverid.length) == comma) = true ∨
        q + 4 + k + cfg.serverid.length = pathEnd ∨
        (m.byte (q + 4 + k + cfg.serverid.length) == ch ':') = true ↔
        k + cfg.serverid.length = (joinFields comma after).length ∨
        (joinFields comma after)[k + cfg.serverid.length]? = some comma := by
      cases Nat.lt_or_ge (k + cfg.serverid.length) (joinFields comma after).length with
      | inr hge =>
        have heq : k + cfg.serverid.length = (joinFields comma after).length := by omega
        have hpe : q + 4 + k + cfg.serverid.length = pathEnd := by omega
        simp [heq, hpe]
      | inl hlt =>
        have hne : ¬ k + cfg.serverid.length = (joinFields comma after).length := by omega
        have hpe : ¬ q + 4 + k + cfg.serverid.length = pathEnd := by omega
        have hbyte := hget _ hlt
        rw [show q + 4 + ((k + cfg.serverid.length : Nat) : Int) =
          q + 4 + k + cfg.serverid.length by omega] at hbyte
        have hnc := hno _ (List.getElem_mem hlt)
        simp [hne, hpe, hbyte, hnc, List.getElem?_eq_getElem hlt]
    simp only [hsearch, hf, Option.map_some, Option.some.injEq, exists_eq_left', WholeField, hk,
      true_and, ← hbefore, ← hafter, Traced.val_bind]
    split
    next hb =>
      rw [Area.val_read] at hb
      simp only [hb, true_and, Traced.val_bind]
      split
      next hc =>
        rw [Area.val_read] at hc
        simp [hc]
      next hc =>
        rw [Area.val_read] at hc
        split
        next hpe => simp [hpe]
        next hpe => simp [hc, hpe]
    next hb =>
      rw [Area.val_read] at hb
      simp [hb]

/-! ## The verdict on a kept construct -/

/-- The construct is written to the trace again, with the login of the client when it
is not among the calls. -/
def tracedLogin (c : Client) (calls : List Bytes) : Bytes :=
  if c.validated && !calls.any (isLoginCall c) && c.state != .corepeer then comma :: c.username
  else []

/-- The reasons of `q_dropcheck`, apart from the serverid, to drop a packet whose
construct is kept. -/
inductive Refused (cfg : Config) (clientlist : List ClientEntry) (s : Bytes) (c : Client)
    (proto type : UInt8) (after : List Bytes) : Prop where
  | protocol (other : proto ≠ cfg.qProtocolId) (disallowed : cfg.disallowOtherProtocolId = true)
  | unverified (qax : type = ch 'X') (disallowed : cfg.disallowUnverified = true)
  | qaz (qaz : type = ch 'Z')
  /-- Of the calls after the construct only the first 64 are looked at. -/
  | calls (refused : CallsRefused clientlist s c type (callTexts maxQCalls after))
  /-- There is no room for the new trace. -/
  | buffer (qai : type = ch 'I')
      (long : 580 < 3 + (joinFields comma after).length +
        (tracedLogin c (callTexts maxQCalls after)).length)

theorem val_appendTrace {cfg : Config} {c : Client} {q pathEnd : Int} {trace : Bytes}
    {calls : List Bytes} (hat : m.At (q + 1) trace) (hend : pathEnd = q + 1 + trace.length) :
    (appendTrace cfg m c q pathEnd (calls.any (isLoginCall c))).val =
      if 580 < trace.length + (tracedLogin c calls).length then .error inerrQNewqBufferSmall
      else .ok (trace ++ tracedLogin c calls ++ comma :: cfg.serverid) := by
  have htrace : (m.bytes (q + 1) (pathEnd - q - 1)).val = trace := by
    rw [Area.val_bytes, show (pathEnd - q - 1).toNat = trace.length by omega]
    exact hat
  have hlogin : (if c.validated && !calls.any (isLoginCall c) && c.state != .corepeer then
      trace ++ comma :: c.username else trace) = trace ++ tracedLogin c calls := by
    unfold tracedLogin
    split <;> simp
  unfold appendTrace pathAppendLen
  split
  next hlong =>
    rw [if_pos (by omega)]
    rfl
  next =>
    simp only [Traced.val_bind, htrace, hlogin, Traced.val_ite, Traced.val_pure,
      List.length_append]
    apply if_congr _ rfl rfl
    omega

/-- The loop over the calls after a construct. -/
theorem val_checkQCalls_after {clientlist : List ClientEntry} {s : Bytes} {c : Client}
    {type : UInt8} {q pathEnd : Int} {after : List Bytes}
    (hq : 0 ≤ q) (hs : pathEnd < s.length) (hsrc : type = ch 'U' → m.At 0 s)
    (hat : m.At (q + 4) (joinFields comma after))
    (hend : pathEnd = q + 4 + (joinFields comma after).length)
    (hcomma : ∀ e ∈ after, comma ∉ e) (hinner : InnerNonempty after) (hfirst : after ≠ [[]]) :
    (checkQCalls clientlist m c type (qcallsAfter m (some q) pathEnd).val false).val =
      callsVerdict clientlist s c type (callTexts maxQCalls after) false := by
  have hcalls : (qcallsAfter m (some q) pathEnd).val.map (callText m) =
      callTexts maxQCalls after := by
    simp only [qcallsAfter, Traced.val_bind, Traced.val_pure,
      val_qcallv maxQCalls hat hcomma hend hinner]
    exact map_callText_qcalls maxQCalls hat hinner hfirst
  have hwithin : ∀ x ∈ (qcallsAfter m (some q) pathEnd).val, 0 ≤ x.2 ∧ x.2 < s.length := by
    intro x hx
    obtain ⟨h1, h2, h3⟩ := qcallsAfter_within m (show q + 4 ≤ pathEnd by omega) x hx
    omega
  rw [val_checkQCalls hsrc hwithin, hcalls]

/-- `q_dropcheck` on a construct that is kept. -/
theorem val_qDropcheck {cfg : Config} {clientlist : List ClientEntry} {s : Bytes} {c : Client}
    {proto type : UInt8} {q pathEnd : Int} {after : List Bytes}
    (hq : 0 ≤ q) (hs : pathEnd < s.length) (hsrc : type = ch 'U' → m.At 0 s)
    (hat : m.At (q + 1) (ch 'q' :: proto :: type :: joinFields comma after))
    (hend : pathEnd = q + 4 + (joinFields comma after).length)
    (hcomma : ∀ e ∈ after, comma ∉ e) (hcolon : ∀ e ∈ after, ch ':' ∉ e)
    (hinner : InnerNonempty after) (hfirst : after ≠ [[]]) :
    ((ServerFirst cfg after ∨ Refused cfg clientlist s c proto type after) ∧ ∃ rc, rc < 0 ∧
      (qDropcheck cfg clientlist m c [] proto type (some q) pathEnd).val = .error rc) ∨
    (¬ (ServerFirst cfg after ∨ Refused cfg clientlist s c proto type after) ∧
      (qDropcheck cfg clientlist m c [] proto type (some q) pathEnd).val =
        .ok (if type = ch 'I' then
            (ch 'q' :: proto :: type :: joinFields comma after ++
              tracedLogin c (callTexts maxQCalls after) ++ comma :: cfg.serverid, some (q + 1))
          else ([], none))) := by
  have hafter : m.At (q + 4) (joinFields comma after) := by
    simp only [Area.at_cons] at hat
    rw [show q + 4 = q + 1 + 1 + 1 + 1 by omega]
    exact hat.2.2.2
  have hserver : (serverInPath m cfg.serverid (some q) pathEnd).val = true ↔
      ServerFirst cfg after := val_serverInPath hafter hend hcomma hcolon
  have hverdict := @val_checkQCalls_after m clientlist s c type q pathEnd after hq hs hsrc hafter
    hend hcomma hinner hfirst
  have htrace := @val_appendTrace m cfg c q pathEnd _ (callTexts maxQCalls after) hat
    (by simp only [List.length_cons]; omega)
  simp only [List.length_cons] at htrace
  unfold qDropcheck
  split
  next h =>
    simp only [bne_iff_ne, ne_eq, Bool.and_eq_true] at h
    exact .inl ⟨.inr (.protocol h.1 h.2), _, by decide, rfl⟩
  next hprotocol =>
  split
  next h =>
    simp only [beq_iff_eq, Bool.and_eq_true] at h
    exact .inl ⟨.inr (.unverified h.1 h.2), _, by decide, rfl⟩
  next hunverified =>
  split
  next h => exact .inl ⟨.inr (.qaz (by simpa using h)), _, by decide, rfl⟩
  next hqaz =>
  simp only [Traced.val_bind]
  split
  next h => exact .inl ⟨.inl (hserver.mp h), _, by decide, rfl⟩
  next hmycall =>
  simp only [Traced.val_bind, hverdict]
  cases callsVerdict_cases clientlist s c type (callTexts maxQCalls after) false with
  | inl h =>
    obtain ⟨hrefused, rc, hrc, hval⟩ := h
    exact .inl ⟨.inr (.calls hrefused), rc, hrc, by rw [hval]; rfl⟩
  | inr h =>
    obtain ⟨hcallsOk, hval⟩ := h
    -- nothing is left to be refused but the trace
    have hrefused : Refused cfg clientlist s c proto type after ↔
        type = ch 'I' ∧ 580 < 3 + (joinFields comma after).length +
          (tracedLogin c (callTexts maxQCalls after)).length := by
      constructor
      · intro h
        cases h with
        | protocol h1 h2 => simp [h1, h2] at hprotocol
        | unverified h1 h2 => simp [h1, h2] at hunverified
        | qaz h => simp [h] at hqaz
        | calls h => exact absurd h hcallsOk
        | buffer h1 h2 => exact ⟨h1, h2⟩
      · rintro ⟨h1, h2⟩
        exact .buffer h1 h2
    rw [← hserver, hval, hrefused, Bool.false_or]
    simp only [hmycall, Bool.false_eq_true, false_or]
    split
    next hI =>
      have hI : type = ch 'I' := by simpa using hI
      simp only [Traced.val_bind, htrace, hI, true_and, if_true]
      cases Nat.lt_or_ge 580 (3 + (joinFields comma after).length +
          (tracedLogin c (callTexts maxQCalls after)).length) with
      | inl hlong =>
        rw [if_pos (by omega)]
        exact .inl ⟨hlong, _, by decide, rfl⟩
      | inr hshort =>
        rw [if_neg (by omega)]
        exact .inr ⟨by omega, rfl⟩
    next hI =>
      have hI : type ≠ ch 'I' := by simpa using hI
      simp [hI]

end

/-! ## Packets with a construct -/

/-- None of the types that `q_dropcheck` looks for. -/
def PlainType (t : UInt8) : Prop := t ≠ ch 'X' ∧ t ≠ ch 'Z' ∧ t ≠ ch 'U' ∧ t ≠ ch 'I'

theorem plainType_of_clientOnlyType {type t : UInt8} (h : clientOnlyType type = some t) :
    PlainType type ∧ PlainType t := by
  unfold clientOnlyType at h
  simp only [Bool.or_eq_true, beq_iff_eq] at h
  split at h
  next hR =>
    cases h
    cases hR with
    | inl hR => subst hR; exact ⟨by unfold PlainType; decide, by unfold PlainType; decide⟩
    | inr hR => subst hR; exact ⟨by unfold PlainType; decide, by unfold PlainType; decide⟩
  next =>
    split at h
    next hS =>
      cases h
      subst hS
      exact ⟨by unfold PlainType; decide, by unfold PlainType; decide⟩
    next =>
      split at h
      next hC =>
        cases h
        subst hC
        exact ⟨by unfold PlainType; decide, by unfold PlainType; decide⟩
      next => cases h

theorem Refused.of_plain {cfg : Config} {clientlist : List ClientEntry} {s : Bytes} {c : Client}
    {proto t : UInt8} {after : List Bytes} (h : Refused cfg clientlist s c proto t after)
    (ht : PlainType t) (type : UInt8) : Refused cfg clientlist s c proto type after := by
  cases h with
  | protocol h1 h2 => exact .protocol h1 h2
  | unverified h => exact absurd h ht.1
  | qaz h => exact absurd h ht.2.1
  | calls h =>
    apply Refused.calls
    cases h with
    | twice h => exact .twice h
    | loginNotLast call mem login inbound => exact .loginNotLast call mem login inbound
    | localClient call mem other found => exact .localClient call mem other found
    | invalid call mem other bad => exact .invalid call mem other bad
    | srccall _ _ qau => exact absurd qau ht.2.2.1
  | buffer h => exact absurd h ht.2.2.2

/-- The construct is in the packet that is passed on, but for a type that a client-only
connection edits. -/
def Edited (m : Area UInt8) (q : Int) (type : UInt8) (m' : Area UInt8) (t : UInt8) : Prop :=
  m' = m ∧ t = type ∨ clientOnlyType type = some t ∧ m' = m.set (q + 3) t

/-- An edited type makes no difference to `q_dropcheck`. -/
theorem Edited.refused_iff {m m' : Area UInt8} {q : Int} {cfg : Config}
    {clientlist : List ClientEntry} {s : Bytes} {c : Client} {proto type t : UInt8}
    {after : List Bytes} (h : Edited m q type m' t) :
    Refused cfg clientlist s c proto t after ↔ Refused cfg clientlist s c proto type after := by
  cases h with
  | inl h => rw [h.2]
  | inr h =>
    have hplain := plainType_of_clientOnlyType h.1
    exact ⟨fun hr => hr.of_plain hplain.2 type, fun hr => hr.of_plain hplain.1 t⟩

/-- The construct after the edit. -/
theorem Edited.at_construct {m m' : Area UInt8} {q : Int} {proto type t : UInt8} {rest : Bytes}
    (h : Edited m q type m' t) (hat : m.At (q + 1) (ch 'q' :: proto :: type :: rest)) :
    m'.At (q + 1) (ch 'q' :: proto :: t :: rest) := by
  cases h with
  | inl h =>
    obtain ⟨rfl, rfl⟩ := h
    exact hat
  | inr h =>
    obtain ⟨-, rfl⟩ := h
    have hat : m.At (q + 1) ([ch 'q', proto] ++ type :: rest) := hat
    exact hat.set_mid (by simp; omega)

/-- The construct of a packet is kept. One with a NUL protocol is kept only where none
is generated. -/
structure Keeps (c : Client) (path : List Bytes) (originated : Bool) (proto : UInt8) : Prop where
  passedOn : PassedOn c path originated
  proto : proto ≠ 0 ∨ ¬ c.inbound ∧ c.has clflagsUplinkport = false

/-- The result for a construct that is kept at `q`: only a trace is written again. -/
def keptOut (cfg : Config) (c : Client) (m : Area UInt8) (q pathlen : Int) (proto type : UInt8)
    (after : List Bytes) : QOut :=
  if type = ch 'I' then
    ⟨m, ch 'q' :: proto :: type :: joinFields comma after ++
      tracedLogin c (callTexts maxQCalls after) ++ comma :: cfg.serverid, pathlen, .at (q + 1),
      some (q + 1)⟩
  else ⟨m, [], pathlen, .at (q + 1), none⟩

namespace Loaded

variable {cfg : Config} {clientlist : List ClientEntry} {c : Client} {m : Area UInt8} {s : Bytes}
  {h : Header} {originated : Bool} {proto type : UInt8} {after : List Bytes} (hl : Loaded m s h)
include hl

theorem pathlen_lt_length : h.pathlen < s.length := by
  have hlen := congrArg List.length hl.admitted.line_eq
  have hpl := hl.admitted.pathlen_eq
  have hvs := hl.admitted.viaStart_eq
  have hsl := hl.admitted.srcLen_eq
  simp only [List.length_append, List.length_cons] at hlen
  omega

/-- A packet whose construct is kept gets to `q_dropcheck`. -/
theorem val_qProcess_skips (hv : qView (h.path s) = .good proto type after)
    (hkeeps : Keeps c (h.path s) originated proto) :
    ∃ m' t, Edited m (h.pos (beforeQ (h.path s))) type m' t ∧
      (qProcess cfg clientlist m c h.viaStart h.pathlen originated).val =
        (skipToDropcheck cfg clientlist m' c [] proto t (some (h.pos (beforeQ (h.path s))))
          h.pathlen (.at (h.pos (beforeQ (h.path s)) + 1))).val := by
  obtain ⟨⟨hrep, hin⟩, hproto⟩ := hkeeps
  rw [hl.val_qProcess_of_not_replaces hrep, hl.val_findQConstruct_good hv]
  split
  next hinbound =>
    have hp : (proto != 0) = true := by simpa [hinbound] using hproto
    obtain ⟨hudp, horig⟩ := hin hinbound
    have hunverified : (!c.validated && originated) = false := by
      cases originated with
      | true => simp [(horig rfl).1]
      | false => simp
    have honly : (c.validated && c.has clflagsClientonly && originated) = false := by
      cases originated with
      | true => simp [(horig rfl).2]
      | false => simp
    unfold qInbound
    simp only [hudp, hunverified, honly, Bool.false_eq_true, if_false, hp, if_true]
    split
    next =>
      unfold qClientOnly
      simp only [hp, if_true]
      cases ht : clientOnlyType type with
      | some t => exact ⟨_, t, .inr ⟨ht, rfl⟩, rfl⟩
      | none => exact ⟨m, type, .inl ⟨rfl, rfl⟩, rfl⟩
    next => exact ⟨m, type, .inl ⟨rfl, rfl⟩, rfl⟩
  next hout =>
    have hp : (proto == 0 && c.has clflagsUplinkport) = false := by
      cases hproto with
      | inl hp => simp [hp]
      | inr hup => simp [hup.2]
    refine ⟨m, type, .inl ⟨rfl, rfl⟩, ?_⟩
    simp [qOutbound, hp, logMissing, QPtr.after]

/-- Such a packet is dropped by `q_dropcheck` for the reasons above, or else keeps its
construct. -/
theorem val_qProcess_kept (hv : qView (h.path s) = .good proto type after)
    (hkeeps : Keeps c (h.path s) originated proto) :
    ((ServerFirst cfg after ∨ Refused cfg clientlist s c proto type after) ∧ ∃ rc, rc < 0 ∧
      (qProcess cfg clientlist m c h.viaStart h.pathlen originated).val = .error rc) ∨
    (¬ (ServerFirst cfg after ∨ Refused cfg clientlist s c proto type after) ∧
      ∃ m' t, Edited m (h.pos (beforeQ (h.path s))) type m' t ∧
        (qProcess cfg clientlist m c h.viaStart h.pathlen originated).val =
          .ok (keptOut cfg c m' (h.pos (beforeQ (h.path s))) h.pathlen proto t after)) := by
  obtain ⟨m', t, hedit, hval⟩ := @val_qProcess_skips cfg clientlist _ _ _ _ _ _ _ _ hl hv hkeeps
  obtain ⟨hpath, next, more, rfl, hnext⟩ := eq_of_good hv
  obtain ⟨hat, hend⟩ := hl.at_construct hv
  have hmem : ∀ e ∈ next :: more, e ∈ h.path s := by
    intro e he
    rw [hpath]
    exact List.mem_append_right _ (List.mem_cons_of_mem _ he)
  have hinner : InnerNonempty (next :: more) := by
    have hall := innerNonempty_iff.mpr hl.admitted.inner_ne
    rw [hpath] at hall
    exact (innerNonempty_of_append hall).2
  have hsrc : t = ch 'U' → m'.At 0 s := by
    intro hU
    cases hedit with
    | inl hedit =>
      rw [hedit.1]
      exact hl.at_line
    | inr hedit => exact absurd hU (plainType_of_clientOnlyType hedit.1).2.2.2.1
  have hdrop := @val_qDropcheck m' cfg clientlist s c proto t _ _ _ (viaStart_nonneg hl)
    (by have := hl.pathlen_lt_length; omega) hsrc (hedit.at_construct hat) hend
    (fun e he => hl.admitted.no_comma e (hmem e he))
    (fun e he => hl.admitted.no_colon e (hmem e he)) hinner (by simp [hnext])
  rw [hedit.refused_iff] at hdrop
  rw [hval]
  simp only [skipToDropcheck, Traced.val_bind]
  cases hdrop with
  | inl hdrop =>
    obtain ⟨hrefused, rc, hrc, hdrop⟩ := hdrop
    exact .inl ⟨hrefused, rc, hrc, by rw [hdrop]; rfl⟩
  | inr hdrop =>
    obtain ⟨hkept, hdrop⟩ := hdrop
    refine .inr ⟨hkept, m', t, hedit, ?_⟩
    unfold keptOut
    cases decEq t (ch 'I') with
    | isTrue hI =>
      rw [hdrop, if_pos hI, if_pos hI]
      rfl
    | isFalse hI =>
      rw [hdrop, if_neg hI, if_neg hI]
      rfl

theorem qProcess_drops_iff (hv : qView (h.path s) = .good proto type after)
    (hkeeps : Keeps c (h.path s) originated proto) :
    (∃ rc, rc < 0 ∧
      (qProcess cfg clientlist m c h.viaStart h.pathlen originated).val = .error rc) ↔
      ServerFirst cfg after ∨ Refused cfg clientlist s c proto type after := by
  cases @val_qProcess_kept cfg clientlist _ _ _ _ _ _ _ _ hl hv hkeeps with
  | inl h => exact ⟨fun _ => h.1, fun _ => h.2⟩
  | inr h =>
    obtain ⟨hkept, m', t, -, hval⟩ := h
    simp [hkept, hval]

end Loaded

/-- A call is dropped for the serverid when no call before it holds the serverid as a
part. -/
theorem serverFirst_iff {cfg : Config} {after : List Bytes} (hmem : cfg.serverid ∈ after) :
    ServerFirst cfg after ↔
      ∀ e ∈ after.takeWhile (· != cfg.serverid), ¬ cfg.serverid <:+: e := by
  unfold ServerFirst
  induction after with
  | nil => cases hmem
  | cons e es ih =>
    rw [List.find?_cons, List.takeWhile_cons]
    cases decEq e cfg.serverid with
    | isTrue heq =>
      have hself : (findSub cfg.serverid cfg.serverid).isSome = true :=
        findSub_isSome_iff.mpr List.infix_rfl
      simp [heq, hself]
    | isFalse hne =>
      have hmem : cfg.serverid ∈ es := by
        rw [List.mem_cons] at hmem
        exact hmem.resolve_left (Ne.symm hne)
      have hb : (e != cfg.serverid) = true := by simpa using hne
      simp only [hb, if_true, List.forall_mem_cons, ← ih hmem]
      cases hp : (findSub cfg.serverid e).isSome with
      | true =>
        have := findSub_isSome_iff.mp hp
        simp [this, hne]
      | false =>
        have : ¬ cfg.serverid <:+: e := by
          rw [← findSub_isSome_iff, hp]
          simp
        simp [this]

/-- The calls are split as they stand, when the array holds them all and the path does
not end with a comma. -/
theorem callTexts_eq {n : Nat} {after : List Bytes} (hlen : after.length ≤ n)
    (hlast : after.getLast? ≠ some []) : callTexts n after = after := by
  induction n generalizing after with
  | zero => cases after <;> simp_all [callTexts]
  | succ n ih =>
    cases after with
    | nil => rfl
    | cons e es =>
      have hes : es ≠ [[]] := by
        intro h
        simp [h] at hlast
      simp only [callTexts, hes, and_false, if_false, List.cons.injEq, true_and]
      apply ih
      · simpa using hlen
      · intro h
        apply hlast
        cases es with
        | nil => cases h
        | cons f fs => simpa using h

/-- A packet with a construct, whose calls hold the serverid, is dropped when no call
before the serverid has it as a part, or for another reason. Otherwise it gets
through. -/
theorem own_server_loop_dropped_iff (env : IncomingEnv) (c : Client) (line s : Bytes) (h : Header)
    (proto type : UInt8) (after : List Bytes) (hline : lineOf env c line = .ok s)
    (hok : parseHeader env.cfg s = .ok h) (hv : qView (h.path s) = .good proto type after)
    (hproto : proto ≠ 0) (hpass : PassedOn c (h.path s) (originatedByClient c h s))
    (hmem : env.cfg.serverid ∈ after) :
    (∃ rc, rc < 0 ∧
      (qProcess env.cfg env.clientlist (env.mem.load s) c h.viaStart h.pathlen
        (originatedByClient c h s)).val = .error rc ∧ incomingParse env c line = .dropped rc) ↔
      (∀ e ∈ after.takeWhile (· != env.cfg.serverid), ¬ env.cfg.serverid <:+: e) ∨
        Refused env.cfg env.clientlist s c proto type after := by
  rw [← serverFirst_iff hmem,
    ← (Loaded.of_parseHeader env.mem hok).qProcess_drops_iff hv ⟨hpass, .inl hproto⟩]
  constructor
  · rintro ⟨rc, hrc, hval, -⟩
    exact ⟨rc, hrc, hval⟩
  · rintro ⟨rc, hrc, hval⟩
    refine ⟨rc, hrc, hval, ?_⟩
    unfold originatedByClient at hval
    simp [incomingParse, hline, incomingParseLine, hok, hval]

/-- A server that accepts everything that is not a loop. -/
private def loopsEnv : IncomingEnv := .unrestricted

/-- A verified client on an inbound port. -/
private def loopsClient : Client := .verifiedInbound

/-- The client sends packets of other stations. -/
private theorem loopsClient_passedOn (path : List Bytes) : PassedOn loopsClient path false :=
  ⟨fun h => absurd h.1 (by decide), fun _ => ⟨by decide, fun h => absurd h (by decide)⟩⟩

/-- The serverid is the second call. -/
theorem own_server_loop_dropped :
    ∃ rc, rc < 0 ∧
      incomingParse loopsEnv loopsClient (ascii "OH7AB>APRS,qAR,OH7AC,TESTING:>test") = .dropped rc := by
  have hok : parseHeader loopsEnv.cfg (ascii "OH7AB>APRS,qAR,OH7AC,TESTING:>test") =
      .ok ⟨5, 10, 10, 28⟩ := by rfl
  obtain ⟨rc, hrc, -, hdrop⟩ := (own_server_loop_dropped_iff loopsEnv loopsClient
    (ascii "OH7AB>APRS,qAR,OH7AC,TESTING:>test") _ _ (ch 'A') (ch 'R')
    [ascii "OH7AC", ascii "TESTING"] rfl hok rfl (by decide) (loopsClient_passedOn _)
    (by decide)).mpr (.inl (by decide))
  exact ⟨rc, hrc, hdrop⟩

/-- A longer call before the serverid hides it. -/
theorem own_server_loop_missed :
    ¬ ∀ (env : IncomingEnv) (c : Client) (line s : Bytes) (h : Header) (proto type : UInt8)
      (after : List Bytes), lineOf env c line = .ok s → parseHeader env.cfg s = .ok h →
      qView (h.path s) = .good proto type after → proto ≠ 0 →
      PassedOn c (h.path s) (originatedByClient c h s) → env.cfg.serverid ∈ after →
      ∃ rc, rc < 0 ∧
        (qProcess env.cfg env.clientlist (env.mem.load s) c h.viaStart h.pathlen
          (originatedByClient c h s)).val = .error rc ∧ incomingParse env c line = .dropped rc := by
  intro hall
  have hok : parseHeader loopsEnv.cfg (ascii "OH7AB>APRS,WIDE2-1,qAR,TESTING-1,TESTING:>test") =
      .ok ⟨5, 10, 10, 40⟩ := by rfl
  obtain ⟨rc, -, -, hdrop⟩ := hall loopsEnv loopsClient
    (ascii "OH7AB>APRS,WIDE2-1,qAR,TESTING-1,TESTING:>test") _ _ (ch 'A') (ch 'R')
    [ascii "TESTING-1", ascii "TESTING"] rfl hok rfl (by decide) (loopsClient_passedOn _)
    (by decide)
  have hqueued : ∃ rc pb, incomingParse loopsEnv loopsClient
      (ascii "OH7AB>APRS,WIDE2-1,qAR,TESTING-1,TESTING:>test") = .queued rc pb := ⟨_, _, rfl⟩
  obtain ⟨_, _, hqueued⟩ := hqueued
  rw [hqueued] at hdrop
  cases hdrop

/-- A packet with a construct and a repeated call after it is dropped when the array
holds all the calls, or for any reason that shows in the calls that it holds.
Otherwise it gets through. -/
theorem repeated_call_dropped_iff (cfg : Config) (clientlist : List ClientEntry) (mem : Area UInt8)
    (c : Client) (s : Bytes) (h : Header) (proto type : UInt8) (after : List Bytes)
    (hok : parseHeader cfg s = .ok h) (hv : qView (h.path s) = .good proto type after)
    (hproto : proto ≠ 0) (hpass : PassedOn c (h.path s) (originatedByClient c h s))
    (htwice : ¬ after.Nodup) :
    (∃ rc, rc < 0 ∧
      (qProcess cfg clientlist (mem.load s) c h.viaStart h.pathlen
        (originatedByClient c h s)).val = .error rc) ↔
      (after.length ≤ maxQCalls ∧ after.getLast? ≠ some []) ∨
        ServerFirst cfg after ∨ Refused cfg clientlist s c proto type after := by
  rw [(Loaded.of_parseHeader mem hok).qProcess_drops_iff hv ⟨hpass, .inl hproto⟩]
  constructor
  · exact .inr
  · rintro (⟨hlen, hlast⟩ | hrefused)
    · right
      apply Refused.calls
      apply CallsRefused.twice
      rwa [callTexts_eq hlen hlast]
    · exact hrefused

/-- The second of three calls is the last one again. -/
theorem repeated_call_dropped :
    ∃ rc, rc < 0 ∧
      (qProcess loopsEnv.cfg [] (loopsEnv.mem.load (ascii "OH7AB>APRS,qAR,OH7AC,OH7AD,OH7AD:>test"))
        loopsClient 10 32 false).val = .error rc :=
  (repeated_call_dropped_iff loopsEnv.cfg [] loopsEnv.mem loopsClient
    (ascii "OH7AB>APRS,qAR,OH7AC,OH7AD,OH7AD:>test") ⟨5, 10, 10, 32⟩ (ch 'A') (ch 'R')
    [ascii "OH7AC", ascii "OH7AD", ascii "OH7AD"] rfl rfl (by decide) (loopsClient_passedOn _)
    (by decide)).mpr (.inl (by decide))

/-- The letters and digits, two more calls, and the first one again: 65 calls. -/
private def longCalls : List Bytes :=
  (List.range 26).map (fun i => [ch 'A' + i.toUInt8]) ++
    (List.range 26).map (fun i => [ch 'a' + i.toUInt8]) ++
    (List.range 10).map (fun i => [ch '0' + i.toUInt8]) ++ [ascii "AA", ascii "AB", ascii "A"]

private def longLine : Bytes :=
  ascii "OH7AB>APRS,qAR" ++ joinFields comma longCalls ++ ascii ":>test"

private theorem longLine_header : parseHeader loopsEnv.cfg longLine = .ok ⟨5, 10, 10, 146⟩ := by
  decide +kernel

private theorem longLine_qView : qView (Header.path ⟨5, 10, 10, 146⟩ longLine) =
    .good (ch 'A') (ch 'R') longCalls := by
  decide +kernel

private theorem longCalls_twice : ¬ longCalls.Nodup := by
  decide +kernel

private theorem longLine_kept : (qProcess loopsEnv.cfg [] (loopsEnv.mem.load longLine) loopsClient 10 146
      false).val.isOk = true := by decide +kernel

/-- The array holds 64 calls only. -/
theorem repeated_call_missed :
    ¬ ∀ (cfg : Config) (clientlist : List ClientEntry) (mem : Area UInt8) (c : Client) (s : Bytes)
      (h : Header) (proto type : UInt8) (after : List Bytes), parseHeader cfg s = .ok h →
      qView (h.path s) = .good proto type after → proto ≠ 0 →
      PassedOn c (h.path s) (originatedByClient c h s) → ¬ after.Nodup →
      ∃ rc, rc < 0 ∧
        (qProcess cfg clientlist (mem.load s) c h.viaStart h.pathlen
          (originatedByClient c h s)).val = .error rc := by
  intro hall
  obtain ⟨rc, -, hdrop⟩ := hall loopsEnv.cfg [] loopsEnv.mem loopsClient longLine _ (ch 'A') (ch 'R')
    _ longLine_header longLine_qView (by decide) (loopsClient_passedOn _) longCalls_twice
  have hkept := longLine_kept
  rw [show (qProcess loopsEnv.cfg [] (loopsEnv.mem.load longLine) loopsClient 10 146
    false).val = .error rc from hdrop] at hkept
  cases hkept

end Aprsc
