-- SUMMARY: The alarms of the status page, and when each of them is listed for its whole time to live.
import Aprsc.Base.Runs
import Aprsc.Liveupgrade.ClientJson

/-!
# Alarms

`status_error` sets an alarm for some time or clears it. The entry of an alarm keeps the
time at which it was set first, and each call moves the end to the time to live after
that, whatever the time of the call. `status_error_json` lists the alarms that have not
ended.
-/

namespace Aprsc

open Runs

/-! ## The list -/

/-- `struct status_error_t`. The list is a list of these. -/
structure StatusErrorT where
  err : Bytes
  set : Int
  started : Int
  ends : Int
deriving Repr, DecidableEq

/-- `status_error_find`: a new entry has whatever times its memory holds. -/
def statusErrorFind (memory : Int × Int) (err : Bytes) (errs : List StatusErrorT) :
    List StatusErrorT :=
  if errs.any fun e => e.err = err then errs else ⟨err, -1, memory.1, memory.2⟩ :: errs

/-- The branch of `status_error` that sets an alarm. -/
def setError (now ttl : Int) (e : StatusErrorT) : StatusErrorT :=
  let e := if e.set ≠ 1 then { e with started := now, set := 1 } else e
  { e with ends := e.started + ttl }

/-- The branch of `status_error` that clears an alarm. -/
def clearError (now : Int) (e : StatusErrorT) : StatusErrorT :=
  if e.set ≠ 0 then { e with ends := now, set := 0 } else e

/-- What `status_error` does to the entry of its alarm. -/
def callError (now ttl : Int) (e : StatusErrorT) : StatusErrorT :=
  if ttl > 0 then setError now ttl e else clearError now e

/-- Write to the entry that `status_error_find` returns. -/
def updateError (err : Bytes) (f : StatusErrorT → StatusErrorT) :
    List StatusErrorT → List StatusErrorT
  | [] => []
  | e :: next => if e.err = err then f e :: next else e :: updateError err f next

/-- `status_error`. -/
def statusError (now : Int) (memory : Int × Int) (ttl : Int) (err : Bytes)
    (errs : List StatusErrorT) : List StatusErrorT :=
  updateError err (callError now ttl) (statusErrorFind memory err errs)

/-- The object of an alarm. -/
def errorObject (e : StatusErrorT) : JsonObject :=
  [("err", .string e.err), ("set", .number (.int e.set)), ("start", .number (.int e.started)),
    ("end", .number (.int e.ends))]

/-- `status_error_json`. -/
def statusErrorJson (now : Int) (errs : List StatusErrorT) : List JsonObject :=
  (errs.filter fun e => !decide (e.ends < now)).map errorObject

/-! ## Runs -/

/-- A call of `status_error`, some seconds after the one before it. -/
structure AlarmCall where
  seconds : Nat
  memory : Int × Int
  ttl : Int
  err : Bytes

/-- An alarm that was set. -/
structure Alarm where
  err : Bytes
  time : Int
  ttl : Int
deriving Repr, DecidableEq

/-- A run so far: the list, the time, and the alarms that were set and not cleared since,
the latest first. -/
structure AlarmRun where
  errs : List StatusErrorT
  now : Int
  alarms : List Alarm

def AlarmRun.init (now : Int) : AlarmRun := ⟨[], now, []⟩

def AlarmRun.step (s : AlarmRun) (c : AlarmCall) : AlarmRun :=
  let now := s.now + c.seconds
  { errs := statusError now c.memory c.ttl c.err s.errs
    now
    alarms := if c.ttl > 0 then ⟨c.err, now, c.ttl⟩ :: s.alarms
      else s.alarms.filter fun a => a.err ≠ c.err }

/-- An object lists an alarm as set. -/
def ListsSet (err : Bytes) (obj : JsonObject) : Prop :=
  getObjectItem obj "err" = some (.string err) ∧
    getObjectItem obj "set" = some (.number (.int 1))

/-- Until the next call, each alarm that was set and not cleared is listed for as long as
its time to live lasts. -/
def AlarmRun.Visible (s : AlarmRun) : Prop :=
  ∀ a ∈ s.alarms, ∀ t, s.now ≤ t → a.time ≤ t → t ≤ a.time + a.ttl →
    ∃ obj ∈ statusErrorJson t s.errs, ListsSet a.err obj

/-- An alarm that is set already is set again only in the second in which it started, and
for no shorter time. -/
def SetsNoLater (s : AlarmRun) (c : AlarmCall) : Prop :=
  c.ttl > 0 → ∀ e ∈ s.errs, e.err = c.err → e.set = 1 →
    s.now + c.seconds = e.started ∧ e.ends ≤ e.started + c.ttl

/-! ## The entry of an alarm -/

/-- The entry of an alarm. -/
def getError (err : Bytes) (errs : List StatusErrorT) : Option StatusErrorT :=
  errs.find? fun e => e.err = err

section
variable {err err' : Bytes} {e : StatusErrorT} {errs : List StatusErrorT} {now t ttl : Int}
  {memory : Int × Int} {f : StatusErrorT → StatusErrorT}

theorem getError_err (h : getError err errs = some e) : e.err = err := by
  simpa using List.find?_some h

theorem getError_mem (h : getError err errs = some e) : e ∈ errs := List.mem_of_find?_eq_some h

theorem getError_eq_of_mem (hnodup : (errs.map StatusErrorT.err).Nodup) (he : e ∈ errs)
    (herr : e.err = err) : getError err errs = some e := by
  induction errs with
  | nil => cases he
  | cons x errs ih =>
    obtain ⟨hfresh, hrest⟩ := List.nodup_cons.mp hnodup
    unfold getError
    cases List.mem_cons.mp he with
    | inl heq =>
      subst heq
      rw [List.find?_cons_of_pos (by simpa using herr)]
    | inr hmem =>
      have hne : x.err ≠ err := fun heq =>
        hfresh (List.mem_map.mpr ⟨e, hmem, herr.trans heq.symm⟩)
      rw [List.find?_cons_of_neg (by simpa using hne)]
      exact ih hrest hmem

theorem getError_updateError (hf : ∀ e, (f e).err = e.err) :
    getError err' (updateError err f errs) =
      if err' = err then (getError err errs).map f else getError err' errs := by
  induction errs with
  | nil => simp [updateError, getError]
  | cons x errs ih =>
    by_cases hx : x.err = err
    · subst hx
      by_cases herr : err' = x.err
      · subst herr
        simp [updateError, getError, hf]
      · simp [updateError, getError, hf, herr, Ne.symm herr]
    · unfold getError at ih ⊢
      rw [updateError, if_neg hx, List.find?_cons, List.find?_cons, ih]
      by_cases herr : err' = err
      · subst herr
        simp [hx]
      · simp only [if_neg herr, List.find?_cons]

theorem map_err_updateError (hf : ∀ e, (f e).err = e.err) :
    (updateError err f errs).map StatusErrorT.err = errs.map StatusErrorT.err := by
  induction errs with
  | nil => rfl
  | cons x errs ih =>
    unfold updateError
    split
    · rw [List.map_cons, List.map_cons, hf]
    · rw [List.map_cons, List.map_cons, ih]

theorem getError_statusErrorFind :
    getError err' (statusErrorFind memory err errs) =
      if err' = err then some ((getError err errs).getD ⟨err, -1, memory.1, memory.2⟩)
      else getError err' errs := by
  unfold statusErrorFind getError
  split
  · rename_i hany
    split
    · rename_i heq
      subst heq
      have hsome : (errs.find? fun e => e.err = err').isSome := by
        rwa [List.find?_isSome, ← List.any_eq_true]
      obtain ⟨e, he⟩ := Option.isSome_iff_exists.mp hsome
      rw [he]
      rfl
    · rfl
  · rename_i hany
    rw [List.find?_cons]
    by_cases heq : err' = err
    · subst heq
      have hnone : (errs.find? fun e => e.err = err') = none := by
        rw [List.find?_eq_none]
        simpa using hany
      simp [hnone]
    · simp [heq, Ne.symm heq]

theorem nodup_statusErrorFind (hnodup : (errs.map StatusErrorT.err).Nodup) :
    ((statusErrorFind memory err errs).map StatusErrorT.err).Nodup := by
  unfold statusErrorFind
  split
  · exact hnodup
  · rename_i hany
    exact List.nodup_cons.mpr ⟨by simpa using hany, hnodup⟩

theorem callError_err (e : StatusErrorT) : (callError now ttl e).err = e.err := by
  unfold callError
  split
  · unfold setError
    dsimp only
    split <;> rfl
  · unfold clearError
    split <;> rfl

/-- An alarm that is set ends its time to live after it has started. -/
theorem callError_set (httl : ttl > 0) (e : StatusErrorT) :
    callError now ttl e =
      ⟨e.err, 1, if e.set = 1 then e.started else now,
        (if e.set = 1 then e.started else now) + ttl⟩ := by
  rw [callError, if_pos httl, setError]
  by_cases hset : e.set = 1 <;> simp [hset]

theorem callError_clear (httl : ttl ≤ 0) (e : StatusErrorT) : (callError now ttl e).set = 0 := by
  rw [callError, if_neg (Int.not_lt.mpr httl), clearError]
  by_cases hset : e.set = 0 <;> simp [hset]

/-- A call changes the entry of its alarm, or makes one, and leaves the others. -/
theorem getError_statusError :
    getError err' (statusError now memory ttl err errs) =
      if err' = err then
        some (callError now ttl ((getError err errs).getD ⟨err, -1, memory.1, memory.2⟩))
      else getError err' errs := by
  rw [statusError, getError_updateError callError_err, getError_statusErrorFind,
    getError_statusErrorFind, if_pos rfl]
  split <;> rfl

theorem nodup_statusError (hnodup : (errs.map StatusErrorT.err).Nodup) :
    ((statusError now memory ttl err errs).map StatusErrorT.err).Nodup := by
  rw [statusError, map_err_updateError callError_err]
  exact nodup_statusErrorFind hnodup

theorem listsSet_iff : ListsSet err (errorObject e) ↔ e.err = err ∧ e.set = 1 := by
  simp [ListsSet, errorObject, getObjectItem]

/-- The list has an alarm as set when its entry is set and has not ended. -/
theorem listed_iff (hnodup : (errs.map StatusErrorT.err).Nodup) :
    (∃ obj ∈ statusErrorJson t errs, ListsSet err obj) ↔
      ∃ e, getError err errs = some e ∧ e.set = 1 ∧ t ≤ e.ends := by
  unfold statusErrorJson
  constructor
  · rintro ⟨obj, hobj, hlists⟩
    obtain ⟨e, he, rfl⟩ := List.mem_map.mp hobj
    obtain ⟨hmem, hends⟩ := List.mem_filter.mp he
    obtain ⟨herr, hset⟩ := listsSet_iff.mp hlists
    exact ⟨e, getError_eq_of_mem hnodup hmem herr, hset, by simpa using hends⟩
  · rintro ⟨e, he, hset, hends⟩
    refine ⟨errorObject e, List.mem_map.mpr ⟨e, List.mem_filter.mpr ⟨getError_mem he, ?_⟩, rfl⟩,
      listsSet_iff.mpr ⟨getError_err he, hset⟩⟩
    simpa using hends

end

/-! ## Runs -/

/-- An entry that is set has an alarm behind it, which its last call has set, and each
alarm has an entry that is set. -/
structure AlarmRun.Inv (s : AlarmRun) : Prop where
  nodup : (s.errs.map StatusErrorT.err).Nodup
  set : ∀ err e, getError err s.errs = some e → e.set = 1 →
    ∃ a ∈ s.alarms, a.err = err ∧ 0 < a.ttl ∧ e.started ≤ a.time ∧ a.time ≤ s.now ∧
      e.ends = e.started + a.ttl
  alarm : ∀ a ∈ s.alarms, ∃ e, getError a.err s.errs = some e ∧ e.set = 1

theorem AlarmRun.Inv.init (now : Int) : (AlarmRun.init now).Inv where
  nodup := List.nodup_nil
  set := fun _ _ h => by cases h
  alarm := fun _ h => by cases h

/-- The entry of an alarm before a call: a new one if there was none. -/
def AlarmRun.entry (s : AlarmRun) (c : AlarmCall) : StatusErrorT :=
  (getError c.err s.errs).getD ⟨c.err, -1, c.memory.1, c.memory.2⟩

section
variable {s : AlarmRun} {c : AlarmCall} {err : Bytes} {e : StatusErrorT}

theorem getError_step : getError err (s.step c).errs =
    if err = c.err then some (callError (s.now + c.seconds) c.ttl (s.entry c))
    else getError err s.errs :=
  getError_statusError

/-- An alarm is set by a call, or was set before it and is not cleared by it. -/
theorem mem_alarms_step {a : Alarm} : a ∈ (s.step c).alarms ↔
    (c.ttl > 0 ∧ (a = ⟨c.err, s.now + c.seconds, c.ttl⟩ ∨ a ∈ s.alarms)) ∨
      (c.ttl ≤ 0 ∧ a ∈ s.alarms ∧ a.err ≠ c.err) := by
  unfold AlarmRun.step
  dsimp only
  split
  · rename_i httl
    simp [httl, Int.not_le.mpr httl]
  · rename_i httl
    simp [httl, Int.not_lt.mp httl]

/-- Only an entry of the list is set. -/
theorem getError_of_entry_set (hset : (s.entry c).set = 1) :
    getError c.err s.errs = some (s.entry c) := by
  unfold AlarmRun.entry at hset ⊢
  cases he : getError c.err s.errs with
  | none =>
    rw [he] at hset
    cases hset
  | some e => rfl

/-- An alarm that is set again started before. -/
theorem AlarmRun.Inv.started_le (h : s.Inv) (hset : (s.entry c).set = 1) :
    (s.entry c).started ≤ s.now := by
  obtain ⟨a, -, -, -, hstarted, htime, -⟩ := h.set _ _ (getError_of_entry_set hset) hset
  exact Int.le_trans hstarted htime

theorem AlarmRun.Inv.step (h : s.Inv) (c : AlarmCall) : (s.step c).Inv where
  nodup := nodup_statusError h.nodup
  set := by
    intro err e he hset
    have hnow : s.now ≤ (s.step c).now := Int.le_add_of_nonneg_right (Int.natCast_nonneg _)
    rw [getError_step] at he
    split at he
    · rename_i herr
      subst herr
      obtain rfl := Option.some.inj he
      have httl : c.ttl > 0 := by
        by_contra hle
        rw [callError_clear (Int.not_lt.mp hle)] at hset
        exact absurd hset (by decide)
      -- The alarm behind it is the one that this call sets.
      refine ⟨⟨c.err, s.now + c.seconds, c.ttl⟩, mem_alarms_step.mpr (.inl ⟨httl, .inl rfl⟩),
        rfl, httl, ?_, Int.le_refl _, ?_⟩
      · rw [callError_set httl]
        dsimp only
        split
        · rename_i hagain
          exact Int.le_trans (h.started_le hagain) hnow
        · exact Int.le_refl _
      · rw [callError_set httl]
    · rename_i herr
      obtain ⟨a, ha, haerr, hpos, hstarted, htime, hends⟩ := h.set err e he hset
      refine ⟨a, mem_alarms_step.mpr ?_, haerr, hpos, hstarted, Int.le_trans htime hnow, hends⟩
      by_cases httl : c.ttl > 0
      · exact .inl ⟨httl, .inr ha⟩
      · exact .inr ⟨Int.not_lt.mp httl, ha, haerr ▸ herr⟩
  alarm := by
    intro a ha
    rw [getError_step]
    split
    · rename_i herr
      obtain ⟨httl, -⟩ | ⟨-, -, hne⟩ := mem_alarms_step.mp ha
      · exact ⟨_, rfl, by rw [callError_set httl]⟩
      · exact absurd herr hne
    · rename_i herr
      obtain ⟨-, rfl | hold⟩ | ⟨-, hold, -⟩ := mem_alarms_step.mp ha
      · exact absurd rfl herr
      · exact h.alarm a hold
      · exact h.alarm a hold

/-- Until the next call, an alarm is listed for its time to live if its entry does not end
before that. -/
theorem AlarmRun.Inv.visible_iff (h : s.Inv) : s.Visible ↔
    ∀ a ∈ s.alarms, ∀ e, getError a.err s.errs = some e →
      ∀ t, s.now ≤ t → a.time ≤ t → t ≤ a.time + a.ttl → t ≤ e.ends := by
  unfold Visible
  constructor
  · intro hvis a ha e he t hnow htime hends
    obtain ⟨e', he', -, hle⟩ := (listed_iff h.nodup).mp (hvis a ha t hnow htime hends)
    obtain rfl := Option.some.inj (he.symm.trans he')
    exact hle
  · intro hends a ha t hnow htime ht
    obtain ⟨e, he, hset⟩ := h.alarm a ha
    exact (listed_iff h.nodup).mpr ⟨e, he, hset, hends a ha e he t hnow htime ht⟩

/-- When all alarms are visible, a call keeps them so exactly if it sets none to an earlier
end. -/
theorem AlarmRun.Inv.visible_step_iff (h : s.Inv) (hvis : s.Visible) (c : AlarmCall) :
    (s.step c).Visible ↔ SetsNoLater s c := by
  have hnow : s.now ≤ s.now + c.seconds := Int.le_add_of_nonneg_right (Int.natCast_nonneg _)
  rw [(h.step c).visible_iff]
  rw [h.visible_iff] at hvis
  constructor
  · intro hnext httl e he herr hset
    have hget := getError_eq_of_mem h.nodup he herr
    have hentry : s.entry c = e := by
      rw [AlarmRun.entry, hget]
      rfl
    have hstep : getError c.err (s.step c).errs = some ⟨c.err, 1, e.started, e.started + c.ttl⟩ := by
      rw [getError_step, if_pos rfl, callError_set httl, hentry, if_pos hset, herr]
    have hends : ∀ a ∈ (s.step c).alarms, a.err = c.err → s.now + c.seconds ≤ a.time + a.ttl →
        a.time ≤ a.time + a.ttl → a.time + a.ttl ≤ e.started + c.ttl := by
      intro a ha haerr hlate hle
      exact hnext a ha _ (by rw [haerr, hstep]) _ hlate hle (Int.le_refl _)
    have hnew := hends ⟨c.err, s.now + c.seconds, c.ttl⟩ (mem_alarms_step.mpr (.inl ⟨httl, .inl rfl⟩))
      rfl (by dsimp only; omega) (by dsimp only; omega)
    obtain ⟨a, ha, haerr, hpos, hstarted, htime, hend⟩ := h.set c.err e hget hset
    dsimp only at hnew
    -- So the call is in the second in which the alarm started, and in that of the last one.
    have hlast := hends a (mem_alarms_step.mpr (.inl ⟨httl, .inr ha⟩)) haerr (by omega) (by omega)
    omega
  · intro hok a ha e he t ht htime hle
    rw [getError_step] at he
    have hlate : s.now ≤ t := Int.le_trans hnow ht
    split at he
    · rename_i herr
      obtain rfl := Option.some.inj he
      obtain ⟨httl, ha⟩ | ⟨-, -, hne⟩ := mem_alarms_step.mp ha
      · rw [callError_set httl]
        dsimp only
        by_cases hset : (s.entry c).set = 1
        · have hget := getError_of_entry_set hset
          obtain ⟨hstart, hends⟩ := hok httl _ (getError_mem hget) (getError_err hget) hset
          rw [if_pos hset]
          obtain rfl | hold := ha
          · dsimp only at hle
            omega
          · have hbefore := hvis a hold _ (herr ▸ hget) t hlate htime hle
            omega
        · rw [if_neg hset]
          obtain rfl | hold := ha
          · exact hle
          · obtain ⟨e, he, heset⟩ := h.alarm a hold
            rw [AlarmRun.entry, ← herr, he] at hset
            exact absurd heset hset
      · exact absurd herr hne
    · rename_i herr
      obtain ⟨-, rfl | hold⟩ | ⟨-, hold, -⟩ := mem_alarms_step.mp ha
      · exact absurd rfl herr
      · exact hvis a hold e he t hlate htime hle
      · exact hvis a hold e he t hlate htime hle

end

/-- In a run from an empty list, every alarm is listed as set for its time to live, until
it is cleared, exactly if no call sets an alarm that is set to an earlier end. -/
theorem alarms_visible_iff (now : Int) (calls : List AlarmCall) :
    Always AlarmRun.step AlarmRun.Visible (.init now) calls ↔
      Meets AlarmRun.step SetsNoLater (.init now) calls := by
  have hinit : (AlarmRun.init now).Visible := fun a ha => by cases ha
  have hstep : ∀ (s : AlarmRun) c, s.Inv → (s.step c).Inv := fun _ c hs => hs.step c
  have hvisible : ∀ (s : AlarmRun) c, s.Inv → s.Visible →
      ((s.step c).Visible ↔ SetsNoLater s c) := fun _ c hs hvis => hs.visible_step_iff hvis c
  exact always_iff_meets hstep hvisible (AlarmRun.Inv.init now) hinit calls

/-- An alarm for an hour is set again when half of the hour is over, and ends with it. -/
theorem alarm_shortened :
    ¬ Always AlarmRun.step AlarmRun.Visible (.init 1000)
      [⟨0, (0, 0), 3600, ascii "no_uplink"⟩, ⟨1800, (0, 0), 3600, ascii "no_uplink"⟩] := by
  intro h
  have hvis := h.last ⟨ascii "no_uplink", 2800, 3600⟩ List.mem_cons_self 4601 (by decide) (by decide)
    (by decide)
  obtain ⟨obj, hobj, -⟩ := hvis
  have hempty : statusErrorJson 4601 (run AlarmRun.step (.init 1000)
      [⟨0, (0, 0), 3600, ascii "no_uplink"⟩, ⟨1800, (0, 0), 3600, ascii "no_uplink"⟩]).errs = [] := by
    rfl
  rw [hempty] at hobj
  cases hobj

end Aprsc
