-- SUMMARY: A run of reloads in which the failed ones leave no trace, and what the files must be like for it.
import Aprsc.Base.Runs
import Aprsc.Server.Config

/-!
# Reloads

A reload that fails should be as if it had not been tried. The directives of a file are
carried out one by one, and what they have written by the time of an error stays. A number
is in use at once, and an entry of a list is there in the next reload.
-/

namespace Aprsc

open Runs

/-! ## The writes of a file -/

/-- The peers that are there after the writes. -/
def peersAfter (peers : List PeeripConfigT) (ws : List ConfigWrite) : List PeeripConfigT :=
  ws.foldl (fun peers w => match w with | .peer pe => pe :: peers | _ => peers) peers

/-- What `read_cfgfile` returns and what it has written by then. -/
def fileWrites (env : ConfigEnv) (listenConfig : List ListenConfigT) :
    List PeeripConfigT → (n : Nat) → List Bytes → Option CmdResult
  | _, _, [] => some (0, [])
  | peers, n, line :: lines =>
      match cmdparse env listenConfig peers n line with
      | none => none
      | some (ret, ws) =>
          if ret < 0 then some (2, ws)
          else (fileWrites env listenConfig (peersAfter peers ws) (n + 1) lines).map fun r =>
            (r.1, ws ++ r.2)

section
variable {env : ConfigEnv} {s t : ConfigState} {ws : List ConfigWrite}

@[simp] theorem writes_nil (s : ConfigState) : s.writes [] = s := rfl

@[simp] theorem writes_cons (s : ConfigState) (w : ConfigWrite) (ws : List ConfigWrite) :
    s.writes (w :: ws) = (s.write w).writes ws := rfl

theorem writes_append (s : ConfigState) (ws vs : List ConfigWrite) :
    s.writes (ws ++ vs) = (s.writes ws).writes vs :=
  List.foldl_append ..

/-- What no write changes stays as it is. -/
theorem writes_frame {α : Type} {f : ConfigState → α}
    (hf : ∀ (s : ConfigState) w, f (s.write w) = f s)
    (s : ConfigState) (ws : List ConfigWrite) : f (s.writes ws) = f s := by
  induction ws generalizing s with
  | nil => rfl
  | cons w ws ih => rw [writes_cons, ih, hf]

/-- What one of the writes brings about and none undoes. -/
theorem writes_of_mem {P : ConfigState → Prop}
    (hmono : ∀ (s : ConfigState) w, P s → P (s.write w)) {w : ConfigWrite}
    (hset : ∀ s : ConfigState, P (s.write w)) (hw : w ∈ ws) (s : ConfigState) :
    P (s.writes ws) := by
  have hkeep : ∀ (vs : List ConfigWrite) s, P s → P (s.writes vs) := by
    intro vs
    induction vs with
    | nil => exact fun _ hs => hs
    | cons v vs ih => exact fun s hs => ih _ (hmono s v hs)
  obtain ⟨as, bs, rfl⟩ := List.append_of_mem hw
  rw [writes_append, writes_cons]
  exact hkeep bs _ (hset _)

theorem listenConfig_writes (s : ConfigState) (ws : List ConfigWrite) :
    (s.writes ws).running.listenConfig = s.running.listenConfig :=
  writes_frame (f := (·.running.listenConfig)) (fun _ w => by cases w <;> rfl) s ws

theorem newPeeripConfig_writes (s : ConfigState) (ws : List ConfigWrite) :
    (s.writes ws).new.newPeeripConfig = peersAfter s.new.newPeeripConfig ws := by
  induction ws generalizing s with
  | nil => rfl
  | cons w ws ih =>
    rw [writes_cons, ih]
    cases w <;> rfl

/-- Reading a file is carrying out its writes. -/
theorem readLines_eq (env : ConfigEnv) (n : Nat) (s : ConfigState) (lines : List Bytes) :
    readLines env n s lines =
      (fileWrites env s.running.listenConfig s.new.newPeeripConfig n lines).map fun r =>
        (r.1, s.writes r.2) := by
  induction lines generalizing n s with
  | nil => rfl
  | cons line lines ih =>
    rw [readLines, fileWrites]
    cases cmdparse env s.running.listenConfig s.new.newPeeripConfig n line with
    | none => rfl
    | some r =>
      obtain ⟨ret, ws⟩ := r
      dsimp only
      split
      · rfl
      · rw [ih, listenConfig_writes, newPeeripConfig_writes, Option.map_map]
        congr 1
        funext r
        rw [Function.comp_apply, writes_append]

/-! ## Writes that leave nothing -/

/-- The lists that are collected are empty. -/
structure NewConfig.NoLists (new : NewConfig) : Prop where
  listen : new.listenConfigNew = []
  uplink : new.newUplinkConfig = []
  peerip : new.newPeeripConfig = []
  http : new.newHttpConfig = []

/-- The write makes no entry in a list, and a number gets the value that it has. -/
def ConfigWrite.Inert (running : ServerConfig) : ConfigWrite → Prop
  | .var dest value => running.vars dest = value
  | .uplinkBindV4 addr => running.uplinkBindV4 = some addr
  | .uplinkBindV6 addr => running.uplinkBindV6 = some addr
  | .string .. => True
  | .globs .. => True
  | _ => False

theorem assign_same {κ : Type} [DecidableEq κ] {α : Type} (f : κ → α) (dest : κ) :
    assign f dest (f dest) = f := by
  funext k
  unfold assign
  split
  · rename_i h
    rw [h]
  · rfl

theorem ConfigWrite.Inert.write {w : ConfigWrite} (hw : w.Inert s.running) (hs : s.new.NoLists) :
    (s.write w).running = s.running ∧ (s.write w).new.NoLists := by
  cases w with
  | var dest value =>
    obtain rfl : s.running.vars dest = value := hw
    refine ⟨?_, hs⟩
    simp only [ConfigState.write, assign_same]
  | uplinkBindV4 addr =>
    refine ⟨?_, hs⟩
    have hw : s.running.uplinkBindV4 = some addr := hw
    simp only [ConfigState.write, ← hw]
  | uplinkBindV6 addr =>
    refine ⟨?_, hs⟩
    have hw : s.running.uplinkBindV6 = some addr := hw
    simp only [ConfigState.write, ← hw]
  | string dest value => exact ⟨rfl, hs.listen, hs.uplink, hs.peerip, hs.http⟩
  | globs dest values => exact ⟨rfl, hs.listen, hs.uplink, hs.peerip, hs.http⟩
  | listen l => cases hw
  | uplink l => cases hw
  | peer pe => cases hw
  | http l => cases hw

theorem writes_of_inert (hws : ∀ w ∈ ws, w.Inert s.running) (hs : s.new.NoLists) :
    (s.writes ws).running = s.running ∧ (s.writes ws).new.NoLists := by
  induction ws generalizing s with
  | nil => exact ⟨rfl, hs⟩
  | cons w ws ih =>
    obtain ⟨hrunning, hlists⟩ := (hws w List.mem_cons_self).write hs
    have hrest : ∀ v ∈ ws, v.Inert (s.write w).running := by
      rw [hrunning]
      exact fun v hv => hws v (List.mem_cons_of_mem w hv)
    rw [writes_cons, ← hrunning]
    exact ih hrest hlists

/-! ## What an earlier reload has left -/

/-- The states are the same up to strings and lists of callsigns that the writes set. -/
structure AgreeUpTo (ws : List ConfigWrite) (s t : ConfigState) : Prop where
  running : s.running = t.running
  listen : s.new.listenConfigNew = t.new.listenConfigNew
  uplink : s.new.newUplinkConfig = t.new.newUplinkConfig
  peerip : s.new.newPeeripConfig = t.new.newPeeripConfig
  http : s.new.newHttpConfig = t.new.newHttpConfig
  strings : ∀ k, s.new.strings k = t.new.strings k ∨ ∃ v, .string k v ∈ ws
  globs : ∀ k, s.new.globs k = t.new.globs k ∨ ∃ v, .globs k v ∈ ws

theorem or_exists_mem_tail {A : Prop} {α : Type} {f : α → ConfigWrite} {w : ConfigWrite}
    (h : A ∨ ∃ v, f v ∈ w :: ws) (hw : ∀ v, w ≠ f v) : A ∨ ∃ v, f v ∈ ws := by
  obtain ha | ⟨v, hv⟩ := h
  · exact .inl ha
  · obtain heq | hv := List.mem_cons.mp hv
    · exact absurd heq.symm (hw v)
    · exact .inr ⟨v, hv⟩

theorem AgreeUpTo.write {w : ConfigWrite} (h : AgreeUpTo (w :: ws) s t) :
    AgreeUpTo ws (s.write w) (t.write w) := by
  obtain ⟨hrunning, hlisten, huplink, hpeerip, hhttp, hstrings, hglobs⟩ := h
  have hstrings' := fun (hw : ∀ k v, w ≠ .string k v) k => or_exists_mem_tail (hstrings k) (hw k)
  have hglobs' := fun (hw : ∀ k v, w ≠ .globs k v) k => or_exists_mem_tail (hglobs k) (hw k)
  cases w with
  | string dest value =>
    refine ⟨hrunning, hlisten, huplink, hpeerip, hhttp, fun k => ?_, hglobs' (by simp)⟩
    by_cases hk : k = dest
    · exact .inl (by simp [ConfigState.write, assign, hk])
    · simpa [ConfigState.write, assign, hk] using
        or_exists_mem_tail (hstrings k) (by simp [Ne.symm hk])
  | globs dest values =>
    refine ⟨hrunning, hlisten, huplink, hpeerip, hhttp, hstrings' (by simp), fun k => ?_⟩
    by_cases hk : k = dest
    · exact .inl (by simp [ConfigState.write, assign, hk])
    · simpa [ConfigState.write, assign, hk] using
        or_exists_mem_tail (hglobs k) (by simp [Ne.symm hk])
  | _ =>
    constructor
    all_goals first
      | exact hstrings' (by simp)
      | exact hglobs' (by simp)
      | simp only [ConfigState.write, hrunning, hlisten, huplink, hpeerip, hhttp]

theorem AgreeUpTo.writes (h : AgreeUpTo ws s t) : s.writes ws = t.writes ws := by
  induction ws generalizing s t with
  | nil =>
    obtain ⟨hrunning, hlisten, huplink, hpeerip, hhttp, hstrings, hglobs⟩ := h
    obtain ⟨sr, ss, sg, sl, su, sp, sh⟩ := s
    obtain ⟨tr, ts, tg, tl, tu, tp, th⟩ := t
    simp only [List.not_mem_nil, exists_false, or_false] at hstrings hglobs
    obtain rfl : ss = ts := funext hstrings
    obtain rfl : sg = tg := funext hglobs
    dsimp only at hrunning hlisten huplink hpeerip hhttp
    subst hrunning hlisten huplink hpeerip hhttp
    rfl
  | cons w ws ih =>
    rw [writes_cons, writes_cons]
    exact ih h.write

/-! ## Files that are complete -/

def ConfigWrite.uplink? : ConfigWrite → Option UplinkConfigT
  | .uplink l => some l
  | _ => none

/-- The file has what is required of one that is read to its end. -/
structure Complete (ws : List ConfigWrite) : Prop where
  passcode : ∃ v, .string .passcode v ∈ ws
  myadmin : ∃ v, .string .myadmin v ∈ ws
  myemail : ∃ v, .string .myemail v ∈ ws
  listen : ∃ l, .listen l ∈ ws
  uplinks : uplinksMixed (ws.filterMap (·.uplink?)) = false

/-- What the first configuration has set. -/
structure ServerConfig.Started (running : ServerConfig) : Prop where
  rundir : (running.strings .rundir).isSome = true
  serverid : (running.strings .serverid).isSome = true
  logDir : running.logDir.isSome = true

theorem isSome_strings_writes {k : ConfigString} (h : ∃ v, .string k v ∈ ws) (s : ConfigState) :
    ((s.writes ws).new.strings k).isSome = true := by
  obtain ⟨v, hv⟩ := h
  refine writes_of_mem (P := fun s => (s.new.strings k).isSome = true) ?_ ?_ hv s
  · intro s w hs
    cases w with
    | string dest value =>
      simp only [ConfigState.write, assign]
      split
      · rfl
      · exact hs
    | _ => exact hs
  · intro s
    simp [ConfigState.write, assign]

theorem listenConfigNew_writes_ne (h : ∃ l, .listen l ∈ ws) (s : ConfigState) :
    (s.writes ws).new.listenConfigNew.isEmpty = false := by
  obtain ⟨l, hl⟩ := h
  refine writes_of_mem (P := fun s => s.new.listenConfigNew.isEmpty = false) ?_ ?_ hl s
  · intro s w hs
    cases w with
    | listen l => rfl
    | _ => exact hs
  · exact fun _ => rfl

theorem newUplinkConfig_writes (s : ConfigState) (ws : List ConfigWrite) :
    (s.writes ws).new.newUplinkConfig =
      s.new.newUplinkConfig ++ ws.filterMap (·.uplink?) := by
  induction ws generalizing s with
  | nil => simp
  | cons w ws ih =>
    rw [writes_cons, ih]
    cases w <;> simp [ConfigState.write, ConfigWrite.uplink?]

theorem ServerConfig.Started.writes (h : s.running.Started) (ws : List ConfigWrite) :
    (s.writes ws).running.Started := by
  have hstrings : (s.writes ws).running.strings = s.running.strings :=
    writes_frame (f := (·.running.strings)) (fun _ w => by cases w <;> rfl) s ws
  have hlogDir : (s.writes ws).running.logDir = s.running.logDir :=
    writes_frame (f := (·.running.logDir)) (fun _ w => by cases w <;> rfl) s ws
  refine ⟨?_, ?_, ?_⟩
  · rw [hstrings]
    exact h.rundir
  · rw [hstrings]
    exact h.serverid
  · rw [hlogDir]
    exact h.logDir

/-- A file that is complete is put in place, and nothing is left of it. -/
theorem Complete.putInPlace (h : Complete ws) (env : ConfigEnv) (hs : s.running.Started)
    (huplink : s.new.newUplinkConfig = []) :
    (Aprsc.putInPlace env (s.writes ws)).1 = 0 ∧
      (Aprsc.putInPlace env (s.writes ws)).2.new = .empty ∧
      (Aprsc.putInPlace env (s.writes ws)).2.running.Started := by
  have hstarted := hs.writes ws
  have hmixed : uplinksMixed (s.writes ws).new.newUplinkConfig = false := by
    rw [newUplinkConfig_writes, huplink]
    exact h.uplinks
  have hlisten := listenConfigNew_writes_ne h.listen s
  have hpasscode := isSome_strings_writes h.passcode s
  have hmyadmin := isSome_strings_writes h.myadmin s
  have hmyemail := isSome_strings_writes h.myemail s
  generalize s.writes ws = s' at *
  obtain ⟨hrundir, hserverid, hlogDir⟩ := hstarted
  have hfail : stringsFail env s' = false := by
    simp only [stringsFail, ← Option.not_isSome, hrundir, hserverid, hlogDir, hpasscode, hmyadmin,
      hmyemail]
    rfl
  refine ⟨?_, ?_, ?_, ?_, hlogDir⟩
  · simp [Aprsc.putInPlace, hfail, hmixed, hlisten]
  · simp [Aprsc.putInPlace, NewConfig.empty, ← Option.not_isSome, hserverid]
  · simp [Aprsc.putInPlace, putStrings, hrundir]
  · simp [Aprsc.putInPlace, putStrings, hserverid]

end

/-! ## Runs of reloads -/

inductive ConfigEvent where
  /-- A reload, with what is in the file when it is read. -/
  | reload (env : ConfigEnv) (file : Option (List Bytes))
  /-- The uplink thread wakes up. -/
  | uplinkThread

/-- The server goes on as long as no directive makes the process fault. -/
def configStep : Option ConfigState → ConfigEvent → Option ConfigState
  | none, _ => none
  | some s, .reload env file => (readConfig env file s).map (·.2)
  | some s, .uplinkThread => some (uplinkReconfigure s)

/-- A reload that fails leaves the configuration in use as it was, and every reload returns
and configures what it would if nothing were left of the earlier ones. -/
def AtomicReload : Option ConfigState → ConfigEvent → Prop
  | none, _ => False
  | some _, .uplinkThread => True
  | some s, .reload env file =>
      ∃ ret s' t, readConfig env file s = some (ret, s') ∧
        readConfig env file ⟨s.running, .empty⟩ = some (ret, t) ∧ s'.running = t.running ∧
        (ret ≠ 0 → s'.running = s.running)

/-- The reload fails. -/
def failedReload : Option ConfigState → ConfigEvent → Bool
  | some s, .reload env file => (readConfig env file s).any (·.1 ≠ 0)
  | _, _ => false

/-- The events of a run without the reloads that fail. -/
def withoutFailed : Option ConfigState → List ConfigEvent → List ConfigEvent
  | _, [] => []
  | s, e :: es =>
      if failedReload s e then withoutFailed (configStep s e) es
      else e :: withoutFailed (configStep s e) es

/-- The file sets every string and every list of callsigns that is left. -/
structure Covers (ws : List ConfigWrite) (new : NewConfig) : Prop where
  strings : ∀ k, new.strings k ≠ none → ∃ v, .string k v ∈ ws
  globs : ∀ k, new.globs k ≠ none → ∃ v, .globs k v ∈ ws

/-- No line faults. If there is an error in the file, the directives up to it write nothing
but strings, lists of callsigns, and numbers that are the same. If it is read to its end,
then it is complete and covers what is left. -/
def ReloadsWell : Option ConfigState → ConfigEvent → Prop
  | none, _ => False
  | some _, .uplinkThread => True
  | some _, .reload _ none => True
  | some s, .reload env (some lines) =>
      ∃ ret ws, fileWrites env s.running.listenConfig [] 1 lines = some (ret, ws) ∧
        (ret ≠ 0 → ∀ w ∈ ws, w.Inert s.running) ∧ (ret = 0 → Complete ws ∧ Covers ws s.new)

/-- A server that has only seen reloads without errors, beside one that has seen the others,
too. -/
structure Twin (s t : ConfigState) : Prop where
  running : s.running = t.running
  lists : s.new.NoLists
  clean : t.new = .empty
  started : s.running.Started

section
variable {env : ConfigEnv} {s t : ConfigState}

theorem Covers.agreeUpTo {ws : List ConfigWrite} (h : Covers ws s.new) (hst : Twin s t) :
    AgreeUpTo ws s t := by
  obtain ⟨hrunning, ⟨hlisten, huplink, hpeerip, hhttp⟩, hclean, -⟩ := hst
  refine ⟨hrunning, ?_, ?_, ?_, ?_, fun k => ?_, fun k => ?_⟩
  · rw [hlisten, hclean]
    rfl
  · rw [huplink, hclean]
    rfl
  · rw [hpeerip, hclean]
    rfl
  · rw [hhttp, hclean]
    rfl
  · by_cases hk : s.new.strings k = none
    · exact .inl (by rw [hk, hclean]; rfl)
    · exact .inr (h.strings k hk)
  · by_cases hk : s.new.globs k = none
    · exact .inl (by rw [hk, hclean]; rfl)
    · exact .inr (h.globs k hk)

theorem NewConfig.noLists_empty : NewConfig.empty.NoLists := ⟨rfl, rfl, rfl, rfl⟩

/-- What a reload does to the twins: it fails and only the first has seen it, or it succeeds
on both alike. -/
theorem Twin.readConfig (hst : Twin s t) {file : Option (List Bytes)}
    (h : ReloadsWell (some s) (.reload env file)) :
    (∃ s' t' ret, Aprsc.readConfig env file s = some (ret, s') ∧
        Aprsc.readConfig env file t = some (ret, t') ∧ ret ≠ 0 ∧ t'.running = t.running ∧
        Twin s' t) ∨
      ∃ s', Aprsc.readConfig env file s = some (0, s') ∧
        Aprsc.readConfig env file t = some (0, s') ∧ Twin s' s' := by
  have htlists : t.new.NoLists := hst.clean ▸ NewConfig.noLists_empty
  cases file with
  | none => exact .inl ⟨s, t, -1, rfl, rfl, by decide, rfl, hst⟩
  | some lines =>
    obtain ⟨ret, ws, hws, hfailed, hdone⟩ := h
    have hs : readLines env 1 s lines = some (ret, s.writes ws) := by
      rw [readLines_eq, hst.lists.peerip, hws]
      rfl
    have ht : readLines env 1 t lines = some (ret, t.writes ws) := by
      rw [readLines_eq, htlists.peerip, ← hst.running, hws]
      rfl
    by_cases hret : ret = 0
    · subst hret
      obtain ⟨hcomplete, hcovers⟩ := hdone rfl
      have hwrites := (hcovers.agreeUpTo hst).writes
      obtain ⟨hrc, hnew, hstarted⟩ := hcomplete.putInPlace env hst.started hst.lists.uplink
      have hput : putInPlace env (s.writes ws) = (0, (putInPlace env (s.writes ws)).2) :=
        Prod.ext hrc rfl
      refine .inr ⟨(putInPlace env (s.writes ws)).2, ?_, ?_, ?_⟩
      · rw [← hput]
        simp [Aprsc.readConfig, hs]
      · rw [← hput]
        simp [Aprsc.readConfig, ht, hwrites]
      · exact ⟨rfl, hnew ▸ NewConfig.noLists_empty, hnew, hstarted⟩
    · obtain ⟨hrunning, hlists⟩ := writes_of_inert (hfailed hret) hst.lists
      obtain ⟨htrunning, -⟩ := writes_of_inert (hst.running ▸ hfailed hret) htlists
      refine .inl ⟨s.writes ws, t.writes ws, -1, ?_, ?_, by decide, htrunning, ?_⟩
      · simp [Aprsc.readConfig, hs, hret]
      · simp [Aprsc.readConfig, ht, hret]
      · exact ⟨hrunning.trans hst.running, hlists, hst.clean, hrunning ▸ hst.started⟩

theorem Twin.uplinkReconfigure (hst : Twin s t) :
    Twin (Aprsc.uplinkReconfigure s) (Aprsc.uplinkReconfigure t) := by
  unfold Aprsc.uplinkReconfigure
  rw [← hst.running]
  split
  · exact ⟨rfl, hst.lists, hst.clean, hst.started.rundir, hst.started.serverid, hst.started.logDir⟩
  · exact hst

/-- One event: the twin of a server does not take part in reloads that fail. -/
theorem Twin.step (hst : Twin s t) {e : ConfigEvent} (h : ReloadsWell (some s) e) :
    AtomicReload (some s) e ∧ ∃ s', configStep (some s) e = some s' ∧
      if failedReload (some s) e then Twin s' t
      else ∃ t', configStep (some t) e = some t' ∧ Twin s' t' := by
  cases e with
  | uplinkThread => exact ⟨trivial, _, rfl, _, rfl, hst.uplinkReconfigure⟩
  | reload env file =>
    -- A server with nothing left is a twin, too.
    have hclean : Twin s ⟨s.running, .empty⟩ := ⟨rfl, hst.lists, rfl, hst.started⟩
    constructor
    · obtain ⟨s', t', ret, hs, ht, -, htrunning, hst'⟩ | ⟨s', hs, ht, -⟩ := hclean.readConfig h
      · exact ⟨ret, s', t', hs, ht, hst'.running.trans htrunning.symm, fun _ => hst'.running⟩
      · exact ⟨0, s', s', hs, ht, rfl, fun hne => absurd rfl hne⟩
    · obtain ⟨s', t', ret, hs, -, hret, -, hst'⟩ | ⟨s', hs, ht, hst'⟩ := hst.readConfig h
      · refine ⟨s', by rw [configStep, hs]; rfl, ?_⟩
        simpa [failedReload, hs, hret] using hst'
      · refine ⟨s', by rw [configStep, hs]; rfl, ?_⟩
        simpa [failedReload, hs, configStep, ht] using hst'

end

/-- In a run of reloads, each of which is well in the sense of `ReloadsWell`, those that
fail change nothing, each one does what it would do without the earlier ones that failed,
and the server is configured at the end as it would be without those. -/
theorem reloads_atomic {s : ConfigState} (hstarted : s.running.Started) (hclean : s.new = .empty)
    {events : List ConfigEvent} (h : Meets configStep ReloadsWell (some s) events) :
    Meets configStep AtomicReload (some s) events ∧
      (run configStep (some s) events).map (·.running) =
        (run configStep (some s) (withoutFailed (some s) events)).map (·.running) := by
  have hrun : ∀ t, Twin s t → Meets configStep AtomicReload (some s) events ∧
      (run configStep (some s) events).map (·.running) =
        (run configStep (some t) (withoutFailed (some s) events)).map (·.running) := by
    clear hstarted hclean
    induction events generalizing s with
    | nil =>
      intro t hst
      exact ⟨trivial, congrArg some hst.running⟩
    | cons e events ih =>
      intro t hst
      obtain ⟨hatomic, s', hs', hnext⟩ := hst.step h.1
      have hrest := h.2
      rw [hs'] at hrest
      rw [withoutFailed, run_cons, hs']
      split at hnext
      · rename_i hfailed
        obtain ⟨hmeets, heq⟩ := ih hrest t hnext
        refine ⟨⟨hatomic, hs'.symm ▸ hmeets⟩, ?_⟩
        rw [if_pos hfailed]
        exact heq
      · rename_i hfailed
        obtain ⟨t', ht', hst'⟩ := hnext
        obtain ⟨hmeets, heq⟩ := ih hrest t' hst'
        refine ⟨⟨hatomic, hs'.symm ▸ hmeets⟩, ?_⟩
        rw [if_neg hfailed, run_cons, ht']
        exact heq
  exact hrun s ⟨rfl, hclean ▸ NewConfig.noLists_empty, hclean, hstarted⟩

private def reloadEnv : ConfigEnv where
  useSsl := true
  useSctp := false
  filter :=
    { parseGeometry := fun _ => true
      parseRange := fun _ => true
      inRange := fun _ _ => false
      filterEntrycallLookup := fun _ => false
      filterWxLookup := fun _ => false }
  getaddrinfo _ _ port := some [(.inet 0, (atoi port).toNat)]
  aclLoad _ := none
  random n := n
  isDirectory _ := true

private def startedState : ConfigState where
  running :=
    { vars := fun k => if k = .maxclients then 500 else 0
      uplinkBindV4 := none
      uplinkBindV6 := none
      strings := fun _ => some (ascii "N0CALL")
      globs := fun _ => none
      logDir := some (ascii "logs")
      listenConfig := []
      uplinkConfig := []
      uplinkConfigInstall := []
      uplinkConfigUpdated := false
      peeripConfig := []
      httpConfig := [] }
  new := .empty

private def reloadEvents : List ConfigEvent :=
  [.reload reloadEnv (some [ascii "MaxClients 500", ascii "PassCode 1", ascii "MyAdmin"]),
   .reload reloadEnv (some [ascii "MaxClients 100", ascii "PassCode 2", ascii "MyAdmin a",
     ascii "MyEmail b", ascii "Listen c fullfeed tcp 0.0.0.0 10152"]),
   .uplinkThread]

private def correctedWrites : List ConfigWrite :=
  [.var .maxclients 100, .string .passcode (ascii "2"), .string .myadmin (ascii "a"),
   .string .myemail (ascii "b"),
   .listen
    { id := 5, proto := ascii "tcp", name := ascii "c", host := ascii "0.0.0.0"
      portnum := 10152, clientsMax := 200, corepeer := false, hidden := false
      tls := fun _ => none, ai := [(.inet 0, 10152)], acl := none, filters := []
      clientFlags := clflagsInport ||| clflagsFullfeed }]

/-- A file with an error after the limit and the passcode, and the corrected file. -/
theorem reloads_atomic_corrected :
    Meets configStep AtomicReload (some startedState) reloadEvents ∧
      (run configStep (some startedState) reloadEvents).map (·.running) =
        (run configStep (some startedState)
          (withoutFailed (some startedState) reloadEvents)).map (·.running) := by
  refine reloads_atomic ⟨rfl, rfl, rfl⟩ rfl ⟨⟨2, [.var .maxclients 500,
    .string .passcode (ascii "1")], rfl, fun _ => ?_, fun hret => by cases hret⟩,
    ⟨0, correctedWrites, rfl, fun hret => absurd rfl hret, fun _ => ⟨?_, ?_, ?_⟩⟩, trivial, trivial⟩
  · intro w hw
    obtain rfl | rfl : w = .var .maxclients 500 ∨ w = .string .passcode (ascii "1") := by
      simpa using hw
    · exact (rfl : (500 : Int) = 500)
    · trivial
  · refine ⟨?_, ?_, ?_, ?_, rfl⟩ <;> simp [correctedWrites]
  · intro k hk
    cases k with
    | passcode => exact ⟨ascii "2", by simp [correctedWrites]⟩
    | _ => exact absurd rfl hk
  · exact fun k hk => absurd rfl hk

/-- The limit on clients is lowered by a file with an error in its second line. -/
theorem failed_reload_changes_limit :
    ¬∀ (s : ConfigState) (env : ConfigEnv) (file : Option (List Bytes)),
      s.running.Started → s.new = .empty → AtomicReload (some s) (.reload env file) := by
  intro h
  obtain ⟨ret, s', t, hs, -, -, hsame⟩ := h startedState reloadEnv
    (some [ascii "MaxClients 100", ascii "NoSuchDirective"]) ⟨rfl, rfl, rfl⟩ rfl
  cases hs
  have hvars := congrArg (·.vars .maxclients) (hsame (by decide))
  revert hvars
  decide

end Aprsc
