-- SUMMARY: Every regular uplink gets its turn, and which reloads the uplink thread never takes.
import Aprsc.Uplink.Alone

namespace Aprsc

namespace Uplinks

section Runs

open Runs

variable {s : State}

/-! ## Every uplink gets its turn -/

/-- Of as many picks in a row as there are regular uplinks, each uplink gets one. While the
thread is told to end, a last pick may come from a part of the list. -/
def EveryTurn (s : State) : Prop :=
  s.uplinkShuttingDown = false → ∀ a, a + s.uplinkConfig.length ≤ s.picked.length →
    ∀ i < s.uplinkConfig.length, ∃ k, a ≤ k ∧ k < a + s.uplinkConfig.length ∧
      s.picked[k]? = some i

/-- The picks go back from the last one, around the list. -/
structure Turns (s : State) : Prop where
  around : s.uplinkShuttingDown = false → ∀ (k p : Nat), s.picked[k]? = some p →
    p < s.uplinkConfig.length ∧ 0 ≤ s.nextUplink ∧ s.nextUplink < s.uplinkConfig.length ∧
      ((p + k : Nat) : Int) % s.uplinkConfig.length = s.nextUplink
  stopped : s.thread = none → s.picked = []
  low : -1 ≤ s.nextUplink

theorem Turns.everyTurn (h : Turns s) : EveryTurn s := by
  intro hno a ha i hi
  set n := s.uplinkConfig.length with hn
  -- the one place of the window where the count fits
  obtain ⟨k, hak, hkn, hk⟩ : ∃ k, a ≤ k ∧ k < a + n ∧ ((i + k : Nat) : Int) % n = s.nextUplink := by
    obtain ⟨p, hp⟩ : ∃ p, s.picked[a]? = some p := ⟨_, List.getElem?_eq_getElem (by omega)⟩
    obtain ⟨hpn, h0, hlt, hpa⟩ := h.around hno a p hp
    -- from there the count goes up with the place
    refine ⟨a + (p + n - i) % n, by omega, ?_, ?_⟩
    · have := Nat.mod_lt (p + n - i) (by omega : 0 < n)
      omega
    · rw [← hpa]
      have hmod : (i + (a + (p + n - i) % n)) % n = (p + a) % n := by
        rw [← Nat.add_assoc, Nat.add_mod_mod]
        have : i + a + (p + n - i) = p + a + n := by omega
        rw [this, Nat.add_mod_right]
      exact_mod_cast hmod
  obtain ⟨p, hp⟩ : ∃ p, s.picked[k]? = some p := ⟨_, List.getElem?_eq_getElem (by omega)⟩
  obtain ⟨hpn, -, -, hpk⟩ := h.around hno k p hp
  refine ⟨k, hak, hkn, ?_⟩
  have hmod : (p + k) % n = (i + k) % n := by
    have := hpk.trans hk.symm
    exact_mod_cast this
  have hpi : p = i := by
    have := Nat.ModEq.add_right_cancel' k hmod
    rwa [Nat.ModEq, Nat.mod_eq_of_lt hpn, Nat.mod_eq_of_lt hi] at this
  rw [hp, hpi]

/-- Nothing has been picked. -/
structure SameTurn (s s' : State) : Prop where
  picked : s'.picked = s.picked
  next : s'.nextUplink = s.nextUplink
  length : s'.uplinkConfig.length = s.uplinkConfig.length
  shutting : s'.uplinkShuttingDown = s.uplinkShuttingDown
  running : s'.thread ≠ none

theorem Turns.of_same {s' : State} (h : Turns s) (hsame : SameTurn s s') : Turns s' := by
  refine ⟨?_, fun hnone => absurd hnone hsame.running, hsame.next ▸ h.low⟩
  rw [hsame.picked, hsame.next, hsame.length, hsame.shutting]
  exact h.around

theorem Turns.of_empty (hpicked : s.picked = []) (hlow : -1 ≤ s.nextUplink) : Turns s := by
  refine ⟨fun _ k p hp => ?_, fun _ => hpicked, hlow⟩
  rw [hpicked] at hp
  cases hp

theorem sameTurn_makeUplink (hrun : s.thread ≠ none) (env : ConfigEnv) (ans : Answers) (i : Nat)
    (stage : Stage) (ret : Return) : SameTurn s (s.makeUplink env ans i stage ret) := by
  have hret : ∀ s : State, SameTurn s (s.goto ret.pc) := fun s => ⟨rfl, rfl, rfl, rfl, by simp [State.goto]⟩
  rw [State.makeUplink]
  split
  · exact hret s
  · cases stage with
    | checks =>
      dsimp only
      split <;> exact ⟨rfl, rfl, List.length_modify .., rfl, by simp [State.goto]⟩
    | connecting =>
      dsimp only
      split
      · exact ⟨rfl, rfl, List.length_modify .., rfl, by simp [State.goto]⟩
      · split <;> exact ⟨rfl, rfl, List.length_modify .., rfl, by simp [State.goto]⟩
    | allocated c =>
      dsimp only
      split
      · exact ⟨rfl, rfl, rfl, rfl, by simp [State.goto]⟩
      · split
        · exact ⟨rfl, rfl, rfl, rfl, hrun⟩
        · exact ⟨rfl, rfl, rfl, rfl, by simp [State.goto]⟩
    | listed c => exact ⟨rfl, rfl, List.length_modify .., rfl, by simp [State.goto]⟩
    | connected c =>
      dsimp only
      split
      · exact ⟨rfl, rfl, rfl, rfl, by simp [State.goto]⟩
      · exact ⟨rfl, rfl, rfl, rfl, by simp⟩
    | freed uc => exact ⟨rfl, rfl, List.length_modify .., rfl, by simp⟩

theorem sameTurn_scanUplink (i has avail : Nat) : SameTurn s (s.scanUplink i has avail) := by
  rw [State.scanUplink]
  split
  · exact ⟨rfl, rfl, rfl, rfl, by simp [State.goto]⟩
  · dsimp only
    split
    · split <;> exact ⟨rfl, rfl, rfl, rfl, by simp [State.goto]⟩
    · exact ⟨rfl, rfl, rfl, rfl, by simp [State.goto]⟩

/-- A pick is one behind the last. -/
theorem Turns.pickUplink {has avail : Nat} (h : Turns s) (hinv : Inv s)
    (ht : s.thread = some (.pick has avail)) : Turns (s.pickUplink has avail) := by
  by_cases hno : avail ≠ 0 ∧ has = 0
  · obtain ⟨-, hle, hall, -, heq⟩ := hinv.pickUplink_eq ht hno
    rw [heq]
    have hlow := h.low
    have hnext : 0 ≤ nextPick s.nextUplink avail := by
      rw [nextPick]
      split <;> omega
    have hlt := nextPick_lt s.nextUplink hno.1
    have hltInt : nextPick s.nextUplink avail < avail := by omega
    refine ⟨fun hsh k p hp => ?_, fun hnone => absurd hnone (by simp),
      le_trans (by decide : (-1 : Int) ≤ 0) hnext⟩
    obtain rfl := hall hsh
    change p < s.uplinkConfig.length ∧ 0 ≤ nextPick s.nextUplink s.uplinkConfig.length ∧
      nextPick s.nextUplink s.uplinkConfig.length < s.uplinkConfig.length ∧
        ((p + k : Nat) : Int) % s.uplinkConfig.length =
          nextPick s.nextUplink s.uplinkConfig.length
    cases k with
    | zero =>
      obtain rfl := Option.some.inj hp
      refine ⟨hlt, hnext, hltInt, ?_⟩
      rw [Nat.add_zero, Int.toNat_of_nonneg hnext]
      exact Int.emod_eq_of_lt hnext hltInt
    | succ k =>
      obtain ⟨hp, h0, hlast, hpk⟩ := h.around hsh k p hp
      refine ⟨hp, hnext, hltInt, ?_⟩
      rw [← Nat.add_assoc, Int.natCast_add, ← Int.emod_add_emod, hpk, nextPick]
      split
      · have : s.nextUplink + 1 = s.uplinkConfig.length := by omega
        simp [this]
      · exact Int.emod_eq_of_lt (by omega) (by omega)
  · rw [State.pickUplink, if_neg hno]
    exact h.of_same ⟨rfl, rfl, rfl, rfl, by simp [State.goto]⟩

theorem Turns.uplinkThread {pc : Pc} (h : Turns s) (hinv : Inv s) (ht : s.thread = some pc)
    (env : ConfigEnv) (ans : Answers) : Turns (s.uplinkThread env ans pc) := by
  cases pc with
  | top =>
    rw [State.uplinkThread]
    split
    · exact h.of_same ⟨rfl, rfl, rfl, rfl, by simp [State.goto]⟩
    · split <;> exact h.of_same ⟨rfl, rfl, rfl, rfl, by simp [State.goto]⟩
  | close =>
    rw [State.uplinkThread]
    split
    · exact h
    · exact h.of_same ⟨rfl, rfl, rfl, rfl, by simp [State.goto]⟩
  | free => exact h.of_same ⟨rfl, rfl, rfl, rfl, by simp [State.uplinkThread, State.goto]⟩
  | freeing => exact Turns.of_empty rfl h.low
  | take => exact Turns.of_empty rfl h.low
  | wipe => exact h.of_same ⟨rfl, rfl, rfl, rfl, by simp [State.uplinkThread, State.goto]⟩
  | clear => exact h.of_same ⟨rfl, rfl, rfl, rfl, by simp [State.uplinkThread, State.goto]⟩
  | check =>
    rw [State.uplinkThread]
    split
    · exact h.of_same ⟨rfl, rfl, rfl, rfl, by simp [State.goto]⟩
    · split <;> exact h.of_same ⟨rfl, rfl, rfl, rfl, by simp [State.goto]⟩
  | scan i has avail => exact h.of_same (sameTurn_scanUplink i has avail)
  | scanned i has avail =>
    rw [State.uplinkThread]
    split <;> exact h.of_same ⟨rfl, rfl, rfl, rfl, by simp [State.goto]⟩
  | pick has avail => exact h.pickUplink hinv ht
  | make i stage ret => exact h.of_same (sameTurn_makeUplink (by simp [ht]) env ans i stage ret)
  | alarm has avail =>
    rw [State.uplinkThread]
    split
    · exact h.of_same ⟨rfl, rfl, rfl, rfl, by simp [State.goto]⟩
    · split <;> exact h.of_same ⟨rfl, rfl, rfl, rfl, by simp [State.goto]⟩
  | sleep => exact h.of_same ⟨rfl, rfl, rfl, rfl, by simp [State.uplinkThread, State.goto]⟩
  | leave =>
    rw [State.uplinkThread]
    split
    · exact h
    · exact h.of_same ⟨rfl, rfl, rfl, rfl, by simp [State.goto]⟩
  | done => exact h

theorem Turns.step (h : Turns s) (hinv : Inv s) (env : ConfigEnv) (e : State.Event) :
    Turns (s.step env e) := by
  cases e with
  | start =>
    rw [State.step]
    split
    · exact h
    · next hnone => exact Turns.of_empty (h.stopped (by simpa using hnone)) (le_refl _)
  | thread ans =>
    rw [State.step]
    cases ht : s.thread with
    | none => exact h
    | some pc => exact h.uplinkThread hinv ht env _
  | close c =>
    rw [State.step]
    split
    · exact ⟨h.around, h.stopped, h.low⟩
    · exact h
  | lock c =>
    rw [State.step]
    split
    · exact ⟨h.around, h.stopped, h.low⟩
    · exact h
  | unlock =>
    rw [State.step]
    split
    · exact h
    · next c _ =>
      refine ⟨?_, h.stopped, h.low⟩
      have hlen : (s.uplinkClose c).uplinkConfig.length = s.uplinkConfig.length := List.length_map ..
      rw [hlen]
      exact h.around
  | free c =>
    rw [State.step]
    split
    · exact ⟨h.around, h.stopped, h.low⟩
    · exact h
  | reload ups =>
    rw [State.step, State.installUplinks]
    split
    · exact h
    · split
      · exact ⟨h.around, h.stopped, h.low⟩
      · exact h
  | flag =>
    rw [State.step]
    split
    · exact ⟨h.around, h.stopped, h.low⟩
    · exact h
  | stop =>
    rw [State.step]
    split
    · exact ⟨fun hsh => absurd hsh (by simp), h.stopped, h.low⟩
    · exact h
  | join =>
    rw [State.step]
    split
    · exact Turns.of_empty rfl h.low
    · exact h

/-- In every run, whatever goes down and whenever the list is reloaded: of as many picks in a
row as the list has regular uplinks, each uplink gets one. -/
theorem everyTurn_of_run (env : ConfigEnv) (es : List State.Event) :
    Always (fun s e => s.step env e) EveryTurn init es := by
  have hinit : Inv init ∧ Turns init := ⟨inv_init, Turns.of_empty rfl (le_refl _)⟩
  have hall := always_of_step (I := fun s => Inv s ∧ Turns s)
    (fun _ e h => ⟨h.1.step env e, h.2.step h.1 env e⟩) hinit es
  exact hall.imp fun _ h => h.2.everyTurn

/-! ## Reloads that are lost -/

/-- The thread is about to take the list that waits. -/
def Pc.takes : Pc → Bool
  | .close | .free | .freeing | .take => true
  | _ => false

/-- The thread is putting a list in place. -/
def Pc.swaps (pc : Pc) : Bool := pc.takes || pc = .wipe || pc = .clear

/-- The list of the thread is this one. -/
def Taken (s : State) (ups : List UplinkConfigT) : Prop := s.uplinkConfig.map (·.conf) = ups

/-- A list that waits will be taken, or has just been: the thread is about to, or it is told
that it must. -/
def Coming (s : State) : Prop :=
  s.uplinkConfigInstall = [] ∨ s.uplinkReconfiguring = true ∨
    (∃ pc ∈ s.thread, pc.takes = true) ∨
    (s.thread = some .wipe ∧ Taken s s.uplinkConfigInstall) ∨
    (s.uplinkConfigUpdated = true ∧ s.thread ≠ some .wipe ∧ s.thread ≠ some .clear) ∨
    (s.storing.isSome = true ∧ s.thread ≠ some .wipe)

/-- Nothing is lost: a list that waits will be taken, and a flag that is yet to be set finds the
list it is for, or is cleared as the thread has taken that list. -/
structure Expected (s : State) : Prop where
  coming : Coming s
  kept : ∀ ups ∈ s.storing,
    s.uplinkConfigInstall = ups ∨ s.thread = some .clear ∧ Taken s ups

/-- How the two stores of a reload, of the list and then of the flag, may come between those of
the thread, which takes the list, wipes it and then clears the flag. -/
structure NotBetween (s : State) (e : State.Event) : Prop where
  /-- No list is stored between the taking and the wiping. -/
  store : ∀ ups, e = .reload ups → s.storing = none → s.thread = some .wipe →
    s.uplinkConfigInstall = [] → uplinksAllowed ups = []
  /-- A flag is not set between the wiping and the clearing, if the list it is for waits. -/
  flag : e = .flag → s.storing.isSome = true → s.thread = some .clear → s.uplinkConfigInstall = []
  /-- The flag is not cleared, if the list has been taken and its flag is not set yet. -/
  clear : ∀ ans, e = .thread ans → s.thread = some .clear → ∀ ups ∈ s.storing,
    s.uplinkConfigInstall = ups

/-- While the thread puts a list in place, it has seen that it must, and what it has taken is
what waits. -/
structure Swapping (s : State) : Prop where
  seen : ∀ pc ∈ s.thread, pc.swaps = true → s.uplinkReconfiguring = false
  taken : s.thread = some .wipe → s.uplinkConfigInstall = [] → s.uplinkConfig = []

/-- The flags, the list that waits and the one that the thread has are as before. -/
structure SameFlags (s s' : State) : Prop where
  install : s'.uplinkConfigInstall = s.uplinkConfigInstall
  updated : s'.uplinkConfigUpdated = s.uplinkConfigUpdated
  reconfiguring : s'.uplinkReconfiguring = s.uplinkReconfiguring
  storing : s'.storing = s.storing
  conf : SameConf s.uplinkConfig s'.uplinkConfig

theorem SameFlags.refl (s : State) : SameFlags s s := ⟨rfl, rfl, rfl, rfl, rfl⟩

/-- The thread stays where it is, or it was and is where it puts no list in place. -/
def SameSwap (pc pc' : Option Pc) : Prop :=
  pc' = pc ∨ (∀ x ∈ pc, x.swaps = false) ∧ ∀ x ∈ pc', x.swaps = false

theorem SameSwap.wipe {pc pc' : Option Pc} (h : SameSwap pc pc') :
    pc' = some .wipe ↔ pc = some .wipe := by
  obtain rfl | ⟨hno, hno'⟩ := h
  · rfl
  · constructor
    · rintro rfl
      cases hno' _ rfl
    · rintro rfl
      cases hno _ rfl

theorem SameSwap.clear {pc pc' : Option Pc} (h : SameSwap pc pc') :
    pc' = some .clear ↔ pc = some .clear := by
  obtain rfl | ⟨hno, hno'⟩ := h
  · rfl
  · constructor
    · rintro rfl
      cases hno' _ rfl
    · rintro rfl
      cases hno _ rfl

theorem SameSwap.takes {pc pc' : Option Pc} (h : SameSwap pc pc') (ht : ∃ x ∈ pc, x.takes = true) :
    ∃ x ∈ pc', x.takes = true := by
  obtain rfl | ⟨hno, -⟩ := h
  · exact ht
  · obtain ⟨x, hx, hx'⟩ := ht
    have := hno x hx
    simp [Pc.swaps, hx'] at this

theorem SameFlags.expected {s' : State} (h : SameFlags s s') (hswap : SameSwap s.thread s'.thread)
    (he : Expected s) : Expected s' := by
  have htaken : ∀ ups, Taken s' ups ↔ Taken s ups := fun ups => by
    rw [Taken, Taken, show s'.uplinkConfig.map _ = _ from h.conf]
  constructor
  · rw [Coming, h.install, h.updated, h.reconfiguring, h.storing, hswap.wipe, htaken]
    refine he.coming.imp_right <| .imp_right <| .imp hswap.takes <| .imp_right <| .imp ?_ ?_
    · rintro ⟨hupdated, hwipe, hclear⟩
      exact ⟨hupdated, fun hw => hwipe (hswap.wipe.mp hw), fun hc => hclear (hswap.clear.mp hc)⟩
    · exact fun hst => ⟨hst.1, fun hw => hst.2 (hswap.wipe.mp hw)⟩
  · rw [h.storing, h.install]
    intro ups hups
    rw [hswap.clear, htaken]
    exact he.kept ups hups

theorem SameFlags.swapping {s' : State} (h : SameFlags s s') (hswap : SameSwap s.thread s'.thread)
    (hs : Swapping s) : Swapping s' := by
  constructor
  · intro pc hpc hswaps
    rw [h.reconfiguring]
    obtain hsame | ⟨-, hno⟩ := hswap
    · exact hs.seen pc (hsame ▸ hpc) hswaps
    · rw [hno pc hpc] at hswaps
      cases hswaps
  · intro hwipe hempty
    have hnil := hs.taken (hswap.wipe.mp hwipe) (h.install ▸ hempty)
    exact List.length_eq_zero_iff.mp (by rw [h.conf.length, hnil]; rfl)

/-- A call of `make_uplink` has nothing to do with reloads. -/
theorem sameFlags_makeUplink (env : ConfigEnv) (ans : Answers) (i : Nat) (stage : Stage)
    (ret : Return) : SameFlags s (s.makeUplink env ans i stage ret) := by
  rw [State.makeUplink]
  split
  · exact ⟨rfl, rfl, rfl, rfl, rfl⟩
  · next l hl =>
    have hchecks : ∀ l₁, s.uplinkConfig[i]? = some l₁ → (l.checks env ans).2.conf = l₁.conf := by
      intro l₁ hl₁
      obtain rfl := Option.some.inj (hl.symm.trans hl₁)
      exact (checks_spec env ans l).1
    cases stage with
    | checks =>
      dsimp only
      split <;> exact ⟨rfl, rfl, rfl, rfl, sameConf_modify hchecks⟩
    | connecting =>
      dsimp only
      split
      · exact ⟨rfl, rfl, rfl, rfl, sameConf_modify fun _ _ => rfl⟩
      · split <;> exact ⟨rfl, rfl, rfl, rfl, sameConf_modify fun _ _ => rfl⟩
    | allocated c =>
      dsimp only
      split
      · exact ⟨rfl, rfl, rfl, rfl, rfl⟩
      · split <;> exact ⟨rfl, rfl, rfl, rfl, rfl⟩
    | listed c => exact ⟨rfl, rfl, rfl, rfl, sameConf_modify fun _ _ => rfl⟩
    | connected c =>
      dsimp only
      split <;> exact ⟨rfl, rfl, rfl, rfl, rfl⟩
    | freed uc => exact ⟨rfl, rfl, rfl, rfl, sameConf_modify fun _ _ => rfl⟩

theorem makeUplink_running {stage : Stage} {i : Nat} {ret : Return}
    (ht : s.thread = some (.make i stage ret)) (env : ConfigEnv) (ans : Answers) :
    (s.makeUplink env ans i stage ret).thread = some ret.pc ∨
      ∃ stage', (s.makeUplink env ans i stage ret).thread = some (.make i stage' ret) := by
  rw [State.makeUplink]
  split
  · exact .inl rfl
  · cases stage with
    | checks =>
      dsimp only
      split
      · exact .inr ⟨_, rfl⟩
      · exact .inl rfl
    | connecting =>
      dsimp only
      split
      · exact .inl rfl
      · split
        · exact .inl rfl
        · exact .inr ⟨_, rfl⟩
    | allocated c =>
      dsimp only
      split
      · exact .inr ⟨_, rfl⟩
      · split
        · exact .inr ⟨_, ht⟩
        · exact .inr ⟨_, rfl⟩
    | listed c => exact .inr ⟨_, rfl⟩
    | connected c =>
      dsimp only
      split
      · exact .inr ⟨_, rfl⟩
      · exact .inl rfl
    | freed uc => exact .inl rfl

/-- What a step of the thread does to the flags, when it puts no list in place: mostly nothing. -/
theorem uplinkThread_cases {pc : Pc} (ht : s.thread = some pc) (hpc : pc.swaps = false)
    (env : ConfigEnv) (ans : Answers) :
    (SameFlags s (s.uplinkThread env ans pc) ∧
      ∀ x ∈ (s.uplinkThread env ans pc).thread, x.swaps = false) ∨
    ((s.uplinkReconfiguring || s.uplinkConfigUpdated) = true ∧
      s.uplinkThread env ans pc = { s with uplinkReconfiguring := false }.goto .close) ∨
    (s.uplinkConfigUpdated = true ∧
      s.uplinkThread env ans pc = { s with uplinkReconfiguring := true }.goto .top) := by
  have hgoto : ∀ pc' : Pc, pc'.swaps = false → ∀ x ∈ (s.goto pc').thread, x.swaps = false := by
    rintro pc' hpc' x ⟨⟩
    exact hpc'
  cases pc with
  | top =>
    rw [State.uplinkThread]
    split
    · exact .inl ⟨⟨rfl, rfl, rfl, rfl, rfl⟩, hgoto _ rfl⟩
    · split
      · next hflag => exact .inr (.inl ⟨hflag, rfl⟩)
      · exact .inl ⟨⟨rfl, rfl, rfl, rfl, rfl⟩, hgoto _ rfl⟩
  | close => cases hpc
  | free => cases hpc
  | freeing => cases hpc
  | take => cases hpc
  | wipe => cases hpc
  | clear => cases hpc
  | check =>
    rw [State.uplinkThread]
    split
    · exact .inl ⟨⟨rfl, rfl, rfl, rfl, rfl⟩, hgoto _ rfl⟩
    · split
      · next hflag => exact .inr (.inr ⟨hflag, rfl⟩)
      · exact .inl ⟨⟨rfl, rfl, rfl, rfl, rfl⟩, hgoto _ rfl⟩
  | scan i has avail =>
    left
    rw [State.uplinkThread, State.scanUplink]
    split
    · exact ⟨⟨rfl, rfl, rfl, rfl, rfl⟩, hgoto _ rfl⟩
    · dsimp only
      split
      · split <;> exact ⟨⟨rfl, rfl, rfl, rfl, rfl⟩, hgoto _ rfl⟩
      · exact ⟨⟨rfl, rfl, rfl, rfl, rfl⟩, hgoto _ rfl⟩
  | scanned i has avail =>
    left
    rw [State.uplinkThread]
    split <;> exact ⟨⟨rfl, rfl, rfl, rfl, rfl⟩, hgoto _ rfl⟩
  | pick has avail =>
    left
    rw [State.uplinkThread, State.pickUplink]
    split
    · dsimp only
      split <;> exact ⟨⟨rfl, rfl, rfl, rfl, rfl⟩, hgoto _ rfl⟩
    · exact ⟨⟨rfl, rfl, rfl, rfl, rfl⟩, hgoto _ rfl⟩
  | make i stage ret =>
    refine .inl ⟨sameFlags_makeUplink env ans i stage ret, ?_⟩
    rw [State.uplinkThread]
    intro x hx
    obtain hr | ⟨stage', hr⟩ := makeUplink_running ht env ans
    · rw [hr] at hx
      obtain rfl := Option.some.inj hx
      cases ret <;> rfl
    · rw [hr] at hx
      obtain rfl := Option.some.inj hx
      rfl
  | alarm has avail =>
    have hend : (if s.uplinkShuttingDown = true then Pc.leave else Pc.sleep).swaps = false := by
      split <;> rfl
    left
    rw [State.uplinkThread]
    split
    · exact ⟨⟨rfl, rfl, rfl, rfl, rfl⟩, hgoto _ hend⟩
    · split <;> exact ⟨⟨rfl, rfl, rfl, rfl, rfl⟩, hgoto _ hend⟩
  | sleep => exact .inl ⟨⟨rfl, rfl, rfl, rfl, rfl⟩, hgoto _ rfl⟩
  | leave =>
    left
    rw [State.uplinkThread]
    split
    · refine ⟨.refl s, fun x hx => ?_⟩
      obtain rfl := Option.some.inj (ht.symm.trans hx)
      rfl
    · exact ⟨⟨rfl, rfl, rfl, rfl, rfl⟩, hgoto _ rfl⟩
  | done =>
    refine .inl ⟨.refl s, fun x hx => ?_⟩
    obtain rfl := Option.some.inj (ht.symm.trans hx)
    rfl

theorem sameSwap_of_not {pc : Pc} {s' : State} (ht : s.thread = some pc) (hpc : pc.swaps = false)
    (hno : ∀ x ∈ s'.thread, x.swaps = false) : SameSwap s.thread s'.thread := by
  refine .inr ⟨fun x hx => ?_, hno⟩
  obtain rfl := Option.some.inj (ht.symm.trans hx)
  exact hpc

/-- What is not lost is at the wiping no other list than the one that has been taken. -/
theorem Expected.wiped (hs : Swapping s) (h : Expected s) (ht : s.thread = some .wipe) :
    s.uplinkConfigInstall = [] ∨ Taken s s.uplinkConfigInstall := by
  obtain hc | hc | ⟨pc, hpc, hc⟩ | hc | hc | hc := h.coming
  · exact .inl hc
  · rw [hs.seen _ ht rfl] at hc
    cases hc
  · obtain rfl := Option.some.inj (ht.symm.trans hpc)
    cases hc
  · exact .inr hc.2
  · exact absurd ht hc.2.1
  · exact absurd ht hc.2

/-- What is not lost at the clearing waits for a flag that is yet to be set. -/
theorem Expected.cleared (hs : Swapping s) (h : Expected s) (ht : s.thread = some .clear) :
    s.uplinkConfigInstall = [] ∨ s.storing.isSome = true := by
  obtain hc | hc | ⟨pc, hpc, hc⟩ | hc | hc | hc := h.coming
  · exact .inl hc
  · rw [hs.seen _ ht rfl] at hc
    cases hc
  · obtain rfl := Option.some.inj (ht.symm.trans hpc)
    cases hc
  · rw [ht] at hc
    cases hc.1
  · exact absurd ht hc.2.2
  · exact .inr hc.1

/-- A step of the thread loses nothing, unless it clears a flag before it is set. -/
theorem expected_uplinkThread {pc : Pc} (hs : Swapping s) (ht : s.thread = some pc)
    (h : Expected s) (hpc : pc ≠ .clear) (env : ConfigEnv) (ans : Answers) :
    Expected (s.uplinkThread env ans pc) := by
  have hkept : pc ≠ .clear → ∀ ups ∈ s.storing, s.uplinkConfigInstall = ups := by
    intro hne ups hups
    refine (h.kept ups hups).resolve_right fun hc => hne ?_
    exact Option.some.inj (ht.symm.trans hc.1)
  have hcoming : ∀ {s' : State} {pc' : Pc}, s'.thread = some pc' → pc'.takes = true → Coming s' :=
    fun ht' htakes => .inr (.inr (.inl ⟨_, ht', htakes⟩))
  cases hswaps : pc.swaps with
  | false =>
    obtain ⟨hsame, hno⟩ | ⟨-, heq⟩ | ⟨-, heq⟩ := uplinkThread_cases ht hswaps env ans
    · exact hsame.expected (sameSwap_of_not ht hswaps hno) h
    · rw [heq]
      exact ⟨hcoming rfl rfl, fun ups hups => .inl (hkept hpc ups hups)⟩
    · rw [heq]
      exact ⟨.inr (.inl rfl), fun ups hups => .inl (hkept hpc ups hups)⟩
  | true =>
    cases pc with
    | close =>
      rw [State.uplinkThread]
      split
      · exact h
      · exact ⟨hcoming rfl rfl, fun ups hups => .inl (hkept hpc ups hups)⟩
    | free => exact ⟨hcoming rfl rfl, fun ups hups => .inl (hkept hpc ups hups)⟩
    | freeing => exact ⟨hcoming rfl rfl, fun ups hups => .inl (hkept hpc ups hups)⟩
    | take =>
      refine ⟨.inr (.inr (.inr (.inl ⟨rfl, ?_⟩))), fun ups hups => .inl (hkept hpc ups hups)⟩
      change (s.uplinkConfigInstall.map Uplink.ofConfig).map (·.conf) = s.uplinkConfigInstall
      rw [List.map_map]
      exact List.map_id _
    | wipe =>
      refine ⟨.inl rfl, fun ups hups => ?_⟩
      obtain rfl := hkept hpc ups hups
      exact (h.wiped hs ht).imp Eq.symm fun htaken => ⟨rfl, htaken⟩
    | clear => exact absurd rfl hpc
    | top => cases hswaps
    | check => cases hswaps
    | scan i has avail => cases hswaps
    | scanned i has avail => cases hswaps
    | pick has avail => cases hswaps
    | make i stage ret => cases hswaps
    | alarm has avail => cases hswaps
    | sleep => cases hswaps
    | leave => cases hswaps
    | done => cases hswaps

theorem swapping_uplinkThread {pc : Pc} (hs : Swapping s) (ht : s.thread = some pc)
    (env : ConfigEnv) (ans : Answers) : Swapping (s.uplinkThread env ans pc) := by
  have hother : ∀ {s' : State} {pc' : Pc}, s'.thread = some pc' → pc' ≠ .wipe →
      (pc'.swaps = true → s'.uplinkReconfiguring = false) → Swapping s' := by
    intro s' pc' ht' hne hseen
    refine ⟨fun x hx hswaps => ?_, fun hwipe => absurd (Option.some.inj (ht'.symm.trans hwipe)) hne⟩
    obtain rfl := Option.some.inj (ht'.symm.trans hx)
    exact hseen hswaps
  cases hswaps : pc.swaps with
  | false =>
    obtain ⟨hsame, hno⟩ | ⟨-, heq⟩ | ⟨-, heq⟩ := uplinkThread_cases ht hswaps env ans
    · exact hsame.swapping (sameSwap_of_not ht hswaps hno) hs
    · rw [heq]
      exact hother rfl (by simp) fun _ => rfl
    · rw [heq]
      exact hother rfl (by simp) fun hc => by cases hc
  | true =>
    -- the flag has been seen, and only the thread sets it again
    have hseen : s.uplinkReconfiguring = false := hs.seen pc ht hswaps
    cases pc with
    | close =>
      rw [State.uplinkThread]
      split
      · exact hs
      · exact hother rfl (by simp) fun _ => hseen
    | free => exact hother rfl (by simp) fun _ => hseen
    | freeing => exact hother rfl (by simp) fun _ => hseen
    | take =>
      refine ⟨fun _ _ _ => hseen, fun _ hempty => ?_⟩
      change s.uplinkConfigInstall.map Uplink.ofConfig = []
      rw [show s.uplinkConfigInstall = [] from hempty]
      rfl
    | wipe => exact hother rfl (by simp) fun _ => hseen
    | clear => exact hother rfl (by simp) fun _ => hseen
    | top => cases hswaps
    | check => cases hswaps
    | scan i has avail => cases hswaps
    | scanned i has avail => cases hswaps
    | pick has avail => cases hswaps
    | make i stage ret => cases hswaps
    | alarm has avail => cases hswaps
    | sleep => cases hswaps
    | leave => cases hswaps
    | done => cases hswaps

/-- A worker that closes a client leaves the flags as they are. -/
theorem sameFlags_close (c : Nat) :
    SameFlags s { s with clients := s.clients.map (markClosing c) } ∧ SameFlags s (s.lock c) ∧
      SameFlags s (s.uplinkClose c) ∧ SameFlags s (s.clientFree c) :=
  ⟨⟨rfl, rfl, rfl, rfl, rfl⟩, ⟨rfl, rfl, rfl, rfl, rfl⟩,
    ⟨rfl, rfl, rfl, rfl, sameConf_unlink s.uplinkConfig c⟩, ⟨rfl, rfl, rfl, rfl, rfl⟩⟩

theorem Swapping.step (h : Swapping s) (env : ConfigEnv) (e : State.Event) :
    Swapping (s.step env e) := by
  cases e with
  | start =>
    rw [State.step]
    split
    · exact h
    · refine ⟨?_, by simp⟩
      rintro _ ⟨⟩ hc
      cases hc
  | thread ans =>
    rw [State.step]
    cases ht : s.thread with
    | none => exact h
    | some pc => exact swapping_uplinkThread h ht env _
  | close c =>
    rw [State.step]
    split
    · exact (sameFlags_close c).1.swapping (.inl rfl) h
    · exact h
  | lock c =>
    rw [State.step]
    split
    · exact (sameFlags_close c).2.1.swapping (.inl rfl) h
    · exact h
  | unlock =>
    rw [State.step]
    split
    · exact h
    · next c _ => exact (sameFlags_close c).2.2.1.swapping (.inl rfl) h
  | free c =>
    rw [State.step]
    split
    · exact (sameFlags_close c).2.2.2.swapping (.inl rfl) h
    · exact h
  | reload ups =>
    rw [State.step, State.installUplinks]
    split
    · exact h
    · split
      · next hempty => exact ⟨h.seen, fun hwipe _ => h.taken hwipe (List.isEmpty_iff.mp hempty)⟩
      · exact h
  | flag =>
    rw [State.step]
    split
    · exact ⟨h.seen, h.taken⟩
    · exact h
  | stop =>
    rw [State.step]
    split
    · exact ⟨h.seen, h.taken⟩
    · exact h
  | join =>
    rw [State.step]
    split
    · exact ⟨fun _ hc => (by cases hc), fun hc => (by cases hc)⟩
    · exact h

/-- The thread loses a list only when it clears the flag between the stores of `read_config`. -/
theorem expected_thread_iff (hs : Swapping s) (h : Expected s) (env : ConfigEnv) (ans : Answers) :
    Expected (s.step env (.thread ans)) ↔ NotBetween s (.thread ans) := by
  rw [State.step]
  cases ht : s.thread with
  | none =>
    exact iff_of_true h ⟨by simp, by simp, fun _ _ hc => by rw [ht] at hc; cases hc⟩
  | some pc =>
    by_cases hpc : pc = .clear
    · subst hpc
      constructor
      · rintro ⟨-, hkept⟩
        refine ⟨by simp, by simp, fun _ _ _ ups hups => ?_⟩
        refine (hkept ups hups).resolve_right fun hc => ?_
        cases hc.1
      · rintro ⟨-, -, hclear⟩
        refine ⟨?_, fun ups hups => .inl (hclear ans rfl ht ups hups)⟩
        refine (h.cleared hs ht).imp_right fun hstoring => ?_
        exact .inr (.inr (.inr (.inr ⟨hstoring, by simp [State.uplinkThread, State.goto]⟩)))
    · refine iff_of_true (expected_uplinkThread hs ht h hpc env _)
        ⟨by simp, by simp, fun _ _ hc => ?_⟩
      exact absurd (Option.some.inj (ht.symm.trans hc)) hpc

/-- The first store of `read_config`, of a list that is not empty. -/
theorem expected_reload_iff (hs : Swapping s) (h : Expected s) (env : ConfigEnv)
    (ups : List UplinkConfigT) :
    Expected (s.step env (.reload ups)) ↔ NotBetween s (.reload ups) := by
  rw [State.step, State.installUplinks]
  split
  · next hstoring =>
    refine iff_of_true h ⟨fun _ _ hno => ?_, by simp, by simp⟩
    rw [hno] at hstoring
    cases hstoring
  · next hnone =>
    have hnone : s.storing = none := by simpa using hnone
    split
    · next hempty =>
      have hempty : s.uplinkConfigInstall = [] := List.isEmpty_iff.mp hempty
      constructor
      · rintro ⟨hc, -⟩
        refine ⟨fun ups' he _ hwipe _ => ?_, by simp, by simp⟩
        obtain rfl : ups = ups' := by simpa using he
        obtain hc | hc | ⟨pc, hpc, hc⟩ | hc | hc | hc := hc
        · exact hc
        · have hno : s.uplinkReconfiguring = false := hs.seen _ hwipe rfl
          rw [hno] at hc
          cases hc
        · obtain rfl := Option.some.inj (hwipe.symm.trans hpc)
          cases hc
        · -- what has been taken was there before, and so is empty
          have hnil : s.uplinkConfig = [] := hs.taken hwipe hempty
          have htaken : s.uplinkConfig.map (·.conf) = uplinksAllowed ups := hc.2
          rw [hnil] at htaken
          exact htaken.symm
        · exact absurd hwipe hc.2.1
        · exact absurd hwipe hc.2
      · rintro ⟨hstore, -, -⟩
        refine ⟨?_, ?_⟩
        · by_cases hwipe : s.thread = some .wipe
          · exact .inl (hstore ups rfl hnone hwipe hempty)
          · exact .inr (.inr (.inr (.inr (.inr ⟨rfl, hwipe⟩))))
        · rintro _ ⟨⟩
          exact .inl rfl
    · next hwaits =>
      refine iff_of_true h ⟨fun _ _ _ _ hno => ?_, by simp, by simp⟩
      simp [hno] at hwaits

/-- The second store of `read_config`. -/
theorem expected_flag_iff (hs : Swapping s) (h : Expected s) (env : ConfigEnv) :
    Expected (s.step env .flag) ↔ NotBetween s .flag := by
  rw [State.step]
  split
  · next hstoring =>
    constructor
    · rintro ⟨hc, -⟩
      refine ⟨by simp, fun _ _ hclear => ?_, by simp⟩
      obtain hc | hc | ⟨pc, hpc, hc⟩ | hc | hc | hc := hc
      · exact hc
      · have hno : s.uplinkReconfiguring = false := hs.seen _ hclear rfl
        rw [State.flagUplinks, hno] at hc
        cases hc
      · obtain rfl := Option.some.inj (hclear.symm.trans hpc)
        cases hc
      · exact absurd (hclear.symm.trans hc.1) (by simp)
      · exact absurd hclear hc.2.2
      · cases hc.1
    · rintro ⟨-, hfits, -⟩
      refine ⟨?_, fun _ hmem => absurd hmem (by simp [State.flagUplinks])⟩
      by_cases hclear : s.thread = some .clear
      · exact .inl (hfits rfl hstoring hclear)
      · by_cases hwipe : s.thread = some .wipe
        · exact (h.wiped hs hwipe).imp_right fun htaken =>
            .inr (.inr (.inl ⟨hwipe, htaken⟩))
        · exact .inr (.inr (.inr (.inr (.inl ⟨rfl, hwipe, hclear⟩))))
  · next hstoring => exact iff_of_true h ⟨by simp, fun _ hst => absurd hst hstoring, by simp⟩

theorem expected_join (h : Expected s) (env : ConfigEnv) : Expected (s.step env .join) := by
  rw [State.step]
  split
  · next hdone =>
    refine ⟨?_, fun ups hups => .inl ((h.kept ups hups).resolve_right fun hc => ?_)⟩
    · obtain hc | hc | ⟨pc, hpc, hc⟩ | hc | hc | hc := h.coming
      · exact .inl hc
      · exact .inr (.inl hc)
      · obtain rfl := Option.some.inj (hdone.1.symm.trans hpc)
        cases hc
      · exact absurd (hdone.1.symm.trans hc.1) (by simp)
      · exact .inr (.inr (.inr (.inr (.inl ⟨hc.1, by simp [State.uplinkStopped]⟩))))
      · exact .inr (.inr (.inr (.inr (.inr ⟨hc.1, by simp [State.uplinkStopped]⟩))))
    · exact absurd (hdone.1.symm.trans hc.1) (by simp)
  · exact h

/-- Nothing is lost in a step exactly if it does not come between the stores as it may not. -/
theorem expected_step_iff (hs : Swapping s) (h : Expected s) (env : ConfigEnv)
    (e : State.Event) : Expected (s.step env e) ↔ NotBetween s e := by
  have htrue : Expected (s.step env e) → (∀ ups, e ≠ .reload ups) → e ≠ .flag →
      (∀ ans, e ≠ .thread ans) → (Expected (s.step env e) ↔ NotBetween s e) :=
    fun hexp h1 h2 h3 => iff_of_true hexp
      ⟨fun ups he => absurd he (h1 ups), fun he => absurd he h2, fun ans he => absurd he (h3 ans)⟩
  cases e with
  | start =>
    refine htrue ?_ (by simp) (by simp) (by simp)
    rw [State.step]
    split
    · exact h
    · next hnone =>
      refine ⟨.inr (.inl rfl), fun ups hups => .inl ((h.kept ups hups).resolve_right fun hc => ?_)⟩
      exact hnone (by simp [hc.1])
  | thread ans => exact expected_thread_iff hs h env ans
  | close c =>
    refine htrue ?_ (by simp) (by simp) (by simp)
    rw [State.step]
    split
    · exact (sameFlags_close c).1.expected (.inl rfl) h
    · exact h
  | lock c =>
    refine htrue ?_ (by simp) (by simp) (by simp)
    rw [State.step]
    split
    · exact (sameFlags_close c).2.1.expected (.inl rfl) h
    · exact h
  | unlock =>
    refine htrue ?_ (by simp) (by simp) (by simp)
    rw [State.step]
    split
    · exact h
    · next c _ => exact (sameFlags_close c).2.2.1.expected (.inl rfl) h
  | free c =>
    refine htrue ?_ (by simp) (by simp) (by simp)
    rw [State.step]
    split
    · exact (sameFlags_close c).2.2.2.expected (.inl rfl) h
    · exact h
  | reload ups => exact expected_reload_iff hs h env ups
  | flag => exact expected_flag_iff hs h env
  | stop =>
    refine htrue ?_ (by simp) (by simp) (by simp)
    rw [State.step]
    split
    · exact ⟨h.coming, h.kept⟩
    · exact h
  | join => exact htrue (expected_join h env) (by simp) (by simp) (by simp)

/-- A list waits that the thread will not take, while it goes on. -/
def Lost (s : State) : Prop :=
  ¬Coming s ∧ s.uplinkShuttingDown = false ∧
    ∃ pc, s.thread = some pc ∧ pc ≠ .wipe ∧ pc ≠ .leave ∧ pc ≠ .done

theorem lost_iff : Lost s ↔ s.uplinkConfigInstall ≠ [] ∧ s.storing = none ∧
    (s.thread = some .clear ∨ s.uplinkConfigUpdated = false) ∧ s.uplinkReconfiguring = false ∧
      s.uplinkShuttingDown = false ∧
        ∃ pc, s.thread = some pc ∧ pc.takes = false ∧ pc ≠ .wipe ∧ pc ≠ .leave ∧ pc ≠ .done := by
  constructor
  · rintro ⟨hno, hgoes, pc, ht, hwipe, hleave, hdone⟩
    have hnot : s.thread ≠ some .wipe := fun hw => hwipe (Option.some.inj (ht.symm.trans hw))
    simp only [Coming, not_or, not_and, not_exists, ne_eq, not_not] at hno
    obtain ⟨hwaits, hreconf, htakes, -, hflag, hstoring⟩ := hno
    refine ⟨hwaits, ?_, ?_, by simpa using hreconf, hgoes, pc, ht, by simpa using htakes pc ht,
      hwipe, hleave, hdone⟩
    · by_contra hsome
      exact hnot (hstoring (Option.isSome_iff_ne_none.mpr hsome))
    · by_cases hupdated : s.uplinkConfigUpdated = true
      · exact .inl (hflag hupdated hnot)
      · exact .inr (by simpa using hupdated)
  · rintro ⟨hwaits, hstoring, hflag, hreconf, hgoes, pc, ht, htakes, hwipe, hleave, hdone⟩
    refine ⟨?_, hgoes, pc, ht, hwipe, hleave, hdone⟩
    rintro (h | h | ⟨x, hx, h⟩ | h | ⟨h, -, hclear⟩ | h)
    · exact hwaits h
    · rw [hreconf] at h
      cases h
    · obtain rfl := Option.some.inj (ht.symm.trans hx)
      rw [htakes] at h
      cases h
    · exact hwipe (Option.some.inj (ht.symm.trans h.1))
    · obtain hc | hu := hflag
      · exact hclear hc
      · rw [h] at hu
        cases hu
    · simp [hstoring] at h

/-- A thread that is not told to end goes on. -/
theorem uplinkThread_goes {pc : Pc} (hgoes : s.uplinkShuttingDown = false) (ht : s.thread = some pc)
    (hleave : pc ≠ .leave) (hdone : pc ≠ .done) (env : ConfigEnv) (ans : Answers) :
    (s.uplinkThread env ans pc).uplinkShuttingDown = false ∧
      ∃ pc', (s.uplinkThread env ans pc).thread = some pc' ∧ pc' ≠ .leave ∧ pc' ≠ .done := by
  cases pc with
  | top =>
    rw [State.uplinkThread, if_neg (by simp [hgoes])]
    split <;> exact ⟨hgoes, _, rfl, by simp, by simp⟩
  | close =>
    rw [State.uplinkThread]
    split
    · exact ⟨hgoes, _, ht, by simp, by simp⟩
    · exact ⟨hgoes, _, rfl, by simp, by simp⟩
  | check =>
    rw [State.uplinkThread]
    split
    · exact ⟨hgoes, _, rfl, by simp, by simp⟩
    · split <;> exact ⟨hgoes, _, rfl, by simp, by simp⟩
  | scan i has avail =>
    rw [State.uplinkThread, State.scanUplink]
    split
    · exact ⟨hgoes, _, rfl, by simp, by simp⟩
    · dsimp only
      split
      · split <;> exact ⟨hgoes, _, rfl, by simp, by simp⟩
      · exact ⟨hgoes, _, rfl, by simp, by simp⟩
  | scanned i has avail =>
    rw [State.uplinkThread]
    split <;> exact ⟨hgoes, _, rfl, by simp, by simp⟩
  | pick has avail =>
    rw [State.uplinkThread, State.pickUplink]
    split
    · dsimp only
      split <;> exact ⟨hgoes, _, rfl, by simp, by simp⟩
    · exact ⟨hgoes, _, rfl, by simp, by simp⟩
  | make i stage ret =>
    have hturn := sameTurn_makeUplink (s := s) (by simp [ht]) env ans i stage ret
    refine ⟨hturn.shutting.trans hgoes, ?_⟩
    obtain hr | ⟨stage', hr⟩ := makeUplink_running ht env ans
    · exact ⟨_, hr, by cases ret <;> simp [Return.pc], by cases ret <;> simp [Return.pc]⟩
    · exact ⟨_, hr, by simp, by simp⟩
  | alarm has avail =>
    rw [State.uplinkThread]
    split
    · exact ⟨hgoes, .sleep, by simp [State.goto, hgoes], by simp, by simp⟩
    · split <;> exact ⟨hgoes, .sleep, by simp [State.goto, hgoes], by simp, by simp⟩
  | leave => exact absurd rfl hleave
  | done => exact absurd rfl hdone
  | free => exact ⟨hgoes, _, rfl, by simp, by simp⟩
  | freeing => exact ⟨hgoes, _, rfl, by simp, by simp⟩
  | take => exact ⟨hgoes, _, rfl, by simp, by simp⟩
  | wipe => exact ⟨hgoes, _, rfl, by simp, by simp⟩
  | clear => exact ⟨hgoes, _, rfl, by simp, by simp⟩
  | sleep => exact ⟨hgoes, _, rfl, by simp, by simp⟩

/-- What a step leaves of a lost list: it waits on, and the thread goes on with the old one. -/
theorem Lost.uplinkThread {pc : Pc} (h : Lost s) (ht : s.thread = some pc) (env : ConfigEnv)
    (ans : Answers) :
    Lost (s.uplinkThread env ans pc) ∧
      (s.uplinkThread env ans pc).uplinkConfigInstall = s.uplinkConfigInstall ∧
      SameConf s.uplinkConfig (s.uplinkThread env ans pc).uplinkConfig := by
  obtain ⟨hwaits, hstoring, hflag, hreconf, hgoes, pc', ht', htakes, hwipe, hleave, hdone⟩ :=
    lost_iff.mp h
  obtain rfl := Option.some.inj (ht.symm.trans ht')
  by_cases hclear : pc = .clear
  · subst hclear
    exact ⟨lost_iff.mpr ⟨hwaits, hstoring, .inr rfl, hreconf, hgoes, _, rfl, rfl, by simp, by simp,
      by simp⟩, rfl, rfl⟩
  · have hswaps : pc.swaps = false := by simp [Pc.swaps, htakes, hwipe, hclear]
    have hupdated : s.uplinkConfigUpdated = false :=
      hflag.resolve_left fun hc => hclear (Option.some.inj (ht.symm.trans hc))
    obtain ⟨hgoes', pc', ht', hleave', hdone'⟩ := uplinkThread_goes hgoes ht hleave hdone env ans
    -- neither flag is set, so the thread does not begin to put a list in place
    obtain ⟨hsame, hno⟩ | ⟨hset, -⟩ | ⟨hset, -⟩ := uplinkThread_cases ht hswaps env ans
    · have hno' := hno pc' ht'
      simp only [Pc.swaps, Bool.or_eq_false_iff, decide_eq_false_iff_not] at hno'
      refine ⟨lost_iff.mpr ⟨hsame.install ▸ hwaits, hsame.storing.trans hstoring,
        .inr (hsame.updated.trans hupdated), hsame.reconfiguring.trans hreconf, hgoes', pc', ht',
        hno'.1.1, hno'.1.2, hleave', hdone'⟩, hsame.install, hsame.conf⟩
    · simp [hreconf, hupdated] at hset
    · rw [hupdated] at hset
      cases hset

theorem Lost.step (h : Lost s) (env : ConfigEnv) {e : State.Event} (hne : e ≠ .stop) :
    Lost (s.step env e) ∧ (s.step env e).uplinkConfigInstall = s.uplinkConfigInstall ∧
      SameConf s.uplinkConfig (s.step env e).uplinkConfig := by
  have hstay : Lost s ∧ s.uplinkConfigInstall = s.uplinkConfigInstall ∧
      SameConf s.uplinkConfig s.uplinkConfig := ⟨h, rfl, rfl⟩
  obtain ⟨hwaits, hstoring, hflag, hreconf, hgoes, pc, ht, htakes, hwipe, hleave, hdone⟩ :=
    lost_iff.mp h
  have hsame : ∀ {s' : State}, SameFlags s s' → s'.uplinkShuttingDown = s.uplinkShuttingDown →
      s'.thread = s.thread → Lost s' ∧ s'.uplinkConfigInstall = s.uplinkConfigInstall ∧
        SameConf s.uplinkConfig s'.uplinkConfig := by
    intro s' hs hshutting hthread
    refine ⟨lost_iff.mpr ⟨hs.install ▸ hwaits, hs.storing.trans hstoring, ?_,
      hs.reconfiguring.trans hreconf, hshutting.trans hgoes, pc, hthread.trans ht, htakes, hwipe,
      hleave, hdone⟩, hs.install, hs.conf⟩
    exact hflag.imp hthread.trans hs.updated.trans
  cases e with
  | start =>
    rw [State.step, ht]
    exact hstay
  | thread ans =>
    rw [State.step, ht]
    exact h.uplinkThread ht env _
  | close c =>
    rw [State.step]
    split
    · exact hsame (sameFlags_close c).1 rfl rfl
    · exact hstay
  | lock c =>
    rw [State.step]
    split
    · exact hsame (sameFlags_close c).2.1 rfl rfl
    · exact hstay
  | unlock =>
    rw [State.step]
    split
    · exact hstay
    · next c _ => exact hsame (sameFlags_close c).2.2.1 rfl rfl
  | free c =>
    rw [State.step]
    split
    · exact hsame (sameFlags_close c).2.2.2 rfl rfl
    · exact hstay
  | reload ups =>
    -- "too quick", for good
    rw [State.step, State.installUplinks, hstoring, List.isEmpty_eq_false_iff.mpr hwaits]
    exact hstay
  | flag =>
    rw [State.step, hstoring]
    exact hstay
  | stop => exact absurd rfl hne
  | join =>
    rw [State.step, ht, if_neg fun hd => hdone (Option.some.inj hd.1)]
    exact hstay

theorem Lost.run (h : Lost s) (env : ConfigEnv) {es : List State.Event} (hes : ∀ e ∈ es, e ≠ .stop) :
    (Runs.run (fun s e => State.step s env e) s es).uplinkConfigInstall = s.uplinkConfigInstall ∧
      SameConf s.uplinkConfig (Runs.run (fun s e => State.step s env e) s es).uplinkConfig := by
  induction es generalizing s with
  | nil => exact ⟨rfl, rfl⟩
  | cons e es ih =>
    obtain ⟨hlost, hinstall, hconf⟩ := h.step env (hes e (by simp))
    obtain ⟨hinstall', hconf'⟩ := ih hlost fun e he => hes e (by simp [he])
    exact ⟨hinstall'.trans hinstall, Eq.trans hconf' hconf⟩

/-- Nothing is lost in any state of a run exactly if the stores of the reloads and of the thread
come between each other only as they may. If the flag comes between the wiping and the clearing,
the list waits on and the thread keeps the old one, whatever is reloaded later, until it is told
to end. -/
theorem expected_of_run (env : ConfigEnv) (es : List State.Event) :
    (Always (fun s e => State.step s env e) Expected init es ↔
      Meets (fun s e => State.step s env e) NotBetween init es) ∧
    ∀ fs : List State.Event, (∀ e ∈ fs, e ≠ .stop) →
      Lost (Runs.run (fun s e => State.step s env e) init es) →
        (Runs.run (fun s e => State.step s env e) init (es ++ fs)).uplinkConfigInstall =
          (Runs.run (fun s e => State.step s env e) init es).uplinkConfigInstall ∧
        SameConf (Runs.run (fun s e => State.step s env e) init es).uplinkConfig
          (Runs.run (fun s e => State.step s env e) init (es ++ fs)).uplinkConfig := by
  have hinit : Swapping init := ⟨nofun, nofun⟩
  constructor
  · exact always_iff_meets (I := Swapping) (fun _ e h => h.step env e)
      (fun _ e hs h => expected_step_iff hs h env e) hinit ⟨.inl rfl, nofun⟩ es
  · intro fs hfs hlost
    rw [run_append]
    exact hlost.run env hfs

section Lists

variable (env : ConfigEnv) (ups : List UplinkConfigT) (ans : Answers)

/-- The thread begins, and goes on as far as the wiping. -/
private def upToWipe : List State.Event := .start :: List.replicate 5 (.thread ans)

/-- Both stores of a reload come between the wiping and the clearing. -/
example (hups : uplinksAllowed ups ≠ []) :
    Lost (Runs.run (fun s e => State.step s env e) init
      (upToWipe ans ++ [.thread ans, .reload ups, .flag])) := by
  rw [lost_iff]
  exact ⟨hups, rfl, .inl rfl, rfl, rfl, _, rfl, rfl, nofun, nofun, nofun⟩

/-- A list is stored between the taking and the wiping: it is wiped, and the flag makes the
thread take the empty list. -/
example :
    let s := Runs.run (fun s e => State.step s env e) init
      (upToWipe ans ++ [.reload ups, .thread ans])
    s.uplinkConfigInstall = [] ∧ s.uplinkConfig = [] := ⟨rfl, rfl⟩

end Lists

end Runs

end Uplinks

end Aprsc
