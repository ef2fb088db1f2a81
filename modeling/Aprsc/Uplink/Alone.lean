-- SUMMARY: In every run of the uplink thread, a regular uplink is up alone, and each client belongs to one entry.
import Aprsc.Uplink.Books

namespace Aprsc

namespace Uplinks

/-! ## Every event keeps the invariant -/

section Steps

variable {s s' : State} {i c : Nat} {stage : Stage} {ret : Return} {pc pc' : Pc}

theorem inv_init : Inv init := by
  refine ⟨⟨?_, ?_, ?_, ?_, ?_, ?_, ?_, ?_, ?_, ?_, ?_, ?_⟩, ⟨?_, ?_, ?_, ?_, ?_⟩, ?_, ?_, ?_, ?_, ?_, ?_⟩
  all_goals simp [init, State.making, State.gone, State.listed, Linked, Alone, Busy]

theorem Inv.making_none (h : s.thread = some pc) (hm : pc.making = none) : s.making = none := by
  rw [State.making, h, Option.bind_some, hm]

theorem State.gone_of_making_none (hnone : s.making = none) : s.gone = none := by
  rw [State.gone, hnone]
  rfl

theorem State.listed_of_making_none (hnone : s.making = none) : s.listed = s.uplinkClients := by
  rw [State.listed, State.gone_of_making_none hnone]
  rfl

theorem Inv.shut_at (h : Inv s) (ht : s.thread = some pc) (hshut : pc.shut = true) :
    ∀ cl ∈ s.clients, cl.shut = true := by
  refine h.shut fun pc' hpc => ?_
  obtain rfl := Option.some.inj (ht.symm.trans hpc)
  exact hshut

/-- The thread goes on to a place where it makes no uplink either. -/
theorem Inv.goto (h : Inv s) (ht : s.thread = some pc) (hm : pc.making = none)
    (hm' : pc'.making = none) (hphase : Phase s.uplinkConfig s.uplinkShuttingDown pc')
    (hshut : pc'.shut = true → ∀ cl ∈ s.clients, cl.shut = true) :
    Inv (s.goto pc') := by
  have hnone : s.making = none := Inv.making_none ht hm
  have hnone' : (s.goto pc').making = none := Inv.making_none rfl hm'
  have hbooks := h.books
  have hentries := h.entries
  have halone := h.alone
  rw [State.listed_of_making_none hnone] at hbooks
  rw [hnone] at hbooks hentries halone
  constructor
  · rw [State.listed_of_making_none hnone', hnone']
    exact hbooks
  · rw [hnone']
    exact hentries
  · rw [hnone']
    exact halone
  · rintro _ ⟨⟩
    exact hphase
  · exact fun hp => hshut (hp pc' rfl)
  · intro hp
    cases hp
  · exact h.mutex
  · simp [State.gone_of_making_none hnone']

/-- A part of a call of `make_uplink`: what it does to its own entry is nothing to the rest of
the invariant, apart from the books. -/
theorem Inv.of_make (h : Inv s) (ht : s.thread = some (.make i stage ret)) {f : Uplink → Uplink}
    (hcfg : s'.uplinkConfig = s.uplinkConfig.modify i f)
    (hf : ∀ l, s.uplinkConfig[i]? = some l → (f l).conf = l.conf)
    (hclient : ∀ l, s.uplinkConfig[i]? = some l → (f l).state = uplinkStConnected →
      (f l).client ≠ none)
    (hinstall : s'.uplinkConfigInstall = s.uplinkConfigInstall)
    (hshutting : s'.uplinkShuttingDown = s.uplinkShuttingDown)
    (ht' : s'.thread = some ret.pc ∨ ∃ stage', s'.thread = some (.make i stage' ret) ∧
      ∃ l, s.uplinkConfig[i]? = some l ∧ stage'.Fits (f l))
    (hkinds : ∀ cl ∈ s'.clients, cl.shut = false →
      (∃ cl' ∈ s.clients, cl'.shut = false ∧ cl'.multi = cl.multi) ∨
        ∃ l ∈ s.uplinkConfig, l.conf.multi = cl.multi)
    (hmutex : s'.mutex = s.mutex) (hhands : ∀ c, s.InHands c .closing → s'.InHands c .closing)
    (hgone : ∀ c ∈ s'.gone, ∀ cl ∈ s'.clients, cl.ptr ≠ c)
    (hbooks : Books (Linked s'.uplinkConfig s'.making) s'.listed s'.clients
      (s'.making.bind (·.2.client)) (s'.making.bind (·.2.unlisted))) : Inv s' := by
  have hconf : SameConf s.uplinkConfig s'.uplinkConfig := hcfg ▸ sameConf_modify hf
  have hm : s.making = some (i, stage) := by rw [State.making, ht]; rfl
  have hm' : ∀ j stage', s'.making = some (j, stage') → j = i ∧
      ∃ l, s.uplinkConfig[i]? = some l ∧ stage'.Fits (f l) := by
    intro j stage' hmaking
    obtain ht' | ⟨stage₁, ht', l, hl, hfits⟩ := ht'
    · rw [State.making, ht'] at hmaking
      cases ret <;> cases hmaking
    · rw [State.making, ht'] at hmaking
      cases hmaking
      exact ⟨rfl, l, hl, hfits⟩
  have hphase := h.phase _ ht
  refine ⟨hbooks, ⟨?_, ?_, ?_, ?_, ?_⟩, ?_, ?_, ?_, ?_, ?_, hgone⟩
  · intro a ha b hb
    obtain ⟨a', ha', hac⟩ := hconf.mem ha
    obtain ⟨b', hb', hbc⟩ := hconf.mem hb
    rw [← hac, ← hbc]
    exact h.entries.uniform a' ha' b' hb'
  · rw [hinstall]
    exact h.entries.install
  · intro cl hcl hshut l' hl'
    obtain ⟨l, hl, hlc⟩ := hconf.mem hl'
    rw [← hlc]
    obtain ⟨cl', hcl', hshut', hmulti⟩ | ⟨l₁, hl₁, hmulti⟩ := hkinds cl hcl hshut
    · rw [← hmulti]
      exact h.entries.kinds cl' hcl' hshut' l hl
    · rw [← hmulti]
      exact h.entries.uniform l hl l₁ hl₁
  · intro j stage' hmaking
    obtain ⟨rfl, l, hl, hfits⟩ := hm' j stage' hmaking
    exact ⟨f l, hcfg ▸ getElem?_modify_self hl, hfits⟩
  · intro l' hl'
    obtain ⟨j, hj⟩ := List.mem_iff_getElem?.mp hl'
    by_cases hij : i = j
    · subst hij
      obtain ⟨l, hl⟩ : ∃ l, s.uplinkConfig[i]? = some l := by
        obtain ⟨hlt, -⟩ := List.getElem?_eq_some_iff.mp hj
        exact ⟨_, List.getElem?_eq_getElem (hconf.length ▸ hlt)⟩
      rw [hcfg, getElem?_modify_self hl] at hj
      obtain rfl := Option.some.inj hj
      exact hclient l hl
    · rw [hcfg, getElem?_modify_ne hij] at hj
      exact h.entries.client l' (List.mem_of_getElem? hj)
  · -- only the entry that is being made can have come up
    intro hno hr a b ha hb
    have hbusy : ∀ j, Busy s'.uplinkConfig s'.making j → Busy s.uplinkConfig s.making j := by
      rintro j (⟨l', hl', hst⟩ | ⟨stage', hmaking⟩)
      · by_cases hj : j = i
        · exact .inr ⟨stage, hj ▸ hm⟩
        · rw [hcfg, getElem?_modify_ne (Ne.symm hj)] at hl'
          exact .inl ⟨l', hl', hst⟩
      · exact .inr ⟨stage, (hm' j stage' hmaking).1 ▸ hm⟩
    exact h.alone (hshutting ▸ hno) (hconf.regular.mp hr) a b (hbusy a ha) (hbusy b hb)
  · intro pc hpc
    have hret : ∀ k has avail, ret = .scanned k has avail → k < s'.uplinkConfig.length ∧
        Seen s'.uplinkConfig (k + 1) has avail ∧ ¬Regular s'.uplinkConfig := by
      rintro k has avail rfl
      obtain ⟨hk, hseen, hr⟩ := hphase
      rw [hconf.length]
      exact ⟨hk, hseen.of_not_regular hr hconf, fun hr' => hr (hconf.regular.mp hr')⟩
    obtain ht' | ⟨stage', ht', -⟩ := ht'
    · obtain rfl := Option.some.inj (ht'.symm.trans hpc)
      cases ret with
      | scanned k has avail =>
        obtain ⟨hk, hseen, -⟩ := hret k has avail rfl
        exact ⟨hk, hseen⟩
      | alarm has avail => trivial
    · obtain rfl := Option.some.inj (ht'.symm.trans hpc)
      cases ret with
      | scanned k has avail => exact hret k has avail rfl
      | alarm has avail => trivial
  · intro hpc
    obtain ht' | ⟨stage', ht', -⟩ := ht'
    · have := hpc _ ht'
      cases ret <;> cases this
    · cases hpc _ ht'
  · intro hpc
    obtain ht' | ⟨stage', ht', -⟩ := ht'
    · rw [ht'] at hpc
      cases hpc
    · rw [ht'] at hpc
      cases hpc
  · exact fun c hc => hhands c (h.mutex c (hmutex ▸ hc))

/-! ### A call of `make_uplink` -/

theorem Inv.stage_fits (h : Inv s) (ht : s.thread = some (.make i stage ret)) :
    ∃ l, s.uplinkConfig[i]? = some l ∧ stage.Fits l :=
  h.entries.stage i stage (by rw [State.making, ht]; rfl)

theorem Inv.books_make (h : Inv s) (ht : s.thread = some (.make i stage ret)) :
    Books (Linked s.uplinkConfig (some (i, stage)))
      (stage.gone.elim s.uplinkClients s.uplinkClients.erase) s.clients stage.client
      stage.unlisted := by
  have hbooks := h.books
  have hm : s.making = some (i, stage) := by rw [State.making, ht]; rfl
  rwa [State.listed, State.gone, hm] at hbooks

/-- While the entry has no client, changing it changes nothing of who has which. -/
theorem linked_modify_of_down {cfg : List Uplink} {f : Uplink → Uplink} {l : Uplink}
    (hl : cfg[i]? = some l) (hdown : l.state ≠ uplinkStConnected)
    (hdown' : (f l).state ≠ uplinkStConnected) (j d : Nat) :
    Linked (cfg.modify i f) none j d ↔ Linked cfg none j d := by
  by_cases hj : j = i
  · subst hj
    rw [linked_none_self (getElem?_modify_self hl), linked_none_self hl]
    exact iff_of_false (fun h => hdown' h.2) fun h => hdown h.2
  · exact linked_modify_ne hj

theorem checks_spec (env : ConfigEnv) (ans : Answers) (l : Uplink) :
    (l.checks env ans).2.conf = l.conf ∧ (l.checks env ans).2.state = l.state ∧
      (l.checks env ans).2.client = l.client := by
  unfold Uplink.checks
  dsimp only
  split_ifs <;> exact ⟨rfl, rfl, rfl⟩

theorem ret_making (ret : Return) : ret.pc.making = none := by
  cases ret <;> rfl

theorem making_of_ret (ht : s.thread = some ret.pc) : s.making = none :=
  Inv.making_none ht (ret_making ret)

theorem making_of_make (ht : s.thread = some (.make i stage ret)) :
    s.making = some (i, stage) := by
  rw [State.making, ht]
  rfl

theorem listed_of_ret (ht : s.thread = some ret.pc) : s.listed = s.uplinkClients :=
  State.listed_of_making_none (making_of_ret ht)

theorem listed_of_make (ht : s.thread = some (.make i stage ret)) :
    s.listed = stage.gone.elim s.uplinkClients s.uplinkClients.erase := by
  rw [State.listed, State.gone, making_of_make ht]
  rfl

theorem not_gone (hgone : s.gone = none) : ∀ c ∈ s.gone, ∀ cl ∈ s.clients, cl.ptr ≠ c := by
  simp [hgone]

theorem gone_of_ret (ht : s.thread = some ret.pc) : s.gone = none :=
  State.gone_of_making_none (making_of_ret ht)

theorem Inv.make_checks (h : Inv s) (ht : s.thread = some (.make i .checks ret))
    (env : ConfigEnv) (ans : Answers) : Inv (s.makeUplink env ans i .checks ret) := by
  obtain ⟨l, hl, hdown⟩ := h.stage_fits ht
  have hbooks := h.books_make ht
  obtain ⟨hconf, hstate, hclient⟩ := checks_spec env ans l
  have hdown : l.state < 1 := hdown
  have hkinds : ∀ cl ∈ s.clients, cl.shut = false →
      (∃ cl' ∈ s.clients, cl'.shut = false ∧ cl'.multi = cl.multi) ∨
        ∃ l ∈ s.uplinkConfig, l.conf.multi = cl.multi :=
    fun cl hcl hshut => .inl ⟨cl, hcl, hshut, rfl⟩
  rw [State.makeUplink, hl]
  dsimp only
  split
  · refine h.of_make ht rfl (fun l₁ hl₁ => ?_) (fun _ _ hst => by cases hst) rfl rfl
      (.inr ⟨.connecting, rfl, l, hl, (le_refl (1 : Int) : _)⟩) hkinds rfl (fun _ => id) (not_gone rfl) ?_
    · obtain rfl := Option.some.inj (hl.symm.trans hl₁)
      exact hconf
    · rw [listed_of_make rfl]
      apply hbooks.congr
      intro j d
      rw [making_of_make rfl, linked_of_client_none rfl rfl, linked_of_client_none rfl rfl]
      exact linked_modify_of_down hl (by simp [uplinkStConnected]; omega)
        (by simp [uplinkStConnected, uplinkStConnecting]) j d
  · refine h.of_make ht rfl (fun l₁ hl₁ => ?_) (fun _ _ hst => ?_) rfl rfl (.inl rfl) hkinds rfl
      (fun _ => id) (not_gone (gone_of_ret rfl)) ?_
    · obtain rfl := Option.some.inj (hl.symm.trans hl₁)
      exact hconf
    · have hst : l.state = 2 := hstate.symm.trans hst
      omega
    · rw [listed_of_ret rfl, making_of_ret rfl]
      apply hbooks.congr
      intro j d
      rw [linked_of_client_none rfl rfl]
      exact linked_modify_of_down hl (by simp [uplinkStConnected]; omega)
        (by simp [uplinkStConnected, hstate]; omega) j d

theorem Inv.make_connecting (h : Inv s) (ht : s.thread = some (.make i .connecting ret))
    (env : ConfigEnv) (ans : Answers) (hans : ∀ c ∈ ans.client, ∀ cl ∈ s.clients, cl.ptr ≠ c) :
    Inv (s.makeUplink env ans i .connecting ret) := by
  obtain ⟨l, hl, hle⟩ := h.stage_fits ht
  have hbooks := h.books_make ht
  have hle : l.state ≤ 1 := hle
  have hdown : l.state ≠ uplinkStConnected := by
    simp [uplinkStConnected]
    omega
  have hfail : Inv ((s.modifyUplink i fun l => { l with state := uplinkStNotLinked }).goto
      ret.pc) := by
    refine h.of_make ht rfl (fun _ _ => rfl) (fun _ _ hst => by cases hst) rfl rfl (.inl rfl)
      (fun cl hcl hshut => .inl ⟨cl, hcl, hshut, rfl⟩) rfl (fun _ => id)
      (not_gone (gone_of_ret rfl)) ?_
    rw [listed_of_ret rfl, making_of_ret rfl]
    apply hbooks.congr
    intro j d
    rw [linked_of_client_none rfl rfl]
    exact linked_modify_of_down hl hdown (by simp [uplinkStConnected, uplinkStNotLinked]) j d
  rw [State.makeUplink, hl]
  dsimp only
  split
  · exact hfail
  · split
    · exact hfail
    · next c hc =>
      refine h.of_make ht rfl (fun _ _ => rfl) (fun _ _ _ => by simp) rfl rfl
        (.inr ⟨.allocated c, rfl, l, hl, hle, rfl⟩) ?_ rfl ?_ (not_gone rfl) ?_
      · intro cl hcl hshut
        obtain rfl | hcl := List.mem_cons.mp hcl
        · exact .inr ⟨l, List.mem_of_getElem? hl, rfl⟩
        · exact .inl ⟨cl, hcl, hshut, rfl⟩
      · exact fun d hd => hd.imp fun cl hcl => ⟨List.mem_cons_of_mem _ hcl.1, hcl.2⟩
      · rw [listed_of_make rfl, making_of_make rfl]
        apply hbooks.add (hans c hc) (i := i)
        intro j d
        change Linked (s.uplinkConfig.modify i _) _ j d ↔ _
        by_cases hj : j = i
        · subst hj
          have hnot : ¬Linked s.uplinkConfig (some (j, .connecting)) j d := by
            rw [linked_self hl]
            rintro ⟨-, hst | hst⟩
            · exact hdown hst.1
            · cases hst
          rw [linked_self (getElem?_modify_self hl)]
          simp only [Stage.client, Option.some.injEq, hnot, false_or, true_and]
          constructor
          · rintro ⟨hd, -⟩
            exact hd.symm
          · rintro rfl
            exact ⟨rfl, .inr rfl⟩
        · rw [linked_ne hj, linked_ne hj, linked_modify_ne hj]
          simp [hj]

theorem inHands_free {hands : Hands} {d : Nat} (h : s.InHands d hands)
    (hc : ∀ cl ∈ s.clients, cl.ptr = c → cl.hands ≠ hands) : (s.clientFree c).InHands d hands := by
  obtain ⟨cl, hcl, rfl, hhands⟩ := h
  refine ⟨cl, List.mem_filter.mpr ⟨hcl, ?_⟩, rfl, hhands⟩
  simpa using fun hptr => hc cl hcl hptr hhands

/-- A call that fails after it has allocated a client frees it. What is left is the entry in
the list of clients, if there is one already. -/
theorem Inv.make_err (h : Inv s) (ht : s.thread = some (.make i stage ret))
    (hc : stage.client = some c) {uc : Option Nat} {raced : Bool}
    (huc : uc = some c ∧ stage = .connected c ∨ uc = none ∧ stage = .allocated c) :
    Inv (({ s with raced := raced }.clientFree c).goto (.make i (.freed uc) ret)) := by
  obtain ⟨l, hl, hfits⟩ := h.stage_fits ht
  have hbooks := h.books_make ht
  have hfresh : ∀ cl ∈ s.clients, cl.ptr = c → cl.hands = .thread := by
    rintro cl hcl rfl
    exact (hbooks.passed cl hcl).mpr hc
  have hfits' : (Stage.freed uc).Fits l ∧ l.client = some c := by
    obtain ⟨rfl, rfl⟩ | ⟨rfl, rfl⟩ := huc
    · exact ⟨hfits, hfits.2⟩
    · exact ⟨hfits.1, hfits.2⟩
  have hlist : stage.gone = none ∧ uc.elim s.uplinkClients s.uplinkClients.erase =
      s.uplinkClients.erase c := by
    obtain ⟨rfl, rfl⟩ | ⟨rfl, rfl⟩ := huc
    · exact ⟨rfl, rfl⟩
    · exact ⟨rfl, (List.erase_of_not_mem (hbooks.unlisted c rfl).1).symm⟩
  have hunlisted : ∀ d ≠ c, stage.unlisted ≠ some d := by
    obtain ⟨rfl, rfl⟩ | ⟨rfl, rfl⟩ := huc
    · exact fun d _ hd => by cases hd
    · exact fun d hne hd => hne (Option.some.inj hd).symm
  rw [hlist.1] at hbooks
  have hown : Linked s.uplinkConfig (some (i, stage)) i c :=
    (linked_self hl).mpr ⟨hfits'.2, .inr hc⟩
  refine h.of_make ht (f := id) (List.modify_id ..).symm (fun _ _ => rfl)
    (fun l hl => h.entries.client l (List.mem_of_getElem? hl)) rfl rfl
    (.inr ⟨.freed uc, rfl, l, hl, hfits'.1⟩) ?_ rfl ?_ ?_ ?_
  · intro cl hcl hshut
    exact .inl ⟨cl, (List.mem_filter.mp hcl).1, hshut, rfl⟩
  · intro d hd
    exact inHands_free hd fun cl hcl hptr => by simp [hfresh cl hcl hptr]
  · intro d hd cl hcl
    have hd : uc = some d := hd
    obtain ⟨rfl, -⟩ | ⟨rfl, -⟩ := huc
    · obtain rfl := Option.some.inj hd
      simpa using (List.mem_filter.mp hcl).2
    · cases hd
  · rw [listed_of_make rfl, making_of_make rfl]
    change Books (Linked s.uplinkConfig _) (uc.elim s.uplinkClients s.uplinkClients.erase) _ none none
    rw [hlist.2]
    refine hbooks.drop (fun j d => ?_) (fun d hd => ?_) (fun d hd => ?_) (by simp) (by simp)
    · by_cases hj : j = i
      · subst hj
        refine iff_of_false ?_ fun hd => hd.2 (hd.1.client_eq hown)
        rw [linked_self hl, hfits'.2]
        rintro ⟨hd, hst | hst⟩
        · obtain rfl := Option.some.inj hd
          obtain ⟨rfl, -⟩ | ⟨rfl, rfl⟩ := huc
          · exact hst.2 rfl
          · have hle : l.state ≤ 1 := hfits'.1
            rw [hst.1] at hle
            exact absurd hle (by decide)
        · cases hst
      · have hsame : Linked s.uplinkConfig (some (i, .freed uc)) j d ↔
            Linked s.uplinkConfig (some (i, stage)) j d :=
          (linked_ne hj).trans (linked_ne hj).symm
        refine hsame.trans ⟨fun hd => ⟨hd, ?_⟩, fun hd => hd.1⟩
        rintro rfl
        exact hj (hbooks.inj hd hown)
    · exact iff_of_false (by simp) fun he => hd (Option.some.inj (he.symm.trans hc))
    · exact iff_of_false (by simp) (hunlisted d hd)

/-- The rest of the way out behind `err`. -/
theorem Inv.make_freed (h : Inv s) {uc : Option Nat}
    (ht : s.thread = some (.make i (.freed uc) ret)) (env : ConfigEnv) (ans : Answers) :
    Inv (s.makeUplink env ans i (.freed uc) ret) := by
  obtain ⟨l, hl, hfits⟩ := h.stage_fits ht
  have hbooks := h.books_make ht
  rw [State.makeUplink, hl]
  dsimp only
  refine h.of_make ht rfl (fun _ _ => rfl) (fun _ _ hst => by cases hst) rfl rfl (.inl rfl)
    (fun cl hcl hshut => .inl ⟨cl, hcl, hshut, rfl⟩) rfl (fun _ => id)
    (not_gone (gone_of_ret rfl)) ?_
  rw [listed_of_ret rfl, making_of_ret rfl]
  apply hbooks.congr
  intro j d
  by_cases hj : j = i
  · subst hj
    change Linked (s.uplinkConfig.modify j _) none j d ↔ _
    rw [linked_none_self (getElem?_modify_self hl), linked_self hl]
    refine iff_of_false (fun hd => by simp [uplinkStConnected, uplinkStNotLinked] at hd) ?_
    rintro ⟨hd, hst | hst⟩
    · cases uc with
      | none =>
        have hle : l.state ≤ 1 := hfits
        rw [hst.1] at hle
        exact absurd hle (by decide)
      | some c => exact hst.2 (hfits.2.symm.trans hd)
    · cases hst
  · change Linked (s.uplinkConfig.modify i _) none j d ↔ _
    rw [linked_modify_ne hj, ← linked_ne hj]

theorem Inv.make_allocated (h : Inv s) (ht : s.thread = some (.make i (.allocated c) ret))
    (env : ConfigEnv) (ans : Answers) : Inv (s.makeUplink env ans i (.allocated c) ret) := by
  obtain ⟨l, hl, hle, hclient⟩ := h.stage_fits ht
  have hbooks := h.books_make ht
  rw [State.makeUplink, hl]
  dsimp only
  split
  · exact h.make_err ht rfl (.inr ⟨rfl, rfl⟩)
  · split
    · exact h
    · refine h.of_make ht (f := id) (List.modify_id ..).symm (fun _ _ => rfl)
        (fun l hl => h.entries.client l (List.mem_of_getElem? hl)) rfl rfl
        (.inr ⟨.listed c, rfl, l, hl, hle, hclient⟩)
        (fun cl hcl hshut => .inl ⟨cl, hcl, hshut, rfl⟩) rfl (fun _ => id) (not_gone rfl) ?_
      rw [listed_of_make rfl, making_of_make rfl]
      apply hbooks.enlist.congr
      intro j d
      by_cases hj : j = i
      · subst hj
        have hbefore : Linked s.uplinkConfig (some (j, .allocated c)) j d ↔ _ := linked_self hl
        exact (linked_self hl).trans hbefore.symm
      · exact (linked_ne hj).trans (linked_ne hj).symm

theorem Inv.make_listed (h : Inv s) (ht : s.thread = some (.make i (.listed c) ret))
    (env : ConfigEnv) (ans : Answers) : Inv (s.makeUplink env ans i (.listed c) ret) := by
  obtain ⟨l, hl, hle, hclient⟩ := h.stage_fits ht
  have hbooks := h.books_make ht
  rw [State.makeUplink, hl]
  dsimp only
  refine h.of_make ht rfl (fun _ _ => rfl) (fun l₁ hl₁ _ => ?_) rfl rfl
    (.inr ⟨.connected c, rfl, l, hl, rfl, hclient⟩)
    (fun cl hcl hshut => .inl ⟨cl, hcl, hshut, rfl⟩) rfl (fun _ => id) (not_gone rfl) ?_
  · obtain rfl := Option.some.inj (hl.symm.trans hl₁)
    simp [hclient]
  rw [listed_of_make rfl, making_of_make rfl]
  apply hbooks.congr
  intro j d
  by_cases hj : j = i
  · subst hj
    change Linked (s.uplinkConfig.modify j _) _ j d ↔ _
    rw [linked_self (getElem?_modify_self hl), linked_self hl]
    simp only [Stage.client, hclient, Option.some.injEq]
    exact ⟨fun hd => ⟨hd.1, .inr hd.1⟩, fun hd => ⟨hd.1, .inr hd.1⟩⟩
  · change Linked (s.uplinkConfig.modify i _) _ j d ↔ _
    rw [linked_ne hj, linked_ne hj, linked_modify_ne hj]

theorem Inv.make_connected (h : Inv s) (ht : s.thread = some (.make i (.connected c) ret))
    (env : ConfigEnv) (ans : Answers) : Inv (s.makeUplink env ans i (.connected c) ret) := by
  obtain ⟨l, hl, hst, hclient⟩ := h.stage_fits ht
  have hbooks := h.books_make ht
  rw [State.makeUplink, hl]
  dsimp only
  split
  · exact h.make_err ht rfl (.inl ⟨rfl, rfl⟩)
  · refine h.of_make ht (f := id) (List.modify_id ..).symm (fun _ _ => rfl)
      (fun l hl => h.entries.client l (List.mem_of_getElem? hl)) rfl rfl (.inl rfl) ?_ rfl ?_
      (not_gone (gone_of_ret rfl)) ?_
    · intro cl' hcl' hshut
      obtain ⟨cl, hcl, rfl⟩ := List.mem_map.mp hcl'
      refine .inl ⟨cl, hcl, ?_, ?_⟩
      · rw [markPassed] at hshut
        split at hshut <;> exact hshut
      · rw [markPassed]
        split <;> rfl
    · rintro d ⟨cl, hcl, rfl, hhands⟩
      refine ⟨cl, List.mem_map.mpr ⟨cl, hcl, if_neg ?_⟩, rfl, hhands⟩
      rintro rfl
      have := (hbooks.passed cl hcl).mpr rfl
      simp [hhands] at this
    · rw [listed_of_ret rfl, making_of_ret rfl]
      apply hbooks.pass.congr
      intro j d
      by_cases hj : j = i
      · subst hj
        rw [linked_none_self hl, linked_self hl]
        exact and_congr_right fun _ => iff_of_true hst (.inl ⟨hst, by simp [Stage.gone]⟩)
      · exact (linked_ne hj).symm

theorem Inv.makeUplink (h : Inv s) (ht : s.thread = some (.make i stage ret)) (env : ConfigEnv)
    (ans : Answers) (hans : ∀ c ∈ ans.client, ∀ cl ∈ s.clients, cl.ptr ≠ c) :
    Inv (s.makeUplink env ans i stage ret) := by
  cases stage with
  | checks => exact h.make_checks ht env ans
  | connecting => exact h.make_connecting ht env ans hans
  | allocated c => exact h.make_allocated ht env ans
  | listed c => exact h.make_listed ht env ans
  | connected c => exact h.make_connected ht env ans
  | freed uc => exact h.make_freed ht env ans

/-! ### A round of the thread -/

/-- Only what the thread keeps for itself has changed. -/
theorem Inv.own (h : Inv s) (next err : Int) (alarm reconfiguring updated : Bool)
    (picked : List Nat) :
    Inv { s with
      nextUplink := next
      uplinkErrorSet := err
      noUplink := alarm
      uplinkReconfiguring := reconfiguring
      uplinkConfigUpdated := updated
      picked := picked } :=
  ⟨h.books, h.entries, h.alone, h.phase, h.shut, h.stopped, h.mutex, h.gone⟩

theorem Inv.touch (h : Inv s) : Inv s.touch :=
  ⟨h.books, h.entries, h.alone, h.phase, h.shut, h.stopped, h.mutex, h.gone⟩

/-- The thread begins to make an uplink that is down. -/
theorem Inv.begin (h : Inv s) (ht : s.thread = some pc) (hm : pc.making = none) {l : Uplink}
    (hl : s.uplinkConfig[i]? = some l) (hdown : l.state < uplinkStConnecting)
    (hphase : Phase s.uplinkConfig s.uplinkShuttingDown (.make i .checks ret))
    (halone : s.uplinkShuttingDown = false → Regular s.uplinkConfig →
      ∀ (j : Nat) (l : Uplink), s.uplinkConfig[j]? = some l → l.state < uplinkStConnecting) :
    Inv (s.goto (.make i .checks ret)) := by
  have hnone : s.making = none := Inv.making_none ht hm
  have hmake : (s.goto (.make i .checks ret)).making = some (i, .checks) := rfl
  have hbooks := h.books
  rw [State.listed_of_making_none hnone, hnone] at hbooks
  refine ⟨?_, ⟨h.entries.uniform, h.entries.install, h.entries.kinds, ?_, h.entries.client⟩, ?_, ?_,
    ?_, ?_, h.mutex, not_gone rfl⟩
  · rw [listed_of_make rfl, hmake]
    exact hbooks.congr fun j d => linked_of_client_none rfl rfl
  · rintro j stage hst
    rw [hmake] at hst
    cases hst
    exact ⟨l, hl, hdown⟩
  · intro hno hr a b ha hb
    have hbusy : ∀ j, Busy s.uplinkConfig (some (i, .checks)) j → j = i := by
      rintro j (⟨l', hl', hup⟩ | ⟨stage, hst⟩)
      · have := halone hno hr j l' hl'
        omega
      · cases hst
        rfl
    exact (hbusy a ha).trans (hbusy b hb).symm
  · rintro _ ⟨⟩
    exact hphase
  · exact fun hp => by cases hp _ rfl
  · intro hp
    cases hp

/-- `close_uplinkers` leaves no client that is not shut down. -/
theorem Inv.closeUplinkers (h : Inv s) (hnone : s.making = none) :
    Inv s.closeUplinkers ∧ ∀ cl ∈ s.closeUplinkers.clients, cl.shut = true := by
  have hbooks := h.books
  rw [State.listed_of_making_none hnone, hnone] at hbooks
  have hshut := hbooks.shut_markShut
  refine ⟨⟨?_, ⟨h.entries.uniform, h.entries.install, ?_, h.entries.stage, h.entries.client⟩, h.alone, h.phase,
    fun _ => hshut, h.stopped, ?_, not_gone (State.gone_of_making_none hnone)⟩, hshut⟩
  · have hmaking : s.closeUplinkers.making = none := hnone
    rw [State.listed_of_making_none hmaking, hmaking]
    exact hbooks.shutAll
  · intro cl hcl hno
    exact absurd (hshut cl hcl) (by simp [hno])
  · intro c hc
    obtain ⟨cl, hcl, rfl, hhands⟩ := h.mutex c hc
    obtain ⟨hptr, hsame, -⟩ := Books.markShut_spec s.uplinkClients cl
    exact ⟨_, List.mem_map_of_mem hcl, hptr, hsame.trans hhands⟩

theorem seen_zero (cfg : List Uplink) (has : Nat) : Seen cfg 0 has 0 :=
  ⟨fun _ => rfl, fun _ => rfl, fun _ _ _ hj => absurd hj (Nat.not_lt_zero _)⟩

theorem Inv.scanUplink {has avail : Nat} (h : Inv s) (ht : s.thread = some (.scan i has avail)) :
    Inv (s.scanUplink i has avail) := by
  obtain ⟨hi, hseen⟩ := h.phase _ ht
  rw [State.scanUplink]
  cases hl : s.uplinkConfig[i]? with
  | none =>
    have hlen : s.uplinkConfig.length ≤ i := List.getElem?_eq_none_iff.mp hl
    exact h.goto ht rfl rfl ⟨i, hi, hseen, fun _ => by omega⟩ (by simp [Pc.shut])
  | some l =>
    have hmem : l ∈ s.uplinkConfig := List.mem_of_getElem? hl
    obtain ⟨hlt, -⟩ := List.getElem?_eq_some_iff.mp hl
    dsimp only
    split
    · next hmulti =>
      have hr : ¬Regular s.uplinkConfig := fun hr => by simp [hr l hmem] at hmulti
      have hseen' : Seen s.uplinkConfig (i + 1) has avail :=
        ⟨fun _ => hseen.multi hr, fun h' => absurd h' hr, fun h' => absurd h' hr⟩
      split
      · next hdown =>
        exact h.begin ht rfl hl hdown ⟨hlt, hseen', hr⟩ fun _ hr' => absurd hr' hr
      · exact h.goto ht rfl rfl ⟨hlt, hseen'⟩ (by simp [Pc.shut])
    · next hmulti =>
      -- with one regular uplink in the list, all are
      have hr : Regular s.uplinkConfig := fun l' hl' => by
        rw [h.entries.uniform l' hl' l hmem]
        simpa using hmulti
      refine h.goto ht rfl rfl ⟨hlt, ?_⟩ (by simp [Pc.shut])
      have havail := hseen.avail hr
      refine ⟨fun h' => absurd hr h', fun _ => by omega, fun _ hhas j hj l' hl' => ?_⟩
      split at hhas
      · omega
      · next hdown =>
        obtain hj | rfl := Nat.lt_succ_iff_lt_or_eq.mp hj
        · exact hseen.down hr hhas j hj l' hl'
        · obtain rfl := Option.some.inj (hl.symm.trans hl')
          exact Int.not_le.mp hdown

theorem findUplink_regular {ls : List Uplink} (hr : Regular ls) (n i : Nat) :
    State.findUplink n i ls = if n < ls.length then some (i + n) else none := by
  induction ls generalizing n i with
  | nil => cases n <;> simp [State.findUplink]
  | cons l ls ih =>
    cases n with
    | zero => simp [State.findUplink]
    | succ n =>
      rw [State.findUplink, if_neg (by simp [hr l]), ih (fun l' hl' => hr l' (by simp [hl']))]
      simp only [List.length_cons, Nat.succ_lt_succ_iff, Nat.add_right_comm i 1 n, Nat.add_assoc]

/-- The entry that is picked: one behind the last, and around. -/
def nextPick (last : Int) (avail : Nat) : Int := if last + 1 ≥ avail then 0 else last + 1

theorem nextPick_lt (last : Int) {avail : Nat} (h : avail ≠ 0) :
    (nextPick last avail).toNat < avail := by
  rw [nextPick]
  split <;> omega

/-- When nothing is up, the next uplink is picked. -/
theorem Inv.pickUplink_eq {has avail : Nat} (h : Inv s) (ht : s.thread = some (.pick has avail))
    (hno : avail ≠ 0 ∧ has = 0) :
    Regular s.uplinkConfig ∧ avail ≤ s.uplinkConfig.length ∧
      (s.uplinkShuttingDown = false → avail = s.uplinkConfig.length) ∧
      (∀ j < avail, ∀ l, s.uplinkConfig[j]? = some l → l.state < uplinkStConnecting) ∧
      s.pickUplink has avail =
        { s with
          nextUplink := nextPick s.nextUplink avail
          picked := (nextPick s.nextUplink avail).toNat :: s.picked
          thread := some (.make (nextPick s.nextUplink avail).toNat .checks (.alarm has avail)) } := by
  obtain ⟨i, hi, hseen, hall⟩ := h.phase _ ht
  have hr : Regular s.uplinkConfig := by
    by_contra hr
    exact hno.1 (hseen.multi hr)
  obtain rfl := hseen.avail hr
  refine ⟨hr, hi, hall, hseen.down hr hno.2, ?_⟩
  have hlt := nextPick_lt s.nextUplink hno.1
  have hfind := findUplink_regular hr (nextPick s.nextUplink avail).toNat 0
  rw [if_pos (by omega), Nat.zero_add] at hfind
  rw [nextPick] at hfind ⊢
  rw [State.pickUplink, if_pos hno]
  dsimp only
  rw [hfind]
  rfl

theorem Inv.pickUplink {has avail : Nat} (h : Inv s) (ht : s.thread = some (.pick has avail)) :
    Inv (s.pickUplink has avail) := by
  by_cases hno : avail ≠ 0 ∧ has = 0
  · obtain ⟨-, hle, hall, hdown, heq⟩ := h.pickUplink_eq ht hno
    have hlt := nextPick_lt s.nextUplink hno.1
    obtain ⟨l, hl⟩ : ∃ l, s.uplinkConfig[(nextPick s.nextUplink avail).toNat]? = some l :=
      ⟨_, List.getElem?_eq_getElem (by omega)⟩
    rw [heq]
    refine (h.own (nextPick s.nextUplink avail) s.uplinkErrorSet s.noUplink s.uplinkReconfiguring
      s.uplinkConfigUpdated ((nextPick s.nextUplink avail).toNat :: s.picked)).begin ht rfl hl
      (hdown _ hlt l hl) trivial fun hsh _ j l' hl' => ?_
    obtain ⟨hj, -⟩ := List.getElem?_eq_some_iff.mp hl'
    exact hdown j (by rw [hall hsh]; exact hj) l' hl'
  · rw [State.pickUplink, if_neg hno]
    exact h.goto ht rfl rfl trivial (by simp [Pc.shut])

/-- The list is replaced when all clients of the old one are shut down. -/
theorem Inv.replace (h : Inv s) (ht : s.thread = some pc) (hm : pc.making = none)
    (hshut : pc.shut = true) {cfg : List Uplink} (hm' : pc'.making = none)
    (hphase : Phase cfg s.uplinkShuttingDown pc')
    (hnew : ∀ l ∈ cfg, l.state = uplinkStUnknown ∧ l.conf ∈ s.uplinkConfigInstall) :
    Inv ({ s with uplinkConfig := cfg, picked := [] }.goto pc') := by
  have hnone : s.making = none := Inv.making_none ht hm
  have hshut := h.shut_at ht hshut
  have hbooks := h.books
  rw [State.listed_of_making_none hnone, hnone] at hbooks
  have hmaking : ({ s with uplinkConfig := cfg, picked := [] }.goto pc').making = none :=
    Inv.making_none rfl hm'
  refine ⟨?_, ⟨?_, h.entries.install, ?_, ?_, ?_⟩, ?_, ?_, fun _ => hshut, ?_, h.mutex,
    not_gone (State.gone_of_making_none hmaking)⟩
  · rw [State.listed_of_making_none hmaking, hmaking]
    refine hbooks.reset hshut (fun i d hd => ?_) (List.Sublist.refl _)
    obtain ⟨l, hl, -, hst | ⟨stage, hm, -⟩⟩ := hd
    · have hunknown := hst.1
      rw [(hnew l (List.mem_of_getElem? hl)).1] at hunknown
      cases hunknown
    · cases hm
  · intro l hl l' hl'
    exact h.entries.install _ (hnew l hl).2 _ (hnew l' hl').2
  · intro cl hcl hno
    exact absurd (hshut cl hcl) (by simp [hno])
  · intro i stage hst
    rw [hmaking] at hst
    cases hst
  · intro l hl hst
    rw [(hnew l hl).1] at hst
    cases hst
  · rw [hmaking]
    rintro - - i j (⟨l, hl, hst⟩ | ⟨stage, hm⟩)
    · rw [(hnew l (List.mem_of_getElem? hl)).1] at hst
      simp [uplinkStUnknown, uplinkStConnecting] at hst
    · cases hm
  · rintro _ ⟨⟩
    exact hphase
  · intro hp
    cases hp

theorem Inv.uplinkThread (h : Inv s) (ht : s.thread = some pc) (env : ConfigEnv) (ans : Answers)
    (hans : ∀ c ∈ ans.client, ∀ cl ∈ s.clients, cl.ptr ≠ c) : Inv (s.uplinkThread env ans pc) := by
  cases pc with
  | top =>
    rw [State.uplinkThread]
    split
    · exact h.goto ht rfl rfl trivial (by simp [Pc.shut])
    · split
      · exact (h.own s.nextUplink s.uplinkErrorSet s.noUplink false s.uplinkConfigUpdated
          s.picked).goto ht rfl rfl trivial (by simp [Pc.shut])
      · exact h.goto ht rfl rfl trivial (by simp [Pc.shut])
  | close =>
    rw [State.uplinkThread]
    split
    · exact h
    · obtain ⟨hinv, hshut⟩ := h.closeUplinkers (Inv.making_none ht rfl)
      exact hinv.goto ht rfl rfl trivial fun _ => hshut
  | free => exact h.touch.goto ht rfl rfl trivial fun _ => h.shut_at ht rfl
  | freeing => exact h.replace ht rfl rfl rfl trivial (by simp)
  | take =>
    refine h.replace ht rfl rfl rfl trivial fun l hl => ?_
    obtain ⟨conf, hconf, rfl⟩ := List.mem_map.mp hl
    exact ⟨rfl, hconf⟩
  | wipe =>
    have hwiped : Inv { s with uplinkConfigInstall := [] } :=
      ⟨h.books, ⟨h.entries.uniform, by simp, h.entries.kinds, h.entries.stage, h.entries.client⟩,
        h.alone, h.phase, h.shut, h.stopped, h.mutex, h.gone⟩
    exact hwiped.goto ht rfl rfl trivial (by simp [Pc.shut])
  | clear =>
    exact (h.own s.nextUplink s.uplinkErrorSet s.noUplink s.uplinkReconfiguring false
      s.picked).goto ht rfl rfl trivial (by simp [Pc.shut])
  | check =>
    rw [State.uplinkThread]
    split
    · exact h.goto ht rfl rfl trivial (by simp [Pc.shut])
    · split
      · exact (h.own s.nextUplink s.uplinkErrorSet s.noUplink true s.uplinkConfigUpdated
          s.picked).goto ht rfl rfl trivial (by simp [Pc.shut])
      · exact h.goto ht rfl rfl ⟨Nat.zero_le _, seen_zero _ _⟩ (by simp [Pc.shut])
  | scan i has avail => exact h.scanUplink ht
  | scanned i has avail =>
    obtain ⟨hi, hseen⟩ := h.phase _ ht
    rw [State.uplinkThread]
    split
    · next hsh =>
      exact h.goto ht rfl rfl ⟨i + 1, hi, hseen, fun hno => by simp [hsh] at hno⟩ (by simp [Pc.shut])
    · exact h.goto ht rfl rfl ⟨hi, hseen⟩ (by simp [Pc.shut])
  | pick has avail => exact h.pickUplink ht
  | make i stage ret => exact h.makeUplink ht env ans hans
  | alarm has avail =>
    rw [State.uplinkThread]
    split
    · exact (h.own s.nextUplink 1 true s.uplinkReconfiguring s.uplinkConfigUpdated s.picked).goto
        ht rfl (by split <;> rfl) (by split <;> trivial) (by split <;> simp [Pc.shut])
    · split
      · exact (h.own s.nextUplink 0 false s.uplinkReconfiguring s.uplinkConfigUpdated
          s.picked).goto ht rfl (by split <;> rfl) (by split <;> trivial)
          (by split <;> simp [Pc.shut])
      · exact h.goto ht rfl (by split <;> rfl) (by split <;> trivial)
          (by split <;> simp [Pc.shut])
  | sleep => exact h.goto ht rfl rfl trivial (by simp [Pc.shut])
  | leave =>
    rw [State.uplinkThread]
    split
    · exact h
    · obtain ⟨hinv, hshut⟩ := h.closeUplinkers (Inv.making_none ht rfl)
      exact hinv.goto ht rfl rfl trivial fun _ => hshut
  | done => exact h

/-! ### The other events -/

theorem listed_uplinkClose (s : State) (c : Nat) : (s.uplinkClose c).listed = s.listed.erase c := by
  have hgone : (s.uplinkClose c).gone = s.gone := rfl
  rw [State.listed, State.listed, hgone]
  cases s.gone with
  | none => rfl
  | some d => exact List.erase_comm ..

/-- An uplink that is being made stays as it is when another client is unlinked. -/
theorem Stage.Fits.unlink {stage : Stage} {l : Uplink} (h : stage.Fits l)
    (hclient : stage.client ≠ some c) (hgone : stage.gone ≠ some c) :
    stage.Fits (State.unlink c l) := by
  rw [State.unlink]
  split
  · next hc =>
    -- the address of a former client, left behind in the field
    cases stage with
    | checks => simp [Stage.Fits, uplinkStNotLinked, uplinkStConnecting]
    | connecting => simp [Stage.Fits, uplinkStNotLinked, uplinkStConnecting]
    | allocated d => exact absurd (h.2.symm.trans hc) hclient
    | listed d => exact absurd (h.2.symm.trans hc) hclient
    | connected d => exact absurd (h.2.symm.trans hc) hclient
    | freed uc =>
      cases uc with
      | none => simp [Stage.Fits, uplinkStNotLinked, uplinkStConnecting]
      | some d => exact absurd (h.2.symm.trans hc) hgone
  · exact h

/-- The worker that has the mutex goes through the lists. -/
theorem Inv.uplinkClose (h : Inv s) (hc : s.mutex = some c) : Inv (s.uplinkClose c) := by
  obtain ⟨cl, hcl, rfl, hhands⟩ := h.mutex c hc
  have hbooks := h.books
  have hmaking : (s.uplinkClose cl.ptr).making = s.making := rfl
  -- the client that is being connected has not been handed to anybody
  obtain ⟨hfresh, -⟩ := hbooks.not_fresh hcl (by simp [hhands])
  have hne : ∀ i stage, s.making = some (i, stage) → stage.client ≠ some cl.ptr := by
    intro i stage hm hst
    rw [hm] at hfresh
    exact hfresh hst
  have hclosed : ∀ cl' ∈ (s.uplinkClose cl.ptr).clients, ∃ cl₁ ∈ s.clients,
      cl'.ptr = cl₁.ptr ∧ cl'.multi = cl₁.multi ∧ cl'.shut = cl₁.shut := by
    intro cl' hcl'
    obtain ⟨cl₁, hcl₁, rfl⟩ := List.mem_map.mp hcl'
    refine ⟨cl₁, hcl₁, ?_⟩
    rw [markClosed]
    split <;> exact ⟨rfl, rfl, rfl⟩
  have hconf : SameConf s.uplinkConfig (s.uplinkClose cl.ptr).uplinkConfig :=
    sameConf_unlink s.uplinkConfig cl.ptr
  have hentry : ∀ (j : Nat) (l' : Uplink), (s.uplinkClose cl.ptr).uplinkConfig[j]? = some l' →
      ∃ l : Uplink, s.uplinkConfig[j]? = some l ∧ l' = State.unlink cl.ptr l := by
    intro j l' hl'
    rw [State.uplinkClose, List.getElem?_map, Option.map_eq_some_iff] at hl'
    obtain ⟨l, hl, hl'⟩ := hl'
    exact ⟨l, hl, hl'.symm⟩
  have hlower : ∀ (j : Nat) (l' : Uplink), (s.uplinkClose cl.ptr).uplinkConfig[j]? = some l' →
      ∃ l : Uplink, s.uplinkConfig[j]? = some l ∧
        (l'.state < uplinkStConnecting ∨ l'.state = l.state) := by
    intro j l' hl'
    obtain ⟨l, hl, rfl⟩ := hentry j l' hl'
    refine ⟨l, hl, ?_⟩
    rw [State.unlink]
    split
    · left
      simp [uplinkStNotLinked, uplinkStConnecting]
    · right
      rfl
  refine ⟨?_, ⟨?_, h.entries.install, ?_, ?_, ?_⟩, ?_, ?_, ?_, ?_, fun _ hd => (by cases hd), ?_⟩
  · rw [listed_uplinkClose, hmaking]
    exact hbooks.unlink hcl hhands fun j d => linked_unlink hne
  · intro a ha b hb
    obtain ⟨a', ha', hac⟩ := hconf.mem ha
    obtain ⟨b', hb', hbc⟩ := hconf.mem hb
    rw [← hac, ← hbc]
    exact h.entries.uniform a' ha' b' hb'
  · intro d hd hshut l' hl'
    obtain ⟨cl₁, hcl₁, -, hmulti, hsame⟩ := hclosed d hd
    obtain ⟨l, hl, hlc⟩ := hconf.mem hl'
    rw [← hlc, hmulti]
    exact h.entries.kinds cl₁ hcl₁ (hsame ▸ hshut) l hl
  · intro i stage hm
    obtain ⟨l, hl, hfits⟩ := h.entries.stage i stage hm
    refine ⟨State.unlink cl.ptr l, ?_, hfits.unlink (hne i stage hm) fun hgone => ?_⟩
    · rw [State.uplinkClose, List.getElem?_map, hl, Option.map_some]
    · have hgone : s.gone = some cl.ptr := by
        rw [State.gone, ← hmaking, hm]
        exact hgone
      exact h.gone cl.ptr hgone cl hcl rfl
  · intro l' hl' hst
    obtain ⟨l, hl, rfl⟩ := List.mem_map.mp hl'
    rw [State.unlink] at hst ⊢
    split at hst
    · cases hst
    · next hclient =>
      rw [if_neg hclient]
      exact h.entries.client l hl hst
  · intro hno hr a b ha hb
    have hbusy : ∀ j, Busy (s.uplinkClose cl.ptr).uplinkConfig s.making j →
        Busy s.uplinkConfig s.making j := by
      rintro j (⟨l', hl', hst⟩ | hm)
      · obtain ⟨l, hl, hlow | hsame⟩ := hlower j l' hl'
        · omega
        · exact .inl ⟨l, hl, hsame ▸ hst⟩
      · exact .inr hm
    exact h.alone hno (hconf.regular.mp hr) a b (hbusy a ha) (hbusy b hb)
  · exact fun pc hpc => (h.phase pc hpc).of_lower hconf hlower
  · intro hp d hd
    obtain ⟨cl₁, hcl₁, -, -, hsame⟩ := hclosed d hd
    rw [hsame]
    exact h.shut hp cl₁ hcl₁
  · intro hp
    change s.uplinkConfig.map _ = []
    rw [h.stopped hp]
    rfl
  · intro g hg d hd
    obtain ⟨cl₁, hcl₁, hptr, -⟩ := hclosed d hd
    rw [hptr]
    exact h.gone g hg cl₁ hcl₁

/-- A worker begins to close a client that it was handed. -/
theorem Inv.close (h : Inv s) (hc : s.InHands c .worker) :
    Inv { s with clients := s.clients.map (markClosing c) } := by
  obtain ⟨cl, hcl, rfl, hhands⟩ := hc
  have hmark : ∀ cl' ∈ s.clients.map (markClosing cl.ptr), ∃ cl₁ ∈ s.clients,
      cl'.ptr = cl₁.ptr ∧ cl'.multi = cl₁.multi ∧ (cl'.shut = false → cl₁.shut = false) := by
    intro cl' hcl'
    obtain ⟨cl₁, hcl₁, rfl⟩ := List.mem_map.mp hcl'
    refine ⟨cl₁, hcl₁, ?_⟩
    rw [markClosing]
    split
    · exact ⟨rfl, rfl, fun hno => by cases hno⟩
    · exact ⟨rfl, rfl, id⟩
  refine ⟨h.books.close hcl hhands, ⟨h.entries.uniform, h.entries.install, ?_, h.entries.stage,
    h.entries.client⟩, h.alone, h.phase, ?_, h.stopped, ?_, ?_⟩
  · intro cl' hcl' hno l hl
    obtain ⟨cl₁, hcl₁, -, hmulti, hshut⟩ := hmark cl' hcl'
    rw [hmulti]
    exact h.entries.kinds cl₁ hcl₁ (hshut hno) l hl
  · intro hp cl' hcl'
    obtain ⟨cl₁, hcl₁, -, -, hshut⟩ := hmark cl' hcl'
    by_contra hno
    have := h.shut hp cl₁ hcl₁
    rw [hshut (by simpa using hno)] at this
    cases this
  · intro d hd
    obtain ⟨cl₁, hcl₁, rfl, hclosing⟩ := h.mutex d hd
    refine ⟨_, List.mem_map_of_mem hcl₁, ?_⟩
    rw [markClosing]
    split
    · exact ⟨rfl, rfl⟩
    · exact ⟨rfl, hclosing⟩
  · intro g hg cl' hcl'
    obtain ⟨cl₁, hcl₁, hptr, -⟩ := hmark cl' hcl'
    rw [hptr]
    exact h.gone g hg cl₁ hcl₁

theorem Inv.lock (h : Inv s) (hc : s.InHands c .closing) : Inv (s.lock c) := by
  refine ⟨h.books, h.entries, h.alone, h.phase, h.shut, h.stopped, ?_, h.gone⟩
  rintro _ ⟨⟩
  exact hc

/-- A worker frees a client. -/
theorem Inv.free (h : Inv s) (hc : s.InHands c .closed) : Inv (s.clientFree c) := by
  obtain ⟨cl, hcl, rfl, hhands⟩ := hc
  refine ⟨h.books.free hcl hhands, ⟨h.entries.uniform, h.entries.install, ?_, h.entries.stage,
    h.entries.client⟩, h.alone, h.phase, ?_, h.stopped, ?_, ?_⟩
  · exact fun d hd => h.entries.kinds d (List.mem_filter.mp hd).1
  · exact fun hp d hd => h.shut hp d (List.mem_filter.mp hd).1
  · intro d hd
    refine inHands_free (h.mutex d hd) fun cl' hcl' hptr => ?_
    rw [h.books.eq_of_ptr hcl' hcl hptr, hhands]
    decide
  · exact fun g hg d hd => h.gone g hg d (List.mem_filter.mp hd).1

/-- A mixed list is not put in place. -/
theorem uplinksAllowed_uniform (ups : List UplinkConfigT) :
    ∀ l ∈ uplinksAllowed ups, ∀ l' ∈ uplinksAllowed ups, l.multi = l'.multi := by
  rw [uplinksAllowed]
  split
  · simp
  · next hno =>
    intro l hl l' hl'
    have hmixed : uplinksMixed ups = false := by
      simp only [Bool.or_eq_true, not_or, Bool.not_eq_true] at hno
      exact hno.1
    rw [uplinksMixed, Bool.and_eq_false_iff] at hmixed
    obtain hnone | hall := hmixed
    · rw [List.any_eq_false] at hnone
      have h1 := hnone l hl
      have h2 := hnone l' hl'
      simp_all
    · rw [List.any_eq_false] at hall
      have h1 := hall l hl
      have h2 := hall l' hl'
      simp_all

theorem Inv.installUplinks (h : Inv s) (ups : List UplinkConfigT) : Inv (s.installUplinks ups) := by
  rw [State.installUplinks]
  split
  · exact ⟨h.books, ⟨h.entries.uniform, uplinksAllowed_uniform ups, h.entries.kinds,
      h.entries.stage, h.entries.client⟩, h.alone, h.phase, h.shut, h.stopped, h.mutex, h.gone⟩
  · exact h

theorem Inv.stop (h : Inv s) : Inv { s with uplinkShuttingDown := true } := by
  refine ⟨h.books, h.entries, nofun, fun pc hpc => ?_, h.shut, h.stopped, h.mutex, h.gone⟩
  have hphase := h.phase pc hpc
  cases pc with
  | scan i has avail => exact hphase
  | scanned i has avail => exact hphase
  | pick has avail =>
    obtain ⟨i, hi, hseen, -⟩ := hphase
    exact ⟨i, hi, hseen, nofun⟩
  | make i stage ret =>
    cases ret with
    | scanned k has avail => exact hphase
    | alarm has avail => trivial
  | top => trivial
  | close => trivial
  | free => trivial
  | freeing => trivial
  | take => trivial
  | wipe => trivial
  | clear => trivial
  | check => trivial
  | alarm has avail => trivial
  | sleep => trivial
  | leave => trivial
  | done => trivial

theorem Inv.start (h : Inv s) (hnone : s.thread = none) :
    Inv { s with
      uplinkShuttingDown := false
      uplinkReconfiguring := true
      nextUplink := -1
      uplinkErrorSet := -1
      thread := some .top } := by
  have hcfg := h.stopped hnone
  have hmaking : s.making = none := by rw [State.making, hnone]; rfl
  have hbooks := h.books
  have hentries := h.entries
  rw [State.listed_of_making_none hmaking] at hbooks
  rw [hmaking] at hbooks hentries
  refine ⟨hbooks, hentries, ?_, ?_, ?_, ?_, h.mutex, not_gone rfl⟩
  · rintro - - i j (⟨l, hl, -⟩ | ⟨stage, hm⟩)
    · rw [hcfg] at hl
      cases hl
    · cases hm
  · rintro _ ⟨⟩
    trivial
  · exact fun hp => by cases hp _ rfl
  · intro hp
    cases hp

theorem Inv.uplinkStopped (h : Inv s) (hdone : s.thread = some .done) : Inv s.uplinkStopped := by
  have hshut := h.shut_at hdone rfl
  have hmaking : s.making = none := Inv.making_none hdone rfl
  have hbooks := h.books
  rw [State.listed_of_making_none hmaking, hmaking] at hbooks
  refine ⟨?_, ⟨by simp [State.uplinkStopped], h.entries.install, ?_, ?_,
    by simp [State.uplinkStopped]⟩, ?_, ?_, ?_, fun _ => rfl, h.mutex, not_gone rfl⟩
  · refine hbooks.reset hshut (fun i d hd => ?_) (List.nil_sublist _)
    obtain ⟨l, hl, -⟩ := hd
    cases hl
  · intro cl hcl hno
    exact absurd (hshut cl hcl) (by simp [hno])
  · intro i stage hm
    cases hm
  · rintro - - i j (⟨l, hl, -⟩ | ⟨stage, hm⟩)
    · cases hl
    · cases hm
  · intro pc hpc
    cases hpc
  · exact fun _ => hshut

theorem Inv.flagUplinks (h : Inv s) : Inv s.flagUplinks :=
  ⟨h.books, h.entries, h.alone, h.phase, h.shut, h.stopped, h.mutex, h.gone⟩

theorem answers_fresh (ans : Answers) :
    ∀ c ∈ (s.answers ans).client, ∀ cl ∈ s.clients, cl.ptr ≠ c := by
  intro c hc cl hcl
  have hall := (Option.mem_filter_iff.mp hc).2
  simpa using List.all_eq_true.mp hall cl hcl

/-- Every event keeps the invariant. -/
theorem Inv.step (h : Inv s) (env : ConfigEnv) (e : State.Event) : Inv (s.step env e) := by
  cases e with
  | start =>
    rw [State.step]
    split
    · exact h
    · next hnone => exact h.start (by simpa using hnone)
  | thread ans =>
    rw [State.step]
    cases ht : s.thread with
    | none => exact h
    | some pc => exact h.uplinkThread ht env _ (answers_fresh ans)
  | close c =>
    rw [State.step]
    split
    · next hc => exact h.close hc
    · exact h
  | lock c =>
    rw [State.step]
    split
    · next hc => exact h.lock hc.1
    · exact h
  | unlock =>
    rw [State.step]
    split
    · exact h
    · next hc => exact h.uplinkClose hc
  | free c =>
    rw [State.step]
    split
    · next hc => exact h.free hc
    · exact h
  | reload ups =>
    rw [State.step]
    split
    · exact h
    · exact h.installUplinks ups
  | flag =>
    rw [State.step]
    split
    · exact h.flagUplinks
    · exact h
  | stop =>
    rw [State.step]
    split
    · exact h.stop
    · exact h
  | join =>
    rw [State.step]
    split
    · next hdone => exact h.uplinkStopped hdone.1
    · exact h

end Steps

/-! ## One regular uplink at a time -/

/-- What the rest of the server relies on. A client that a failing call of `make_uplink` has
just freed is still in the list of clients, and its entry still has it. -/
structure Safe (s : State) : Prop where
  /-- A regular uplink is alone, except for clients whose sockets have been shut down. -/
  single : s.uplinkShuttingDown = false → ∀ cl ∈ s.clients, ∀ cl' ∈ s.clients,
    cl.shut = false → cl'.shut = false → cl.multi = false → cl' = cl
  /-- A client that a worker has got belongs to one entry, and that one is connected. -/
  owner : ∀ cl ∈ s.clients, cl.shut = false → cl.hands ≠ .thread →
    ∃! i : Nat, ∃ l : Uplink, s.uplinkConfig[i]? = some l ∧ l.state = uplinkStConnected ∧ l.client = some cl.ptr
  /-- The client of a connected entry has not been freed. -/
  connected : ∀ l ∈ s.uplinkConfig, l.state = uplinkStConnected →
    ∃ c, l.client = some c ∧ (s.gone = some c ∨ ∃ cl ∈ s.clients, cl.ptr = c)
  /-- The list has each client once, none that has been freed, and all that may have to be shut
  down. -/
  nodup : s.uplinkClients.Nodup
  listed : ∀ c ∈ s.uplinkClients, s.gone = some c ∨ ∃ cl ∈ s.clients, cl.ptr = c
  reached : ∀ cl ∈ s.clients, cl.shut = false → cl.hands ≠ .thread → cl.ptr ∈ s.uplinkClients

section Runs

open Runs

variable {s : State}

theorem Inv.linked_of_passed (h : Inv s) {cl : Client} (hcl : cl ∈ s.clients)
    (hpassed : cl.hands ≠ .thread) (i : Nat) :
    Linked s.uplinkConfig s.making i cl.ptr ↔
      ∃ l : Uplink, s.uplinkConfig[i]? = some l ∧ l.state = uplinkStConnected ∧
        l.client = some cl.ptr := by
  constructor
  · rintro ⟨l, hl, hc, hst | ⟨stage, hm, hst⟩⟩
    · exact ⟨l, hl, hst.1, hc⟩
    · have hfresh : s.making.bind (·.2.client) = some cl.ptr := by
        rw [hm]
        exact hst
      exact absurd ((h.books.passed cl hcl).mpr hfresh) hpassed
  · rintro ⟨l, hl, hst, hc⟩
    refine ⟨l, hl, hc, .inl ⟨hst, fun hm => ?_⟩⟩
    have hgone : s.gone = some cl.ptr := by
      rw [State.gone, hm]
      rfl
    exact h.gone _ hgone cl hcl rfl

theorem busy_of_linked {cfg : List Uplink} {making : Option (Nat × Stage)} {i c : Nat}
    (h : Linked cfg making i c) : Busy cfg making i := by
  obtain ⟨l, hl, -, hst | ⟨stage, hm, -⟩⟩ := h
  · exact .inl ⟨l, hl, by rw [hst.1]; decide⟩
  · exact .inr ⟨stage, hm⟩

/-- The list of clients has one more client than it should at most: the one that has been
freed. -/
theorem State.mem_uplinkClients (s : State) (c : Nat) :
    c ∈ s.uplinkClients ↔ c ∈ s.listed ∨ s.gone = some c ∧ c ∈ s.uplinkClients := by
  rw [State.listed]
  cases hg : s.gone with
  | none => simp
  | some d =>
    rw [Option.elim_some]
    by_cases hc : c = d
    · subst hc
      simpa using fun hmem => List.mem_of_mem_erase hmem
    · have hd : d ≠ c := fun he => hc he.symm
      simp [List.mem_erase_of_ne hc, hd]

theorem Inv.nodup_uplinkClients (h : Inv s) : s.uplinkClients.Nodup := by
  have hnodup := h.books.nodup
  have hlisted := h.books.listed
  rw [State.listed] at hnodup hlisted
  cases hg : s.gone with
  | none => rwa [hg] at hnodup
  | some d =>
    rw [hg, Option.elim_some] at hnodup hlisted
    have hnot : d ∉ s.uplinkClients.erase d := by
      intro hd
      obtain ⟨cl, hcl, hptr⟩ := hlisted d hd
      exact h.gone d hg cl hcl hptr
    by_cases hd : d ∈ s.uplinkClients
    · exact (List.perm_cons_erase hd).nodup_iff.mpr (List.nodup_cons.mpr ⟨hnot, hnodup⟩)
    · rwa [List.erase_of_not_mem hd] at hnodup

theorem Inv.safe (h : Inv s) : Safe s := by
  refine ⟨?_, ?_, ?_, h.nodup_uplinkClients, ?_, ?_⟩
  · intro hno cl hcl cl' hcl' hshut hshut' hmulti
    obtain ⟨i, hi⟩ := h.books.owned cl hcl hshut
    obtain ⟨j, hj⟩ := h.books.owned cl' hcl' hshut'
    have hr : Regular s.uplinkConfig := fun l hl => by
      rw [h.entries.kinds cl hcl hshut l hl]
      exact hmulti
    have hij := h.alone hno hr i j (busy_of_linked hi) (busy_of_linked hj)
    subst hij
    exact h.books.eq_of_ptr hcl' hcl (hj.client_eq hi)
  · intro cl hcl hshut hpassed
    obtain ⟨i, hi⟩ := h.books.owned cl hcl hshut
    refine ⟨i, (h.linked_of_passed hcl hpassed i).mp hi, fun j hj => ?_⟩
    exact h.books.inj ((h.linked_of_passed hcl hpassed j).mpr hj) hi
  · intro l hl hst
    obtain ⟨i, hi⟩ := List.mem_iff_getElem?.mp hl
    obtain ⟨c, hc⟩ := Option.ne_none_iff_exists'.mp (h.entries.client l hl hst)
    refine ⟨c, hc, ?_⟩
    by_cases hm : s.making = some (i, .freed (some c))
    · left
      rw [State.gone, hm]
      rfl
    · exact .inr (h.books.live ⟨l, hi, hc, .inl ⟨hst, hm⟩⟩)
  · intro c hc
    exact ((s.mem_uplinkClients c).mp hc).symm.imp (·.1) (h.books.listed c)
  · intro cl hcl hshut hpassed
    refine (s.mem_uplinkClients cl.ptr).mpr (.inl ?_)
    exact (h.books.reached cl hcl hshut).resolve_right (h.books.not_fresh hcl hpassed).2

/-- In every run of the thread, of the workers that close its clients at any moment, of reloads
and restarts, as long as the thread and a worker have not been at the lists at the same time:
there is never a second regular uplink whose socket has not been shut down, each client
belongs to one connected entry, and the list of clients is exact. -/
theorem one_uplink_of_run (env : ConfigEnv) (es : List State.Event) :
    Always (fun s e => s.step env e) (fun s => s.raced = false → Safe s) init es :=
  (always_of_step (fun _ e h => h.step env e) inv_init es).imp fun _ h _ => h.safe

end Runs

end Uplinks

end Aprsc
