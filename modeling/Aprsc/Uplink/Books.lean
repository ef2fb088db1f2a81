-- SUMMARY: Which entry of the uplink thread has which client, and what the list of clients says of them.
import Aprsc.Uplink.Thread

namespace Aprsc

namespace Uplinks

/-! ## Who has which client

Between an entry and its client stands a relation. What is true of it, of the list of
clients and of the clients themselves holds whatever an entry looks like.
-/

/-- The clients, with the one that a call of `make_uplink` has allocated, and whether that one
is not in the list yet. -/
structure Books (R : Nat → Nat → Prop) (list : List Nat) (clients : List Client)
    (fresh unlisted : Option Nat) : Prop where
  ptrs : (clients.map (·.ptr)).Nodup
  nodup : list.Nodup
  listed : ∀ c ∈ list, ∃ cl ∈ clients, cl.ptr = c
  reached : ∀ cl ∈ clients, cl.shut = false → cl.ptr ∈ list ∨ unlisted = some cl.ptr
  unlisted : ∀ c ∈ unlisted, c ∉ list ∧ fresh = some c
  owned : ∀ cl ∈ clients, cl.shut = false → ∃ i, R i cl.ptr
  live : ∀ {i c}, R i c → ∃ cl ∈ clients, cl.ptr = c
  inj : ∀ {i j c}, R i c → R j c → i = j
  passed : ∀ cl ∈ clients, cl.hands = .thread ↔ fresh = some cl.ptr
  fresh : ∀ c ∈ fresh, ∃ cl ∈ clients, cl.ptr = c
  closing : ∀ cl ∈ clients, cl.hands = .closing ∨ cl.hands = .closed → cl.shut = true
  closed : ∀ cl ∈ clients, cl.hands = .closed → cl.ptr ∉ list ∧ ∀ i, ¬R i cl.ptr

namespace Books

variable {R R' : Nat → Nat → Prop} {list : List Nat} {clients : List Client}
  {fresh unlisted : Option Nat} {c : Nat}

theorem eq_of_ptr (h : Books R list clients fresh unlisted) {a b : Client} (ha : a ∈ clients)
    (hb : b ∈ clients) (hptr : a.ptr = b.ptr) : a = b :=
  List.inj_on_of_nodup_map h.ptrs ha hb hptr

/-- The relation is only said in another way. -/
theorem congr (h : Books R list clients fresh unlisted) (hR : ∀ i c, R' i c ↔ R i c) :
    Books R' list clients fresh unlisted := by
  have : R' = R := by
    funext i c
    exact propext (hR i c)
  rwa [this]

/-- A client is freed. -/
theorem drop (h : Books R list clients fresh unlisted) (hR : ∀ i d, R' i d ↔ R i d ∧ d ≠ c)
    {fresh' unlisted' : Option Nat} (hfresh : ∀ d ≠ c, fresh' = some d ↔ fresh = some d)
    (hunlisted : ∀ d ≠ c, unlisted' = some d ↔ unlisted = some d) (hnf : fresh' ≠ some c)
    (hnu : unlisted' ≠ some c) :
    Books R' (list.erase c) (clients.filter (·.ptr ≠ c)) fresh' unlisted' := by
  have hmem : ∀ cl, cl ∈ clients.filter (·.ptr ≠ c) ↔ cl ∈ clients ∧ cl.ptr ≠ c := by simp
  constructor
  · exact (h.ptrs.sublist (List.filter_sublist.map _))
  · exact h.nodup.erase c
  · intro d hd
    obtain ⟨hne, hd⟩ := h.nodup.mem_erase_iff.mp hd
    obtain ⟨cl, hcl, rfl⟩ := h.listed d hd
    exact ⟨cl, (hmem cl).mpr ⟨hcl, hne⟩, rfl⟩
  · intro cl hcl hshut
    obtain ⟨hcl, hne⟩ := (hmem cl).mp hcl
    rw [h.nodup.mem_erase_iff, hunlisted _ hne]
    exact (h.reached cl hcl hshut).imp_left fun hlist => ⟨hne, hlist⟩
  · intro d hd
    have hne : d ≠ c := by
      rintro rfl
      exact hnu hd
    obtain ⟨hnot, hf⟩ := h.unlisted d ((hunlisted d hne).mp hd)
    exact ⟨fun hmem => hnot (List.mem_of_mem_erase hmem), (hfresh d hne).mpr hf⟩
  · intro cl hcl hshut
    obtain ⟨hcl, hne⟩ := (hmem cl).mp hcl
    obtain ⟨i, hi⟩ := h.owned cl hcl hshut
    exact ⟨i, (hR i _).mpr ⟨hi, hne⟩⟩
  · intro i d hd
    obtain ⟨hd, hne⟩ := (hR i d).mp hd
    obtain ⟨cl, hcl, rfl⟩ := h.live hd
    exact ⟨cl, (hmem cl).mpr ⟨hcl, hne⟩, rfl⟩
  · intro i j d hi hj
    exact h.inj ((hR i d).mp hi).1 ((hR j d).mp hj).1
  · intro cl hcl
    obtain ⟨hcl, hne⟩ := (hmem cl).mp hcl
    exact (h.passed cl hcl).trans (hfresh _ hne).symm
  · intro d hd
    have hne : d ≠ c := by
      rintro rfl
      exact hnf hd
    obtain ⟨cl, hcl, rfl⟩ := h.fresh d ((hfresh d hne).mp hd)
    exact ⟨cl, (hmem cl).mpr ⟨hcl, hne⟩, rfl⟩
  · exact fun cl hcl => h.closing cl ((hmem cl).mp hcl).1
  · intro cl hcl hclosed
    obtain ⟨hnot, hno⟩ := h.closed cl ((hmem cl).mp hcl).1 hclosed
    exact ⟨fun hmem => hnot (List.mem_of_mem_erase hmem), fun i hi => hno i ((hR i _).mp hi).1⟩

/-- A client is allocated for an entry. -/
theorem add (h : Books R list clients none none) (hnew : ∀ cl ∈ clients, cl.ptr ≠ c) {i : Nat}
    (hR : ∀ j d, R' j d ↔ R j d ∨ j = i ∧ d = c) (multi : Bool) :
    Books R' list (⟨c, multi, false, .thread⟩ :: clients) (some c) (some c) := by
  have hne : ∀ {j d}, R j d → d ≠ c := by
    rintro j d hd rfl
    obtain ⟨cl, hcl, hptr⟩ := h.live hd
    exact hnew cl hcl hptr
  constructor
  · rw [List.map_cons, List.nodup_cons]
    refine ⟨fun hmem => ?_, h.ptrs⟩
    obtain ⟨cl, hcl, hptr⟩ := List.mem_map.mp hmem
    exact hnew cl hcl hptr
  · exact h.nodup
  · intro d hd
    obtain ⟨cl, hcl, hptr⟩ := h.listed d hd
    exact ⟨cl, List.mem_cons_of_mem _ hcl, hptr⟩
  · intro cl hcl hshut
    obtain rfl | hcl := List.mem_cons.mp hcl
    · exact .inr rfl
    · exact .inl ((h.reached cl hcl hshut).resolve_right (by simp))
  · rintro d ⟨⟩
    refine ⟨fun hmem => ?_, rfl⟩
    obtain ⟨cl, hcl, hptr⟩ := h.listed _ hmem
    exact hnew cl hcl hptr
  · intro cl hcl hshut
    obtain rfl | hcl := List.mem_cons.mp hcl
    · exact ⟨i, (hR _ _).mpr (.inr ⟨rfl, rfl⟩)⟩
    · obtain ⟨j, hj⟩ := h.owned cl hcl hshut
      exact ⟨j, (hR _ _).mpr (.inl hj)⟩
  · intro j d hd
    obtain hd | ⟨-, rfl⟩ := (hR j d).mp hd
    · obtain ⟨cl, hcl, hptr⟩ := h.live hd
      exact ⟨cl, List.mem_cons_of_mem _ hcl, hptr⟩
    · exact ⟨_, List.mem_cons_self, rfl⟩
  · intro j k d hj hk
    obtain hj | ⟨rfl, rfl⟩ := (hR j d).mp hj
    · obtain hk | ⟨-, rfl⟩ := (hR k d).mp hk
      · exact h.inj hj hk
      · exact absurd rfl (hne hj)
    · obtain hk | ⟨rfl, -⟩ := (hR k d).mp hk
      · exact absurd rfl (hne hk)
      · rfl
  · intro cl hcl
    obtain rfl | hcl := List.mem_cons.mp hcl
    · simp
    · refine (h.passed cl hcl).trans ⟨fun he => (Option.some_ne_none _ he.symm).elim, fun he => ?_⟩
      exact absurd (Option.some.inj he).symm (hnew cl hcl)
  · rintro d ⟨⟩
    exact ⟨_, List.mem_cons_self, rfl⟩
  · intro cl hcl hhands
    obtain rfl | hcl := List.mem_cons.mp hcl
    · simp at hhands
    · exact h.closing cl hcl hhands
  · intro cl hcl hclosed
    obtain rfl | hcl := List.mem_cons.mp hcl
    · cases hclosed
    · obtain ⟨hnot, hno⟩ := h.closed cl hcl hclosed
      refine ⟨hnot, fun j hj => ?_⟩
      exact ((hR j _).mp hj).elim (hno j) fun hd => hnew cl hcl hd.2

/-- The new client is put in the list. -/
theorem enlist (h : Books R list clients (some c) (some c)) :
    Books R (c :: list) clients (some c) none := by
  constructor
  · exact h.ptrs
  · exact List.nodup_cons.mpr ⟨(h.unlisted c rfl).1, h.nodup⟩
  · intro d hd
    obtain rfl | hd := List.mem_cons.mp hd
    · exact h.fresh _ rfl
    · exact h.listed d hd
  · intro cl hcl hshut
    left
    obtain hl | hl := h.reached cl hcl hshut
    · exact List.mem_cons_of_mem _ hl
    · obtain rfl := Option.some.inj hl
      exact List.mem_cons_self
  · simp
  · exact h.owned
  · exact h.live
  · exact h.inj
  · exact h.passed
  · exact h.fresh
  · exact h.closing
  · intro cl hcl hclosed
    obtain ⟨hnot, hno⟩ := h.closed cl hcl hclosed
    refine ⟨fun hmem => ?_, hno⟩
    obtain hc | hmem := List.mem_cons.mp hmem
    · have := (h.passed cl hcl).mpr (congrArg some hc.symm)
      simp [hclosed] at this
    · exact hnot hmem

/-- The clients are changed, and keep their addresses. -/
theorem map (h : Books R list clients fresh unlisted) {f : Client → Client}
    (hptr : ∀ cl, (f cl).ptr = cl.ptr)
    (hshut : ∀ cl ∈ clients, (f cl).shut = false → cl.shut = false) {fresh' : Option Nat}
    (hpassed : ∀ cl ∈ clients, (f cl).hands = .thread ↔ fresh' = some cl.ptr)
    (hfresh : ∀ d ∈ fresh', fresh = some d) (hunlisted : ∀ d ∈ unlisted, fresh' = some d)
    (hclosing : ∀ cl ∈ clients, (f cl).hands = .closing ∨ (f cl).hands = .closed →
      (f cl).shut = true)
    (hclosed : ∀ cl ∈ clients, (f cl).hands = .closed → cl.ptr ∉ list ∧ ∀ i, ¬R i cl.ptr) :
    Books R list (clients.map f) fresh' unlisted := by
  have hlive : ∀ {d}, (∃ cl ∈ clients, cl.ptr = d) → ∃ cl ∈ clients.map f, cl.ptr = d := by
    rintro d ⟨cl, hcl, rfl⟩
    exact ⟨f cl, List.mem_map_of_mem hcl, hptr cl⟩
  have hall : ∀ {P : Client → Prop}, (∀ cl ∈ clients, P (f cl)) → ∀ cl ∈ clients.map f, P cl :=
    fun hP => List.forall_mem_map.mpr hP
  constructor
  · rw [List.map_map]
    exact (List.map_congr_left fun cl _ => hptr cl) ▸ h.ptrs
  · exact h.nodup
  · exact fun d hd => hlive (h.listed d hd)
  · refine hall fun cl hcl hno => ?_
    rw [hptr]
    exact h.reached cl hcl (hshut cl hcl hno)
  · exact fun d hd => ⟨(h.unlisted d hd).1, hunlisted d hd⟩
  · refine hall fun cl hcl hno => ?_
    rw [hptr]
    exact h.owned cl hcl (hshut cl hcl hno)
  · exact fun hi => hlive (h.live hi)
  · exact h.inj
  · refine hall fun cl hcl => ?_
    rw [hptr]
    exact hpassed cl hcl
  · exact fun d hd => hlive (h.fresh d (hfresh d hd))
  · exact hall hclosing
  · refine hall fun cl hcl hc => ?_
    rw [hptr]
    exact hclosed cl hcl hc

/-- The new client goes to a worker. -/
theorem pass (h : Books R list clients (some c) none) :
    Books R list (clients.map (markPassed c)) none none := by
  have hmark : ∀ cl, (markPassed c cl).ptr = cl.ptr ∧ (markPassed c cl).shut = cl.shut ∧
      (markPassed c cl).hands = if cl.ptr = c then .worker else cl.hands := by
    intro cl
    rw [markPassed]
    split <;> simp
  refine h.map (fun cl => (hmark cl).1) (fun cl _ hno => (hmark cl).2.1 ▸ hno) ?_ (by simp) (by simp)
    ?_ ?_
  · intro cl hcl
    have hp := h.passed cl hcl
    rw [(hmark cl).2.2]
    split
    · simp
    · next hne =>
      have hne' : c ≠ cl.ptr := fun he => hne he.symm
      simpa [hne'] using hp
  · intro cl hcl hhands
    rw [(hmark cl).2.2] at hhands
    rw [(hmark cl).2.1]
    split at hhands
    · simp at hhands
    · exact h.closing cl hcl hhands
  · intro cl hcl hclosed
    rw [(hmark cl).2.2] at hclosed
    split at hclosed
    · cases hclosed
    · exact h.closed cl hcl hclosed

theorem markShut_spec (list : List Nat) (cl : Client) :
    (markShut list cl).ptr = cl.ptr ∧ (markShut list cl).hands = cl.hands ∧
      ((markShut list cl).shut = false ↔ cl.shut = false ∧ cl.ptr ∉ list) := by
  rw [markShut]
  split
  · next hmem => simp [hmem]
  · next hnot => simp [hnot]

/-- All clients that the list has are shut down: that is all of them. -/
theorem shut_markShut (h : Books R list clients none none) :
    ∀ cl ∈ clients.map (markShut list), cl.shut = true := by
  intro cl' hcl'
  obtain ⟨cl, hcl, rfl⟩ := List.mem_map.mp hcl'
  -- a client that is not in the list has been shut down before
  by_contra hno
  obtain ⟨hshut, hnot⟩ := (markShut_spec list cl).2.2.mp (by simpa using hno)
  exact (h.reached cl hcl hshut).elim hnot (by simp)

theorem shutAll (h : Books R list clients none none) :
    Books R list (clients.map (markShut list)) none none := by
  refine h.map (fun cl => (markShut_spec list cl).1)
    (fun cl _ hno => ((markShut_spec list cl).2.2.mp hno).1) ?_ (by simp) (by simp) ?_ ?_
  · intro cl hcl
    rw [(markShut_spec list cl).2.1]
    exact h.passed cl hcl
  · intro cl hcl _
    exact h.shut_markShut _ (List.mem_map_of_mem hcl)
  · intro cl hcl hclosed
    rw [(markShut_spec list cl).2.1] at hclosed
    exact h.closed cl hcl hclosed

/-- A worker has the client. -/
theorem not_fresh (h : Books R list clients fresh unlisted) {cl : Client} (hcl : cl ∈ clients)
    (hhands : cl.hands ≠ .thread) : fresh ≠ some cl.ptr ∧ unlisted ≠ some cl.ptr := by
  have hfresh : fresh ≠ some cl.ptr := fun hf => hhands ((h.passed cl hcl).mpr hf)
  exact ⟨hfresh, fun hu => hfresh (h.unlisted _ hu).2⟩

/-- A worker begins to close a client. -/
theorem close (h : Books R list clients fresh unlisted) {cl₀ : Client} (hcl₀ : cl₀ ∈ clients)
    (hworker : cl₀.hands = .worker) :
    Books R list (clients.map (markClosing cl₀.ptr)) fresh unlisted := by
  have hmark : ∀ cl, (markClosing cl₀.ptr cl).ptr = cl.ptr := by
    intro cl
    rw [markClosing]
    split <;> rfl
  obtain ⟨hfresh, -⟩ := h.not_fresh hcl₀ (by simp [hworker])
  refine h.map hmark (fun cl _ hno => ?_) ?_ (by simp) (fun d hd => (h.unlisted d hd).2) ?_ ?_
  · rw [markClosing] at hno
    split at hno
    · cases hno
    · exact hno
  · intro cl hcl
    rw [markClosing]
    split
    · next hptr => simpa [hptr] using hfresh
    · exact h.passed cl hcl
  · intro cl hcl hhands
    rw [markClosing] at hhands ⊢
    split
    · rfl
    · next hne =>
      rw [if_neg hne] at hhands
      exact h.closing cl hcl hhands
  · intro cl hcl hclosed
    rw [markClosing] at hclosed
    split at hclosed
    · cases hclosed
    · exact h.closed cl hcl hclosed

/-- A client whose socket is shut may be taken off the list, and from its entry. -/
theorem forget (h : Books R list clients fresh unlisted) {cl₀ : Client} (hcl₀ : cl₀ ∈ clients)
    (hshut : cl₀.shut = true) (hR : ∀ i d, R' i d ↔ R i d ∧ d ≠ cl₀.ptr) :
    Books R' (list.erase cl₀.ptr) clients fresh unlisted := by
  have hne : ∀ cl ∈ clients, cl.shut = false → cl.ptr ≠ cl₀.ptr := by
    intro cl hcl hno hptr
    rw [h.eq_of_ptr hcl hcl₀ hptr, hshut] at hno
    cases hno
  constructor
  · exact h.ptrs
  · exact h.nodup.erase _
  · exact fun d hd => h.listed d (List.mem_of_mem_erase hd)
  · intro cl hcl hno
    rw [h.nodup.mem_erase_iff]
    exact (h.reached cl hcl hno).imp_left fun hlist => ⟨hne cl hcl hno, hlist⟩
  · intro d hd
    exact ⟨fun hmem => (h.unlisted d hd).1 (List.mem_of_mem_erase hmem), (h.unlisted d hd).2⟩
  · intro cl hcl hno
    obtain ⟨i, hi⟩ := h.owned cl hcl hno
    exact ⟨i, (hR i _).mpr ⟨hi, hne cl hcl hno⟩⟩
  · exact fun hi => h.live ((hR _ _).mp hi).1
  · exact fun hi hj => h.inj ((hR _ _).mp hi).1 ((hR _ _).mp hj).1
  · exact h.passed
  · exact h.fresh
  · exact h.closing
  · intro cl hcl hclosed
    obtain ⟨hnot, hno⟩ := h.closed cl hcl hclosed
    exact ⟨fun hmem => hnot (List.mem_of_mem_erase hmem), fun i hi => hno i ((hR i _).mp hi).1⟩

/-- `uplink_close` is done with a client. -/
theorem unlink (h : Books R list clients fresh unlisted) {cl₀ : Client} (hcl₀ : cl₀ ∈ clients)
    (hhands : cl₀.hands = .closing) (hR : ∀ i d, R' i d ↔ R i d ∧ d ≠ cl₀.ptr) :
    Books R' (list.erase cl₀.ptr) (clients.map (markClosed cl₀.ptr)) fresh unlisted := by
  have hmark : ∀ cl, (markClosed cl₀.ptr cl).ptr = cl.ptr ∧
      (markClosed cl₀.ptr cl).shut = cl.shut := by
    intro cl
    rw [markClosed]
    split <;> exact ⟨rfl, rfl⟩
  have hshut : cl₀.shut = true := h.closing cl₀ hcl₀ (.inl hhands)
  have hforget := h.forget hcl₀ hshut hR
  obtain ⟨hfresh, -⟩ := h.not_fresh hcl₀ (by simp [hhands])
  refine hforget.map (fun cl => (hmark cl).1) (fun cl _ hno => (hmark cl).2 ▸ hno) ?_ (by simp)
    (fun d hd => (h.unlisted d hd).2) ?_ ?_
  · intro cl hcl
    rw [markClosed]
    split
    · next hptr => simpa [hptr] using hfresh
    · exact h.passed cl hcl
  · intro cl hcl hc
    rw [(hmark cl).2]
    rw [markClosed] at hc
    split at hc
    · next hptr => rw [h.eq_of_ptr hcl hcl₀ hptr, hshut]
    · exact h.closing cl hcl hc
  · intro cl hcl hc
    rw [markClosed] at hc
    split at hc
    · next hptr =>
      rw [hptr]
      exact ⟨fun hmem => (h.nodup.mem_erase_iff.mp hmem).1 rfl, fun i hi => ((hR i _).mp hi).2 rfl⟩
    · exact hforget.closed cl hcl hc

/-- A worker frees a client that it has closed. -/
theorem free (h : Books R list clients fresh unlisted) {cl₀ : Client} (hcl₀ : cl₀ ∈ clients)
    (hhands : cl₀.hands = .closed) :
    Books R list (clients.filter (·.ptr ≠ cl₀.ptr)) fresh unlisted := by
  obtain ⟨hnot, hno⟩ := h.closed cl₀ hcl₀ hhands
  obtain ⟨hfresh, hunlisted⟩ := h.not_fresh hcl₀ (by simp [hhands])
  have hR : ∀ i d, R i d ↔ R i d ∧ d ≠ cl₀.ptr := by
    refine fun i d => ⟨fun hd => ⟨hd, ?_⟩, fun hd => hd.1⟩
    rintro rfl
    exact hno i hd
  have hdrop := h.drop hR (fun _ _ => Iff.rfl) (fun _ _ => Iff.rfl) hfresh hunlisted
  rwa [List.erase_of_not_mem hnot] at hdrop

/-- When all are shut down, the entries and the list may be given up. -/
theorem reset (h : Books R list clients none none) (hshut : ∀ cl ∈ clients, cl.shut = true)
    (hR : ∀ i c, ¬R' i c) {list' : List Nat} (hlist : list'.Sublist list) :
    Books R' list' clients none none := by
  constructor
  · exact h.ptrs
  · exact h.nodup.sublist hlist
  · exact fun c hc => h.listed c (hlist.subset hc)
  · intro cl hcl hno
    exact absurd (hshut cl hcl) (by simp [hno])
  · simp
  · intro cl hcl hno
    exact absurd (hshut cl hcl) (by simp [hno])
  · exact fun hi => absurd hi (hR _ _)
  · exact fun hi => absurd hi (hR _ _)
  · exact h.passed
  · exact h.fresh
  · exact h.closing
  · intro cl hcl hclosed
    exact ⟨fun hmem => (h.closed cl hcl hclosed).1 (hlist.subset hmem), fun i => hR i _⟩

end Books

/-! ## Entries and their clients -/

def Stage.client : Stage → Option Nat
  | .checks | .connecting | .freed _ => none
  | .allocated c | .listed c | .connected c => some c

/-- The client that has been freed, and is still in the list. -/
def Stage.gone : Stage → Option Nat
  | .freed uc => uc
  | _ => none

/-- The client that is not in the list yet. -/
def Stage.unlisted : Stage → Option Nat
  | .allocated c => some c
  | _ => none

def Pc.making : Pc → Option (Nat × Stage)
  | .make i stage _ => some (i, stage)
  | _ => none

/-- The call of `make_uplink` that is going on. -/
def State.making (s : State) : Option (Nat × Stage) := s.thread.bind Pc.making

/-- The client that a call of `make_uplink` has freed, and has yet to take off the list. -/
def State.gone (s : State) : Option Nat := s.making.bind (·.2.gone)

/-- The list of clients, less the one that has been freed. -/
def State.listed (s : State) : List Nat := s.gone.elim s.uplinkClients s.uplinkClients.erase

/-- An entry has a client if it is connected, or while it is being connected to it. The field
alone says nothing: it is left behind by a call that fails. -/
def Linked (cfg : List Uplink) (making : Option (Nat × Stage)) (i c : Nat) : Prop :=
  ∃ l, cfg[i]? = some l ∧ l.client = some c ∧
    (l.state = uplinkStConnected ∧ making ≠ some (i, .freed (some c)) ∨
      ∃ stage, making = some (i, stage) ∧ stage.client = some c)

section Linked

variable {cfg : List Uplink} {making : Option (Nat × Stage)} {i j c : Nat} {l : Uplink}
  {f : Uplink → Uplink}

theorem Linked.client_eq {d : Nat} (hc : Linked cfg making i c) (hd : Linked cfg making i d) :
    c = d := by
  obtain ⟨l, hl, hc, -⟩ := hc
  obtain ⟨l', hl', hd, -⟩ := hd
  obtain rfl := Option.some.inj (hl.symm.trans hl')
  exact Option.some.inj (hc.symm.trans hd)

theorem getElem?_modify_self (hl : cfg[i]? = some l) : (cfg.modify i f)[i]? = some (f l) := by
  rw [List.getElem?_modify, hl]
  simp

theorem getElem?_modify_ne (hne : i ≠ j) : (cfg.modify i f)[j]? = cfg[j]? := by
  rw [List.getElem?_modify]
  cases cfg[j]? <;> simp [hne]

/-- The entry that is being made has a client as it says itself. -/
theorem linked_self (hl : cfg[i]? = some l) {stage : Stage} :
    Linked cfg (some (i, stage)) i c ↔
      l.client = some c ∧
        (l.state = uplinkStConnected ∧ stage.gone ≠ some c ∨ stage.client = some c) := by
  have hgone : stage.gone = some c ↔ stage = .freed (some c) := by
    cases stage <;> simp [Stage.gone]
  constructor
  · rintro ⟨l', hl', hc, hst⟩
    obtain rfl := Option.some.inj (hl.symm.trans hl')
    refine ⟨hc, hst.imp ?_ ?_⟩
    · exact fun hst => ⟨hst.1, fun hg => hst.2 (by rw [hgone.mp hg])⟩
    · rintro ⟨stage', hm, hst⟩
      obtain rfl := (Prod.mk.inj (Option.some.inj hm)).2
      exact hst
  · rintro ⟨hc, hst⟩
    refine ⟨l, hl, hc, hst.imp ?_ fun h => ⟨stage, rfl, h⟩⟩
    exact fun hst => ⟨hst.1, fun hm => hst.2 (hgone.mpr (Prod.mk.inj (Option.some.inj hm)).2)⟩

theorem linked_none_self (hl : cfg[i]? = some l) :
    Linked cfg none i c ↔ l.client = some c ∧ l.state = uplinkStConnected := by
  constructor
  · rintro ⟨l', hl', hc, hst | ⟨stage, hm, -⟩⟩
    · obtain rfl := Option.some.inj (hl.symm.trans hl')
      exact ⟨hc, hst.1⟩
    · cases hm
  · rintro ⟨hc, hst⟩
    exact ⟨l, hl, hc, .inl ⟨hst, by simp⟩⟩

/-- What happens at one entry is nothing to the others. -/
theorem linked_ne (hne : j ≠ i) {stage : Stage} :
    Linked cfg (some (i, stage)) j c ↔ Linked cfg none j c := by
  constructor
  · rintro ⟨l, hl, hc, hst | ⟨stage', hm, -⟩⟩
    · exact ⟨l, hl, hc, .inl ⟨hst.1, by simp⟩⟩
    · exact absurd (Prod.mk.inj (Option.some.inj hm)).1.symm hne
  · rintro ⟨l, hl, hc, hst | ⟨stage', hm, -⟩⟩
    · exact ⟨l, hl, hc, .inl ⟨hst.1, fun hm => hne (Prod.mk.inj (Option.some.inj hm)).1.symm⟩⟩
    · cases hm

theorem linked_modify_ne (hne : j ≠ i) :
    Linked (cfg.modify i f) none j c ↔ Linked cfg none j c := by
  rw [Linked, Linked, getElem?_modify_ne hne.symm]

theorem linked_of_client_none {stage : Stage} (hstage : stage.client = none)
    (hgone : stage.gone = none) :
    Linked cfg (some (i, stage)) j c ↔ Linked cfg none j c := by
  by_cases hj : j = i
  · subst hj
    cases hl : cfg[j]? with
    | none => simp [Linked, hl]
    | some l => simp [linked_self hl, linked_none_self hl, hstage, hgone]
  · exact linked_ne hj

/-- A worker closes a client: its entry has none any more. -/
theorem linked_unlink {d : Nat} (hne : ∀ i stage, making = some (i, stage) → stage.client ≠ some c) :
    Linked (cfg.map (State.unlink c)) making j d ↔ Linked cfg making j d ∧ d ≠ c := by
  constructor
  · rintro ⟨l', hl', hd, hst⟩
    rw [List.getElem?_map, Option.map_eq_some_iff] at hl'
    obtain ⟨l, hl, rfl⟩ := hl'
    rw [State.unlink] at hd hst
    split at hd
    · cases hd
    · next hc =>
      rw [if_neg hc] at hst
      refine ⟨⟨l, hl, hd, hst⟩, ?_⟩
      rintro rfl
      exact hc hd
  · rintro ⟨⟨l, hl, hd, hst⟩, hdc⟩
    have hc : l.client ≠ some c := fun hc => hdc (Option.some.inj (hd.symm.trans hc))
    refine ⟨l, ?_, hd, hst⟩
    rw [List.getElem?_map, hl, Option.map_some, State.unlink, if_neg hc]

end Linked

/-- What the stages of a call know of the entry. A worker may tell the entry that its former
client is gone, whose address the field has kept. -/
def Stage.Fits : Stage → Uplink → Prop
  | .checks, l => l.state < uplinkStConnecting
  | .connecting, l => l.state ≤ uplinkStConnecting
  | .allocated c, l | .listed c, l => l.state ≤ uplinkStConnecting ∧ l.client = some c
  | .connected c, l => l.state = uplinkStConnected ∧ l.client = some c
  | .freed none, l => l.state ≤ uplinkStConnecting
  | .freed (some c), l => l.state = uplinkStConnected ∧ l.client = some c

structure Entries (cfg : List Uplink) (install : List UplinkConfigT) (clients : List Client)
    (making : Option (Nat × Stage)) : Prop where
  uniform : ∀ l ∈ cfg, ∀ l' ∈ cfg, l.conf.multi = l'.conf.multi
  install : ∀ l ∈ install, ∀ l' ∈ install, l.multi = l'.multi
  kinds : ∀ cl ∈ clients, cl.shut = false → ∀ l ∈ cfg, l.conf.multi = cl.multi
  stage : ∀ i stage, making = some (i, stage) → ∃ l, cfg[i]? = some l ∧ stage.Fits l
  client : ∀ l ∈ cfg, l.state = uplinkStConnected → l.client ≠ none

/-! ## Whose turn it is -/

/-- An entry is up, or it is being made. -/
def Busy (cfg : List Uplink) (making : Option (Nat × Stage)) (i : Nat) : Prop :=
  (∃ l, cfg[i]? = some l ∧ l.state ≥ uplinkStConnecting) ∨ ∃ stage, making = some (i, stage)

def Regular (cfg : List Uplink) : Prop := ∀ l ∈ cfg, l.conf.multi = false

/-- What the numbers of the loop say when it has seen `i` entries: entries that were down may
not come up while it goes on. -/
structure Seen (cfg : List Uplink) (i has avail : Nat) : Prop where
  multi : ¬Regular cfg → avail = 0
  avail : Regular cfg → avail = i
  down : Regular cfg → has = 0 → ∀ j < i, ∀ l, cfg[j]? = some l → l.state < uplinkStConnecting

def Phase (cfg : List Uplink) (shutting : Bool) : Pc → Prop
  | .scan i has avail => i ≤ cfg.length ∧ Seen cfg i has avail
  | .scanned i has avail => i < cfg.length ∧ Seen cfg (i + 1) has avail
  | .pick has avail =>
      ∃ i ≤ cfg.length, Seen cfg i has avail ∧ (shutting = false → i = cfg.length)
  | .make _ _ (.scanned i has avail) =>
      i < cfg.length ∧ Seen cfg (i + 1) has avail ∧ ¬Regular cfg
  | _ => True

/-- No second regular uplink is up or being made, unless the loop over the list was left
early because the thread is told to end. -/
def Alone (cfg : List Uplink) (shutting : Bool) (making : Option (Nat × Stage)) : Prop :=
  shutting = false → Regular cfg → ∀ i j, Busy cfg making i → Busy cfg making j → i = j

/-- The uplinks have been shut down, and none is made before the next list is in place. -/
def Pc.shut : Pc → Bool
  | .free | .freeing | .take | .done => true
  | _ => false

structure Inv (s : State) : Prop where
  books : Books (Linked s.uplinkConfig s.making) s.listed s.clients
    (s.making.bind (·.2.client)) (s.making.bind (·.2.unlisted))
  entries : Entries s.uplinkConfig s.uplinkConfigInstall s.clients s.making
  alone : Alone s.uplinkConfig s.uplinkShuttingDown s.making
  phase : ∀ pc, s.thread = some pc → Phase s.uplinkConfig s.uplinkShuttingDown pc
  shut : (∀ pc ∈ s.thread, pc.shut = true) → ∀ cl ∈ s.clients, cl.shut = true
  stopped : s.thread = none → s.uplinkConfig = []
  mutex : ∀ c ∈ s.mutex, s.InHands c .closing
  gone : ∀ c ∈ s.gone, ∀ cl ∈ s.clients, cl.ptr ≠ c

/-! ## Lists with the same configuration -/

section SameConf

variable {cfg cfg' : List Uplink} {i has avail : Nat} {f : Uplink → Uplink}

/-- The entries have been changed, but not what is configured of them. -/
def SameConf (cfg cfg' : List Uplink) : Prop := cfg'.map (·.conf) = cfg.map (·.conf)

theorem sameConf_modify (hf : ∀ l, cfg[i]? = some l → (f l).conf = l.conf) :
    SameConf cfg (cfg.modify i f) := by
  apply List.ext_getElem?
  intro j
  rw [List.getElem?_map, List.getElem?_map, List.getElem?_modify]
  cases hl : cfg[j]? with
  | none => rfl
  | some l =>
    dsimp only [Functor.map, Option.map_some]
    split
    · next hij =>
      subst hij
      rw [hf l hl]
    · rfl

theorem unlink_conf (c : Nat) (l : Uplink) : (State.unlink c l).conf = l.conf := by
  rw [State.unlink]
  split <;> rfl

theorem sameConf_unlink (cfg : List Uplink) (c : Nat) : SameConf cfg (cfg.map (State.unlink c)) := by
  rw [SameConf, List.map_map]
  exact List.map_congr_left fun l _ => unlink_conf c l

theorem SameConf.length (h : SameConf cfg cfg') : cfg'.length = cfg.length := by
  simpa using congrArg List.length h

theorem SameConf.mem (h : SameConf cfg cfg') {l' : Uplink} (hl' : l' ∈ cfg') :
    ∃ l ∈ cfg, l.conf = l'.conf := by
  have : l'.conf ∈ cfg.map (·.conf) := h ▸ List.mem_map_of_mem hl'
  exact List.mem_map.mp this

theorem SameConf.regular (h : SameConf cfg cfg') : Regular cfg' ↔ Regular cfg := by
  constructor
  · intro hr l hl
    obtain ⟨l', hl', hc⟩ := SameConf.mem (Eq.symm h) hl
    rw [← hc]
    exact hr l' hl'
  · intro hr l' hl'
    obtain ⟨l, hl, hc⟩ := h.mem hl'
    rw [← hc]
    exact hr l hl

/-- What the loop has seen stays true while no entry comes up. -/
theorem Seen.of_lower (h : Seen cfg i has avail) (hconf : SameConf cfg cfg')
    (hlower : ∀ (j : Nat) (l' : Uplink), cfg'[j]? = some l' → ∃ l : Uplink, cfg[j]? = some l ∧
      (l'.state < uplinkStConnecting ∨ l'.state = l.state)) : Seen cfg' i has avail := by
  constructor
  · exact fun hr => h.multi fun hr' => hr (hconf.regular.mpr hr')
  · exact fun hr => h.avail (hconf.regular.mp hr)
  · intro hr hhas j hj l' hl'
    obtain ⟨l, hl, hst | hst⟩ := hlower j l' hl'
    · exact hst
    · rw [hst]
      exact h.down (hconf.regular.mp hr) hhas j hj l hl

theorem Phase.of_lower {shutting : Bool} {pc : Pc} (h : Phase cfg shutting pc)
    (hconf : SameConf cfg cfg') (hlower : ∀ (j : Nat) (l' : Uplink), cfg'[j]? = some l' →
      ∃ l : Uplink, cfg[j]? = some l ∧ (l'.state < uplinkStConnecting ∨ l'.state = l.state)) :
    Phase cfg' shutting pc := by
  cases pc with
  | scan i has avail => exact ⟨hconf.length ▸ h.1, h.2.of_lower hconf hlower⟩
  | scanned i has avail => exact ⟨hconf.length ▸ h.1, h.2.of_lower hconf hlower⟩
  | pick has avail =>
    obtain ⟨i, hi, hseen, hall⟩ := h
    exact ⟨i, hconf.length ▸ hi, hseen.of_lower hconf hlower, hconf.length ▸ hall⟩
  | make i stage ret =>
    cases ret with
    | scanned k has avail =>
      obtain ⟨hk, hseen, hr⟩ := h
      exact ⟨hconf.length ▸ hk, hseen.of_lower hconf hlower, fun hr' => hr (hconf.regular.mp hr')⟩
    | alarm has avail => trivial
  | top => trivial
  | close => trivial
  | free => trivial
  | freeing => trivial
  | take => trivial
  | wipe => trivial
  | clear => trivial
  | check => trivial
  | alarm has avail => trivial
  | sleep => trivial
  | leave => trivial
  | done => trivial

/-- In a list of uplinks of which several may be up, nothing is counted. -/
theorem Seen.of_not_regular (h : Seen cfg i has avail) (hr : ¬Regular cfg)
    (hconf : SameConf cfg cfg') : Seen cfg' i has avail := by
  have hr' : ¬Regular cfg' := fun hr' => hr (hconf.regular.mp hr')
  exact ⟨fun _ => h.multi hr, fun h' => absurd h' hr', fun h' => absurd h' hr'⟩

end SameConf

end Uplinks

end Aprsc
