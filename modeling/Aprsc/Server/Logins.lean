-- SUMMARY: One live validated login for each username, and when the client list shows the clients as they are.
import Aprsc.Server.Clientlist

/-!
# Logins

Of the validated clients with one username only the last one that logged in is to stay
connected. A look-up finds only one of the others. This is enough, because the entries of
a bucket are in the order of their addition: the one that is found is the last one, and
the others were found before.

The list should also have one entry for each client that is logged in, with its username
and its validation, and none for a client that is gone.
-/

namespace Aprsc

/-! ## Disconnecting the others -/

/-- After the entry was added, `shutdown` was called on its descriptor. -/
def Logins.Shut (s : Logins) (cl : ClientlistEntry) : Prop :=
  ∃ n, (cl.fd, n) ∈ s.shutdowns ∧ cl.seq < n

/-- A login is about to call `shutdown` on the descriptor of the entry. -/
def Logins.Due (s : Logins) (cl : ClientlistEntry) : Prop := ∃ id, (id, cl.fd) ∈ s.pending

/-- The first entry was added after the second one, and the second one is to go if both are
validated logins with one username. -/
def Logins.Succeeds (s : Logins) (newer older : ClientlistEntry) : Prop :=
  older.seq < newer.seq ∧
    (newer.validated ≠ 0 → older.validated ≠ 0 → newer.username = older.username →
      s.Shut older ∨ s.Due older)

structure Logins.Ordered (s : Logins) : Prop where
  placed : s.clientlist.Placed
  clientFd : ∀ id c, s.clients id = some c → 0 ≤ c.fd
  fd : ∀ i, ∀ cl ∈ s.clientlist i, 0 ≤ cl.fd
  seq : ∀ i, ∀ cl ∈ s.clientlist i, cl.seq < s.added
  succeeds : ∀ i, (s.clientlist i).Pairwise s.Succeeds

theorem Logins.Succeeds.mono {s s' : Logins} {newer older : ClientlistEntry}
    (h : s.Succeeds newer older) (hmono : s.Shut older ∨ s.Due older → s'.Shut older ∨ s'.Due older) :
    s'.Succeeds newer older :=
  ⟨h.1, fun hn ho hu => hmono (h.2 hn ho hu)⟩

section

variable {s : Logins} {id : Nat} {c : ListClient}

theorem Logins.ordered_init : Logins.init.Ordered :=
  ⟨fun _ => nofun, nofun, fun _ => nofun, fun _ => nofun, fun _ => .nil⟩

theorem Logins.Ordered.setClient (h : s.Ordered) {c : Option ListClient}
    (hfd : ∀ d, c = some d → 0 ≤ d.fd) : (s.setClient id c).Ordered where
  placed := h.placed
  clientFd := by
    intro id' d hd
    by_cases hid : id' = id
    · rw [hid, clients_setClient_self] at hd
      exact hfd d hd
    · rw [clients_setClient_of_ne hid] at hd
      exact h.clientFd id' d hd
  fd := h.fd
  seq := h.seq
  succeeds := h.succeeds

/-- The look-up of `clientlist_add` finds the newest validated login with the username, and
all older ones have been found before. -/
theorem Logins.Ordered.due (h : s.Ordered) {cl : ClientlistEntry}
    (hcl : cl ∈ s.clientlist (usernameIndex c.username)) (hv : c.validated ≠ 0)
    (hclv : cl.validated ≠ 0) (hu : c.username = cl.username) :
    s.Shut cl ∨ (s.clientlistAdd id c).Due cl := by
  have hplaced := h.placed (usernameIndex c.username)
  have hval : ∀ d ∈ s.clientlist (usernameIndex c.username),
      d.isValidated c.username ↔ d.username = c.username ∧ d.validated ≠ 0 :=
    fun d hd => ClientlistEntry.isValidated_iff (hplaced d hd).1
  cases hfind : (s.clientlist (usernameIndex c.username)).find? (·.isValidated c.username) with
  | none =>
    have hnot := List.find?_eq_none.1 hfind cl hcl
    exact absurd ((hval cl hcl).2 ⟨hu.symm, hclv⟩) hnot
  | some d =>
    have hd := List.mem_of_find?_eq_some hfind
    have hdval := (hval d hd).1 (List.find?_some hfind)
    have hold : checkIfValidatedClient s.clientlist c.username = d.fd := by
      rw [checkIfValidatedClient, hfind]
    have hpend : (s.clientlistAdd id c).pending = (id, d.fd) :: s.pending := by
      have hfd := h.fd _ d hd
      have hne : d.fd ≠ -1 := by omega
      simp only [clientlistAdd, hold]
      exact if_pos ⟨hv, hne⟩
    obtain ⟨before, after, hsplit, hbefore⟩ := (List.find?_eq_some_iff_append.1 hfind).2
    rw [hsplit] at hcl
    obtain hcl | hcl := List.mem_append.1 hcl
    · have hnot := hbefore cl hcl
      have hmem : cl ∈ s.clientlist (usernameIndex c.username) :=
        hsplit ▸ List.mem_append_left _ hcl
      rw [(hval cl hmem).2 ⟨hu.symm, hclv⟩] at hnot
      cases hnot
    · obtain rfl | hcl := List.mem_cons.1 hcl
      · exact .inr ⟨id, hpend ▸ List.mem_cons_self⟩
      · -- it was found when the one that is found now was added
        have hpair := hsplit ▸ h.succeeds (usernameIndex c.username)
        have hsucc := (List.pairwise_cons.1 (List.pairwise_append.1 hpair).2.1).1 cl hcl
        refine (hsucc.2 hdval.2 hclv (hdval.1.trans hu)).imp_right ?_
        rintro ⟨id', hid'⟩
        exact ⟨id', hpend ▸ List.mem_cons_of_mem _ hid'⟩

theorem Logins.Ordered.add (h : s.Ordered) (hfd : 0 ≤ c.fd) : (s.clientlistAdd id c).Ordered where
  placed := placed_add h.placed
  clientFd := h.clientFd
  fd := by
    intro i cl hcl
    obtain ⟨-, rfl⟩ | hcl := mem_clientlist_add hcl
    · exact hfd
    · exact h.fd i cl hcl
  seq := by
    intro i cl hcl
    obtain ⟨-, rfl⟩ | hcl := mem_clientlist_add hcl
    · exact Nat.lt_succ_self _
    · exact Nat.lt_succ_of_lt (h.seq i cl hcl)
  succeeds := by
    have hold : ∀ i, (s.clientlist i).Pairwise (s.clientlistAdd id c).Succeeds := by
      intro i
      refine (h.succeeds i).imp fun hs => hs.mono (Or.imp_right ?_)
      rintro ⟨id', hmem⟩
      refine ⟨id', ?_⟩
      simp only [clientlistAdd]
      split
      · exact List.mem_cons_of_mem _ hmem
      · exact hmem
    intro i
    by_cases hi : i = usernameIndex c.username
    · rw [hi, clientlist_add_self]
      refine List.pairwise_cons.2 ⟨fun cl hcl => ⟨h.seq _ cl hcl, fun hv hclv hu => ?_⟩, hold _⟩
      exact h.due hcl hv hclv hu
    · rw [clientlist_add_of_ne hi]
      exact hold i

theorem Logins.Ordered.remove (h : s.Ordered) : (s.clientlistRemove id c).Ordered where
  placed := placed_remove h.placed
  clientFd := h.clientFd
  fd i cl hcl := h.fd i cl ((clientlist_remove_sublist i).subset hcl)
  seq i cl hcl := h.seq i cl ((clientlist_remove_sublist i).subset hcl)
  succeeds i := (h.succeeds i).sublist (clientlist_remove_sublist i)

theorem Logins.Ordered.shutdown (h : s.Ordered) (id : Nat) (fd : Int) :
    (s.step (.shutdown id fd)).Ordered := by
  simp only [step]
  split
  next hmem =>
    refine ⟨h.placed, h.clientFd, h.fd, h.seq, fun i => ?_⟩
    refine (h.succeeds i).imp_of_mem @fun _ older _ ho hs => hs.mono ?_
    rintro (⟨n, hshut, hlt⟩ | ⟨id', hid'⟩)
    · exact .inl ⟨n, List.mem_cons_of_mem _ hshut, hlt⟩
    · by_cases heq : (id', older.fd) = (id, fd)
      · obtain ⟨-, rfl⟩ := Prod.mk.inj heq
        exact .inl ⟨s.added, List.mem_cons_self, h.seq i older ho⟩
      · exact .inr ⟨id', (List.mem_erase_of_ne heq).2 hid'⟩
  next => exact h

theorem Logins.Ordered.step (h : s.Ordered) (e : LoginEvent) : (s.step e).Ordered := by
  have hlog : ∀ {id d}, s.loggingIn id = some d → 0 ≤ d.fd := fun hd =>
    h.clientFd _ _ (Logins.loggingIn_eq_some_iff.1 hd).1
  cases e with
  | connect id fd =>
    simp only [Logins.step]
    split
    · exact h
    · exact h.setClient (by rintro d ⟨⟩; exact Int.natCast_nonneg fd)
  | restore id fd state username validated =>
    simp only [Logins.step]
    split
    · exact h
    · have hfd := Int.natCast_nonneg fd
      exact (h.setClient (by rintro d ⟨⟩; exact hfd)).add hfd
  | reject id username validated =>
    simp only [Logins.step]
    split
    · exact h
    next d hd =>
      have hfd : 0 ≤ d.fd := hlog hd
      exact h.setClient (by rintro d ⟨⟩; exact hfd)
  | login id username validated =>
    simp only [Logins.step]
    split
    · exact h
    next d hd =>
      have hfd : 0 ≤ d.fd := hlog hd
      exact (h.setClient (by rintro d ⟨⟩; exact hfd)).add hfd
  | shutdown id fd => exact h.shutdown id fd
  | free id =>
    simp only [Logins.step]
    split
    · exact h
    · split
      · exact h
      · exact h.remove.setClient nofun

end

/-- Of two validated logins in the list the older one is shut down, or about to be. -/
theorem Logins.Ordered.older {s : Logins} (h : s.Ordered) {older newer : ClientlistEntry}
    (holder : older ∈ s.entries) (hnewer : newer ∈ s.entries) (hov : older.validated ≠ 0)
    (hnv : newer.validated ≠ 0) (hu : older.username = newer.username)
    (hlt : older.seq < newer.seq) : s.Shut older ∨ s.Due older := by
  rw [mem_entries h.placed] at holder hnewer
  rw [hu] at holder
  have hpair := h.succeeds (usernameIndex newer.username)
  generalize s.clientlist (usernameIndex newer.username) = bucket at *
  obtain ⟨i, hi, rfl⟩ := List.getElem_of_mem holder
  obtain ⟨j, hj, rfl⟩ := List.getElem_of_mem hnewer
  obtain hij | rfl | hji := Nat.lt_trichotomy i j
  · exact absurd (List.pairwise_iff_getElem.1 hpair i j hi hj hij).1 (Nat.lt_asymm hlt)
  · exact absurd hlt (Nat.lt_irrefl _)
  · exact (List.pairwise_iff_getElem.1 hpair j i hj hi hji).2 hnv hov hu.symm

/-- In every run, when no login is in the middle of it, every validated entry that a later
one with its username follows has had its descriptor shut down since it was added. -/
theorem older_logins_shut (es : List LoginEvent)
    (hidle : (Runs.run Logins.step .init es).pending = []) :
    ∀ older ∈ (Runs.run Logins.step .init es).entries,
      ∀ newer ∈ (Runs.run Logins.step .init es).entries,
        older.validated ≠ 0 → newer.validated ≠ 0 → older.username = newer.username →
          older.seq < newer.seq → (Runs.run Logins.step .init es).Shut older := by
  intro older holder newer hnewer hov hnv hu hlt
  have h := (Runs.always_of_step (fun s e h => h.step e) Logins.ordered_init es).last
  refine (h.older holder hnewer hov hnv hu hlt).resolve_right ?_
  rintro ⟨id, hid⟩
  rw [hidle] at hid
  cases hid

/-- A user logs in twice, from descriptors 5 and 6. -/
def loginTwice : List LoginEvent :=
  [.connect 0 5, .login 0 (ascii "N0CALL") 1, .connect 1 6, .login 1 (ascii "N0CALL") 1,
    .shutdown 1 5]

theorem older_logins_shut_loginTwice :
    (Runs.run Logins.step .init loginTwice).Shut
      ⟨ascii "N0CALL", 1, 5, keyhash (ascii "N0CALL") 0, 0, 0⟩ := by
  have hbucket : (Runs.run Logins.step .init loginTwice).clientlist
      (usernameIndex (ascii "N0CALL")) =
        [⟨ascii "N0CALL", 1, 6, keyhash (ascii "N0CALL") 0, 1, 1⟩,
          ⟨ascii "N0CALL", 1, 5, keyhash (ascii "N0CALL") 0, 0, 0⟩] := by
    decide
  have hmem : ∀ cl ∈ (Runs.run Logins.step .init loginTwice).clientlist
      (usernameIndex (ascii "N0CALL")), cl ∈ (Runs.run Logins.step .init loginTwice).entries :=
    fun cl hcl => List.mem_flatMap.2 ⟨_, List.mem_range.2 (usernameIndex_lt _), hcl⟩
  rw [hbucket] at hmem
  exact older_logins_shut loginTwice (by decide) _ (hmem _ (by simp)) _
    (hmem _ List.mem_cons_self) (by decide) (by decide) rfl (by decide)

/-! ## The list and the clients -/

/-- No client has two entries, and every entry is of a client that is there, with its
username and its validation. -/
structure Logins.Represents (s : Logins) : Prop where
  once : s.entries.Pairwise fun cl cl' => cl.clientId ≠ cl'.clientId
  current : ∀ cl ∈ s.entries, ∃ c, s.clients cl.clientId = some c ∧
    cl.username = c.username ∧ cl.validated = c.validated

/-- A client that gives its name in a login line is not on the list. The clients that were
restored before they had logged in are. -/
def Logins.Unlisted (s : Logins) : LoginEvent → Prop
  | .reject id _ _ => ∀ cl ∈ s.entries, cl.clientId ≠ id
  | .login id _ _ => ∀ cl ∈ s.entries, cl.clientId ≠ id
  | _ => True

/-- What holds in each bucket. -/
structure Logins.Listed (s : Logins) : Prop where
  placed : s.clientlist.Placed
  once : ∀ i, (s.clientlist i).Pairwise fun cl cl' => cl.clientId ≠ cl'.clientId
  current : ∀ i, ∀ cl ∈ s.clientlist i, ∃ c, s.clients cl.clientId = some c ∧
    cl.username = c.username ∧ cl.validated = c.validated

theorem Logins.Listed.represents {s : Logins} (h : s.Listed) : s.Represents where
  once := by
    refine List.pairwise_flatMap.2 ⟨fun i _ => h.once i, ?_⟩
    refine (List.nodup_range.imp ?_)
    intro i j hij cl hcl cl' hcl' hid
    obtain ⟨c, hc, hu, -⟩ := h.current i cl hcl
    obtain ⟨c', hc', hu', -⟩ := h.current j cl' hcl'
    have hcc : c = c' := Option.some.inj (by rw [← hc, ← hc', hid])
    refine hij ?_
    rw [(h.placed i cl hcl).2, (h.placed j cl' hcl').2, hu, hu', hcc]
  current := by
    intro cl hcl
    obtain ⟨i, -, hcl⟩ := List.mem_flatMap.1 hcl
    exact h.current i cl hcl

theorem Logins.listed_init : Logins.init.Listed :=
  ⟨fun _ => nofun, fun _ => .nil, fun _ => nofun⟩

section

variable {s : Logins} {id : Nat} {c : ListClient}

theorem Logins.Listed.not_listed (h : s.Listed) (hnone : s.clients id = none) (i : Nat) :
    ∀ cl ∈ s.clientlist i, cl.clientId ≠ id := by
  intro cl hcl hid
  obtain ⟨c, hc, -⟩ := h.current i cl hcl
  rw [hid, hnone] at hc
  cases hc

/-- A client that is not on the list may change. -/
theorem Logins.Listed.setClient (h : s.Listed) (hnot : ∀ i, ∀ cl ∈ s.clientlist i, cl.clientId ≠ id)
    (c : Option ListClient) : (s.setClient id c).Listed where
  placed := h.placed
  once := h.once
  current i cl hcl := by
    rw [clients_setClient_of_ne (hnot i cl hcl)]
    exact h.current i cl hcl

/-- A client that is not on the list is added as it is. -/
theorem Logins.Listed.add (h : s.Listed) (hc : s.clients id = some c)
    (hnot : ∀ i, ∀ cl ∈ s.clientlist i, cl.clientId ≠ id) : (s.clientlistAdd id c).Listed where
  placed := placed_add h.placed
  once i := by
    by_cases hi : i = usernameIndex c.username
    · rw [hi, clientlist_add_self]
      exact List.pairwise_cons.2 ⟨fun cl hcl => (hnot _ cl hcl).symm, h.once _⟩
    · rw [clientlist_add_of_ne hi]
      exact h.once i
  current i cl hcl := by
    obtain ⟨-, rfl⟩ | hcl := mem_clientlist_add hcl
    · exact ⟨c, hc, rfl, rfl⟩
    · exact h.current i cl hcl

theorem not_mem_eraseP {l : List ClientlistEntry}
    (h : l.Pairwise fun cl cl' => cl.clientId ≠ cl'.clientId) {cl : ClientlistEntry}
    (hcl : cl ∈ l.eraseP (·.clientId == id)) : cl.clientId ≠ id := by
  induction l with
  | nil => cases hcl
  | cons d l ih =>
    obtain ⟨hd, hl⟩ := List.pairwise_cons.1 h
    by_cases hid : d.clientId = id
    · rw [List.eraseP_cons_of_pos (by simpa using hid)] at hcl
      exact hid ▸ (hd cl hcl).symm
    · rw [List.eraseP_cons_of_neg (by simpa using hid)] at hcl
      obtain rfl | hcl := List.mem_cons.1 hcl
      · exact hid
      · exact ih hl hcl

/-- The one entry of a client is in the bucket of its username. -/
theorem Logins.Listed.not_listed_remove (h : s.Listed) (hc : s.clients id = some c) (i : Nat) :
    ∀ cl ∈ (s.clientlistRemove id c).clientlist i, cl.clientId ≠ id := by
  intro cl hcl hid
  have hmem := (clientlist_remove_sublist i).subset hcl
  obtain ⟨c', hc', hu, -⟩ := h.current i cl hmem
  have hcc : c' = c := Option.some.inj (by rw [← hc', hid, hc])
  have hi : i = usernameIndex c.username := by rw [(h.placed i cl hmem).2, hu, hcc]
  rw [hi, clientlist_remove_self] at hcl
  exact not_mem_eraseP (h.once _) hcl hid

theorem Logins.Listed.free (h : s.Listed) (hc : s.clients id = some c) :
    ((s.clientlistRemove id c).setClient id none).Listed := by
  have hrem : (s.clientlistRemove id c).Listed :=
    { placed := placed_remove h.placed
      once := fun i => (h.once i).sublist (clientlist_remove_sublist i)
      current := fun i cl hcl => h.current i cl ((clientlist_remove_sublist i).subset hcl) }
  exact hrem.setClient (h.not_listed_remove hc) none

theorem Logins.Listed.step (h : s.Listed) (e : LoginEvent) (hok : s.Unlisted e) :
    (s.step e).Listed := by
  have hlisted : ∀ id, (∀ cl ∈ s.entries, cl.clientId ≠ id) →
      ∀ i, ∀ cl ∈ s.clientlist i, cl.clientId ≠ id := by
    intro id hnot i cl hcl
    exact hnot cl ((mem_entries h.placed).2 ((h.placed i cl hcl).2 ▸ hcl))
  cases e with
  | connect id fd =>
    simp only [Logins.step]
    split
    · exact h
    next hnone => exact h.setClient (h.not_listed (Option.not_isSome_iff_eq_none.1 hnone)) _
  | restore id fd state username validated =>
    simp only [Logins.step]
    split
    · exact h
    next hnone =>
      have hnot := h.not_listed (Option.not_isSome_iff_eq_none.1 hnone)
      exact (h.setClient hnot _).add clients_setClient_self hnot
  | reject id username validated =>
    simp only [Logins.step]
    split
    · exact h
    · exact h.setClient (hlisted id hok) _
  | login id username validated =>
    simp only [Logins.step]
    split
    · exact h
    · exact (h.setClient (hlisted id hok) _).add clients_setClient_self (hlisted id hok)
  | shutdown id fd =>
    simp only [Logins.step]
    split
    · exact ⟨h.placed, h.once, h.current⟩
    · exact h
  | free id =>
    simp only [Logins.step]
    split
    · exact h
    next hc =>
      split
      · exact h
      · exact h.free hc

end

/-- The list represents the clients in every state of a run in which no client that is on
the list gives its name in a login line. -/
theorem represents_of_unlisted (es : List LoginEvent)
    (hok : Runs.Meets Logins.step Logins.Unlisted .init es) :
    Runs.Always Logins.step Logins.Represents .init es :=
  (hok.always (fun _ e h => h.step e) Logins.listed_init).imp fun _ h => h.represents

theorem represents_of_unlisted_login :
    Runs.Always Logins.step Logins.Represents .init
      [.connect 0 5, .login 0 (ascii "N0CALL") 1, .free 0] := by
  refine represents_of_unlisted _ ⟨trivial, ?_, trivial, trivial⟩
  intro cl hcl
  obtain ⟨i, -, hcl⟩ := List.mem_flatMap.1 hcl
  cases hcl

/-- A client that is restored before it has logged in is on the list without a name, and
this entry stays when the client has logged in and is freed. -/
theorem restored_login_stays :
    ¬Runs.Always Logins.step Logins.Represents .init
      [.restore 0 5 .login [] 0, .login 0 (ascii "N0CALL") 1, .free 0] := by
  intro h
  have hstale : (⟨[], 0, 5, keyhash [] 0, 0, 0⟩ : ClientlistEntry) ∈ (Runs.run Logins.step .init
      [.restore 0 5 .login [] 0, .login 0 (ascii "N0CALL") 1, .free 0]).entries :=
    List.mem_flatMap.2 ⟨usernameIndex [], List.mem_range.2 (usernameIndex_lt _), by decide⟩
  obtain ⟨c, hc, -⟩ := h.last.current _ hstale
  cases hc

end Aprsc
