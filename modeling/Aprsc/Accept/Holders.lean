-- SUMMARY: Who holds the UDP sockets, and what each operation of the threads does to their references.
import Aprsc.Accept.Sockets

/-!
# Holders of sockets

A socket is held by the listener that opened it, by the clients and the peers that were
given it, and by the accept thread while it makes a peer. A thread may have clients in its
hands that are in none of the lists: one that is not handed over yet, or that is being
closed.
-/

namespace Aprsc.Accept

open Counted Runs

/-! ## Lists -/

theorem perm_of_find? {α : Type} {p : α → Bool} {l : List α} {x : α} (h : l.find? p = some x) :
    l.Perm (x :: l.eraseP p) := by
  obtain ⟨hp, as, bs, rfl, has⟩ := List.find?_eq_some_iff_append.mp h
  have hnone : ∀ a ∈ as, ¬p a = true := by
    intro a ha
    simpa using has a ha
  rw [List.eraseP_append_right _ hnone, List.eraseP_cons_of_pos hp]
  exact List.perm_middle

/-! ## Holders -/

/-- The clients that are somewhere: in hand, in a queue, with a worker, or left behind. -/
def Server.everyClient (hand : List ClientT) (s : Server) : List ClientT :=
  hand ++ (s.queue.filterMap Queued.client? ++ (s.clients ++ s.lost))

/-- How often the accept thread itself holds a socket. -/
def AcceptPc.held (u : Nat) : AcceptPc → Nat
  | .found _ v _ => if v = u then 1 else 0
  | _ => 0

/-- How many references are held to a socket. -/
def Server.socketRefs (hand : List ClientT) (s : Server) (u : Nat) : Nat :=
  s.listenList.countP (·.udp = some u) + (s.everyClient hand).countP (·.udpclient = some u) +
    s.pc.held u

variable {s s' : Server} {hand hand' : List ClientT} {c d : ClientT}

/-- What holds of the sockets and the clients. Clients that are peers, or have a UDP feed,
have a socket. -/
structure Held (hand : List ClientT) (s : Server) : Prop where
  sockets : s.sockets.Ok (s.socketRefs hand)
  fed : ∀ c ∈ s.everyClient hand, c.udpPort ≠ 0 ∨ c.state = .corepeer → c.udpclient.isSome
  keys : ((s.everyClient hand).map (·.key)).Nodup
  keys_lt : ∀ c ∈ s.everyClient hand, c.key < s.nextClient
  fine : s.clientMisused = false

theorem clients_sublist (hand : List ClientT) (s : Server) :
    s.clients.Sublist (s.everyClient hand) :=
  ((List.sublist_append_left ..).trans (List.sublist_append_right ..)).trans
    (List.sublist_append_right ..)

theorem mem_everyClient {p : ClientT → Bool} (hfind : s.clients.find? p = some c) :
    c ∈ s.everyClient hand :=
  (clients_sublist hand s).subset (List.mem_of_find?_eq_some hfind)

/-- The clients of the workers have keys of their own. -/
theorem Held.clients_nodup (h : Held hand s) : (s.clients.map (·.key)).Nodup :=
  h.keys.sublist ((clients_sublist hand s).map _)

theorem refs_pos (hc : c ∈ s.everyClient hand) {u : Nat}
    (hu : c.udpclient = some u) : 0 < s.socketRefs hand u := by
  have hpos : 0 < (s.everyClient hand).countP (·.udpclient = some u) :=
    List.countP_pos_iff.mpr ⟨c, hc, by simpa using hu⟩
  unfold Server.socketRefs
  omega

/-- Whoever has a socket finds it. -/
theorem Held.exists_socket (h : Held hand s) (hc : c ∈ s.everyClient hand)
    (hfed : c.udpPort ≠ 0 ∨ c.state = .corepeer) :
    ∃ u x, c.udpclient = some u ∧ s.sockets.heap.cells u = some x := by
  obtain ⟨u, hu⟩ := Option.isSome_iff_exists.mp (h.fed c hc hfed)
  obtain ⟨x, hx⟩ := h.sockets.exists_of_pos (refs_pos hc hu)
  exact ⟨u, x, hu, hx⟩

/-- The same clients and listeners, wherever they are now. -/
structure Moved (hand hand' : List ClientT) (s s' : Server) : Prop where
  clients : (s'.everyClient hand').Perm (s.everyClient hand)
  sockets : s'.sockets = s.sockets
  listenList : s'.listenList = s.listenList
  held : ∀ u, s'.pc.held u = s.pc.held u
  nextClient : s'.nextClient = s.nextClient
  fine : s'.clientMisused = s.clientMisused

theorem Moved.socketRefs (hm : Moved hand hand' s s') (u : Nat) :
    s'.socketRefs hand' u = s.socketRefs hand u := by
  unfold Server.socketRefs
  rw [hm.listenList, hm.held, hm.clients.countP_eq]

theorem Held.moved (h : Held hand s) (hm : Moved hand hand' s s') : Held hand' s' where
  sockets := by
    rw [hm.sockets]
    exact h.sockets.congr hm.socketRefs
  fed c hc := h.fed c (hm.clients.mem_iff.mp hc)
  keys := (hm.clients.map _).nodup_iff.mpr h.keys
  keys_lt c hc := by
    rw [hm.nextClient]
    exact h.keys_lt c (hm.clients.mem_iff.mp hc)
  fine := hm.fine.trans h.fine

/-! ## Clients in hand -/

theorem Server.everyClient_cons (c : ClientT) (hand : List ClientT) (s : Server) :
    s.everyClient (c :: hand) = c :: s.everyClient hand := rfl

theorem Server.socketRefs_cons (c : ClientT) (hand : List ClientT) (s : Server) (u : Nat) :
    s.socketRefs (c :: hand) u = s.socketRefs hand u + if c.udpclient = some u then 1 else 0 := by
  unfold socketRefs
  rw [everyClient_cons, List.countP_cons]
  simp only [decide_eq_true_eq]
  omega

/-- A client in hand is written, but not its socket. -/
theorem Held.write (h : Held (c :: hand) s) (hkey : d.key = c.key)
    (hsocket : d.udpclient = c.udpclient)
    (hfed : d.udpPort ≠ 0 ∨ d.state = .corepeer → c.udpclient.isSome) : Held (d :: hand) s where
  sockets := h.sockets.congr fun u => by
    rw [s.socketRefs_cons, s.socketRefs_cons, hsocket]
  fed := by
    rw [s.everyClient_cons]
    refine List.forall_mem_cons.mpr ⟨?_, fun e he => h.fed e (List.mem_cons_of_mem c he)⟩
    rw [hsocket]
    exact hfed
  keys := by
    rw [s.everyClient_cons, List.map_cons, hkey]
    exact h.keys
  keys_lt := by
    rw [s.everyClient_cons]
    refine List.forall_mem_cons.mpr ?_
    rw [hkey]
    exact List.forall_mem_cons.mp h.keys_lt
  fine := h.fine

/-- A client in hand is freed, with its reference. -/
theorem Held.free (h : Held (c :: hand) s) :
    Held hand { s with sockets := s.sockets.clientUdpFree c.udpclient } where
  sockets := h.sockets.free_option fun u => s.socketRefs_cons c hand u
  fed e he := h.fed e (List.mem_cons_of_mem c he)
  keys := (List.nodup_cons.mp h.keys).2
  keys_lt e he := h.keys_lt e (List.mem_cons_of_mem c he)
  fine := h.fine

/-- A client is made, with the socket that was found for it. -/
theorem Held.make (h : Held hand s) {root : Option Nat} (hroot : s.sockets.Rooted root) (af : Nat)
    (portnum : Int) (hkey : c.key = s.nextClient) (hport : c.udpPort = 0)
    (hstate : c.state ≠ .corepeer)
    (hfind : c.udpclient = (s.sockets.clientUdpFind root af portnum).1) :
    Held (c :: hand)
      { s with
        sockets := (s.sockets.clientUdpFind root af portnum).2
        nextClient := s.nextClient + 1 } := by
  refine ⟨?_, ?_, ?_, ?_, h.fine⟩
  · change Sockets.Ok _ (s.socketRefs (c :: hand))
    obtain hnone | ⟨u, hu, hsome⟩ := h.sockets.find_cases hroot af portnum
    · rw [hnone] at hfind ⊢
      refine h.sockets.congr fun b => ?_
      rw [s.socketRefs_cons, hfind]
      rfl
    · rw [hsome] at hfind ⊢
      apply h.sockets.take hu
      intro b
      rw [s.socketRefs_cons, hfind]
      simp only [Option.some_inj, @eq_comm _ u b]
  · change ∀ e ∈ c :: s.everyClient hand, _
    refine List.forall_mem_cons.mpr ⟨fun hor => absurd hor (by simp [hport, hstate]), h.fed⟩
  · apply List.nodup_cons.mpr
    refine ⟨fun hmem => ?_, h.keys⟩
    obtain ⟨e, he, hek⟩ := List.mem_map.mp hmem
    have hlt := h.keys_lt e he
    exact absurd (hek.trans hkey) (Nat.ne_of_lt hlt)
  · change ∀ e ∈ c :: s.everyClient hand, e.key < s.nextClient + 1
    refine List.forall_mem_cons.mpr ⟨?_, fun e he => Nat.lt_succ_of_lt (h.keys_lt e he)⟩
    rw [hkey]
    exact Nat.lt_succ_self _

/-- A client is taken out of the list of its worker. -/
theorem Moved.takeOut {p : ClientT → Bool} (hfind : s.clients.find? p = some c) :
    Moved hand (c :: hand) s { s with clients := s.clients.eraseP p } where
  clients := by
    have hperm := (perm_of_find? hfind).symm.append_right s.lost
    have hqueue := hperm.append_left (s.queue.filterMap Queued.client?)
    refine .trans ?_ (hqueue.append_left hand)
    refine .trans ?_ (List.perm_middle.symm.append_left hand)
    exact List.perm_middle.symm
  sockets := rfl
  listenList := rfl
  held _ := rfl
  nextClient := rfl
  fine := rfl

/-- A client is put into the list of its worker. -/
theorem Moved.putIn {l : List ClientT} (hl : l.Perm (c :: s.clients)) :
    Moved (c :: hand) hand s { s with clients := l } where
  clients := by
    have hperm := (hl.append_right s.lost).append_left (s.queue.filterMap Queued.client?)
    refine (hperm.append_left hand).trans ?_
    refine .trans ?_ (@List.perm_middle _ _ hand _)
    exact List.perm_middle.append_left hand
  sockets := rfl
  listenList := rfl
  held _ := rfl
  nextClient := rfl
  fine := rfl

/-- A client is left behind. -/
theorem Moved.lose : Moved (c :: hand) hand s { s with lost := c :: s.lost } where
  clients := by
    refine .trans ?_ (@List.perm_middle _ _ hand _)
    refine .append_left hand ?_
    refine .trans ?_ List.perm_middle
    exact List.perm_middle.append_left _
  sockets := rfl
  listenList := rfl
  held _ := rfl
  nextClient := rfl
  fine := rfl

/-- A client is put into the queue of its worker. -/
theorem Moved.pass : Moved (c :: hand) hand s (s.passClientToWorker c) where
  clients := by
    have hqueue : (s.queue ++ [Queued.client c]).filterMap Queued.client? =
        s.queue.filterMap Queued.client? ++ [c] := by
      rw [List.filterMap_append]
      rfl
    unfold Server.everyClient
    change (hand ++ ((s.queue ++ [Queued.client c]).filterMap Queued.client? ++ _)).Perm _
    rw [hqueue, List.append_assoc]
    exact .trans (List.perm_middle.append_left hand) List.perm_middle
  sockets := rfl
  listenList := rfl
  held _ := rfl
  nextClient := rfl
  fine := rfl

/-- A client is taken out of the queue. -/
theorem Moved.collect {p : Queued → Bool} (hfind : s.queue.find? p = some (.client c)) :
    Moved hand (c :: hand) s { s with queue := s.queue.eraseP p } where
  clients := by
    have hperm := (perm_of_find? hfind).filterMap Queued.client?
    have happend := (hperm.symm.append_right (s.clients ++ s.lost)).append_left hand
    exact .trans List.perm_middle.symm happend
  sockets := rfl
  listenList := rfl
  held _ := rfl
  nextClient := rfl
  fine := rfl

/-! ## What the operations write -/

/-- The account of the UDP feed that a client has. -/
def Sockets.feedAccount (k : Sockets) (c : ClientT) : Option Nat :=
  if c.udpPort = 0 then none else c.udpclient.bind k.account

/-- A reference to an account is dropped, if there is one. -/
def dropAccount (p : Option Nat) (accounts : Heap PortAccount) : Heap PortAccount :=
  match p with
  | none => accounts
  | some p => portAccounterDrop p accounts

/-- A client has a socket if it has a feed. -/
def Server.Fed (c : ClientT) (s : Server) : Prop :=
  c.udpPort ≠ 0 → ∃ u x, c.udpclient = some u ∧ s.sockets.heap.cells u = some x

theorem Server.withSocket_eq {v : Option Nat} {u : Nat} {x : ClientUdpT} (hv : v = some u)
    (hx : s.sockets.heap.cells u = some x) (f : Nat → ClientUdpT → Server → Server) :
    s.withSocket v f = f u x s := by
  simp only [withSocket, hv, hx]

theorem Sockets.feedAccount_eq {k : Sockets} {u : Nat} {x : ClientUdpT} (hport : c.udpPort ≠ 0)
    (hu : c.udpclient = some u) (hx : k.heap.cells u = some x) :
    k.feedAccount c = some x.portaccount := by
  rw [feedAccount, if_neg hport, hu, Option.bind_some, account, hx]
  rfl

theorem Server.clientFree_eq (hfed : s.Fed c) :
    s.clientFree c =
      { s with
        sockets := s.sockets.clientUdpFree c.udpclient
        lostRefs := (s.sockets.feedAccount c).toList ++ s.lostRefs } := by
  unfold clientFree
  by_cases hport : c.udpPort = 0
  · simp only [hport, Sockets.feedAccount]
    rfl
  · obtain ⟨u, x, hu, hx⟩ := hfed hport
    rw [Sockets.feedAccount_eq hport hu hx]
    simp only [if_pos hport]
    rw [withSocket_eq hu hx]
    rfl

theorem Server.clientDiscard_eq (hfed : s.Fed c) :
    s.clientDiscard c =
      { s with
        sockets := s.sockets.clientUdpFree c.udpclient
        inboundConnects := countInbound 0 s.inboundConnects
        accounts := dropAccount c.portaccount s.accounts
        lostRefs := (s.sockets.feedAccount c).toList ++ s.lostRefs } :=
  clientFree_eq (s := s.inboundConnectsAccount 0 c.portaccount) hfed

theorem Server.clientClose_eq (hfed : s.Fed c) :
    s.clientClose c =
      { s with
        clients := s.clients.eraseP (·.key = c.key)
        sockets := s.sockets.clientUdpFree c.udpclient
        inboundConnects :=
          if c.portaccount.isSome then countInbound 0 s.inboundConnects else s.inboundConnects
        accounts :=
          dropAccount (s.sockets.feedAccount c) (dropAccount c.portaccount s.accounts) } := by
  unfold clientClose
  by_cases hport : c.udpPort = 0
  · simp only [hport, Sockets.feedAccount]
    cases c.portaccount <;> rfl
  · obtain ⟨u, x, hu, hx⟩ := hfed hport
    rw [Sockets.feedAccount_eq hport hu hx]
    simp only [if_pos hport]
    cases c.portaccount with
    | none =>
      rw [if_neg (by simp), withSocket_eq hu (by exact hx)]
      rfl
    | some p =>
      rw [if_pos Option.isSome_some, withSocket_eq hu (by exact hx)]
      rfl

theorem Server.loginSetupUdpFeed_eq {u : Nat} {x : ClientUdpT} (hu : c.udpclient = some u)
    (hx : s.sockets.heap.cells u = some x) (port : Int) :
    s.loginSetupUdpFeed port c =
      ({ c with udpPort := port },
        { s with
          accounts := s.accounts.modify x.portaccount .add
          lostRefs := (s.sockets.feedAccount c).toList ++ s.lostRefs }) := by
  unfold loginSetupUdpFeed
  rw [withSocket_eq hu hx, if_neg (by simp [hu])]
  by_cases hport : c.udpPort = 0
  · simp only [hport, Sockets.feedAccount]
    rfl
  · rw [Sockets.feedAccount_eq hport hu hx]
    simp only [hport]
    rfl

/-! ## Closing -/

theorem Held.fed_socket (h : Held hand s) (hc : c ∈ s.everyClient hand) : s.Fed c :=
  fun hport => h.exists_socket hc (.inl hport)

theorem Held.clientFree (h : Held (c :: hand) s) : Held hand (s.clientFree c) := by
  rw [Server.clientFree_eq (h.fed_socket List.mem_cons_self)]
  exact h.free.moved ⟨.refl _, rfl, rfl, fun _ => rfl, rfl, rfl⟩

/-- The references to accounts that a client has are dropped or lost. -/
theorem Held.clientDiscard (h : Held (c :: hand) s) : Held hand (s.clientDiscard c) := by
  rw [Server.clientDiscard_eq (h.fed_socket List.mem_cons_self)]
  exact h.free.moved ⟨.refl _, rfl, rfl, fun _ => rfl, rfl, rfl⟩

theorem Held.clientClose (h : Held hand s) (hc : s.Fed c)
    (hfind : s.clients.find? (·.key = c.key) = some c) : Held hand (s.clientClose c) := by
  rw [Server.clientClose_eq hc]
  exact (h.moved (.takeOut hfind)).free.moved ⟨.refl _, rfl, rfl, fun _ => rfl, rfl, rfl⟩

/-! ## New clients -/

/-- Only the accounts and their counters are written. -/
theorem Held.account (h : Held hand s) (add : Int) (p : Option Nat) :
    Held hand (s.inboundConnectsAccount add p) :=
  h.moved ⟨.refl _, rfl, rfl, fun _ => rfl, rfl, rfl⟩

/-- What `login_setup_udp_feed` writes, besides the accounts. -/
theorem Held.loginSetupUdpFeed (h : Held (c :: hand) s) (port : Int) :
    Held ((s.loginSetupUdpFeed port c).1 :: hand) (s.loginSetupUdpFeed port c).2 := by
  cases hu : c.udpclient with
  | none =>
    rw [Server.loginSetupUdpFeed, hu, if_pos Option.isNone_none]
    exact h
  | some u =>
    obtain ⟨x, hx⟩ := h.sockets.exists_of_pos (refs_pos List.mem_cons_self hu)
    rw [Server.loginSetupUdpFeed_eq hu hx]
    have hwrite : Held ({ c with udpPort := port } :: hand) s :=
      h.write rfl rfl fun _ => by rw [hu]; rfl
    exact hwrite.moved ⟨.refl _, rfl, rfl, fun _ => rfl, rfl, rfl⟩

theorem Held.loginUdpOptions (h : Held (c :: hand) s) (ports : List Int) :
    Held ((loginUdpOptions ports c s).1 :: hand) (loginUdpOptions ports c s).2 := by
  induction ports generalizing c s with
  | nil => exact h
  | cons port ports ih =>
    rw [Accept.loginUdpOptions]
    split
    · exact h
    · exact ih (h.loginSetupUdpFeed port)

theorem Held.acceptClientForListener (h : Held hand s) {root : Option Nat}
    (hroot : s.sockets.Rooted root) (l : ListenT) (af worker : Nat) :
    Held ((s.acceptClientForListener root l af worker).1 :: hand)
      (s.acceptClientForListener root l af worker).2 := by
  have hmake := h.make (c := (s.acceptClientForListener root l af worker).1) hroot af l.portnum
    rfl rfl nofun rfl
  exact hmake.account 1 (some l.portaccount)

/-- The accept thread goes where it holds as much. -/
theorem Held.goto (h : Held hand s) {pc : AcceptPc} (hheld : ∀ u, pc.held u = s.pc.held u) :
    Held hand { s with pc } :=
  h.moved ⟨.refl _, rfl, rfl, hheld, rfl, rfl⟩

theorem Held.doAcceptClient (h : Held hand s) (hheld : ∀ u, s.pc.held u = 0) {root : Option Nat}
    (hroot : s.sockets.Rooted root) (l : ListenT) (a : Connection) :
    Held hand (s.doAcceptClient root l a) := by
  have hpolling : Held hand { s with pc := .polling } := h.goto fun u => (hheld u).symm
  have hmake := hpolling.acceptClientForListener hroot l a.addr.family a.worker
  have hlogin := hmake.write
    (d := { ({ s with pc := .polling }.acceptClientForListener root l a.addr.family a.worker).1 with
      state := .login, ssl := l.ssl }) rfl rfl (by simp [Server.acceptClientForListener])
  unfold Server.doAcceptClient
  dsimp only
  split
  · exact (hlogin.moved .lose).account _ _
  · split
    · exact hlogin.clientDiscard
    · exact hlogin.moved .pass

theorem toCState_ne_corepeer (st : SavedState) : st.toCState ≠ .corepeer := by
  cases st <;> simp [SavedState.toCState]

theorem Held.acceptLiveupgradeFound (h : Held hand s) (hheld : ∀ u, s.pc.held u = 0)
    {root : Option Nat} (hroot : s.sockets.Rooted root) (l : ListenT) (r : Restored) :
    Held ((s.acceptClientForListener root l r.addr.family r.worker).1 :: hand)
      (s.acceptLiveupgradeFound root l r) :=
  (h.acceptClientForListener hroot l r.addr.family r.worker).goto fun u => (hheld u).symm

/-- The state of a client in hand is that which it had in the old process. -/
theorem Held.restoreState (h : Held (c :: hand) s) (st : SavedState) :
    Held ({ c with state := st.toCState } :: hand) s := by
  refine h.write rfl rfl fun hor => h.fed c List.mem_cons_self (.inl ?_)
  rcases hor with hport | hcore
  · exact hport
  · exact absurd hcore (toCState_ne_corepeer st)

theorem Held.acceptLiveupgradeClient (h : Held (c :: hand) s) (hheld : ∀ u, s.pc.held u = 0)
    (r : Restored) : Held hand (s.acceptLiveupgradeClient c r) := by
  have hpolling : Held (c :: hand) { s with pc := .polling } := h.goto fun u => (hheld u).symm
  unfold Server.acceptLiveupgradeClient
  dsimp only
  cases r.state with
  | none => exact hpolling.clientDiscard
  | some st =>
    have hstate := hpolling.restoreState st
    dsimp only
    cases r.feedPort with
    | none =>
      dsimp only
      split
      · exact hstate.clientDiscard
      · exact hstate.moved .pass
    | some port =>
      have hfeed := hstate.loginSetupUdpFeed port
      dsimp only
      split
      · exact hfeed.clientDiscard
      · exact hfeed.moved .pass

/-! ## Core peers -/

/-- The keys are those of the peers that the worker has. -/
def PeersAre (keys : List Nat) (s : Server) : Prop :=
  keys.Perm ((s.clients.filter (·.state = .corepeer)).map (·.key))

theorem keys_inj (h : Held hand s) (hc : c ∈ s.clients) (hd : d ∈ s.clients)
    (hkey : c.key = d.key) : c = d :=
  List.inj_on_of_nodup_map h.clients_nodup hc hd hkey

/-- The client with the key of a peer. -/
theorem PeersAre.find {key : Nat} {keys : List Nat} (hp : PeersAre (key :: keys) s)
    (h : Held hand s) :
    ∃ c, s.clients.find? (·.key = key) = some c ∧ c.key = key ∧ c.state = .corepeer ∧
      PeersAre keys { s with clients := s.clients.eraseP (·.key = key) } := by
  obtain ⟨d, hd, hkey⟩ := List.mem_map.mp (hp.mem_iff.mp List.mem_cons_self)
  obtain ⟨hmem, hcore⟩ := List.mem_filter.mp hd
  cases hfind : s.clients.find? (·.key = key) with
  | none =>
    have hnone := List.find?_eq_none.mp hfind d hmem
    exact absurd (by simpa using hkey) hnone
  | some c =>
    have hc : c.key = key := by simpa using List.find?_some hfind
    obtain rfl := keys_inj h (List.mem_of_find?_eq_some hfind) hmem (hc.trans hkey.symm)
    refine ⟨c, rfl, hc, by simpa using hcore, ?_⟩
    have hperm := ((perm_of_find? hfind).filter (·.state = .corepeer)).map (·.key)
    have hfilter := List.filter_cons_of_pos (p := fun e : ClientT => e.state = .corepeer)
      (l := s.clients.eraseP (·.key = key)) hcore
    rw [hfilter, List.map_cons, hkey] at hperm
    exact (hp.trans hperm).cons_inv

theorem Server.closePeer_eq {key : Nat} (hfind : s.clients.find? (·.key = key) = some c) :
    s.closePeer key = s.clientClose c := by
  rw [closePeer, hfind]

/-- The loop of `corepeer_close_all`. -/
theorem Held.closePeers {keys : List Nat} (h : Held hand s) (hp : PeersAre keys s) :
    Held hand (keys.foldl Server.closePeer s) ∧ PeersAre [] (keys.foldl Server.closePeer s) := by
  -- the array without its first key is that of the peers without the first one
  induction keys generalizing s with
  | nil => exact ⟨h, hp⟩
  | cons key keys ih =>
    obtain ⟨c, hfind, rfl, -, hrest⟩ := hp.find h
    have hfed := h.fed_socket (mem_everyClient hfind)
    rw [List.foldl_cons, Server.closePeer_eq hfind]
    apply ih (h.clientClose hfed hfind)
    rw [Server.clientClose_eq hfed]
    exact hrest

theorem Held.corepeerCloseAll (h : Held hand s) (hp : PeersAre s.corepeerClients s) :
    Held hand s.corepeerCloseAll ∧
      PeersAre s.corepeerCloseAll.corepeerClients s.corepeerCloseAll := by
  obtain ⟨hheld, hpeers⟩ := h.closePeers hp
  exact ⟨hheld.moved ⟨.refl _, rfl, rfl, fun _ => rfl, rfl, rfl⟩, hpeers⟩

end Aprsc.Accept
