-- SUMMARY: As long as the listeners for UDP are kept, no account is used after it was freed.
import Aprsc.Accept.Dangling

/-!
# Listeners that are kept

A socket is opened with the account of a listener for UDP. As long as no such listener is
closed, the account of every socket has a listener, and no feed can dangle: it takes a new
configuration without a UDP port that was there before.
-/

namespace Aprsc.Accept

open Counted Runs

variable {s s' t : Server} {c : ClientT} {l : ListenT}

/-! ## Sockets of listeners -/

/-- Each socket is held by a listener whose account it has, and so is the head of a list that the
accept thread has read. -/
structure Backed (s : Server) : Prop where
  sockets : ∀ u x, s.sockets.heap.cells u = some x →
    ∃ l ∈ s.listenList, l.udp = some u ∧ l.portaccount = x.portaccount
  root : ∀ u w, s.pc = .searching (some u) w → ∃ l ∈ s.listenList, l.udp = some u

theorem Backed.sockets_quiet (h : Backed s) (hq : Quiet s s') (u : Nat) (x : ClientUdpT)
    (hx : s'.sockets.heap.cells u = some x) :
    ∃ l ∈ s'.listenList, l.udp = some u ∧ l.portaccount = x.portaccount := by
  obtain ⟨y, hy, hyx⟩ := Option.map_eq_some_iff.mp (hq.sockets.account u x hx)
  rw [hq.listenList, ← hyx]
  exact h.sockets u y hy

theorem Backed.still (h : Backed s) (hf : Still s s') : Backed s' where
  sockets := h.sockets_quiet hf.toQuiet
  root := by
    rw [hf.pc, hf.listenList]
    exact h.root

/-- The accept thread goes on, and is not searching then. -/
theorem Backed.quiet (h : Backed s) (hq : Quiet s s') (hsearching : s'.pc.isSearching = false) :
    Backed s' where
  sockets := h.sockets_quiet hq
  root u w hpc := absurd hpc (AcceptPc.searching_ne hsearching (some u) w)

/-- The head of a list is one of the sockets. -/
theorem Backed.search (h : Backed s) (hinv : Inv s) (w : Search) : Backed (s.search w) where
  sockets := h.sockets
  root u w' hpc := by
    have hroot : (s.sockets.list w.corepeer).head? = some u := (AcceptPc.searching.inj hpc).1
    obtain ⟨x, hx⟩ := Option.isSome_iff_exists.mp (hinv.held.sockets.rooted w.corepeer u hroot)
    obtain ⟨l, hl, hlu, -⟩ := h.sockets u x hx
    exact ⟨l, hl, hlu⟩

/-- The head that was read is there, since its listener is. -/
theorem Backed.not_searchesFreed (h : Backed s) (hinv : Inv s) (e : Event) :
    s.searchesFreed e = false := by
  cases e with
  | accept o passFails =>
    have hgone : s.rootGone = false := by
      unfold Server.rootGone
      split
      next u w hpc =>
        obtain ⟨l, hl, hlu⟩ := h.root u w hpc
        obtain ⟨x, hx⟩ := hinv.exists_listener_socket hl hlu
        rw [hx]
        rfl
      next => rfl
    rw [Server.searchesFreed, hgone, Bool.and_false]
  | _ => rfl

/-- A feed that is set up through any socket finds the account. -/
theorem Backed.not_dangles (h : Backed s) (e : Event) : ¬s.Dangles e := by
  rintro ⟨-, u, a, -, haccount, hfree⟩
  obtain ⟨x, hx, rfl⟩ := Option.map_eq_some_iff.mp haccount
  obtain ⟨l, hl, -, hla⟩ := h.sockets u x hx
  exact hfree (.inl ⟨l, hl, hla⟩)

/-- The accept thread goes on to close a listener for UDP. -/
def Server.closesUdp (s : Server) : Event → Bool
  | .accept _ _ =>
      match s.pc with
      | .closing (l :: _) => l.udp.isSome && !s.listenConfig.any (·.id = l.id)
      | _ => false
  | _ => false

theorem Backed.listenerFree (h : Backed s) (hlist : Listening s) (hl : l ∈ s.listenList)
    (hudp : l.udp = none) (hsearching : s.pc.isSearching = false) : Backed (s.listenerFree l) where
  sockets u x hx := by
    have hsame : s.sockets.heap.cells u = some x := by
      change (s.sockets.clientUdpFree l.udp).heap.cells u = some x at hx
      rw [hudp] at hx
      exact hx
    obtain ⟨m, hm, hmudp, hmx⟩ := h.sockets u x hsame
    refine ⟨m, ?_, hmudp, hmx⟩
    rcases List.mem_cons.mp ((hlist.perm hl).mem_iff.mp hm) with rfl | hmem
    · rw [hudp] at hmudp
      cases hmudp
    · exact hmem
  root u w hpc := absurd hpc (AcceptPc.searching_ne hsearching (some u) w)

/-- What is opened is the socket of a listener. -/
theorem Backed.openListener (h : Backed s) (hinv : Inv s) (maxclients : Int) (lc : ListenConfigT)
    (o : Opened) (u : Nat) (x : ClientUdpT)
    (hx : (s.openListener maxclients lc o).2.sockets.heap.cells u = some x) :
    ∃ l ∈ (s.openListener maxclients lc o).2.listenList,
      l.udp = some u ∧ l.portaccount = x.portaccount := by
  have hopens := hinv.listening.opens maxclients lc o
  generalize s.openListener maxclients lc o = r at hopens hx ⊢
  cases hopens with
  | fails k a hk hkeep _ _ _ =>
    -- a socket that was opened is closed again, so what is there was there before
    have hlt : u < s.sockets.heap.next :=
      hinv.held.sockets.owned.lt_next ((hk _ hinv.held.sockets).owned.pos_of_some hx)
    obtain ⟨y, hy, hyx⟩ := Option.map_eq_some_iff.mp (hkeep u x hx hlt)
    obtain ⟨m, hm, hmudp, hmy⟩ := h.sockets u y hy
    exact ⟨m, hm, hmudp, hmy.trans hyx⟩
  | stream =>
    obtain ⟨m, hm, hm'⟩ := h.sockets u x hx
    exact ⟨m, List.mem_cons_of_mem _ hm, hm'⟩
  | udp =>
    by_cases hu : u = s.sockets.heap.next
    · subst hu
      refine ⟨_, List.mem_cons_self, rfl, ?_⟩
      have hnew := s.sockets.heap.cells_alloc_self
        (⟨s.accounts.next, 1, false, family lc, lc.portnum⟩ : ClientUdpT)
      cases hnew.symm.trans hx
      rfl
    · have hold := s.sockets.heap.cells_alloc_of_ne
        (⟨s.accounts.next, 1, false, family lc, lc.portnum⟩ : ClientUdpT) hu
      obtain ⟨m, hm, hm'⟩ := h.sockets u x (hold.symm.trans hx)
      exact ⟨m, List.mem_cons_of_mem _ hm, hm'⟩

theorem Backed.updateConfig (h : Backed s) (a : Nat) (lc : ListenConfigT) (u : Nat) (x : ClientUdpT)
    (hx : s.sockets.heap.cells u = some x) :
    ∃ l ∈ s.listenList.map fun m => if m.portaccount = a then m.updateConfig lc else m,
      l.udp = some u ∧ l.portaccount = x.portaccount := by
  obtain ⟨m, hm, hmudp, hmx⟩ := h.sockets u x hx
  refine ⟨_, List.mem_map_of_mem hm, ?_, ?_⟩
  · split <;> exact hmudp
  · split <;> exact hmx

theorem Quiet.findPeerSocket (root : Option Nat) (pe : PeeripConfig) (rest : List PeeripConfig)
    (s : Server) : Quiet s (s.findPeerSocket root pe rest) ∧
      (s.findPeerSocket root pe rest).pc.isSearching = false := by
  have hfind := s.sockets.within_find root pe.af pe.localPort
  unfold Server.findPeerSocket
  generalize s.sockets.clientUdpFind root pe.af pe.localPort = r at hfind ⊢
  obtain ⟨_ | u, k⟩ := r
  · exact ⟨⟨rfl, hfind⟩, rfl⟩
  · exact ⟨⟨rfl, hfind⟩, rfl⟩

theorem Backed.acceptThread (h : Backed s) (hinv : Inv s) (maxclients : Int) (o : Opened)
    (passFails : Bool) (hkept : s.closesUdp (.accept o passFails) = false) :
    Backed (s.acceptThread maxclients o passFails) := by
  have hgoto : ∀ pc, Quiet s { s with pc } := fun _ => .of_eq rfl rfl
  unfold Server.acceptThread
  split
  next =>
    split
    · exact h.quiet (.of_eq rfl rfl) rfl
    · exact h
  next root l a _ =>
    have hf := Frame.doAcceptClient root l a s
    refine h.quiet ((hgoto _).trans hf.toQuiet) ?_
    rw [hf.pc]
    rfl
  next root l r _ =>
    have hf := Frame.acceptClientForListener root l r.addr.family r.worker s
    exact h.quiet (hf.toQuiet.trans (.of_eq rfl rfl)) rfl
  next root pe rest _ =>
    obtain ⟨hq, hsearching⟩ := Quiet.findPeerSocket root pe rest s
    exact h.quiet hq hsearching
  next c r _ =>
    have hf := Frame.acceptLiveupgradeClient c r s
    refine h.quiet ((hgoto _).trans hf.toQuiet) ?_
    rw [hf.pc]
    rfl
  next => exact h.quiet (hgoto _) rfl
  next l rest hpc =>
    have hlisteners := hinv.listening.listeners
    rw [hpc] at hlisteners
    have hclosing : Backed { s with pc := .closing rest } := h.quiet (hgoto _) rfl
    dsimp only
    split
    next => exact hclosing
    next hany =>
      rw [Server.closesUdp, hpc] at hkept
      have hudp : l.udp = none := by
        cases hl : l.udp with
        | none => rfl
        | some u => simp [hl, hany] at hkept
      have hsub : (l :: rest).Sublist s.listenList := hlisteners
      have hlist : Listening { s with pc := .closing rest } :=
        hinv.listening.goto ((List.sublist_cons_self l rest).trans hsub) rfl
      exact hclosing.listenerFree hlist (hsub.subset List.mem_cons_self) hudp rfl
  next =>
    split
    next failed hpc _ =>
      refine h.quiet (.of_eq rfl rfl) ?_
      change s.pc.isSearching = false
      rw [hpc]
      rfl
    next => exact h.quiet (.of_eq rfl rfl) rfl
  next lc rest failed hpc =>
    split
    next l _ => exact ⟨h.updateConfig l.portaccount lc, fun _ _ hw => nomatch hw⟩
    next => exact ⟨h.openListener hinv maxclients lc o, fun _ _ hw => nomatch hw⟩
  next => exact h.quiet (hgoto _) rfl
  next pe rest _ => exact h.search hinv _
  next pe u rest _ =>
    have hf := Frame.peeripClientConfig pe u passFails { s with pc := .peering rest }
    refine h.quiet ((hgoto _).trans hf.toQuiet) ?_
    rw [hf.pc]
    rfl

theorem Backed.step (h : Backed s) (hinv : Inv s) (maxclients : Int) (e : Event)
    (hkept : s.closesUdp e = false) : Backed (s.step maxclients e) := by
  by_cases hworker : e.byWorker = true
  · exact h.still (Still.step hworker maxclients s)
  unfold Server.step
  split
  · exact h
  cases e with
  | readConfig listenConfig peeripConfig =>
    dsimp only
    split
    · exact h
    · exact h.still ⟨.of_eq rfl rfl, rfl, rfl⟩
  | accept o passFails => exact h.acceptThread hinv maxclients o passFails hkept
  | connect k a =>
    dsimp only
    split
    · split
      · unfold Server.doAccept
        split
        · exact h.still (Frame.account ..).toStill
        · exact h.search hinv _
      · exact h
    · exact h
  | udpRecv k =>
    dsimp only
    split
    · split
      · refine h.still (Still.withSocket (fun _ _ => ?_) _)
        exact ⟨.of_eq rfl rfl, rfl, Heap.next_modify ..⟩
      · exact h
    · exact h
  | restore k r =>
    dsimp only
    split
    · split
      · unfold Server.acceptLiveupgradeSingle
        split
        · exact h
        · exact h.search hinv _
      · exact h
    · exact h
  | _ => exact absurd rfl hworker

/-- In a run in which no listener for UDP is closed, nothing is used after it was freed: each
socket is held by its listener, and has the account of that. -/
theorem accounts_of_kept_listeners (maxclients : Int) (listenConfig : List ListenConfigT)
    (peeripConfig : List PeeripConfig) (es : List Event)
    (hkept : Meets (Server.step maxclients) (fun s e => s.closesUdp e = false)
      (Server.start listenConfig peeripConfig) es) :
    Always (Server.step maxclients) (fun s => Backed s ∧ SocketsHeld s ∧ AccountsHeld s)
      (Server.start listenConfig peeripConfig) es := by
  have hstart : Backed (Server.start listenConfig peeripConfig) :=
    ⟨fun _ _ hx => absurd hx (by simp [Server.start, Heap.empty]), fun _ _ hw => nomatch hw⟩
  have hall := hkept.always (I := fun s => Inv s ∧ Books s.pc.hand s ∧ Backed s) ?_
    ⟨inv_start .., books_start .., hstart⟩
  · exact hall.imp fun s h => ⟨h.2.2, h.1.socketsHeld, h.2.1.accountsHeld⟩
  · rintro s e ⟨h, hb, hbacked⟩ hok
    have hroot := hbacked.not_searchesFreed h e
    exact ⟨h.step maxclients e hroot, hb.step h maxclients e hroot (hbacked.not_dangles e),
      hbacked.step h maxclients e hok⟩

/-- A client with a feed stays connected while the listener that accepted it is replaced by
another one. The UDP port is in both configurations. -/
theorem accounts_of_kept_port :
    let listen (id : Int) (proto : String) (portnum : Int) : ListenConfigT :=
      { id, proto := ascii proto, name := [], host := [], portnum, clientsMax := 10,
        corepeer := false, hidden := false, tls := fun _ => none, ai := [(.inet 0, 0)], acl := none,
        filters := [], clientFlags := 0 }
    let goesOn : Event := .accept ⟨false, false⟩ false
    Always (Server.step 100) (fun s => Backed s ∧ SocketsHeld s ∧ AccountsHeld s)
      (Server.start [listen 1 "udp" 14580, listen 2 "tcp" 14580] [])
      (List.replicate 6 goesOn ++
        [.connect 0 ⟨.inet 1, 0, false, false, false⟩, goesOn, .collect 0, .collect 0,
          .login 0 [14580] true, .send 0,
          .readConfig [listen 1 "udp" 14580, listen 3 "tcp" 10152] []] ++
        List.replicate 8 goesOn ++ [.send 0, .write 0, .read 0, .close 0]) :=
  accounts_of_kept_listeners 100 _ [] _ (by decide +kernel)

end Aprsc.Accept
