-- SUMMARY: Who holds the port accounts, and what each operation of the threads does to their references.
import Aprsc.Accept.Lifetimes

/-!
# Holders of accounts

A listener holds a reference to its account, and so does each client that it has accepted,
and each client and peer that is fed through its socket. Some references are lost: a second
UDP port in a login takes another one, and a client that is discarded keeps the one of its
feed.
-/

namespace Aprsc.Accept

open Counted Runs

variable {s s' t : Server} {hand hand' : List ClientT} {c d : ClientT} {l : ListenT} {a : Nat}

/-! ## References to accounts -/

/-- How many references to an account a client has. -/
def Server.owes (c : ClientT) (s : Server) (a : Nat) : Nat :=
  (if c.portaccount = some a then 1 else 0) + if s.sockets.feedAccount c = some a then 1 else 0

/-- How many references are held to an account. -/
def Server.accountRefs (hand : List ClientT) (s : Server) (a : Nat) : Nat :=
  s.listenList.countP (·.portaccount = a) + (s.everyClient hand).countP (·.portaccount = some a) +
    (s.everyClient hand).countP (s.sockets.feedAccount · = some a) + s.lostRefs.count a

/-- What holds of the accounts as long as none was misused. A peer has a feed. -/
structure Books (hand : List ClientT) (s : Server) : Prop where
  accounts : Owned (·.refcount) s.accounts (s.accountRefs hand)
  peers : ∀ c ∈ s.everyClient hand, c.state = .corepeer → c.udpPort ≠ 0

/-- Somebody has a reference to the account, and there may be lost ones. -/
def Server.Referenced (s : Server) (a : Nat) : Prop :=
  (∃ l ∈ s.listenList, l.portaccount = a) ∨
    (∃ c ∈ s.allClients, c.portaccount = some a ∨ s.sockets.feedAccount c = some a) ∨
      a ∈ s.lostRefs

theorem Server.accountRefs_pos : 0 < s.accountRefs s.pc.hand a ↔ s.Referenced a := by
  have hlisteners := List.countP_pos_iff (p := fun l : ListenT => l.portaccount = a)
    (l := s.listenList)
  have haccepted := List.countP_pos_iff (p := fun c : ClientT => c.portaccount = some a)
    (l := s.allClients)
  have hfed := List.countP_pos_iff (p := fun c : ClientT => s.sockets.feedAccount c = some a)
    (l := s.allClients)
  have hlost := List.count_pos_iff (a := a) (l := s.lostRefs)
  simp only [decide_eq_true_eq] at hlisteners haccepted hfed
  unfold Referenced
  simp only [and_or_left, exists_or]
  rw [← hlisteners, ← haccepted, ← hfed, ← hlost]
  unfold accountRefs allClients
  omega

theorem Server.accountRefs_cons (c : ClientT) (hand : List ClientT) (s : Server) (a : Nat) :
    s.accountRefs (c :: hand) a = s.accountRefs hand a + s.owes c a := by
  unfold accountRefs owes
  rw [everyClient_cons, List.countP_cons, List.countP_cons]
  simp only [decide_eq_true_eq]
  omega

theorem Server.accountRefs_listener (hl : l ∈ s.listenList) (hand : List ClientT) :
    0 < s.accountRefs hand l.portaccount := by
  have hpos : 0 < s.listenList.countP (·.portaccount = l.portaccount) :=
    List.countP_pos_iff.mpr ⟨l, hl, decide_eq_true rfl⟩
  unfold accountRefs
  omega

theorem Server.accountRefs_accepted (hc : c ∈ s.everyClient hand) (ha : c.portaccount = some a) :
    0 < s.accountRefs hand a := by
  have hpos : 0 < (s.everyClient hand).countP (·.portaccount = some a) :=
    List.countP_pos_iff.mpr ⟨c, hc, decide_eq_true ha⟩
  unfold accountRefs
  omega

theorem Server.accountRefs_fed (hc : c ∈ s.everyClient hand)
    (ha : s.sockets.feedAccount c = some a) : 0 < s.accountRefs hand a := by
  have hpos : 0 < (s.everyClient hand).countP (s.sockets.feedAccount · = some a) :=
    List.countP_pos_iff.mpr ⟨c, hc, decide_eq_true ha⟩
  unfold accountRefs
  omega

/-- The feeds go on through the same accounts as long as the sockets keep theirs. -/
theorem feedAccount_keeps (h : Held hand s) (h' : Held hand' s')
    (hkeep : s.sockets.Keeps s'.sockets) (hc : c ∈ s.everyClient hand)
    (hc' : c ∈ s'.everyClient hand') : s'.sockets.feedAccount c = s.sockets.feedAccount c := by
  unfold Sockets.feedAccount
  split
  · rfl
  · next hport =>
    obtain ⟨u, x, hu, hx⟩ := h'.exists_socket hc' (.inl hport)
    -- the client had the socket before, so it is not a new one
    have hold := hkeep u x hx (h.sockets.owned.lt_next (refs_pos hc hu))
    rw [hu, Option.bind_some, Option.bind_some, hold, Sockets.account, hx]
    rfl

theorem countP_feeds_keeps (h : Held hand s) (h' : Held hand' s')
    (hkeep : s.sockets.Keeps s'.sockets) (cs : List ClientT)
    (hcs : ∀ c ∈ cs, c ∈ s.everyClient hand ∧ c ∈ s'.everyClient hand') (a : Nat) :
    cs.countP (s'.sockets.feedAccount · = some a) =
      cs.countP (s.sockets.feedAccount · = some a) := by
  apply List.countP_congr
  intro c hc
  rw [feedAccount_keeps h h' hkeep (hcs c hc).1 (hcs c hc).2]

theorem Moved.accountRefs (hm : Moved hand hand' s s') (hlost : s'.lostRefs = s.lostRefs)
    (a : Nat) : s'.accountRefs hand' a = s.accountRefs hand a := by
  unfold Server.accountRefs
  rw [hm.listenList, hm.sockets, hlost, hm.clients.countP_eq, hm.clients.countP_eq]

/-- Clients that have moved are charged to the same accounts. -/
theorem Books.moved (hb : Books hand s) (hm : Moved hand hand' s s')
    (haccounts : s'.accounts = s.accounts) (hlost : s'.lostRefs = s.lostRefs) : Books hand' s' where
  accounts := by
    rw [haccounts]
    exact hb.accounts.congr (hm.accountRefs hlost)
  peers c hc := hb.peers c (hm.clients.mem_iff.mp hc)

/-- The sockets change and keep their accounts. -/
theorem Books.resocket (hb : Books hand s) (h : Held hand s) (h' : Held hand s')
    (hkeep : s.sockets.Keeps s'.sockets) (hclients : s'.everyClient hand = s.everyClient hand)
    (hlist : s'.listenList.map (·.portaccount) = s.listenList.map (·.portaccount))
    (haccounts : s'.accounts = s.accounts) (hlost : s'.lostRefs = s.lostRefs) : Books hand s' where
  accounts := by
    rw [haccounts]
    refine hb.accounts.congr fun a => ?_
    have hcount : s'.listenList.countP (·.portaccount = a) =
        s.listenList.countP (·.portaccount = a) := by
      have hmap := congrArg (List.countP (· = a)) hlist
      rw [List.countP_map, List.countP_map] at hmap
      exact hmap
    unfold Server.accountRefs
    rw [hcount, hlost, hclients, countP_feeds_keeps h h' hkeep _ fun c hc => ⟨hc, hclients ▸ hc⟩]
  peers := by
    rw [hclients]
    exact hb.peers

/-! ## References that are dropped -/

theorem Owned.dropAccount {accounts : Heap PortAccount} {refs refs' : Nat → Nat}
    (ho : Owned (·.refcount) accounts refs) {p : Option Nat}
    (hrefs : ∀ b, refs b = refs' b + if p = some b then 1 else 0) :
    Owned (·.refcount) (dropAccount p accounts) refs' := by
  cases p with
  | none => exact ho.congr fun b => (hrefs b).symm
  | some p =>
    apply ho.drop (f := .drop) fun _ => rfl
    intro b
    rw [hrefs]
    simp only [Option.some_inj, @eq_comm _ p b]

/-- A client that is freed takes its own references along, if they were seen to. -/
theorem Books.freed (hb : Books (c :: hand) s) (h : Held (c :: hand) s)
    {accounts : Heap PortAccount} {i : PortAccount} (lost : List Nat)
    (haccounts : ∀ refs, (∀ a, s.accountRefs (c :: hand) a + lost.count a =
        refs a + s.owes c a) → Owned (·.refcount) accounts refs) :
    Books hand
      { s with
        sockets := s.sockets.clientUdpFree c.udpclient
        inboundConnects := i
        accounts
        lostRefs := lost ++ s.lostRefs } where
  accounts := by
    apply haccounts
    intro a
    have hkeep := (s.sockets.within_free c.udpclient).keeps
    have hfeeds := countP_feeds_keeps h h.free hkeep (s.everyClient hand)
      (fun e he => ⟨List.mem_cons_of_mem c he, he⟩) a
    rw [Server.accountRefs_cons]
    change _ = s.listenList.countP _ + (s.everyClient hand).countP _ +
      (s.everyClient hand).countP
        ((s.sockets.clientUdpFree c.udpclient).feedAccount · = some a) +
      (lost ++ s.lostRefs).count a + _
    rw [hfeeds, List.count_append]
    unfold Server.accountRefs
    omega
  peers e he := hb.peers e (List.mem_cons_of_mem c he)

theorem count_toList (o : Option Nat) (a : Nat) :
    o.toList.count a = if o = some a then 1 else 0 := by
  cases o with
  | none => rfl
  | some p =>
    rw [Option.toList_some, List.count_singleton]
    simp

/-- A client without an account is freed. -/
theorem Books.clientFree (hb : Books (c :: hand) s) (h : Held (c :: hand) s)
    (hnone : c.portaccount = none) : Books hand (s.clientFree c) := by
  rw [Server.clientFree_eq (h.fed_socket List.mem_cons_self)]
  apply hb.freed h _
  intro refs hrefs
  refine hb.accounts.congr fun a => ?_
  have ha := hrefs a
  rw [count_toList, Server.owes, hnone, if_neg (Option.some_ne_none a).symm] at ha
  omega

theorem Books.clientDiscard (hb : Books (c :: hand) s) (h : Held (c :: hand) s) :
    Books hand (s.clientDiscard c) := by
  rw [Server.clientDiscard_eq (h.fed_socket List.mem_cons_self)]
  apply hb.freed h _
  intro refs hrefs
  apply Owned.dropAccount hb.accounts
  intro a
  have ha := hrefs a
  rw [count_toList, Server.owes] at ha
  omega

/-- A client is taken out of the list of its worker, and its references are dropped. -/
theorem Books.clientClose (hb : Books hand s) (h : Held hand s) (hc : s.Fed c)
    (hfind : s.clients.find? (·.key = c.key) = some c) : Books hand (s.clientClose c) := by
  rw [Server.clientClose_eq hc]
  have hout := h.moved (.takeOut hfind)
  have hbout := hb.moved (.takeOut hfind) rfl rfl
  apply hbout.freed hout []
  intro refs hrefs
  have hdrop : Owned (·.refcount) (dropAccount c.portaccount s.accounts) fun a =>
      refs a + if s.sockets.feedAccount c = some a then 1 else 0 := by
    apply Owned.dropAccount hbout.accounts
    intro a
    have ha := hrefs a
    rw [List.count_nil, Server.owes] at ha
    change _ = refs a + (_ + if s.sockets.feedAccount c = some a then 1 else 0) at ha
    omega
  exact Owned.dropAccount hdrop fun a => rfl

/-! ## References that are taken -/

theorem Server.accountRefs_lose (lost : List Nat) (hand : List ClientT) (s : Server) (a : Nat) :
    Server.accountRefs hand { s with lostRefs := lost ++ s.lostRefs } a =
      s.accountRefs hand a + lost.count a := by
  unfold accountRefs
  rw [List.count_append, Nat.add_comm (lost.count a), ← Nat.add_assoc]
  rfl

/-- A reference is taken to an account that somebody has one to. -/
theorem Books.loginSetupUdpFeed (hb : Books (c :: hand) s) (h : Held (c :: hand) s) {port : Int}
    (hport : port ≠ 0)
    (hthere : ∀ u x, c.udpclient = some u → s.sockets.heap.cells u = some x →
      0 < s.accountRefs (c :: hand) x.portaccount) :
    Books ((s.loginSetupUdpFeed port c).1 :: hand) (s.loginSetupUdpFeed port c).2 := by
  cases hu : c.udpclient with
  | none =>
    rw [Server.loginSetupUdpFeed, hu, if_pos Option.isNone_none]
    exact hb
  | some u =>
    obtain ⟨x, hx⟩ := h.sockets.exists_of_pos (refs_pos List.mem_cons_self hu)
    rw [Server.loginSetupUdpFeed_eq hu hx]
    refine ⟨?_, ?_⟩
    · apply hb.accounts.take (hthere u x hu hx) fun _ => rfl
      intro a
      have hfeed : s.sockets.feedAccount { c with udpPort := port } = some x.portaccount :=
        Sockets.feedAccount_eq (c := { c with udpPort := port }) hport hu hx
      have hnew := Server.accountRefs_cons { c with udpPort := port } hand
        { s with lostRefs := (s.sockets.feedAccount c).toList ++ s.lostRefs } a
      have hold := Server.accountRefs_cons c hand s a
      have hlost : Server.accountRefs hand
          { s with lostRefs := (s.sockets.feedAccount c).toList ++ s.lostRefs } a =
          s.accountRefs hand a + if s.sockets.feedAccount c = some a then 1 else 0 := by
        rw [Server.accountRefs_lose, count_toList]
      change Server.accountRefs ({ c with udpPort := port } :: hand)
        { s with lostRefs := (s.sockets.feedAccount c).toList ++ s.lostRefs } a = _
      rw [hnew, hlost, hold]
      change _ + ((if c.portaccount = some a then 1 else 0) +
        if s.sockets.feedAccount { c with udpPort := port } = some a then 1 else 0) = _
      rw [hfeed, Server.owes]
      simp only [Option.some_inj, @eq_comm _ x.portaccount a]
      omega
    · refine List.forall_mem_cons.mpr ⟨fun _ => hport, fun e he => ?_⟩
      exact hb.peers e (List.mem_cons_of_mem c he)

/-! ## Accounts that are used -/

/-- An account is used that somebody has a reference to. -/
theorem Books.reject (hb : Books hand s) (ha : 0 < s.accountRefs hand a) :
    Books hand (s.inboundConnectsAccount (-1) (some a)) where
  accounts := by
    change Owned _ (s.accounts.modify a .reject) _
    exact hb.accounts.use ha fun _ => rfl
  peers := hb.peers

theorem Books.touch (hb : Books hand s) (ha : 0 < s.accountRefs hand a) :
    Books hand { s with accounts := s.accounts.modify a id } where
  accounts := hb.accounts.use ha fun _ => rfl
  peers := hb.peers

/-- The traffic of a client is counted for its account, or for that of its feed. -/
theorem Books.clientaccountAdd (hb : Books hand s) (h : Held hand s) (hc : c ∈ s.everyClient hand)
    {udp : Bool} (hudp : udp = true → c.udpclient.isSome → c.udpPort ≠ 0) :
    Books hand (s.clientaccountAdd udp c) := by
  unfold Server.clientaccountAdd
  dsimp only
  split
  next hfed =>
    have hport := hudp hfed.1 hfed.2
    obtain ⟨u, x, hu, hx⟩ := h.exists_socket hc (.inl hport)
    rw [Server.withSocket_eq hu hx]
    exact hb.touch (Server.accountRefs_fed hc (Sockets.feedAccount_eq hport hu hx))
  next =>
    split
    · exact hb
    next p hp => exact hb.touch (Server.accountRefs_accepted hc hp)

/-! ## Clients that come in -/

/-- A client in hand is written, but not what it refers to. -/
theorem Books.write (hb : Books (c :: hand) s) (haccount : d.portaccount = c.portaccount)
    (hsocket : d.udpclient = c.udpclient) (hport : d.udpPort = c.udpPort)
    (hstate : d.state = .corepeer → d.udpPort ≠ 0) : Books (d :: hand) s where
  accounts := hb.accounts.congr fun a => by
    have howes : s.owes d a = s.owes c a := by
      rw [Server.owes, Server.owes, Sockets.feedAccount, Sockets.feedAccount, haccount, hsocket,
        hport]
    rw [s.accountRefs_cons, s.accountRefs_cons, howes]
  peers := List.forall_mem_cons.mpr ⟨hstate, fun e he => hb.peers e (List.mem_cons_of_mem c he)⟩

theorem Held.accountRefs_accepted (h : Held hand s) {root : Option Nat}
    (hroot : s.sockets.Rooted root) (l : ListenT) (af worker a : Nat) :
    (s.acceptClientForListener root l af worker).2.accountRefs
        ((s.acceptClientForListener root l af worker).1 :: hand) a =
      s.accountRefs hand a + if a = l.portaccount then 1 else 0 := by
  have hfeeds := countP_feeds_keeps h (h.acceptClientForListener hroot l af worker)
    (s.sockets.within_find root af l.portnum).keeps (s.everyClient hand)
    (fun e he => ⟨he, List.mem_cons_of_mem _ he⟩) a
  have howes : (s.acceptClientForListener root l af worker).2.owes
      (s.acceptClientForListener root l af worker).1 a = if a = l.portaccount then 1 else 0 := by
    change (if some l.portaccount = some a then 1 else 0) + 0 = _
    simp only [Option.some_inj, @eq_comm _ l.portaccount a]
    rfl
  rw [Server.accountRefs_cons, howes]
  change s.listenList.countP _ + (s.everyClient hand).countP _ +
    (s.everyClient hand).countP
      ((s.acceptClientForListener root l af worker).2.sockets.feedAccount · = some a) +
      s.lostRefs.count a + _ = _
  rw [hfeeds]
  rfl

/-- A client is counted for the account of its listener. -/
theorem Books.acceptClientForListener (hb : Books hand s) (h : Held hand s) {root : Option Nat}
    (hroot : s.sockets.Rooted root) (hl : l ∈ s.listenList) (af worker : Nat) :
    Books ((s.acceptClientForListener root l af worker).1 :: hand)
      (s.acceptClientForListener root l af worker).2 where
  accounts := by
    change Owned _ (s.accounts.modify l.portaccount .add) _
    apply hb.accounts.take (Server.accountRefs_listener hl hand) fun _ => rfl
    exact h.accountRefs_accepted hroot l af worker
  peers := List.forall_mem_cons.mpr
    ⟨fun h => absurd h (by simp [Server.acceptClientForListener]), hb.peers⟩

/-- Only fields that are not about clients or sockets change. -/
theorem Books.goto (hb : Books hand s) (hclients : s'.everyClient hand = s.everyClient hand)
    (hlist : s'.listenList = s.listenList) (hsockets : s'.sockets = s.sockets)
    (haccounts : s'.accounts = s.accounts) (hlost : s'.lostRefs = s.lostRefs) : Books hand s' where
  accounts := by
    rw [haccounts]
    refine hb.accounts.congr fun a => ?_
    unfold Server.accountRefs
    rw [hclients, hlist, hsockets, hlost]
  peers := by
    rw [hclients]
    exact hb.peers

theorem Books.doAcceptClient (hb : Books hand s) (h : Held hand s) (hheld : ∀ u, s.pc.held u = 0)
    {root : Option Nat} (hroot : s.sockets.Rooted root) (hl : l ∈ s.listenList) (a : Connection) :
    Books hand (s.doAcceptClient root l a) := by
  have hpolling : Held hand { s with pc := .polling } := h.goto fun u => (hheld u).symm
  have hbpolling : Books hand { s with pc := .polling } := hb.goto rfl rfl rfl rfl rfl
  have hmake := hbpolling.acceptClientForListener hpolling hroot hl a.addr.family a.worker
  have hmade := hpolling.acceptClientForListener hroot l a.addr.family a.worker
  have hlogin := hmake.write
    (d := { ({ s with pc := .polling }.acceptClientForListener root l a.addr.family a.worker).1 with
      state := .login, ssl := l.ssl }) rfl rfl rfl fun h => absurd h (by simp)
  unfold Server.doAcceptClient
  dsimp only
  split
  · apply (hlogin.moved .lose rfl rfl).reject
    apply Server.accountRefs_listener
    exact hl
  · split
    · refine hlogin.clientDiscard ?_
      exact hmade.write rfl rfl (by simp [Server.acceptClientForListener])
    · exact hlogin.moved .pass rfl rfl

/-- The account of a socket has a reference, whoever holds it. -/
def Server.Stands (hand : List ClientT) (s : Server) (u : Option Nat) : Prop :=
  ∀ v a, u = some v → s.sockets.account v = some a → 0 < s.accountRefs hand a

theorem Books.setupFeed (hb : Books (c :: hand) s) (h : Held (c :: hand) s) {port : Int}
    (hport : port ≠ 0) (hstands : s.Stands (c :: hand) c.udpclient) :
    Books ((s.loginSetupUdpFeed port c).1 :: hand) (s.loginSetupUdpFeed port c).2 := by
  apply hb.loginSetupUdpFeed h hport
  intro u x hu hx
  apply hstands u x.portaccount hu
  rw [Sockets.account, hx]
  rfl

/-- A client with a feed keeps the account of the feed. -/
theorem Server.stands_of_fed (hc : c ∈ s.everyClient hand) (hport : c.udpPort ≠ 0) :
    s.Stands hand c.udpclient := by
  intro u a hu ha
  apply Server.accountRefs_fed hc
  rw [Sockets.feedAccount, if_neg hport, hu]
  exact ha

theorem Server.stands_setupFeed {port : Int} (hport : port ≠ 0) (c : ClientT) (s : Server)
    (hand : List ClientT) :
    (s.loginSetupUdpFeed port c).2.Stands ((s.loginSetupUdpFeed port c).1 :: hand)
      (s.loginSetupUdpFeed port c).1.udpclient := by
  by_cases hu : c.udpclient.isNone
  · have hsame : (s.loginSetupUdpFeed port c).1 = c := by
      rw [loginSetupUdpFeed, if_pos hu]
    rw [hsame, Option.isNone_iff_eq_none.mp hu]
    exact fun _ _ h => absurd h (by simp)
  · -- whoever was given a feed has a reference of its own
    have hfed : (s.loginSetupUdpFeed port c).1.udpPort ≠ 0 := by
      rw [loginSetupUdpFeed, if_neg hu]
      exact hport
    exact stands_of_fed List.mem_cons_self hfed

/-- Only the first of several ports can be the one that finds the account gone. -/
theorem Books.loginUdpOptions (hb : Books (c :: hand) s) (h : Held (c :: hand) s) (ports : List Int)
    (hstands : ∀ port rest, ports = port :: rest → ¬(port < 1024 ∨ port > 65535) →
      s.Stands (c :: hand) c.udpclient) :
    Books ((loginUdpOptions ports c s).1 :: hand) (loginUdpOptions ports c s).2 := by
  induction ports generalizing c s with
  | nil => exact hb
  | cons port ports ih =>
    rw [Accept.loginUdpOptions]
    split
    · exact hb
    next hrange =>
      -- after the first port the client itself keeps the account
      have hport : port ≠ 0 := by omega
      have hfirst := hstands port ports rfl hrange
      exact ih (hb.setupFeed h hport hfirst) (h.loginSetupUdpFeed port) fun _ _ _ _ =>
        Server.stands_setupFeed hport c s hand

theorem Books.acceptLiveupgradeFound (hb : Books hand s) (h : Held hand s) {root : Option Nat}
    (hroot : s.sockets.Rooted root) (hl : l ∈ s.listenList) (r : Restored) :
    Books ((s.acceptClientForListener root l r.addr.family r.worker).1 :: hand)
      (s.acceptLiveupgradeFound root l r) :=
  (hb.acceptClientForListener h hroot hl r.addr.family r.worker).goto rfl rfl rfl rfl rfl

theorem Restored.feedPort_ne_zero {r : Restored} {port : Int} (hport : r.feedPort = some port) :
    port ≠ 0 := by
  have hrange := (Option.filter_eq_some_iff.mp hport).2
  simp only [Bool.decide_and, Bool.and_eq_true, decide_eq_true_eq] at hrange
  omega

/-- The client that was made finds the account of its socket, if it sets up a feed. -/
theorem Books.acceptLiveupgradeClient (hb : Books (c :: hand) s) (h : Held (c :: hand) s)
    (hheld : ∀ u, s.pc.held u = 0) (r : Restored)
    (hstands : r.state.isSome → r.feedPort.isSome → s.Stands (c :: hand) c.udpclient) :
    Books hand (s.acceptLiveupgradeClient c r) := by
  have hpolling : Held (c :: hand) { s with pc := .polling } := h.goto fun u => (hheld u).symm
  have hbpolling : Books (c :: hand) { s with pc := .polling } := hb.goto rfl rfl rfl rfl rfl
  unfold Server.acceptLiveupgradeClient
  dsimp only
  cases hst : r.state with
  | none => exact hbpolling.clientDiscard hpolling
  | some st =>
    have hstate := hpolling.restoreState st
    have hbooks := hbpolling.write (d := { c with state := st.toCState }) rfl rfl rfl
      fun hcore => absurd hcore (toCState_ne_corepeer st)
    dsimp only
    cases hport : r.feedPort with
    | none =>
      dsimp only
      split
      · exact hbooks.clientDiscard hstate
      · exact hbooks.moved .pass rfl rfl
    | some port =>
      have hfeed := hstate.loginSetupUdpFeed port
      have hfed := hbooks.setupFeed hstate (Restored.feedPort_ne_zero hport) fun u a hu ha => by
        have hpos := hstands (by rw [hst]; rfl) (by rw [hport]; rfl) u a hu ha
        rw [Server.accountRefs_cons] at hpos ⊢
        exact hpos
      dsimp only
      split
      · exact hfed.clientDiscard hfeed
      · exact hfed.moved .pass rfl rfl

/-! ## Core peers -/

/-- A peer is made, and counted for the account of its socket. -/
theorem Books.newPeer (hb : Books hand s) {pe : PeeripConfig} {u : Nat}
    {x : ClientUdpT} {rest : List PeeripConfig} (hx : s.sockets.heap.cells u = some x)
    (ha : 0 < s.accountRefs hand x.portaccount) :
    Books (newPeer pe u s.nextClient :: hand)
      (Server.inboundConnectsAccount 3 (some x.portaccount)
        { s with pc := .peering rest, nextClient := s.nextClient + 1 }) where
  accounts := by
    change Owned _ (s.accounts.modify x.portaccount .add) _
    apply hb.accounts.take ha fun _ => rfl
    intro a
    have hport : (Accept.newPeer pe u s.nextClient).udpPort ≠ 0 := by
      have := pe.remotePort_pos
      change pe.remotePort ≠ 0
      omega
    have hfeed : s.sockets.feedAccount (Accept.newPeer pe u s.nextClient) = some x.portaccount :=
      Sockets.feedAccount_eq hport rfl hx
    rw [Server.accountRefs_cons]
    change s.accountRefs hand a + ((if (none : Option Nat) = some a then 1 else 0) +
      if s.sockets.feedAccount (Accept.newPeer pe u s.nextClient) = some a then 1 else 0) = _
    rw [hfeed]
    simp only [Option.some_inj, @eq_comm _ x.portaccount a, reduceCtorEq, if_false]
    omega
  peers := by
    refine List.forall_mem_cons.mpr ⟨fun _ => ?_, hb.peers⟩
    have := pe.remotePort_pos
    change pe.remotePort ≠ 0
    omega

theorem Books.peeripClientConfig (hb : Books hand s) (h : Held hand s) {pe : PeeripConfig} {u : Nat}
    {rest : List PeeripConfig} (hpc : s.pc = .found pe u rest) (hstands : s.Stands hand (some u))
    (passFails : Bool) :
    Books hand ({ s with pc := .peering rest }.peeripClientConfig pe u passFails) := by
  have hnew := h.newPeer hpc
  obtain ⟨x, hx⟩ := hnew.sockets.exists_of_pos (refs_pos List.mem_cons_self rfl)
  have hpos := hstands u x.portaccount rfl (by
    rw [Sockets.account, show s.sockets.heap.cells u = some x from hx]
    rfl)
  have hbnew := @Books.newPeer s hand hb pe u x rest hx hpos
  unfold Server.peeripClientConfig
  dsimp only
  rw [Server.withSocket_eq rfl (by exact hx)]
  split
  · exact hbnew.clientFree (hnew.account 3 (some x.portaccount)) rfl
  · exact hbnew.moved .pass rfl rfl

/-- The loop of `corepeer_close_all`. -/
theorem Books.closePeers {keys : List Nat} (hb : Books hand s) (h : Held hand s)
    (hp : PeersAre keys s) :
    Books hand (keys.foldl Server.closePeer s) := by
  -- what is left of the array are the peers that are left in the list
  induction keys generalizing s with
  | nil => exact hb
  | cons key keys ih =>
    obtain ⟨c, hfind, rfl, -, hrest⟩ := hp.find h
    have hfed := h.fed_socket (mem_everyClient hfind)
    rw [List.foldl_cons, Server.closePeer_eq hfind]
    apply ih (hb.clientClose h hfed hfind) (h.clientClose hfed hfind)
    rw [Server.clientClose_eq hfed]
    exact hrest

theorem Books.corepeerCloseAll (hb : Books hand s) (h : Held hand s)
    (hp : PeersAre s.corepeerClients s) : Books hand s.corepeerCloseAll :=
  (hb.closePeers h hp).moved ⟨.refl _, rfl, rfl, fun _ => rfl, rfl, rfl⟩ rfl rfl

/-! ## Workers -/

theorem Books.collectClient (hb : Books (c :: hand) s) (h : Held (c :: hand) s) :
    Books hand (s.collectClient (.client c)) := by
  have hput := hb.moved (.putIn (.refl _)) rfl rfl
  unfold Server.collectClient
  dsimp only
  split
  next => exact hput
  next hstate =>
    have hcore : c.state = .corepeer := Classical.not_not.mp hstate
    split
    · exact hput.moved ⟨.refl _, rfl, rfl, fun _ => rfl, rfl, rfl⟩ rfl rfl
    · obtain ⟨u, x, hu, hx⟩ := h.exists_socket List.mem_cons_self (.inr hcore)
      rw [Server.withSocket_eq hu (by exact hx)]
      dsimp only
      split
      · exact hput.moved ⟨.refl _, rfl, rfl, fun _ => rfl, rfl, rfl⟩ rfl rfl
      · have hwrite := hb.write (d := { c with xfd := true }) rfl rfl rfl
          (hb.peers c List.mem_cons_self)
        have hheld := h.write (d := { c with xfd := true }) rfl rfl (h.fed c List.mem_cons_self)
        have hpolled := (hwrite.moved (.putIn (.refl _)) rfl rfl).resocket
          (hheld.moved (.putIn (.refl _))) (h.polled hu)
          (s.sockets.within_modify u (f := fun x => { x with polled := true }) fun _ => rfl).keeps
          rfl rfl rfl rfl
        exact hpolled.moved ⟨.refl _, rfl, rfl, fun _ => rfl, rfl, rfl⟩ rfl rfl

theorem Books.collectNewClients (hb : Books s.pc.hand s) (h : Inv s) (hexited : s.exited = false)
    (w : Nat) : Books s.pc.hand (s.collectNewClients w) := by
  unfold Server.collectNewClients
  split
  · exact hb
  · next q hfind =>
    cases q with
    | client c =>
      exact (hb.moved (.collect hfind) rfl rfl).collectClient (h.held.moved (.collect hfind))
    | closePeers =>
      have hqueue := ((perm_of_find? hfind).filterMap Queued.client?).symm
      have hmoved :
          Moved s.pc.hand s.pc.hand s { s with queue := s.queue.eraseP (·.worker = w) } :=
        ⟨(hqueue.append_right _).append_left _, rfl, rfl, fun _ => rfl, rfl, rfl⟩
      exact (hb.moved hmoved rfl rfl).corepeerCloseAll (h.held.moved hmoved) (h.peers hexited)

theorem Books.loginHandler (hb : Books s.pc.hand s) (h : Inv s)
    (hfind : s.clients.find? (·.key = c.key) = some c) (udpPorts : List Int) (loggedIn : Bool)
    (hstands : c.state = .login → ∀ port rest, udpPorts = port :: rest →
      ¬(port < 1024 ∨ port > 65535) → s.Stands s.pc.hand c.udpclient) :
    Books s.pc.hand (s.loginHandler udpPorts loggedIn c) := by
  unfold Server.loginHandler
  split
  next hstate =>
    obtain ⟨hkey, hstate', hsocket⟩ := loginUdpOptions_fst udpPorts c s
    have hf := Frame.loginUdpOptions udpPorts c s
    have hout : Moved s.pc.hand (c :: s.pc.hand) s { s with clients := s.clients.eraseP (·.key = c.key) } :=
      .takeOut hfind
    have hlogin := (hb.moved hout rfl rfl).loginUdpOptions (h.held.moved hout) udpPorts
      fun port rest hports hrange u a hu ha => by
        rw [hout.accountRefs rfl]
        exact hstands hstate port rest hports hrange u a hu ha
    rw [loginUdpOptions_clients] at hlogin
    generalize Accept.loginUdpOptions udpPorts c s = r at *
    obtain ⟨d, t⟩ := r
    dsimp only at hkey hstate' hf hlogin ⊢
    obtain ⟨e, he⟩ : ∃ e, e = if loggedIn then { d with state := .connected } else d := ⟨_, rfl⟩
    have hwrite : Books (e :: s.pc.hand) { t with clients := s.clients.eraseP (·.key = c.key) } := by
      rw [he]
      split
      · exact hlogin.write rfl rfl rfl fun h => absurd h (by simp)
      · exact hlogin
    have hperm := map_replace_perm hfind h.held.clients_nodup e
    rw [← he, hf.clients]
    exact hwrite.moved (.putIn hperm) rfl rfl
  next => exact hb

/-! ## Listeners -/

theorem Server.accountRefs_open (l : ListenT) (hand : List ClientT) (s : Server) (a : Nat) :
    Server.accountRefs hand { s with listenList := l :: s.listenList } a =
      s.accountRefs hand a + if a = l.portaccount then 1 else 0 := by
  unfold accountRefs
  rw [List.countP_cons]
  simp only [decide_eq_true_eq, @eq_comm _ l.portaccount a]
  change _ + (s.everyClient hand).countP _ + (s.everyClient hand).countP _ + _ = _
  omega

theorem Books.openListener (hb : Books s.pc.hand s) (h : Inv s) {rest : List ListenConfigT}
    {failed : Nat} (hpc : s.pc = .opening rest failed) (maxclients : Int) (lc : ListenConfigT)
    (o : Opened) : Books s.pc.hand (s.openListener maxclients lc o).2 := by
  have hheld := (h.openListener hpc maxclients lc o).held
  have hopens := h.listening.opens maxclients lc o
  generalize s.openListener maxclients lc o = r at hopens hheld ⊢
  cases hopens with
  | fails k a _ hkeep ha _ _ =>
    have haccounts : Books s.pc.hand { s with accounts := a } := ⟨ha _ hb.accounts, hb.peers⟩
    exact haccounts.resocket (h.held.moved ⟨.refl _, rfl, rfl, fun _ => rfl, rfl, rfl⟩) hheld hkeep
      rfl rfl rfl rfl
  | stream =>
    refine ⟨?_, hb.peers⟩
    apply hb.accounts.alloc (x := portAccounterAlloc) rfl
    intro a
    exact s.accountRefs_open (newListener maxclients lc s.accounts.next) s.pc.hand a
  | udp =>
    refine ⟨?_, hb.peers⟩
    -- the new socket has the pointer to the account, but only the listener has a reference
    apply hb.accounts.alloc (x := portAccounterAlloc) rfl
    intro a
    have hfeeds := countP_feeds_keeps h.held hheld
      (s.sockets.keeps_alloc lc.corepeer (family lc) lc.portnum s.accounts.next) s.allClients
      (fun e he => ⟨he, he⟩) a
    have hopen := s.accountRefs_open { newListener maxclients lc s.accounts.next with
      udp := some s.sockets.heap.next } s.pc.hand a
    refine Eq.trans ?_ hopen
    unfold Server.accountRefs
    change _ + s.allClients.countP _ + s.allClients.countP _ + _ = _
    rw [hfeeds]
    rfl

theorem Books.listenerFree (hb : Books hand s) (h : Held hand s) (hlist : Listening s)
    (hl : l ∈ s.listenList) : Books hand (s.listenerFree l) where
  accounts := by
    apply hb.accounts.drop (f := .drop) fun _ => rfl
    intro a
    have hfeeds := countP_feeds_keeps h (h.listenerFree hlist hl)
      (s.sockets.within_free l.udp).keeps (s.everyClient hand) (fun e he => ⟨he, he⟩) a
    have hperm := (hlist.perm hl).countP_eq (·.portaccount = a)
    rw [List.countP_cons] at hperm
    simp only [decide_eq_true_eq, @eq_comm _ l.portaccount a] at hperm
    unfold Server.accountRefs
    change _ = (s.listenList.eraseP (·.portaccount = l.portaccount)).countP _ +
      (s.everyClient hand).countP _ +
      (s.everyClient hand).countP ((s.listenerFree l).sockets.feedAccount · = some a) +
      s.lostRefs.count a + _
    rw [hfeeds, hperm]
    omega
  peers := hb.peers

theorem Books.updateConfig (hb : Books s.pc.hand s) (h : Inv s) {rest rest' : List ListenConfigT}
    {failed : Nat} (hpc : s.pc = .opening rest failed) (a : Nat) (lc : ListenConfigT) :
    Books [] { s with
      pc := .opening rest' failed
      listenList :=
        s.listenList.map fun m => if m.portaccount = a then m.updateConfig lc else m } := by
  have hheld := h.held
  have hupdated : Inv { s with
      pc := .opening rest' failed
      listenList := s.listenList.map fun m => if m.portaccount = a then m.updateConfig lc else m } :=
    h.updateConfig hpc a lc
  rw [hpc] at hb hheld
  refine hb.resocket hheld hupdated.held (.refl _) rfl ?_ rfl rfl
  change (s.listenList.map _).map _ = _
  rw [List.map_map]
  refine List.map_congr_left fun m _ => ?_
  change ListenT.portaccount (if m.portaccount = a then m.updateConfig lc else m) = _
  split <;> rfl

theorem Books.findPeerSocket (hb : Books s.pc.hand s) (h : Inv s) {root : Option Nat}
    {pe : PeeripConfig} {rest : List PeeripConfig} (hpc : s.pc = .searching root (.peer pe rest))
    (hroot : s.sockets.Rooted root) :
    Books (s.findPeerSocket root pe rest).pc.hand (s.findPeerSocket root pe rest) := by
  have hheld := (h.findPeerSocket hpc hroot).held
  have hold := h.held
  rw [hpc] at hb hold
  have hkeep := (s.sockets.within_find root pe.af pe.localPort).keeps
  unfold Server.findPeerSocket at hheld ⊢
  generalize s.sockets.clientUdpFind root pe.af pe.localPort = r at hheld hkeep ⊢
  obtain ⟨_ | u, k⟩ := r
  · exact hb.resocket hold hheld hkeep rfl rfl rfl rfl
  · exact hb.resocket hold hheld hkeep rfl rfl rfl rfl

/-- The socket through which the accept thread goes on to set up a feed. -/
def AcceptPc.feedSocket : AcceptPc → Option Nat
  | .found _ u _ => some u
  | .restoring c r => if r.state.isSome && r.feedPort.isSome then c.udpclient else none
  | _ => none

theorem Books.acceptThread (hb : Books s.pc.hand s) (h : Inv s) (maxclients : Int) (o : Opened)
    (passFails : Bool) (hgone : s.rootGone = false)
    (hstands : s.Stands s.pc.hand s.pc.feedSocket) :
    Books (s.acceptThread maxclients o passFails).pc.hand
      (s.acceptThread maxclients o passFails) := by
  have hinv := h.acceptThread maxclients o passFails hgone
  have hheld := h.held
  have hlisteners := h.listening.listeners
  unfold Server.acceptThread at hinv ⊢
  split
  next hpc =>
    rw [hpc] at hb
    split
    · exact hb.goto rfl rfl rfl rfl rfl
    · rw [hpc]
      exact hb
  next root l a hpc =>
    have hroot := Server.rooted_of_not_gone hpc hgone
    rw [hpc] at hb hheld hlisteners
    rw [(Frame.doAcceptClient root l a s).pc]
    exact hb.doAcceptClient hheld (fun u => by rw [hpc]; rfl) hroot
      (List.singleton_sublist.mp hlisteners) a
  next root l r hpc =>
    have hroot := Server.rooted_of_not_gone hpc hgone
    rw [hpc] at hb hheld hlisteners
    exact hb.acceptLiveupgradeFound hheld hroot (List.singleton_sublist.mp hlisteners) r
  next root pe rest hpc => exact hb.findPeerSocket h hpc (Server.rooted_of_not_gone hpc hgone)
  next c r hpc =>
    rw [hpc] at hb hheld hstands
    rw [(Frame.acceptLiveupgradeClient c r s).pc]
    refine hb.acceptLiveupgradeClient hheld (fun u => by rw [hpc]; rfl) r fun hstate hport => ?_
    have hfeed : (AcceptPc.restoring c r).feedSocket = c.udpclient := by
      rw [AcceptPc.feedSocket, hstate, hport]
      rfl
    exact hfeed ▸ hstands
  next hpc =>
    rw [hpc] at hb
    exact hb.goto rfl rfl rfl rfl rfl
  next l rest hpc =>
    rw [hpc] at hb hheld hlisteners
    have hsub : (l :: rest).Sublist s.listenList := hlisteners
    have hgoto : Held [] { s with pc := .closing rest } := hheld.goto fun u => by rw [hpc]; rfl
    have hlist : Listening { s with pc := .closing rest } :=
      h.listening.goto ((List.sublist_cons_self l rest).trans hsub) rfl
    have hbgoto : Books [] { s with pc := .closing rest } := hb.goto rfl rfl rfl rfl rfl
    dsimp only
    split
    · exact hbgoto
    · exact hbgoto.listenerFree hgoto hlist (hsub.subset List.mem_cons_self)
  next failed hpc =>
    split
    · exact hb.goto rfl rfl rfl rfl rfl
    · rw [hpc] at hb
      refine hb.goto ?_ rfl rfl rfl rfl
      change _ ++ ((s.queue ++ [Queued.closePeers]).filterMap Queued.client? ++ _) = _
      rw [List.filterMap_append]
      change _ ++ ((_ ++ []) ++ _) = _
      rw [List.append_nil]
      rfl
  next lc rest failed hpc =>
    split
    · exact hb.updateConfig h hpc _ lc
    · have hopen := hb.openListener h hpc maxclients lc o
      rw [hpc] at hopen
      exact hopen.goto rfl rfl rfl rfl rfl
  next hpc =>
    rw [hpc] at hb
    exact hb.goto rfl rfl rfl rfl rfl
  next pe rest hpc =>
    rw [hpc] at hb
    exact hb.goto rfl rfl rfl rfl rfl
  next pe u rest hpc =>
    rw [hpc] at hb hheld hstands
    rw [(Frame.peeripClientConfig pe u passFails _).pc]
    exact hb.peeripClientConfig hheld hpc hstands passFails

end Aprsc.Accept
