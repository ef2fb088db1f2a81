-- SUMMARY: Exactly which runs use a UDP socket that is gone, and that it is there otherwise as long as somebody holds it.
import Aprsc.Accept.Holders

/-!
# Lifetimes of sockets

The accept thread and the workers take and drop references in any order. A step uses a
socket that is gone only if it searches a list from a head that was freed since it was
read. No other step does, and none uses a listener or a client that is gone, whatever
happens to the accounts.
-/

namespace Aprsc.Accept

open Counted Runs

variable {s s' t : Server} {hand : List ClientT} {c d : ClientT} {l : ListenT}

/-! ## What is left alone -/

/-- The listeners are as before, and no socket is new. -/
structure Quiet (s s' : Server) : Prop where
  listenList : s'.listenList = s.listenList
  sockets : s.sockets.Within s'.sockets

theorem Quiet.refl (s : Server) : Quiet s s := ⟨rfl, .refl s.sockets⟩

theorem Quiet.trans (h : Quiet s s') (h' : Quiet s' t) : Quiet s t :=
  ⟨h'.listenList.trans h.listenList, h.sockets.trans h'.sockets⟩

/-- Neither listeners nor sockets are written. -/
theorem Quiet.of_eq (hlist : s'.listenList = s.listenList) (hsockets : s'.sockets = s.sockets) :
    Quiet s s' := by
  refine ⟨hlist, ?_⟩
  rw [hsockets]
  exact .refl s.sockets

theorem Quiet.free (u : Option Nat) (s : Server) :
    Quiet s { s with sockets := s.sockets.clientUdpFree u } :=
  ⟨rfl, s.sockets.within_free u⟩

/-- The accept thread is where it was, too. -/
structure Still (s s' : Server) : Prop extends Quiet s s' where
  pc : s'.pc = s.pc
  next : s'.accounts.next = s.accounts.next

/-- So are the lists of the workers. -/
structure Frame (s s' : Server) : Prop extends Still s s' where
  clients : s'.clients = s.clients
  corepeerClients : s'.corepeerClients = s.corepeerClients
  exited : s'.exited = s.exited

theorem Still.refl (s : Server) : Still s s := ⟨.refl s, rfl, rfl⟩

theorem Still.trans (h : Still s s') (h' : Still s' t) : Still s t :=
  ⟨h.toQuiet.trans h'.toQuiet, h'.pc.trans h.pc, h'.next.trans h.next⟩

theorem Frame.refl (s : Server) : Frame s s := ⟨.refl s, rfl, rfl, rfl⟩

theorem Frame.trans (h : Frame s s') (h' : Frame s' t) : Frame s t :=
  ⟨h.toStill.trans h'.toStill, h'.clients.trans h.clients,
    h'.corepeerClients.trans h.corepeerClients, h'.exited.trans h.exited⟩

/-- The other way round, for a state that is known only from its end. -/
theorem Frame.after (h' : Frame s' t) (h : Frame s s') : Frame s t := h.trans h'

@[simp] theorem next_countPort (add : Int) (p : Nat) (a : Heap PortAccount) :
    (countPort add p a).next = a.next := by
  unfold countPort portAccounterDrop
  split
  · simp
  · split <;> simp

theorem Frame.account (add : Int) (p : Option Nat) (s : Server) :
    Frame s (s.inboundConnectsAccount add p) := by
  refine ⟨⟨.of_eq rfl rfl, rfl, ?_⟩, rfl, rfl, rfl⟩
  cases p <;> simp [Server.inboundConnectsAccount]

theorem Frame.withSocket {f : Nat → ClientUdpT → Server → Server}
    (hf : ∀ u x, Frame s (f u x s)) (u : Option Nat) : Frame s (s.withSocket u f) := by
  have hmisused : Frame s { s with sockets.heap.misused := true } :=
    ⟨⟨⟨rfl, s.sockets.within_misused true⟩, rfl, rfl⟩, rfl, rfl, rfl⟩
  unfold Server.withSocket
  split
  · exact hmisused
  · split
    · exact hmisused
    · exact hf ..

theorem Frame.free (u : Option Nat) (s : Server) :
    Frame s { s with sockets := s.sockets.clientUdpFree u } :=
  ⟨⟨Quiet.free u s, rfl, rfl⟩, rfl, rfl, rfl⟩

theorem Frame.clientFree (c : ClientT) (s : Server) : Frame s (s.clientFree c) := by
  unfold Server.clientFree
  by_cases hport : c.udpPort = 0
  · simp only [if_neg (not_not_intro hport)]
    exact Frame.free c.udpclient s
  · simp only [if_pos hport]
    have hlost : ∀ lostRefs, Frame s { s with lostRefs } :=
      fun _ => ⟨⟨.of_eq rfl rfl, rfl, rfl⟩, rfl, rfl, rfl⟩
    exact (Frame.withSocket (fun _ _ => hlost _) _).trans (Frame.free c.udpclient _)

theorem Frame.clientDiscard (c : ClientT) (s : Server) : Frame s (s.clientDiscard c) :=
  (Frame.account 0 c.portaccount s).trans (Frame.clientFree c _)

theorem Frame.loginSetupUdpFeed (port : Int) (c : ClientT) (s : Server) :
    Frame s (s.loginSetupUdpFeed port c).2 := by
  unfold Server.loginSetupUdpFeed
  split
  · exact .refl s
  · apply Frame.withSocket
    intro u x
    dsimp only
    split
    · exact Frame.account ..
    · exact (Frame.account ..).after ⟨⟨.of_eq rfl rfl, rfl, rfl⟩, rfl, rfl, rfl⟩

theorem Frame.loginUdpOptions (ports : List Int) (c : ClientT) (s : Server) :
    Frame s (loginUdpOptions ports c s).2 := by
  induction ports generalizing c s with
  | nil => exact .refl s
  | cons port ports ih =>
    rw [Accept.loginUdpOptions]
    split
    · exact .refl s
    · exact (Frame.loginSetupUdpFeed port c s).trans (ih ..)

theorem Frame.acceptClientForListener (root : Option Nat) (l : ListenT) (af worker : Nat)
    (s : Server) : Frame s (s.acceptClientForListener root l af worker).2 := by
  refine ⟨⟨⟨rfl, s.sockets.within_find root af l.portnum⟩, rfl, ?_⟩, rfl, rfl, rfl⟩
  simp [Server.acceptClientForListener, Server.inboundConnectsAccount]

/-- Apart from where the accept thread goes on. -/
theorem Frame.doAcceptClient (root : Option Nat) (l : ListenT) (a : Connection) (s : Server) :
    Frame { s with pc := .polling } (s.doAcceptClient root l a) := by
  refine (Frame.acceptClientForListener root l a.addr.family a.worker _).trans ?_
  unfold Server.doAcceptClient
  dsimp only
  split
  · exact (Frame.account ..).after ⟨⟨.of_eq rfl rfl, rfl, rfl⟩, rfl, rfl, rfl⟩
  · split
    · exact Frame.clientDiscard ..
    · exact ⟨⟨.of_eq rfl rfl, rfl, rfl⟩, rfl, rfl, rfl⟩

theorem Frame.acceptLiveupgradeClient (c : ClientT) (r : Restored) (s : Server) :
    Frame { s with pc := .polling } (s.acceptLiveupgradeClient c r) := by
  unfold Server.acceptLiveupgradeClient
  dsimp only
  cases r.state with
  | none => exact Frame.clientDiscard ..
  | some st =>
    dsimp only
    cases r.feedPort with
    | none =>
      dsimp only
      split
      · exact Frame.clientDiscard ..
      · exact ⟨⟨.of_eq rfl rfl, rfl, rfl⟩, rfl, rfl, rfl⟩
    | some port =>
      dsimp only
      split
      · exact (Frame.loginSetupUdpFeed ..).trans (Frame.clientDiscard ..)
      · exact (Frame.loginSetupUdpFeed ..).trans ⟨⟨.of_eq rfl rfl, rfl, rfl⟩, rfl, rfl, rfl⟩

theorem Frame.peeripClientConfig (pe : PeeripConfig) (u : Nat) (passFails : Bool) (s : Server) :
    Frame s (s.peeripClientConfig pe u passFails) := by
  unfold Server.peeripClientConfig
  have hsocket : Frame s (Server.withSocket (some u)
      (fun _ x => Server.inboundConnectsAccount 3 (some x.portaccount))
      { s with nextClient := s.nextClient + 1 }) :=
    (Frame.withSocket (fun _ _ => Frame.account ..) _).after
      ⟨⟨.of_eq rfl rfl, rfl, rfl⟩, rfl, rfl, rfl⟩
  refine hsocket.trans ?_
  dsimp only
  split
  · exact Frame.clientFree ..
  · exact ⟨⟨.of_eq rfl rfl, rfl, rfl⟩, rfl, rfl, rfl⟩

theorem Frame.clientaccountAdd (udp : Bool) (c : ClientT) (s : Server) :
    Frame s (s.clientaccountAdd udp c) := by
  unfold Server.clientaccountAdd
  dsimp only
  split
  · refine Frame.withSocket (fun _ _ => ?_) _
    exact ⟨⟨.of_eq rfl rfl, rfl, Heap.next_modify ..⟩, rfl, rfl, rfl⟩
  · split
    · exact .refl s
    · exact ⟨⟨.of_eq rfl rfl, rfl, Heap.next_modify ..⟩, rfl, rfl, rfl⟩

theorem Frame.udpClientWrite (c : ClientT) (s : Server) : Frame s (s.udpClientWrite c) :=
  Frame.withSocket (fun _ _ => Frame.clientaccountAdd true c s) c.udpclient

theorem Frame.clientWrite (comment : Bool) (c : ClientT) (s : Server) :
    Frame s (s.clientWrite comment c) := by
  unfold Server.clientWrite
  split
  · exact Frame.udpClientWrite c s
  · split
    · exact Frame.clientaccountAdd false c s
    · unfold Server.tcpClientWrite
      split
      · exact Frame.udpClientWrite c s
      · exact Frame.clientaccountAdd false c s

theorem Frame.sendSingle (c : ClientT) (s : Server) : Frame s (s.sendSingle c) :=
  (Frame.clientaccountAdd c.hasFeed c s).trans (Frame.clientWrite false c _)

theorem Still.clientClose (c : ClientT) (s : Server) : Still s (s.clientClose c) := by
  unfold Server.clientClose
  have hcount : Frame { s with clients := s.clients.eraseP (·.key = c.key) }
      (if c.portaccount.isSome then
        Server.inboundConnectsAccount 0 c.portaccount
          { s with clients := s.clients.eraseP (·.key = c.key) }
      else { s with clients := s.clients.eraseP (·.key = c.key) }) := by
    split
    · exact Frame.account ..
    · exact .refl _
  have hstart : Still s { s with clients := s.clients.eraseP (·.key = c.key) } :=
    ⟨.of_eq rfl rfl, rfl, rfl⟩
  refine (hstart.trans hcount.toStill).trans ?_
  by_cases hport : c.udpPort = 0
  · simp only [if_neg (not_not_intro hport)]
    exact (Frame.free c.udpclient _).toStill
  · simp only [if_pos hport]
    exact (Frame.withSocket (fun _ _ => Frame.account ..) _).toStill.trans
      (Frame.free c.udpclient _).toStill

theorem Still.corepeerCloseAll (s : Server) : Still s s.corepeerCloseAll := by
  unfold Server.corepeerCloseAll
  generalize s.corepeerClients = keys
  suffices hloop : Still s (keys.foldl Server.closePeer s) from
    hloop.trans ⟨.of_eq rfl rfl, rfl, rfl⟩
  induction keys generalizing s with
  | nil => exact .refl s
  | cons key keys ih =>
    rw [List.foldl_cons]
    refine .trans ?_ (ih _)
    unfold Server.closePeer
    split
    · exact ⟨.of_eq rfl rfl, rfl, rfl⟩
    · exact Still.clientClose ..

theorem Still.withSocket {f : Nat → ClientUdpT → Server → Server}
    (hf : ∀ u x, Still s (f u x s)) (u : Option Nat) : Still s (s.withSocket u f) := by
  have hmisused : Still s { s with sockets.heap.misused := true } :=
    ⟨⟨rfl, s.sockets.within_misused true⟩, rfl, rfl⟩
  unfold Server.withSocket
  split
  · exact hmisused
  · split
    · exact hmisused
    · exact hf ..

theorem Still.collectClient (q : Queued) (s : Server) : Still s (s.collectClient q) := by
  have hlists : ∀ clients corepeerClients exited, Still s { s with clients, corepeerClients, exited } :=
    fun _ _ _ => ⟨.of_eq rfl rfl, rfl, rfl⟩
  unfold Server.collectClient
  cases q with
  | closePeers => exact Still.corepeerCloseAll s
  | client c =>
    dsimp only
    split
    · exact hlists ..
    · split
      · exact hlists ..
      · have hstart : Still s { s with corepeerClients := s.corepeerClients ++ [c.key] } := hlists ..
        refine hstart.trans (Still.withSocket (fun u x => ?_) _)
        dsimp only
        split
        · exact ⟨.of_eq rfl rfl, rfl, rfl⟩
        · have hmark := s.sockets.within_modify u (f := fun x => { x with polled := true })
            fun _ => rfl
          exact ⟨⟨rfl, hmark⟩, rfl, rfl⟩

theorem Still.collectNewClients (w : Nat) (s : Server) : Still s (s.collectNewClients w) := by
  unfold Server.collectNewClients
  split
  · exact .refl s
  · have hstart : Still s { s with queue := s.queue.eraseP (·.worker = w) } :=
      ⟨.of_eq rfl rfl, rfl, rfl⟩
    exact hstart.trans (Still.collectClient ..)

theorem Still.loginHandler (udpPorts : List Int) (loggedIn : Bool) (c : ClientT) (s : Server) :
    Still s (s.loginHandler udpPorts loggedIn c) := by
  unfold Server.loginHandler
  split
  · exact (Frame.loginUdpOptions udpPorts c s).toStill.trans ⟨.of_eq rfl rfl, rfl, rfl⟩
  · exact .refl s

theorem Still.handleCorepeerReadable (peer : Nat) (c : ClientT) (s : Server) :
    Still s (s.handleCorepeerReadable peer c) := by
  unfold Server.handleCorepeerReadable
  split
  · refine Still.withSocket (fun _ _ => ?_) _
    split
    · exact ⟨.of_eq rfl rfl, rfl, rfl⟩
    · exact (Frame.clientaccountAdd ..).toStill
  · exact .refl s

theorem Still.withClient (key : Nat) {f : ClientT → Server → Server} (hf : ∀ c, Still s (f c s)) :
    Still s (s.withClient key f) := by
  unfold Server.withClient
  split
  · exact .refl s
  · exact hf _

/-- What a worker does leaves the listeners and the accept thread alone, and opens no socket. -/
theorem Still.step {e : Event} (hworker : e.byWorker = true) (maxclients : Int) (s : Server) :
    Still s (s.step maxclients e) := by
  unfold Server.step
  split
  · exact .refl s
  cases e with
  | collect w => exact Still.collectNewClients w s
  | login key udpPorts loggedIn =>
    exact Still.withClient key fun c => Still.loginHandler udpPorts loggedIn c s
  | send key => exact Still.withClient key fun c => (Frame.sendSingle c s).toStill
  | write key => exact Still.withClient key fun c => (Frame.clientWrite true c s).toStill
  | read key => exact Still.withClient key fun c => (Frame.clientaccountAdd false c s).toStill
  | receive key peer => exact Still.withClient key fun c => Still.handleCorepeerReadable peer c s
  | close key =>
    refine Still.withClient key fun c => ?_
    split
    · exact .refl s
    · exact Still.clientClose c s
  | _ => cases hworker

/-! ## Listeners -/

/-- Each listener has an account of its own, those that the accept thread has pointers to are
in the list, and the head of a list of sockets that it has is that of a list that only
lost sockets since. -/
structure Listening (s : Server) : Prop where
  nodup : (s.listenList.map (·.portaccount)).Nodup
  lt : ∀ l ∈ s.listenList, l.portaccount < s.accounts.next
  listeners : s.pc.listeners.Sublist s.listenList
  searching : ∀ root w, s.pc = .searching root w →
    ∃ us, (us ++ s.sockets.list !w.corepeer).Nodup ∧ us.head? = root ∧
      (s.sockets.list w.corepeer).Sublist us

theorem Listening.still (h : Listening s) (hf : Still s s') : Listening s' where
  nodup := by
    rw [hf.listenList]
    exact h.nodup
  lt := by
    rw [hf.listenList, hf.next]
    exact h.lt
  listeners := by
    rw [hf.listenList, hf.pc]
    exact h.listeners
  searching := by
    rw [hf.pc]
    intro root w hpc
    obtain ⟨us, hnodup, hhead, hsub⟩ := h.searching root w hpc
    have hother := (hf.sockets.list !w.corepeer).append_left us
    exact ⟨us, hnodup.sublist hother, hhead, (hf.sockets.list w.corepeer).trans hsub⟩

theorem AcceptPc.searching_ne {pc : AcceptPc} (hsearching : pc.isSearching = false)
    (root : Option Nat) (w : Search) : pc ≠ .searching root w := by
  rintro rfl
  cases hsearching

/-- The accept thread goes where it has pointers to these listeners, and is not searching. -/
theorem Listening.goto (h : Listening s) {pc : AcceptPc}
    (hlisteners : pc.listeners.Sublist s.listenList) (hsearching : pc.isSearching = false) :
    Listening { s with pc } where
  nodup := h.nodup
  lt := h.lt
  listeners := hlisteners
  searching root w hpc := absurd hpc (AcceptPc.searching_ne hsearching root w)

theorem Listening.away (h : Listening s) {pc : AcceptPc} (hlisteners : pc.listeners = [])
    (hsearching : pc.isSearching = false) : Listening { s with pc } := by
  refine h.goto ?_ hsearching
  rw [hlisteners]
  exact List.nil_sublist _

theorem find?_of_nodup_map {α β : Type} [DecidableEq β] {f : α → β} {l : List α} {x : α}
    (h : (l.map f).Nodup) (hx : x ∈ l) : l.find? (f · = f x) = some x := by
  cases hfind : l.find? (f · = f x) with
  | none =>
    exact absurd (decide_eq_true rfl) (List.find?_eq_none.mp hfind x hx)
  | some y =>
    have hy : f y = f x := by simpa using List.find?_some hfind
    exact congrArg some (List.inj_on_of_nodup_map h (List.mem_of_find?_eq_some hfind) hx hy)

theorem Listening.perm (h : Listening s) (hl : l ∈ s.listenList) :
    s.listenList.Perm (l :: s.listenList.eraseP (·.portaccount = l.portaccount)) :=
  perm_of_find? (find?_of_nodup_map (f := (·.portaccount)) h.nodup hl)

/-- The same clients, with other listeners and sockets. -/
theorem Held.relist (h : Held hand s) (hclients : s'.everyClient hand = s.everyClient hand)
    (hnext : s'.nextClient = s.nextClient) (hfine : s'.clientMisused = s.clientMisused)
    (hsockets : s'.sockets.Ok (s'.socketRefs hand)) : Held hand s' where
  sockets := hsockets
  fed := by
    rw [hclients]
    exact h.fed
  keys := by
    rw [hclients]
    exact h.keys
  keys_lt := by
    rw [hclients, hnext]
    exact h.keys_lt
  fine := hfine.trans h.fine

theorem Held.listenerFree (h : Held hand s) (hlist : Listening s) (hl : l ∈ s.listenList) :
    Held hand (s.listenerFree l) := by
  refine h.relist rfl rfl rfl ?_
  apply h.sockets.free_option
  intro u
  have hperm := (hlist.perm hl).countP_eq (·.udp = some u)
  rw [List.countP_cons] at hperm
  simp only [decide_eq_true_eq] at hperm
  change s.listenList.countP (·.udp = some u) + _ + _ =
    ((s.listenList.eraseP (·.portaccount = l.portaccount)).countP (·.udp = some u) +
      (s.everyClient hand).countP (·.udpclient = some u) + s.pc.held u) + _
  rw [hperm]
  omega

theorem Listening.listenerFree (h : Listening s) {rest : List ListenT}
    (hpc : s.pc = .closing rest) (hrest : (l :: rest).Sublist s.listenList) :
    Listening (s.listenerFree l) := by
  have hsub : (s.listenList.eraseP (·.portaccount = l.portaccount)).Sublist s.listenList :=
    List.eraseP_sublist
  refine ⟨h.nodup.sublist (hsub.map _), fun m hm => ?_, ?_, fun root w hw => ?_⟩
  · have hlt := h.lt m (hsub.subset hm)
    change m.portaccount < (portAccounterDrop l.portaccount s.accounts).next
    rw [portAccounterDrop, Heap.next_drop]
    exact hlt
  · have herase := hrest.eraseP (p := (·.portaccount = l.portaccount))
    rw [List.eraseP_cons_of_pos (by simp)] at herase
    change s.pc.listeners.Sublist _
    rw [hpc]
    exact herase
  · cases hpc.symm.trans hw

/-- `listener_free`, for a listener that is not in the list yet, has only written its account
and its socket. -/
theorem Server.listenerFree_new (hl : ∀ m ∈ s.listenList, m.portaccount ≠ l.portaccount) :
    s.listenerFree l =
      { s with
        sockets := s.sockets.clientUdpFree l.udp
        accounts := portAccounterDrop l.portaccount s.accounts } := by
  unfold listenerFree
  rw [List.eraseP_of_forall_not]
  intro m hm
  simpa using hl m hm

/-- What `open_listener` writes: a new listener in front of the others, or nothing that
stays. -/
inductive Opens (maxclients : Int) (lc : ListenConfigT) (s : Server) : Bool × Server → Prop where
  | fails (k : Sockets) (a : Heap PortAccount) (hk : ∀ refs, s.sockets.Ok refs → k.Ok refs)
      (hkeep : s.sockets.Keeps k)
      (ha : ∀ refs, Owned (·.refcount) s.accounts refs → Owned (·.refcount) a refs)
      (hmisused : s.accounts.misused → a.misused)
      (hnext : s.accounts.next ≤ a.next) :
      Opens maxclients lc s (false, { s with sockets := k, accounts := a })
  | stream :
      Opens maxclients lc s (true,
        { s with
          accounts := s.accounts.alloc portAccounterAlloc
          listenList := newListener maxclients lc s.accounts.next :: s.listenList })
  | udp :
      Opens maxclients lc s (true,
        { s with
          accounts := s.accounts.alloc portAccounterAlloc
          sockets :=
            s.sockets.clientUdpAlloc lc.corepeer (family lc) lc.portnum s.accounts.next
          listenList :=
            { newListener maxclients lc s.accounts.next with udp := some s.sockets.heap.next } ::
              s.listenList })

theorem Listening.opens (h : Listening s) (maxclients : Int) (lc : ListenConfigT) (o : Opened) :
    Opens maxclients lc s (s.openListener maxclients lc o) := by
  have hnew : ∀ m ∈ s.listenList, m.portaccount ≠ s.accounts.next :=
    fun m hm => Nat.ne_of_lt (h.lt m hm)
  -- the account of a listener that is not opened after all comes and goes
  have hcomes : ∀ refs, Owned (·.refcount) s.accounts refs →
      Owned (·.refcount) (portAccounterDrop s.accounts.next
        (s.accounts.alloc portAccounterAlloc)) refs := by
    intro refs hrefs
    have halloc := hrefs.alloc (x := portAccounterAlloc) rfl fun b => rfl
    exact halloc.drop (f := .drop) (fun _ => rfl) fun b => rfl
  have hmisused : s.accounts.misused → (portAccounterDrop s.accounts.next
      (s.accounts.alloc portAccounterAlloc)).misused := by
    intro hs
    rw [portAccounterDrop, Heap.misused_drop]
    exact Bool.or_eq_true_iff.mpr (.inl hs)
  have hnext : s.accounts.next ≤ (portAccounterDrop s.accounts.next
      (s.accounts.alloc portAccounterAlloc)).next := by
    rw [portAccounterDrop, Heap.next_drop]
    exact Nat.le_succ _
  unfold Server.openListener
  dsimp only
  split
  · rw [Server.listenerFree_new hnew]
    exact .fails _ _ (fun _ hk => hk) (.refl _) hcomes hmisused hnext
  · split
    · dsimp only
      split
      · rw [Server.listenerFree_new hnew]
        refine .fails _ _ (fun refs hk => ?_) ?_ hcomes hmisused hnext
        · have halloc := hk.alloc lc.corepeer (family lc) lc.portnum s.accounts.next fun b => rfl
          exact halloc.free fun b => rfl
        · exact (s.sockets.keeps_alloc _ _ _ _).trans (Sockets.within_free _ _).keeps
            (Nat.le_succ _)
      · exact .udp
    · dsimp only
      split
      · rw [Server.listenerFree_new hnew]
        exact .fails _ _ (fun _ hk => hk) (.refl _) hcomes hmisused hnext
      · exact .stream

theorem Server.socketRefs_listener (s : Server) (l : ListenT) (hand : List ClientT) (u : Nat) :
    Server.socketRefs hand { s with listenList := l :: s.listenList } u =
      s.socketRefs hand u + if l.udp = some u then 1 else 0 := by
  unfold Server.socketRefs
  rw [List.countP_cons]
  simp only [decide_eq_true_eq]
  change _ + (s.everyClient hand).countP _ + s.pc.held u = _
  omega

/-! ## Steps -/

/-- What holds in every state of a run. -/
structure Inv (s : Server) : Prop where
  held : Held s.pc.hand s
  listening : Listening s
  peers : s.exited = false → PeersAre s.corepeerClients s

/-- A worker does something. -/
theorem Inv.still (h : Inv s) (hf : Still s s') (hheld : Held s.pc.hand s')
    (hpeers : s'.exited = false → PeersAre s'.corepeerClients s') : Inv s' where
  held := by
    rw [hf.pc]
    exact hheld
  listening := h.listening.still hf
  peers := hpeers

/-- The accept thread goes on to another place, and has these clients in hand then. -/
theorem Inv.moves (h : Inv s) {pc : AcceptPc} (hlist : Listening { s with pc })
    (hf : Frame { s with pc } s') (hheld : Held pc.hand s') : Inv s' where
  held := by
    rw [hf.pc]
    exact hheld
  listening := hlist.still hf.toStill
  peers := by
    unfold PeersAre
    rw [hf.corepeerClients, hf.clients, hf.exited]
    exact h.peers

theorem Inv.frame (h : Inv s) (hf : Frame s s') (hheld : Held s.pc.hand s') : Inv s' :=
  h.moves h.listening hf hheld

/-- Only the place of the accept thread changes. -/
theorem Inv.goto (h : Inv s) {pc : AcceptPc} (hhand : pc.hand = s.pc.hand)
    (hheld : ∀ u, pc.held u = s.pc.held u) (hlist : Listening { s with pc }) : Inv { s with pc } :=
  h.moves hlist (.refl _) (hhand ▸ h.held.goto hheld)

/-- It reads the head of a list, with pointers to listeners that are there. -/
theorem Inv.search (h : Inv s) (hhand : s.pc.hand = []) (hheld : ∀ u, s.pc.held u = 0) (w : Search)
    (hlisteners : ∀ root, (AcceptPc.searching root w).listeners.Sublist s.listenList) :
    Inv (s.search w) := by
  refine h.goto hhand.symm (fun u => (hheld u).symm) ?_
  refine ⟨h.listening.nodup, h.listening.lt, hlisteners _, fun root w' hpc => ?_⟩
  cases hpc
  have hlists := (s.sockets.append_lists_perm w.corepeer).nodup_iff.mpr h.held.sockets.nodup
  exact ⟨_, hlists, rfl, .refl _⟩

theorem Inv.openListener (h : Inv s) {rest : List ListenConfigT} {failed : Nat}
    (hpc : s.pc = .opening rest failed) (maxclients : Int) (lc : ListenConfigT) (o : Opened) :
    Inv (s.openListener maxclients lc o).2 := by
  have hlisteners : ∀ ls, s.pc.listeners.Sublist ls := by
    intro ls
    rw [hpc]
    exact List.nil_sublist ls
  have hsearching : s.pc.isSearching = false := by
    rw [hpc]
    rfl
  have hlt : ∀ m ∈ s.listenList, m.portaccount < s.accounts.next + 1 :=
    fun m hm => Nat.lt_succ_of_lt (h.listening.lt m hm)
  have hnodup : (s.accounts.next :: s.listenList.map (·.portaccount)).Nodup := by
    refine List.nodup_cons.mpr ⟨fun hmem => ?_, h.listening.nodup⟩
    obtain ⟨m, hm, hmp⟩ := List.mem_map.mp hmem
    exact Nat.lt_irrefl _ (hmp ▸ h.listening.lt m hm)
  have hopens := h.listening.opens maxclients lc o
  generalize s.openListener maxclients lc o = r at hopens ⊢
  cases hopens with
  | fails k a hk _ _ _ hnext =>
    refine ⟨h.held.relist rfl rfl rfl (hk _ h.held.sockets), ?_, h.peers⟩
    exact ⟨h.listening.nodup, fun m hm => Nat.lt_of_lt_of_le (h.listening.lt m hm) hnext,
      hlisteners _, fun root w hw => absurd hw (AcceptPc.searching_ne hsearching root w)⟩
  | stream =>
    refine ⟨?_, ⟨hnodup, ?_, hlisteners _,
      fun root w hw => absurd hw (AcceptPc.searching_ne hsearching root w)⟩, h.peers⟩
    · refine h.held.relist rfl rfl rfl ?_
      apply h.held.sockets.congr
      intro u
      exact s.socketRefs_listener (newListener maxclients lc s.accounts.next) s.pc.hand u
    · exact List.forall_mem_cons.mpr ⟨Nat.lt_succ_self _, hlt⟩
  | udp =>
    refine ⟨?_, ⟨hnodup, ?_, hlisteners _,
      fun root w hw => absurd hw (AcceptPc.searching_ne hsearching root w)⟩, h.peers⟩
    · refine h.held.relist rfl rfl rfl ?_
      apply h.held.sockets.alloc
      intro u
      refine (s.socketRefs_listener { newListener maxclients lc s.accounts.next with
        udp := some s.sockets.heap.next } s.pc.hand u).trans ?_
      simp only [Option.some_inj, @eq_comm _ s.sockets.heap.next]
    · exact List.forall_mem_cons.mpr ⟨Nat.lt_succ_self _, hlt⟩

/-- `listener_update_config` leaves the socket and the account alone. -/
theorem Inv.updateConfig (h : Inv s) {rest rest' : List ListenConfigT} {failed : Nat}
    (hpc : s.pc = .opening rest failed) (a : Nat) (lc : ListenConfigT) :
    Inv { s with
      pc := .opening rest' failed
      listenList :=
        s.listenList.map fun m => if m.portaccount = a then m.updateConfig lc else m } := by
  have hudp : ∀ m : ListenT, (if m.portaccount = a then m.updateConfig lc else m).udp = m.udp := by
    intro m
    split <;> rfl
  have haccount : ∀ m : ListenT,
      (if m.portaccount = a then m.updateConfig lc else m).portaccount = m.portaccount := by
    intro m
    split <;> rfl
  have hheld := h.held
  rw [hpc] at hheld
  refine ⟨hheld.relist rfl rfl rfl (hheld.sockets.congr fun u => ?_),
    ⟨?_, ?_, List.nil_sublist _, fun root w hw => ?_⟩, h.peers⟩
  · unfold Server.socketRefs
    rw [List.countP_map, hpc]
    simp only [Function.comp_def, hudp]
    rfl
  · rw [List.map_map]
    simp only [Function.comp_def, haccount]
    exact h.listening.nodup
  · intro m hm
    obtain ⟨m', hm', rfl⟩ := List.mem_map.mp hm
    rw [haccount]
    exact h.listening.lt m' hm'
  · cases hw

theorem Inv.findPeerSocket (h : Inv s) {root : Option Nat} {pe : PeeripConfig}
    {rest : List PeeripConfig} (hpc : s.pc = .searching root (.peer pe rest))
    (hroot : s.sockets.Rooted root) : Inv (s.findPeerSocket root pe rest) := by
  have hheld := h.held
  rw [hpc] at hheld
  unfold Server.findPeerSocket
  obtain hnone | ⟨u, hu, hsome⟩ := hheld.sockets.find_cases hroot pe.af pe.localPort
  · rw [hnone]
    refine h.goto ?_ (fun u => ?_) (h.listening.away rfl rfl)
    · rw [hpc]
      rfl
    · rw [hpc]
      rfl
  · rw [hsome]
    have hlist : Listening { s with pc := .found pe u rest } := h.listening.away rfl rfl
    refine ⟨hheld.relist rfl rfl rfl (hheld.sockets.take hu fun b => ?_),
      ⟨hlist.nodup, hlist.lt, hlist.listeners, hlist.searching⟩, h.peers⟩
    unfold Server.socketRefs
    rw [hpc]
    simp only [AcceptPc.held, @eq_comm _ u b]
    rfl

/-- The accept thread makes a client of a peer, with the socket that it holds. -/
theorem Held.newPeer (h : Held hand s) {pe : PeeripConfig} {u : Nat} {rest : List PeeripConfig}
    (hpc : s.pc = .found pe u rest) :
    Held (newPeer pe u s.nextClient :: hand)
      { s with pc := .peering rest, nextClient := s.nextClient + 1 } := by
  refine ⟨h.sockets.congr fun b => ?_, ?_, ?_, ?_, h.fine⟩
  · refine (Server.socketRefs_cons _ hand _ b).trans ?_
    unfold Server.socketRefs
    rw [hpc]
    simp only [AcceptPc.held, Accept.newPeer, Option.some_inj]
    rfl
  · exact List.forall_mem_cons.mpr ⟨fun _ => rfl, h.fed⟩
  · refine List.nodup_cons.mpr ⟨fun hmem => ?_, h.keys⟩
    obtain ⟨e, he, hek⟩ := List.mem_map.mp hmem
    exact absurd hek (Nat.ne_of_lt (h.keys_lt e he))
  · exact List.forall_mem_cons.mpr
      ⟨Nat.lt_succ_self _, fun e he => Nat.lt_succ_of_lt (h.keys_lt e he)⟩

theorem Held.peeripClientConfig (h : Held hand s) {pe : PeeripConfig} {u : Nat}
    {rest : List PeeripConfig} (hpc : s.pc = .found pe u rest) (passFails : Bool) :
    Held hand ({ s with pc := .peering rest }.peeripClientConfig pe u passFails) := by
  have hnew := h.newPeer hpc
  obtain ⟨x, hx⟩ := hnew.sockets.exists_of_pos (refs_pos List.mem_cons_self rfl)
  unfold Server.peeripClientConfig
  dsimp only
  rw [Server.withSocket_eq rfl (by exact hx)]
  have hcount := hnew.account 3 (some x.portaccount)
  split
  · exact hcount.clientFree
  · exact hcount.moved .pass

/-- The accept thread is about to search from a head that was freed since it was read. -/
def Server.rootGone (s : Server) : Bool :=
  match s.pc with
  | .searching (some u) _ => (s.sockets.heap.cells u).isNone
  | _ => false

/-- Unless that is so, the head that it has is there. -/
theorem Server.rooted_of_not_gone {root : Option Nat} {w : Search} (hpc : s.pc = .searching root w)
    (hgone : s.rootGone = false) : s.sockets.Rooted root := by
  intro u hu
  subst hu
  rw [rootGone, hpc] at hgone
  exact Option.isSome_iff_ne_none.mpr fun hnone => by simp [hnone] at hgone

theorem Inv.acceptThread (h : Inv s) (maxclients : Int) (o : Opened) (passFails : Bool)
    (hgone : s.rootGone = false) : Inv (s.acceptThread maxclients o passFails) := by
  unfold Server.acceptThread
  have hheld := h.held
  have hlisteners := h.listening.listeners
  split
  next hpc =>
    split
    · have hclosing : Inv { s with pc := .closing s.listenList } := by
        refine h.goto ?_ (fun u => ?_) (h.listening.goto (.refl _) rfl)
        · rw [hpc]
          rfl
        · rw [hpc]
          rfl
      exact hclosing.frame ⟨⟨.of_eq rfl rfl, rfl, rfl⟩, rfl, rfl, rfl⟩
        (hclosing.held.moved ⟨.refl _, rfl, rfl, fun _ => rfl, rfl, rfl⟩)
    · exact h
  next root l a hpc =>
    rw [hpc] at hheld
    have hrooted := Server.rooted_of_not_gone hpc hgone
    refine h.moves (h.listening.away rfl rfl) (Frame.doAcceptClient root l a s) ?_
    exact hheld.doAcceptClient (fun u => by rw [hpc]; rfl) hrooted l a
  next root l r hpc =>
    rw [hpc] at hheld
    have hrooted := Server.rooted_of_not_gone hpc hgone
    have hfound := hheld.acceptLiveupgradeFound (fun u => by rw [hpc]; rfl) hrooted l r
    have hf := Frame.acceptClientForListener root l r.addr.family r.worker s
    refine ⟨hfound, ?_, ?_⟩
    · exact (h.listening.still hf.toStill).away rfl rfl
    · exact (h.peers : _)
  next root pe rest hpc => exact h.findPeerSocket hpc (Server.rooted_of_not_gone hpc hgone)
  next c r hpc =>
    rw [hpc] at hheld
    refine h.moves (h.listening.away rfl rfl) (Frame.acceptLiveupgradeClient c r s) ?_
    exact hheld.acceptLiveupgradeClient (fun u => by rw [hpc]; rfl) r
  next hpc =>
    refine h.goto ?_ (fun u => ?_) (h.listening.away rfl rfl)
    · rw [hpc]
      rfl
    · rw [hpc]
      rfl
  next l rest hpc =>
    -- the listener is still in the list, and those to go after it stay there
    rw [hpc] at hlisteners
    have hsub : (l :: rest).Sublist s.listenList := hlisteners
    have hgoto : Inv { s with pc := .closing rest } := by
      refine h.goto ?_ (fun u => ?_)
        (h.listening.goto ((List.sublist_cons_self l rest).trans hsub) rfl)
      · rw [hpc]
        rfl
      · rw [hpc]
        rfl
    dsimp only
    split
    · exact hgoto
    · exact ⟨hgoto.held.listenerFree hgoto.listening (hsub.subset List.mem_cons_self),
        hgoto.listening.listenerFree rfl hsub, hgoto.peers⟩
  next failed hpc =>
    split
    · exact ⟨h.held.moved ⟨.refl _, rfl, rfl, fun _ => rfl, rfl, rfl⟩,
        ⟨h.listening.nodup, h.listening.lt, h.listening.listeners, h.listening.searching⟩, nofun⟩
    · rw [hpc] at hheld
      have hlist : Listening { s with pc := .peering s.peeripConfig } := h.listening.away rfl rfl
      refine ⟨hheld.moved ⟨?_, rfl, rfl, fun u => ?_, rfl, rfl⟩,
        ⟨hlist.nodup, hlist.lt, hlist.listeners, hlist.searching⟩, h.peers⟩
      · refine .of_eq ?_
        change _ ++ ((s.queue ++ [Queued.closePeers]).filterMap Queued.client? ++ _) = _
        rw [List.filterMap_append]
        change _ ++ ((_ ++ []) ++ _) = _
        rw [List.append_nil]
        rfl
      · rw [hpc]
        rfl
  next lc rest failed hpc =>
    split
    · exact h.updateConfig hpc _ lc
    · have hopen := h.openListener hpc maxclients lc o
      have hsame : (s.openListener maxclients lc o).2.pc = s.pc := by
        have hopens := h.listening.opens maxclients lc o
        generalize s.openListener maxclients lc o = r at hopens ⊢
        cases hopens <;> rfl
      dsimp only
      refine hopen.goto ?_ (fun u => ?_) (hopen.listening.away rfl rfl)
      · rw [hsame, hpc]
        rfl
      · rw [hsame, hpc]
        rfl
  next hpc =>
    refine h.goto ?_ (fun u => ?_) (h.listening.away rfl rfl)
    · rw [hpc]
      rfl
    · rw [hpc]
      rfl
  next pe rest hpc =>
    refine h.search ?_ (fun u => ?_) _ fun root => List.nil_sublist _
    · rw [hpc]
      rfl
    · rw [hpc]
      rfl
  next pe u rest hpc =>
    rw [hpc] at hheld
    have hlist : Listening { s with pc := .peering rest } := h.listening.away rfl rfl
    exact h.moves hlist (Frame.peeripClientConfig ..) (hheld.peeripClientConfig hpc passFails)

/-- A client that is not a peer comes to the list of a worker. -/
theorem PeersAre.stream {keys : List Nat} (h : PeersAre keys s) (hc : c.state ≠ .corepeer) :
    PeersAre keys { s with clients := c :: s.clients } := by
  unfold PeersAre
  rw [List.filter_cons_of_neg (by simpa using hc)]
  exact h

theorem PeersAre.peer {keys : List Nat} (h : PeersAre keys s) (hc : c.state = .corepeer) :
    PeersAre (keys ++ [c.key]) { s with clients := c :: s.clients } := by
  unfold PeersAre
  rw [List.filter_cons_of_pos (by simpa using hc)]
  exact List.perm_append_comm.trans (h.cons c.key)

/-- A client comes to the list of its worker, which polls the socket for it from now on. The
mark on the socket leaves the references to it alone. -/
theorem Held.polled (h : Held (c :: hand) s) {u : Nat} (hu : c.udpclient = some u) :
    Held hand
      { s with
        sockets.heap := s.sockets.heap.modify u fun x => { x with polled := true }
        clients := { c with xfd := true } :: s.clients } := by
  have hput : Held hand { s with clients := { c with xfd := true } :: s.clients } :=
    (h.write (d := { c with xfd := true }) rfl rfl
      fun hor => h.fed c List.mem_cons_self hor).moved (.putIn (.refl _))
  have hmem : { c with xfd := true } ∈
      Server.everyClient hand { s with clients := { c with xfd := true } :: s.clients } :=
    mem_everyClient (p := fun _ => true) (List.find?_cons_of_pos rfl)
  refine hput.relist rfl rfl rfl ⟨?_, hput.sockets.mem_iff, hput.sockets.nodup⟩
  exact hput.sockets.owned.use (refs_pos hmem hu) fun _ => rfl

theorem Held.collectClient (h : Held (c :: s.pc.hand) s) (hlist : Listening s)
    (hp : s.exited = false → PeersAre s.corepeerClients s) (hexited : s.exited = false) :
    Inv (s.collectClient (.client c)) := by
  have hlist' : ∀ heap clients corepeerClients exited,
      Listening { s with sockets.heap := heap, clients, corepeerClients, exited } :=
    fun _ _ _ _ => ⟨hlist.nodup, hlist.lt, hlist.listeners, hlist.searching⟩
  unfold Server.collectClient
  dsimp only
  split
  next hstate => exact ⟨h.moved (.putIn (.refl _)), hlist' .., fun _ => (hp hexited).stream hstate⟩
  next hstate =>
    have hcore : c.state = .corepeer := Classical.not_not.mp hstate
    split
    · exact ⟨(h.moved (.putIn (.refl _))).moved ⟨.refl _, rfl, rfl, fun _ => rfl, rfl, rfl⟩,
        hlist' .., nofun⟩
    · obtain ⟨u, x, hu, hx⟩ := h.exists_socket List.mem_cons_self (.inr hcore)
      rw [Server.withSocket_eq hu (by exact hx)]
      dsimp only
      split
      · refine ⟨(h.moved (.putIn (.refl _))).moved ⟨.refl _, rfl, rfl, fun _ => rfl, rfl, rfl⟩,
          hlist' .., fun _ => (hp hexited).peer hcore⟩
      · exact ⟨(h.polled hu).moved ⟨.refl _, rfl, rfl, fun _ => rfl, rfl, rfl⟩, hlist' ..,
          fun _ => (hp hexited).peer (c := { c with xfd := true }) hcore⟩

theorem Inv.collectNewClients (h : Inv s) (hexited : s.exited = false) (w : Nat) :
    Inv (s.collectNewClients w) := by
  unfold Server.collectNewClients
  split
  · exact h
  · next q hfind =>
    have hlist : Listening { s with queue := s.queue.eraseP (·.worker = w) } :=
      ⟨h.listening.nodup, h.listening.lt, h.listening.listeners, h.listening.searching⟩
    cases q with
    | client c => exact (h.held.moved (.collect hfind)).collectClient hlist h.peers hexited
    | closePeers =>
      have hheld : Held s.pc.hand { s with queue := s.queue.eraseP (·.worker = w) } := by
        refine h.held.moved ⟨?_, rfl, rfl, fun _ => rfl, rfl, rfl⟩
        exact (((perm_of_find? hfind).filterMap Queued.client?).symm.append_right _).append_left _
      obtain ⟨hclosed, hpeers⟩ := hheld.corepeerCloseAll (h.peers hexited)
      exact Inv.still ⟨hheld, hlist, h.peers⟩ (Still.corepeerCloseAll _) hclosed fun _ => hpeers

theorem withSocket_clients {f : Nat → ClientUdpT → Server → Server} {l : List ClientT}
    (hf : ∀ u x, f u x { s with clients := l } = { f u x s with clients := l }) (v : Option Nat) :
    Server.withSocket v f { s with clients := l } = { s.withSocket v f with clients := l } := by
  cases v with
  | none => rfl
  | some u =>
    unfold Server.withSocket
    dsimp only
    split
    · rfl
    · exact hf ..

theorem loginSetupUdpFeed_clients (port : Int) (c : ClientT) (s : Server) (l : List ClientT) :
    Server.loginSetupUdpFeed port c { s with clients := l } =
      ((s.loginSetupUdpFeed port c).1, { (s.loginSetupUdpFeed port c).2 with clients := l }) := by
  unfold Server.loginSetupUdpFeed
  split
  · rfl
  · rw [withSocket_clients]
    intro u x
    dsimp only
    split <;> rfl

theorem loginUdpOptions_clients (ports : List Int) (c : ClientT) (s : Server) (l : List ClientT) :
    loginUdpOptions ports c { s with clients := l } =
      ((loginUdpOptions ports c s).1, { (loginUdpOptions ports c s).2 with clients := l }) := by
  induction ports generalizing c s with
  | nil => rfl
  | cons port ports ih =>
    rw [loginUdpOptions, loginUdpOptions]
    split
    · rfl
    · rw [loginSetupUdpFeed_clients]
      exact ih ..

/-- What a login does not write of its client. -/
theorem loginUdpOptions_fst (ports : List Int) (c : ClientT) (s : Server) :
    (loginUdpOptions ports c s).1.key = c.key ∧ (loginUdpOptions ports c s).1.state = c.state ∧
      (loginUdpOptions ports c s).1.udpclient = c.udpclient := by
  induction ports generalizing c s with
  | nil => exact ⟨rfl, rfl, rfl⟩
  | cons port ports ih =>
    rw [loginUdpOptions]
    split
    · exact ⟨rfl, rfl, rfl⟩
    · obtain ⟨hkey, hstate, hsocket⟩ := ih (s.loginSetupUdpFeed port c).1
        (s.loginSetupUdpFeed port c).2
      rw [hkey, hstate, hsocket, Server.loginSetupUdpFeed]
      split <;> exact ⟨rfl, rfl, rfl⟩

/-- A client that is written in place. -/
theorem map_replace_perm {l : List ClientT} (hfind : l.find? (·.key = c.key) = some c)
    (hnodup : (l.map (·.key)).Nodup) (d : ClientT) :
    (l.map fun e => if e.key = c.key then d else e).Perm (d :: l.eraseP (·.key = c.key)) := by
  have hperm := perm_of_find? hfind
  have hkeys := (hperm.map (·.key)).nodup_iff.mp hnodup
  have hsame : (l.eraseP (·.key = c.key)).map (fun e => if e.key = c.key then d else e) =
      l.eraseP (·.key = c.key) := by
    refine (List.map_congr_left fun e he => ?_).trans (List.map_id _)
    have hne : e.key ≠ c.key := fun hkey =>
      (List.nodup_cons.mp hkeys).1 (List.mem_map.mpr ⟨e, he, hkey⟩)
    exact if_neg hne
  have hmap := hperm.map fun e => if e.key = c.key then d else e
  rw [List.map_cons, if_pos rfl, hsame] at hmap
  exact hmap

theorem Inv.loginHandler (h : Inv s) (hfind : s.clients.find? (·.key = c.key) = some c)
    (udpPorts : List Int) (loggedIn : Bool) : Inv (s.loginHandler udpPorts loggedIn c) := by
  unfold Server.loginHandler
  split
  next hstate =>
    obtain ⟨hkey, hstate', -⟩ := loginUdpOptions_fst udpPorts c s
    have hf := Frame.loginUdpOptions udpPorts c s
    have hout := h.held.moved (.takeOut hfind)
    have hlogin := hout.loginUdpOptions udpPorts
    rw [loginUdpOptions_clients] at hlogin
    generalize loginUdpOptions udpPorts c s = r at *
    obtain ⟨d, t⟩ := r
    dsimp only at hkey hstate' hf hlogin ⊢
    -- the client that is written, and the list with it in place of the old one
    obtain ⟨e, he⟩ : ∃ e, e = if loggedIn then { d with state := .connected } else d := ⟨_, rfl⟩
    have hekey : e.key = c.key := by
      rw [he]
      split <;> exact hkey
    have hestate : e.state ≠ .corepeer := by
      rw [he]
      split
      · simp
      · simp [hstate', hstate]
    have hwrite : Held (e :: s.pc.hand) { t with clients := s.clients.eraseP (·.key = c.key) } := by
      rw [he]
      split
      · refine hlogin.write rfl rfl fun hor => ?_
        exact hlogin.fed d List.mem_cons_self (.inl (by simpa using hor))
      · exact hlogin
    have hperm := map_replace_perm hfind h.held.clients_nodup e
    rw [← he, hf.clients]
    refine h.still ⟨⟨hf.listenList, hf.sockets⟩, hf.pc, hf.next⟩
      (hwrite.moved (.putIn hperm)) fun hexited => ?_
    have hpeers := h.peers (hf.exited.symm.trans hexited)
    unfold PeersAre at hpeers ⊢
    have hnew := (hperm.filter (·.state = .corepeer)).map (·.key)
    have hold := ((perm_of_find? hfind).filter (·.state = .corepeer)).map (·.key)
    rw [List.filter_cons_of_neg (by simpa using hestate)] at hnew
    rw [List.filter_cons_of_neg (by simp [hstate])] at hold
    change t.corepeerClients.Perm _
    rw [hf.corepeerClients]
    exact hpeers.trans (hold.trans hnew.symm)
  next => exact h

theorem Held.clientaccountAdd (h : Held hand s) (hc : c ∈ s.everyClient hand) (udp : Bool) :
    Held hand (s.clientaccountAdd udp c) := by
  unfold Server.clientaccountAdd
  dsimp only
  split
  next hudp =>
    obtain ⟨u, hu⟩ := Option.isSome_iff_exists.mp hudp.2
    obtain ⟨x, hx⟩ := h.sockets.exists_of_pos (refs_pos hc hu)
    rw [Server.withSocket_eq hu hx]
    exact h.moved ⟨.refl _, rfl, rfl, fun _ => rfl, rfl, rfl⟩
  next =>
    split
    · exact h
    · exact h.moved ⟨.refl _, rfl, rfl, fun _ => rfl, rfl, rfl⟩

theorem Held.udpClientWrite (h : Held hand s) (hc : c ∈ s.everyClient hand)
    (hsocket : c.udpclient.isSome) : Held hand (s.udpClientWrite c) := by
  obtain ⟨u, hu⟩ := Option.isSome_iff_exists.mp hsocket
  obtain ⟨x, hx⟩ := h.sockets.exists_of_pos (refs_pos hc hu)
  rw [Server.udpClientWrite, Server.withSocket_eq hu hx]
  exact h.clientaccountAdd hc true

/-- A client is written to. A peer has a socket, and so has whoever is fed through one. -/
theorem Held.clientWrite (h : Held hand s) (hc : c ∈ s.everyClient hand) (comment : Bool) :
    Held hand (s.clientWrite comment c) := by
  unfold Server.clientWrite
  split
  next hstate => exact h.udpClientWrite hc (h.fed c hc (.inr hstate))
  next =>
    split
    · exact h.clientaccountAdd hc false
    · unfold Server.tcpClientWrite
      split
      next hfeed =>
        have hsocket := (Bool.and_eq_true_iff.mp (Bool.and_eq_true_iff.mp hfeed).1).2
        exact h.udpClientWrite hc hsocket
      next => exact h.clientaccountAdd hc false

theorem Held.sendSingle (h : Held hand s) (hc : c ∈ s.clients) : Held hand (s.sendSingle c) := by
  have hcount := h.clientaccountAdd ((clients_sublist hand s).subset hc) c.hasFeed
  have hsame := (Frame.clientaccountAdd c.hasFeed c s).clients
  exact hcount.clientWrite ((clients_sublist hand _).subset (hsame ▸ hc)) false

theorem Inv.clientClose (h : Inv s) (hfind : s.clients.find? (·.key = c.key) = some c)
    (hstate : c.state ≠ .corepeer) : Inv (s.clientClose c) := by
  have hfed := h.held.fed_socket (mem_everyClient hfind)
  refine h.still (Still.clientClose c s) (h.held.clientClose hfed hfind) ?_
  rw [Server.clientClose_eq hfed]
  intro hexited
  have hold := ((perm_of_find? hfind).filter (·.state = .corepeer)).map (·.key)
  rw [List.filter_cons_of_neg (by simpa using hstate)] at hold
  exact (h.peers hexited).trans hold

/-- The socket of a listener is there. -/
theorem Inv.exists_listener_socket (h : Inv s) (hl : l ∈ s.listenList) {u : Nat}
    (hu : l.udp = some u) : ∃ x, s.sockets.heap.cells u = some x := by
  apply h.held.sockets.exists_of_pos
  have hpos : 0 < s.listenList.countP (·.udp = some u) :=
    List.countP_pos_iff.mpr ⟨l, hl, by simpa using hu⟩
  unfold Server.socketRefs
  omega

theorem Inv.withClient (h : Inv s) (key : Nat) {f : ClientT → Server → Server}
    (hf : ∀ c, s.clients.find? (·.key = c.key) = some c → Inv (f c s)) :
    Inv (s.withClient key f) := by
  unfold Server.withClient
  split
  · exact h
  · next c hfind =>
    have hkey : c.key = key := by simpa using List.find?_some hfind
    exact hf c (hkey ▸ hfind)

/-- A packet of a peer is counted for the peer. -/
theorem Inv.handleCorepeerReadable (h : Inv s) (hexited : s.exited = false)
    (hfind : s.clients.find? (·.key = c.key) = some c) (peer : Nat) :
    Inv (s.handleCorepeerReadable peer c) := by
  unfold Server.handleCorepeerReadable
  split
  next hready =>
    obtain ⟨hstate, -, hpeer⟩ := hready
    obtain ⟨u, x, hu, hx⟩ := h.held.exists_socket (mem_everyClient hfind) (.inr hstate)
    rw [Server.withSocket_eq hu hx]
    -- the array of peers has only peers that are there
    obtain ⟨rc, hrc, hkey⟩ := List.mem_map.mp ((h.peers hexited).mem_iff.mp hpeer)
    have hrc := List.mem_of_mem_filter hrc
    cases hfind' : s.clients.find? (·.key = peer) with
    | none => exact absurd (decide_eq_true hkey) (List.find?_eq_none.mp hfind' rc hrc)
    | some rc' =>
      exact h.frame (Frame.clientaccountAdd ..) (h.held.clientaccountAdd (mem_everyClient hfind') _)
  next => exact h

theorem Server.pc_of_isPolling (h : s.isPolling = true) : s.pc = .polling := by
  unfold isPolling at h
  split at h
  next hpc => exact hpc
  next => cases h

theorem Inv.searchClient (h : Inv s) (hpoll : s.isPolling = true) {w : Search}
    (hlisteners : ∀ root, (AcceptPc.searching root w).listeners.Sublist s.listenList) :
    Inv (s.search w) := by
  have hpc := Server.pc_of_isPolling hpoll
  refine h.search ?_ (fun u => ?_) w hlisteners
  · rw [hpc]
    rfl
  · rw [hpc]
    rfl

theorem Inv.doAccept (h : Inv s) (hpoll : s.isPolling = true) (maxclients : Int)
    (hl : l ∈ s.listenList) (a : Connection) : Inv (s.doAccept maxclients l a) := by
  unfold Server.doAccept
  split
  · exact h.frame (Frame.account ..) (h.held.account _ _)
  · exact h.searchClient hpoll fun _ => List.singleton_sublist.mpr hl

theorem Inv.acceptLiveupgradeSingle (h : Inv s) (hpoll : s.isPolling = true)
    (hl : l ∈ s.listenList) (r : Restored) : Inv (s.acceptLiveupgradeSingle l r) := by
  unfold Server.acceptLiveupgradeSingle
  split
  · exact h
  · exact h.searchClient hpoll fun _ => List.singleton_sublist.mpr hl

/-- A step searches from a head that was freed since the accept thread read it. -/
def Server.searchesFreed (s : Server) : Event → Bool
  | .accept .. => !s.exited && s.rootGone
  | _ => false

/-- No other step uses a socket, a listener or a client that is gone. -/
theorem Inv.step (h : Inv s) (maxclients : Int) (e : Event) (hok : s.searchesFreed e = false) :
    Inv (s.step maxclients e) := by
  unfold Server.step
  split
  · exact h
  next hexited =>
  have hexited : s.exited = false := by simpa using hexited
  cases e with
  | readConfig listenConfig peeripConfig =>
    dsimp only
    split
    · exact h
    · exact h.frame ⟨⟨.of_eq rfl rfl, rfl, rfl⟩, rfl, rfl, rfl⟩
        (h.held.moved ⟨.refl _, rfl, rfl, fun _ => rfl, rfl, rfl⟩)
  | accept o passFails =>
    have hgone : s.rootGone = false := by
      rw [Server.searchesFreed, hexited] at hok
      exact hok
    exact h.acceptThread maxclients o passFails hgone
  | connect k a =>
    dsimp only
    split
    next l hl =>
      split
      next hpoll =>
        simp only [Bool.and_eq_true] at hpoll
        exact h.doAccept hpoll.1.1 maxclients (List.mem_of_getElem? hl) a
      next => exact h
    · exact h
  | udpRecv k =>
    dsimp only
    split
    · next l hl =>
      split
      next hpoll =>
        obtain ⟨u, hu⟩ := Option.isSome_iff_exists.mp (Bool.and_eq_true_iff.mp hpoll).2
        obtain ⟨x, hx⟩ := h.exists_listener_socket (List.mem_of_getElem? hl) hu
        rw [Server.withSocket_eq hu hx]
        exact h.frame ⟨⟨.of_eq rfl rfl, rfl, Heap.next_modify ..⟩, rfl, rfl, rfl⟩
          (h.held.moved ⟨.refl _, rfl, rfl, fun _ => rfl, rfl, rfl⟩)
      next => exact h
    · exact h
  | restore k r =>
    dsimp only
    split
    next l hl =>
      split
      next hpoll => exact h.acceptLiveupgradeSingle hpoll (List.mem_of_getElem? hl) r
      next => exact h
    · exact h
  | collect w => exact h.collectNewClients hexited w
  | login key udpPorts loggedIn =>
    exact h.withClient key fun c hfind => h.loginHandler hfind udpPorts loggedIn
  | send key =>
    exact h.withClient key fun c hfind =>
      h.frame (Frame.sendSingle ..) (h.held.sendSingle (List.mem_of_find?_eq_some hfind))
  | write key =>
    exact h.withClient key fun c hfind =>
      h.frame (Frame.clientWrite ..) (h.held.clientWrite (mem_everyClient hfind) true)
  | read key =>
    exact h.withClient key fun c hfind =>
      h.frame (Frame.clientaccountAdd ..) (h.held.clientaccountAdd (mem_everyClient hfind) false)
  | receive key peer =>
    exact h.withClient key fun c hfind => h.handleCorepeerReadable hexited hfind peer
  | close key =>
    refine h.withClient key fun c hfind => ?_
    split
    · exact h
    · next hstate => exact h.clientClose hfind hstate

theorem inv_start (listenConfig : List ListenConfigT) (peeripConfig : List PeeripConfig) :
    Inv (Server.start listenConfig peeripConfig) where
  held := ⟨Sockets.ok_empty, nofun, .nil, nofun, rfl⟩
  listening := ⟨.nil, nofun, .refl _, fun _ _ hpc => nomatch hpc⟩
  peers _ := .refl _

/-! ## Runs -/

/-- A list that has lost others than its head. -/
theorem head?_of_sublist {α : Type} {l as : List α} {a : α} (hsub : l.Sublist (a :: as))
    (hnodup : (a :: as).Nodup) (ha : a ∈ l) : l.head? = some a := by
  cases hsub with
  | cons _ hrest => exact absurd (hrest.subset ha) (List.nodup_cons.mp hnodup).1
  | cons_cons _ _ => rfl

/-- The head that the accept thread has read is still that of the list, unless it is gone: the
search comes to all of the list. -/
theorem Inv.chain_eq (h : Inv s) {root : Option Nat} {w : Search} (hpc : s.pc = .searching root w)
    (hgone : s.rootGone = false) : s.sockets.chain root = s.sockets.list w.corepeer := by
  have hroot := Server.rooted_of_not_gone hpc hgone
  obtain ⟨us, hnodup, hhead, hsub⟩ := h.listening.searching root w hpc
  have hsame : (s.sockets.list w.corepeer).head? = root := by
    cases us with
    | nil =>
      rw [List.sublist_nil.mp hsub]
      exact hhead
    | cons u us =>
      cases hhead
      -- the head is in one of the lists, and not in the other
      have hmem : u ∈ s.sockets.list w.corepeer ++ s.sockets.list !w.corepeer := by
        apply (s.sockets.append_lists_perm w.corepeer).mem_iff.mpr
        apply (h.held.sockets.mem_iff u).mpr
        exact (h.held.sockets.owned.isSome_iff u).mp (hroot u rfl)
      obtain ⟨hus, -, hdisj⟩ := List.nodup_append.mp hnodup
      rcases List.mem_append.mp hmem with hin | hother
      · exact head?_of_sublist hsub hus hin
      · exact absurd rfl (hdisj u List.mem_cons_self u hother)
  rw [← hsame]
  exact Sockets.chain_head? h.held.sockets.nodup w.corepeer

/-- The clients that are somewhere, with the one that the accept thread makes. -/
def Server.allClients (s : Server) : List ClientT := s.everyClient s.pc.hand

/-- The sockets that are there are those that somebody holds: a listener, a client or the
accept thread. Each has the count of those who hold it and is in one of the lists, a
search comes to all of its list, and nothing that is gone was used. -/
structure SocketsHeld (s : Server) : Prop where
  fine : s.sockets.heap.misused = false ∧ s.clientMisused = false
  held : ∀ u, (s.sockets.heap.cells u).isSome ↔
    (∃ l ∈ s.listenList, l.udp = some u) ∨ (∃ c ∈ s.allClients, c.udpclient = some u) ∨
      ∃ pe rest, s.pc = .found pe u rest
  count : ∀ u x, s.sockets.heap.cells u = some x → x.refcount = s.socketRefs s.pc.hand u
  listed : ∀ u, (s.sockets.heap.cells u).isSome ↔ u ∈ s.sockets.udpclients ++ s.sockets.udppeers
  nodup : (s.sockets.udpclients ++ s.sockets.udppeers).Nodup
  searched : ∀ root w, s.pc = .searching root w → s.rootGone = false →
    s.sockets.chain root = s.sockets.list w.corepeer

theorem AcceptPc.held_pos {pc : AcceptPc} {u : Nat} :
    0 < pc.held u ↔ ∃ pe rest, pc = .found pe u rest := by
  cases pc with
  | found pe v rest => by_cases hv : v = u <;> simp [held, hv]
  | _ => simp [held]

theorem Inv.socketsHeld (h : Inv s) : SocketsHeld s where
  fine := ⟨h.held.sockets.owned.fine, h.held.fine⟩
  held u := by
    rw [h.held.sockets.owned.isSome_iff, ← AcceptPc.held_pos]
    have hlisteners := List.countP_pos_iff (p := fun l : ListenT => l.udp = some u)
      (l := s.listenList)
    have hclients := List.countP_pos_iff (p := fun c : ClientT => c.udpclient = some u)
      (l := s.allClients)
    simp only [decide_eq_true_eq] at hlisteners hclients
    rw [← hlisteners, ← hclients]
    unfold Server.socketRefs Server.allClients
    omega
  count u x hx := h.held.sockets.owned.count_eq hx
  listed u := by rw [h.held.sockets.owned.isSome_iff, h.held.sockets.mem_iff]
  nodup := h.held.sockets.nodup
  searched _ _ hpc hgone := h.chain_eq hpc hgone

theorem misused_search (maxclients : Int) (o : Opened) (passFails : Bool) (hgone : s.rootGone = true) :
    (s.acceptThread maxclients o passFails).sockets.heap.misused = true := by
  unfold Server.rootGone at hgone
  split at hgone
  next u w hpc =>
    have hfind := Sockets.find_gone (Option.isNone_iff_eq_none.mp hgone)
    unfold Server.acceptThread
    rw [hpc]
    cases w with
    | connection l a =>
      dsimp only
      unfold Server.doAcceptClient Server.acceptClientForListener
      dsimp only
      rw [hfind]
      split
      · rfl
      · split <;> rfl
    | restored l r =>
      dsimp only
      unfold Server.acceptLiveupgradeFound Server.acceptClientForListener
      dsimp only
      rw [hfind]
      rfl
    | peer pe rest =>
      dsimp only
      unfold Server.findPeerSocket
      rw [hfind]
  next => cases hgone

/-- To search from a head that is gone uses it. -/
theorem misused_step (maxclients : Int) {e : Event} (hbad : s.searchesFreed e = true) :
    (s.step maxclients e).sockets.heap.misused = true := by
  cases e with
  | accept o passFails =>
    obtain ⟨hexited, hgone⟩ := Bool.and_eq_true_iff.mp hbad
    unfold Server.step
    rw [if_neg (by simpa using hexited)]
    exact misused_search maxclients o passFails hgone
  | _ => cases hbad

/-- Whatever is reconfigured, accepted and closed in whatever order, every UDP socket is there
exactly as long as somebody holds it and nothing is used that is gone, exactly in the runs in
which the accept thread never searches from a head that a worker has freed since it was
read. -/
theorem sockets_of_run (maxclients : Int) (listenConfig : List ListenConfigT)
    (peeripConfig : List PeeripConfig) (es : List Event) :
    Always (Server.step maxclients) SocketsHeld (Server.start listenConfig peeripConfig) es ↔
      Meets (Server.step maxclients) (fun s e => s.searchesFreed e = false)
        (Server.start listenConfig peeripConfig) es := by
  refine always_iff_meets_of_breaks (I := Inv) ?_ ?_ ?_ (inv_start listenConfig peeripConfig) es
  · exact fun s e h hok => h.step maxclients e hok
  · exact fun s h => h.socketsHeld
  · intro s e h hbad hheld
    have hmisused := misused_step maxclients (by simpa using hbad)
    rw [hheld.fine.1] at hmisused
    cases hmisused

-- The accept thread has read the head of the list for a new client. The only other one that holds
-- that socket, whose listener was closed, goes away.
example :
    let listen (id : Int) (proto : String) : ListenConfigT :=
      { id, proto := ascii proto, name := [], host := [], portnum := 14580, clientsMax := 10,
        corepeer := false, hidden := false, tls := fun _ => none, ai := [(.inet 0, 0)], acl := none,
        filters := [], clientFlags := 0 }
    let goesOn : Event := .accept ⟨false, false⟩ false
    let connects : Event := .connect 0 ⟨.inet 1, 0, false, false, false⟩
    let events : List Event :=
      List.replicate 6 goesOn ++ [connects, goesOn, .collect 0, .collect 0,
          .readConfig [listen 2 "tcp"] []] ++ List.replicate 7 goesOn ++ [connects, .close 0, goesOn]
    let start := Server.start [listen 1 "udp", listen 2 "tcp"] []
    (run (Server.step 100) start events).sockets.heap.misused = true := by
  decide +kernel

end Aprsc.Accept
