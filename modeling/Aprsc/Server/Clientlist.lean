-- SUMMARY: The client list: who is logged in, under which name, and who has to be disconnected for it.
import Aprsc.Keyhash
import Aprsc.Server.Accounts

/-!
# The client list

The client list says which usernames are logged in. A client is put on it when its login
succeeds or when it is restored by a live upgrade, and taken off it when the client is
freed. It is a hash table, and an entry is found again by the current username of its
client and by the address of the client.

When a validated client is put on the list, the descriptor of another validated client
with its username is looked up. It is shut down after the lock of the list is released, so
that other clients may come and go in between.
-/

namespace Aprsc

/-! ## The table -/

/-- `struct clientlist_t`. `seq` is not in the source: it is the number of entries that
were added before. -/
structure ClientlistEntry where
  username : Bytes
  validated : Int
  fd : Int
  hash : UInt32
  clientId : Nat
  seq : Nat
deriving Repr, DecidableEq

def clientlistBuckets : Nat := 512

/-- The buckets of `clientlist`. -/
abbrev Clientlist := Nat → List ClientlistEntry

/-- The bucket of a hash. -/
def clientlistIndex (hash : UInt32) : Nat :=
  let idx := hash ^^^ (hash >>> 16)
  let idx := idx ^^^ (idx >>> 8)
  idx.toNat % clientlistBuckets

/-- The bucket of a username. -/
def usernameIndex (username : Bytes) : Nat := clientlistIndex (keyhash username 0)

/-- The test of `check_if_validated_client` on an entry. -/
def ClientlistEntry.isValidated (username : Bytes) (cl : ClientlistEntry) : Bool :=
  cl.hash == keyhash username 0 && cl.username == username && cl.validated != 0

/-- `check_if_validated_client`. -/
def checkIfValidatedClient (t : Clientlist) (username : Bytes) : Int :=
  match (t (usernameIndex username)).find? (·.isValidated username) with
  | some cl => cl.fd
  | none => -1

/-! ## Clients -/

/-- What logins and the client list use of `struct client_t`. -/
structure ListClient where
  fd : Int
  state : CState
  username : Bytes
  validated : Int
deriving Repr, DecidableEq

/-- The clients by their addresses, the client list, the logins that have added an entry but
not yet shut down what they found, the descriptors that `shutdown` was called on with the
number of entries that had been added by then, and the number of entries added. -/
structure Logins where
  clients : Nat → Option ListClient
  clientlist : Clientlist
  pending : List (Nat × Int)
  shutdowns : List (Int × Nat)
  added : Nat

def Logins.init : Logins := ⟨fun _ => none, fun _ => [], [], [], 0⟩

/-- All entries of the list. -/
def Logins.entries (s : Logins) : List ClientlistEntry :=
  (List.range clientlistBuckets).flatMap s.clientlist

/-- `clientlist_add`, and the test of its result by its callers. -/
def Logins.clientlistAdd (s : Logins) (id : Nat) (c : ListClient) : Logins :=
  let hash := keyhash c.username 0
  let i := clientlistIndex hash
  let oldFd := checkIfValidatedClient s.clientlist c.username
  let cl : ClientlistEntry := ⟨c.username, c.validated, c.fd, hash, id, s.added⟩
  { s with
    clientlist := Function.update s.clientlist i (cl :: s.clientlist i)
    pending := if c.validated ≠ 0 ∧ oldFd ≠ -1 then (id, oldFd) :: s.pending else s.pending
    added := s.added + 1 }

/-- `clientlist_remove`: the first entry of the client in the bucket of its username. -/
def Logins.clientlistRemove (s : Logins) (id : Nat) (c : ListClient) : Logins :=
  let i := usernameIndex c.username
  { s with
    clientlist :=
      Function.update s.clientlist i ((s.clientlist i).eraseP (·.clientId == id)) }

/-! ## Steps -/

inductive LoginEvent where
  /-- `do_accept` makes a client. -/
  | connect (id fd : Nat)
  /-- `accept_liveupgrade_single` makes a client and adds it to the list. -/
  | restore (id fd : Nat) (state : SavedState) (username : Bytes) (validated : Int)
  /-- `login_handler` turns down a login, after it has written down the username and maybe
  the result of the validation. -/
  | reject (id : Nat) (username : Bytes) (validated : Int)
  /-- A login succeeds. -/
  | login (id : Nat) (username : Bytes) (validated : Int)
  /-- The shutdown that a login is to call. -/
  | shutdown (id : Nat) (fd : Int)
  /-- `client_free`, also as a part of `client_close`. -/
  | free (id : Nat)
deriving Repr, DecidableEq

/-- The size of `username` of `struct client_t`, without the NUL. -/
def usernameMax : Nat := 15

def Logins.setClient (s : Logins) (id : Nat) (c : Option ListClient) : Logins :=
  { s with clients := Function.update s.clients id c }

/-- The client is in the middle of a login. -/
def Logins.busy (s : Logins) (id : Nat) : Bool := s.pending.any (·.1 == id)

/-- The client that a login line comes from. -/
def Logins.loggingIn (s : Logins) (id : Nat) : Option ListClient :=
  (s.clients id).filter fun c => c.state == .login && !s.busy id

/-- The client that `accept_liveupgrade_single` makes. The username is only read for a
client that was logged in. -/
def restoredClient (fd : Nat) (state : SavedState) (username : Bytes) (validated : Int) :
    ListClient :=
  { fd := fd
    state := state.toCState
    username := match state with
      | .connected => username.take usernameMax
      | .login => []
    validated := validated }

/-- An event that can not happen in the state changes nothing: the address of a new client
is one that is not in use, and a login is finished before its client is freed. -/
def Logins.step (s : Logins) : LoginEvent → Logins
  | .connect id fd =>
      if (s.clients id).isSome then s else s.setClient id (some ⟨fd, .login, [], 0⟩)
  | .restore id fd state username validated =>
      if (s.clients id).isSome then s
      else
        let c := restoredClient fd state username validated
        (s.setClient id (some c)).clientlistAdd id c
  | .reject id username validated =>
      match s.loggingIn id with
      | none => s
      | some c => s.setClient id (some { c with username := username, validated := validated })
  | .login id username validated =>
      match s.loggingIn id with
      | none => s
      | some c =>
          let c := { c with username := username, validated := validated, state := .connected }
          (s.setClient id (some c)).clientlistAdd id c
  | .shutdown id fd =>
      if (id, fd) ∈ s.pending then
        { s with
          pending := s.pending.erase (id, fd)
          shutdowns := (fd, s.added) :: s.shutdowns }
      else s
  | .free id =>
      match s.clients id with
      | none => s
      | some c => if s.busy id then s else (s.clientlistRemove id c).setClient id none

/-! ## Table lemmas -/

theorem usernameIndex_lt (username : Bytes) : usernameIndex username < clientlistBuckets :=
  Nat.mod_lt _ (by decide)

/-- Every entry is in the bucket of its username. -/
def Clientlist.Placed (t : Clientlist) : Prop :=
  ∀ i, ∀ cl ∈ t i, cl.hash = keyhash cl.username 0 ∧ i = usernameIndex cl.username

theorem Clientlist.Placed.of_subset {t t' : Clientlist} (h : t.Placed)
    (hsub : ∀ i, t' i ⊆ t i) : t'.Placed :=
  fun i cl hcl => h i cl (hsub i hcl)

theorem ClientlistEntry.isValidated_iff {cl : ClientlistEntry}
    (h : cl.hash = keyhash cl.username 0) {username : Bytes} :
    cl.isValidated username ↔ cl.username = username ∧ cl.validated ≠ 0 := by
  simp only [isValidated, Bool.and_eq_true, beq_iff_eq, bne_iff_ne, h]
  constructor
  · rintro ⟨⟨-, hu⟩, hv⟩
    exact ⟨hu, hv⟩
  · rintro ⟨hu, hv⟩
    exact ⟨⟨hu ▸ rfl, hu⟩, hv⟩

theorem Logins.mem_entries {s : Logins} (h : s.clientlist.Placed) {cl : ClientlistEntry} :
    cl ∈ s.entries ↔ cl ∈ s.clientlist (usernameIndex cl.username) := by
  rw [entries, List.mem_flatMap]
  constructor
  · rintro ⟨i, -, hcl⟩
    exact (h i cl hcl).2 ▸ hcl
  · intro hcl
    exact ⟨_, List.mem_range.2 (usernameIndex_lt _), hcl⟩

/-! ## The steps on the table -/

section

variable {s : Logins} {id : Nat} {c : ListClient}

theorem Logins.loggingIn_eq_some_iff :
    s.loggingIn id = some c ↔
      s.clients id = some c ∧ c.state = .login ∧ s.busy id = false := by
  simp [loggingIn, Option.filter_eq_some_iff]

theorem Logins.clients_setClient_self {c : Option ListClient} :
    (s.setClient id c).clients id = c :=
  Function.update_self ..

theorem Logins.clients_setClient_of_ne {c : Option ListClient} {id' : Nat} (h : id' ≠ id) :
    (s.setClient id c).clients id' = s.clients id' :=
  Function.update_of_ne h ..

/-- The entry that `clientlist_add` makes. -/
def Logins.newEntry (s : Logins) (id : Nat) (c : ListClient) : ClientlistEntry :=
  ⟨c.username, c.validated, c.fd, keyhash c.username 0, id, s.added⟩

theorem Logins.clientlist_add_self :
    (s.clientlistAdd id c).clientlist (usernameIndex c.username) =
      s.newEntry id c :: s.clientlist (usernameIndex c.username) :=
  Function.update_self ..

theorem Logins.clientlist_add_of_ne {i : Nat} (h : i ≠ usernameIndex c.username) :
    (s.clientlistAdd id c).clientlist i = s.clientlist i :=
  Function.update_of_ne h ..

theorem Logins.clientlist_remove_self :
    (s.clientlistRemove id c).clientlist (usernameIndex c.username) =
      (s.clientlist (usernameIndex c.username)).eraseP (·.clientId == id) :=
  Function.update_self ..

theorem Logins.clientlist_remove_of_ne {i : Nat} (h : i ≠ usernameIndex c.username) :
    (s.clientlistRemove id c).clientlist i = s.clientlist i :=
  Function.update_of_ne h ..

theorem Logins.clientlist_remove_sublist (i : Nat) :
    ((s.clientlistRemove id c).clientlist i).Sublist (s.clientlist i) := by
  by_cases h : i = usernameIndex c.username
  · rw [h, clientlist_remove_self]
    exact List.eraseP_sublist
  · rw [clientlist_remove_of_ne h]

theorem Logins.mem_clientlist_add {i : Nat} {cl : ClientlistEntry}
    (h : cl ∈ (s.clientlistAdd id c).clientlist i) :
    (i = usernameIndex c.username ∧ cl = s.newEntry id c) ∨ cl ∈ s.clientlist i := by
  by_cases hi : i = usernameIndex c.username
  · rw [hi, clientlist_add_self, List.mem_cons] at h
    exact h.imp (⟨hi, ·⟩) (hi ▸ ·)
  · rw [clientlist_add_of_ne hi] at h
    exact .inr h

theorem Logins.placed_add (h : s.clientlist.Placed) :
    (s.clientlistAdd id c).clientlist.Placed := by
  intro i cl hcl
  obtain ⟨hi, rfl⟩ | hcl := mem_clientlist_add hcl
  · exact ⟨rfl, hi⟩
  · exact h i cl hcl

theorem Logins.placed_remove (h : s.clientlist.Placed) :
    (s.clientlistRemove id c).clientlist.Placed :=
  h.of_subset fun i => (clientlist_remove_sublist i).subset

end

end Aprsc
