import Chaosircd.SpoofEntries

/-!
# Lookups that compare a hash first

`client_find_host` and `user_find_name` look at the text of an entry only where its hash is
that of the text they are given.  A remote client is stored with the hash of its host name
for that of its address, a client that meets an entry of `m_spoof` with the hash of the
entry, and a user with a hash that tells upper and lower case apart.
-/

namespace Chaosircd

namespace HashedLookups

/-! ## Users -/

/-- `struct user`, as far as the lookups go. -/
structure User where
  name : CString
  nhash : Nat
  uid : CString
  uhash : Nat
  deriving DecidableEq

/-- `IRCD_USERLEN`. -/
def userLen : Nat := 16

/-- `IRCD_IDLEN`. -/
def idLen : Nat := 8

/-- `IRCD_HOSTIPLEN`. -/
def hostipLen : Nat := 16

/-- `user_set_name`. -/
def userSetName (uptr : User) (name : CString) : User :=
  if name = [] then uptr
  else
    let name := strlcpy name (userLen + 1)
    { uptr with name := name, nhash := strIhash name }

/-- `user_new`; the identifier is the one that is given or that `user_uid` draws. -/
def userNew (name uid : CString) : User :=
  let uptr := userSetName ⟨[], 0, [], 0⟩ name
  let uptr := { uptr with name := strlcpy name (userLen + 1) }
  -- The hash that `user_set_name` has stored is overwritten.
  let uptr := { uptr with nhash := strHash uptr.name }
  let uptr := { uptr with uid := strlcpy uid (idLen + 1) }
  { uptr with uhash := strHash uptr.uid }

/-! ## The system -/

/-- The clients with the entries of `m_spoof`, and `user_list`. -/
structure State where
  net : SpoofEntries.State
  users : List User

/-- What happens to clients and users. -/
inductive Event where
  | client (event : SpoofEntries.Event)
  | userNew (name uid : CString)
  | userSetName (place : Nat) (name : CString)
  | userDelete (place : Nat)

/-- The address of a remote client is cut to its field. -/
def received : SpoofEntries.Event → SpoofEntries.Event
  | .newRemote ip host hostip => .newRemote ip host (strlcpy hostip (hostipLen + 1))
  | event => event

namespace State

/-- No client and no user. -/
def start : State := ⟨⟨[], []⟩, []⟩

/-- One event. -/
def step (s : State) : Event → Option State
  | .client event => (s.net.step (received event)).map fun net => { s with net := net }
  | .userNew name uid => some { s with users := s.users ++ [HashedLookups.userNew name uid] }
  | .userSetName place name =>
    some { s with users := s.users.modify place fun uptr => HashedLookups.userSetName uptr name }
  | .userDelete place => some { s with users := s.users.eraseIdx place }

/-- `user_find_name`, with the place of the user. -/
def userFindName (s : State) (name : CString) : Option (User × Nat) :=
  s.users.zipIdx.find? fun found =>
    found.1.nhash = strIhash name && decide (IcmpEq found.1.name name)

end State

/-! ## What the lookups should find -/

/-- One of the three texts of the client is the given one. -/
def Bears (cptr : SpoofEntries.Client) (text : CString) : Prop :=
  IcmpEq cptr.host text ∨ IcmpEq cptr.hostreal text ∨ IcmpEq cptr.hostip text

namespace State

/-- Every client is found by a field of it, where none before it bears the same text. -/
def FindsBy (field : SpoofEntries.Client → CString) (s : State) : Prop :=
  ∀ place cptr text, s.net.clients[place]? = some cptr → IcmpEq (field cptr) text →
    ∃ acptr first, s.net.clientFindHost text = some (acptr, first) ∧ first ≤ place ∧
      Bears acptr text

/-- Every user is found by his name, where none before him has the same. -/
def FindsNames (s : State) : Prop :=
  ∀ place uptr text, s.users[place]? = some uptr → IcmpEq uptr.name text →
    ∃ auptr first, s.userFindName text = some (auptr, first) ∧ first ≤ place ∧
      IcmpEq auptr.name text

/-! ## The conditions -/

/-- A remote client comes with an address that has the hash of its host name. -/
def AddressHashed (_ : State) : Event → Prop
  | .client (.newRemote _ host hostip) =>
    strIhash (strlcpy hostip (hostipLen + 1)) = strIhash (strlcpy host (SpoofEntries.hostLen + 1))
  | _ => True

/-- The entry of `m_spoof` that a client meets has the hash of its host name. -/
def EntryHashed (s : State) : Event → Prop
  | .client (.newLocal ip _ _) | .client (.newRemote ip _ _) =>
    ∀ mseptr place, s.net.mSpoofFindIp ip = some (mseptr, place) →
      mseptr.hash = strIhash mseptr.host
  | _ => True

/-- A user comes with a name on which the two hashes agree. -/
def NameHashed (_ : State) : Event → Prop
  | .userNew name _ => strHash (strlcpy name (userLen + 1)) = strIhash (strlcpy name (userLen + 1))
  | _ => True

end State

end HashedLookups

/-! ## What an event does to the clients -/

namespace SpoofEntries

/-- The client that an event brings. -/
def Event.Brings (cptr : Client) : Event → Prop
  | .newLocal ip host hostip => cptr = clientNewLocal ip host hostip
  | .newRemote ip host hostip => cptr = clientNewRemote ip host hostip
  | _ => False

namespace State

variable {s s' : State}

/-- A client that comes takes the name of the entry it meets. -/
def arriving (s : State) (cptr : Client) : Client :=
  match s.mSpoofFindIp cptr.ip with
  | none => cptr
  | some (mseptr, _) => { cptr with host := mseptr.host, hhash := mseptr.hash }

theorem clients_newLocal (cptr : Client) :
    (s.newLocal cptr).clients = s.clients ++ [s.arriving cptr] := by
  rw [newLocal, arriving]
  cases s.mSpoofFindIp cptr.ip <;> rfl

theorem clients_newRemote (cptr : Client) :
    (s.newRemote cptr).clients = s.clients ++ [s.arriving cptr] := by
  rw [newRemote, arriving]
  cases s.mSpoofFindIp cptr.ip <;> rfl

theorem clients_mSpoofLoaddb (sections : List Section) :
    (s.mSpoofLoaddb sections).clients = s.clients := by
  rw [mSpoofLoaddb]
  induction sections generalizing s with
  | nil => rfl
  | cons isptr sections induction =>
      rw [List.foldl_cons, induction, loadSection]
      cases s.mSpoofFindIp isptr.ip <;> rfl

theorem clients_mSpoof {client : Nat} {cptr : Client} {arg : CString} {now : BitVec 64}
    {stale : Stale} {reply : Reply}
    (result : s.mSpoof client cptr arg now stale = some (s', reply)) :
    s'.clients = s.clients ∨
      s'.clients = s.clients.set client
        { cptr with host := hostOf arg, hhash := strIhash (hostOf arg) } := by
  unfold mSpoof at result
  dsimp only at result
  split at result
  · cases result
    exact .inl rfl
  split at result
  · cases result
    exact .inl rfl
  split at result
  · split at result
    · cases result
      left
      split <;> rfl
    · cases result
      exact .inr rfl
  · split at result
    · split at result
      · split at result
        · cases result
        · cases result
          exact .inr rfl
      · split at result
        · cases result
          exact .inl rfl
        · cases result
          exact .inr rfl
    · cases result
      exact .inr rfl

/-- The four things that an event can do to the clients. -/
theorem clients_of_step {event : Event} (stepped : s.step event = some s') :
    s'.clients = s.clients ∨
      (∃ client, s'.clients = s.clients.eraseIdx client) ∨
      (∃ client cptr host, s.clients[client]? = some cptr ∧
        s'.clients = s.clients.set client { cptr with host := host, hhash := strIhash host }) ∨
      ∃ cptr, event.Brings cptr ∧ s'.clients = s.clients ++ [s.arriving cptr] := by
  cases event with
  | spoof client arg now stale =>
      rw [step] at stepped
      cases present : s.clients[client]? with
      | none =>
          rw [present] at stepped
          cases stepped
          exact .inl rfl
      | some cptr =>
          simp only [present] at stepped
          split at stepped
          · obtain ⟨⟨after, reply⟩, result, rfl⟩ := Option.map_eq_some_iff.mp stepped
            rcases clients_mSpoof result with kept | given
            · exact .inl kept
            · exact .inr (.inr (.inl ⟨client, cptr, _, present, given⟩))
          · cases stepped
            exact .inl rfl
  | newLocal ip host hostip =>
      cases stepped
      exact .inr (.inr (.inr ⟨_, rfl, clients_newLocal _⟩))
  | newRemote ip host hostip =>
      cases stepped
      exact .inr (.inr (.inr ⟨_, rfl, clients_newRemote _⟩))
  | msSpoof client ts arg stale =>
      cases stepped
      rw [msSpoof]
      cases present : s.clients[client]? with
      | none => exact .inl rfl
      | some acptr =>
          refine .inr (.inr (.inl ⟨client, acptr, strlcpy arg (hostLen + 1), present, ?_⟩))
          dsimp only
          split
          · split <;> rfl
          · rfl
  | exit client =>
      cases stepped
      rw [exit]
      cases present : s.clients[client]? with
      | none => exact .inl rfl
      | some cptr =>
          refine .inr (.inl ⟨client, ?_⟩)
          dsimp only
          split <;> rfl
  | cleanup now =>
      cases stepped
      exact .inl rfl
  | loaddb sections =>
      cases stepped
      exact .inl (clients_mSpoofLoaddb sections)

/-- What renaming and arriving keep is kept by every event. -/
theorem forall_clients_of_step {P : Client → Prop} {event : Event}
    (renamed : ∀ cptr host, P cptr → P { cptr with host := host, hhash := strIhash host })
    (arrives : ∀ cptr, event.Brings cptr → P (s.arriving cptr))
    (holds : ∀ cptr ∈ s.clients, P cptr) (stepped : s.step event = some s') :
    ∀ cptr ∈ s'.clients, P cptr := by
  rcases clients_of_step stepped with same | ⟨client, gone⟩ |
    ⟨client, acptr, host, present, given⟩ | ⟨acptr, brought, more⟩
  · rwa [same]
  · rw [gone]
    exact fun cptr member => holds cptr (List.mem_of_mem_eraseIdx member)
  · rw [given]
    intro cptr member
    rcases List.mem_or_eq_of_mem_set member with old | new
    · exact holds cptr old
    · rw [new]
      exact renamed acptr host (holds acptr (List.mem_of_getElem? present))
  · rw [more]
    intro cptr member
    rcases List.mem_append.mp member with old | new
    · exact holds cptr old
    · rw [List.mem_singleton.mp new]
      exact arrives acptr brought

/-! ## What arrives -/

theorem arriving_hostreal (cptr : Client) : (s.arriving cptr).hostreal = cptr.hostreal := by
  rw [arriving]
  cases s.mSpoofFindIp cptr.ip <;> rfl

theorem arriving_rhash (cptr : Client) : (s.arriving cptr).rhash = cptr.rhash := by
  rw [arriving]
  cases s.mSpoofFindIp cptr.ip <;> rfl

theorem arriving_hostip (cptr : Client) : (s.arriving cptr).hostip = cptr.hostip := by
  rw [arriving]
  cases s.mSpoofFindIp cptr.ip <;> rfl

theorem arriving_ihash (cptr : Client) : (s.arriving cptr).ihash = cptr.ihash := by
  rw [arriving]
  cases s.mSpoofFindIp cptr.ip <;> rfl

/-- A client with the hash of its name has it still, where the entry it meets has. -/
theorem arriving_hhash {cptr : Client} (hashed : cptr.hhash = strIhash cptr.host)
    (entry : ∀ mseptr place, s.mSpoofFindIp cptr.ip = some (mseptr, place) →
      mseptr.hash = strIhash mseptr.host) :
    (s.arriving cptr).hhash = strIhash (s.arriving cptr).host := by
  rw [arriving]
  cases met : s.mSpoofFindIp cptr.ip with
  | none => exact hashed
  | some found => exact entry found.1 found.2 met

end State

end SpoofEntries

namespace HashedLookups

namespace State

variable {s : State} {events : List Event}

/-! ## The first that matches -/

/-- The first element that matches stands no later than one that does. -/
theorem exists_find?_zipIdx {α : Type*} {p : α × Nat → Bool} {l : List α} {place : Nat} {a : α}
    (present : l[place]? = some a) (holds : p (a, place)) :
    ∃ b first, l.zipIdx.find? p = some (b, first) ∧ first ≤ place ∧ p (b, first) := by
  have listed : (a, place) ∈ l.zipIdx := List.mem_zipIdx_iff_getElem?.mpr present
  cases found : l.zipIdx.find? p with
  | none => exact absurd holds (List.find?_eq_none.mp found _ listed)
  | some first =>
      refine ⟨first.1, first.2, rfl, ?_, List.find?_some found⟩
      obtain ⟨_, i, inside, same, before⟩ := List.find?_eq_some_iff_getElem.mp found
      rw [List.getElem_zipIdx] at same
      rw [← same, Nat.zero_add]
      by_contra later
      obtain ⟨below, isHere⟩ := List.getElem?_eq_some_iff.mp present
      have skipped := before place (by omega)
      rw [List.getElem_zipIdx, isHere, Nat.zero_add, holds] at skipped
      exact absurd skipped (by decide)

/-- A field is found by where one of the three hashes of each client is its. -/
theorem findsBy_of_hash {field : SpoofEntries.Client → CString}
    (hashed : ∀ cptr ∈ s.net.clients, cptr.hhash = strIhash (field cptr) ∨
      cptr.ihash = strIhash (field cptr) ∨ cptr.rhash = strIhash (field cptr))
    (bears : ∀ cptr text, IcmpEq (field cptr) text → Bears cptr text) : s.FindsBy field := by
  intro place cptr text present same
  have hash := hashed cptr (List.mem_of_getElem? present)
  rw [strIhash_eq_of_icmpEq same] at hash
  obtain ⟨acptr, first, found, early, matched⟩ := exists_find?_zipIdx
    (p := fun found => (strIhash text = found.1.hhash || strIhash text = found.1.ihash ||
      strIhash text = found.1.rhash) && (decide (IcmpEq found.1.host text) ||
        decide (IcmpEq found.1.hostreal text) || decide (IcmpEq found.1.hostip text)))
    present (by
      simp only [Bool.and_eq_true, Bool.or_eq_true, decide_eq_true_eq, or_assoc]
      exact ⟨hash.imp Eq.symm (Or.imp Eq.symm Eq.symm), bears cptr text same⟩)
  simp only [Bool.and_eq_true, Bool.or_eq_true, decide_eq_true_eq, or_assoc] at matched
  exact ⟨acptr, first, found, early, matched.2⟩

theorem findsNames_of_hash (hashed : ∀ uptr ∈ s.users, uptr.nhash = strIhash uptr.name) :
    s.FindsNames := by
  intro place uptr text present same
  have hash := hashed uptr (List.mem_of_getElem? present)
  rw [strIhash_eq_of_icmpEq same] at hash
  obtain ⟨auptr, first, found, early, matched⟩ := exists_find?_zipIdx
    (p := fun found => found.1.nhash = strIhash text && decide (IcmpEq found.1.name text))
    present (by simp [hash, same])
  simp only [Bool.and_eq_true, decide_eq_true_eq] at matched
  exact ⟨auptr, first, found, early, matched.2⟩

/-! ## Runs -/

/-- What every client has that comes, and keeps when it is given a name, every client has
after a run. -/
theorem forall_clients {guard : State → Event → Prop} {P : SpoofEntries.Client → Prop}
    (renamed : ∀ cptr host, P cptr → P { cptr with host := host, hhash := strIhash host })
    (arrives : ∀ (s : State) event cptr, guard s (.client event) →
      (received event).Brings cptr → P (s.net.arriving cptr))
    (guarded : TransitionSystem.GuardedRun step guard start events)
    (runs : TransitionSystem.run step start events = some s) :
    ∀ cptr ∈ s.net.clients, P cptr := by
  have preserved : ∀ (s : State) event next, (∀ cptr ∈ s.net.clients, P cptr) →
      guard s event → s.step event = some next → ∀ cptr ∈ next.net.clients, P cptr := by
    intro s event next holds allowed stepped
    cases event with
    | client event =>
        obtain ⟨net, stepped', rfl⟩ := Option.map_eq_some_iff.mp stepped
        exact SpoofEntries.State.forall_clients_of_step renamed
          (fun cptr brought => arrives s event cptr allowed brought) holds stepped'
    | userNew | userSetName | userDelete =>
        cases stepped
        exact holds
  have none : ∀ cptr ∈ start.net.clients, P cptr :=
    fun _ member => absurd member List.not_mem_nil
  exact TransitionSystem.invariant_of_guardedRun preserved none guarded runs

/-- The hash of the address is that of the address. -/
theorem ihash_of_run (guarded : TransitionSystem.GuardedRun step AddressHashed start events)
    (runs : TransitionSystem.run step start events = some s) :
    ∀ cptr ∈ s.net.clients, cptr.ihash = strIhash cptr.hostip := by
  refine forall_clients (fun cptr host hashed => hashed) ?_ guarded runs
  intro s event cptr allowed brought
  rw [SpoofEntries.State.arriving_ihash, SpoofEntries.State.arriving_hostip]
  cases event with
  | newLocal ip host hostip =>
      cases brought
      rfl
  | newRemote ip host hostip =>
      cases brought
      exact allowed.symm
  | spoof | msSpoof | exit | cleanup | loaddb => cases brought

/-- The hash of the real host is that of the real host. -/
theorem rhash_of_run (runs : TransitionSystem.run step start events = some s) :
    ∀ cptr ∈ s.net.clients, cptr.rhash = strIhash cptr.hostreal := by
  have guarded : TransitionSystem.GuardedRun step (fun _ _ => True) start events :=
    TransitionSystem.guardedRun_of_forall (fun _ _ => trivial) start events
  refine forall_clients (fun cptr host hashed => hashed) ?_ guarded runs
  intro s event cptr _ brought
  rw [SpoofEntries.State.arriving_rhash, SpoofEntries.State.arriving_hostreal]
  cases event with
  | newLocal ip host hostip =>
      cases brought
      rfl
  | newRemote ip host hostip =>
      cases brought
      rfl
  | spoof | msSpoof | exit | cleanup | loaddb => cases brought

/-- The hash of the host name is that of the host name. -/
theorem hhash_of_run (guarded : TransitionSystem.GuardedRun step EntryHashed start events)
    (runs : TransitionSystem.run step start events = some s) :
    ∀ cptr ∈ s.net.clients, cptr.hhash = strIhash cptr.host := by
  refine forall_clients (fun cptr host _ => rfl) ?_ guarded runs
  intro s event cptr allowed brought
  cases event with
  | newLocal ip host hostip =>
      cases brought
      exact SpoofEntries.State.arriving_hhash rfl allowed
  | newRemote ip host hostip =>
      cases brought
      exact SpoofEntries.State.arriving_hhash rfl allowed
  | spoof | msSpoof | exit | cleanup | loaddb => cases brought

/-- The hash of a name that the user keeps or is given is that of the name. -/
theorem nhash_userSetName {uptr : User} (hashed : uptr.nhash = strIhash uptr.name)
    (name : CString) :
    (HashedLookups.userSetName uptr name).nhash =
      strIhash (HashedLookups.userSetName uptr name).name := by
  rw [HashedLookups.userSetName]
  split
  · exact hashed
  · rfl

theorem nhash_of_run (guarded : TransitionSystem.GuardedRun step NameHashed start events)
    (runs : TransitionSystem.run step start events = some s) :
    ∀ uptr ∈ s.users, uptr.nhash = strIhash uptr.name := by
  have preserved : ∀ (s : State) event next,
      (∀ uptr ∈ s.users, uptr.nhash = strIhash uptr.name) → NameHashed s event →
      s.step event = some next → ∀ uptr ∈ next.users, uptr.nhash = strIhash uptr.name := by
    intro s event next hashed allowed stepped
    cases event with
    | client event =>
        obtain ⟨net, _, rfl⟩ := Option.map_eq_some_iff.mp stepped
        exact hashed
    | userNew name uid =>
        cases stepped
        intro uptr member
        rcases List.mem_append.mp member with old | new
        · exact hashed uptr old
        · rw [List.mem_singleton.mp new]
          exact allowed
    | userSetName place name =>
        cases stepped
        intro uptr member
        obtain ⟨i, inside, rfl⟩ := List.mem_iff_getElem.mp member
        rw [List.length_modify] at inside
        rw [List.getElem_modify]
        split
        · exact nhash_userSetName (hashed _ (List.getElem_mem inside)) name
        · exact hashed _ (List.getElem_mem inside)
    | userDelete place =>
        cases stepped
        exact fun uptr member => hashed uptr (List.mem_of_mem_eraseIdx member)
  have none : ∀ uptr ∈ start.users, uptr.nhash = strIhash uptr.name :=
    fun _ member => absurd member List.not_mem_nil
  exact TransitionSystem.invariant_of_guardedRun preserved none guarded runs

/-- A local client, a remote one without a host name and a user in lower case. -/
def someRun : List Event :=
  [.client (.newLocal 2 "Host.example".toList "0.0.0.2".toList),
    .client (.newRemote 3 "0.0.0.3".toList "0.0.0.3".toList), .userNew "al".toList "0001".toList]

end State

end HashedLookups

end Chaosircd
