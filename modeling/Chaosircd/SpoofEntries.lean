import Chaosircd.Chars
import Chaosircd.TransitionSystem
import Mathlib.Tactic.Common

/-!
# Spoofed host names

A user may take a host name.  The entry that `m_spoof` keeps for his address holds the name
and a hash, by which others find the name taken; a new entry has the hash that was in its
memory before.  Only a user whose address has no entry yet is checked against the names of
others, and the check reads the address of a client that it may not have found.
-/

namespace Chaosircd

namespace SpoofEntries

/-! ## Entries and clients -/

/-- `struct m_spoof_entry`. -/
structure MSpoofEntry where
  ip : BitVec 32
  ts : BitVec 64
  host : CString
  hash : Nat
  waslame : BitVec 32
  deriving DecidableEq

/-- What the heap leaves in a block: the fields that `m_spoof_new` does not write. -/
structure Stale where
  hash : Nat
  waslame : BitVec 32

/-- `struct client` of a user, as far as host names go. -/
structure Client where
  isLocal : Bool
  ip : BitVec 32
  host : CString
  hostreal : CString
  hostip : CString
  hhash : Nat
  rhash : Nat
  ihash : Nat
  deriving DecidableEq

/-- `m_spoof_list` and the global list of the users. -/
structure State where
  entries : List MSpoofEntry
  clients : List Client
  deriving DecidableEq

/-- `M_SPOOF_SPOOFTIME`. -/
def spooftime : BitVec 64 :=
  24 * 3600 * 1000

/-- `M_SPOOF_LIFETIME`. -/
def lifetime : BitVec 64 :=
  spooftime * 7

/-- `IRCD_HOSTLEN`. -/
def hostLen : Nat := 64

/-- `client_new_local`, before its hook. -/
def clientNewLocal (ip : BitVec 32) (host hostip : CString) : Client :=
  ⟨true, ip, host, host, hostip, strIhash host, strIhash host, strIhash hostip⟩

/-- `client_new_remote`, before its hook; the address is what `net_aton` makes of the text.
The hash of the address is that of the host name. -/
def clientNewRemote (ip : BitVec 32) (host hostip : CString) : Client :=
  let host := strlcpy host (hostLen + 1)
  ⟨false, ip, host, host, hostip, strIhash host, strIhash host, strIhash host⟩

namespace State

/-- `m_spoof_new`. -/
def mSpoofNew (s : State) (ip : BitVec 32) (ts : BitVec 64) (host : CString) (stale : Stale) :
    State :=
  { s with
    entries := s.entries ++ [⟨ip, ts, strlcpy host hostLen, stale.hash, stale.waslame⟩] }

/-- `m_spoof_find_ip`, with the place of the entry. -/
def mSpoofFindIp (s : State) (ip : BitVec 32) : Option (MSpoofEntry × Nat) :=
  s.entries.zipIdx.find? fun entry => entry.1.ip = ip

/-- `m_spoof_find_host`. -/
def mSpoofFindHost (s : State) (host : CString) : Option MSpoofEntry :=
  s.entries.find? fun mseptr => mseptr.hash = strIhash host && decide (IcmpEq mseptr.host host)

/-- `client_find_host`, with the place of the client. -/
def clientFindHost (s : State) (host : CString) : Option (Client × Nat) :=
  s.clients.zipIdx.find? fun found =>
    let cptr := found.1
    let hash := strIhash host
    (hash = cptr.hhash || hash = cptr.ihash || hash = cptr.rhash) &&
      (decide (IcmpEq cptr.host host) || decide (IcmpEq cptr.hostreal host) ||
        decide (IcmpEq cptr.hostip host))

/-- `m_spoof_delete` of the entry at a place. -/
def mSpoofDelete (s : State) (place : Nat) : State :=
  { s with entries := s.entries.eraseIdx place }

/-- Writes to the entry at a place. -/
def setEntry (s : State) (place : Nat) (mseptr : MSpoofEntry) : State :=
  { s with entries := s.entries.set place mseptr }

/-- Writes to the client at a place. -/
def setClient (s : State) (client : Nat) (cptr : Client) : State :=
  { s with clients := s.clients.set client cptr }

/-- `m_spoof_cleanup`. -/
def mSpoofCleanup (s : State) (now : BitVec 64) : State :=
  { s with entries := s.entries.filter fun mseptr => ¬ mseptr.ts + lifetime < now }

/-- `m_spoof_hook_exit`, and the removal of the client. -/
def exit (s : State) (client : Nat) : State :=
  match s.clients[client]? with
  | none => s
  | some cptr =>
    let s := { s with clients := s.clients.eraseIdx client }
    match s.mSpoofFindIp cptr.ip with
    | none => s
    | some (mseptr, place) => s.setEntry place { mseptr with waslame := 0 }

/-- `m_spoof_hook_local` for a new client. -/
def newLocal (s : State) (cptr : Client) : State :=
  match s.mSpoofFindIp cptr.ip with
  | none => { s with clients := s.clients ++ [cptr] }
  | some (mseptr, _) =>
    { s with clients := s.clients ++ [{ cptr with host := mseptr.host, hhash := mseptr.hash }] }

/-- `m_spoof_hook_remote` for a new client. -/
def newRemote (s : State) (cptr : Client) : State :=
  match s.mSpoofFindIp cptr.ip with
  | none => { s with clients := s.clients ++ [cptr] }
  | some (mseptr, place) =>
    { s with clients := s.clients ++ [{ cptr with host := mseptr.host, hhash := mseptr.hash }] }
      |>.mSpoofDelete place

end State

/-- A section of the database, as far as `m_spoof_loaddb` can read it, and what is in the
block that a new entry for it gets. -/
structure Section where
  ip : BitVec 32
  ts : BitVec 64
  host : CString
  stale : Stale

namespace State

/-- The body of the loop of `m_spoof_loaddb`. -/
def loadSection (s : State) (isptr : Section) : State :=
  let host := strlcpy isptr.host hostLen
  match s.mSpoofFindIp isptr.ip with
  | some (mseptr, place) => s.setEntry place { mseptr with host := host, hash := strIhash host }
  | none => s.mSpoofNew isptr.ip isptr.ts host isptr.stale

/-- `m_spoof_loaddb`. -/
def mSpoofLoaddb (s : State) (sections : List Section) : State :=
  sections.foldl loadSection s

/-- `ms_spoof` for a client that is found. -/
def msSpoof (s : State) (client : Nat) (ts : BitVec 64) (arg : CString) (stale : Stale) : State :=
  match s.clients[client]? with
  | none => s
  | some acptr =>
    let host := strlcpy arg (hostLen + 1)
    let s := s.setClient client { acptr with host := host, hhash := strIhash host }
    if acptr.isLocal then
      match s.mSpoofFindIp acptr.ip with
      | none => s.mSpoofNew acptr.ip ts arg stale
      | some (mseptr, place) =>
        s.setEntry place
          { mseptr with hash := strIhash host, ts := ts, host := strlcpy arg hostLen }
    else s

end State

/-- Neither hash nor text of the name is that of the real host or the address of the user. -/
def Client.Foreign (cptr : Client) (host : CString) : Prop :=
  strIhash host ≠ cptr.ihash ∧ strIhash host ≠ cptr.rhash ∧ host ≠ cptr.hostip ∧
    host ≠ cptr.hostreal

instance (cptr : Client) (host : CString) : Decidable (cptr.Foreign host) :=
  inferInstanceAs (Decidable (_ ∧ _))

/-- What `m_spoof` tells the user. -/
inductive Reply where
  | invalid
  | same
  | lame
  | taken
  | spoofed
  deriving DecidableEq

/-- The host name that a `SPOOF` asks for. -/
def hostOf (arg : CString) : CString :=
  strlcpy arg hostLen

namespace State

/-- `m_spoof` of a user at a place in the list; it has no result where it follows the null
pointer. -/
def mSpoof (s : State) (client : Nat) (cptr : Client) (arg : CString) (now : BitVec 64)
    (stale : Stale) : Option (State × Reply) :=
  let host := hostOf arg
  let hash := strIhash host
  let spoofed (s : State) : Option (State × Reply) :=
    some (s.setClient client { cptr with host := host, hhash := hash }, .spoofed)
  if charsValidHost host = false then some (s, .invalid)
  else if cptr.hhash = hash ∧ cptr.host = host then some (s, .same)
  else
    match s.mSpoofFindIp cptr.ip with
    | some (mseptr, place) =>
      let other := cptr.Foreign host ∧ hash ≠ mseptr.hash ∧ host ≠ mseptr.host
      if now < mseptr.ts + spooftime ∧ other then
        some (if mseptr.waslame = 0 then s.setEntry place { mseptr with waslame := 1 } else s,
          .lame)
      else
        let mseptr :=
          if now < mseptr.ts + spooftime then mseptr else { mseptr with ts := now, waslame := 0 }
        let mseptr := if other then { mseptr with hash := hash, host := host } else mseptr
        spoofed (s.setEntry place mseptr)
    | none =>
      if cptr.Foreign host then
        match s.clientFindHost host with
        | none =>
          -- The address of the client that was not found would be read.
          if (s.mSpoofFindHost host).isSome then none
          else spoofed (s.mSpoofNew cptr.ip now host stale)
        | some (acptr, place) =>
          if (place ≠ client ∨ (s.mSpoofFindHost host).isSome) ∧ cptr.ip ≠ acptr.ip then
            some (s, .taken)
          else spoofed (s.mSpoofNew cptr.ip now host stale)
      else spoofed (s.mSpoofNew cptr.ip now host stale)

end State

/-- What happens to entries and clients. -/
inductive Event where
  | spoof (client : Nat) (arg : CString) (now : BitVec 64) (stale : Stale)
  | newLocal (ip : BitVec 32) (host hostip : CString)
  | newRemote (ip : BitVec 32) (host hostip : CString)
  | msSpoof (client : Nat) (ts : BitVec 64) (arg : CString) (stale : Stale)
  | exit (client : Nat)
  | cleanup (now : BitVec 64)
  | loaddb (sections : List Section)

namespace State

/-- One event; a `SPOOF` comes from a local user. -/
def step (s : State) : Event → Option State
  | .spoof client arg now stale =>
    match s.clients[client]? with
    | none => some s
    | some cptr =>
      if cptr.isLocal then (s.mSpoof client cptr arg now stale).map Prod.fst else some s
  | .newLocal ip host hostip => some (s.newLocal (clientNewLocal ip host hostip))
  | .newRemote ip host hostip => some (s.newRemote (clientNewRemote ip host hostip))
  | .msSpoof client ts arg stale => some (s.msSpoof client ts arg stale)
  | .exit client => some (s.exit client)
  | .cleanup now => some (s.mSpoofCleanup now)
  | .loaddb sections => some (s.mSpoofLoaddb sections)

/-! ## What a command should do -/

/-- The name is that of an entry or of a user of another address. -/
def Taken (s : State) (ip : BitVec 32) (host : CString) : Prop :=
  (∃ mseptr ∈ s.entries, mseptr.ip ≠ ip ∧ IcmpEq mseptr.host host) ∨
    ∃ cptr ∈ s.clients, cptr.ip ≠ ip ∧ IcmpEq cptr.host host

/-- A `SPOOF` comes to an end, and a user who is given a name has a name then that is
nobody's. -/
def Unique (s : State) : Event → Prop
  | .spoof client arg now stale =>
    ∀ cptr, s.clients[client]? = some cptr → cptr.isLocal →
      ∃ s' reply, s.mSpoof client cptr arg now stale = some (s', reply) ∧
        (reply = .spoofed →
          ∃ given, s'.clients[client]? = some given ∧ ¬ s'.Taken given.ip given.host)
  | _ => True

/-! ## The condition -/

/-- The two ways in which a `SPOOF` can be refused. -/
def Refused (s : State) (cptr : Client) (host : CString) (now : BitVec 64) : Prop :=
  cptr.Foreign host ∧
    match s.mSpoofFindIp cptr.ip with
    | some (mseptr, _) =>
      now < mseptr.ts + spooftime ∧ strIhash host ≠ mseptr.hash ∧ host ≠ mseptr.host
    | none => ∃ acptr place, s.clientFindHost host = some (acptr, place) ∧ acptr.ip ≠ cptr.ip

/-- The condition on an event: who asks for a valid name that is another's is refused. -/
def Fits (s : State) : Event → Prop
  | .spoof client arg now _ =>
    ∀ cptr, s.clients[client]? = some cptr → cptr.isLocal →
      charsValidHost (hostOf arg) → ¬ (cptr.hhash = strIhash (hostOf arg) ∧
        cptr.host = hostOf arg) → s.Taken cptr.ip (hostOf arg) →
        s.Refused cptr (hostOf arg) now
  | _ => True

/-! ## Lookups -/

variable {s : State} {ip : BitVec 32} {host : CString}

theorem mSpoofFindIp_eq_some {mseptr : MSpoofEntry} {place : Nat}
    (found : s.mSpoofFindIp ip = some (mseptr, place)) :
    s.entries[place]? = some mseptr ∧ mseptr.ip = ip := by
  constructor
  · exact List.mem_zipIdx_iff_getElem?.mp (List.mem_of_find?_eq_some found)
  · simpa using List.find?_some found

theorem mSpoofFindIp_eq_none (missing : s.mSpoofFindIp ip = none) :
    ∀ mseptr ∈ s.entries, mseptr.ip ≠ ip := by
  intro mseptr mem
  obtain ⟨place, found⟩ := List.mem_iff_getElem?.mp mem
  have listed : (mseptr, place) ∈ s.entries.zipIdx := List.mem_zipIdx_iff_getElem?.mpr found
  simpa using List.find?_eq_none.mp missing _ listed

theorem mSpoofFindHost_eq_some {mseptr : MSpoofEntry}
    (found : s.mSpoofFindHost host = some mseptr) :
    mseptr ∈ s.entries ∧ IcmpEq mseptr.host host := by
  have matched := List.find?_some found
  simp only [Bool.and_eq_true, decide_eq_true_eq] at matched
  exact ⟨List.mem_of_find?_eq_some found, matched.2⟩

theorem clientFindHost_eq_some {acptr : Client} {place : Nat}
    (found : s.clientFindHost host = some (acptr, place)) :
    s.clients[place]? = some acptr :=
  List.mem_zipIdx_iff_getElem?.mp (List.mem_of_find?_eq_some found)

/-! ## What a command leaves as it is -/

theorem exists_mem_set_iff {α : Type*} {p : α → Prop} {l : List α} {i : Nat} {a b : α}
    (found : l[i]? = some a) (old : ¬ p a) (new : ¬ p b) :
    (∃ x ∈ l.set i b, p x) ↔ ∃ x ∈ l, p x := by
  induction l generalizing i with
  | nil => simp
  | cons first rest induction =>
      cases i with
      | zero =>
          cases found
          simp [old, new]
      | succ i => simp [induction (i := i) (by simpa using found)]

/-- An entry of the address does not make a name taken for the address. -/
theorem taken_setEntry {place : Nat} {mseptr mseptr' : MSpoofEntry}
    (found : s.entries[place]? = some mseptr) (old : mseptr.ip = ip) (new : mseptr'.ip = ip) :
    (s.setEntry place mseptr').Taken ip host ↔ s.Taken ip host :=
  or_congr_left (exists_mem_set_iff found (fun other => other.1 old) fun other => other.1 new)

theorem taken_setClient {client : Nat} {cptr cptr' : Client}
    (found : s.clients[client]? = some cptr) (old : cptr.ip = ip) (new : cptr'.ip = ip) :
    (s.setClient client cptr').Taken ip host ↔ s.Taken ip host :=
  or_congr_right (exists_mem_set_iff found (fun other => other.1 old) fun other => other.1 new)

theorem taken_mSpoofNew (ts : BitVec 64) (name : CString) (stale : Stale) :
    (s.mSpoofNew ip ts name stale).Taken ip host ↔ s.Taken ip host := by
  refine or_congr_left ⟨?_, ?_⟩
  · rintro ⟨mseptr, mem, other, named⟩
    rcases List.mem_append.mp mem with mem | mem
    · exact ⟨mseptr, mem, other, named⟩
    · rw [List.mem_singleton.mp mem] at other
      exact absurd rfl other
  · rintro ⟨mseptr, mem, rest⟩
    exact ⟨mseptr, List.mem_append_left _ mem, rest⟩

/-! ## Commands -/

variable {client : Nat} {cptr : Client} {arg : CString} {now : BitVec 64}

/-- The user is given the name, and what is taken stays so. -/
def Given (s : State) (client : Nat) (cptr : Client) (host : CString)
    (result : Option (State × Reply)) : Prop :=
  ∃ s', result = some (s', .spoofed) ∧
    (∃ given, s'.clients[client]? = some given ∧ given.ip = cptr.ip ∧ given.host = host) ∧
    (s'.Taken cptr.ip host ↔ s.Taken cptr.ip host)

/-- The user is given the name after a change of the entries. -/
theorem given_setClient (s' : State) (present : s.clients[client]? = some cptr)
    (clients : s'.clients = s.clients)
    (entries : s'.Taken cptr.ip host ↔ s.Taken cptr.ip host) :
    Given s client cptr host
      (some (s'.setClient client { cptr with host := host, hhash := strIhash host },
        .spoofed)) := by
  have present' : s'.clients[client]? = some cptr := by rw [clients, present]
  obtain ⟨inside, _⟩ := List.getElem?_eq_some_iff.mp present'
  refine ⟨_, rfl, ⟨_, List.getElem?_set_self inside, rfl, rfl⟩, ?_⟩
  have named := @taken_setClient s' cptr.ip host client cptr
    { cptr with host := host, hhash := strIhash host } present' rfl rfl
  exact named.trans entries

/-- A command that is refused gives no name. -/
theorem mSpoof_of_refused (stale : Stale) (present : s.clients[client]? = some cptr)
    (valid : charsValidHost (hostOf arg))
    (differs : ¬ (cptr.hhash = strIhash (hostOf arg) ∧ cptr.host = hostOf arg))
    (refused : s.Refused cptr (hostOf arg) now) :
    ∃ s' reply, s.mSpoof client cptr arg now stale = some (s', reply) ∧ reply ≠ .spoofed := by
  obtain ⟨foreign, refused⟩ := refused
  unfold mSpoof
  dsimp only
  rw [if_neg (by simp [valid]), if_neg differs]
  cases own : s.mSpoofFindIp cptr.ip with
  | some entry =>
      obtain ⟨mseptr, place⟩ := entry
      simp only [own] at refused ⊢
      rw [if_pos ⟨refused.1, foreign, refused.2⟩]
      exact ⟨_, _, rfl, nofun⟩
  | none =>
      simp only [own] at refused ⊢
      obtain ⟨acptr, place, found, apart⟩ := refused
      have there := clientFindHost_eq_some found
      have other : place ≠ client := by
        rintro rfl
        rw [present] at there
        cases there
        exact apart rfl
      simp only [found]
      rw [if_pos foreign, if_pos ⟨.inl other, apart.symm⟩]
      exact ⟨_, _, rfl, nofun⟩

/-- A command that is not refused gives the name, or it follows the null pointer for a name
that is an entry's. -/
theorem mSpoof_of_not_refused (stale : Stale) (present : s.clients[client]? = some cptr)
    (valid : charsValidHost (hostOf arg))
    (differs : ¬ (cptr.hhash = strIhash (hostOf arg) ∧ cptr.host = hostOf arg))
    (allowed : ¬ s.Refused cptr (hostOf arg) now) :
    s.mSpoof client cptr arg now stale = none ∧ s.Taken cptr.ip (hostOf arg) ∨
      Given s client cptr (hostOf arg) (s.mSpoof client cptr arg now stale) := by
  unfold Refused at allowed
  unfold mSpoof
  dsimp only
  rw [if_neg (by simp [valid]), if_neg differs]
  cases own : s.mSpoofFindIp cptr.ip with
  | some entry =>
      obtain ⟨mseptr, place⟩ := entry
      obtain ⟨there, same⟩ := mSpoofFindIp_eq_some own
      simp only [own] at allowed ⊢
      rw [if_neg (fun early => allowed ⟨early.2.1, early.1, early.2.2⟩)]
      refine .inr (given_setClient _ present rfl (taken_setEntry there same ?_))
      split <;> split <;> exact same
  | none =>
      simp only [own] at allowed ⊢
      by_cases foreign : cptr.Foreign (hostOf arg)
      · rw [if_pos foreign]
        cases found : s.clientFindHost (hostOf arg) with
        | none =>
            dsimp only
            cases entry : s.mSpoofFindHost (hostOf arg) with
            | none =>
                rw [if_neg (by simp)]
                exact .inr (given_setClient _ present rfl (taken_mSpoofNew _ _ _))
            | some mseptr =>
                obtain ⟨mem, named⟩ := mSpoofFindHost_eq_some entry
                refine .inl ⟨rfl, .inl ⟨mseptr, mem, ?_, named⟩⟩
                exact mSpoofFindIp_eq_none own mseptr mem
        | some user =>
            obtain ⟨acptr, place⟩ := user
            have near : acptr.ip = cptr.ip := by
              by_contra apart
              exact allowed ⟨foreign, acptr, place, found, apart⟩
            dsimp only
            rw [if_neg (fun taken => taken.2 near.symm)]
            exact .inr (given_setClient _ present rfl (taken_mSpoofNew _ _ _))
      · rw [if_neg foreign]
        exact .inr (given_setClient _ present rfl (taken_mSpoofNew _ _ _))

/-- A command does what it should if and only if it meets the condition. -/
theorem unique_iff_fits (s : State) (event : Event) : s.Unique event ↔ s.Fits event := by
  cases event with
  | spoof client arg now stale =>
      unfold Unique Fits
      refine forall_congr' fun cptr => forall_congr' fun present => forall_congr' fun own => ?_
      by_cases valid : charsValidHost (hostOf arg)
      · by_cases same : cptr.hhash = strIhash (hostOf arg) ∧ cptr.host = hostOf arg
        · refine iff_of_true ⟨s, .same, ?_, nofun⟩ fun _ differs => absurd same differs
          unfold mSpoof
          dsimp only
          rw [if_neg (by simp [valid]), if_pos same]
        · simp only [valid, same, not_false_eq_true, forall_const]
          by_cases refused : s.Refused cptr (hostOf arg) now
          · obtain ⟨s', reply, result, refusal⟩ :=
              mSpoof_of_refused stale present valid same refused
            exact iff_of_true ⟨s', reply, result, fun spoofed => absurd spoofed refusal⟩
              fun _ => refused
          · simp only [refused, imp_false]
            rcases mSpoof_of_not_refused stale present valid same refused with
              ⟨crash, taken⟩ | ⟨s', result, ⟨given, there, address, name⟩, kept⟩
            · rw [crash]
              exact iff_of_false (fun ⟨_, _, result, _⟩ => nomatch result) (not_not.mpr taken)
            · rw [result, ← kept]
              constructor
              · rintro ⟨_, _, same', free⟩
                cases same'
                obtain ⟨_, there', free⟩ := free rfl
                rw [there] at there'
                cases there'
                rwa [address, name] at free
              · intro free
                refine ⟨s', .spoofed, rfl, fun _ => ⟨given, there, ?_⟩⟩
                rwa [address, name]
      · refine iff_of_true ⟨s, .invalid, ?_, nofun⟩ fun valid' => absurd valid' valid
        unfold mSpoof
        dsimp only
        rw [if_pos (by simpa using valid)]
  | newLocal | newRemote | msSpoof | exit | cleanup | loaddb => exact Iff.rfl

/-- Every `SPOOF` of a run does what it should if and only if every one of them meets the
condition. -/
theorem unique_run_iff (s : State) (events : List Event) :
    TransitionSystem.GuardedRun step Unique s events ↔
      TransitionSystem.GuardedRun step Fits s events := by
  constructor
  · exact TransitionSystem.GuardedRun.mono fun s event => (unique_iff_fits s event).mp
  · exact TransitionSystem.GuardedRun.mono fun s event => (unique_iff_fits s event).mpr

end State

/-- Somebody's entry is loaded twice, so that it has its hash, and another user comes. -/
def loadedTwice : List Event :=
  [.loaddb [⟨1, 0, "a.b".toList, ⟨0, 0⟩⟩], .loaddb [⟨1, 0, "a.b".toList, ⟨0, 0⟩⟩],
    .newLocal 2 "c.d".toList "0.0.0.2".toList]

/-- When he asks for the name, the command follows the null pointer. -/
theorem loadedTwice_follows_null :
    ¬ TransitionSystem.GuardedRun State.step State.Unique ⟨[], []⟩
      (loadedTwice ++ [.spoof 0 "a.b".toList 1 ⟨0, 0⟩]) := by
  intro unique
  let user := clientNewLocal 2 "c.d".toList "0.0.0.2".toList
  let s : State := ⟨[⟨1, 0, "a.b".toList, strIhash "a.b".toList, 0⟩], [user]⟩
  have reached : TransitionSystem.run State.step ⟨[], []⟩ loadedTwice = some s := by
    decide +kernel
  have crash : s.mSpoof 0 user "a.b".toList 1 ⟨0, 0⟩ = none := by
    decide +kernel
  obtain ⟨asked, _⟩ := unique.of_append.2 s reached
  obtain ⟨_, _, result, _⟩ := asked user rfl rfl
  rw [crash] at result
  cases result

end SpoofEntries

end Chaosircd
