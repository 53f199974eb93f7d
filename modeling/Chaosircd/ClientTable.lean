import Chaosircd.Daemon
import Chaosircd.KeyedList
import Mathlib.Tactic.SplitIfs

/-!
# The client table and its nick index

Clients are found by nick through thirty-two hash buckets.  Every operation
that names a client relinks it: a rename unlinks the client from the bucket of
its old hash and links it at the head of the bucket of the new one, and the
operations that create or delete a user link or unlink it once.  A rename also
stamps the client with the server's own clock.
-/

namespace Chaosircd

namespace History

/-- The test of `client_history_find`. -/
def Matches (hptr : History) (nick : CString) : Prop :=
  hptr.nick ≠ [] ∧ hptr.hash = strIhash nick ∧ IcmpEq hptr.nick nick

instance (hptr : History) (nick : CString) : Decidable (hptr.Matches nick) :=
  inferInstanceAs (Decidable (_ ∧ _))

end History

namespace Client

/-- The test of `client_find_nick`. -/
def Answers (cptr : Client) (nick : CString) : Prop :=
  cptr.name ≠ [] ∧ cptr.hash = strIhash nick ∧ IcmpEq cptr.name nick

instance (cptr : Client) (nick : CString) : Decidable (cptr.Answers nick) :=
  inferInstanceAs (Decidable (_ ∧ _))

end Client

namespace Client

/-- The fields that `client_set_name` writes in the client record. -/
def rename (cptr : Client) (name : CString) (clock : Nat) : Client :=
  { cptr with
    name := strlcpy name (hostLen + 1)
    hash := strIhash (strlcpy name (hostLen + 1))
    ts := clock }

end Client

namespace Ircd

/-- `client_find_nick`. -/
def clientFindNick (ircd : Ircd) (nick : CString) : Option Client :=
  (ircd.clientListsn (strIhash nick % clientHashSize)).findSome? fun id =>
    (ircd.client? id).filter fun cptr => cptr.Answers nick

/-- `client_history_find`. -/
def clientHistoryFind (ircd : Ircd) (nick : CString) : Option History :=
  (ircd.clientHistory (strIhash nick % clientHashSize)).find? fun hptr =>
    hptr.Matches nick

/-- `client_find_nickh`: the nick history answers when no client does. -/
def clientFindNickh (ircd : Ircd) (nick : CString) : Option Client :=
  match ircd.clientFindNick nick with
  | some acptr => some acptr
  | none => (ircd.clientHistoryFind nick).bind fun hptr =>
      ircd.client? hptr.client

/-- `client_history_add`. -/
def clientHistoryAdd (ircd : Ircd) (id : Nat) (nick : CString) : Ircd :=
  let hash := strIhash nick
  let stored := strlcpy nick (nickLen + 1)
  { ircd with
    clientHistory := fun bucket =>
      let entries := ircd.clientHistory bucket
      if bucket = hash % clientHashSize then
        match entries.findIdx? fun hptr => hptr.Matches nick with
        | some index => entries.modify index fun hptr =>
            { hptr with client := id, nick := stored }
        | none => ⟨stored, hash, id⟩ ::
            (if entries.length = clientHistorySize then entries.dropLast
             else entries)
      else entries }

/-- `client_history_clean`.  The walk through a bucket ends with the first entry
that it deletes, since `dlink_delete` clears the link to the next one. -/
def clientHistoryClean (ircd : Ircd) (id : Nat) : Ircd :=
  { ircd with
    clientHistory := fun bucket =>
      (ircd.clientHistory bucket).eraseP fun hptr => hptr.client = id }

/-- `client_set_name`. -/
def clientSetName (ircd : Ircd) (id : Nat) (name : CString) : Ircd :=
  match ircd.client? id with
  | none => ircd
  | some cptr =>
      let unlinked :=
        if cptr.IsUser then
          let unlinked := ircd.unlinkNick cptr.hash id
          if cptr.name ≠ [] then unlinked.clientHistoryAdd id cptr.name
          else unlinked
        else ircd
      let renamed := unlinked.updateClient id (·.rename name ircd.systime)
      let renamed :=
        if cptr.isLocal then
          renamed.updateLclient cptr.source (·.setName name)
        else renamed
      if cptr.IsUser then
        renamed.linkNick (cptr.rename name ircd.systime).hash id
      else renamed

/-- Assigning `cptr->ts`. -/
def setTs (ircd : Ircd) (id : Nat) (ts : Nat) : Ircd :=
  ircd.updateClient id fun cptr => { cptr with ts := ts }

/-- The user records of the daemon with their `uptr->client`: those of the
registered clients and those of connections that are still registering. -/
def userList (ircd : Ircd) : List (User × Option Nat) :=
  ircd.clients.filterMap
      (fun cptr => match cptr.kind with
        | .user user => some (user, some cptr.id)
        | .server _ => none) ++
    ircd.lclients.filterMap fun lcptr =>
      if lcptr.type = .unknown then lcptr.user.map fun user => (user, none)
      else none

/-- `user_find_uid`. -/
def userFindUid (ircd : Ircd) (uid : CString) : Option (User × Option Nat) :=
  ircd.userList.find? fun entry => entry.1.uid = strlcpy uid (idLen + 1)

/-- `client_find_uid`. -/
def clientFindUid (ircd : Ircd) (uid : CString) : Option Client :=
  (ircd.userFindUid uid).bind fun entry => entry.2.bind ircd.client?

/-- `server_find_name`. -/
def serverFindName (ircd : Ircd) (name : CString) : Option Client :=
  ircd.clients.find? fun cptr =>
    (cptr.serverName.map fun own => decide (IcmpEq own name)) = some true

/-- `lclient_prefix`: who a line received on the connection is from. -/
def lclientPrefix (ircd : Ircd) (lcptr : Lclient) (pfx : CString) :
    Option Client :=
  match (if lcptr.capUid then ircd.userFindUid pfx else none) with
  | some entry => entry.2.bind ircd.client?
  | none =>
      match ircd.serverFindName pfx with
      | some sptr => some sptr
      | none => ircd.clientFindNick pfx

/-- Linking a new client block to the lists it belongs to. -/
def linkClient (ircd : Ircd) (cptr : Client) : Ircd :=
  let linked :=
    { ircd with
      clients := ircd.clients ++ [cptr], clientId := ircd.clientId + 1 }
  if cptr.IsUser then linked.linkNick cptr.hash cptr.id else linked

/-- `client_new_local`, with the record that `cptr->user` or `cptr->server` is
set to. -/
def clientNewLocal (ircd : Ircd) (kind : ClientKind) (lcptr : Lclient) :
    Ircd :=
  let name := strlcpy lcptr.name (hostLen + 1)
  let cptr : Client :=
    { id := ircd.clientId, isLocal := true, kind := kind, source := lcptr.id,
      origin := some ircd.clientMe, name := name, hash := strIhash name,
      ts := ircd.systime }
  let type := if cptr.IsUser then LclientType.user else LclientType.server
  (ircd.updateLclient lcptr.id fun lcptr =>
    { lcptr with type := type, client := some ircd.clientId }).linkClient cptr

/-- `client_new_remote`; the caller has set `ts` when the record is next
looked at. -/
def clientNewRemote (ircd : Ircd) (kind : ClientKind) (source origin : Nat)
    (name : CString) (ts : Nat) : Ircd :=
  let name := strlcpy name (hostLen + 1)
  ircd.linkClient
    { id := ircd.clientId, isLocal := false, kind := kind, source := source,
      origin := some origin, name := name, hash := strIhash name, ts := ts }

/-- `client_delete`. -/
def clientDelete (ircd : Ircd) (id : Nat) : Ircd :=
  match ircd.client? id with
  | none => ircd
  | some cptr =>
      let unlinked :=
        if cptr.IsUser then ircd.unlinkNick cptr.hash id else ircd
      { unlinked with
        clients := (ircd.clients.filter fun other => other.id ≠ id).map
          fun other =>
            if cptr.IsServer ∧ other.origin = some id then
              { other with origin := none }
            else other
        lclients := ircd.lclients.map fun lcptr =>
          if lcptr.client = some id then
            { lcptr with client := none, user := none }
          else lcptr }

/-- `client_nick_rotate`: the only candidate is the name turned by one
character; its return value `-1` is no result. -/
def clientNickRotate (ircd : Ircd) (name : CString) : Option CString :=
  match name with
  | first :: second :: rest =>
      let candidate := (second :: rest) ++ [first]
      if ircd.clientFindNick candidate = none then some candidate else none
  | _ => none

/-! ## What the operations leave in the table -/

theorem id_of_client? {ircd : Ircd} {id : Nat} {cptr : Client}
    (found : ircd.client? id = some cptr) : cptr.id = id := by
  simpa using List.find?_some found

theorem mem_of_client? {ircd : Ircd} {id : Nat} {cptr : Client}
    (found : ircd.client? id = some cptr) : cptr ∈ ircd.clients :=
  List.mem_of_find?_eq_some found

/-- Under distinct identifiers every client is behind its own pointer. -/
theorem client?_of_mem {ircd : Ircd}
    (distinct : (ircd.clients.map Client.id).Nodup) {cptr : Client}
    (member : cptr ∈ ircd.clients) : ircd.client? cptr.id = some cptr :=
  (KeyedList.find?_eq_some_iff distinct).mpr ⟨member, rfl⟩

theorem mem_of_clientFindNick {ircd : Ircd} {nick : CString} {cptr : Client}
    (found : ircd.clientFindNick nick = some cptr) : cptr ∈ ircd.clients := by
  obtain ⟨id, -, hit⟩ := List.exists_of_findSome?_eq_some found
  obtain ⟨shown, -⟩ := Option.filter_eq_some_iff.mp hit
  exact mem_of_client? shown

theorem mem_of_clientFindUid {ircd : Ircd} {uid : CString} {cptr : Client}
    (found : ircd.clientFindUid uid = some cptr) : cptr ∈ ircd.clients := by
  obtain ⟨entry, -, shown⟩ := Option.bind_eq_some_iff.mp found
  obtain ⟨id, -, shown⟩ := Option.bind_eq_some_iff.mp shown
  exact mem_of_client? shown

theorem mem_of_serverFindName {ircd : Ircd} {name : CString} {cptr : Client}
    (found : ircd.serverFindName name = some cptr) : cptr ∈ ircd.clients :=
  List.mem_of_find?_eq_some found

theorem mem_of_lclientPrefix {ircd : Ircd} {lcptr : Lclient} {pfx : CString}
    {cptr : Client} (found : ircd.lclientPrefix lcptr pfx = some cptr) :
    cptr ∈ ircd.clients := by
  unfold lclientPrefix at found
  split at found
  · obtain ⟨id, -, shown⟩ := Option.bind_eq_some_iff.mp found
    exact mem_of_client? shown
  · split at found
    · rename_i sptr named
      cases found
      exact mem_of_serverFindName named
    · exact mem_of_clientFindNick found

/-- Writing through a client pointer changes what the pointer shows. -/
theorem client?_updateClient_self (ircd : Ircd) (id : Nat)
    {change : Client → Client} (keepsId : ∀ cptr, (change cptr).id = cptr.id) :
    (ircd.updateClient id change).client? id =
      (ircd.client? id).map change := by
  have sameTest : ((fun cptr : Client => decide (cptr.id = id)) ∘
      fun cptr => if cptr.id = id then change cptr else cptr) =
        fun cptr => decide (cptr.id = id) := by
    funext cptr
    by_cases isId : cptr.id = id <;> simp [isId, keepsId]
  rw [client?, updateClient, List.find?_map, sameTest, client?]
  cases found : ircd.clients.find? fun cptr => decide (cptr.id = id) with
  | none => rfl
  | some cptr =>
      have isId : cptr.id = id := by simpa using List.find?_some found
      simp [isId]

/-- Assigning a time stamp shows in the record. -/
theorem client?_setTs {ircd : Ircd} {id : Nat} {cptr : Client}
    (found : ircd.client? id = some cptr) (ts : Nat) :
    (ircd.setTs id ts).client? id = some { cptr with ts := ts } := by
  rw [setTs, client?_updateClient_self _ _ (by intro; rfl), found]
  rfl

/-- A rename writes the client record and no other record of the table. -/
theorem clients_clientSetName {ircd : Ircd} {id : Nat} {cptr : Client}
    (found : ircd.client? id = some cptr) (name : CString) :
    (ircd.clientSetName id name).clients =
      (ircd.updateClient id (·.rename name ircd.systime)).clients := by
  simp only [clientSetName, found]
  split_ifs <;> rfl

/-- A rename stores the truncated name and the server's own clock. -/
theorem client?_clientSetName {ircd : Ircd} {id : Nat} {cptr : Client}
    (found : ircd.client? id = some cptr) (name : CString) :
    (ircd.clientSetName id name).client? id =
      some (cptr.rename name ircd.systime) := by
  rw [client?, clients_clientSetName found, ← client?,
    client?_updateClient_self _ _ (by intro; rfl), found]
  rfl

end Ircd

end Chaosircd
