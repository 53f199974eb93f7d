import Chaosircd.NickMerge
import Chaosircd.NickUniqueness

/-!
# Two servers that introduce their users to each other

When two servers link, each sends the other one `NUSER` for every user it knows.
The lines travel over a connection that keeps their order, and each server
handles what it receives when it comes to it; what it answers is queued behind
its own lines.
-/

namespace Chaosircd

/-- The fields of `NUSER` that the other side stores or passes on only. -/
structure BurstFields where
  hops : CString
  modes : CString
  hostreal : CString
  hostip : CString
  info : CString

namespace Ircd

/-- `client_burst`, for a server that knows user identifiers. -/
def clientBurst (ircd : Ircd) (acptr : Client) (fields : BurstFields) : Line :=
  let user := match acptr.kind with
    | .user user => user.name
    | .server _ => []
  let origin := ((acptr.origin.bind ircd.client?).map Client.name).getD []
  ⟨none, "NUSER".toList, [acptr.name, fields.hops, formatLu acptr.ts,
    fields.modes, user, fields.hostreal, fields.hostip, origin, acptr.uid,
    fields.info]⟩

/-- A line of a server link goes to its handler. -/
def receive (ircd : Ircd) (l : Nat) (line : Line) (randomNick : CString) :
    Ircd × List Send :=
  match ircd.serverLine l line.pfx with
  | none => (ircd, [])
  | some (lcptr, cptr) =>
      if line.command = "NUSER".toList then
        ircd.msNuser lcptr.id cptr line.args randomNick
      else if line.command = "NBOUNCE".toList then
        ircd.msNbounce lcptr cptr line.args
      else (ircd, [])

theorem receive_nuser {ircd : Ircd} {l : Nat} {pfx : Option CString} {lcptr : Lclient}
    {cptr : Client} (found : ircd.serverLine l pfx = some (lcptr, cptr)) (args : List CString)
    (randomNick : CString) :
    ircd.receive l ⟨pfx, "NUSER".toList, args⟩ randomNick =
      ircd.msNuser lcptr.id cptr args randomNick := by
  rw [receive, found]
  exact if_pos rfl

theorem receive_nbounce {ircd : Ircd} {l : Nat} {pfx : Option CString} {lcptr : Lclient}
    {cptr : Client} (found : ircd.serverLine l pfx = some (lcptr, cptr)) (args : List CString)
    (randomNick : CString) :
    ircd.receive l ⟨pfx, "NBOUNCE".toList, args⟩ randomNick =
      ircd.msNbounce lcptr cptr args := by
  have notNuser : ("NBOUNCE".toList : CString) ≠ "NUSER".toList := by decide
  rw [receive, found]
  exact (if_neg notNuser).trans (if_pos rfl)

end Ircd

/-- Two servers and the lines that each of them has yet to receive from the
other one. -/
structure ServerLink where
  ircd : Bool → Ircd
  inbox : Bool → List Line

namespace ServerLink

/-- A server handles the next line: the side, its clock, and the nick that the
loop of `client_nick_random` would end with. -/
structure Delivery where
  side : Bool
  systime : Nat
  randomNick : CString

/-- One delivery, over the connections `link`. -/
def step (link : Bool → Nat) (pair : ServerLink) (delivery : Delivery) :
    Option ServerLink :=
  let side := delivery.side
  match pair.inbox side with
  | [] => some pair
  | line :: rest =>
      let result := Ircd.receive
        { pair.ircd side with systime := delivery.systime } (link side) line
        delivery.randomNick
      let answers := (result.2.filter fun send =>
        send.lclient = link side).map Send.line
      some
        { ircd := Function.update pair.ircd side result.1
          inbox := Function.update (Function.update pair.inbox side rest)
            (!side) (pair.inbox (!side) ++ answers) }

end ServerLink

/-! ## The servers and connections stay -/

/-- What a connection keeps while users are renamed. -/
def Lclient.role (lcptr : Lclient) :
    Nat × LclientType × Bool × Option Nat × Option User :=
  (lcptr.id, lcptr.type, lcptr.capUid, lcptr.client, lcptr.user)

namespace Ircd

/-- Both states have the same servers and connections. -/
structure SameServers (ircd next : Ircd) : Prop where
  servers : next.clients.filter (fun cptr => cptr.IsServer) =
    ircd.clients.filter fun cptr => cptr.IsServer
  lclients : next.lclients.map Lclient.role = ircd.lclients.map Lclient.role
  lclientMe : next.lclientMe = ircd.lclientMe
  clientMe : next.clientMe = ircd.clientMe

theorem SameServers.refl (ircd : Ircd) : ircd.SameServers ircd :=
  ⟨rfl, rfl, rfl, rfl⟩

theorem SameServers.trans {ircd middle next : Ircd}
    (first : ircd.SameServers middle) (second : middle.SameServers next) :
    ircd.SameServers next :=
  ⟨second.servers.trans first.servers, second.lclients.trans first.lclients,
    second.lclientMe.trans first.lclientMe, second.clientMe.trans first.clientMe⟩

variable {ircd next : Ircd}

theorem serverFindName_eq (ircd : Ircd) (name : CString) :
    ircd.serverFindName name =
      (ircd.clients.filter fun cptr => cptr.IsServer).find? fun cptr =>
        (cptr.serverName.map fun own => decide (IcmpEq own name)) =
          some true := by
  rw [serverFindName, List.find?_filter]
  congr 1
  funext cptr
  cases isKind : cptr.kind <;>
    simp [Client.serverName, Client.IsServer, Client.IsUser, ClientKind.isUser,
      isKind]

theorem SameServers.serverFindName (same : ircd.SameServers next)
    (name : CString) : next.serverFindName name = ircd.serverFindName name := by
  rw [serverFindName_eq, serverFindName_eq, same.servers]

/-- A server is behind its pointer in both states. -/
theorem SameServers.client? (same : ircd.SameServers next)
    (distinct : (next.clients.map Client.id).Nodup) {cptr : Client}
    (member : cptr ∈ ircd.clients) (isServer : cptr.IsServer) :
    next.client? cptr.id = some cptr := by
  apply client?_of_mem distinct
  have inServers : cptr ∈ ircd.clients.filter fun cptr => cptr.IsServer :=
    List.mem_filter.mpr ⟨member, by simpa using isServer⟩
  rw [← same.servers] at inServers
  exact List.mem_of_mem_filter inServers

/-- A connection keeps its role. -/
theorem SameServers.lclient? (same : ircd.SameServers next) {l : Nat}
    {lcptr : Lclient} (found : ircd.lclient? l = some lcptr) :
    ∃ lcptr', next.lclient? l = some lcptr' ∧ lcptr'.role = lcptr.role := by
  have role : ∀ ircd : Ircd, (ircd.lclient? l).map Lclient.role =
      (ircd.lclients.map Lclient.role).find? fun role => role.1 = l := by
    intro ircd
    rw [List.find?_map]
    rfl
  have sameRole := role next
  rw [same.lclients, ← role ircd, found] at sameRole
  exact Option.map_eq_some_iff.mp sameRole

/-- The user records of connections that are still registering. -/
def pendingUsers (ircd : Ircd) : List User :=
  (ircd.lclients.map Lclient.role).filterMap fun role =>
    if role.2.1 = .unknown then role.2.2.2.2 else none

theorem mem_userList_iff {entry : User × Option Nat} :
    entry ∈ ircd.userList ↔
      (∃ cptr ∈ ircd.clients, cptr.kind = .user entry.1 ∧
        entry.2 = some cptr.id) ∨
      (entry.1 ∈ ircd.pendingUsers ∧ entry.2 = none) := by
  obtain ⟨user, id⟩ := entry
  rw [userList, List.mem_append, List.mem_filterMap, List.mem_filterMap]
  apply or_congr
  · constructor
    · rintro ⟨cptr, member, isEntry⟩
      cases isKind : cptr.kind with
      | server name => simp [isKind] at isEntry
      | user own =>
          simp only [isKind, Option.some.injEq, Prod.mk.injEq] at isEntry
          exact ⟨cptr, member, isKind.trans (congrArg _ isEntry.1),
            isEntry.2.symm⟩
    · rintro ⟨cptr, member, isKind, isId⟩
      refine ⟨cptr, member, ?_⟩
      dsimp only at isKind isId
      simp [isKind, isId]
  · rw [pendingUsers, List.mem_filterMap]
    constructor
    · rintro ⟨lcptr, member, isEntry⟩
      split_ifs at isEntry with isUnknown
      obtain ⟨own, isUser, same⟩ := Option.map_eq_some_iff.mp isEntry
      cases same
      refine ⟨⟨_, List.mem_map_of_mem member, ?_⟩, rfl⟩
      simp [Lclient.role, isUnknown, isUser]
    · rintro ⟨⟨role, member, isUser⟩, isId⟩
      obtain ⟨lcptr, isLcptr, rfl⟩ := List.mem_map.mp member
      refine ⟨lcptr, isLcptr, ?_⟩
      split_ifs at isUser with isUnknown
      dsimp only [Lclient.role] at isUnknown isUser isId
      simp [isUnknown, isUser, isId]

theorem SameServers.pendingUsers (same : ircd.SameServers next) :
    next.pendingUsers = ircd.pendingUsers := by
  rw [Ircd.pendingUsers, Ircd.pendingUsers, same.lclients]

end Ircd

/-! ## What a line does to the users -/

/-- What a merge knows about a user. -/
def Client.entry (cptr : Client) : NickMerge.Entry CString Int :=
  ⟨cptr.name, timeT cptr.ts⟩

namespace Ircd

/-- The users of a server, by their identifiers. -/
structure Tabulates (ircd : Ircd)
    (table : CString → Option (NickMerge.Entry CString Int)) : Prop where
  coherent : ircd.nickTable.Coherent
  named : ∀ cptr ∈ ircd.clients, cptr.IsUser → cptr.name ≠ []
  unique : ∀ cptr ∈ ircd.clients, ∀ acptr ∈ ircd.clients, cptr.IsUser →
    acptr.IsUser → cptr.uid = acptr.uid → cptr = acptr
  table : ∀ uid entry, table uid = some entry ↔
    ∃ cptr ∈ ircd.clients, cptr.IsUser ∧ cptr.uid = uid ∧ cptr.entry = entry

namespace Tabulates

variable {ircd next : Ircd}
  {table : CString → Option (NickMerge.Entry CString Int)}

theorem distinct (tabulates : ircd.Tabulates table) :
    (ircd.clients.map Client.id).Nodup := by
  have entryIds := tabulates.coherent.distinct
  rwa [nickTable, List.map_map] at entryIds

/-- Nobody holds a nick that is not found. -/
theorem not_held (tabulates : ircd.Tabulates table) {nick : CString}
    (notFound : ircd.clientFindNick nick = none) (uid : CString) :
    ¬ ∃ entry, table uid = some entry ∧ IcmpEq entry.nick nick := by
  rintro ⟨entry, isEntry, same⟩
  obtain ⟨cptr, member, isUser, -, rfl⟩ :=
    (tabulates.table uid entry).mp isEntry
  have noEntry : ircd.nickTable.find nick = none := by
    rw [find_nickTable, notFound]
    rfl
  exact tabulates.coherent.not_held_of_find_eq_none noEntry
    (List.mem_map_of_mem member) (by simpa [Client.nickEntry] using isUser)
    (tabulates.named cptr member isUser) same

/-- Who is found holds the nick. -/
theorem held (tabulates : ircd.Tabulates table) {nick : CString}
    {acptr : Client} (found : ircd.clientFindNick nick = some acptr) :
    table acptr.uid = some acptr.entry ∧ IcmpEq acptr.name nick := by
  have isEntry : ircd.nickTable.find nick = some acptr.nickEntry := by
    rw [find_nickTable, found]
    rfl
  obtain ⟨-, isUser, answers⟩ := tabulates.coherent.of_find isEntry
  refine ⟨(tabulates.table _ _).mpr ⟨acptr, mem_of_clientFindNick found, ?_, rfl,
    rfl⟩, answers.2.2⟩
  simpa [Client.nickEntry] using isUser

/-- One user is new or has a new entry, and the other users are as they were. -/
theorem update (tabulates : ircd.Tabulates table)
    (coherent : next.nickTable.Coherent) {cptr : Client} (isUser : cptr.IsUser)
    (nonempty : cptr.name ≠ [])
    (users : ∀ other : Client, other.IsUser → (other ∈ next.clients ↔
      other ∈ ircd.clients ∧ other.uid ≠ cptr.uid ∨ other = cptr)) :
    next.Tabulates (Function.update table cptr.uid (some cptr.entry)) where
  coherent := coherent
  named := by
    intro other member otherUser
    rcases (users other otherUser).mp member with ⟨old, -⟩ | rfl
    · exact tabulates.named other old otherUser
    · exact nonempty
  unique := by
    intro first member second member' firstUser secondUser sameUid
    rcases (users first firstUser).mp member with ⟨old, notCptr⟩ | rfl <;>
      rcases (users second secondUser).mp member' with ⟨old', notCptr'⟩ | rfl
    · exact tabulates.unique first old second old' firstUser secondUser sameUid
    · exact absurd sameUid notCptr
    · exact absurd sameUid.symm notCptr'
    · rfl
  table := by
    intro uid entry
    by_cases isUid : uid = cptr.uid
    · subst isUid
      rw [Function.update_self, Option.some.injEq]
      constructor
      · rintro rfl
        exact ⟨cptr, (users cptr isUser).mpr (.inr rfl), isUser, rfl, rfl⟩
      · rintro ⟨other, member, otherUser, sameUid, rfl⟩
        rcases (users other otherUser).mp member with ⟨-, notCptr⟩ | rfl
        · exact absurd sameUid notCptr
        · rfl
    · rw [Function.update_of_ne isUid, tabulates.table]
      constructor
      · rintro ⟨other, member, otherUser, rfl, rfl⟩
        exact ⟨other, (users other otherUser).mpr (.inl ⟨member, isUid⟩),
          otherUser, rfl, rfl⟩
      · rintro ⟨other, member, otherUser, rfl, rfl⟩
        rcases (users other otherUser).mp member with ⟨old, -⟩ | rfl
        · exact ⟨other, old, otherUser, rfl, rfl⟩
        · exact absurd rfl isUid

/-- A new user is registered. -/
theorem register (tabulates : ircd.Tabulates table) {uid nick : CString}
    (user : CString) (source origin ts : Nat) (unknown : table uid = none)
    (uidFits : uid.length ≤ idLen) (nickFits : nick.length ≤ hostLen)
    (nonempty : nick ≠ []) :
    (ircd.clientNewRemote (.user ⟨user, strlcpy uid (idLen + 1)⟩) source origin
        nick ts).Tabulates
      (Function.update table uid (some ⟨nick, timeT ts⟩)) ∧
    ircd.SameServers (ircd.clientNewRemote
      (.user ⟨user, strlcpy uid (idLen + 1)⟩) source origin nick ts) := by
  have isNick : strlcpy nick (hostLen + 1) = nick :=
    strlcpy_eq_self (Nat.lt_succ_of_le nickFits)
  have isUid : strlcpy uid (idLen + 1) = uid :=
    strlcpy_eq_self (Nat.lt_succ_of_le uidFits)
  obtain ⟨isUser, inserted⟩ := nickTable_clientNewRemote ircd
    (.user ⟨user, strlcpy uid (idLen + 1)⟩) source origin nick ts
  have clients : ∃ cptr : Client,
      (ircd.clientNewRemote (.user ⟨user, strlcpy uid (idLen + 1)⟩) source origin
        nick ts).clients = ircd.clients ++ [cptr] ∧
      cptr.IsUser ∧ cptr.uid = uid ∧ cptr.entry = ⟨nick, timeT ts⟩ := by
    refine ⟨_, rfl, rfl, isUid, ?_⟩
    simp [Client.entry, isNick]
  obtain ⟨cptr, clients, cptrUser, cptrUid, cptrEntry⟩ := clients
  have notUid : ∀ acptr ∈ ircd.clients, acptr.IsUser → acptr.uid ≠ uid := by
    intro acptr member acptrUser sameUid
    have isEntry := (tabulates.table acptr.uid acptr.entry).mpr
      ⟨acptr, member, acptrUser, rfl, rfl⟩
    rw [sameUid, unknown] at isEntry
    cases isEntry
  have named : cptr.name ≠ [] := by
    rw [show cptr.name = nick from congrArg NickMerge.Entry.nick cptrEntry]
    exact nonempty
  refine ⟨?_, ⟨?_, rfl, rfl, rfl⟩⟩
  · have updated := tabulates.update (inserted ▸ tabulates.coherent.insert _ _)
      cptrUser named fun other otherUser => by
        rw [clients, List.mem_append, List.mem_singleton, cptrUid]
        exact or_congr_left
          (and_iff_left_of_imp fun member => notUid other member otherUser).symm
    rwa [cptrUid, cptrEntry] at updated
  · rw [clients, List.filter_append]
    simp [Client.IsServer, cptrUser]

/-- Renaming changes one client. -/
theorem clients_renamed (tabulates : ircd.Tabulates table) {cptr : Client}
    (member : cptr ∈ ircd.clients) {nick : CString} (ts : Nat)
    (nickFits : nick.length ≤ hostLen) :
    ∃ renamed : Client, renamed.kind = cptr.kind ∧
      renamed.entry = ⟨nick, timeT ircd.systime⟩ ∧
      ((ircd.setTs cptr.id ts).clientSetName cptr.id nick).clients =
        ircd.clients.map fun other =>
          if other.id = cptr.id then renamed else other := by
  have isNick : strlcpy nick (hostLen + 1) = nick :=
    strlcpy_eq_self (Nat.lt_succ_of_le nickFits)
  have stamped := client?_setTs (client?_of_mem tabulates.distinct member) ts
  refine ⟨{ cptr with ts := ts }.rename nick ircd.systime, rfl,
    by simp [Client.rename, Client.entry, isNick], ?_⟩
  rw [clients_clientSetName stamped, updateClient, setTs, updateClient,
    List.map_map]
  refine List.map_congr_left fun other isOther => ?_
  by_cases isCptr : other.id = cptr.id
  · obtain rfl := KeyedList.eq_of_key_eq tabulates.distinct isOther member isCptr
    simp
  · simp [isCptr]

/-- Renaming a user leaves the servers and connections. -/
theorem sameServers_renamed (tabulates : ircd.Tabulates table) {cptr : Client}
    (member : cptr ∈ ircd.clients) (isUser : cptr.IsUser) {nick : CString}
    (ts : Nat) (nickFits : nick.length ≤ hostLen) :
    ircd.SameServers ((ircd.setTs cptr.id ts).clientSetName cptr.id nick) := by
  have stamped := client?_setTs (client?_of_mem tabulates.distinct member) ts
  obtain ⟨renamed, sameKind, -, clients⟩ :=
    tabulates.clients_renamed member ts nickFits
  refine ⟨?_, ?_, ?_, ?_⟩
  · have renamedUser : renamed.IsUser := by
      rw [Client.IsUser, sameKind]
      exact isUser
    have filtered : (ircd.clients.filter
        ((fun cptr : Client => decide cptr.IsServer) ∘ fun other =>
          if other.id = cptr.id then renamed else other)) =
        ircd.clients.filter fun cptr => cptr.IsServer := by
      refine List.filter_congr fun other isOther => ?_
      simp only [Function.comp_apply]
      split_ifs with isCptr
      · obtain rfl := KeyedList.eq_of_key_eq tabulates.distinct isOther member isCptr
        exact decide_eq_decide.mpr
          (iff_of_false (not_not_intro renamedUser) (not_not_intro isUser))
      · rfl
    rw [clients, List.filter_map, filtered]
    refine (List.map_congr_left fun other isOther => ?_).trans (List.map_id _)
    obtain ⟨isOther, otherServer⟩ := List.mem_filter.mp isOther
    refine if_neg fun same => ?_
    rw [KeyedList.eq_of_key_eq tabulates.distinct isOther member same] at otherServer
    simp [Client.IsServer, isUser] at otherServer
  · unfold clientSetName
    rw [stamped]
    dsimp only
    have roles : ∀ lclients : List Lclient, (lclients.map fun lcptr =>
        if lcptr.id = cptr.source then lcptr.setName nick else lcptr).map
          Lclient.role = lclients.map Lclient.role := by
      intro lclients
      rw [List.map_map]
      refine List.map_congr_left fun lcptr _ => ?_
      simp only [Function.comp_apply]
      split_ifs <;> rfl
    split_ifs <;> first | rfl | exact roles _
  · unfold clientSetName
    rw [stamped]
    dsimp only
    split_ifs <;> rfl
  · unfold clientSetName
    rw [stamped]
    dsimp only
    split_ifs <;> rfl

/-- A user is renamed. -/
theorem rename (tabulates : ircd.Tabulates table) {cptr : Client}
    (member : cptr ∈ ircd.clients) (isUser : cptr.IsUser) {nick : CString}
    (ts : Nat) (nickFits : nick.length ≤ hostLen) (nonempty : nick ≠ []) :
    ((ircd.setTs cptr.id ts).clientSetName cptr.id nick).Tabulates
      (Function.update table cptr.uid (some ⟨nick, timeT ircd.systime⟩)) := by
  obtain ⟨renamed, sameKind, isEntry, clients⟩ :=
    tabulates.clients_renamed member ts nickFits
  have sameUid : renamed.uid = cptr.uid := by rw [Client.uid, Client.uid, sameKind]
  rw [← sameUid, ← isEntry]
  refine tabulates.update ?_ ?_ ?_ fun other otherUser => ?_
  · rw [nickTable_clientSetName, nickTable_setTs]
    exact tabulates.coherent.rename _ _
  · rw [Client.IsUser, sameKind]
    exact isUser
  · rw [show renamed.name = nick from congrArg NickMerge.Entry.nick isEntry]
    exact nonempty
  · rw [sameUid, clients, List.mem_map]
    constructor
    · rintro ⟨old, isOld, rfl⟩
      split_ifs with isCptr
      · exact .inr rfl
      · refine .inl ⟨isOld, fun same => isCptr ?_⟩
        rw [if_neg isCptr] at otherUser
        rw [tabulates.unique old isOld cptr member otherUser isUser same]
    · rintro (⟨isOther, notCptr⟩ | rfl)
      · refine ⟨other, isOther, if_neg fun same => notCptr ?_⟩
        rw [KeyedList.eq_of_key_eq tabulates.distinct isOther member same]
      · exact ⟨cptr, member, if_pos rfl⟩

end Tabulates

end Ircd

end Chaosircd
