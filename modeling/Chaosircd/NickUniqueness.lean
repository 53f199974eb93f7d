import Chaosircd.Machine
import Chaosircd.NickTable

/-!
# Unique nicks and a coherent nick index

The clients of the daemon with its thirty-two buckets form a table of named
entries.  Every handler renames, inserts or removes entries of that table, so
the index stays coherent in every run.  That no two users share a nick is a
different matter: some of the handlers name a user without asking whether the
nick is free, and a local user is checked long before it is registered.  This
file states what must hold at those places and shows that it is enough.
-/

namespace Chaosircd

/-- What the nick index says about a client. -/
def Client.nickEntry (cptr : Client) : NickEntry :=
  ⟨cptr.id, decide cptr.IsUser, cptr.name, cptr.hash⟩

namespace Ircd

/-- The nick index of the daemon. -/
def nickTable (ircd : Ircd) : NickTable :=
  ⟨ircd.clients.map Client.nickEntry, ircd.clientListsn, ircd.clientId⟩

theorem entry?_nickTable (ircd : Ircd) (id : Nat) :
    ircd.nickTable.entry? id = (ircd.client? id).map Client.nickEntry := by
  rw [NickTable.entry?, nickTable, List.find?_map]
  rfl

/-- `client_find_nick` is the lookup in the table. -/
theorem find_nickTable (ircd : Ircd) (nick : CString) :
    ircd.nickTable.find nick =
      (ircd.clientFindNick nick).map Client.nickEntry := by
  have oneHit : ∀ id,
      ((ircd.nickTable.entry? id).filter fun entry =>
          decide (NickTable.Answers entry nick)) =
        ((ircd.client? id).filter fun cptr =>
          decide (cptr.Answers nick)).map Client.nickEntry := by
    intro id
    rw [entry?_nickTable, Option.filter_map]
    rfl
  rw [NickTable.find, clientFindNick, List.map_findSome?]
  exact congrArg (fun test => List.findSome? test _) (funext oneHit)

theorem clientListsn_linkNick (ircd : Ircd) (hash id : Nat) :
    (ircd.linkNick hash id).clientListsn =
      NickTable.link ircd.clientListsn hash id :=
  rfl

theorem clientListsn_unlinkNick (ircd : Ircd) (hash id : Nat) :
    (ircd.unlinkNick hash id).clientListsn =
      NickTable.unlink ircd.clientListsn hash id :=
  rfl

private theorem clientListsn_clientSetName {ircd : Ircd} {id : Nat}
    {cptr : Client} (found : ircd.client? id = some cptr) (name : CString) :
    (ircd.clientSetName id name).clientListsn =
      if cptr.IsUser then
        ((ircd.unlinkNick cptr.hash id).linkNick
          (cptr.rename name ircd.systime).hash id).clientListsn
      else ircd.clientListsn := by
  simp only [clientSetName, found]
  split_ifs <;> rfl

private theorem clientId_clientSetName {ircd : Ircd} {id : Nat}
    {cptr : Client} (found : ircd.client? id = some cptr) (name : CString) :
    (ircd.clientSetName id name).clientId = ircd.clientId := by
  simp only [clientSetName, found]
  split_ifs <;> rfl

/-- `client_set_name` renames an entry. -/
theorem nickTable_clientSetName (ircd : Ircd) (id : Nat) (name : CString) :
    (ircd.clientSetName id name).nickTable =
      ircd.nickTable.rename id (strlcpy name (hostLen + 1)) := by
  cases found : ircd.client? id with
  | none =>
      have noEntry : ircd.nickTable.entry? id = none := by
        rw [entry?_nickTable, found]
        rfl
      simp only [clientSetName, found, NickTable.rename, noEntry]
  | some cptr =>
      have entry : ircd.nickTable.entry? id = some cptr.nickEntry := by
        rw [entry?_nickTable, found]
        rfl
      have entries : (ircd.clientSetName id name).clients.map Client.nickEntry =
          ircd.nickTable.entries.map fun entry =>
            if entry.id = id then
              { entry with
                name := strlcpy name (hostLen + 1)
                hash := strIhash (strlcpy name (hostLen + 1)) }
            else entry := by
        rw [clients_clientSetName found, updateClient, nickTable, List.map_map,
          List.map_map]
        refine List.map_congr_left fun other _ => ?_
        simp only [Function.comp_apply]
        by_cases isId : other.id = id
        · rw [if_pos isId, if_pos (show other.nickEntry.id = id from isId)]
          rfl
        · rw [if_neg isId, if_neg (show ¬ other.nickEntry.id = id from isId)]
      rw [NickTable.rename, entry]
      simp only [nickTable, entries, clientListsn_clientSetName found,
        clientId_clientSetName found, Client.nickEntry, decide_eq_true_eq]
      rfl

/-- `client_set_name` apart, writing through a client pointer leaves the index
as it is. -/
theorem nickTable_setTs (ircd : Ircd) (id ts : Nat) :
    (ircd.setTs id ts).nickTable = ircd.nickTable := by
  have entries : (ircd.setTs id ts).clients.map Client.nickEntry =
      ircd.clients.map Client.nickEntry := by
    rw [setTs, updateClient, List.map_map]
    refine List.map_congr_left fun other _ => ?_
    simp only [Function.comp_apply]
    split_ifs <;> rfl
  simp only [nickTable, entries]
  rfl

/-- Linking a new client inserts an entry. -/
theorem nickTable_linkClient (ircd : Ircd) (cptr : Client)
    (isNext : cptr.id = ircd.clientId) (hashed : cptr.hash = strIhash cptr.name) :
    (ircd.linkClient cptr).nickTable =
      ircd.nickTable.insert (decide cptr.IsUser) cptr.name := by
  have entry : cptr.nickEntry = ⟨ircd.clientId, decide cptr.IsUser, cptr.name,
      strIhash cptr.name⟩ := by
    rw [Client.nickEntry, isNext, hashed]
  have clients : (ircd.linkClient cptr).clients = ircd.clients ++ [cptr] := by
    unfold linkClient
    split_ifs <;> rfl
  have next : (ircd.linkClient cptr).clientId = ircd.clientId + 1 := by
    unfold linkClient
    split_ifs <;> rfl
  have buckets : (ircd.linkClient cptr).clientListsn =
      if decide cptr.IsUser then
        NickTable.link ircd.clientListsn (strIhash cptr.name) ircd.clientId
      else ircd.clientListsn := by
    simp only [linkClient, decide_eq_true_eq, ← hashed, ← isNext]
    split_ifs <;> rfl
  simp only [nickTable, NickTable.insert, clients, next, buckets,
    List.map_append, List.map_cons, List.map_nil, entry]

/-- `client_delete` removes an entry. -/
theorem nickTable_clientDelete (ircd : Ircd) (id : Nat) :
    (ircd.clientDelete id).nickTable = ircd.nickTable.remove id := by
  cases found : ircd.client? id with
  | none =>
      have noEntry : ircd.nickTable.entry? id = none := by
        rw [entry?_nickTable, found]
        rfl
      simp only [clientDelete, found, NickTable.remove, noEntry]
  | some cptr =>
      have entry : ircd.nickTable.entry? id = some cptr.nickEntry := by
        rw [entry?_nickTable, found]
        rfl
      have entries : (ircd.clientDelete id).clients.map Client.nickEntry =
          ircd.nickTable.entries.filter fun entry => entry.id ≠ id := by
        simp only [clientDelete, found, nickTable, List.map_map,
          List.filter_map]
        refine List.map_congr_left fun other _ => ?_
        simp only [Function.comp_apply]
        split_ifs <;> rfl
      have buckets : (ircd.clientDelete id).clientListsn =
          if decide cptr.IsUser then
            NickTable.unlink ircd.clientListsn cptr.hash id
          else ircd.clientListsn := by
        simp only [clientDelete, found, decide_eq_true_eq]
        split_ifs <;> rfl
      have next : (ircd.clientDelete id).clientId = ircd.clientId := by
        simp only [clientDelete, found]
        split_ifs <;> rfl
      rw [NickTable.remove, entry]
      simp only [nickTable, entries, buckets, next, Client.nickEntry]
      rfl

/-! ## What each operation does to the table -/

theorem nickTable_clientNick (ircd : Ircd) (l : Nat) (cptr : Client)
    (nick : CString) :
    (ircd.clientNick l cptr nick).1.nickTable =
      ircd.nickTable.rename cptr.id (strlcpy nick (hostLen + 1)) := by
  rw [clientNick, nickTable_clientSetName, nickTable_setTs]

theorem nickTable_clientNewLocal (ircd : Ircd) (kind : ClientKind)
    (lcptr : Lclient) :
    ∃ isUser, (ircd.clientNewLocal kind lcptr).nickTable =
      ircd.nickTable.insert isUser (strlcpy lcptr.name (hostLen + 1)) :=
  ⟨_, nickTable_linkClient _ _ rfl rfl⟩

theorem nickTable_clientNewRemote (ircd : Ircd) (kind : ClientKind)
    (source origin : Nat) (name : CString) (ts : Nat) :
    ∃ isUser, (ircd.clientNewRemote kind source origin name ts).nickTable =
      ircd.nickTable.insert isUser (strlcpy name (hostLen + 1)) :=
  ⟨_, nickTable_linkClient _ _ rfl rfl⟩

theorem nickTable_clientNewLocal_server (ircd : Ircd) (server : CString)
    (lcptr : Lclient) :
    (ircd.clientNewLocal (.server server) lcptr).nickTable =
      ircd.nickTable.insert false (strlcpy lcptr.name (hostLen + 1)) :=
  nickTable_linkClient _ _ rfl rfl

theorem nickTable_clientNewRemote_server (ircd : Ircd) (server : CString)
    (source origin : Nat) (name : CString) (ts : Nat) :
    (ircd.clientNewRemote (.server server) source origin name ts).nickTable =
      ircd.nickTable.insert false (strlcpy name (hostLen + 1)) :=
  nickTable_linkClient _ _ rfl rfl

/-- The nick index is coherent and the users are apart. -/
structure NicksSound (ircd : Ircd) : Prop where
  coherent : ircd.nickTable.Coherent
  apart : ircd.nickTable.Apart

namespace NicksSound

variable {ircd : Ircd}

theorem congr {ircd' : Ircd} (sound : ircd.NicksSound)
    (same : ircd'.nickTable = ircd.nickTable) : ircd'.NicksSound :=
  ⟨same ▸ sound.coherent, same ▸ sound.apart⟩

theorem rename {ircd' : Ircd} (sound : ircd.NicksSound) {id : Nat}
    {name : CString} (renamed : ircd'.nickTable = ircd.nickTable.rename id name)
    (free : ∀ entry ∈ ircd.nickTable.entries, entry.id = id → entry.isUser →
      ircd.nickTable.Free (some id) name) : ircd'.NicksSound :=
  ⟨renamed ▸ sound.coherent.rename id name,
    renamed ▸ NickTable.Apart.rename sound.coherent sound.apart free⟩

theorem insert {ircd' : Ircd} (sound : ircd.NicksSound) {isUser : Bool}
    {name : CString} (inserted : ircd'.nickTable =
      ircd.nickTable.insert isUser name)
    (free : isUser → ircd.nickTable.Free none name) : ircd'.NicksSound :=
  ⟨inserted ▸ sound.coherent.insert isUser name,
    inserted ▸ sound.apart.insert free⟩

theorem clientDelete (sound : ircd.NicksSound) (id : Nat) :
    (ircd.clientDelete id).NicksSound :=
  ⟨nickTable_clientDelete ircd id ▸ sound.coherent.remove id,
    nickTable_clientDelete ircd id ▸ sound.apart.remove id⟩

theorem splitUser (sound : ircd.NicksSound) (id : Nat) :
    (ircd.splitUser id).NicksSound :=
  (sound.congr rfl : (ircd.leaveChannels id fun _ => False).NicksSound).clientDelete
    id

theorem serverSplit (depth : Nat) (sound : ircd.NicksSound) (id : Nat) :
    (serverSplit depth ircd id).NicksSound := by
  induction depth generalizing ircd id with
  | zero => exact sound
  | succ depth ih =>
      have usersGone :
          ((ircd.userDeps id).foldl Ircd.splitUser ircd).NicksSound :=
        List.foldlRecOn _ _ sound fun _ sound user _ => sound.splitUser user
      exact List.foldlRecOn _ _ usersGone fun _ sound server _ =>
        (ih sound server).clientDelete server

theorem clientVexit (sound : ircd.NicksSound) (id : Nat) :
    (ircd.clientVexit id).NicksSound := by
  cases found : ircd.client? id with
  | none => simpa only [Ircd.clientVexit, found] using sound
  | some cptr =>
      have released : (if cptr.IsUser then
          (ircd.leaveChannels id Channel.IsPersistent).clientHistoryClean id
          else Ircd.serverSplit ircd.clients.length ircd id).NicksSound := by
        split_ifs
        · exact sound.congr rfl
        · exact sound.serverSplit _ id
      simp only [Ircd.clientVexit, found]
      refine NicksSound.clientDelete ?_ id
      split_ifs at released ⊢ <;> exact released.congr rfl

theorem lclientVexit (sound : ircd.NicksSound) (l : Nat) :
    (ircd.lclientVexit l).NicksSound := by
  unfold Ircd.lclientVexit
  split
  · exact sound
  · split
    · exact sound.congr rfl
    · exact (sound.clientVexit _).congr rfl

end NicksSound

/-! ## Where a nick has to be free -/

/-- The nick, as the name field will hold it, is not empty, and no user but
possibly one holds it. -/
def NickFree (ircd : Ircd) (except : Option Nat) (nick : CString) : Prop :=
  ircd.nickTable.Free except (strlcpy nick (hostLen + 1))

instance (ircd : Ircd) (except : Option Nat) (nick : CString) :
    Decidable (ircd.NickFree except nick) :=
  inferInstanceAs (Decidable (NickTable.Free _ _ _))

/-- The nicks that the loop of `client_nick_random` can end with. -/
def NickRandom (ircd : Ircd) (nick : CString) : Prop :=
  nick ≠ [] ∧ nick.length < nickLen ∧ ircd.clientFindNick nick = none

/-- The name a connection waits to register under is free. -/
def PendingNickFree (ircd : Ircd) (l : Nat) : Prop :=
  ∀ lcptr, ircd.lclient? l = some lcptr → lcptr.type = .unknown →
    ircd.NickFree none lcptr.name

/-- An event names no user with a nick that is empty or taken.  The conditions
are those that the daemon does not check itself: a registration that was
waiting asks again whether its nick is free, `NICK` from a connection that has
sent `USER` leaves something of the nick, `NICK` from a user is not empty, and a
line of another server names a user with a nick that is free here, except that
`NUSER` may name a taken nick when the holder has the older time stamp. -/
def NamesApart (ircd : Ircd) : Event → Prop
  | .mrNick l nick _ =>
      ∀ lcptr, ircd.lclient? l = some lcptr → lcptr.user ≠ none →
        (strlcpy nick (nickLen + 1)).takeWhile (· ≠ '~') ≠ []
  | .cookieDone l hooks =>
      hooks.auth = false → hooks.refuse = false → ircd.PendingNickFree l
  | .authDone l hooks => hooks.refuse = false → ircd.PendingNickFree l
  | .mNick _ args => ∀ nick ∈ args.head?, nick ≠ []
  | .msNick l pfx args =>
      ircd.FromServer l pfx fun _ cptr => cptr.IsUser →
        ∀ nick ∈ args.head?, ircd.NickFree (some cptr.id) nick
  | .msNbounce l pfx args =>
      ircd.FromServer l pfx fun lcptr _ =>
        match args with
        | user :: nick :: _ =>
            ∀ acptr, ircd.nbounceTarget lcptr user = some acptr →
              ircd.NickFree (some acptr.id) nick
        | _ => True
  | .msNuser l pfx args randomNick =>
      ircd.NickRandom randomNick ∧ ircd.FromServer l pfx fun _ cptr =>
        match args with
        | [nick, _, tsArg, _, user, _, _, server, uid, _] =>
            ircd.NuserAccepted cptr nick user server uid →
              match ircd.clientFindNick nick with
              | none => ircd.NickFree none nick
              | some acptr =>
                  timeT acptr.ts ≤ timeT (strToul tsArg) ∧
                    nick.length ≤ hostLen
        | _ => True
  | _ => True

/-! ## Every event keeps the index sound -/

section Preservation

variable {ircd : Ircd}

/-- A nick that no user is found under is free. -/
theorem NicksSound.nickFree (sound : ircd.NicksSound) {nick : CString}
    (nonempty : nick ≠ []) (fits : nick.length ≤ hostLen)
    (notFound : ircd.clientFindNick nick = none) (except : Option Nat) :
    ircd.NickFree except nick := by
  rw [NickFree, strlcpy_eq_self (Nat.lt_succ_of_le fits)]
  apply sound.coherent.free_of_find_eq_none sound.apart nonempty
  rw [find_nickTable, notFound]
  rfl

/-- A nick that a user is found under is free for that user. -/
theorem NicksSound.nickFree_self (sound : ircd.NicksSound) {nick : CString}
    {acptr : Client} (nonempty : nick ≠ []) (fits : nick.length ≤ hostLen)
    (found : ircd.clientFindNick nick = some acptr) :
    ircd.NickFree (some acptr.id) nick := by
  rw [NickFree, strlcpy_eq_self (Nat.lt_succ_of_le fits)]
  have entryFound : ircd.nickTable.find nick = some acptr.nickEntry := by
    rw [find_nickTable, found]
    rfl
  exact sound.coherent.free_of_find_eq_some sound.apart nonempty entryFound

theorem NicksSound.lclientRegister (sound : ircd.NicksSound) (id : Nat)
    (hooks : LoginHooks)
    (free : hooks.refuse = false → ircd.PendingNickFree id) :
    (ircd.lclientRegister id hooks).NicksSound := by
  cases found : ircd.lclient? id with
  | none => simpa only [Ircd.lclientRegister, found] using sound
  | some lcptr =>
      cases registered : lcptr.user with
      | none => simpa only [Ircd.lclientRegister, found, registered] using sound
      | some user =>
          simp only [Ircd.lclientRegister, found, registered]
          split_ifs with registers
          · obtain ⟨isUser, inserted⟩ :=
              nickTable_clientNewLocal ircd (.user user) lcptr
            exact sound.insert inserted fun _ =>
              free (by simpa using registers.2) lcptr found registers.1
          · exact sound

theorem NicksSound.lclientHandshake (sound : ircd.NicksSound) (id : Nat)
    (hooks : LoginHooks)
    (free : hooks.auth = false → hooks.refuse = false →
      ircd.PendingNickFree id) :
    (ircd.lclientHandshake id hooks).NicksSound := by
  cases found : ircd.lclient? id with
  | none => simpa only [Ircd.lclientHandshake, found] using sound
  | some lcptr =>
      cases registered : lcptr.user with
      | none => simpa only [Ircd.lclientHandshake, found, registered] using sound
      | some user =>
          simp only [Ircd.lclientHandshake, found, registered]
          split_ifs with invalidNick invalidUser waits
          · exact sound
          · exact sound.congr rfl
          · exact sound.congr rfl
          · exact sound.lclientRegister id hooks (free (by simpa using waits))

/-- The check of `lclient_login` is enough for a registration that follows it at
once. -/
theorem NicksSound.lclientLogin (sound : ircd.NicksSound) (id : Nat)
    (hooks : LoginHooks)
    (named : ∀ lcptr, ircd.lclient? id = some lcptr → lcptr.name ≠ []) :
    (ircd.lclientLogin id hooks).NicksSound := by
  cases found : ircd.lclient? id with
  | none => simpa only [Ircd.lclientLogin, found] using sound
  | some lcptr =>
      simp only [Ircd.lclientLogin, found]
      split_ifs with taken waits
      · exact sound.congr rfl
      · exact sound.congr rfl
      · apply sound.lclientHandshake
        rintro - - other isOther -
        cases found.symm.trans isOther
        have fits : lcptr.name.length ≤ hostLen :=
          lcptr.name_fits.trans (by decide)
        exact sound.nickFree (named lcptr found) fits (by simpa using taken) none

/-- The connection behind a pointer after writing through it. -/
theorem lclient?_updateLclient_self (ircd : Ircd) (id : Nat)
    {change : Lclient → Lclient} (keepsId : ∀ lcptr, (change lcptr).id = lcptr.id) :
    (ircd.updateLclient id change).lclient? id =
      (ircd.lclient? id).map change := by
  have sameTest : ((fun lcptr : Lclient => decide (lcptr.id = id)) ∘
      fun lcptr => if lcptr.id = id then change lcptr else lcptr) =
        fun lcptr => decide (lcptr.id = id) := by
    funext lcptr
    by_cases isId : lcptr.id = id <;> simp [isId, keepsId]
  rw [lclient?, updateLclient, List.find?_map, sameTest, lclient?]
  cases found : ircd.lclients.find? fun lcptr => decide (lcptr.id = id) with
  | none => rfl
  | some lcptr =>
      have isId : lcptr.id = id := by simpa using List.find?_some found
      simp [isId]

theorem NicksSound.mrNick (sound : ircd.NicksSound) (id : Nat)
    (nick : CString) (hooks : LoginHooks)
    (apart : ircd.NamesApart (.mrNick id nick hooks)) :
    (ircd.mrNick id nick hooks).NicksSound := by
  cases found : ircd.lclient? id with
  | none => simpa only [Ircd.mrNick, found] using sound
  | some lcptr =>
      have named : (ircd.lclientSetName id
          ((strlcpy nick (nickLen + 1)).takeWhile (· ≠ '~'))).NicksSound :=
        sound.congr rfl
      simp only [Ircd.mrNick, found]
      split_ifs with unnamed hasUser
      · refine named.lclientLogin id hooks fun other isOther => ?_
        rw [lclientSetName, lclient?_updateLclient_self _ _ (by intro; rfl),
          found] at isOther
        cases isOther
        have nonempty := apart lcptr found hasUser
        simpa [Lclient.setName, strlcpy, nickLen, List.take_eq_nil_iff]
          using nonempty
      · exact named
      · exact sound

theorem NicksSound.mrUser (sound : ircd.NicksSound) (id : Nat)
    (userArg uid : CString) (hooks : LoginHooks) :
    (ircd.mrUser id userArg uid hooks).NicksSound := by
  cases found : ircd.lclient? id with
  | none => simpa only [Ircd.mrUser, found] using sound
  | some lcptr =>
      simp only [Ircd.mrUser, found]
      split_ifs with unknown named
      · refine NicksSound.lclientLogin ?_ id hooks fun other isOther => ?_
        · exact sound.congr rfl
        rw [lclient?_updateLclient_self _ _ (by intro; rfl), found] at isOther
        cases isOther
        exact named
      · exact sound.congr rfl
      · exact sound

/-- Pending names do not change when a query is answered. -/
private theorem pendingNickFree_updateLclient {id : Nat}
    {change : Lclient → Lclient} (keepsId : ∀ lcptr, (change lcptr).id = lcptr.id)
    (keepsName : ∀ lcptr, (change lcptr).name = lcptr.name)
    (keepsType : ∀ lcptr, (change lcptr).type = lcptr.type)
    (free : ircd.PendingNickFree id) :
    (ircd.updateLclient id change).PendingNickFree id := by
  intro lcptr isLcptr unknown
  rw [lclient?_updateLclient_self _ _ keepsId] at isLcptr
  obtain ⟨old, isOld, rfl⟩ := Option.map_eq_some_iff.mp isLcptr
  rw [keepsName]
  exact free old isOld (by rw [← keepsType]; exact unknown)

theorem NicksSound.cookieDone (sound : ircd.NicksSound) (id : Nat)
    (hooks : LoginHooks) (apart : ircd.NamesApart (.cookieDone id hooks)) :
    (ircd.cookieDone id hooks).NicksSound := by
  cases found : ircd.lclient? id with
  | none => simpa only [Ircd.cookieDone, found] using sound
  | some lcptr =>
      simp only [Ircd.cookieDone, found]
      split_ifs with waiting
      · refine NicksSound.lclientHandshake ?_ id hooks
          fun noAuth noRefusal => ?_
        · exact sound.congr rfl
        exact pendingNickFree_updateLclient (by intro; rfl) (by intro; rfl)
          (by intro; rfl) (apart noAuth noRefusal)
      · exact sound

theorem NicksSound.authDone (sound : ircd.NicksSound) (id : Nat)
    (hooks : LoginHooks) (apart : ircd.NamesApart (.authDone id hooks)) :
    (ircd.authDone id hooks).NicksSound := by
  cases found : ircd.lclient? id with
  | none => simpa only [Ircd.authDone, found] using sound
  | some lcptr =>
      simp only [Ircd.authDone, found]
      split_ifs with waiting
      · refine NicksSound.lclientRegister ?_ id hooks fun noRefusal => ?_
        · exact sound.congr rfl
        exact pendingNickFree_updateLclient (by intro; rfl) (by intro; rfl)
          (by intro; rfl) (apart noRefusal)
      · exact sound

theorem NicksSound.clientNick (sound : ircd.NicksSound) (l : Nat)
    {cptr : Client} {nick : CString}
    (free : cptr.IsUser → ircd.NickFree (some cptr.id) nick)
    (member : cptr ∈ ircd.clients) :
    (ircd.clientNick l cptr nick).1.NicksSound := by
  refine sound.rename (nickTable_clientNick ircd l cptr nick)
    fun entry entryMember isId isUser => free ?_
  obtain ⟨other, otherMember, rfl⟩ := List.mem_map.mp entryMember
  have same : other.nickEntry = cptr.nickEntry :=
    KeyedList.eq_of_key_eq sound.coherent.distinct entryMember
      (List.mem_map_of_mem member) isId
  rw [same] at isUser
  simpa [Client.nickEntry] using isUser

theorem NicksSound.mNick (sound : ircd.NicksSound) (l : Nat) {cptr : Client}
    (member : cptr ∈ ircd.clients) (args : List CString)
    (nonempty : ∀ nick ∈ args.head?, nick ≠ []) :
    (ircd.mNick l cptr args).1.NicksSound := by
  cases args with
  | nil => exact sound
  | cons nick args =>
      have named : strlcpy nick nickLen ≠ [] := by
        simpa [strlcpy, nickLen, List.take_eq_nil_iff] using
          nonempty nick (by simp)
      have fits : (strlcpy nick nickLen).length ≤ hostLen := by
        have short := strlcpy_length_lt nick (n := nickLen) (by decide)
        exact short.le.trans (by decide)
      simp only [Ircd.mNick]
      split_ifs with valid
      · cases found : ircd.clientFindNick (strlcpy nick nickLen) with
        | none =>
            exact sound.clientNick l
              (fun _ => sound.nickFree named fits found _) member
        | some acptr =>
            simp only
            split_ifs with isSelf changes
            · exact sound.clientNick l
                (fun _ => isSelf ▸ sound.nickFree_self named fits found) member
            · exact sound
            · exact sound
      · exact sound

theorem NicksSound.msNick (sound : ircd.NicksSound) (l : Nat) {cptr : Client}
    (member : cptr ∈ ircd.clients) (args : List CString)
    (free : cptr.IsUser → ∀ nick ∈ args.head?,
      ircd.NickFree (some cptr.id) nick) :
    (ircd.msNick l cptr args).1.NicksSound := by
  match args with
  | [] => exact sound
  | [_] => exact sound
  | nick :: tsArg :: rest =>
      have renamed : (ircd.clientNick l cptr nick).1.NicksSound :=
        sound.clientNick l (fun isUser => free isUser nick (by simp)) member
      exact renamed.congr (nickTable_setTs _ _ _)

theorem NicksSound.msNbounce (sound : ircd.NicksSound) (lcptr : Lclient)
    (cptr : Client) (args : List CString)
    (free : match args with
      | user :: nick :: _ =>
          ∀ acptr, ircd.nbounceTarget lcptr user = some acptr →
            ircd.NickFree (some acptr.id) nick
      | _ => True) :
    (ircd.msNbounce lcptr cptr args).1.NicksSound := by
  match args with
  | [] => exact sound
  | [_] => exact sound
  | [_, _] => exact sound
  | user :: nick :: tsArg :: rest =>
      cases found : ircd.nbounceTarget lcptr user with
      | none => simpa only [Ircd.msNbounce, found] using sound
      | some acptr =>
          simp only [Ircd.msNbounce, found]
          refine sound.rename ?_ fun _ _ _ _ => free acptr found
          rw [nickTable_clientSetName, nickTable_setTs]

theorem rotate_eq_some {nick candidate : CString}
    (rotated : ircd.clientNickRotate nick = some candidate) :
    candidate ≠ [] ∧ candidate.length = nick.length ∧
      ircd.clientFindNick candidate = none := by
  match nick with
  | [] => cases rotated
  | [_] => cases rotated
  | first :: second :: rest =>
      simp only [clientNickRotate] at rotated
      split_ifs at rotated with unused
      cases rotated
      exact ⟨by simp, by simp, unused⟩

/-- The nick that a newcomer gets instead of its own is free. -/
theorem NicksSound.nickFree_nuserRename (sound : ircd.NicksSound)
    {nick randomNick : CString} (random : ircd.NickRandom randomNick)
    (fits : nick.length ≤ hostLen) :
    ircd.NickFree none (ircd.nuserRename nick randomNick) := by
  cases rotated : ircd.clientNickRotate nick with
  | none =>
      obtain ⟨nonempty, short, unused⟩ := random
      simp only [nuserRename, rotated, Option.getD_none]
      exact sound.nickFree nonempty (short.le.trans (by decide)) unused none
  | some candidate =>
      obtain ⟨nonempty, sameLength, unused⟩ := rotate_eq_some rotated
      simp only [nuserRename, rotated, Option.getD_some]
      exact sound.nickFree nonempty (sameLength.trans_le fits) unused none

theorem NicksSound.msNuser (sound : ircd.NicksSound) (l : Nat) (cptr : Client)
    (args : List CString) {randomNick : CString}
    (random : ircd.NickRandom randomNick)
    (free : match args with
      | [nick, _, tsArg, _, user, _, _, server, uid, _] =>
          ircd.NuserAccepted cptr nick user server uid →
            match ircd.clientFindNick nick with
            | none => ircd.NickFree none nick
            | some acptr =>
                timeT acptr.ts ≤ timeT (strToul tsArg) ∧
                  nick.length ≤ hostLen
      | _ => True) :
    (ircd.msNuser l cptr args randomNick).1.NicksSound := by
  unfold Ircd.msNuser
  split
  · rename_i nick _ tsArg _ user _ _ server uid _
    simp only at free
    split_ifs with isServer uidTaken badNick badUser
    · exact sound
    · exact sound
    · exact sound
    · cases named : ircd.serverFindName server with
      | none => exact sound
      | some sptr =>
          have accepted : ircd.NuserAccepted cptr nick user server uid :=
            ⟨isServer, by simpa using uidTaken, by simpa using badNick,
              by simpa using badUser, by simp [named]⟩
          have conditions := free accepted
          cases found : ircd.clientFindNick nick with
          | none =>
              simp only [found] at conditions ⊢
              obtain ⟨isUser, inserted⟩ := nickTable_clientNewRemote ircd
                (.user ⟨strlcpy user 17, strlcpy uid (idLen + 1)⟩) l sptr.id
                nick (strToul tsArg)
              exact sound.insert inserted fun _ => conditions
          | some acptr =>
              simp only [found] at conditions ⊢
              rw [if_pos conditions.1]
              obtain ⟨isUser, inserted⟩ := nickTable_clientNewRemote ircd
                (.user ⟨strlcpy user 17, strlcpy uid (idLen + 1)⟩) l sptr.id
                (ircd.nuserRename nick randomNick) ircd.systime
              exact sound.insert inserted fun _ =>
                sound.nickFree_nuserRename random conditions.2
    · exact sound
  · exact sound

theorem NicksSound.onlyChannels {ircd' : Ircd} (sound : ircd.NicksSound)
    (changed : ircd.OnlyChannels ircd') : ircd'.NicksSound := by
  obtain ⟨channels, channelId, rfl⟩ := changed
  exact sound.congr rfl

theorem NicksSound.serverLogin (sound : ircd.NicksSound) (lcptr : Lclient)
    (name : CString) (capUid : Bool) :
    (ircd.serverLogin lcptr name capUid).NicksSound := by
  unfold Ircd.serverLogin
  dsimp only
  split_ifs
  · exact sound.congr rfl
  · exact NicksSound.insert sound (nickTable_clientNewLocal_server _ _ _)
      (by simp)

theorem NicksSound.msNserver {next : Ircd} (sound : ircd.NicksSound) {l : Nat}
    {uplink name : CString}
    (stepped : ircd.msNserver l uplink name = some next) : next.NicksSound := by
  unfold Ircd.msNserver at stepped
  split_ifs at stepped
  · cases stepped
    exact sound.lclientVexit l
  · obtain ⟨sptr, -, rfl⟩ := Option.map_eq_some_iff.mp stepped
    exact sound.insert (nickTable_clientNewRemote_server _ _ _ _ _ _) (by simp)

/-- Every event that names users apart keeps the nick index sound. -/
theorem NicksSound.step (table : ChanmodeTable) {event : Event} {next : Ircd}
    (sound : ircd.NicksSound) (apart : ircd.NamesApart event)
    (stepped : ircd.step table event = some next) : next.NicksSound := by
  cases event with
  | tick systime =>
      cases stepped
      exact sound.congr rfl
  | accept capUid =>
      cases stepped
      exact sound.congr rfl
  | mrNick l nick hooks =>
      cases stepped
      rcases ircd.fromUnknown_cases l _ with same | ⟨lcptr, -, -, same⟩ <;>
        rw [same]
      · exact sound
      · exact sound.mrNick l nick hooks apart
  | mrUser l user uid hooks =>
      cases stepped
      rcases ircd.fromUnknown_cases l _ with same | ⟨lcptr, -, -, same⟩ <;>
        rw [same]
      · exact sound
      · exact sound.mrUser l user uid hooks
  | cookieDone l hooks =>
      cases stepped
      exact sound.cookieDone l hooks apart
  | authDone l hooks =>
      cases stepped
      exact sound.authDone l hooks apart
  | mNick l args =>
      cases stepped
      rcases ircd.fromUser_cases l _ with
        ⟨-, same⟩ | ⟨lcptr, cptr, reached, same⟩ <;> rw [same]
      · exact sound
      · exact sound.mNick lcptr.id (mem_of_client? (userLine_eq_some reached).2.2.2) args
          apart
  | msNick l pfx args =>
      rcases fromServer_cases stepped with
        ⟨-, rfl⟩ | ⟨lcptr, cptr, reached, handled⟩
      · exact sound
      · cases handled
        exact sound.msNick lcptr.id 
          (mem_of_lineSource (serverLine_eq_some reached).2.2) args
          (apart lcptr cptr reached)
  | msNuser l pfx args randomNick =>
      rcases fromServer_cases stepped with
        ⟨-, rfl⟩ | ⟨lcptr, cptr, reached, handled⟩
      · exact sound
      · cases handled
        exact sound.msNuser lcptr.id cptr args apart.1
          (apart.2 lcptr cptr reached)
  | msNbounce l pfx args =>
      rcases fromServer_cases stepped with
        ⟨-, rfl⟩ | ⟨lcptr, cptr, reached, handled⟩
      · exact sound
      · cases handled
        exact sound.msNbounce lcptr cptr args (apart lcptr cptr reached)
  | exit id =>
      simp only [Ircd.step] at stepped
      split at stepped
      · cases stepped
        split_ifs
        · exact sound.clientVexit id
        · exact sound
      · cases stepped
        exact sound
  | linkLoss l =>
      cases stepped
      split_ifs
      · exact sound
      · exact sound.lclientVexit l
  | serverLogin l name capUid =>
      cases stepped
      rcases ircd.fromUnknown_cases l _ with same | ⟨lcptr, -, -, same⟩ <;>
        rw [same]
      · exact sound
      · exact sound.serverLogin lcptr name capUid
  | msNserver l pfx uplink name =>
      rcases fromServer_cases stepped with
        ⟨-, rfl⟩ | ⟨lcptr, cptr, -, handled⟩
      · exact sound
      · exact sound.msNserver handled
  | moSquit name =>
      cases stepped
      unfold Ircd.moSquit
      split
      · exact sound
      · split_ifs
        · exact sound.clientVexit _
        · exact sound
  | msNquit l pfx name =>
      rcases fromServer_cases stepped with
        ⟨-, rfl⟩ | ⟨lcptr, cptr, -, handled⟩
      · exact sound
      · cases handled
        unfold Ircd.msNquit
        split
        · exact sound
        · split_ifs
          · exact sound
          · exact sound.clientVexit _
  | mJoin l names hooks =>
      cases stepped
      rcases ircd.fromUser_cases l _ with ⟨-, same⟩ | ⟨lcptr, cptr, -, same⟩ <;>
        rw [same]
      · exact sound
      · exact sound.onlyChannels (.mJoinLoop ircd cptr.id _)
  | msNjoin l pfx name tsArg members =>
      rcases fromServer_cases stepped with
        ⟨-, rfl⟩ | ⟨lcptr, cptr, -, handled⟩
      · exact sound
      · cases handled
        exact sound.onlyChannels
          (.msNjoin ircd table lcptr cptr name tsArg members)
  | mPart l name =>
      cases stepped
      rcases ircd.fromUser_cases l _ with ⟨-, same⟩ | ⟨lcptr, cptr, -, same⟩ <;>
        rw [same]
      · exact sound
      · exact sound.onlyChannels (.mPart ircd cptr name)
  | msPart l pfx name =>
      rcases fromServer_cases stepped with
        ⟨-, rfl⟩ | ⟨lcptr, cptr, -, handled⟩
      · exact sound
      · cases handled
        exact sound.onlyChannels (.msPart ircd cptr name)
  | mKick l name targets halfop =>
      cases stepped
      rcases ircd.fromUser_cases l _ with ⟨-, same⟩ | ⟨lcptr, cptr, -, same⟩ <;>
        rw [same]
      · exact sound
      · exact sound.onlyChannels (.mKick ircd lcptr cptr name targets halfop)
  | msKick l pfx name targets halfop =>
      rcases fromServer_cases stepped with
        ⟨-, rfl⟩ | ⟨lcptr, cptr, -, handled⟩
      · exact sound
      · cases handled
        exact sound.onlyChannels (.mKick ircd lcptr cptr name targets halfop)
  | changeFlag id what letter =>
      cases stepped
      exact sound.onlyChannels ⟨_, _, rfl⟩

end Preservation

theorem nicksSound_boot (name : CString) (systime : Nat) :
    (boot name systime).NicksSound := by
  refine ⟨⟨?_, ?_, ?_, ?_⟩, ⟨?_, ?_⟩⟩ <;>
    simp [nickTable, boot, Client.nickEntry, Client.IsUser, ClientKind.isUser]

/-! ## Runs -/

/-- No two users have the same nick up to case. -/
def NicksUnique (ircd : Ircd) : Prop :=
  ∀ cptr ∈ ircd.clients, ∀ acptr ∈ ircd.clients, cptr.IsUser → acptr.IsUser →
    IcmpEq cptr.name acptr.name → cptr = acptr

instance (ircd : Ircd) : Decidable ircd.NicksUnique :=
  inferInstanceAs (Decidable (∀ cptr ∈ _, ∀ acptr ∈ _, _))

/-- Every user is found under its nick. -/
def NicksFound (ircd : Ircd) : Prop :=
  ∀ cptr ∈ ircd.clients, cptr.IsUser →
    ircd.clientFindNick cptr.name = some cptr

instance (ircd : Ircd) : Decidable ircd.NicksFound :=
  inferInstanceAs (Decidable (∀ cptr ∈ _, _))

/-- Entries with the identifier of a client are the entry of that client. -/
private theorem NicksSound.eq_of_nickEntry_eq {ircd : Ircd}
    (sound : ircd.NicksSound) {cptr acptr : Client}
    (member : cptr ∈ ircd.clients) (member' : acptr ∈ ircd.clients)
    (same : cptr.nickEntry = acptr.nickEntry) : cptr = acptr := by
  have distinct : (ircd.clients.map Client.id).Nodup := by
    have entryIds := sound.coherent.distinct
    rwa [nickTable, List.map_map] at entryIds
  exact KeyedList.eq_of_key_eq distinct member member'
    (congrArg NickEntry.id same)

theorem NicksSound.nicksUnique {ircd : Ircd} (sound : ircd.NicksSound) :
    ircd.NicksUnique := by
  intro cptr member acptr member' isUser isUser' same
  exact sound.eq_of_nickEntry_eq member member'
    (sound.apart.unique _ (List.mem_map_of_mem member) _
      (List.mem_map_of_mem member') (by simpa [Client.nickEntry] using isUser)
      (by simpa [Client.nickEntry] using isUser') same)

theorem NicksSound.nicksFound {ircd : Ircd} (sound : ircd.NicksSound) :
    ircd.NicksFound := by
  intro cptr member isUser
  have found := sound.coherent.find_name sound.apart
    (List.mem_map_of_mem member) (by simpa [Client.nickEntry] using isUser)
  rw [find_nickTable] at found
  obtain ⟨acptr, isAcptr, same⟩ := Option.map_eq_some_iff.mp found
  have isSame := sound.eq_of_nickEntry_eq (mem_of_clientFindNick isAcptr)
    member same
  exact isAcptr.trans (congrArg some isSame)

end Ircd

end Chaosircd
