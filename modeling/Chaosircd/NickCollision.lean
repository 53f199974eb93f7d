import Chaosircd.NickBurst
import Chaosircd.TransitionSystem

/-!
# Nick collisions between two linking servers

While two servers exchange their users, each resolves the collisions that it
sees on its own and tells the home of a renamed user.  The nick that it picks is
compared with its own users only.  Two servers that find two users of the same
age pick the same nick for both, and a nick that is turned can be the nick of a
user that is still under way.  When no picked nick is in use on the other side,
both servers agree in the end.
-/

namespace Chaosircd

namespace Ircd

/-- The server records the nick for the user with the identifier. -/
def Records (ircd : Ircd) (uid nick : CString) : Prop :=
  ∃ cptr ∈ ircd.clients, cptr.IsUser ∧ cptr.uid = uid ∧ cptr.name = nick

/-- The server knows another one by name, behind the connection `l`, and both
use user identifiers on it. -/
def KnowsPeer (ircd : Ircd) (l : Nat) (name : CString) : Prop :=
  ∃ lcptr peer, ircd.lclient? l = some lcptr ∧ lcptr.type = .server ∧
    lcptr.capUid ∧ l ≠ ircd.lclientMe ∧ lcptr.client = some peer.id ∧
    peer ∈ ircd.clients ∧ peer.IsServer ∧ peer.source = l ∧
    ircd.serverFindName name = some peer

/-- The users of a server before a merge. -/
def userTable (ircd : Ircd) (uid : CString) :
    Option (NickMerge.Entry CString Int) :=
  (ircd.clients.find? fun cptr => cptr.IsUser ∧ cptr.uid = uid).map Client.entry

end Ircd

namespace ServerLink

/-- Two servers that have just been linked over the connections `link`: nicks
are unique on each side, user identifiers on both together, and the `NUSER` lines
of all users of a side are on their way, in any order. -/
structure Linking (link : Bool → Nat) (pair : ServerLink) : Prop where
  sound : ∀ side, (pair.ircd side).NicksSound
  me : ∀ side, ∃ me ∈ (pair.ircd side).clients,
    me.id = (pair.ircd side).clientMe ∧ me.IsServer
  peer : ∀ side,
    (pair.ircd side).KnowsPeer (link side) (pair.ircd (!side)).meName
  uidsFit : ∀ side, ∀ entry ∈ (pair.ircd side).userList,
    entry.1.uid.length ≤ idLen
  uidsUnique : ∀ side,
    ((pair.ircd side).userList.map fun entry => entry.1.uid).Nodup
  uidsApart : ∀ side, ∀ entry ∈ (pair.ircd side).userList,
    ∀ entry' ∈ (pair.ircd (!side)).userList, entry.1.uid ≠ entry'.1.uid
  notServers : ∀ side side', ∀ entry ∈ (pair.ircd side).userList,
    entry.1.uid ≠ strlcpy (pair.ircd side').meName (idLen + 1)
  inbox : ∀ side, ∃ order : List (Client × BurstFields),
    (order.map Prod.fst).Perm
        ((pair.ircd (!side)).clients.filter fun cptr => cptr.IsUser) ∧
      pair.inbox side = order.map fun item =>
        (pair.ircd (!side)).clientBurst item.1 item.2

/-- An introduction passes the checks of the other side, and a nick that is
picked for its user is in use by nobody else at its home. -/
def PicksFree (pair : ServerLink) (delivery : Delivery) : Prop :=
  match pair.inbox delivery.side with
  | ⟨_, command, [nick, _, tsArg, _, user, _, _, server, uid, _]⟩ :: _ =>
      command = "NUSER".toList →
        charsValidNick nick ∧ charsValidUser user ∧ nick.length ≤ nickLen ∧
        (pair.ircd delivery.side).serverFindName server ≠ none ∧
        ∀ acptr ∈ (pair.ircd delivery.side).clientFindNick nick,
          timeT acptr.ts ≤ timeT (strToul tsArg) →
            ((pair.ircd delivery.side).clientNickRotate nick = none →
              (pair.ircd delivery.side).NickRandom delivery.randomNick) ∧
            ∀ cptr ∈ (pair.ircd (!delivery.side)).clients, cptr.IsUser →
              cptr.uid ≠ uid → ¬ IcmpEq cptr.name
                ((pair.ircd delivery.side).nuserRename nick delivery.randomNick)
  | _ => True

/-- Both servers record the same nick for every user, all nicks are apart, and
no user is lost. -/
structure Converged (start final : ServerLink) : Prop where
  sameNicks : ∀ uid nick, (final.ircd false).Records uid nick ↔
    (final.ircd true).Records uid nick
  unique : ∀ side, (final.ircd side).NicksUnique
  kept : ∀ side side', ∀ cptr ∈ (start.ircd side).clients, cptr.IsUser →
    ∃ nick, (final.ircd side').Records cptr.uid nick

/-! ## The servers as tables -/

/-- The line introduces the user. -/
def IsIntro (line : Line)
    (item : CString × NickMerge.Entry CString Int) : Prop :=
  ∃ hops tsArg modes user hostreal hostip origin info,
    line = ⟨none, "NUSER".toList, [item.2.nick, hops, tsArg, modes, user,
      hostreal, hostip, origin, item.1, info]⟩ ∧
    timeT (strToul tsArg) = item.2.ts

/-- The line, sent by the server `name`, bounces the user. -/
def IsBounce (name : CString) (line : Line) (item : CString × CString) : Prop :=
  (∃ tsArg, line = ⟨some name, "NBOUNCE".toList, [item.1, item.2, tsArg]⟩) ∧
    item.2.length ≤ hostLen ∧ item.2 ≠ []

/-- The pair is in the state of a merge. -/
structure Related (start pair : ServerLink)
    (state : NickMerge.State CString CString Int) : Prop where
  tabulates : ∀ side, (pair.ircd side).Tabulates (state.table side)
  same : ∀ side, (start.ircd side).SameServers (pair.ircd side)
  inbox : ∀ side, ∃ intros bounces, pair.inbox side = intros ++ bounces ∧
    List.Forall₂ IsIntro intros (state.intros side) ∧
    List.Forall₂ (IsBounce (start.ircd (!side)).meName) bounces
      (state.bounces side)

/-- The merge that two linking servers start. -/
def startTable (pair : ServerLink) (side : Bool) :
    CString → Option (NickMerge.Entry CString Int) :=
  (pair.ircd side).userTable

section Start

variable {link : Bool → Nat} {start : ServerLink}

theorem Linking.distinct (linking : Linking link start) (side : Bool) :
    ((start.ircd side).clients.map Client.id).Nodup := by
  have entryIds := (linking.sound side).coherent.distinct
  rwa [Ircd.nickTable, List.map_map] at entryIds

/-- A user is in the list of user records. -/
theorem mem_userList {ircd : Ircd} {cptr : Client} (member : cptr ∈ ircd.clients)
    (isUser : cptr.IsUser) :
    ∃ user, (user, some cptr.id) ∈ ircd.userList ∧ user.uid = cptr.uid := by
  cases isKind : cptr.kind with
  | server name => simp [Client.IsUser, ClientKind.isUser, isKind] at isUser
  | user user =>
      refine ⟨user, Ircd.mem_userList_iff.mpr (.inl ⟨cptr, member, isKind, rfl⟩), ?_⟩
      simp [Client.uid, isKind]

theorem Linking.uid_injective (linking : Linking link start) (side : Bool) :
    ∀ cptr ∈ (start.ircd side).clients, ∀ acptr ∈ (start.ircd side).clients,
      cptr.IsUser → acptr.IsUser → cptr.uid = acptr.uid → cptr = acptr := by
  intro cptr member acptr member' isUser isUser' same
  obtain ⟨user, listed, isUid⟩ := mem_userList member isUser
  obtain ⟨user', listed', isUid'⟩ := mem_userList member' isUser'
  have sameEntry := KeyedList.eq_of_key_eq (linking.uidsUnique side) listed
    listed' (by rw [isUid, isUid', same])
  exact KeyedList.eq_of_key_eq (linking.distinct side) member member'
    (Option.some.inj (Prod.mk.inj sameEntry).2)

theorem Linking.tabulates (linking : Linking link start) (side : Bool) :
    (start.ircd side).Tabulates (start.startTable side) := by
  refine ⟨(linking.sound side).coherent, ?_, linking.uid_injective side, ?_⟩
  · intro cptr member isUser
    exact (linking.sound side).apart.named _ (List.mem_map_of_mem member)
      (by simpa [Client.nickEntry] using isUser)
  · intro uid entry
    rw [startTable, Ircd.userTable, Option.map_eq_some_iff]
    constructor
    · rintro ⟨cptr, found, isEntry⟩
      have isUser := List.find?_some found
      simp only [decide_eq_true_eq] at isUser
      exact ⟨cptr, List.mem_of_find?_eq_some found, isUser.1, isUser.2, isEntry⟩
    · rintro ⟨cptr, member, isUser, isUid, isEntry⟩
      refine ⟨cptr, ?_, isEntry⟩
      cases found : (start.ircd side).clients.find? fun cptr =>
          cptr.IsUser ∧ cptr.uid = uid with
      | none =>
          have missed := List.find?_eq_none.mp found cptr member
          simp [isUser, isUid] at missed
      | some other =>
          have otherUser := List.find?_some found
          simp only [decide_eq_true_eq] at otherUser
          rw [linking.uid_injective side other (List.mem_of_find?_eq_some found)
            cptr member otherUser.1 isUser (otherUser.2.trans isUid.symm)]

theorem Linking.mergeable (linking : Linking link start) :
    NickMerge.Mergeable IcmpEq start.startTable := by
  refine ⟨?_, ?_⟩
  · intro side uid entry isEntry
    cases isOther : start.startTable (!side) uid with
    | none => rfl
    | some other =>
        obtain ⟨cptr, member, isUser, isUid, -⟩ :=
          ((linking.tabulates side).table uid entry).mp isEntry
        obtain ⟨acptr, member', isUser', isUid', -⟩ :=
          ((linking.tabulates (!side)).table uid other).mp isOther
        obtain ⟨user, listed, sameUid⟩ := mem_userList member isUser
        obtain ⟨user', listed', sameUid'⟩ := mem_userList member' isUser'
        refine absurd ?_ (linking.uidsApart side _ listed _ listed')
        rw [sameUid, sameUid', isUid, isUid']
  · intro side uid uid' entry entry' isEntry isEntry' same
    obtain ⟨cptr, member, isUser, rfl, rfl⟩ :=
      ((linking.tabulates side).table uid entry).mp isEntry
    obtain ⟨acptr, member', isUser', rfl, rfl⟩ :=
      ((linking.tabulates side).table uid' entry').mp isEntry'
    rw [(linking.sound side).nicksUnique cptr member acptr member' isUser isUser'
      same]

/-- The merge starts when the servers are linked. -/
theorem Linking.related (linking : Linking link start)
    (stamped : ∀ side, ∀ cptr ∈ (start.ircd side).clients, cptr.IsUser →
      cptr.ts < 2 ^ 32) :
    ∃ state, Related start start state ∧
      NickMerge.Merging IcmpEq start.startTable state := by
  choose order perm inbox using linking.inbox
  have mem_order : ∀ side cptr, cptr ∈ (order side).map Prod.fst ↔
      cptr ∈ (start.ircd (!side)).clients ∧ cptr.IsUser := by
    intro side cptr
    rw [(perm side).mem_iff, List.mem_filter, decide_eq_true_eq]
  refine ⟨⟨start.startTable, fun side => (order side).map fun item =>
    (item.1.uid, item.1.entry), fun _ => []⟩, ⟨linking.tabulates,
    fun side => .refl _, ?_⟩, linking.mergeable.merging ?_ ?_⟩
  · intro side
    refine ⟨_, [], (inbox side).trans (List.append_nil _).symm, ?_, .nil⟩
    rw [List.forall₂_map_left_iff, List.forall₂_map_right_iff,
      List.forall₂_same]
    rintro ⟨cptr, fields⟩ member
    obtain ⟨isClient, isUser⟩ :=
      (mem_order side cptr).mp (List.mem_map_of_mem member)
    refine ⟨_, _, _, _, _, _, _, _, rfl, ?_⟩
    rw [strToul_formatLu, Nat.mod_eq_of_lt (stamped (!side) cptr isClient isUser)]
    rfl
  · intro side
    rw [List.map_map]
    have uids : (order side).map (Prod.fst ∘ fun item =>
        (item.1.uid, item.1.entry)) =
          ((order side).map Prod.fst).map Client.uid := by
      rw [List.map_map]
      rfl
    rw [uids]
    refine List.Nodup.map_on ?_ ?_
    · intro cptr member acptr member' same
      obtain ⟨isClient, isUser⟩ := (mem_order side cptr).mp member
      obtain ⟨isClient', isUser'⟩ := (mem_order side acptr).mp member'
      exact linking.uid_injective (!side) cptr isClient acptr isClient' isUser
        isUser' same
    · rw [(perm side).nodup_iff]
      exact (List.Nodup.of_map _ (linking.distinct (!side))).filter _
  · intro side uid entry
    rw [show start.startTable (!side) uid = some entry ↔ _ from
      (linking.tabulates (!side)).table uid entry, List.mem_map]
    constructor
    · rintro ⟨⟨cptr, fields⟩, member, same⟩
      obtain ⟨isClient, isUser⟩ :=
        (mem_order side cptr).mp (List.mem_map_of_mem member)
      obtain ⟨rfl, rfl⟩ := Prod.mk.inj same
      exact ⟨cptr, isClient, isUser, rfl, rfl⟩
    · rintro ⟨cptr, isClient, isUser, rfl, rfl⟩
      obtain ⟨item, member, rfl⟩ := List.mem_map.mp
        ((mem_order side cptr).mpr ⟨isClient, isUser⟩)
      exact ⟨item, member, rfl⟩

end Start

/-! ## Lines reach their handlers -/

theorem icmpEq_equivalence : Equivalence IcmpEq :=
  ⟨IcmpEq.refl, IcmpEq.symm, IcmpEq.trans⟩

section Receive

variable {link : Bool → Nat} {start pair : ServerLink} {side : Bool}
  {ircd : Ircd} {table : CString → Option (NickMerge.Entry CString Int)}

/-- The user records of a side are those of its table and of the connections
that were registering from the start. -/
theorem userFindUid_eq_none (same : (start.ircd side).SameServers ircd)
    (tabulates : ircd.Tabulates table) {uid : CString}
    (unknown : table (strlcpy uid (idLen + 1)) = none)
    (notPending : ∀ user ∈ (start.ircd side).pendingUsers,
      user.uid ≠ strlcpy uid (idLen + 1)) : ircd.userFindUid uid = none := by
  rw [Ircd.userFindUid, List.find?_eq_none]
  intro entry member isUid
  rw [decide_eq_true_eq] at isUid
  rcases Ircd.mem_userList_iff.mp member with
    ⟨cptr, isClient, isKind, -⟩ | ⟨isPending, -⟩
  · have isUser : cptr.IsUser := by
      simp [Client.IsUser, ClientKind.isUser, isKind]
    have sameUid : cptr.uid = strlcpy uid (idLen + 1) := by
      rw [← isUid, Client.uid, isKind]
    have isEntry := (tabulates.table _ _).mpr
      ⟨cptr, isClient, isUser, sameUid, rfl⟩
    rw [unknown] at isEntry
    cases isEntry
  · rw [same.pendingUsers] at isPending
    exact notPending entry.1 isPending isUid

theorem mem_userList_of_pending {ircd : Ircd} {user : User}
    (isPending : user ∈ ircd.pendingUsers) : (user, none) ∈ ircd.userList :=
  Ircd.mem_userList_iff.mpr (.inr ⟨isPending, rfl⟩)

/-- A line without a prefix is from the peer. -/
theorem Linking.serverLine_none (linking : Linking link start)
    (same : (start.ircd side).SameServers ircd)
    (distinct : (ircd.clients.map Client.id).Nodup) :
    ∃ lcptr peer, ircd.serverLine (link side) none = some (lcptr, peer) ∧
      lcptr.id = link side ∧ peer.IsServer ∧ peer.source = link side := by
  obtain ⟨lcptr, peer, found, isServer, -, notMe, isClient, member, peerServer,
    source, -⟩ := linking.peer side
  obtain ⟨lcptr', found', role⟩ := same.lclient? found
  have isId : lcptr'.id = link side := by simpa using List.find?_some found'
  simp only [Lclient.role, Prod.mk.injEq] at role
  have shown := same.client? distinct member peerServer
  refine ⟨lcptr', peer, ?_, isId, peerServer, source⟩
  rw [Ircd.serverLine, found', Option.bind_some, if_pos]
  · simp [Ircd.lineSource, role.2.2.2.1, isClient, shown, source, isId]
  · exact ⟨role.2.1.trans isServer, by rw [isId, same.lclientMe]; exact notMe⟩

/-- A line with the name of the peer as its prefix is from the peer. -/
theorem Linking.serverLine_me (linking : Linking link start)
    (same : (start.ircd side).SameServers ircd)
    (noUid : ircd.userFindUid (start.ircd (!side)).meName = none) :
    ∃ lcptr peer, ircd.serverLine (link side)
        (some (start.ircd (!side)).meName) = some (lcptr, peer) ∧
      lcptr.id = link side ∧ lcptr.capUid := by
  obtain ⟨lcptr, peer, found, isServer, capUid, notMe, -, -, -, source, isPeer⟩ :=
    linking.peer side
  obtain ⟨lcptr', found', role⟩ := same.lclient? found
  have isId : lcptr'.id = link side := by simpa using List.find?_some found'
  simp only [Lclient.role, Prod.mk.injEq] at role
  refine ⟨lcptr', peer, ?_, isId, role.2.2.1.trans capUid⟩
  rw [Ircd.serverLine, found', Option.bind_some, if_pos]
  · simp [Ircd.lineSource, Ircd.lclientPrefix, noUid,
      same.serverFindName, isPeer, source, isId]
  · exact ⟨role.2.1.trans isServer, by rw [isId, same.lclientMe]; exact notMe⟩

/-- The server's own name stays. -/
theorem Linking.meName_eq (linking : Linking link start)
    (same : (start.ircd side).SameServers ircd)
    (distinct : (ircd.clients.map Client.id).Nodup) :
    ircd.meName = (start.ircd side).meName := by
  obtain ⟨me, member, isMe, isServer⟩ := linking.me side
  have shown := Ircd.client?_of_mem (linking.distinct side) member
  rw [Ircd.meName, Ircd.meName, same.clientMe, ← isMe,
    same.client? distinct member isServer, shown]

/-- `ms_nuser` behind its checks. -/
theorem msNuser_of_accepted (l : Nat) {cptr sptr : Client}
    {nick hops tsArg modes user hostreal hostip origin uid info : CString}
    (randomNick : CString)
    (accepted : ircd.NuserAccepted cptr nick user origin uid)
    (isOrigin : ircd.serverFindName origin = some sptr) :
    ircd.msNuser l cptr [nick, hops, tsArg, modes, user, hostreal, hostip,
        origin, uid, info] randomNick =
      match ircd.clientFindNick nick with
      | none =>
          (ircd.clientNewRemote
            (.user ⟨strlcpy user 17, strlcpy uid (idLen + 1)⟩) l sptr.id nick
            (strToul tsArg), [])
      | some acptr =>
          if timeT acptr.ts ≤ timeT (strToul tsArg) then
            (ircd.clientNewRemote
              (.user ⟨strlcpy user 17, strlcpy uid (idLen + 1)⟩) l sptr.id
              (ircd.nuserRename nick randomNick) ircd.systime,
              [⟨cptr.source, some ircd.meName, "NBOUNCE".toList,
                [uid, ircd.nuserRename nick randomNick,
                  formatLu ircd.systime]⟩])
          else
            (ircd.clientNewRemote
              (.user ⟨strlcpy user 17, strlcpy uid (idLen + 1)⟩) l sptr.id nick
              (strToul tsArg), []) := by
  obtain ⟨isServer, unknown, validNick, validUser, -⟩ := accepted
  cases found : ircd.clientFindNick nick <;>
    simp only [Ircd.msNuser, if_pos isServer, unknown, validNick, validUser,
      isOrigin, ne_eq, not_true_eq_false, Bool.not_true, Bool.false_eq_true,
      if_false, found]

/-- The nick that is picked for a newcomer is held by nobody here. -/
theorem nuserRename_free {nick randomNick : CString}
    (short : nick.length ≤ nickLen)
    (random : ircd.clientNickRotate nick = none → ircd.NickRandom randomNick) :
    ircd.nuserRename nick randomNick ≠ [] ∧
      (ircd.nuserRename nick randomNick).length ≤ hostLen ∧
        ircd.clientFindNick (ircd.nuserRename nick randomNick) = none := by
  have nickFits : nickLen ≤ hostLen := by decide
  cases rotated : ircd.clientNickRotate nick with
  | none =>
      obtain ⟨nonempty, shorter, unused⟩ := random rotated
      simp only [Ircd.nuserRename, rotated, Option.getD_none]
      exact ⟨nonempty, by omega, unused⟩
  | some candidate =>
      obtain ⟨nonempty, sameLength, unused⟩ := Ircd.rotate_eq_some rotated
      simp only [Ircd.nuserRename, rotated, Option.getD_some]
      exact ⟨nonempty, by omega, unused⟩

/-- The state behind a delivery, from the parts that it changes. -/
theorem Related.next {state state' : NickMerge.State CString CString Int}
    (related : Related start pair state) {rest answers : List Line}
    (tabulates : ircd.Tabulates (state'.table side))
    (otherTable : state'.table (!side) = state.table (!side))
    (same : (start.ircd side).SameServers ircd)
    (inbox : ∃ intros bounces, rest = intros ++ bounces ∧
      List.Forall₂ IsIntro intros (state'.intros side) ∧
      List.Forall₂ (IsBounce (start.ircd (!side)).meName) bounces
        (state'.bounces side))
    (otherInbox : ∃ intros bounces,
      pair.inbox (!side) ++ answers = intros ++ bounces ∧
      List.Forall₂ IsIntro intros (state'.intros (!side)) ∧
      List.Forall₂ (IsBounce (start.ircd side).meName) bounces
        (state'.bounces (!side))) :
    Related start
      { ircd := Function.update pair.ircd side ircd
        inbox := Function.update (Function.update pair.inbox side rest)
          (!side) (pair.inbox (!side) ++ answers) } state' := by
  have otherSide : (!side) ≠ side := by simp
  refine ⟨?_, ?_, ?_⟩
  · intro side'
    dsimp only
    rcases Bool.eq_or_eq_not side' side with rfl | rfl
    · rw [Function.update_self]
      exact tabulates
    · rw [Function.update_of_ne otherSide, otherTable]
      exact related.tabulates (!side)
  · intro side'
    dsimp only
    rcases Bool.eq_or_eq_not side' side with rfl | rfl
    · rw [Function.update_self]
      exact same
    · rw [Function.update_of_ne otherSide]
      exact related.same (!side)
  · intro side'
    dsimp only
    rcases Bool.eq_or_eq_not side' side with rfl | rfl
    · rw [Function.update_of_ne otherSide.symm, Function.update_self]
      exact inbox
    · rw [Function.update_self, Bool.not_not]
      exact otherInbox

theorem Related.distinct {state : NickMerge.State CString CString Int}
    (related : Related start pair state) (side : Bool) :
    ((pair.ircd side).clients.map Client.id).Nodup :=
  (related.tabulates side).distinct

/-- The clock does not show in the tables. -/
theorem Related.tabulates_systime {state : NickMerge.State CString CString Int}
    (related : Related start pair state) (side : Bool) (systime : Nat) :
    Ircd.Tabulates { pair.ircd side with systime := systime }
      (state.table side) := by
  have tabulates := related.tabulates side
  exact ⟨tabulates.coherent, tabulates.named, tabulates.unique, tabulates.table⟩

theorem Related.same_systime {state : NickMerge.State CString CString Int}
    (related : Related start pair state) (side : Bool) (systime : Nat) :
    (start.ircd side).SameServers { pair.ircd side with systime := systime } := by
  have same := related.same side
  exact ⟨same.servers, same.lclients, same.lclientMe, same.clientMe⟩

/-- An introduction whose user is registered under its nick. -/
theorem Related.keep {state : NickMerge.State CString CString Int}
    (related : Related start pair state) {uid : CString}
    {entry : NickMerge.Entry CString Int}
    {items : List (CString × NickMerge.Entry CString Int)}
    {lines bounces : List Line}
    (registered : ircd.Tabulates
      (Function.update (state.table side) uid (some entry)))
    (same : (start.ircd side).SameServers ircd)
    (isIntros : List.Forall₂ IsIntro lines items)
    (isBounces : List.Forall₂ (IsBounce (start.ircd (!side)).meName) bounces
      (state.bounces side)) :
    Related start
      { ircd := Function.update pair.ircd side ircd
        inbox := Function.update
          (Function.update pair.inbox side (lines ++ bounces)) (!side)
          (pair.inbox (!side) ++ []) }
      { state with
        table := NickMerge.setEntry state.table side uid entry
        intros := Function.update state.intros side items } := by
  have otherSide : (!side) ≠ side := by simp
  obtain ⟨intros', bounces', isInbox', isIntros', isBounces'⟩ :=
    related.inbox (!side)
  rw [Bool.not_not] at isBounces'
  apply related.next _ (NickMerge.setEntry_flip _ _ _ _) same
  · refine ⟨lines, bounces, rfl, ?_, isBounces⟩
    dsimp only
    rw [Function.update_self]
    exact isIntros
  · refine ⟨intros', bounces', ?_, ?_, isBounces'⟩
    · rw [List.append_nil, isInbox']
    · dsimp only
      rw [Function.update_of_ne otherSide]
      exact isIntros'
  · dsimp only
    rw [NickMerge.setEntry_side]
    exact registered

/-- An introduction whose user is registered under another nick and bounced. -/
theorem Related.rename {state : NickMerge.State CString CString Int}
    (related : Related start pair state) {uid nick : CString} {ts : Int}
    {items : List (CString × NickMerge.Entry CString Int)}
    {lines bounces : List Line} {answer : Line}
    (registered : ircd.Tabulates
      (Function.update (state.table side) uid (some ⟨nick, ts⟩)))
    (same : (start.ircd side).SameServers ircd)
    (isIntros : List.Forall₂ IsIntro lines items)
    (isBounces : List.Forall₂ (IsBounce (start.ircd (!side)).meName) bounces
      (state.bounces side))
    (isAnswer : IsBounce (start.ircd side).meName answer (uid, nick)) :
    Related start
      { ircd := Function.update pair.ircd side ircd
        inbox := Function.update
          (Function.update pair.inbox side (lines ++ bounces)) (!side)
          (pair.inbox (!side) ++ [answer]) }
      { table := NickMerge.setEntry state.table side uid ⟨nick, ts⟩
        intros := Function.update state.intros side items
        bounces := Function.update state.bounces (!side)
          (state.bounces (!side) ++ [(uid, nick)]) } := by
  have otherSide : (!side) ≠ side := by simp
  obtain ⟨intros', bounces', isInbox', isIntros', isBounces'⟩ :=
    related.inbox (!side)
  rw [Bool.not_not] at isBounces'
  apply related.next _ (NickMerge.setEntry_flip _ _ _ _) same
  · refine ⟨lines, bounces, rfl, ?_, ?_⟩ <;> dsimp only
    · rw [Function.update_self]
      exact isIntros
    · rw [Function.update_of_ne otherSide.symm]
      exact isBounces
  · refine ⟨intros', bounces' ++ [answer], ?_, ?_, ?_⟩
    · rw [isInbox', List.append_assoc]
    · dsimp only
      rw [Function.update_of_ne otherSide]
      exact isIntros'
    · dsimp only
      rw [Function.update_self]
      exact List.rel_append isBounces' (.cons isAnswer .nil)
  · dsimp only
    rw [NickMerge.setEntry_side]
    exact registered

/-- A bounce that reaches the home of its user. -/
theorem Related.bounce {state : NickMerge.State CString CString Int}
    (related : Related start pair state) {uid nick : CString} {ts : Int}
    {items : List (CString × CString)} {bounces : List Line}
    (introduced : state.intros side = [])
    (renamed : ircd.Tabulates
      (Function.update (state.table side) uid (some ⟨nick, ts⟩)))
    (same : (start.ircd side).SameServers ircd)
    (isBounces : List.Forall₂ (IsBounce (start.ircd (!side)).meName) bounces
      items) :
    Related start
      { ircd := Function.update pair.ircd side ircd
        inbox := Function.update (Function.update pair.inbox side bounces)
          (!side) (pair.inbox (!side) ++ []) }
      { state with
        table := NickMerge.setEntry state.table side uid ⟨nick, ts⟩
        bounces := Function.update state.bounces side items } := by
  have otherSide : (!side) ≠ side := by simp
  obtain ⟨intros', bounces', isInbox', isIntros', isBounces'⟩ :=
    related.inbox (!side)
  rw [Bool.not_not] at isBounces'
  apply related.next _ (NickMerge.setEntry_flip _ _ _ _) same
  · refine ⟨[], bounces, rfl, ?_, ?_⟩ <;> dsimp only
    · rw [introduced]
      exact .nil
    · rw [Function.update_self]
      exact isBounces
  · refine ⟨intros', bounces', ?_, isIntros', ?_⟩
    · rw [List.append_nil, isInbox']
    · dsimp only
      rw [Function.update_of_ne otherSide]
      exact isBounces'
  · dsimp only
    rw [NickMerge.setEntry_side]
    exact renamed

/-- A user of the other side at the start. -/
theorem Linking.newcomer (linking : Linking link start) {uid : CString}
    {entry : NickMerge.Entry CString Int}
    (isStart : start.startTable (!side) uid = some entry) :
    strlcpy uid (idLen + 1) = uid ∧ uid.length ≤ idLen ∧ entry.nick ≠ [] ∧
      ∀ user ∈ (start.ircd side).pendingUsers, user.uid ≠ uid := by
  obtain ⟨cptr, member, isUser, rfl, rfl⟩ :=
    ((linking.tabulates (!side)).table uid entry).mp isStart
  obtain ⟨user, listed, sameUid⟩ := mem_userList member isUser
  have fits := linking.uidsFit (!side) _ listed
  rw [sameUid] at fits
  refine ⟨strlcpy_eq_self (Nat.lt_succ_of_le fits), fits,
    (linking.tabulates (!side)).named cptr member isUser, ?_⟩
  intro pending isPending same
  refine linking.uidsApart side _ (mem_userList_of_pending isPending) _ listed ?_
  rw [same, sameUid]

/-- A line that introduces a user is handled. -/
theorem Linking.receive_intro (linking : Linking link start)
    {state : NickMerge.State CString CString Int}
    (related : Related start pair state)
    (merging : NickMerge.Merging IcmpEq start.startTable state)
    {delivery : Delivery} (guard : PicksFree pair delivery) {line : Line}
    {lines bounces : List Line} {item : CString × NickMerge.Entry CString Int}
    {items : List (CString × NickMerge.Entry CString Int)}
    (isInbox : pair.inbox delivery.side = (line :: lines) ++ bounces)
    (isItems : state.intros delivery.side = item :: items)
    (isIntro : IsIntro line item) (isIntros : List.Forall₂ IsIntro lines items)
    (isBounces : List.Forall₂ (IsBounce (start.ircd (!delivery.side)).meName)
      bounces (state.bounces delivery.side))
    {next : ServerLink} (stepped : step link pair delivery = some next) :
    ∃ state', Related start next state' ∧
      NickMerge.Merging IcmpEq start.startTable state' := by
  obtain ⟨side, systime, randomNick⟩ := delivery
  obtain ⟨uid, entry⟩ := item
  obtain ⟨hops, tsArg, modes, user, hostreal, hostip, origin, info, rfl, isTs⟩ :=
    isIntro
  dsimp only at guard isInbox isItems isTs isBounces
  obtain ⟨isStart, unknown, -⟩ := merging.newcomer isItems
  obtain ⟨isUid, uidFits, nonempty, notPending⟩ := linking.newcomer isStart
  simp only [PicksFree, isInbox, List.cons_append, forall_const] at guard
  obtain ⟨validNick, validUser, short, known, picks⟩ := guard
  have nickFits : nickLen ≤ hostLen := by decide
  have tabulates := related.tabulates_systime side systime
  have same := related.same_systime side systime
  simp only [step, isInbox, List.cons_append, Option.some.injEq] at stepped
  have picks' : ∀ acptr, (Ircd.clientFindNick
      { pair.ircd side with systime := systime } entry.nick) = some acptr →
        timeT acptr.ts ≤ timeT (strToul tsArg) →
          ((Ircd.clientNickRotate { pair.ircd side with systime := systime }
              entry.nick) = none →
            Ircd.NickRandom { pair.ircd side with systime := systime }
              randomNick) ∧
          ∀ cptr ∈ (pair.ircd (!side)).clients, cptr.IsUser → cptr.uid ≠ uid →
            ¬ IcmpEq cptr.name (Ircd.nuserRename
              { pair.ircd side with systime := systime } entry.nick
                randomNick) := picks
  replace known : Ircd.serverFindName
      { pair.ircd side with systime := systime } origin ≠ none := known
  generalize ({ pair.ircd side with systime := systime } : Ircd) = ircd at *
  obtain ⟨lcptr, peer, isLine, isId, peerServer, source⟩ :=
    linking.serverLine_none same tabulates.distinct
  have noUid : ircd.userFindUid uid = none := by
    apply userFindUid_eq_none same tabulates
    · rwa [isUid]
    · rwa [isUid]
  obtain ⟨sptr, isOrigin⟩ := Option.ne_none_iff_exists'.mp known
  have accepted : ircd.NuserAccepted peer entry.nick user origin uid :=
    ⟨peerServer, noUid, validNick, validUser, known⟩
  have isMe := linking.meName_eq same tabulates.distinct
  rw [Ircd.receive_nuser isLine, msNuser_of_accepted lcptr.id randomNick accepted isOrigin]
    at stepped
  -- the newcomer is registered under its own nick and nothing is answered
  have keep : ((∀ other, ¬ state.Holder IcmpEq side entry.nick other) ∨
      ∃ other holder, state.table side other = some holder ∧
        IcmpEq holder.nick entry.nick ∧ entry.ts < holder.ts) →
      ∃ state', Related start
        { ircd := Function.update pair.ircd side (ircd.clientNewRemote
            (.user ⟨strlcpy user 17, strlcpy uid (idLen + 1)⟩) lcptr.id sptr.id
              entry.nick (strToul tsArg))
          inbox := Function.update
            (Function.update pair.inbox side (lines ++ bounces)) (!side)
            (pair.inbox (!side) ++ []) } state' ∧
        NickMerge.Merging IcmpEq start.startTable state' := by
    intro wins
    obtain ⟨registered, sameServers⟩ := tabulates.register (strlcpy user 17)
      lcptr.id sptr.id (strToul tsArg) unknown uidFits (short.trans nickFits)
      nonempty
    refine ⟨{ state with
      table := NickMerge.setEntry state.table side uid entry
      intros := Function.update state.intros side items }, ?_,
      merging.keep icmpEq_equivalence linking.mergeable isItems wins⟩
    rw [isTs] at registered
    exact related.keep registered (same.trans sameServers) isIntros isBounces
  cases found : ircd.clientFindNick entry.nick with
  | none =>
      rw [found] at stepped
      rw [← stepped]
      exact keep (.inl fun other => tabulates.not_held found other)
  | some acptr =>
      rw [found] at stepped
      dsimp only at stepped
      split_ifs at stepped with loses
      · obtain ⟨random, freeAtHome⟩ := picks' acptr found loses
        obtain ⟨picked, pickedFits, unused⟩ := nuserRename_free short random
        obtain ⟨registered, sameServers⟩ := tabulates.register (strlcpy user 17)
          lcptr.id sptr.id ircd.systime unknown uidFits pickedFits picked
        generalize ircd.nuserRename entry.nick randomNick = newnick at *
        refine ⟨
          { table := NickMerge.setEntry state.table side uid
              ⟨newnick, timeT ircd.systime⟩
            intros := Function.update state.intros side items
            bounces := Function.update state.bounces (!side)
              (state.bounces (!side) ++ [(uid, newnick)]) }, ?_,
          merging.rename icmpEq_equivalence linking.mergeable isItems
            (fun other => tabulates.not_held unused other) ?_⟩
        · rw [← stepped]
          have answered : ([⟨peer.source, some ircd.meName, "NBOUNCE".toList,
                [uid, newnick, formatLu ircd.systime]⟩] : List Send).filter
                  (fun send => send.lclient = link side) =
              [⟨peer.source, some ircd.meName, "NBOUNCE".toList,
                [uid, newnick, formatLu ircd.systime]⟩] := by
            simp [source]
          rw [answered]
          refine related.rename registered (same.trans sameServers) isIntros
            isBounces ⟨⟨formatLu ircd.systime, ?_⟩, pickedFits, picked⟩
          rw [isMe]
        · rintro other notUser ⟨shown, isShown, sameNick⟩
          obtain ⟨cptr, member, isUser, rfl, rfl⟩ :=
            ((related.tabulates (!side)).table other shown).mp isShown
          exact freeAtHome cptr member isUser notUser sameNick
      · rw [← stepped]
        obtain ⟨isHolder, sameNick⟩ := tabulates.held found
        refine keep (.inr ⟨acptr.uid, acptr.entry, isHolder, sameNick, ?_⟩)
        rw [← isTs]
        exact Int.not_le.mp loses

/-- No user has the name of a server as its identifier. -/
theorem Linking.noUid (linking : Linking link start)
    {state : NickMerge.State CString CString Int}
    (merging : NickMerge.Merging IcmpEq start.startTable state)
    (same : (start.ircd side).SameServers ircd)
    (tabulates : ircd.Tabulates (state.table side)) (side' : Bool) :
    ircd.userFindUid (start.ircd side').meName = none := by
  have notUid : ∀ home cptr, cptr ∈ (start.ircd home).clients → cptr.IsUser →
      cptr.uid ≠ strlcpy (start.ircd side').meName (idLen + 1) := by
    intro home cptr member isUser
    obtain ⟨user, listed, isUid⟩ := mem_userList member isUser
    rw [← isUid]
    exact linking.notServers home side' _ listed
  apply userFindUid_eq_none same tabulates
  · by_contra known
    obtain ⟨entry, isEntry⟩ := Option.ne_none_iff_exists'.mp known
    rcases merging.known side _ entry isEntry with ⟨near, isStart⟩ | ⟨far, isStart⟩
    · obtain ⟨cptr, member, isUser, isUid, -⟩ :=
        ((linking.tabulates side).table _ _).mp isStart
      exact notUid side cptr member isUser isUid
    · obtain ⟨cptr, member, isUser, isUid, -⟩ :=
        ((linking.tabulates (!side)).table _ _).mp isStart
      exact notUid (!side) cptr member isUser isUid
  · intro user isPending
    exact linking.notServers side side' _ (mem_userList_of_pending isPending)

/-- A user that is known from the start is found by its identifier. -/
theorem Linking.clientFindUid (linking : Linking link start)
    (same : (start.ircd side).SameServers ircd)
    (tabulates : ircd.Tabulates table) {uid : CString}
    {near entry : NickMerge.Entry CString Int}
    (isStart : start.startTable side uid = some near)
    (isEntry : table uid = some entry) :
    ∃ acptr ∈ ircd.clients, ircd.clientFindUid uid = some acptr ∧
      acptr.IsUser ∧ acptr.uid = uid := by
  obtain ⟨cptr, member, isUser, rfl, -⟩ :=
    ((linking.tabulates side).table uid near).mp isStart
  obtain ⟨startUser, listed, startUid⟩ := mem_userList member isUser
  have fits : strlcpy cptr.uid (idLen + 1) = cptr.uid := by
    have fits := linking.uidsFit side _ listed
    rw [startUid] at fits
    exact strlcpy_eq_self (Nat.lt_succ_of_le fits)
  obtain ⟨acptr, isClient, acptrUser, acptrUid, -⟩ :=
    (tabulates.table cptr.uid entry).mp isEntry
  obtain ⟨user, isListed, isUid⟩ := mem_userList isClient acptrUser
  refine ⟨acptr, isClient, ?_, acptrUser, acptrUid⟩
  cases found : ircd.userFindUid cptr.uid with
  | none =>
      have missed := List.find?_eq_none.mp found _ isListed
      simp [isUid, acptrUid, fits] at missed
  | some shown =>
      have shownUid := List.find?_some found
      rw [decide_eq_true_eq, fits] at shownUid
      rcases Ircd.mem_userList_iff.mp (List.mem_of_find?_eq_some found) with
        ⟨other, isOther, isKind, isId⟩ | ⟨isPending, -⟩
      · have otherUser : other.IsUser := by
          simp [Client.IsUser, ClientKind.isUser, isKind]
        have otherUid : other.uid = acptr.uid := by
          rw [acptrUid, ← shownUid, Client.uid, isKind]
        obtain rfl := tabulates.unique other isOther acptr isClient otherUser
          acptrUser otherUid
        rw [Ircd.clientFindUid, found, Option.bind_some, isId, Option.bind_some]
        exact Ircd.client?_of_mem tabulates.distinct isOther
      · rw [same.pendingUsers] at isPending
        have sameEntry := KeyedList.eq_of_key_eq (linking.uidsUnique side)
          (mem_userList_of_pending isPending) listed
          (shownUid.trans startUid.symm)
        cases (Prod.mk.inj sameEntry).2

/-- Nothing is sent back over the connection that is left out. -/
theorem filter_serverSend (ircd : Ircd) (l : Nat) (capUid : Bool) (line : Line) :
    (ircd.serverSend (some l) capUid line).filter
      (fun send => send.lclient = l) = [] := by
  rw [List.filter_eq_nil_iff]
  intro send member
  obtain ⟨lcptr, isLcptr, rfl⟩ := List.mem_map.mp member
  have sent := (List.mem_filter.mp isLcptr).2
  simp only [decide_eq_true_eq] at sent
  simp only [decide_eq_true_eq]
  exact fun same => sent.2.1 (congrArg some same)

/-- A line that bounces a user is handled. -/
theorem Linking.receive_bounce (linking : Linking link start)
    {state : NickMerge.State CString CString Int}
    (related : Related start pair state)
    (merging : NickMerge.Merging IcmpEq start.startTable state)
    {delivery : Delivery} {line : Line} {bounces : List Line}
    {item : CString × CString} {items : List (CString × CString)}
    (isInbox : pair.inbox delivery.side = line :: bounces)
    (introduced : state.intros delivery.side = [])
    (isItems : state.bounces delivery.side = item :: items)
    (isBounce : IsBounce (start.ircd (!delivery.side)).meName line item)
    (isBounces : List.Forall₂ (IsBounce (start.ircd (!delivery.side)).meName)
      bounces items)
    {next : ServerLink} (stepped : step link pair delivery = some next) :
    ∃ state', Related start next state' ∧
      NickMerge.Merging IcmpEq start.startTable state' := by
  obtain ⟨side, systime, randomNick⟩ := delivery
  obtain ⟨uid, nick⟩ := item
  obtain ⟨⟨tsArg, rfl⟩, nickFits, nonempty⟩ := isBounce
  dsimp only at isInbox isItems introduced isBounces nickFits nonempty
  have tabulates := related.tabulates_systime side systime
  have same := related.same_systime side systime
  simp only [step, isInbox, Option.some.injEq] at stepped
  generalize ({ pair.ircd side with systime := systime } : Ircd) = ircd at *
  obtain ⟨⟨near, isStart⟩, -⟩ := merging.bounced side uid nick (by
    rw [isItems]
    exact List.mem_cons_self)
  obtain ⟨entry, isEntry⟩ := merging.home side uid near isStart
  obtain ⟨acptr, member, found, isUser, rfl⟩ :=
    linking.clientFindUid same tabulates isStart isEntry
  obtain ⟨lcptr, peer, isLine, isId, capUid⟩ := linking.serverLine_me same
    (linking.noUid merging same tabulates (!side))
  have renamed :=
    tabulates.rename member isUser (strToul tsArg) nickFits nonempty
  have sameServers :=
    tabulates.sameServers_renamed member isUser (strToul tsArg) nickFits
  rw [Ircd.receive_nbounce isLine] at stepped
  simp only [Ircd.msNbounce, Ircd.nbounceTarget, capUid, if_true, found, isId,
    List.filter_append, filter_serverSend, List.append_nil, List.map_nil] at stepped
  refine ⟨_, ?_, merging.bounce linking.mergeable (timeT ircd.systime)
    introduced isItems⟩
  rw [← stepped]
  rw [← List.append_nil (pair.inbox (!side))]
  exact related.bounce introduced renamed (same.trans sameServers) isBounces

/-- One delivery keeps the servers in the state of a merge. -/
theorem Linking.step (linking : Linking link start)
    {state : NickMerge.State CString CString Int}
    (related : Related start pair state)
    (merging : NickMerge.Merging IcmpEq start.startTable state)
    {delivery : Delivery} (guard : PicksFree pair delivery) {next : ServerLink}
    (stepped : pair.step link delivery = some next) :
    ∃ state', Related start next state' ∧
      NickMerge.Merging IcmpEq start.startTable state' := by
  obtain ⟨intros, bounces, isInbox, isIntros, isBounces⟩ :=
    related.inbox delivery.side
  cases isItems : state.intros delivery.side with
  | cons item items =>
      rw [isItems] at isIntros
      cases isIntros with
      | cons isIntro isIntros =>
          exact linking.receive_intro related merging guard isInbox isItems
            isIntro isIntros isBounces stepped
  | nil =>
      rw [isItems] at isIntros
      cases isIntros
      rw [List.nil_append] at isInbox
      cases isPending : state.bounces delivery.side with
      | cons item items =>
          rw [isPending] at isBounces
          cases isBounces with
          | cons isBounce isBounces =>
              exact linking.receive_bounce related merging isInbox isItems
                isPending isBounce isBounces stepped
      | nil =>
          rw [isPending] at isBounces
          cases isBounces
          simp only [ServerLink.step, isInbox, Option.some.injEq] at stepped
          subst stepped
          exact ⟨state, related, merging⟩

end Receive

variable {link : Bool → Nat} {start final : ServerLink}

/-- When everything is handled, both servers have merged their users. -/
theorem Linking.converged (linking : Linking link start)
    {state : NickMerge.State CString CString Int}
    (related : Related start final state)
    (merging : NickMerge.Merging IcmpEq start.startTable state)
    (handled : ∀ side, final.inbox side = []) : Converged start final := by
  have empty : ∀ side, state.intros side = [] ∧ state.bounces side = [] := by
    intro side
    obtain ⟨intros, bounces, isInbox, isIntros, isBounces⟩ := related.inbox side
    rw [handled, eq_comm, List.append_eq_nil_iff] at isInbox
    obtain ⟨rfl, rfl⟩ := isInbox
    cases isIntros' : state.intros side with
    | cons item items =>
        rw [isIntros'] at isIntros
        cases isIntros
    | nil =>
        cases isBounces' : state.bounces side with
        | cons item items =>
            rw [isBounces'] at isBounces
            cases isBounces
        | nil => exact ⟨rfl, rfl⟩
  obtain ⟨agreed, apart⟩ := merging.finished (fun side => (empty side).1)
    fun side => (empty side).2
  have records : ∀ side uid nick, (final.ircd side).Records uid nick ↔
      ∃ entry, state.table side uid = some entry ∧ entry.nick = nick := by
    intro side uid nick
    constructor
    · rintro ⟨cptr, member, isUser, isUid, isNick⟩
      exact ⟨cptr.entry, ((related.tabulates side).table _ _).mpr
        ⟨cptr, member, isUser, isUid, rfl⟩, isNick⟩
    · rintro ⟨entry, isEntry, isNick⟩
      obtain ⟨cptr, member, isUser, isUid, rfl⟩ :=
        ((related.tabulates side).table _ _).mp isEntry
      exact ⟨cptr, member, isUser, isUid, isNick⟩
  -- what one side records, the other one does, too
  have carried : ∀ side uid nick, (final.ircd side).Records uid nick →
      (final.ircd (!side)).Records uid nick := by
    intro side uid nick recorded
    obtain ⟨entry, isEntry, isNick⟩ := (records side uid nick).mp recorded
    rw [records]
    rcases merging.known side uid entry isEntry with
      ⟨near, isStart⟩ | ⟨far, isStart⟩
    · obtain ⟨near', far', isNear, isFar, same⟩ := agreed side uid near isStart
      obtain rfl := Option.some.inj (isNear.symm.trans isEntry)
      exact ⟨far', isFar, same.symm.trans isNick⟩
    · obtain ⟨near', far', isNear, isFar, same⟩ :=
        agreed (!side) uid far isStart
      rw [Bool.not_not] at isFar
      obtain rfl := Option.some.inj (isFar.symm.trans isEntry)
      exact ⟨near', isNear, same.trans isNick⟩
  refine ⟨?_, ?_, ?_⟩
  · exact fun uid nick => ⟨carried false uid nick, carried true uid nick⟩
  · intro side cptr member acptr member' isUser isUser' same
    have isEntry := ((related.tabulates side).table _ _).mpr
      ⟨cptr, member, isUser, rfl, rfl⟩
    have isEntry' := ((related.tabulates side).table _ _).mpr
      ⟨acptr, member', isUser', rfl, rfl⟩
    have sameUid := apart side _ _ _ _ isEntry isEntry' same
    rw [(related.tabulates side).unique cptr member acptr member' isUser isUser'
      sameUid]
  · intro side side' cptr member isUser
    have isStart := ((linking.tabulates side).table _ _).mpr
      ⟨cptr, member, isUser, rfl, rfl⟩
    obtain ⟨near, far, isNear, isFar, same⟩ := agreed side _ _ isStart
    rcases Bool.eq_or_eq_not side' side with rfl | rfl
    · exact ⟨_, (records _ _ _).mpr ⟨near, isNear, rfl⟩⟩
    · exact ⟨_, (records _ _ _).mpr ⟨far, isFar, rfl⟩⟩

/-- Two servers that have been linked agree on their users when everything has
been handled, as long as no nick that was picked is in use. -/
theorem converged_of_run {deliveries : List Delivery}
    (linking : Linking link start)
    (stamped : ∀ side, ∀ cptr ∈ (start.ircd side).clients, cptr.IsUser →
      cptr.ts < 2 ^ 32)
    (free : TransitionSystem.GuardedRun (ServerLink.step link) PicksFree start
      deliveries)
    (runs : TransitionSystem.run (ServerLink.step link) start deliveries =
      some final)
    (handled : ∀ side, final.inbox side = []) : Converged start final := by
  have preserved : ∀ pair delivery next,
      (∃ state, Related start pair state ∧
        NickMerge.Merging IcmpEq start.startTable state) →
      PicksFree pair delivery → pair.step link delivery = some next →
        ∃ state, Related start next state ∧
          NickMerge.Merging IcmpEq start.startTable state := by
    rintro pair delivery next ⟨state, related, merging⟩ guard stepped
    exact linking.step related merging guard stepped
  obtain ⟨state, related, merging⟩ :=
    TransitionSystem.invariant_of_guardedRun preserved
      (linking.related stamped) free runs
  exact linking.converged related merging handled

/-! ## Two servers with a user each -/

/-- What leads to a server with the user `alice` and a link to another one. -/
def linkedEvents (other uid : CString) : List Event :=
  [.accept true, .mrUser 1 "al".toList uid .none,
    .mrNick 1 "alice".toList .none, .accept true, .serverLogin 2 other true]

def linkedServer (name other uid : CString) (systime : Nat) : Ircd :=
  (TransitionSystem.run (Ircd.step .shipped) (Ircd.boot name systime)
    (linkedEvents other uid)).getD (Ircd.boot name systime)

/-- Two linked servers with a user each.  Both users have the nick `alice`; that
of the second server may be the younger one. -/
def linkedServers (younger : Bool) : ServerLink :=
  let ircd : Bool → Ircd
    | false => linkedServer "irc.a".toList "irc.b".toList
        "AAAAAAAA".toList 1000
    | true => linkedServer "irc.b".toList "irc.a".toList
        "BBBBBBBB".toList (if younger then 2000 else 1000)
  { ircd := ircd
    inbox := fun side =>
      ((ircd !side).clients.filter fun cptr => cptr.IsUser).map fun cptr =>
        (ircd !side).clientBurst cptr ⟨"0".toList, "+".toList, "h".toList,
          "0.0.0.0".toList, "i".toList⟩ }

instance (pair : ServerLink) (delivery : Delivery) :
    Decidable (PicksFree pair delivery) := by
  unfold PicksFree Ircd.NickRandom
  split
  · exact @instDecidableForall _ _ inferInstance inferInstance
  · infer_instance

theorem nicksSound_linkedServer (name other uid : CString) (systime : Nat) :
    (linkedServer name other uid systime).NicksSound := by
  have booted := Ircd.nicksSound_boot name systime
  have apart : TransitionSystem.GuardedRun (Ircd.step .shipped) Ircd.NamesApart
      (Ircd.boot name systime) (linkedEvents other uid) :=
    ⟨trivial, trivial, fun _ _ _ => by decide, trivial, trivial, trivial⟩
  rw [linkedServer]
  cases runs : TransitionSystem.run (Ircd.step .shipped)
      (Ircd.boot name systime) (linkedEvents other uid) with
  | none => exact booted
  | some final =>
      exact TransitionSystem.invariant_of_guardedRun
        (fun _ _ _ sound apart stepped => sound.step .shipped apart stepped)
        booted apart runs

theorem linking_linkedServers (younger : Bool) :
    Linking (fun _ => 2) (linkedServers younger) where
  sound := by
    intro side
    cases side
    · exact nicksSound_linkedServer "irc.a".toList "irc.b".toList
        "AAAAAAAA".toList 1000
    · exact nicksSound_linkedServer "irc.b".toList "irc.a".toList
        "BBBBBBBB".toList (if younger then 2000 else 1000)
  me := by cases younger <;> decide
  peer := by
    intro side
    cases side
    · cases younger <;>
        exact ⟨_, _, rfl, by decide, by decide, by decide, rfl,
          @Ircd.mem_of_serverFindName _ "irc.b".toList _ rfl, by decide, rfl, rfl⟩
    · cases younger <;>
        exact ⟨_, _, rfl, by decide, by decide, by decide, rfl,
          @Ircd.mem_of_serverFindName _ "irc.a".toList _ rfl, by decide, rfl, rfl⟩
  uidsFit := by cases younger <;> decide
  uidsUnique := by cases younger <;> decide
  uidsApart := by cases younger <;> decide
  notServers := by cases younger <;> decide
  inbox := by
    intro side
    refine ⟨(((linkedServers younger).ircd !side).clients.filter fun cptr =>
      cptr.IsUser).map fun cptr => (cptr, ⟨"0".toList, "+".toList, "h".toList,
        "0.0.0.0".toList, "i".toList⟩), ?_, ?_⟩
    · rw [List.map_map]
      exact .of_eq (List.map_id _)
    · rw [List.map_map]
      rfl

/-- The younger one of two users with the same nick is renamed on both
servers. -/
theorem converged_of_younger :
    ∃ final, TransitionSystem.run (ServerLink.step fun _ => 2)
        (linkedServers true)
        [⟨true, 3000, []⟩, ⟨false, 3000, []⟩, ⟨true, 3000, []⟩] = some final ∧
      Converged (linkedServers true) final := by
  refine ⟨_, rfl, ?_⟩
  refine converged_of_run (linking_linkedServers true) ?_ ?_
    (Eq.refl (TransitionSystem.run (ServerLink.step fun _ => 2)
      (linkedServers true)
      [⟨true, 3000, []⟩, ⟨false, 3000, []⟩, ⟨true, 3000, []⟩])) ?_
  · decide
  · decide
  · decide

/-- Two users of the same age both get the same new nick. -/
theorem not_converged_of_same_age :
    Linking (fun _ => 2) (linkedServers false) ∧
    ∃ final, TransitionSystem.run (ServerLink.step fun _ => 2)
        (linkedServers false)
        [⟨true, 3000, []⟩, ⟨false, 3000, []⟩, ⟨true, 3000, []⟩,
          ⟨false, 3000, []⟩] = some final ∧
      (∀ side, final.inbox side = []) ∧
      ¬ Converged (linkedServers false) final := by
  refine ⟨linking_linkedServers false, _, rfl, by decide, fun converged => ?_⟩
  have unique := converged.unique false
  revert unique
  decide

end ServerLink

end Chaosircd
