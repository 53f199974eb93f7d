import Chaosircd.NetworkEffect

/-!
# Every event keeps the tables linked

The handlers of `JOIN`, `NJOIN`, `PART` and `KICK` change nothing but channels,
and they add only users as members.  With the effects on the map of the other
handlers this gives the effect of every event.
-/

namespace Chaosircd

namespace Ircd

/-! ## Handlers that change channels -/

namespace MembersLinked

variable {users : Nat → Prop} {ircd : Ircd}

theorem updateChannel
    (linked : MembersLinked users ircd.channels ircd.channelId) (id : Nat)
    (change : Channel → Channel)
    (keepsId : ∀ chptr, chptr.id = id → (change chptr).id = chptr.id)
    (members : ∀ chptr ∈ ircd.channels, chptr.id = id →
      ∀ cuptr ∈ (change chptr).chanusers, users cuptr.client) :
    MembersLinked users (ircd.updateChannel id change).channels
      (ircd.updateChannel id change).channelId := by
  have sameId : ∀ chptr : Channel,
      (if chptr.id = id then change chptr else chptr).id = chptr.id := by
    intro chptr
    split_ifs with isId
    · exact keepsId chptr isId
    · rfl
  refine ⟨?_, ?_, ?_⟩
  · rw [Ircd.updateChannel, KeyedList.map_key_map _ sameId]
    exact linked.distinct
  · intro chptr member
    obtain ⟨before, isBefore, rfl⟩ := List.mem_map.mp member
    rw [sameId]
    exact linked.fresh before isBefore
  · intro chptr member cuptr isMember
    obtain ⟨before, isBefore, rfl⟩ := List.mem_map.mp member
    by_cases isId : before.id = id
    · rw [if_pos isId] at isMember
      exact members before isBefore isId cuptr isMember
    · rw [if_neg isId] at isMember
      exact linked.members before isBefore cuptr isMember

theorem channelDelete
    (linked : MembersLinked users ircd.channels ircd.channelId) (id : Nat) :
    MembersLinked users (ircd.channelDelete id).channels
      (ircd.channelDelete id).channelId where
  distinct := linked.distinct.sublist (List.filter_sublist.map _)
  fresh := fun chptr member =>
    linked.fresh chptr (List.mem_of_mem_filter member)
  members := fun chptr member =>
    linked.members chptr (List.mem_of_mem_filter member)

theorem channelNew
    (linked : MembersLinked users ircd.channels ircd.channelId) {chptr : Channel}
    (isNew : chptr.id = ircd.channelId)
    (members : ∀ cuptr ∈ chptr.chanusers, users cuptr.client) :
    MembersLinked users (ircd.channelNew chptr).channels
      (ircd.channelNew chptr).channelId := by
  refine ⟨?_, ?_, ?_⟩
  · rw [Ircd.channelNew, List.map_append]
    apply List.Nodup.append linked.distinct (by simp)
    simp only [List.map_cons, List.map_nil, List.disjoint_singleton,
      List.mem_map, not_exists, not_and]
    intro other member same
    have fresh := linked.fresh other member
    omega
  · intro other member
    rcases List.mem_append.mp member with old | new
    · exact Nat.lt_succ_of_lt (linked.fresh other old)
    · rw [List.mem_singleton.mp new, isNew]
      exact Nat.lt_succ_self _
  · intro other member
    rcases List.mem_append.mp member with old | new
    · exact linked.members other old
    · rw [List.mem_singleton.mp new]
      exact members

theorem chanuserDelete
    (linked : MembersLinked users ircd.channels ircd.channelId) (id cptr : Nat) :
    MembersLinked users
      (ircd.updateChannel id (·.chanuserDelete cptr)).channels
      (ircd.updateChannel id (·.chanuserDelete cptr)).channelId :=
  linked.updateChannel id _ (fun _ _ => rfl) fun chptr member _ cuptr isMember =>
    linked.members chptr member cuptr (List.mem_of_mem_eraseP isMember)

theorem channelJoin
    (linked : MembersLinked users ircd.channels ircd.channelId) {cptr : Nat}
    (isUser : users cptr) (name : CString) (hooks : JoinHooks) :
    MembersLinked users (ircd.channelJoin cptr name hooks).channels
      (ircd.channelJoin cptr name hooks).channelId := by
  unfold Ircd.channelJoin
  split
  · split_ifs
    · exact linked
    · exact linked
    · refine linked.updateChannel _ _ (fun _ _ => rfl) ?_
      intro chptr member _ cuptr isMember
      rcases List.mem_append.mp isMember with old | new
      · exact linked.members chptr member cuptr old
      · rw [List.mem_singleton.mp new]
        exact isUser
  · refine linked.channelNew rfl ?_
    intro cuptr isMember
    obtain rfl := List.mem_singleton.mp isMember
    exact isUser

theorem mJoinLoop {cptr : Nat} (isUser : users cptr)
    (chanv : List (CString × JoinHooks)) {ircd : Ircd}
    (linked : MembersLinked users ircd.channels ircd.channelId) :
    MembersLinked users (ircd.mJoinLoop cptr chanv).channels
      (ircd.mJoinLoop cptr chanv).channelId := by
  induction chanv generalizing ircd with
  | nil => exact linked
  | cons chan chanv ih =>
      rw [Ircd.mJoinLoop]
      split_ifs
      · exact linked
      · exact linked
      · exact linked
      · exact ih (linked.channelJoin isUser _ _)

theorem mPart (linked : MembersLinked users ircd.channels ircd.channelId)
    (cptr : Client) (name : CString) :
    MembersLinked users (ircd.mPart cptr name).channels
      (ircd.mPart cptr name).channelId := by
  unfold Ircd.mPart
  split
  · exact linked
  · split
    · exact linked
    · dsimp only
      split_ifs
      · exact linked
      · exact linked.channelDelete _
      · exact linked.chanuserDelete _ _

theorem msPart (linked : MembersLinked users ircd.channels ircd.channelId)
    (cptr : Client) (name : CString) :
    MembersLinked users (ircd.msPart cptr name).channels
      (ircd.msPart cptr name).channelId := by
  unfold Ircd.msPart
  split
  · exact linked
  · split
    · exact linked
    · dsimp only
      split_ifs
      · exact linked.channelDelete _
      · exact linked.chanuserDelete _ _

theorem chanuserKickOne
    (linked : MembersLinked users ircd.channels ircd.channelId)
    (lcptr : Lclient) (kicker : Finset Char) (chptr : Nat)
    (target : CString × Bool) :
    MembersLinked users
      (ircd.chanuserKickOne lcptr kicker chptr target).channels
      (ircd.chanuserKickOne lcptr kicker chptr target).channelId := by
  unfold Ircd.chanuserKickOne
  split
  · split_ifs
    · exact linked.chanuserDelete _ _
    · exact linked
  · exact linked

theorem mKick (linked : MembersLinked users ircd.channels ircd.channelId)
    (lcptr : Lclient) (cptr : Client) (name arg : CString)
    (halfop : Nat → Bool) :
    MembersLinked users (ircd.mKick lcptr cptr name arg halfop).channels
      (ircd.mKick lcptr cptr name arg halfop).channelId := by
  unfold Ircd.mKick
  split
  · exact linked
  · split
    · exact linked
    · exact List.foldlRecOn
        (motive := fun ircd : Ircd =>
          MembersLinked users ircd.channels ircd.channelId)
        _ _ linked fun _ linked target _ =>
          MembersLinked.chanuserKickOne linked lcptr _ _ target

theorem changeFlag
    (linked : MembersLinked users ircd.channels ircd.channelId) (id : Nat)
    (what : Channel.What) (letter : Char) :
    MembersLinked users (ircd.changeFlag id what letter).channels
      (ircd.changeFlag id what letter).channelId := by
  have sameMembers : ∀ chptr : Channel,
      ((chptr.chanmodeBounceSimple what letter).getD chptr).id = chptr.id ∧
        ((chptr.chanmodeBounceSimple what letter).getD chptr).chanusers =
          chptr.chanusers := by
    intro chptr
    cases what <;> simp only [Channel.chanmodeBounceSimple] <;>
      split_ifs <;> exact ⟨rfl, rfl⟩
  refine linked.updateChannel id _ (fun chptr _ => (sameMembers chptr).1) ?_
  intro chptr member _ cuptr isMember
  rw [(sameMembers chptr).2] at isMember
  exact linked.members chptr member cuptr isMember

end MembersLinked

namespace Linked

variable {ircd : Ircd}

theorem isUser_of_clientFindUid (linked : ircd.Linked) {uid : CString}
    {cptr : Client} (found : ircd.clientFindUid uid = some cptr) :
    cptr.IsUser := by
  obtain ⟨entry, isEntry, found⟩ := Option.bind_eq_some_iff.mp found
  obtain ⟨id, isId, found⟩ := Option.bind_eq_some_iff.mp found
  have member := List.mem_of_find?_eq_some isEntry
  rcases List.mem_append.mp member with isClient | isLclient
  · obtain ⟨other, isOther, isEntry⟩ := List.mem_filterMap.mp isClient
    cases isKind : other.kind with
    | server name => simp [isKind] at isEntry
    | user user =>
        simp only [isKind, Option.some.injEq] at isEntry
        obtain rfl : other.id = id := by
          rw [← isEntry] at isId
          exact Option.some.inj isId
        obtain rfl : other = cptr :=
          Option.some.inj ((linked.client?_of_mem isOther).symm.trans found)
        rw [Client.IsUser, isKind]
        rfl
  · obtain ⟨other, -, isEntry⟩ := List.mem_filterMap.mp isLclient
    split_ifs at isEntry
    obtain ⟨user, -, rfl⟩ := Option.map_eq_some_iff.mp isEntry
    cases isId

theorem isUser_of_clientFindNick (linked : ircd.Linked) {nick : CString}
    {cptr : Client} (found : ircd.clientFindNick nick = some cptr) :
    cptr.IsUser := by
  obtain ⟨id, indexed, hit⟩ := List.exists_of_findSome?_eq_some found
  obtain ⟨shown, -⟩ := Option.filter_eq_some_iff.mp hit
  exact (linked.index _ id indexed).2 cptr (mem_of_client? shown)
    (id_of_client? shown)

theorem hasUser_of_njoinTarget (linked : ircd.Linked) {lcptr : Lclient}
    {usr : CString} {acptr : Client}
    (found : ircd.njoinTarget lcptr usr = some acptr) : ircd.HasUser acptr.id := by
  unfold njoinTarget at found
  split_ifs at found
  · exact ⟨acptr, mem_of_clientFindUid found, rfl,
      linked.isUser_of_clientFindUid found⟩
  · exact ⟨acptr, mem_of_clientFindNick found, rfl,
      linked.isUser_of_clientFindNick found⟩

theorem hasUser_of_chanuserParse (linked : ircd.Linked) {table : ChanmodeTable}
    {lcptr : Lclient} {chptr : Channel} {args : CString} {pfx : Bool}
    {cuptr : Chanuser}
    (parsed : cuptr ∈ ircd.chanuserParse table lcptr chptr args pfx) :
    ircd.HasUser cuptr.client := by
  obtain ⟨token, -, parsed⟩ := List.mem_filterMap.mp parsed
  unfold chanuserParseOne at parsed
  dsimp only at parsed
  split at parsed
  · cases parsed
  · rename_i acptr found
    split_ifs at parsed <;>
      exact Option.some.inj parsed ▸ linked.hasUser_of_njoinTarget found

theorem msNjoin (linked : ircd.Linked) (table : ChanmodeTable) (lcptr : Lclient)
    (cptr : Client) (name tsArg members : CString) :
    MembersLinked ircd.HasUser
      (ircd.msNjoin table lcptr cptr name tsArg members).channels
      (ircd.msNjoin table lcptr cptr name tsArg members).channelId := by
  unfold Ircd.msNjoin
  split_ifs
  · dsimp only
    split
    · exact linked.channels.channelNew rfl fun cuptr =>
        linked.hasUser_of_chanuserParse
    · rename_i chptr found
      generalize isMerged : (if timeT (strToul tsArg) < timeT chptr.ts then
        chptr.dropTs table (strToul tsArg) else chptr) = merged
      have sameId : merged.id = chptr.id := by
        rw [← isMerged]
        split_ifs <;> rfl
      have sameMembers : ∀ cuptr ∈ merged.chanusers,
          ∃ before ∈ chptr.chanusers, before.client = cuptr.client := by
        rw [← isMerged]
        split_ifs
        · intro cuptr isMember
          obtain ⟨before, isBefore, rfl⟩ := List.mem_map.mp isMember
          exact ⟨before, isBefore, rfl⟩
        · exact fun cuptr isMember => ⟨cuptr, isMember, rfl⟩
      refine linked.channels.updateChannel _ _
        (fun other isId => sameId.trans isId.symm) ?_
      intro other _ _ cuptr isMember
      rcases List.mem_append.mp isMember with old | new
      · obtain ⟨before, isBefore, same⟩ := sameMembers cuptr old
        rw [← same]
        exact linked.channels.members chptr (List.mem_of_find?_eq_some found)
          before isBefore
      · exact linked.hasUser_of_chanuserParse new
  · exact linked.channels

end Linked

/-! ## Every event -/

variable {ircd next : Ircd} {named : Nat → Place → Prop}

theorem effect_moSquit (linked : ircd.Linked) (name : CString) :
    Effect named ircd (.moSquit name) (ircd.moSquit name) := by
  unfold moSquit
  split
  · exact .grows (.same (.refl _))
  · rename_i asptr found
    split_ifs with squits
    · refine linked.effect_clientVexit
        (linked.client?_of_mem (mem_of_serverFindName found)) squits.2 ?_
      simp [exitOf, found, squits]
    · exact .grows (.same (.refl _))

theorem effect_msNquit (linked : ircd.Linked) {l : Nat} {pfx : Option CString}
    {line : Lclient × Client} (reached : ircd.serverLine l pfx = some line)
    (name : CString) :
    Effect named ircd (.msNquit l pfx name) (ircd.msNquit name) := by
  unfold msNquit
  split
  · exact .grows (.same (.refl _))
  · rename_i sptr found
    split_ifs with isMe
    · exact .grows (.same (.refl _))
    · refine linked.effect_clientVexit
        (linked.client?_of_mem (mem_of_serverFindName found)) isMe ?_
      simp [exitOf, reached, found, isMe]

theorem effect_msNserver (linked : ircd.Linked) {l : Nat} {pfx : Option CString}
    {lcptr : Lclient} {cptr : Client}
    (reached : ircd.serverLine l pfx = some (lcptr, cptr))
    {uplink name : CString}
    (origin : ircd.serverFindName name = none →
      ∀ sptr, ircd.serverFindName uplink = some sptr → named lcptr.id sptr.place)
    (stepped : ircd.msNserver lcptr.id uplink name = some next) :
    Effect named ircd (.msNserver l pfx uplink name) next := by
  obtain ⟨found, ⟨-, notMe⟩, -⟩ := serverLine_eq_some reached
  obtain rfl := id_of_lclient? found
  unfold msNserver at stepped
  split_ifs at stepped with known
  · cases stepped
    refine linked.effect_lclientVexit notMe fun other id isLcptr isClient => ?_
    obtain rfl := Option.some.inj (found.symm.trans isLcptr)
    simp [exitOf, reached, known, isClient]
  · obtain ⟨sptr, found, rfl⟩ := Option.map_eq_some_iff.mp stepped
    exact .grows (grows_clientNewRemote _ found
      (origin (by simpa using known) sptr found) _ _)

/-- The effect of an event. -/
theorem Linked.effect (linked : ircd.Linked) (table : ChanmodeTable)
    {event : Event} (origins : ircd.OriginsAre named event)
    (stepped : ircd.step table event = some next) :
    Effect named ircd event next := by
  have network := linked.network
  cases event with
  | tick systime =>
      cases stepped
      exact .grows (.same ⟨rfl, .of_eq rfl⟩)
  | accept capUid =>
      cases stepped
      refine .grows (.of_view .connect ?_ (.of_eq rfl))
      simp [view, topology, lclientAccept, Topology.connect, newLclient,
        Lclient.link]
  | mrNick l nick hooks =>
      cases stepped
      rcases ircd.fromUnknown_cases l _ with same | ⟨lcptr, found, unknown, same⟩ <;>
        rw [same]
      · exact .grows (.same (.refl _))
      · exact .grows (grows_mrNick network l nick hooks
          (unregistered_of_lclient? network found unknown))
  | mrUser l user uid hooks =>
      cases stepped
      rcases ircd.fromUnknown_cases l _ with same | ⟨lcptr, found, unknown, same⟩ <;>
        rw [same]
      · exact .grows (.same (.refl _))
      · exact .grows (grows_mrUser network l user uid hooks
          (unregistered_of_lclient? network found unknown))
  | cookieDone l hooks =>
      cases stepped
      exact .grows (grows_cookieDone network l hooks)
  | authDone l hooks =>
      cases stepped
      exact .grows (grows_authDone l hooks)
  | mNick l args =>
      cases stepped
      rcases ircd.fromUser_cases l _ with ⟨-, same⟩ | ⟨lcptr, cptr, -, same⟩ <;>
        rw [same]
      · exact .grows (.same (.refl _))
      · exact .grows (grows_mNick lcptr.id cptr args)
  | msNick l pfx args =>
      rcases fromServer_cases stepped with ⟨-, rfl⟩ | ⟨lcptr, cptr, reached, handled⟩
      · exact .grows (.same (.refl _))
      · cases handled
        exact .grows (grows_msNick lcptr.id cptr args)
  | msNuser l pfx args randomNick =>
      rcases fromServer_cases stepped with
        ⟨-, rfl⟩ | ⟨lcptr, cptr, reached, handled⟩
      · exact .grows (.same (.refl _))
      · cases handled
        exact .grows (grows_msNuser lcptr.id cptr args randomNick
          (origins lcptr cptr reached))
  | msNbounce l pfx args =>
      rcases fromServer_cases stepped with ⟨-, rfl⟩ | ⟨lcptr, cptr, reached, handled⟩
      · exact .grows (.same (.refl _))
      · cases handled
        exact .grows (grows_msNbounce lcptr cptr args)
  | exit id =>
      simp only [Ircd.step] at stepped
      split at stepped
      · rename_i cptr found
        cases stepped
        split_ifs with isUser
        · refine linked.effect_clientVexit found ?_ rfl
          rw [← id_of_client? found]
          exact linked.user_ne_me (mem_of_client? found) isUser
        · exact .grows (.same (.refl _))
      · cases stepped
        exact .grows (.same (.refl _))
  | linkLoss l =>
      cases stepped
      split_ifs with isMe
      · exact .grows (.same (.refl _))
      · refine linked.effect_lclientVexit isMe fun lcptr id isLcptr isClient => ?_
        simp [exitOf, isLcptr, isClient]
  | serverLogin l name capUid =>
      cases stepped
      rcases ircd.fromUnknown_cases l _ with same | ⟨lcptr, found, unknown, same⟩ <;>
        rw [same]
      · exact .grows (.same (.refl _))
      · exact .grows (grows_serverLogin network found unknown name capUid)
  | msNserver l pfx uplink name =>
      rcases fromServer_cases stepped with
        ⟨-, rfl⟩ | ⟨lcptr, cptr, reached, handled⟩
      · exact .grows (.same (.refl _))
      · exact effect_msNserver linked reached (origins lcptr cptr reached) handled
  | moSquit name =>
      cases stepped
      exact effect_moSquit linked name
  | msNquit l pfx name =>
      rcases fromServer_cases stepped with ⟨-, rfl⟩ | ⟨lcptr, cptr, reached, handled⟩
      · exact .grows (.same (.refl _))
      · cases handled
        exact effect_msNquit linked reached name
  | mJoin l names hooks =>
      cases stepped
      rcases ircd.fromUser_cases l _ with
        ⟨-, same⟩ | ⟨lcptr, cptr, reached, same⟩ <;> rw [same]
      · exact .grows (.same (.refl _))
      · obtain ⟨isLcptr, isType, isClient, isCptr⟩ := userLine_eq_some reached
        refine .channels trivial (.mJoinLoop ircd cptr.id _) (.mJoinLoop ?_ _ linked.channels)
        have onLink := network.isUser_of_link (place_mem (mem_of_client? isCptr))
          (link_mem (mem_of_lclient? isLcptr)) isClient
        refine ⟨cptr, mem_of_client? isCptr, rfl, ?_⟩
        by_contra isServer
        have isLink : cptr.place.linkType = .server :=
          if_neg isServer
        have isUserLink : lcptr.type = cptr.place.linkType := onLink.2.2
        rw [isLink, isType] at isUserLink
        cases isUserLink
  | msNjoin l pfx name tsArg members =>
      rcases fromServer_cases stepped with ⟨-, rfl⟩ | ⟨lcptr, cptr, reached, handled⟩
      · exact .grows (.same (.refl _))
      · cases handled
        exact .channels trivial (.msNjoin ircd table lcptr cptr name tsArg members)
          (linked.msNjoin table lcptr cptr name tsArg members)
  | mPart l name =>
      cases stepped
      rcases ircd.fromUser_cases l _ with ⟨-, same⟩ | ⟨lcptr, cptr, -, same⟩ <;>
        rw [same]
      · exact .grows (.same (.refl _))
      · exact .channels trivial (.mPart ircd cptr name) (linked.channels.mPart cptr name)
  | msPart l pfx name =>
      rcases fromServer_cases stepped with ⟨-, rfl⟩ | ⟨lcptr, cptr, reached, handled⟩
      · exact .grows (.same (.refl _))
      · cases handled
        exact .channels trivial (.msPart ircd cptr name) (linked.channels.msPart cptr name)
  | mKick l name targets halfop =>
      cases stepped
      rcases ircd.fromUser_cases l _ with ⟨-, same⟩ | ⟨lcptr, cptr, -, same⟩ <;>
        rw [same]
      · exact .grows (.same (.refl _))
      · exact .channels trivial (.mKick ircd lcptr cptr name targets halfop)
          (linked.channels.mKick lcptr cptr name targets halfop)
  | msKick l pfx name targets halfop =>
      rcases fromServer_cases stepped with ⟨-, rfl⟩ | ⟨lcptr, cptr, reached, handled⟩
      · exact .grows (.same (.refl _))
      · cases handled
        exact .channels trivial (.mKick ircd lcptr cptr name targets halfop)
          (linked.channels.mKick lcptr cptr name targets halfop)
  | changeFlag id what letter =>
      cases stepped
      exact .channels trivial ⟨_, _, rfl⟩ (linked.channels.changeFlag id what letter)

theorem originsAre_true (ircd : Ircd) (event : Event) :
    ircd.OriginsAre (fun _ _ => True) event := by
  cases event with
  | msNuser l pfx args randomNick =>
      intro lcptr cptr _
      dsimp only
      split <;> simp
  | msNserver l pfx uplink name => exact fun _ _ _ _ _ _ => trivial
  | _ => trivial

/-- Every event keeps the tables linked. -/
theorem Linked.step (linked : ircd.Linked) (table : ChanmodeTable)
    {event : Event} (stepped : ircd.step table event = some next) :
    next.Linked :=
  (linked.effect table (ircd.originsAre_true event) stepped).linked linked

theorem linked_boot (name : CString) (systime : Nat) :
    (boot name systime).Linked where
  network := by
    constructor <;>
      simp [boot, topology, Client.place, Lclient.link, ClientKind.isUser,
        Place.linkType, Forest.Ordered]
  channels := by constructor <;> simp [boot]
  index := by simp [boot]

end Ircd

end Chaosircd
