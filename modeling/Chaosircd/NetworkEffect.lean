import Chaosircd.Network

/-!
# What one event does to the network

Every event of the daemon has one of three effects: the map grows and the
channels stay, a client leaves with all that depends on it, or only the channels
change.  The tables stay linked in each case.
-/

namespace Chaosircd

/-- The events whose handlers change channels and nothing else. -/
def Event.ChangesChannels : Event → Prop
  | .mJoin .. | .msNjoin .. | .mPart .. | .msPart .. | .mKick .. | .msKick ..
  | .changeFlag .. => True
  | _ => False

namespace Ircd

/-- The map of the network with the channels. -/
def view (ircd : Ircd) : Topology × List Channel × Nat :=
  (ircd.topology, ircd.channels, ircd.channelId)

/-! ## Operations on the tables -/

theorem view_updateLclient (ircd : Ircd) (l : Nat) (change : Lclient → Lclient)
    (keeps : ∀ lcptr ∈ ircd.lclients, lcptr.id = l →
      (change lcptr).link = lcptr.link) :
    (ircd.updateLclient l change).view = ircd.view := by
  have links : (ircd.lclients.map fun lcptr =>
      if lcptr.id = l then change lcptr else lcptr).map Lclient.link =
        ircd.lclients.map Lclient.link := by
    rw [List.map_map]
    apply List.map_congr_left
    intro lcptr member
    by_cases isL : lcptr.id = l
    · simp [isL, keeps lcptr member isL]
    · simp [isL]
  simp only [view, topology, updateLclient, links]

theorem view_updateClient (ircd : Ircd) (id : Nat) (change : Client → Client)
    (keeps : ∀ cptr, (change cptr).place = cptr.place) :
    (ircd.updateClient id change).view = ircd.view := by
  simp only [view, topology, updateClient, List.map_map, Function.comp_def,
    apply_ite Client.place, keeps, ite_self]

@[simp] theorem view_setTs (ircd : Ircd) (id ts : Nat) :
    (ircd.setTs id ts).view = ircd.view :=
  ircd.view_updateClient id (fun cptr => { cptr with ts := ts }) fun _ => rfl

@[simp] theorem view_rename (ircd : Ircd) (id : Nat) (name : CString)
    (clock : Nat) :
    (ircd.updateClient id (·.rename name clock)).view = ircd.view :=
  ircd.view_updateClient id (·.rename name clock) fun _ => rfl

@[simp] theorem view_setName (ircd : Ircd) (l : Nat) (name : CString) :
    (ircd.updateLclient l (·.setName name)).view = ircd.view :=
  ircd.view_updateLclient l (·.setName name) fun _ _ _ => rfl

@[simp] theorem view_linkNick (ircd : Ircd) (hash id : Nat) :
    (ircd.linkNick hash id).view = ircd.view := rfl

@[simp] theorem view_unlinkNick (ircd : Ircd) (hash id : Nat) :
    (ircd.unlinkNick hash id).view = ircd.view := rfl

@[simp] theorem view_clientHistoryAdd (ircd : Ircd) (id : Nat)
    (nick : CString) : (ircd.clientHistoryAdd id nick).view = ircd.view :=
  rfl

@[simp] theorem view_clientSetName (ircd : Ircd) (id : Nat) (name : CString) :
    (ircd.clientSetName id name).view = ircd.view := by
  unfold clientSetName
  split
  · rfl
  · dsimp only
    split_ifs <;> simp

theorem view_linkClient (ircd : Ircd) (cptr : Client) :
    (ircd.linkClient cptr).view =
      ({ ircd.topology with
          places := ircd.topology.places ++ [cptr.place]
          clientId := ircd.clientId + 1 },
        ircd.channels, ircd.channelId) := by
  unfold linkClient
  split_ifs <;> simp [view, topology, linkNick]

theorem view_clientNewRemote (ircd : Ircd) (kind : ClientKind)
    (source origin : Nat) (name : CString) (ts : Nat) :
    (ircd.clientNewRemote kind source origin name ts).view =
      (ircd.topology.attach kind.isUser source origin, ircd.channels,
        ircd.channelId) := by
  rw [clientNewRemote, view_linkClient]
  rfl

theorem view_clientNewLocal (ircd : Ircd) (kind : ClientKind)
    (lcptr : Lclient) :
    (ircd.clientNewLocal kind lcptr).view =
      (ircd.topology.register lcptr.id kind.isUser, ircd.channels,
        ircd.channelId) := by
  rw [clientNewLocal, view_linkClient]
  simp only [topology, updateLclient, Topology.register, List.map_map,
    Function.comp_def, apply_ite Lclient.link]
  rfl

/-! ## The effects -/

/-- The nick index gains no client but users. -/
def IndexGrows (ircd next : Ircd) : Prop :=
  ∀ bucket, ∀ id ∈ next.clientListsn bucket,
    (∃ bucket', id ∈ ircd.clientListsn bucket') ∨ next.HasUser id

/-- A change that does not show on the map. -/
structure Quiet (ircd next : Ircd) : Prop where
  shown : next.view = ircd.view
  indexed : ircd.IndexGrows next

/-- The map grows, for a relation between the connections of new clients and the
servers they are recorded on, and the channels stay. -/
structure Grows (named : Nat → Place → Prop) (ircd next : Ircd) : Prop where
  growth : ircd.topology.Growth named next.topology
  channels : next.channels = ircd.channels
  channelId : next.channelId = ircd.channelId
  indexed : ircd.IndexGrows next

/-- The client that an event makes leave, with all that depends on it. -/
def exitOf (ircd : Ircd) : Event → Option Nat
  | .exit cptr => some cptr
  | .linkLoss l => (ircd.lclient? l).bind Lclient.client
  | .msNserver l pfx _ name =>
      (ircd.serverLine l pfx).bind fun line =>
        if ircd.serverFindName name ≠ none then line.1.client else none
  | .moSquit name =>
      ((ircd.serverFindName name).filter fun asptr =>
        asptr.isLocal ∧ asptr.id ≠ ircd.clientMe).map Client.id
  | .msNquit l pfx name =>
      (ircd.serverLine l pfx).bind fun _ =>
        ((ircd.serverFindName name).filter fun sptr =>
          sptr.id ≠ ircd.clientMe).map Client.id
  | _ => none

inductive Effect (named : Nat → Place → Prop) (ircd : Ircd) (event : Event)
    (next : Ircd) : Prop where
  | grows (grows : Grows named ircd next)
  | exit {cptr : Client} (isExit : ircd.exitOf event = some cptr.id)
      (member : cptr ∈ ircd.clients) (notMe : cptr.id ≠ ircd.clientMe)
      (pruned : Pruned cptr.kind.isUser
        (fun other => other = cptr.id || ircd.topology.isBelow cptr.id other)
        (fun l => cptr.isLocal && decide (l = cptr.source)) ircd next)
  | channels (changes : event.ChangesChannels) (only : ircd.OnlyChannels next)
      (linked : MembersLinked ircd.HasUser next.channels next.channelId)

variable {ircd next : Ircd} {named : Nat → Place → Prop}

theorem hasUser_iff {id : Nat} : ircd.HasUser id ↔
    ∃ place ∈ ircd.topology.places, place.id = id ∧ place.isUser := by
  simp only [HasUser, mem_places]
  constructor
  · rintro ⟨cptr, member, rest⟩
    exact ⟨cptr.place, ⟨cptr, member, rfl⟩, rest⟩
  · rintro ⟨-, ⟨cptr, member, rfl⟩, rest⟩
    exact ⟨cptr, member, rest⟩

theorem IndexGrows.of_eq (same : next.clientListsn = ircd.clientListsn) :
    ircd.IndexGrows next := by
  intro bucket id indexed
  exact .inl ⟨bucket, same ▸ indexed⟩

theorem IndexGrows.trans {middle : Ircd} (first : ircd.IndexGrows middle)
    (second : middle.IndexGrows next)
    (kept : ∀ id, middle.HasUser id → next.HasUser id) : ircd.IndexGrows next := by
  intro bucket id indexed
  rcases second bucket id indexed with ⟨bucket', indexed⟩ | isUser
  · exact (first bucket' id indexed).imp_right (kept id)
  · exact .inr isUser

theorem mem_linkNick {hash id bucket target : Nat}
    (indexed : target ∈ (ircd.linkNick hash id).clientListsn bucket) :
    target = id ∨ target ∈ ircd.clientListsn bucket := by
  simp only [linkNick] at indexed
  split_ifs at indexed
  · exact List.mem_cons.mp indexed
  · exact .inr indexed

/-- A new client is filed only when it is a user. -/
theorem IndexGrows.linkClient {before : Ircd} {cptr : Client}
    (same : before.clientListsn = ircd.clientListsn) :
    ircd.IndexGrows (before.linkClient cptr) := by
  intro bucket id indexed
  unfold Ircd.linkClient at indexed ⊢
  rw [← same]
  by_cases isUser : cptr.IsUser
  · simp only [if_pos isUser] at indexed ⊢
    refine (mem_linkNick indexed).symm.imp (fun old => ⟨bucket, old⟩) ?_
    rintro rfl
    exact ⟨cptr, List.mem_append_right _ (List.mem_singleton_self _), rfl, isUser⟩
  · simp only [if_neg isUser] at indexed
    exact .inl ⟨bucket, indexed⟩

theorem mem_unlinkNick {hash id bucket target : Nat}
    (indexed : target ∈ (ircd.unlinkNick hash id).clientListsn bucket) :
    target ∈ ircd.clientListsn bucket := by
  simp only [unlinkNick] at indexed
  split_ifs at indexed
  · exact List.mem_of_mem_filter indexed
  · exact indexed

namespace Quiet

theorem refl (ircd : Ircd) : ircd.Quiet ircd :=
  ⟨rfl, .of_eq rfl⟩

theorem topology_eq (quiet : ircd.Quiet next) : next.topology = ircd.topology :=
  congrArg Prod.fst quiet.shown

theorem trans {middle : Ircd} (first : ircd.Quiet middle)
    (second : middle.Quiet next) : ircd.Quiet next := by
  refine ⟨second.shown.trans first.shown, first.indexed.trans second.indexed ?_⟩
  intro id isUser
  rwa [hasUser_iff, second.topology_eq, ← hasUser_iff]

theorem setTs (ircd : Ircd) (id ts : Nat) : ircd.Quiet (ircd.setTs id ts) :=
  ⟨view_setTs .., .of_eq rfl⟩

theorem setName (ircd : Ircd) (l : Nat) (name : CString) :
    ircd.Quiet (ircd.updateLclient l (·.setName name)) :=
  ⟨view_setName .., .of_eq rfl⟩

theorem updateLclient (ircd : Ircd) (l : Nat) (change : Lclient → Lclient)
    (keeps : ∀ lcptr ∈ ircd.lclients, lcptr.id = l →
      (change lcptr).link = lcptr.link) :
    ircd.Quiet (ircd.updateLclient l change) :=
  ⟨view_updateLclient _ _ _ keeps, .of_eq rfl⟩

/-- A rename files a user under its new name, and files no server. -/
theorem clientSetName (ircd : Ircd) (id : Nat) (name : CString) :
    ircd.Quiet (ircd.clientSetName id name) := by
  refine ⟨view_clientSetName .., ?_⟩
  have sameNet : (ircd.clientSetName id name).topology = ircd.topology :=
    congrArg Prod.fst (view_clientSetName ircd id name)
  intro bucket target indexed
  rw [hasUser_iff, sameNet, ← hasUser_iff]
  cases found : ircd.client? id with
  | none =>
      simp only [Ircd.clientSetName, found] at indexed
      exact .inl ⟨bucket, indexed⟩
  | some cptr =>
      by_cases isUser : cptr.IsUser
      · by_cases isId : target = id
        · exact .inr ⟨cptr, mem_of_client? found,
            (id_of_client? found).trans isId.symm, isUser⟩
        · left
          refine ⟨bucket, ?_⟩
          simp only [Ircd.clientSetName, found, if_pos isUser] at indexed
          have unlinked : target ∈
              (ircd.unlinkNick cptr.hash id).clientListsn bucket := by
            split_ifs at indexed <;>
              exact (mem_linkNick indexed).resolve_left isId
          exact mem_unlinkNick unlinked
      · simp only [Ircd.clientSetName, found, if_neg isUser] at indexed
        left
        refine ⟨bucket, ?_⟩
        split_ifs at indexed <;> exact indexed

end Quiet

theorem Grows.of_view {net : Topology} (growth : ircd.topology.Growth named net)
    (shown : next.view = (net, ircd.channels, ircd.channelId))
    (indexed : ircd.IndexGrows next) : Grows named ircd next := by
  obtain ⟨rfl, sameChannels, sameId⟩ : next.topology = net ∧
      next.channels = ircd.channels ∧ next.channelId = ircd.channelId := by
    simpa [view] using shown
  exact ⟨growth, sameChannels, sameId, indexed⟩

theorem Grows.same (quiet : ircd.Quiet next) : Grows named ircd next :=
  .of_view .same quiet.shown quiet.indexed

/-- A change that does not show on the map may come first. -/
theorem Grows.of_quiet {before : Ircd} (quiet : ircd.Quiet before)
    (grows : Grows named before next) : Grows named ircd next := by
  obtain ⟨sameNet, sameChannels, sameId⟩ : before.topology = ircd.topology ∧
      before.channels = ircd.channels ∧ before.channelId = ircd.channelId := by
    simpa [view] using quiet.shown
  refine ⟨sameNet ▸ grows.growth, grows.channels.trans sameChannels,
    grows.channelId.trans sameId, quiet.indexed.trans grows.indexed ?_⟩
  intro id isUser
  obtain ⟨place, isPlace, rest⟩ := hasUser_iff.mp isUser
  exact hasUser_iff.mpr ⟨place, grows.growth.places_subset isPlace, rest⟩

theorem Grows.linked (grows : Grows named ircd next) (linked : ircd.Linked) :
    next.Linked := by
  have network := grows.growth.linked linked.network
  refine ⟨network, ⟨?_, ?_, ?_⟩, ?_⟩
  · rw [grows.channels]
    exact linked.channels.distinct
  · rw [grows.channels, grows.channelId]
    exact linked.channels.fresh
  · rw [grows.channels]
    intro chptr isChannel cuptr isMember
    obtain ⟨place, isPlace, rest⟩ := hasUser_iff.mp
      (linked.channels.members chptr isChannel cuptr isMember)
    exact hasUser_iff.mpr ⟨place, grows.growth.places_subset isPlace, rest⟩
  · intro bucket id indexed
    rcases grows.indexed bucket id indexed with ⟨bucket', old⟩ | isUser
    · obtain ⟨fresh, isUser⟩ := linked.index bucket' id old
      refine ⟨Nat.lt_of_lt_of_le fresh grows.growth.clientId_le, ?_⟩
      intro cptr member isId
      rcases grows.growth.places_cases (place_mem member) with isOld | isNew
      · obtain ⟨before, isBefore, same⟩ := mem_places.mp isOld
        have isUser := isUser before isBefore
          ((congrArg Place.id same).trans isId)
        exact (congrArg Place.isUser same).symm.trans isUser
      · have isNew : cptr.id = ircd.clientId := isNew
        omega
    · obtain ⟨cptr, member, rfl, isUser⟩ := isUser
      refine ⟨network.placesFresh cptr.place (place_mem member), ?_⟩
      intro other isOther same
      have same := network.eq_of_id_eq (place_mem isOther) (place_mem member) same
      exact (congrArg Place.isUser same).trans isUser

theorem Effect.linked {event : Event} (effect : Effect named ircd event next)
    (linked : ircd.Linked) : next.Linked := by
  cases effect with
  | grows grows => exact grows.linked linked
  | exit isExit member notMe pruned =>
      exact linked.pruned pruned (linked.network.exit (place_mem member) notMe)
  | channels changes only channels =>
      obtain ⟨list, id, rfl⟩ := only
      exact ⟨linked.network, channels, linked.index⟩

/-! ## Registration -/

/-- The connection has not registered, as the map shows it. -/
def Unregistered (ircd : Ircd) (l : Nat) : Prop :=
  ∀ link ∈ ircd.topology.links, link.id = l → link.type = .unknown

theorem unregistered_of_lclient? (network : ircd.topology.Linked) {l : Nat}
    {lcptr : Lclient} (found : ircd.lclient? l = some lcptr)
    (unknown : lcptr.type = .unknown) : ircd.Unregistered l := by
  intro link isLink isL
  have same := network.eq_of_linkId_eq isLink (link_mem (mem_of_lclient? found))
    (isL.trans (id_of_lclient? found).symm)
  rw [same]
  exact unknown

theorem grows_lclientDelete {l : Nat}
    (free : ∀ link ∈ ircd.topology.links, link.id = l → link.client = none) :
    Grows named ircd (ircd.lclientDelete l) := by
  refine .of_view (.hangUp free) ?_ (.of_eq rfl)
  simp only [view, topology, lclientDelete, Topology.hangUp, List.filter_map]
  rfl

theorem grows_clientNewLocal (kind : ClientKind) {lcptr : Lclient}
    (isLink : lcptr.link ∈ ircd.topology.links)
    (unknown : lcptr.type = .unknown) :
    Grows named ircd (ircd.clientNewLocal kind lcptr) :=
  .of_view (.register isLink unknown) (view_clientNewLocal ..)
    (.linkClient rfl)

theorem grows_lclientRegister (id : Nat) (hooks : LoginHooks) :
    Grows named ircd (ircd.lclientRegister id hooks) := by
  unfold lclientRegister
  split
  · exact .same (.refl ircd)
  · rename_i lcptr found
    split
    · exact .same (.refl ircd)
    · split_ifs with accepted
      · exact grows_clientNewLocal _ (link_mem (mem_of_lclient? found)) accepted.1
      · exact .same (.refl ircd)

theorem grows_lclientHandshake (network : ircd.topology.Linked) (id : Nat)
    (hooks : LoginHooks) (unknown : ircd.Unregistered id) :
    Grows named ircd (ircd.lclientHandshake id hooks) := by
  unfold lclientHandshake
  split
  · exact .same (.refl ircd)
  · split
    · exact .same (.refl ircd)
    · split_ifs
      · exact .same (.refl ircd)
      · exact grows_lclientDelete fun link isLink isL =>
          network.client_eq_none isLink (unknown link isLink isL)
      · exact .same (.updateLclient _ _ _ fun _ _ _ => rfl)
      · exact grows_lclientRegister id hooks

theorem grows_lclientLogin (network : ircd.topology.Linked) (id : Nat)
    (hooks : LoginHooks) (unknown : ircd.Unregistered id) :
    Grows named ircd (ircd.lclientLogin id hooks) := by
  unfold lclientLogin
  split
  · exact .same (.refl ircd)
  · split_ifs
    · exact .same (.setName ..)
    · exact .same (.updateLclient _ _ _ fun _ _ _ => rfl)
    · exact grows_lclientHandshake network id hooks unknown

/-- Registration may go on after the connection block was written to. -/
private theorem Grows.after {before result : Ircd} {id : Nat}
    (grows : before.topology.Linked → before.Unregistered id →
      Grows named before result)
    (network : ircd.topology.Linked) (unknown : ircd.Unregistered id)
    (quiet : ircd.Quiet before) : Grows named ircd result := by
  refine .of_quiet quiet (grows (quiet.topology_eq ▸ network) ?_)
  rwa [Unregistered, quiet.topology_eq]

theorem grows_mrNick (network : ircd.topology.Linked) (id : Nat)
    (nick : CString) (hooks : LoginHooks) (unknown : ircd.Unregistered id) :
    Grows named ircd (ircd.mrNick id nick hooks) := by
  unfold mrNick
  split
  · exact .same (.refl ircd)
  · dsimp only
    split_ifs
    · refine .after (fun network unknown =>
        grows_lclientLogin network id hooks unknown) network unknown ?_
      exact .setName ..
    · exact .same (.setName ..)
    · exact .same (.refl ircd)

theorem grows_mrUser (network : ircd.topology.Linked) (id : Nat)
    (user uid : CString) (hooks : LoginHooks) (unknown : ircd.Unregistered id) :
    Grows named ircd (ircd.mrUser id user uid hooks) := by
  unfold mrUser
  split
  · exact .same (.refl ircd)
  · dsimp only
    split_ifs
    · refine .after (fun network unknown =>
        grows_lclientLogin network id hooks unknown) network unknown ?_
      exact .updateLclient _ _ _ fun _ _ _ => rfl
    · exact .same (.updateLclient _ _ _ fun _ _ _ => rfl)
    · exact .same (.refl ircd)

theorem grows_cookieDone (network : ircd.topology.Linked) (id : Nat)
    (hooks : LoginHooks) : Grows named ircd (ircd.cookieDone id hooks) := by
  unfold cookieDone
  split
  · exact .same (.refl ircd)
  · rename_i lcptr found
    split_ifs with waiting
    · refine .after (fun network unknown =>
        grows_lclientHandshake network id hooks unknown) network
        (unregistered_of_lclient? network found waiting.1) ?_
      exact .updateLclient _ _ _ fun _ _ _ => rfl
    · exact .same (.refl ircd)

theorem grows_authDone (id : Nat) (hooks : LoginHooks) :
    Grows named ircd (ircd.authDone id hooks) := by
  unfold authDone
  split
  · exact .same (.refl ircd)
  · split_ifs
    · refine .of_quiet ?_ (grows_lclientRegister id hooks)
      exact .updateLclient _ _ _ fun _ _ _ => rfl
    · exact .same (.refl ircd)

theorem grows_serverLogin (network : ircd.topology.Linked) {l : Nat}
    {lcptr : Lclient} (found : ircd.lclient? l = some lcptr)
    (unknown : lcptr.type = .unknown) (name : CString) (capUid : Bool) :
    Grows named ircd (ircd.serverLogin lcptr name capUid) := by
  have isLclient := mem_of_lclient? found
  have quiet : ircd.Quiet (ircd.updateLclient lcptr.id fun _ =>
      { lcptr.setName name with capUid := capUid }) := by
    apply Quiet.updateLclient
    intro other isOther same
    exact (network.eq_of_linkId_eq (link_mem isOther) (link_mem isLclient)
      same).symm
  unfold serverLogin
  dsimp only
  split_ifs
  · refine .after (fun network unknown => grows_lclientDelete fun link isLink isL =>
      network.client_eq_none isLink (unknown link isLink isL)) network
      (unregistered_of_lclient? network (id_of_lclient? found ▸ found) unknown)
      quiet
  · have isLink := link_mem isLclient
    rw [← quiet.topology_eq] at isLink
    exact .of_quiet quiet (grows_clientNewLocal _ isLink unknown)

/-! ## Users and servers of other servers -/

theorem grows_clientNick (l : Nat) (cptr : Client) (nick : CString) :
    Grows named ircd (ircd.clientNick l cptr nick).1 :=
  .same ((Quiet.setTs ..).trans (.clientSetName ..))

theorem grows_mNick (l : Nat) (cptr : Client) (args : List CString) :
    Grows named ircd (ircd.mNick l cptr args).1 := by
  unfold mNick
  split
  · exact .same (.refl ircd)
  · dsimp only
    split_ifs
    · split
      · split_ifs
        · exact grows_clientNick l cptr _
        · exact .same (.refl ircd)
        · exact .same (.refl ircd)
      · exact grows_clientNick l cptr _
    · exact .same (.refl ircd)

theorem grows_msNick (l : Nat) (cptr : Client) (args : List CString) :
    Grows named ircd (ircd.msNick l cptr args).1 := by
  unfold msNick
  split
  · exact .same (((Quiet.setTs ..).trans (.clientSetName ..)).trans (.setTs ..))
  · exact .same (.refl ircd)

theorem grows_msNbounce (lcptr : Lclient) (cptr : Client)
    (args : List CString) : Grows named ircd (ircd.msNbounce lcptr cptr args).1 := by
  unfold msNbounce
  split
  · split
    · exact .same (.refl ircd)
    · exact .same ((Quiet.setTs ..).trans (.clientSetName ..))
  · exact .same (.refl ircd)

theorem grows_clientNewRemote (kind : ClientKind) {l : Nat} {server : CString}
    {sptr : Client} (found : ircd.serverFindName server = some sptr)
    (allowed : named l sptr.place) (name : CString) (ts : Nat) :
    Grows named ircd (ircd.clientNewRemote kind l sptr.id name ts) := by
  have isServer : sptr.kind.isUser = false := by
    have isNamed := List.find?_some found
    cases isKind : sptr.kind with
    | user user => simp [Client.serverName, isKind] at isNamed
    | server own => rfl
  have growth : ircd.topology.Growth named
      (ircd.topology.attach kind.isUser l sptr.place.id) :=
    .attach (place_mem (mem_of_serverFindName found)) isServer allowed
  exact .of_view growth (view_clientNewRemote ..) (.linkClient rfl)

/-- The servers that a line names as the origin or the uplink of a new client
are in a relation to the connection the line came on. -/
def OriginsAre (named : Nat → Place → Prop) (ircd : Ircd) : Event → Prop
  | .msNuser l pfx args _ =>
      ircd.FromServer l pfx fun lcptr cptr =>
        match args with
        | [nick, _, _, _, user, _, _, server, uid, _] =>
            ircd.NuserAccepted cptr nick user server uid →
              ∀ sptr, ircd.serverFindName server = some sptr →
                named lcptr.id sptr.place
        | _ => True
  | .msNserver l pfx uplink name =>
      ircd.FromServer l pfx fun lcptr _ =>
        ircd.serverFindName name = none →
          ∀ sptr, ircd.serverFindName uplink = some sptr →
            named lcptr.id sptr.place
  | _ => True

theorem grows_msNuser (l : Nat) (cptr : Client) (args : List CString)
    (randomNick : CString)
    (origin : match args with
      | [nick, _, _, _, user, _, _, server, uid, _] =>
          ircd.NuserAccepted cptr nick user server uid →
            ∀ sptr, ircd.serverFindName server = some sptr →
              named l sptr.place
      | _ => True) :
    Grows named ircd (ircd.msNuser l cptr args randomNick).1 := by
  unfold msNuser
  split
  · rename_i nick _ tsArg _ user _ _ server uid _
    dsimp only
    split_ifs with isServer fresh validNick validUser
    · exact .same (.refl ircd)
    · exact .same (.refl ircd)
    · exact .same (.refl ircd)
    · split
      · exact .same (.refl ircd)
      · rename_i sptr found
        have allowed : named l sptr.place := by
          refine origin ⟨isServer, ?_, ?_, ?_, ?_⟩ sptr found
          · simpa using fresh
          · simpa using validNick
          · simpa using validUser
          · simp [found]
        have remote : ∀ name ts, Grows named ircd (ircd.clientNewRemote
            (.user ⟨strlcpy user 17, strlcpy uid (idLen + 1)⟩) l sptr.id name ts) :=
          grows_clientNewRemote _ found allowed
        split
        · exact remote _ _
        · split_ifs
          · exact remote _ _
          · exact remote _ _
    · exact .same (.refl ircd)
  · exact .same (.refl ircd)

/-! ## Exits -/

theorem Linked.effect_clientVexit (linked : ircd.Linked) {event : Event}
    {cptr : Client} {id : Nat} (found : ircd.client? id = some cptr)
    (notMe : id ≠ ircd.clientMe) (isExit : ircd.exitOf event = some id) :
    Effect named ircd event (ircd.clientVexit id) := by
  have pruned := clientVexit_pruned linked found notMe
  obtain rfl := id_of_client? found
  exact .exit isExit (mem_of_client? found) notMe pruned

theorem Linked.client?_of_mem (linked : ircd.Linked) {cptr : Client}
    (member : cptr ∈ ircd.clients) : ircd.client? cptr.id = some cptr := by
  apply Ircd.client?_of_mem _ member
  have distinct := linked.network.placesDistinct
  rwa [topology, List.map_map] at distinct

/-- The loss of a connection is the exit of its client. -/
theorem Linked.lclientVexit_eq (linked : ircd.Linked) {l id : Nat}
    {lcptr : Lclient} (found : ircd.lclient? l = some lcptr)
    (isClient : lcptr.client = some id) (notMe : l ≠ ircd.lclientMe) :
    ∃ cptr, ircd.client? id = some cptr ∧ cptr.isLocal ∧ cptr.source = l ∧
      id ≠ ircd.clientMe ∧ ircd.lclientVexit l = ircd.clientVexit id := by
  obtain rfl := id_of_lclient? found
  have isLclient := mem_of_lclient? found
  obtain ⟨place, isPlace, rfl, isLocal, isSource, -⟩ :=
    linked.network.placeOfLink lcptr.link (link_mem isLclient) id isClient
  obtain ⟨cptr, member, rfl⟩ := mem_places.mp isPlace
  have shown := linked.client?_of_mem member
  have cptrNotMe : cptr.id ≠ ircd.clientMe := by
    intro isMe
    obtain ⟨me, isPlace', meId, -, -, meSource, -⟩ := linked.network.me
    have same := linked.network.eq_of_id_eq (place_mem member) isPlace'
      (isMe.trans meId.symm)
    rw [← same] at meSource
    exact notMe (isSource.symm.trans meSource)
  refine ⟨cptr, shown, isLocal, isSource, cptrNotMe, ?_⟩
  obtain ⟨listsn, history, -, exited⟩ := clientVexit_pruned linked shown cptrNotMe
  have own : cptr.isLocal = true := isLocal
  have ownSource : cptr.source = lcptr.id := isSource
  simp only [lclientVexit, found, isClient]
  change (ircd.clientVexit cptr.id).lclientDelete lcptr.id =
    ircd.clientVexit cptr.id
  rw [exited]
  simp only [lclientDelete, own, ownSource, Bool.true_and, List.filter_filter,
    ne_eq, decide_not, Bool.and_self]

theorem Linked.effect_lclientVexit (linked : ircd.Linked) {event : Event}
    {l : Nat} (notMe : l ≠ ircd.lclientMe)
    (isExit : ∀ lcptr id, ircd.lclient? l = some lcptr →
      lcptr.client = some id → ircd.exitOf event = some id) :
    Effect named ircd event (ircd.lclientVexit l) := by
  cases found : ircd.lclient? l with
  | none =>
      simp only [lclientVexit, found]
      exact .grows (.same (.refl ircd))
  | some lcptr =>
      cases isClient : lcptr.client with
      | none =>
          simp only [lclientVexit, found, isClient]
          refine .grows (grows_lclientDelete fun link isLink isL => ?_)
          have same := linked.network.eq_of_linkId_eq isLink
            (link_mem (mem_of_lclient? found))
            (isL.trans (id_of_lclient? found).symm)
          rw [same]
          exact isClient
      | some id =>
          obtain ⟨cptr, shown, -, -, cptrNotMe, same⟩ :=
            linked.lclientVexit_eq found isClient notMe
          rw [same]
          exact linked.effect_clientVexit shown cptrNotMe
            (isExit lcptr id found isClient)

end Ircd

end Chaosircd
