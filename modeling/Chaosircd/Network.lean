import Chaosircd.Machine
import Chaosircd.Topology

/-!
# The network behind the tables

The client and connection tables of a daemon are read as a map of the network,
and the memberships of its channels as memberships of users on that map.  The
exit of a client is shown to prune the map: the recursion over the dependants of
a server removes exactly what is recorded below it.
-/

namespace Chaosircd

def Client.place (cptr : Client) : Place :=
  ⟨cptr.id, cptr.isLocal, cptr.kind.isUser, cptr.source, cptr.origin⟩

def Lclient.link (lcptr : Lclient) : Link :=
  ⟨lcptr.id, lcptr.type, lcptr.client⟩

/-- The channel without the memberships of the clients that go. -/
def Channel.without (gone : Nat → Bool) (chptr : Channel) : Channel :=
  { chptr with
    chanusers := chptr.chanusers.filter fun cuptr => !gone cuptr.client }

/-- A channel that loses its last member goes too, unless it is persistent and
persistent channels are kept. -/
def Channel.prune (keep : Bool) (gone : Nat → Bool) (chptr : Channel) :
    Option Channel :=
  if (chptr.without gone).chanusers = [] ∧ chptr.chanusers ≠ [] ∧
      ¬ (keep ∧ chptr.IsPersistent) then
    none
  else some (chptr.without gone)

namespace Ircd

def topology (ircd : Ircd) : Topology where
  places := ircd.clients.map Client.place
  links := ircd.lclients.map Lclient.link
  clientId := ircd.clientId
  lclientId := ircd.lclientId
  clientMe := ircd.clientMe
  lclientMe := ircd.lclientMe

/-- The identifiers of the users on the map. -/
def HasUser (ircd : Ircd) (id : Nat) : Prop :=
  ∃ cptr ∈ ircd.clients, cptr.id = id ∧ cptr.IsUser

/-- The channels are distinct, and their members are users. -/
structure MembersLinked (users : Nat → Prop) (channels : List Channel)
    (channelId : Nat) : Prop where
  distinct : (channels.map Channel.id).Nodup
  fresh : ∀ chptr ∈ channels, chptr.id < channelId
  members : ∀ chptr ∈ channels, ∀ cuptr ∈ chptr.chanusers, users cuptr.client

/-- The map is linked, members of channels are users, and the nick index holds
no server. -/
structure Linked (ircd : Ircd) : Prop where
  network : ircd.topology.Linked
  channels : MembersLinked ircd.HasUser ircd.channels ircd.channelId
  index : ∀ bucket, ∀ id ∈ ircd.clientListsn bucket, id < ircd.clientId ∧
    ∀ cptr ∈ ircd.clients, cptr.id = id → cptr.IsUser

/-- Clients, connections and memberships go; the nick index does not grow, and
nothing else changes outside the nick history. -/
def Pruned (keep : Bool) (gone lost : Nat → Bool) (before after : Ircd) :
    Prop :=
  ∃ listsn history,
    (∀ bucket, listsn bucket ⊆ before.clientListsn bucket) ∧ after =
    { before with
      clients := before.clients.filter fun cptr => !gone cptr.id
      lclients := before.lclients.filter fun lcptr => !lost lcptr.id
      channels := before.channels.filterMap (Channel.prune keep gone)
      clientListsn := listsn
      clientHistory := history }

end Ircd

/-! ## Pruning channels -/

namespace Channel

variable {keep : Bool} {gone gone' : Nat → Bool} {chptr : Channel}

theorem without_without :
    (chptr.without gone).without gone' =
      chptr.without fun id => gone id || gone' id := by
  simp only [without, List.filter_filter]
  congr 1
  apply List.filter_congr
  intro cuptr _
  cases gone cuptr.client <;> simp

theorem without_eq_self (stay : ∀ cuptr ∈ chptr.chanusers, gone cuptr.client = false) :
    chptr.without gone = chptr := by
  have allStay : (chptr.chanusers.filter fun cuptr => !gone cuptr.client) =
      chptr.chanusers := by
    rw [List.filter_eq_self]
    intro cuptr member
    rw [stay cuptr member, Bool.not_false]
  rw [without, allStay]

theorem prune_eq_self (stay : ∀ cuptr ∈ chptr.chanusers, gone cuptr.client = false) :
    chptr.prune keep gone = some chptr := by
  rw [prune, without_eq_self stay]
  by_cases empty : chptr.chanusers = [] <;> simp [empty]

theorem prune_congr
    (same : ∀ cuptr ∈ chptr.chanusers, gone cuptr.client = gone' cuptr.client) :
    chptr.prune keep gone = chptr.prune keep gone' := by
  have sameLeft : chptr.without gone = chptr.without gone' := by
    rw [without, without, List.filter_congr fun cuptr member => by
      rw [same cuptr member]]
  rw [prune, prune, sameLeft]

theorem without_eq_nil_mono (sub : ∀ id, gone id → gone' id)
    (empty : (chptr.without gone).chanusers = []) :
    (chptr.without gone').chanusers = [] := by
  simp only [without, List.filter_eq_nil_iff, Bool.not_eq_true', Bool.not_eq_false]
    at empty ⊢
  exact fun cuptr member => sub _ (empty cuptr member)

/-- Pruning in two steps is pruning once. -/
theorem prune_bind_prune :
    (chptr.prune keep gone).bind (Channel.prune keep gone') =
      chptr.prune keep fun id => gone id || gone' id := by
  have emptied : (chptr.without gone).chanusers = [] →
      (chptr.without fun id => gone id || gone' id).chanusers = [] :=
    without_eq_nil_mono fun id isGone => by simp [isGone]
  have emptiedFirst : chptr.chanusers = [] →
      (chptr.without gone).chanusers = [] := by
    intro empty
    simp [without, empty]
  by_cases goes : (chptr.without gone).chanusers = [] ∧ chptr.chanusers ≠ [] ∧
      ¬ (keep ∧ chptr.IsPersistent)
  · obtain ⟨empty, nonempty, unkept⟩ := goes
    rw [prune, if_pos ⟨empty, nonempty, unkept⟩, Option.bind_none, prune,
      if_pos ⟨emptied empty, nonempty, unkept⟩]
  · rw [prune, if_neg goes, Option.bind_some, prune, prune, without_without]
    apply if_congr _ rfl rfl
    change _ ∧ _ ∧ ¬ (_ ∧ chptr.IsPersistent) ↔ _
    tauto

end Channel

namespace Ircd

/-! ## Reading the map -/

theorem mem_places {ircd : Ircd} {place : Place} :
    place ∈ ircd.topology.places ↔ ∃ cptr ∈ ircd.clients, cptr.place = place :=
  List.mem_map

theorem place_mem {ircd : Ircd} {cptr : Client} (member : cptr ∈ ircd.clients) :
    cptr.place ∈ ircd.topology.places :=
  List.mem_map_of_mem member

theorem link_mem {ircd : Ircd} {lcptr : Lclient}
    (member : lcptr ∈ ircd.lclients) : lcptr.link ∈ ircd.topology.links :=
  List.mem_map_of_mem member

theorem mem_of_lclient? {ircd : Ircd} {l : Nat} {lcptr : Lclient}
    (found : ircd.lclient? l = some lcptr) : lcptr ∈ ircd.lclients :=
  List.mem_of_find?_eq_some found

theorem id_of_lclient? {ircd : Ircd} {l : Nat} {lcptr : Lclient}
    (found : ircd.lclient? l = some lcptr) : lcptr.id = l := by
  simpa using List.find?_some found

theorem mem_userDeps {ircd : Ircd} {sptr id : Nat} :
    id ∈ ircd.userDeps sptr ↔ ∃ place ∈ ircd.topology.places,
      place.isUser = true ∧ place.origin = some sptr ∧ place.id = id := by
  simp only [userDeps, List.mem_map, List.mem_filter, decide_eq_true_eq,
    topology, exists_exists_and_eq_and, and_assoc]
  exact Iff.rfl

theorem mem_serverDeps {ircd : Ircd} {sptr id : Nat} :
    id ∈ ircd.serverDeps sptr ↔ ∃ place ∈ ircd.topology.places,
      place.isUser = false ∧ place.origin = some sptr ∧ place.id = id := by
  simp only [serverDeps, List.mem_map, List.mem_filter, decide_eq_true_eq,
    topology, exists_exists_and_eq_and, and_assoc, ← Bool.not_eq_true]
  exact Iff.rfl

/-! ## Pruning the tables -/

namespace Pruned

variable {before middle after : Ircd} {keep : Bool}
  {gone gone' lost lost' : Nat → Bool}

theorem congr (pruned : Pruned keep gone lost before after)
    (sameGone : ∀ id, gone id = gone' id) (sameLost : ∀ l, lost l = lost' l) :
    Pruned keep gone' lost' before after := by
  rwa [← funext sameGone, ← funext sameLost]

theorem refl (ircd : Ircd) :
    Pruned keep (fun _ => false) (fun _ => false) ircd ircd := by
  have channels : ircd.channels.filterMap (Channel.prune keep fun _ => false) =
      ircd.channels := by
    rw [List.filterMap_congr fun chptr _ => Channel.prune_eq_self fun _ _ => rfl,
      List.filterMap_some]
  refine ⟨ircd.clientListsn, ircd.clientHistory, fun _ => List.Subset.refl _, ?_⟩
  rw [channels]
  simp

theorem trans (first : Pruned keep gone lost before middle)
    (second : Pruned keep gone' lost' middle after) :
    Pruned keep (fun id => gone id || gone' id) (fun l => lost l || lost' l)
      before after := by
  obtain ⟨listsn, history, fewer, rfl⟩ := first
  obtain ⟨listsn', history', fewer', rfl⟩ := second
  refine ⟨listsn', history', fun bucket =>
    List.Subset.trans (fewer' bucket) (fewer bucket),
    ?_⟩
  have composed : (fun chptr : Channel =>
      (chptr.prune keep gone).bind (Channel.prune keep gone')) =
        Channel.prune keep fun id => gone id || gone' id :=
    funext fun chptr => Channel.prune_bind_prune
  simp only [List.filter_filter, List.filterMap_filterMap, composed,
    Bool.not_or, Bool.and_comm]

theorem topology (pruned : Pruned keep gone lost before after) :
    after.topology = before.topology.prune gone lost := by
  obtain ⟨listsn, history, fewer, rfl⟩ := pruned
  simp only [Ircd.topology, Topology.prune, List.filter_map, Function.comp_def,
    Client.place, Lclient.link]

end Pruned

theorem Channel.prune_eq_some {keep : Bool} {gone : Nat → Bool}
    {chptr left : Channel} (pruned : chptr.prune keep gone = some left) :
    left = chptr.without gone := by
  unfold Channel.prune at pruned
  split_ifs at pruned
  exact (Option.some.inj pruned).symm

namespace Linked

variable {ircd after : Ircd} {keep : Bool} {gone lost : Nat → Bool}

theorem placeOfMember (linked : ircd.Linked) {chptr : Channel}
    (isChannel : chptr ∈ ircd.channels) {cuptr : Chanuser}
    (isMember : cuptr ∈ chptr.chanusers) :
    ∃ place ∈ ircd.topology.places, place.id = cuptr.client ∧ place.isUser := by
  obtain ⟨cptr, member, isId, isUser⟩ :=
    linked.channels.members chptr isChannel cuptr isMember
  exact ⟨cptr.place, place_mem member, isId, isUser⟩

/-- Pruning keeps the tables linked when it keeps the map linked. -/
theorem pruned (linked : ircd.Linked) (pruned : Pruned keep gone lost ircd after)
    (network : (ircd.topology.prune gone lost).Linked) : after.Linked := by
  refine ⟨?_, ⟨?_, ?_, ?_⟩, ?_⟩
  · rw [pruned.topology]
    exact network
  · obtain ⟨listsn, history, fewer, rfl⟩ := pruned
    have sameId : ∀ (chptr left : Channel), chptr.prune keep gone = some left →
        left.id = chptr.id := by
      intro chptr left kept
      rw [Channel.prune_eq_some kept]
      rfl
    simp only [List.map_filterMap]
    have idSub : ∀ channels : List Channel,
        (channels.filterMap fun chptr =>
          (chptr.prune keep gone).map Channel.id).Sublist
          (channels.map Channel.id) := by
      intro channels
      induction channels with
      | nil => exact List.Sublist.slnil
      | cons chptr channels ih =>
          cases kept : chptr.prune keep gone with
          | none => simpa [kept] using ih.cons chptr.id
          | some left => simpa [kept, sameId chptr left kept] using ih
    exact linked.channels.distinct.sublist (idSub _)
  · obtain ⟨listsn, history, fewer, rfl⟩ := pruned
    intro left member
    obtain ⟨chptr, isChannel, kept⟩ := List.mem_filterMap.mp member
    rw [Channel.prune_eq_some kept]
    exact linked.channels.fresh chptr isChannel
  · obtain ⟨listsn, history, fewer, rfl⟩ := pruned
    intro left member cuptr isMember
    obtain ⟨chptr, isChannel, kept⟩ := List.mem_filterMap.mp member
    rw [Channel.prune_eq_some kept] at isMember
    obtain ⟨isMember, stays⟩ := List.mem_filter.mp isMember
    obtain ⟨cptr, isClient, isId, isUser⟩ :=
      linked.channels.members chptr isChannel cuptr isMember
    exact ⟨cptr, List.mem_filter.mpr ⟨isClient, isId ▸ stays⟩, isId, isUser⟩
  · obtain ⟨listsn, history, fewer, rfl⟩ := pruned
    intro bucket id indexed
    obtain ⟨old, isUser⟩ := linked.index bucket id (fewer bucket indexed)
    exact ⟨old, fun cptr member => isUser cptr (List.mem_of_mem_filter member)⟩

end Linked

/-! ## The exit of a client -/

theorem leaveChannels_eq (ircd : Ircd) (id : Nat) (keep : Channel → Prop)
    [DecidablePred keep] (keepPersistent : Bool)
    (same : ∀ chptr : Channel, keep (chptr.without fun other => other = id) ↔
      keepPersistent ∧ chptr.IsPersistent) :
    ircd.leaveChannels id keep =
      { ircd with
        channels := ircd.channels.filterMap
          (Channel.prune keepPersistent fun other => other = id) } := by
  have perChannel : ∀ chptr : Channel,
      (if chptr.IsMember id then
        let left := chptr.chanuserDeleteAll id
        if left.chanusers = [] ∧ ¬ keep left then none else some left
      else some chptr) = chptr.prune keepPersistent fun other => other = id := by
    intro chptr
    have sameLeft : chptr.chanuserDeleteAll id =
        chptr.without fun other => other = id := by
      simp [Channel.chanuserDeleteAll, Channel.without]
    by_cases isMember : chptr.IsMember id
    · have nonempty : chptr.chanusers ≠ [] := by
        obtain ⟨cuptr, member, -⟩ := isMember
        exact List.ne_nil_of_mem member
      simp only [if_pos isMember, sameLeft, same, Channel.prune, nonempty, ne_eq,
        not_false_eq_true, true_and]
    · rw [if_neg isMember, Channel.prune_eq_self]
      intro cuptr member
      rw [decide_eq_false_iff_not]
      exact fun isId => isMember ⟨cuptr, member, isId⟩
  simp only [leaveChannels, perChannel]

/-- A client without connection on which no client is recorded is deleted from
the table and the nick index. -/
theorem clientDelete_leaf {ircd : Ircd} {id : Nat}
    (leaf : ∀ cptr ∈ ircd.clients, cptr.origin ≠ some id)
    (unlinked : ∀ lcptr ∈ ircd.lclients, lcptr.client ≠ some id) :
    ∃ listsn, (∀ bucket, listsn bucket ⊆ ircd.clientListsn bucket) ∧
      ircd.clientDelete id =
        { ircd with
          clients := ircd.clients.filter fun cptr => !decide (cptr.id = id)
          clientListsn := listsn } := by
  unfold clientDelete
  split
  · rename_i absent
    have allStay : (ircd.clients.filter fun cptr => !decide (cptr.id = id)) =
        ircd.clients := by
      rw [List.filter_eq_self]
      intro cptr member
      have notId := List.find?_eq_none.mp absent cptr member
      simpa using notId
    exact ⟨ircd.clientListsn, fun _ => List.Subset.refl _, by rw [allStay]⟩
  · rename_i cptr found
    have clients : ((ircd.clients.filter fun other => other.id ≠ id).map
        fun other => if cptr.IsServer ∧ other.origin = some id then
          { other with origin := none } else other) =
        ircd.clients.filter fun cptr => !decide (cptr.id = id) := by
      simp only [ne_eq, decide_not]
      conv_rhs => rw [← List.map_id (ircd.clients.filter _)]
      apply List.map_congr_left
      intro other member
      rw [if_neg fun ⟨_, named⟩ => leaf other (List.mem_of_mem_filter member) named]
      rfl
    have lclients : (ircd.lclients.map fun lcptr =>
        if lcptr.client = some id then
          { lcptr with client := none, user := none } else lcptr) =
        ircd.lclients := by
      conv_rhs => rw [← List.map_id ircd.lclients]
      apply List.map_congr_left
      intro lcptr member
      rw [if_neg (unlinked lcptr member)]
      rfl
    dsimp only
    split_ifs
    · refine ⟨(ircd.unlinkNick cptr.hash id).clientListsn, fun bucket => ?_, by
        simp only [unlinkNick, clients, lclients]⟩
      simp only [unlinkNick]
      split_ifs
      · exact List.filter_subset_self _
      · exact List.Subset.refl _
    · exact ⟨ircd.clientListsn, fun _ => List.Subset.refl _, by
        simp only [clients, lclients]⟩

namespace Linked

variable {ircd : Ircd}

/-- A user is not the server's own client. -/
theorem user_ne_me (linked : ircd.Linked) {cptr : Client}
    (member : cptr ∈ ircd.clients) (isUser : cptr.IsUser) :
    cptr.id ≠ ircd.clientMe := by
  intro isMe
  obtain ⟨me, isPlace, meId, -, isServer, -⟩ := linked.network.me
  have same := linked.network.eq_of_id_eq (place_mem member) isPlace
    (isMe.trans meId.symm)
  rw [← same] at isServer
  exact Bool.false_ne_true (isServer.symm.trans isUser)

/-- No client is recorded on a user. -/
theorem origin_ne_user (linked : ircd.Linked) {id : Nat}
    (isUser : ∀ place ∈ ircd.topology.places, place.id = id → place.isUser) :
    ∀ cptr ∈ ircd.clients, cptr.origin ≠ some id := by
  intro cptr member named
  obtain ⟨-, up, isUp, rfl⟩ :=
    linked.network.ordered cptr.place (place_mem member) id named
  have isServer := linked.network.originServer cptr.place (place_mem member) up
    isUp named
  rw [isUser up isUp rfl] at isServer
  cases isServer

/-- No connection belongs to a remote client. -/
theorem client_ne_remote (linked : ircd.Linked) {id : Nat}
    (isRemote : ∀ place ∈ ircd.topology.places, place.id = id →
      place.isLocal = false) :
    ∀ lcptr ∈ ircd.lclients, lcptr.client ≠ some id := by
  intro lcptr member isClient
  obtain ⟨place, isPlace, isId, isLocal, -⟩ :=
    linked.network.placeOfLink lcptr.link (link_mem member) id isClient
  rw [isRemote place isPlace isId] at isLocal
  cases isLocal

theorem splitUser_pruned (linked : ircd.Linked) {id : Nat}
    (isRemoteUser : ∀ place ∈ ircd.topology.places, place.id = id →
      place.isUser = true ∧ place.isLocal = false) :
    Pruned false (fun other => other = id) (fun _ => false) ircd
      (ircd.splitUser id) := by
  have leaving := leaveChannels_eq ircd id (fun _ => False) false (by simp)
  obtain ⟨listsn, fewer, deleted⟩ :=
    @clientDelete_leaf (ircd.leaveChannels id fun _ => False) id
      (linked.origin_ne_user fun place member isId =>
        (isRemoteUser place member isId).1)
      (linked.client_ne_remote fun place member isId =>
        (isRemoteUser place member isId).2)
  refine ⟨listsn, ircd.clientHistory, fewer, ?_⟩
  rw [splitUser, deleted, leaving]
  simp

/-- A remote client on which nothing is recorded and which is on no channel is
pruned by deleting it. -/
theorem clientDelete_pruned (linked : ircd.Linked) (keep : Bool) {id : Nat}
    (leaf : ∀ place ∈ ircd.topology.places, place.origin ≠ some id)
    (isRemote : ∀ place ∈ ircd.topology.places, place.id = id →
      place.isLocal = false)
    (isServer : ∀ place ∈ ircd.topology.places, place.id = id →
      place.isUser = false) :
    Pruned keep (fun other => other = id) (fun _ => false) ircd
      (ircd.clientDelete id) := by
  obtain ⟨listsn, fewer, deleted⟩ := clientDelete_leaf
    (fun cptr member => leaf cptr.place (place_mem member))
    (linked.client_ne_remote isRemote)
  have noMember : ∀ chptr ∈ ircd.channels,
      chptr.prune keep (fun other => other = id) = some chptr := by
    intro chptr isChannel
    apply Channel.prune_eq_self
    intro cuptr isMember
    obtain ⟨place, isPlace, isClient, isUser⟩ :=
      linked.placeOfMember isChannel isMember
    rw [decide_eq_false_iff_not]
    intro isId
    rw [isServer place isPlace (isClient.trans isId)] at isUser
    cases isUser
  have channels : ircd.channels.filterMap
      (Channel.prune keep fun other => other = id) = ircd.channels := by
    rw [List.filterMap_congr noMember, List.filterMap_some]
  refine ⟨listsn, ircd.clientHistory, fewer, ?_⟩
  rw [deleted, channels]
  simp

end Linked

/-! ## The recursion over the dependants of a server -/

private theorem closed_of_user {ircd : Ircd} (linked : ircd.Linked)
    {gone : Nat → Bool}
    (isUser : ∀ place ∈ ircd.topology.places, gone place.id → place.isUser) :
    ircd.topology.Closed gone := by
  intro place member up named isGone
  obtain ⟨-, node, isNode, rfl⟩ := linked.network.ordered place member up named
  have isServer := linked.network.originServer place member node isNode named
  rw [isUser node isNode isGone] at isServer
  cases isServer

/-- Remote clients go without a connection. -/
private theorem Linked.pruned_remote {ircd after : Ircd} {keep : Bool}
    {gone : Nat → Bool} (linked : ircd.Linked)
    (pruned : Pruned keep gone (fun _ => false) ircd after)
    (closed : ircd.topology.Closed gone)
    (isRemote : ∀ place ∈ ircd.topology.places, gone place.id →
      place.isLocal = false) : after.Linked := by
  apply linked.pruned pruned
  apply linked.network.prune closed
  · obtain ⟨me, member, isMe, isLocal, -⟩ := linked.network.me
    by_contra isGone
    have remote := isRemote me member (by
      rw [isMe]
      exact Bool.not_eq_false _ |>.mp isGone)
    rw [isLocal] at remote
    cases remote
  · intro place member isLocal
    by_contra isGone
    rw [isRemote place member (Bool.not_eq_false _ |>.mp isGone)] at isLocal
    cases isLocal

theorem foldl_splitUser_pruned (users : List Nat) {ircd : Ircd}
    (linked : ircd.Linked)
    (isRemoteUser : ∀ place ∈ ircd.topology.places, place.id ∈ users →
      place.isUser = true ∧ place.isLocal = false) :
    Pruned false (fun id => id ∈ users) (fun _ => false) ircd
      (users.foldl splitUser ircd) := by
  induction users generalizing ircd with
  | nil => exact (Pruned.refl ircd).congr (by simp) (by simp)
  | cons user users ih =>
      have isUser : ∀ place ∈ ircd.topology.places, place.id = user →
          place.isUser = true ∧ place.isLocal = false := fun place member isId =>
        isRemoteUser place member (isId ▸ List.mem_cons_self)
      have first := linked.splitUser_pruned isUser
      have linked' := linked.pruned_remote first
        (closed_of_user linked fun place member isGone =>
          (isUser place member (by simpa using isGone)).1)
        (fun place member isGone => (isUser place member (by simpa using isGone)).2)
      have rest := ih linked' fun place member isLater => by
        rw [first.topology] at member
        exact isRemoteUser place (List.mem_of_mem_filter member)
          (List.mem_cons_of_mem _ isLater)
      exact (first.trans rest).congr (by simp) (by simp)

/-- What the induction over the depth of `server_split` shows. -/
def SplitsBelow (depth : Nat) : Prop :=
  ∀ ircd : Ircd, ircd.Linked → ∀ sptr, sptr ≠ ircd.clientMe →
    Forest.room Place.id ircd.topology.places sptr < depth →
      Pruned false (ircd.topology.isBelow sptr) (fun _ => false) ircd
        (serverSplit depth ircd sptr)

/-- A remote server goes after everything below it. -/
private theorem SplitsBelow.child {depth : Nat} (splits : SplitsBelow depth)
    {ircd : Ircd} (linked : ircd.Linked) {sptr : Nat}
    (isRemoteServer : ∀ place ∈ ircd.topology.places, place.id = sptr →
      place.isUser = false ∧ place.isLocal = false)
    (deep : Forest.room Place.id ircd.topology.places sptr < depth) :
    Pruned false (fun id => id = sptr || ircd.topology.isBelow sptr id)
        (fun _ => false) ircd ((serverSplit depth ircd sptr).clientDelete sptr) ∧
      ((serverSplit depth ircd sptr).clientDelete sptr).Linked := by
  obtain ⟨me, isPlace, isMe, isLocal, -⟩ := linked.network.me
  have notMe : sptr ≠ ircd.clientMe := by
    intro same
    have remote := (isRemoteServer me isPlace (isMe.trans same.symm)).2
    rw [isLocal] at remote
    cases remote
  have belowRemote : ∀ place ∈ ircd.topology.places,
      ircd.topology.isBelow sptr place.id → place.isLocal = false :=
    fun place member below =>
      linked.network.isLocal_of_below notMe member (Topology.isBelow_iff.mp below)
  have first := splits ircd linked sptr notMe deep
  have linked' := linked.pruned_remote first Forest.closed_isBelow belowRemote
  have places : ∀ place, place ∈ (serverSplit depth ircd sptr).topology.places →
      place ∈ ircd.topology.places ∧
        ircd.topology.isBelow sptr place.id = false := by
    intro place member
    rw [first.topology] at member
    simpa [Topology.prune] using member
  have second := linked'.clientDelete_pruned false
    (fun place member named => by
      obtain ⟨member, stays⟩ := places place member
      rw [Topology.isBelow_iff.mpr (.child member named)] at stays
      cases stays)
    (fun place member isId =>
      (isRemoteServer place (places place member).1 isId).2)
    (fun place member isId =>
      (isRemoteServer place (places place member).1 isId).1)
  have both := (first.trans second).congr
    (fun id => Bool.or_comm _ _) (fun l => Bool.or_false _)
  refine ⟨both, linked.pruned_remote both Forest.closed_isBelow_or_root ?_⟩
  intro place member isGone
  rw [Bool.or_eq_true, decide_eq_true_eq] at isGone
  rcases isGone with isId | below
  · exact (isRemoteServer place member isId).2
  · exact belowRemote place member below

private theorem SplitsBelow.children {depth : Nat} (splits : SplitsBelow depth)
    (children : List Nat) {ircd : Ircd} (linked : ircd.Linked)
    (isRemoteServer : ∀ place ∈ ircd.topology.places, place.id ∈ children →
      place.isUser = false ∧ place.isLocal = false)
    (deep : ∀ sptr ∈ children,
      Forest.room Place.id ircd.topology.places sptr < depth) :
    Pruned false
      (fun id => children.any fun sptr =>
        id = sptr || ircd.topology.isBelow sptr id)
      (fun _ => false) ircd
      (children.foldl
        (fun ircd cptr => (serverSplit depth ircd cptr).clientDelete cptr)
        ircd) := by
  induction children generalizing ircd with
  | nil => exact Pruned.refl ircd
  | cons sptr children ih =>
      obtain ⟨first, linked'⟩ := splits.child linked
        (fun place member isId =>
          isRemoteServer place member (isId ▸ List.mem_cons_self))
        (deep sptr List.mem_cons_self)
      have rest := ih linked'
        (fun place member isLater => by
          rw [first.topology] at member
          exact isRemoteServer place (List.mem_of_mem_filter member)
            (List.mem_cons_of_mem _ isLater))
        (fun other isLater => by
          rw [first.topology]
          exact Nat.lt_of_le_of_lt
            (Forest.room_le_of_sublist List.filter_sublist)
            (deep other (List.mem_cons_of_mem _ isLater)))
      refine (first.trans rest).congr (fun id => ?_) (fun l => rfl)
      rw [List.any_cons, first.topology]
      cases isGone : decide (id = sptr) || ircd.topology.isBelow sptr id with
      | true => rfl
      | false =>
          simp only [Bool.false_or]
          congr 1
          funext other
          rw [Topology.isBelow, Topology.prune,
            Forest.isBelow_filter Forest.closed_isBelow_or_root isGone]

/-- `server_split` removes exactly what is below the server. -/
theorem serverSplit_pruned (depth : Nat) : SplitsBelow depth := by
  induction depth with
  | zero => exact fun _ _ _ _ deep => absurd deep (Nat.not_lt_zero _)
  | succ depth ih =>
      intro ircd linked sptr notMe deep
      have net := linked.network
      have isUser : ∀ place ∈ ircd.topology.places,
          place.id ∈ ircd.userDeps sptr →
            place.isUser = true ∧ place.isLocal = false := by
        intro place member isDep
        obtain ⟨dep, isPlace, isUser, named, same⟩ := mem_userDeps.mp isDep
        obtain rfl := net.eq_of_id_eq isPlace member same
        exact ⟨isUser, net.isLocal_of_below notMe member (.child member named)⟩
      have first := foldl_splitUser_pruned (ircd.userDeps sptr) linked isUser
      have closed : ircd.topology.Closed fun id => id ∈ ircd.userDeps sptr :=
        closed_of_user linked fun place member isGone =>
          (isUser place member (by simpa using isGone)).1
      have linked' := linked.pruned_remote first closed fun place member isGone =>
        (isUser place member (by simpa using isGone)).2
      have server : ∀ place ∈ ircd.topology.places,
          place.isUser = false → place.id ∉ ircd.userDeps sptr := by
        intro place member isServer isDep
        rw [(isUser place member isDep).1] at isServer
        cases isServer
      generalize users : (ircd.userDeps sptr).foldl splitUser ircd = usersGone
        at first linked'
      have places : ∀ place, place ∈ usersGone.topology.places ↔
          place ∈ ircd.topology.places ∧ place.id ∉ ircd.userDeps sptr := by
        intro place
        rw [first.topology]
        simp [Topology.prune]
      have child : ∀ place ∈ ircd.topology.places,
          place.id ∈ usersGone.serverDeps sptr ↔
            place.isUser = false ∧ place.origin = some sptr := by
        intro place member
        rw [mem_serverDeps]
        constructor
        · rintro ⟨dep, isPlace, isServer, named, same⟩
          obtain rfl := net.eq_of_id_eq ((places dep).mp isPlace).1 member same
          exact ⟨isServer, named⟩
        · rintro ⟨isServer, named⟩
          exact ⟨place, (places place).mpr ⟨member, server place member isServer⟩,
            isServer, named, rfl⟩
      have second := ih.children (usersGone.serverDeps sptr) linked'
        (fun place member isDep => by
          have member := ((places place).mp member).1
          obtain ⟨isServer, named⟩ := (child place member).mp isDep
          exact ⟨isServer,
            net.isLocal_of_below notMe member (.child member named)⟩)
        (fun id isDep => by
          obtain ⟨dep, isPlace, -, named, rfl⟩ := mem_serverDeps.mp isDep
          have member := ((places dep).mp isPlace).1
          have less : Forest.room Place.id ircd.topology.places dep.id <
              Forest.room Place.id ircd.topology.places sptr :=
            Forest.room_lt member (net.ordered dep member sptr named).1
          have least : Forest.room Place.id usersGone.topology.places dep.id ≤
              Forest.room Place.id ircd.topology.places dep.id := by
            rw [first.topology]
            exact Forest.room_le_of_sublist List.filter_sublist
          omega)
      rw [serverSplit]
      simp only [users]
      refine (first.trans second).congr (fun id => ?_) (fun l => rfl)
      by_cases isDep : id ∈ ircd.userDeps sptr
      · rw [decide_eq_true isDep, Bool.true_or, eq_comm, Topology.isBelow_iff,
          net.below_iff]
        exact .inl (mem_userDeps.mp isDep)
      · rw [decide_eq_false isDep, Bool.false_or, Bool.eq_iff_iff,
          List.any_eq_true, Topology.isBelow_iff, net.below_iff, ← mem_userDeps,
          or_iff_right isDep]
        have sameBelow : ∀ root, usersGone.topology.isBelow root id =
            ircd.topology.isBelow root id := by
          intro root
          rw [first.topology, Topology.isBelow, Topology.prune,
            Forest.isBelow_filter closed (decide_eq_false isDep)]
        simp only [Bool.or_eq_true, decide_eq_true_eq, sameBelow,
          Topology.isBelow_iff]
        constructor
        · rintro ⟨mid, isChild, isGone⟩
          obtain ⟨dep, isPlace, isServer, named, rfl⟩ := mem_serverDeps.mp isChild
          exact ⟨dep, ((places dep).mp isPlace).1, isServer, named, isGone⟩
        · rintro ⟨dep, member, isServer, named, isGone⟩
          exact ⟨dep.id, (child dep member).mpr ⟨isServer, named⟩, isGone⟩

/-- The connection of a client is closed and its record deleted, once no client
is recorded on it. -/
private theorem closed_clientDelete {ircd released : Ircd} (linked : ircd.Linked)
    {cptr : Client} (member : cptr ∈ ircd.clients)
    (same : released.lclients = ircd.lclients)
    (leaf : ∀ other ∈ released.clients, other.origin ≠ some cptr.id) :
    ∃ listsn, (∀ bucket, listsn bucket ⊆ released.clientListsn bucket) ∧
      (if cptr.isLocal then released.lclientDelete cptr.source
        else released).clientDelete cptr.id =
        { released with
          clients := released.clients.filter fun other =>
            !decide (other.id = cptr.id)
          lclients := ircd.lclients.filter fun lcptr =>
            !(cptr.isLocal && decide (lcptr.id = cptr.source))
          clientListsn := listsn } := by
  have ownLink : ∀ lcptr ∈ ircd.lclients, lcptr.client = some cptr.id →
      cptr.isLocal ∧ cptr.source = lcptr.id := by
    intro lcptr isLink isClient
    obtain ⟨isLocal, isSource, -⟩ :=
      linked.network.isUser_of_link (place_mem member) (link_mem isLink) isClient
    exact ⟨isLocal, isSource⟩
  by_cases isLocal : cptr.isLocal
  · rw [if_pos isLocal]
    obtain ⟨listsn, fewer, deleted⟩ :=
      @clientDelete_leaf (released.lclientDelete cptr.source) cptr.id leaf (by
        intro lcptr isLink isClient
        obtain ⟨isLink, notSource⟩ := List.mem_filter.mp isLink
        have isSource := (ownLink lcptr (same ▸ isLink) isClient).2
        simp [isSource] at notSource)
    refine ⟨listsn, fewer, ?_⟩
    rw [deleted]
    simp [lclientDelete, same, isLocal]
  · rw [if_neg isLocal]
    obtain ⟨listsn, fewer, deleted⟩ := clientDelete_leaf leaf (by
        intro lcptr isLink isClient
        exact isLocal (ownLink lcptr (same ▸ isLink) isClient).1)
    refine ⟨listsn, fewer, ?_⟩
    rw [deleted]
    simp [same, isLocal]

/-- The exit of a client prunes the client and everything below it. -/
theorem clientVexit_pruned {ircd : Ircd} (linked : ircd.Linked) {cptr : Client}
    {id : Nat} (found : ircd.client? id = some cptr)
    (notMe : id ≠ ircd.clientMe) :
    Pruned cptr.kind.isUser
      (fun other => other = id || ircd.topology.isBelow id other)
      (fun l => cptr.isLocal && decide (l = cptr.source)) ircd
      (ircd.clientVexit id) := by
  have member := mem_of_client? found
  obtain rfl := id_of_client? found
  have ownPlace : ∀ place ∈ ircd.topology.places, place.id = cptr.id →
      place = cptr.place := fun place isPlace isId =>
    linked.network.eq_of_id_eq isPlace (place_mem member) isId
  simp only [clientVexit, found]
  by_cases isUser : cptr.IsUser
  · rw [if_pos isUser]
    have nothingOn := linked.origin_ne_user fun place isPlace isId => by
      rw [ownPlace place isPlace isId]
      exact isUser
    have nothingBelow : ∀ other, ircd.topology.isBelow cptr.id other = false := by
      intro other
      by_contra below
      obtain ⟨place, isPlace, named, -⟩ :=
        (Topology.isBelow_iff.mp (Bool.not_eq_false _ |>.mp below)).down_cases
      obtain ⟨acptr, isClient, rfl⟩ := mem_places.mp isPlace
      exact nothingOn acptr isClient named
    obtain ⟨listsn, fewer, deleted⟩ := @closed_clientDelete ircd
      ((ircd.leaveChannels cptr.id Channel.IsPersistent).clientHistoryClean
        cptr.id) linked cptr member rfl nothingOn
    have leaving := leaveChannels_eq ircd cptr.id Channel.IsPersistent true
      (fun chptr => by simp [Channel.IsPersistent, Channel.without])
    refine ⟨listsn, (ircd.clientHistoryClean cptr.id).clientHistory, fewer, ?_⟩
    rw [deleted, leaving]
    simp only [nothingBelow, Bool.or_false]
    have kept : cptr.kind.isUser = true := isUser
    rw [kept]
    rfl
  · rw [if_neg isUser]
    have kept : cptr.kind.isUser = false := by simpa [Client.IsUser] using isUser
    have split := serverSplit_pruned ircd.clients.length ircd linked cptr.id notMe
      (by
        rw [← List.length_map Client.place]
        exact Forest.room_lt_length (place_mem member))
    generalize serverSplit ircd.clients.length ircd cptr.id = released at split
    have sameLinks : released.lclients = ircd.lclients := by
      obtain ⟨listsn, history, -, rfl⟩ := split
      simp
    have leaf : ∀ other ∈ released.clients, other.origin ≠ some cptr.id := by
      obtain ⟨listsn, history, -, rfl⟩ := split
      intro other isOther named
      obtain ⟨isOther, stays⟩ := List.mem_filter.mp isOther
      have below : ircd.topology.isBelow cptr.id other.id = true :=
        Topology.isBelow_iff.mpr (.child (place_mem isOther) named)
      simp [below] at stays
    obtain ⟨listsn, fewer, deleted⟩ := closed_clientDelete linked member sameLinks leaf
    rw [deleted, kept]
    obtain ⟨listsn', history, fewer', rfl⟩ := split
    refine ⟨listsn, history, fun bucket =>
      List.Subset.trans (fewer bucket) (fewer' bucket),
      ?_⟩
    have channels : ircd.channels.filterMap
        (Channel.prune false (ircd.topology.isBelow cptr.id)) =
        ircd.channels.filterMap (Channel.prune false fun other =>
          other = cptr.id || ircd.topology.isBelow cptr.id other) := by
      apply List.filterMap_congr
      intro chptr isChannel
      apply Channel.prune_congr
      intro cuptr isMember
      obtain ⟨place, isPlace, isClient, isUser'⟩ :=
        linked.placeOfMember isChannel isMember
      have notServer : cuptr.client ≠ cptr.id := by
        intro isId
        rw [ownPlace place isPlace (isClient.trans isId)] at isUser'
        exact isUser isUser'
      rw [decide_eq_false notServer, Bool.false_or]
    simp [channels, List.filter_filter]

end Ircd

end Chaosircd
