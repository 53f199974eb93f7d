import Chaosircd.NetworkStep

/-!
# Origins and connections agree

A client of another server is removed in one of two ways: with the server it is
recorded on, or with the connection it is reached through.  The two are the same
as long as every such client is reached through the connection of its server.
The handlers that introduce users and servers take the connection from the line
and the server from one of its arguments, and do not compare them.
-/

namespace Chaosircd

namespace Topology

/-- Every remote client is reached through the connection of its origin. -/
def Coherent (net : Topology) : Prop :=
  ∀ place ∈ net.places, place.isLocal = false →
    ∃ up ∈ net.places, place.origin = some up.id ∧ up.source = place.source

/-- The connection of a new client's server is the one its line came on. -/
def OnLink (l : Nat) (up : Place) : Prop :=
  up.source = l

namespace Coherent

variable {net next : Topology}

theorem growth (coherent : net.Coherent) (growth : net.Growth OnLink next) :
    next.Coherent := by
  have old : ∀ place ∈ net.places, place.isLocal = false →
      ∃ up ∈ next.places, place.origin = some up.id ∧
        up.source = place.source := by
    intro place member isRemote
    obtain ⟨up, isPlace, rest⟩ := coherent place member isRemote
    exact ⟨up, growth.places_subset isPlace, rest⟩
  cases growth with
  | same => exact coherent
  | connect => exact coherent
  | hangUp free => exact coherent
  | register isLink unknown =>
      intro place member isRemote
      rcases List.mem_append.mp member with isOld | isNew
      · exact old place isOld isRemote
      · rw [List.mem_singleton.mp isNew] at isRemote
        cases isRemote
  | attach isPlace isServer onLink =>
      intro place member isRemote
      rcases List.mem_append.mp member with isOld | isNew
      · exact old place isOld isRemote
      · rw [List.mem_singleton.mp isNew]
        exact ⟨_, List.mem_append_left _ isPlace, rfl, onLink⟩

theorem prune (coherent : net.Coherent) {gone lost : Nat → Bool}
    (closed : net.Closed gone) : (net.prune gone lost).Coherent := by
  intro place member isRemote
  obtain ⟨member, stays⟩ := List.mem_filter.mp member
  obtain ⟨up, isPlace, named, same⟩ := coherent place member isRemote
  refine ⟨up, List.mem_filter.mpr ⟨isPlace, ?_⟩, named, same⟩
  rw [Bool.not_eq_true']
  by_contra isGone
  rw [closed place member up.id named (Bool.not_eq_false _ |>.mp isGone)] at stays
  cases stays

/-- A remote client has a local server above it on the same connection. -/
theorem exists_root (coherent : net.Coherent) (linked : net.Linked)
    {place : Place} (member : place ∈ net.places) :
    ∃ root ∈ net.places, root.isLocal ∧ root.source = place.source ∧
      (place = root ∨ net.Below root.id place.id) := by
  generalize isId : place.id = id
  induction id using Nat.strong_induction_on generalizing place with
  | _ id ih =>
      cases isLocal : place.isLocal with
      | true => exact ⟨place, member, isLocal, rfl, .inl rfl⟩
      | false =>
          obtain ⟨up, isPlace, named, same⟩ := coherent place member isLocal
          have smaller := (linked.ordered place member up.id named).1
          obtain ⟨root, isRoot, rootLocal, rootSource, above⟩ :=
            ih up.id (isId ▸ smaller) isPlace rfl
          refine ⟨root, isRoot, rootLocal, rootSource.trans same, .inr ?_⟩
          subst isId
          rcases above with rfl | above
          · exact .child member named
          · exact .deeper member named above

/-- What is below a server is reached through its connection. -/
theorem source_of_below (coherent : net.Coherent) (linked : net.Linked)
    {root place : Place} (isRoot : root ∈ net.places)
    (notMe : root.id ≠ net.clientMe) (member : place ∈ net.places)
    (below : net.Below root.id place.id) : place.source = root.source := by
  generalize isId : place.id = id at below
  induction below generalizing place with
  | @child node isNode named =>
      obtain rfl := linked.eq_of_id_eq member isNode isId
      obtain ⟨up, isPlace, named', same⟩ := coherent place member
        (linked.isLocal_of_below notMe member (.child member named))
      obtain rfl := linked.eq_of_id_eq isPlace isRoot
        (Option.some.inj (named'.symm.trans named))
      exact same.symm
  | @deeper node up isNode named above ih =>
      obtain rfl := linked.eq_of_id_eq member isNode isId
      obtain ⟨up', isPlace, named', same⟩ := coherent place member
        (linked.isLocal_of_below notMe member (.deeper member named above))
      rw [← same]
      exact ih isPlace (Option.some.inj (named'.symm.trans named))

/-- The clients that go with a local client are those on its connection. -/
theorem gone_iff (coherent : net.Coherent) (linked : net.Linked)
    {root place : Place} (isRoot : root ∈ net.places) (rootLocal : root.isLocal)
    (notMe : root.id ≠ net.clientMe) (member : place ∈ net.places) :
    (place.id = root.id ∨ net.Below root.id place.id) ↔
      place.source = root.source := by
  constructor
  · rintro (same | below)
    · rw [linked.eq_of_id_eq member isRoot same]
    · exact coherent.source_of_below linked isRoot notMe member below
  · intro same
    obtain ⟨other, isOther, otherLocal, otherSource, above⟩ :=
      coherent.exists_root linked member
    obtain rfl := linked.eq_of_source_eq isOther isRoot otherLocal rootLocal
      (otherSource.trans same)
    exact above.imp_left (congrArg Place.id)

end Coherent

end Topology

namespace Ircd

/-- Every remote client is reached through the connection of the server recorded
as its origin. -/
def RoutesCoherent (ircd : Ircd) : Prop :=
  ∀ cptr ∈ ircd.clients, cptr.isLocal = false →
    ∃ optr ∈ ircd.clients, cptr.origin = some optr.id ∧ optr.IsServer ∧
      optr.source = cptr.source

instance (ircd : Ircd) : Decidable ircd.RoutesCoherent :=
  inferInstanceAs (Decidable (∀ cptr ∈ ircd.clients, _ → ∃ optr ∈ ircd.clients, _))

/-- The channel lists the membership. -/
def HasMember (ircd : Ircd) (id : Nat) (cuptr : Chanuser) : Prop :=
  ∃ chptr ∈ ircd.channels, chptr.id = id ∧ cuptr ∈ chptr.chanusers

/-- Losing a connection removes the connection, the clients reached through it
and their memberships, and leaves all others as they are. -/
def LosesExactly (ircd : Ircd) (l : Nat) (after : Ircd) : Prop :=
  after.clients = ircd.clients.filter (fun cptr => cptr.source ≠ l) ∧
    after.lclients = ircd.lclients.filter (fun lcptr => lcptr.id ≠ l) ∧
    ∀ id cuptr, after.HasMember id cuptr ↔ ircd.HasMember id cuptr ∧
      ∀ cptr ∈ ircd.clients, cptr.id = cuptr.client → cptr.source ≠ l

variable {ircd next : Ircd}

/-- The tables are linked, and origins agree with connections. -/
structure Routed (ircd : Ircd) : Prop where
  linked : ircd.Linked
  coherent : ircd.topology.Coherent

theorem Routed.step (routed : ircd.Routed) (table : ChanmodeTable)
    {event : Event} (onLink : ircd.OriginsAre Topology.OnLink event)
    (stepped : ircd.step table event = some next) : next.Routed := by
  have effect := routed.linked.effect table onLink stepped
  refine ⟨effect.linked routed.linked, ?_⟩
  cases effect with
  | grows grows => exact routed.coherent.growth grows.growth
  | exit isExit member notMe pruned =>
      rw [pruned.topology]
      exact routed.coherent.prune Forest.closed_isBelow_or_root
  | channels changes only linked =>
      obtain ⟨channels, channelId, rfl⟩ := only
      exact routed.coherent

theorem Routed.routesCoherent (routed : ircd.Routed) : ircd.RoutesCoherent := by
  intro cptr member isRemote
  obtain ⟨up, isPlace, named, same⟩ :=
    routed.coherent cptr.place (place_mem member) isRemote
  have isServer := routed.linked.network.originServer cptr.place
    (place_mem member) up isPlace named
  obtain ⟨optr, isClient, rfl⟩ := mem_places.mp isPlace
  exact ⟨optr, isClient, named, Bool.eq_false_iff.mp isServer, same⟩

/-- What the pruned channels list. -/
theorem Pruned.hasMember_iff {keep : Bool} {gone lost : Nat → Bool}
    (pruned : Pruned keep gone lost ircd next) (id : Nat) (cuptr : Chanuser) :
    next.HasMember id cuptr ↔
      ircd.HasMember id cuptr ∧ gone cuptr.client = false := by
  obtain ⟨listsn, history, -, rfl⟩ := pruned
  constructor
  · rintro ⟨left, member, isId, isMember⟩
    obtain ⟨chptr, isChannel, kept⟩ := List.mem_filterMap.mp member
    rw [Channel.prune_eq_some kept] at isId isMember
    obtain ⟨isMember, stays⟩ := List.mem_filter.mp isMember
    exact ⟨⟨chptr, isChannel, isId, isMember⟩, by simpa using stays⟩
  · rintro ⟨⟨chptr, isChannel, isId, isMember⟩, stays⟩
    have left : cuptr ∈ (chptr.without gone).chanusers :=
      List.mem_filter.mpr ⟨isMember, by simpa using stays⟩
    have kept : chptr.prune keep gone = some (chptr.without gone) :=
      if_neg fun empty => List.ne_nil_of_mem left empty.1
    exact ⟨_, List.mem_filterMap.mpr ⟨chptr, isChannel, kept⟩, isId, left⟩

/-- A connection without a client has nothing behind it. -/
theorem Routed.source_ne (routed : ircd.Routed) {l : Nat}
    (free : ∀ lcptr, ircd.lclient? l = some lcptr → lcptr.client = none) :
    ∀ cptr ∈ ircd.clients, cptr.source ≠ l := by
  rintro cptr member rfl
  have network := routed.linked.network
  obtain ⟨root, isRoot, isLocal, same, -⟩ :=
    routed.coherent.exists_root network (place_mem member)
  obtain ⟨link, isLink, isSource, isClient⟩ :=
    network.linkOfPlace root isRoot isLocal
  obtain ⟨lcptr, isLclient, rfl⟩ := List.mem_map.mp isLink
  have distinct : (ircd.lclients.map Lclient.id).Nodup := by
    have linksDistinct := network.linksDistinct
    rwa [topology, List.map_map] at linksDistinct
  have found : ircd.lclient? cptr.source = some lcptr :=
    (KeyedList.find?_eq_some_iff distinct).mpr ⟨isLclient, isSource.trans same⟩
  have isNone : lcptr.link.client = none := free lcptr found
  rw [isNone] at isClient
  cases isClient

theorem Routed.losesExactly_of_free (routed : ircd.Routed) {l : Nat}
    (free : ∀ lcptr, ircd.lclient? l = some lcptr → lcptr.client = none) :
    ircd.LosesExactly l (ircd.lclientDelete l) := by
  have nothing := routed.source_ne free
  refine ⟨?_, rfl, ?_⟩
  · symm
    exact List.filter_eq_self.mpr fun cptr member =>
      decide_eq_true (nothing cptr member)
  · intro id cuptr
    exact ⟨fun isMember => ⟨isMember, fun cptr member _ => nothing cptr member⟩,
      And.left⟩

/-- Losing a connection removes exactly what is reached through it. -/
theorem Routed.losesExactly (routed : ircd.Routed) {l : Nat}
    (notMe : l ≠ ircd.lclientMe) : ircd.LosesExactly l (ircd.lclientVexit l) := by
  have network := routed.linked.network
  cases found : ircd.lclient? l with
  | none =>
      have lclients : ircd.lclients.filter (fun lcptr => lcptr.id ≠ l) =
          ircd.lclients := by
        rw [List.filter_eq_self]
        intro lcptr member
        simpa using List.find?_eq_none.mp found lcptr member
      have same : ircd.lclientVexit l = ircd.lclientDelete l := by
        simp only [lclientVexit, found, lclientDelete, lclients]
      rw [same]
      exact routed.losesExactly_of_free (by simp [found])
  | some lcptr =>
      cases isClient : lcptr.client with
      | none =>
          have same : ircd.lclientVexit l = ircd.lclientDelete l := by
            simp only [lclientVexit, found, isClient]
          rw [same]
          exact routed.losesExactly_of_free (by simp [found, isClient])
      | some id =>
          obtain ⟨root, shown, isLocal, isSource, rootNotMe, same⟩ :=
            routed.linked.lclientVexit_eq found isClient notMe
          have isRoot := mem_of_client? shown
          obtain rfl := id_of_client? shown
          have pruned := clientVexit_pruned routed.linked shown rootNotMe
          have goneIff : ∀ cptr ∈ ircd.clients,
              (decide (cptr.id = root.id) ||
                ircd.topology.isBelow root.id cptr.id) =
                decide (cptr.source = l) := by
            intro cptr member
            rw [Bool.eq_iff_iff, Bool.or_eq_true, decide_eq_true_eq,
              decide_eq_true_eq, Topology.isBelow_iff, ← isSource]
            exact routed.coherent.gone_iff network (place_mem isRoot) isLocal
              rootNotMe (place_mem member)
          rw [same]
          refine ⟨?_, ?_, fun id cuptr => ?_⟩
          · obtain ⟨listsn, history, -, exited⟩ := pruned
            rw [exited]
            apply List.filter_congr
            intro cptr member
            have isGone := goneIff cptr member
            simp only [isGone, decide_not]
          · obtain ⟨listsn, history, -, exited⟩ := pruned
            rw [exited]
            simp [isLocal, isSource]
          · rw [pruned.hasMember_iff]
            apply and_congr_right
            rintro ⟨chptr, isChannel, -, isMember⟩
            obtain ⟨cptr, member, isId, -⟩ :=
              routed.linked.channels.members chptr isChannel cuptr isMember
            have isGone := goneIff cptr member
            rw [← isId]
            simp only [isGone, decide_eq_false_iff_not]
            constructor
            · intro stays other isOther sameId
              have same := network.eq_of_id_eq (place_mem isOther)
                (place_mem member) sameId
              rwa [show other.source = cptr.source from congrArg Place.source same]
            · exact fun stays => stays cptr member rfl

theorem routed_boot (name : CString) (systime : Nat) :
    (boot name systime).Routed :=
  ⟨linked_boot name systime, by simp [Topology.Coherent, topology, boot, Client.place]⟩

/-- Two servers link, and a user of the second one is introduced by a line that
comes on the link `l`. -/
def introduction (l : Nat) : List Event :=
  [.accept true, .serverLogin 1 "hub".toList true,
    .accept true, .serverLogin 2 "leaf".toList true,
    .msNuser l none
      ["al".toList, "1".toList, "500".toList, "+".toList, "al".toList,
        "host".toList, "0".toList, "leaf".toList, "AAAAAAAA".toList,
        "info".toList] "x".toList]

end Ircd

end Chaosircd
