import Chaosircd.Daemon
import Chaosircd.Forest

/-!
# The map of the network

What a server knows about the network apart from names: which clients there
are, through which connection each is reached and on which server it is, and
which client each connection belongs to.  A client appears on the map through
one of two operations and leaves it by being pruned; the operations are stated
on the map alone and keep it linked.
-/

namespace Chaosircd

/-- A client on the map. -/
structure Place where
  id : Nat
  isLocal : Bool
  isUser : Bool
  source : Nat
  origin : Option Nat
  deriving DecidableEq

/-- A connection on the map. -/
structure Link where
  id : Nat
  type : LclientType
  client : Option Nat
  deriving DecidableEq

/-- The type of the connection of a local client. -/
def Place.linkType (place : Place) : LclientType :=
  if place.isUser then .user else .server

structure Topology where
  places : List Place
  links : List Link
  clientId : Nat
  lclientId : Nat
  clientMe : Nat
  lclientMe : Nat

namespace Topology

/-- Local clients and connections point at each other, and every client but the
server's own is recorded on an older server. -/
structure Linked (net : Topology) : Prop where
  placesDistinct : (net.places.map Place.id).Nodup
  placesFresh : ∀ place ∈ net.places, place.id < net.clientId
  linksDistinct : (net.links.map Link.id).Nodup
  linksFresh : ∀ link ∈ net.links, link.id < net.lclientId
  linkOfPlace : ∀ place ∈ net.places, place.isLocal →
    ∃ link ∈ net.links, link.id = place.source ∧ link.client = some place.id
  placeOfLink : ∀ link ∈ net.links, ∀ id, link.client = some id →
    ∃ place ∈ net.places, place.id = id ∧ place.isLocal ∧
      place.source = link.id ∧ link.type = place.linkType
  me : ∃ me ∈ net.places, me.id = net.clientMe ∧ me.isLocal ∧
    me.isUser = false ∧ me.source = net.lclientMe ∧ me.origin = none
  localOrigin : ∀ place ∈ net.places, place.isLocal →
    place.id = net.clientMe ∨ place.origin = some net.clientMe
  ordered : Forest.Ordered Place.id Place.origin net.places
  originServer : ∀ place ∈ net.places, ∀ place' ∈ net.places,
    place.origin = some place'.id → place'.isUser = false
  remoteOrigin : ∀ place ∈ net.places, place.isLocal = false →
    place.origin ≠ none

/-- A connection is accepted. -/
def connect (net : Topology) : Topology :=
  { net with
    links := net.links ++ [⟨net.lclientId, .unknown, none⟩]
    lclientId := net.lclientId + 1 }

/-- A connection that has not registered is closed. -/
def hangUp (net : Topology) (l : Nat) : Topology :=
  { net with links := net.links.filter fun link => link.id ≠ l }

/-- A connection registers as a user or as a server. -/
def register (net : Topology) (l : Nat) (isUser : Bool) : Topology :=
  let place : Place := ⟨net.clientId, true, isUser, l, some net.clientMe⟩
  { net with
    places := net.places ++ [place]
    links := net.links.map fun link =>
      if link.id = l then
        { link with type := place.linkType, client := some net.clientId }
      else link
    clientId := net.clientId + 1 }

/-- A client on another server becomes known. -/
def attach (net : Topology) (isUser : Bool) (source origin : Nat) : Topology :=
  { net with
    places := net.places ++ [⟨net.clientId, false, isUser, source, some origin⟩]
    clientId := net.clientId + 1 }

/-- Clients and connections go. -/
def prune (net : Topology) (gone lost : Nat → Bool) : Topology :=
  { net with
    places := net.places.filter fun place => !gone place.id
    links := net.links.filter fun link => !lost link.id }

/-- The clients that are recorded on a server or below it. -/
abbrev Below (net : Topology) : Nat → Nat → Prop :=
  Forest.Below Place.id Place.origin net.places

noncomputable abbrev isBelow (net : Topology) : Nat → Nat → Bool :=
  Forest.isBelow Place.id Place.origin net.places

theorem isBelow_iff {net : Topology} {root id : Nat} :
    net.isBelow root id = true ↔ net.Below root id :=
  Forest.isBelow_iff

abbrev Closed (net : Topology) : (Nat → Bool) → Prop :=
  Forest.Closed Place.id Place.origin net.places

namespace Linked

variable {net : Topology}

theorem eq_of_id_eq (linked : net.Linked) {place place' : Place}
    (member : place ∈ net.places) (member' : place' ∈ net.places)
    (same : place.id = place'.id) : place = place' :=
  KeyedList.eq_of_key_eq linked.placesDistinct member member' same

theorem eq_of_linkId_eq (linked : net.Linked) {link link' : Link}
    (member : link ∈ net.links) (member' : link' ∈ net.links)
    (same : link.id = link'.id) : link = link' :=
  KeyedList.eq_of_key_eq linked.linksDistinct member member' same

/-- A connection that has not registered has no client. -/
theorem client_eq_none (linked : net.Linked) {link : Link}
    (member : link ∈ net.links) (unknown : link.type = .unknown) :
    link.client = none := by
  cases isClient : link.client with
  | none => rfl
  | some id =>
      obtain ⟨place, -, -, -, -, isType⟩ := linked.placeOfLink link member id isClient
      rw [unknown, Place.linkType] at isType
      split_ifs at isType

/-- The server's own client is on no other server. -/
theorem not_below_me (linked : net.Linked) (root : Nat) :
    ¬ net.Below root net.clientMe := by
  obtain ⟨me, member, isMe, -, -, -, noOrigin⟩ := linked.me
  intro below
  rw [← isMe] at below
  obtain ⟨up, named, -⟩ := Forest.Below.up_cases linked.placesDistinct member below
  rw [noOrigin] at named
  cases named

/-- Only remote clients are below a server other than this one. -/
theorem isLocal_of_below (linked : net.Linked) {root : Nat}
    (notMe : root ≠ net.clientMe) {place : Place} (member : place ∈ net.places)
    (below : net.Below root place.id) : place.isLocal = false := by
  by_contra isLocal
  rcases linked.localOrigin place member (by simpa using isLocal) with isMe | named
  · exact linked.not_below_me root (isMe ▸ below)
  · obtain ⟨up, named', rest⟩ :=
      Forest.Below.up_cases linked.placesDistinct member below
    obtain rfl : net.clientMe = up := Option.some.inj (named.symm.trans named')
    rcases rest with rfl | above
    · exact notMe rfl
    · exact linked.not_below_me root above

/-- What is below a server is a user on it, a server on it, or below such a
server. -/
theorem below_iff (linked : net.Linked) {root id : Nat} :
    net.Below root id ↔
      (∃ place ∈ net.places,
        place.isUser = true ∧ place.origin = some root ∧ place.id = id) ∨
      ∃ place ∈ net.places, place.isUser = false ∧ place.origin = some root ∧
        (id = place.id ∨ net.Below place.id id) := by
  constructor
  · intro below
    obtain ⟨place, member, named, isTarget⟩ := below.down_cases
    cases isUser : place.isUser with
    | false => exact .inr ⟨place, member, isUser, named, isTarget⟩
    | true =>
        rcases isTarget with rfl | lower
        · exact .inl ⟨place, member, isUser, named, rfl⟩
        · obtain ⟨deeper, isDeeper, onUser, -⟩ := lower.down_cases
          rw [linked.originServer deeper isDeeper place member onUser] at isUser
          cases isUser
  · rintro (⟨place, member, -, named, rfl⟩ | ⟨place, member, -, named, rfl | lower⟩)
    · exact .child member named
    · exact .child member named
    · exact lower.trans (.child member named)

/-- The connection of a local client tells its type. -/
theorem isUser_of_link (linked : net.Linked) {place : Place} {link : Link}
    (member : place ∈ net.places) (linkMember : link ∈ net.links)
    (isClient : link.client = some place.id) :
    place.isLocal ∧ place.source = link.id ∧ link.type = place.linkType := by
  obtain ⟨place', member', same, isLocal, source, isType⟩ :=
    linked.placeOfLink link linkMember place.id isClient
  obtain rfl := linked.eq_of_id_eq member' member same
  exact ⟨isLocal, source, isType⟩

/-- Two local clients on one connection are one client. -/
theorem eq_of_source_eq (linked : net.Linked) {place place' : Place}
    (member : place ∈ net.places) (member' : place' ∈ net.places)
    (isLocal : place.isLocal) (isLocal' : place'.isLocal)
    (same : place.source = place'.source) : place = place' := by
  obtain ⟨link, isLink, isSource, isClient⟩ :=
    linked.linkOfPlace place member isLocal
  obtain ⟨link', isLink', isSource', isClient'⟩ :=
    linked.linkOfPlace place' member' isLocal'
  obtain rfl := linked.eq_of_linkId_eq isLink isLink'
    (isSource.trans (same.trans isSource'.symm))
  exact linked.eq_of_id_eq member member'
    (Option.some.inj (isClient.symm.trans isClient'))

/-! ## The operations keep the map linked -/

theorem connect (linked : net.Linked) : net.connect.Linked := by
  refine ⟨linked.placesDistinct, linked.placesFresh, ?_, ?_, ?_, ?_, linked.me,
    linked.localOrigin, linked.ordered, linked.originServer,
    linked.remoteOrigin⟩
  · simp only [Topology.connect, List.map_append, List.map_cons, List.map_nil]
    apply List.Nodup.append linked.linksDistinct (by simp)
    simp only [List.disjoint_singleton, List.mem_map, not_exists, not_and]
    intro link member isNew
    have fresh := linked.linksFresh link member
    omega
  · intro link member
    rcases List.mem_append.mp member with old | new
    · have fresh := linked.linksFresh link old
      simp only [Topology.connect]
      omega
    · obtain rfl := List.mem_singleton.mp new
      simp [Topology.connect]
  · intro place member isLocal
    obtain ⟨link, isLink, rest⟩ := linked.linkOfPlace place member isLocal
    exact ⟨link, List.mem_append_left _ isLink, rest⟩
  · intro link member id isClient
    rcases List.mem_append.mp member with old | new
    · exact linked.placeOfLink link old id isClient
    · obtain rfl := List.mem_singleton.mp new
      cases isClient

theorem hangUp (linked : net.Linked) {l : Nat}
    (free : ∀ link ∈ net.links, link.id = l → link.client = none) :
    (net.hangUp l).Linked := by
  refine ⟨linked.placesDistinct, linked.placesFresh, ?_, ?_, ?_, ?_, linked.me,
    linked.localOrigin, linked.ordered, linked.originServer,
    linked.remoteOrigin⟩
  · exact linked.linksDistinct.sublist (List.filter_sublist.map _)
  · exact fun link member => linked.linksFresh link (List.mem_of_mem_filter member)
  · intro place member isLocal
    obtain ⟨link, isLink, isSource, isClient⟩ :=
      linked.linkOfPlace place member isLocal
    refine ⟨link, List.mem_filter.mpr ⟨isLink, ?_⟩, isSource, isClient⟩
    rw [decide_eq_true_eq]
    intro isL
    rw [free link isLink isL] at isClient
    cases isClient
  · exact fun link member => linked.placeOfLink link (List.mem_of_mem_filter member)

/-- A new client with a fresh identifier keeps the identifiers distinct. -/
private theorem distinct_append (linked : net.Linked) {place : Place}
    (isNew : place.id = net.clientId) :
    ((net.places ++ [place]).map Place.id).Nodup := by
  rw [List.map_append]
  apply List.Nodup.append linked.placesDistinct (by simp)
  simp only [List.map_cons, List.map_nil, List.disjoint_singleton, List.mem_map,
    not_exists, not_and]
  intro other member same
  have fresh := linked.placesFresh other member
  omega

private theorem fresh_append (linked : net.Linked) {place : Place}
    (isNew : place.id = net.clientId) :
    ∀ other ∈ net.places ++ [place], other.id < net.clientId + 1 := by
  intro other member
  rcases List.mem_append.mp member with old | new
  · have fresh := linked.placesFresh other old
    omega
  · obtain rfl := List.mem_singleton.mp new
    omega

private theorem ordered_append (linked : net.Linked) {place up : Place}
    (isNew : place.id = net.clientId) (upMember : up ∈ net.places)
    (named : place.origin = some up.id) :
    Forest.Ordered Place.id Place.origin (net.places ++ [place]) := by
  intro other member target isTarget
  rcases List.mem_append.mp member with old | new
  · obtain ⟨smaller, node, isNode, isUp⟩ := linked.ordered other old target isTarget
    exact ⟨smaller, node, List.mem_append_left _ isNode, isUp⟩
  · obtain rfl := List.mem_singleton.mp new
    obtain rfl : up.id = target := Option.some.inj (named.symm.trans isTarget)
    have fresh := linked.placesFresh up upMember
    exact ⟨by omega, up, List.mem_append_left _ upMember, rfl⟩

private theorem originServer_append (linked : net.Linked) {place up : Place}
    (isNew : place.id = net.clientId) (upMember : up ∈ net.places)
    (named : place.origin = some up.id) (isServer : up.isUser = false) :
    ∀ other ∈ net.places ++ [place], ∀ other' ∈ net.places ++ [place],
      other.origin = some other'.id → other'.isUser = false := by
  intro other member other' member' isUp
  rcases List.mem_append.mp member' with old' | new'
  · rcases List.mem_append.mp member with old | new
    · exact linked.originServer other old other' old' isUp
    · obtain rfl := List.mem_singleton.mp new
      have same : up.id = other'.id := Option.some.inj (named.symm.trans isUp)
      rw [← linked.eq_of_id_eq upMember old' same]
      exact isServer
  · obtain rfl := List.mem_singleton.mp new'
    rcases List.mem_append.mp member with old | new
    · obtain ⟨smaller, -⟩ := linked.ordered other old _ isUp
      have fresh := linked.placesFresh other old
      omega
    · obtain rfl := List.mem_singleton.mp new
      have same : up.id = other.id := Option.some.inj (named.symm.trans isUp)
      have fresh := linked.placesFresh up upMember
      omega

theorem attach (linked : net.Linked) {isUser : Bool} {source : Nat}
    {up : Place} (upMember : up ∈ net.places) (isServer : up.isUser = false) :
    (net.attach isUser source up.id).Linked where
  placesDistinct := linked.distinct_append rfl
  placesFresh := linked.fresh_append rfl
  linksDistinct := linked.linksDistinct
  linksFresh := linked.linksFresh
  linkOfPlace := by
    intro place member isLocal
    rcases List.mem_append.mp member with old | new
    · exact linked.linkOfPlace place old isLocal
    · obtain rfl := List.mem_singleton.mp new
      cases isLocal
  placeOfLink := by
    intro link member id isClient
    obtain ⟨place, isPlace, rest⟩ := linked.placeOfLink link member id isClient
    exact ⟨place, List.mem_append_left _ isPlace, rest⟩
  me := by
    obtain ⟨me, member, rest⟩ := linked.me
    exact ⟨me, List.mem_append_left _ member, rest⟩
  localOrigin := by
    intro place member isLocal
    rcases List.mem_append.mp member with old | new
    · exact linked.localOrigin place old isLocal
    · obtain rfl := List.mem_singleton.mp new
      cases isLocal
  ordered := linked.ordered_append rfl upMember rfl
  originServer := linked.originServer_append rfl upMember rfl isServer
  remoteOrigin := by
    intro place member isRemote
    rcases List.mem_append.mp member with old | new
    · exact linked.remoteOrigin place old isRemote
    · obtain rfl := List.mem_singleton.mp new
      simp

theorem register (linked : net.Linked) {isUser : Bool} {link : Link}
    (isLink : link ∈ net.links) (unknown : link.type = .unknown) :
    (net.register link.id isUser).Linked := by
  obtain ⟨me, isMe, meId, -, meServer, -⟩ := linked.me
  have free := linked.client_eq_none isLink unknown
  refine ⟨linked.distinct_append rfl, linked.fresh_append rfl, ?_, ?_, ?_, ?_,
    ?_, ?_, ?_, ?_, ?_⟩
  · rw [Topology.register, KeyedList.map_key_map]
    · exact linked.linksDistinct
    · intro other
      split_ifs <;> rfl
  · intro other member
    obtain ⟨old, isOld, rfl⟩ := List.mem_map.mp member
    have fresh := linked.linksFresh old isOld
    split_ifs <;> exact fresh
  · intro place member isLocal
    rcases List.mem_append.mp member with old | new
    · obtain ⟨other, isOther, isSource, isClient⟩ :=
        linked.linkOfPlace place old isLocal
      refine ⟨other, List.mem_map.mpr ⟨other, isOther, if_neg ?_⟩, isSource,
        isClient⟩
      intro same
      rw [linked.eq_of_linkId_eq isOther isLink same, free] at isClient
      cases isClient
    · obtain rfl := List.mem_singleton.mp new
      exact ⟨_, List.mem_map.mpr ⟨link, isLink, if_pos rfl⟩, rfl, rfl⟩
  · intro other member id isClient
    obtain ⟨old, isOld, rfl⟩ := List.mem_map.mp member
    by_cases isL : old.id = link.id
    · rw [if_pos isL] at isClient ⊢
      obtain rfl : net.clientId = id := Option.some.inj isClient
      exact ⟨_, List.mem_append_right _ (List.mem_singleton_self _), rfl, rfl,
        isL.symm, rfl⟩
    · rw [if_neg isL] at isClient ⊢
      obtain ⟨place, isPlace, rest⟩ := linked.placeOfLink old isOld id isClient
      exact ⟨place, List.mem_append_left _ isPlace, rest⟩
  · obtain ⟨me, member, rest⟩ := linked.me
    exact ⟨me, List.mem_append_left _ member, rest⟩
  · intro place member isLocal
    rcases List.mem_append.mp member with old | new
    · exact linked.localOrigin place old isLocal
    · obtain rfl := List.mem_singleton.mp new
      exact .inr rfl
  · exact linked.ordered_append rfl isMe (by rw [meId])
  · exact linked.originServer_append rfl isMe (by rw [meId]) meServer
  · intro place member isRemote
    rcases List.mem_append.mp member with old | new
    · exact linked.remoteOrigin place old isRemote
    · obtain rfl := List.mem_singleton.mp new
      cases isRemote

/-- A closed part of the map goes together with the connections of its local
clients. -/
theorem prune (linked : net.Linked) {gone lost : Nat → Bool}
    (closed : net.Closed gone) (keepsMe : gone net.clientMe = false)
    (localGone : ∀ place ∈ net.places, place.isLocal →
      gone place.id = lost place.source) :
    (net.prune gone lost).Linked := by
  have mem_iff : ∀ place, place ∈ (net.prune gone lost).places ↔
      place ∈ net.places ∧ gone place.id = false := by
    intro place
    rw [Topology.prune, List.mem_filter, Bool.not_eq_true']
  have link_mem_iff : ∀ link, link ∈ (net.prune gone lost).links ↔
      link ∈ net.links ∧ lost link.id = false := by
    intro link
    rw [Topology.prune, List.mem_filter, Bool.not_eq_true']
  refine ⟨?_, ?_, ?_, ?_, ?_, ?_, ?_, ?_, linked.ordered.filter closed, ?_, ?_⟩
  · exact linked.placesDistinct.sublist (List.filter_sublist.map _)
  · exact fun place member => linked.placesFresh place ((mem_iff _).mp member).1
  · exact linked.linksDistinct.sublist (List.filter_sublist.map _)
  · exact fun link member => linked.linksFresh link ((link_mem_iff _).mp member).1
  · intro place member isLocal
    obtain ⟨member, stays⟩ := (mem_iff _).mp member
    obtain ⟨link, isLink, isSource, isClient⟩ :=
      linked.linkOfPlace place member isLocal
    refine ⟨link, (link_mem_iff _).mpr ⟨isLink, ?_⟩, isSource, isClient⟩
    rw [isSource, ← localGone place member isLocal, stays]
  · intro link member id isClient
    obtain ⟨isLink, stays⟩ := (link_mem_iff _).mp member
    obtain ⟨place, isPlace, isId, isLocal, isSource, isType⟩ :=
      linked.placeOfLink link isLink id isClient
    refine ⟨place, (mem_iff _).mpr ⟨isPlace, ?_⟩, isId, isLocal, isSource,
      isType⟩
    rw [localGone place isPlace isLocal, isSource, stays]
  · obtain ⟨me, member, isMe, rest⟩ := linked.me
    exact ⟨me, (mem_iff _).mpr ⟨member, isMe ▸ keepsMe⟩, isMe, rest⟩
  · exact fun place member => linked.localOrigin place ((mem_iff _).mp member).1
  · exact fun place member place' member' =>
      linked.originServer place ((mem_iff _).mp member).1 place'
        ((mem_iff _).mp member').1
  · exact fun place member => linked.remoteOrigin place ((mem_iff _).mp member).1

/-- A client other than the server's own goes with everything below it and with
its connection. -/
theorem exit (linked : net.Linked) {place : Place} (member : place ∈ net.places)
    (notMe : place.id ≠ net.clientMe) :
    (net.prune (fun id => id = place.id || net.isBelow place.id id)
      fun l => place.isLocal && decide (l = place.source)).Linked := by
  apply linked.prune Forest.closed_isBelow_or_root
  · rw [Bool.or_eq_false_iff, decide_eq_false_iff_not]
    refine ⟨notMe.symm, ?_⟩
    by_contra below
    exact linked.not_below_me place.id
      (isBelow_iff.mp (Bool.not_eq_false _ |>.mp below))
  · intro other isOther isLocal
    have notBelow : net.isBelow place.id other.id = false := by
      by_contra below
      rw [linked.isLocal_of_below notMe isOther
        (isBelow_iff.mp (Bool.not_eq_false _ |>.mp below))] at isLocal
      cases isLocal
    change (_ || net.isBelow place.id other.id) = _
    rw [notBelow, Bool.or_false, Bool.eq_iff_iff, decide_eq_true_eq,
      Bool.and_eq_true, decide_eq_true_eq]
    constructor
    · intro same
      obtain rfl := linked.eq_of_id_eq isOther member same
      exact ⟨isLocal, rfl⟩
    · rintro ⟨isLocal', same⟩
      rw [linked.eq_of_source_eq isOther member isLocal isLocal' same]

end Linked

/-- How the map can change without losing a client: a client that appears on
another server is reached through a connection that the relation allows for that
server. -/
inductive Growth (named : Nat → Place → Prop) (net : Topology) :
    Topology → Prop where
  | same : Growth named net net
  | connect : Growth named net net.connect
  | hangUp {l : Nat}
      (free : ∀ link ∈ net.links, link.id = l → link.client = none) :
      Growth named net (net.hangUp l)
  | register {link : Link} {isUser : Bool} (isLink : link ∈ net.links)
      (unknown : link.type = .unknown) :
      Growth named net (net.register link.id isUser)
  | attach {up : Place} {isUser : Bool} {source : Nat} (isPlace : up ∈ net.places)
      (isServer : up.isUser = false) (allowed : named source up) :
      Growth named net (net.attach isUser source up.id)

namespace Growth

variable {named : Nat → Place → Prop} {net next : Topology}

theorem linked (growth : Growth named net next) (linked : net.Linked) :
    next.Linked := by
  cases growth with
  | same => exact linked
  | connect => exact linked.connect
  | hangUp free => exact linked.hangUp free
  | register isLink unknown => exact linked.register isLink unknown
  | attach isPlace isServer allowed => exact linked.attach isPlace isServer

theorem places_subset (growth : Growth named net next) {place : Place}
    (member : place ∈ net.places) : place ∈ next.places := by
  cases growth with
  | same => exact member
  | connect => exact member
  | hangUp free => exact member
  | register isLink unknown => exact List.mem_append_left _ member
  | attach isPlace isServer allowed => exact List.mem_append_left _ member

/-- A client that appears has a fresh identifier. -/
theorem places_cases (growth : Growth named net next) {place : Place}
    (member : place ∈ next.places) :
    place ∈ net.places ∨ place.id = net.clientId := by
  cases growth with
  | same => exact .inl member
  | connect => exact .inl member
  | hangUp free => exact .inl member
  | register isLink unknown =>
      refine (List.mem_append.mp member).imp_right fun isNew => ?_
      rw [List.mem_singleton.mp isNew]
  | attach isPlace isServer allowed =>
      refine (List.mem_append.mp member).imp_right fun isNew => ?_
      rw [List.mem_singleton.mp isNew]

theorem clientId_le (growth : Growth named net next) :
    net.clientId ≤ next.clientId := by
  cases growth with
  | same => exact Nat.le_refl _
  | connect => exact Nat.le_refl _
  | hangUp free => exact Nat.le_refl _
  | register isLink unknown => exact Nat.le_succ _
  | attach isPlace isServer allowed => exact Nat.le_succ _

end Growth

end Topology

end Chaosircd
