import Chaosircd.ForestWalk
import Chaosircd.ServerCoherence

/-!
# The burst of servers

`server_introduce` walks down the tree of servers and announces those that are not behind
the link itself; the peer takes one line after the other and puts each server on its
uplink.  A server is announced after its uplink, so that the peer knows the uplink, and
once, so that it does not know the server yet.
-/

namespace Chaosircd

/-- An `NSERVER` line, its information apart. -/
structure Nserver where
  uplink : CString
  name : CString
  deriving DecidableEq

/-- What `server_introduce` writes about a server: `NSERVER` to a peer that has announced
`NSV`, and `SERVER`, with or without a prefix, to others. -/
inductive ServerLine where
  | nserver (line : Nserver)
  | server (pfx : Option CString) (name : CString)
  deriving DecidableEq

namespace Ircd

/-- The servers that are known. -/
def servers (ircd : Ircd) : List Client :=
  ircd.clients.filter fun cptr => cptr.IsServer

/-- The condition in `server_introduce`, and the line. -/
def introduceOne (ircd : Ircd) (lcptr : Nat) (capNsv : Bool) (sptr : Client) :
    Option ServerLine :=
  match sptr.origin.bind ircd.client? with
  | none => none
  | some origin =>
    if sptr.id ≠ ircd.clientMe ∧ (ircd.lclient? lcptr).bind Lclient.client ≠ some sptr.id ∧
        sptr.source ≠ lcptr ∧ lcptr ≠ origin.source then
      some (if capNsv then .nserver ⟨origin.name, sptr.serverName.getD []⟩
        else if sptr.isLocal then .server none (sptr.serverName.getD [])
        else .server (some origin.name) (sptr.serverName.getD []))
    else none

/-- `server_introduce`. -/
def serverIntroduce (ircd : Ircd) (lcptr : Nat) (capNsv : Bool) : Nat → Nat → List ServerLine
  | 0, _ => []
  | depth + 1, sptr =>
    ((ircd.client? sptr).bind (ircd.introduceOne lcptr capNsv)).toList ++
      (ircd.serverDeps sptr).flatMap (serverIntroduce ircd lcptr capNsv depth)

/-- The servers in `server_burst`. -/
def serverBurst (ircd : Ircd) (lcptr : Nat) (capNsv : Bool) : List ServerLine :=
  ircd.serverIntroduce lcptr capNsv ircd.clients.length ircd.clientMe

/-- The names of servers are stored whole, and tell them apart. -/
structure Named (ircd : Ircd) : Prop where
  serverName : ∀ cptr ∈ ircd.clients, cptr.IsServer → cptr.serverName = some cptr.name
  fits : ∀ cptr ∈ ircd.clients, cptr.IsServer → cptr.name.length ≤ hostLen
  distinct : ∀ cptr ∈ ircd.clients, ∀ other ∈ ircd.clients, cptr.IsServer → other.IsServer →
    IcmpEq cptr.name other.name → cptr = other

/-- What is not reached through the link is not on a server that is. -/
def Separate (ircd : Ircd) (l : Nat) : Prop :=
  ∀ cptr ∈ ircd.clients, cptr.IsServer → cptr.source ≠ l →
    ∀ up ∈ ircd.clients, cptr.origin = some up.id → up.source ≠ l

instance (ircd : Ircd) (l : Nat) : Decidable (ircd.Separate l) :=
  inferInstanceAs (Decidable (∀ cptr ∈ ircd.clients, cptr.IsServer → cptr.source ≠ l →
    ∀ up ∈ ircd.clients, cptr.origin = some up.id → up.source ≠ l))

/-- The servers that a burst is to announce. -/
structure Announced (ircd : Ircd) (l : Nat) (cptr : Client) : Prop where
  member : cptr ∈ ircd.clients
  isServer : cptr.IsServer
  notMe : cptr.id ≠ ircd.clientMe
  source : cptr.source ≠ l

/-- Each server that is to be announced stands here once, behind its uplink. -/
structure BurstOrder (ircd : Ircd) (l : Nat) (order : List Client) : Prop where
  mem_iff : ∀ cptr, cptr ∈ order ↔ ircd.Announced l cptr
  once : order.Nodup
  inOrder : ∀ before cptr after, order = before ++ cptr :: after →
    cptr.origin = some ircd.clientMe ∨ ∃ up ∈ before, cptr.origin = some up.id

variable {ircd : Ircd} {l : Nat} {cptr up : Client}

/-! ## The tree -/

theorem mem_servers : cptr ∈ ircd.servers ↔ cptr ∈ ircd.clients ∧ cptr.IsServer := by
  rw [servers, List.mem_filter, decide_eq_true_eq]

theorem serverDeps_eq (ircd : Ircd) (sptr : Nat) :
    ircd.serverDeps sptr = Forest.children Client.id Client.origin ircd.servers sptr := by
  rw [serverDeps, Forest.children, servers, List.filter_filter]
  congr 1
  apply List.filter_congr
  intro cptr _
  rw [Bool.and_comm, ← Bool.decide_and]

theorem Linked.distinct (linked : ircd.Linked) : (ircd.clients.map Client.id).Nodup := by
  have distinct := linked.network.placesDistinct
  rwa [topology, List.map_map] at distinct

theorem Linked.ordered_servers (linked : ircd.Linked) :
    Forest.Ordered Client.id Client.origin ircd.servers := by
  intro cptr member up named
  rw [mem_servers] at member
  have isPlace := place_mem member.1
  obtain ⟨less, place, isUp, same⟩ := linked.network.ordered cptr.place isPlace up named
  refine ⟨less, ?_⟩
  have isServer := linked.network.originServer cptr.place isPlace place isUp (same ▸ named)
  obtain ⟨origin, isClient, rfl⟩ := mem_places.mp isUp
  exact ⟨origin, mem_servers.mpr ⟨isClient, Bool.eq_false_iff.mp isServer⟩, same⟩

theorem Linked.exists_me (linked : ircd.Linked) :
    ∃ me ∈ ircd.clients, me.id = ircd.clientMe ∧ me.IsServer ∧ me.origin = none := by
  obtain ⟨place, member, isMe, _, isServer, _, noOrigin⟩ := linked.network.me
  obtain ⟨me, isClient, rfl⟩ := mem_places.mp member
  exact ⟨me, isClient, isMe, Bool.eq_false_iff.mp isServer, noOrigin⟩

/-- A server other than this one is on a server. -/
theorem Linked.exists_origin (linked : ircd.Linked) (member : cptr ∈ ircd.clients)
    (notMe : cptr.id ≠ ircd.clientMe) : ∃ up ∈ ircd.clients, cptr.origin = some up.id ∧
      up.IsServer := by
  have isPlace := place_mem member
  have named : ∃ up, cptr.origin = some up := by
    cases isLocal : cptr.isLocal with
    | true => exact ⟨_, (linked.network.localOrigin cptr.place isPlace isLocal).resolve_left notMe⟩
    | false =>
        have remote := linked.network.remoteOrigin cptr.place isPlace isLocal
        exact Option.ne_none_iff_exists'.mp remote
  obtain ⟨up, named⟩ := named
  obtain ⟨_, place, isUp, same⟩ := linked.network.ordered cptr.place isPlace up named
  have isServer := linked.network.originServer cptr.place isPlace place isUp (same ▸ named)
  obtain ⟨origin, isClient, rfl⟩ := mem_places.mp isUp
  refine ⟨origin, isClient, ?_, Bool.eq_false_iff.mp isServer⟩
  rw [named, ← same]
  rfl

/-- Every server is below this one. -/
theorem Linked.below_me (linked : ircd.Linked) (member : cptr ∈ ircd.clients)
    (isServer : cptr.IsServer) : cptr.id = ircd.clientMe ∨
      Forest.Below Client.id Client.origin ircd.servers ircd.clientMe cptr.id := by
  generalize isId : cptr.id = id
  induction id using Nat.strong_induction_on generalizing cptr with
  | _ id induction =>
      by_cases isMe : cptr.id = ircd.clientMe
      · exact Or.inl (isId.symm.trans isMe)
      · right
        obtain ⟨up, isUp, named, upServer⟩ := linked.exists_origin member isMe
        have isNode := mem_servers.mpr ⟨member, isServer⟩
        have less := (linked.ordered_servers cptr isNode up.id named).1
        rw [← isId]
        cases induction up.id (isId ▸ less) isUp upServer rfl with
        | inl atMe => exact .child isNode (atMe ▸ named)
        | inr above => exact .deeper isNode named above

/-! ## The walk of the burst -/

/-- The line about a server by its identifier. -/
def lineOf (ircd : Ircd) (l : Nat) (capNsv : Bool) (sptr : Nat) : Option ServerLine :=
  (ircd.client? sptr).bind (ircd.introduceOne l capNsv)

/-- The identifiers in the order in which `server_introduce` comes to them. -/
def burstWalk (ircd : Ircd) (depth : Nat) : List Nat :=
  Forest.walk Client.id Client.origin ircd.servers depth ircd.clientMe

theorem serverIntroduce_eq (l : Nat) (capNsv : Bool) (depth sptr : Nat) :
    ircd.serverIntroduce l capNsv depth sptr =
      (Forest.walk Client.id Client.origin ircd.servers depth sptr).filterMap
        (ircd.lineOf l capNsv) := by
  induction depth generalizing sptr with
  | zero => rfl
  | succ depth induction =>
      rw [serverIntroduce, Forest.walk, List.filterMap_cons, serverDeps_eq]
      have deps : (Forest.children Client.id Client.origin ircd.servers sptr).flatMap
          (ircd.serverIntroduce l capNsv depth) =
          ((Forest.children Client.id Client.origin ircd.servers sptr).flatMap
            (Forest.walk Client.id Client.origin ircd.servers depth)).filterMap
            (ircd.lineOf l capNsv) := by
        rw [List.filterMap_flatMap]
        exact List.flatMap_congr fun child _ => induction child
      rw [deps]
      change (ircd.lineOf l capNsv sptr).toList ++ _ = _
      cases ircd.lineOf l capNsv sptr <;> rfl

/-- The walk of the burst is deep enough. -/
theorem Linked.room_lt (linked : ircd.Linked) :
    Forest.room Client.id ircd.servers ircd.clientMe < ircd.clients.length := by
  obtain ⟨me, member, isMe, isServer, _⟩ := linked.exists_me
  have less : Forest.room Client.id ircd.servers me.id < ircd.servers.length :=
    Forest.room_lt_length (mem_servers.mpr ⟨member, isServer⟩)
  rw [isMe] at less
  exact Nat.lt_of_lt_of_le less (List.length_filter_le _ _)

/-- The recursion ends: a deeper one writes the same lines. -/
theorem Linked.serverIntroduce_eq_serverBurst (linked : ircd.Linked) (l : Nat) (capNsv : Bool)
    {depth : Nat} (deep : ircd.clients.length ≤ depth) :
    ircd.serverIntroduce l capNsv depth ircd.clientMe = ircd.serverBurst l capNsv := by
  have room := linked.room_lt
  rw [serverBurst, serverIntroduce_eq, serverIntroduce_eq,
    Forest.walk_eq linked.ordered_servers (by omega) room]

/-- The walk of the burst comes to the servers. -/
theorem Linked.mem_burstWalk (linked : ircd.Linked) {sptr : Nat} :
    sptr ∈ ircd.burstWalk ircd.clients.length ↔
      ∃ cptr ∈ ircd.clients, cptr.id = sptr ∧ cptr.IsServer := by
  rw [burstWalk, Forest.mem_walk linked.ordered_servers linked.room_lt]
  constructor
  · intro reached
    cases reached with
    | inl isMe =>
        obtain ⟨me, member, same, isServer, _⟩ := linked.exists_me
        exact ⟨me, member, same.trans isMe.symm, isServer⟩
    | inr below =>
        obtain ⟨cptr, member, same⟩ := below.exists_node
        obtain ⟨isClient, isServer⟩ := mem_servers.mp member
        exact ⟨cptr, isClient, same, isServer⟩
  · rintro ⟨cptr, member, rfl, isServer⟩
    exact linked.below_me member isServer

/-! ## The order of the burst -/

/-- The servers that a burst announces, in the order of the walk. -/
def burstOrder (ircd : Ircd) (l : Nat) : List Client :=
  (ircd.burstWalk ircd.clients.length).filterMap fun sptr =>
    (ircd.client? sptr).filter fun cptr => cptr.id ≠ ircd.clientMe ∧ cptr.source ≠ l

theorem Linked.mem_burstOrder (linked : ircd.Linked) :
    cptr ∈ ircd.burstOrder l ↔ ircd.Announced l cptr := by
  rw [burstOrder, List.mem_filterMap]
  constructor
  · rintro ⟨sptr, reached, chosen⟩
    obtain ⟨found, wanted⟩ := Option.filter_eq_some_iff.mp chosen
    obtain ⟨other, isClient, isId, isServer⟩ := linked.mem_burstWalk.mp reached
    have member := mem_of_client? found
    obtain rfl := KeyedList.eq_of_key_eq linked.distinct member isClient
      ((id_of_client? found).trans isId.symm)
    rw [decide_eq_true_eq] at wanted
    exact ⟨member, isServer, wanted.1, wanted.2⟩
  · intro announced
    refine ⟨cptr.id, linked.mem_burstWalk.mpr ⟨cptr, announced.member, rfl,
      announced.isServer⟩, ?_⟩
    rw [linked.client?_of_mem announced.member, Option.filter_some, if_pos]
    rw [decide_eq_true_eq]
    exact ⟨announced.notMe, announced.source⟩

/-- A server is announced once, and after its uplink. -/
theorem Linked.burstOrder (linked : ircd.Linked) (separate : ircd.Separate l) :
    ircd.BurstOrder l (ircd.burstOrder l) := by
  refine ⟨fun cptr => linked.mem_burstOrder, ?_, ?_⟩
  · rw [Ircd.burstOrder, List.Nodup, List.pairwise_filterMap]
    have nodup := Forest.walk_nodup linked.ordered_servers
      (linked.distinct.sublist (List.filter_sublist.map Client.id)) linked.room_lt
    refine nodup.imp ?_
    intro sptr other differ cptr chosen cptr' chosen' same
    rw [← id_of_client? (Option.filter_eq_some_iff.mp chosen).1, same,
      id_of_client? (Option.filter_eq_some_iff.mp chosen').1] at differ
    exact differ rfl
  · intro before cptr after whole
    obtain ⟨first, second, walked, rfl, tail⟩ := List.filterMap_eq_append_iff.mp whole
    obtain ⟨between, sptr, rest, rfl, silent, chosen, _⟩ := List.filterMap_eq_cons_iff.mp tail
    have announced : ircd.Announced l cptr := by
      rw [← linked.mem_burstOrder, whole]
      exact List.mem_append_right _ List.mem_cons_self
    obtain rfl := id_of_client? (Option.filter_eq_some_iff.mp chosen).1
    rw [← List.append_assoc] at walked
    cases Forest.walk_parent walked with
    | inl atRoot => exact absurd atRoot.1 announced.notMe
    | inr placed =>
        obtain ⟨node, isNode, same, id, early, isUp⟩ := placed
        obtain rfl := KeyedList.eq_of_key_eq linked.distinct (mem_servers.mp isNode).1
          announced.member same
        obtain ⟨up, member, isOrigin, upServer⟩ :=
          linked.exists_origin announced.member announced.notMe
        obtain rfl := Option.some.inj (isUp.symm.trans isOrigin)
        by_cases isMe : up.id = ircd.clientMe
        · exact Or.inl (isMe ▸ isOrigin)
        · right
          have upChosen : ((ircd.client? up.id).filter fun cptr =>
              decide (cptr.id ≠ ircd.clientMe ∧ cptr.source ≠ l)) = some up := by
            rw [linked.client?_of_mem member, Option.filter_some, if_pos]
            rw [decide_eq_true_eq]
            exact ⟨isMe, separate node announced.member announced.isServer announced.source up
              member isOrigin⟩
          cases List.mem_append.mp early with
          | inl inFirst => exact ⟨up, List.mem_filterMap.mpr ⟨up.id, inFirst, upChosen⟩, isOrigin⟩
          | inr inBetween =>
              rw [silent up.id inBetween] at upChosen
              cases upChosen

/-! ## The lines of the burst -/

/-- What is said about a server that is to be announced. -/
theorem Linked.introduceOne_eq (linked : ircd.Linked) (separate : ircd.Separate l)
    (announced : ircd.Announced l cptr) (isUp : up ∈ ircd.clients)
    (isOrigin : cptr.origin = some up.id) (capNsv : Bool) :
    ircd.introduceOne l capNsv cptr =
      some (if capNsv then .nserver ⟨up.name, cptr.serverName.getD []⟩
        else if cptr.isLocal then .server none (cptr.serverName.getD [])
        else .server (some up.name) (cptr.serverName.getD [])) := by
  have notPeer : (ircd.lclient? l).bind Lclient.client ≠ some cptr.id := by
    intro peer
    obtain ⟨lcptr, found, isClient⟩ := Option.bind_eq_some_iff.mp peer
    have linkMember := link_mem (mem_of_lclient? found)
    have source := (linked.network.isUser_of_link (place_mem announced.member) linkMember
      isClient).2.1
    exact announced.source (source.trans (id_of_lclient? found))
  have apart := separate cptr announced.member announced.isServer announced.source up isUp
    isOrigin
  rw [introduceOne, isOrigin, Option.bind_some, linked.client?_of_mem isUp]
  exact if_pos ⟨announced.notMe, notPeer, announced.source, Ne.symm apart⟩

/-- Nothing is said about the others. -/
theorem introduceOne_eq_none {capNsv : Bool}
    (unwanted : ¬ (cptr.id ≠ ircd.clientMe ∧ cptr.source ≠ l)) :
    ircd.introduceOne l capNsv cptr = none := by
  rw [introduceOne]
  split
  · rfl
  · exact if_neg fun ⟨notMe, _, source, _⟩ => unwanted ⟨notMe, source⟩

/-- A burst says one thing about each server in its order, and no more. -/
theorem Linked.serverBurst_map_some (linked : ircd.Linked) (separate : ircd.Separate l)
    (capNsv : Bool) :
    (ircd.serverBurst l capNsv).map some =
      (ircd.burstOrder l).map (ircd.introduceOne l capNsv) := by
  have lines : ircd.serverBurst l capNsv =
      (ircd.burstOrder l).filterMap (ircd.introduceOne l capNsv) := by
    rw [serverBurst, serverIntroduce_eq, Ircd.burstOrder, List.filterMap_filterMap, burstWalk]
    congr 1
    funext sptr
    rw [lineOf]
    cases ircd.client? sptr with
    | none => rfl
    | some cptr =>
        by_cases wanted : cptr.id ≠ ircd.clientMe ∧ cptr.source ≠ l
        · simp [Option.filter_some, wanted]
        · rw [Option.bind_some, introduceOne_eq_none wanted]
          simp [Option.filter_some, wanted]
  rw [lines]
  have said : ∀ cptr ∈ ircd.burstOrder l,
      (ircd.introduceOne l capNsv cptr).isSome := by
    intro cptr member
    have announced := linked.mem_burstOrder.mp member
    obtain ⟨up, isUp, isOrigin, _⟩ := linked.exists_origin announced.member announced.notMe
    rw [linked.introduceOne_eq separate announced isUp isOrigin]
    rfl
  generalize ircd.burstOrder l = order at said
  induction order with
  | nil => rfl
  | cons cptr order induction =>
      obtain ⟨line, isLine⟩ := Option.isSome_iff_exists.mp (said cptr List.mem_cons_self)
      rw [List.filterMap_cons_some isLine, List.map_cons, List.map_cons, isLine,
        induction fun other member => said other (List.mem_cons_of_mem _ member)]

/-! ## Links without servers behind them -/

/-- On a new link there is only the peer, and nothing is on the peer yet. -/
theorem separate_of_new {peer : Nat}
    (alone : ∀ cptr ∈ ircd.clients, cptr.source = l → cptr.id = peer)
    (bare : ∀ cptr ∈ ircd.clients, cptr.origin ≠ some peer) : ircd.Separate l := by
  intro cptr member _ _ up isUp isOrigin source
  exact bare cptr member (alone up isUp source ▸ isOrigin)

/-- A link is separate when each remote client is reached through the link of its uplink. -/
theorem Linked.separate_of_coherent (linked : ircd.Linked)
    (coherent : ircd.topology.Coherent) (notMe : l ≠ ircd.lclientMe) : ircd.Separate l := by
  intro cptr member _ apart up isUp isOrigin source
  cases isLocal : cptr.isLocal with
  | true =>
      obtain ⟨me, isMe, same, _, _, meSource, noOrigin⟩ := linked.network.me
      cases linked.network.localOrigin cptr.place (place_mem member) isLocal with
      | inl atMe =>
          rw [← linked.network.eq_of_id_eq (place_mem member) isMe (atMe.trans same.symm)]
            at noOrigin
          cases isOrigin.symm.trans noOrigin
      | inr onMe =>
          have upId : up.id = ircd.clientMe := Option.some.inj (isOrigin.symm.trans onMe)
          rw [← linked.network.eq_of_id_eq (place_mem isUp) isMe (upId.trans same.symm)]
            at meSource
          exact notMe (source.symm.trans meSource)
  | false =>
      obtain ⟨up', isUp', isOrigin', same⟩ := coherent cptr.place (place_mem member) isLocal
      rw [← linked.network.eq_of_id_eq (place_mem isUp) isUp'
        (Option.some.inj (isOrigin.symm.trans isOrigin'))] at same
      exact apart (same.symm.trans source)

end Ircd

end Chaosircd
