import Chaosircd.ServerBurst

/-!
# The servers of a burst at the peer

The peer takes the lines of a burst one after the other.  Each adds a server at the end of
the table, on the uplink that the line names, and what has been found in the table under a
name is found there afterwards.  An uplink stands before its servers, so that no line comes
too early, and the servers end up on the uplinks that they have at the sender.
-/

namespace Chaosircd

namespace Ircd

variable {ircd sender receiver after : Ircd} {l l' : Nat} {lines : List Nserver}
  {line : Nserver} {cptr up sptr : Client} {name uplink : CString}

/-- The peer handles the lines that come on the link. -/
def rebuild (ircd : Ircd) (lcptr : Nat) (lines : List Nserver) : Option Ircd :=
  lines.foldlM (fun ircd line => ircd.msNserver lcptr line.uplink line.name) ircd

/-- The line about a server: the name of its uplink and its own. -/
def nserverOf (ircd : Ircd) (cptr : Client) : Nserver where
  uplink := ((cptr.origin.bind ircd.client?).map Client.name).getD []
  name := cptr.serverName.getD []

/-- The announced servers, and no others, have been added, each on its uplink. -/
structure Rebuilt (sender receiver after : Ircd) (l l' : Nat) : Prop where
  added : ∃ added, after.clients = receiver.clients ++ added ∧
    ∀ cptr' ∈ added, cptr'.source = l' ∧
      ∃ cptr, sender.Announced l cptr ∧ cptr'.serverName = some cptr.name
  uplinks : ∀ cptr, sender.Announced l cptr → ∀ up ∈ sender.clients,
    (up.id = sender.clientMe ∨ sender.Announced l up) →
      ∃ cptr' up', after.serverFindName cptr.name = some cptr' ∧
        after.serverFindName up.name = some up' ∧
          (cptr'.origin = some up'.id ↔ cptr.origin = some up.id)

/-! ## Names of servers -/

/-- A client that `server_find_name` finds is a server of this name. -/
theorem serverName_of_find (found : ircd.serverFindName name = some cptr) :
    ∃ own, cptr.serverName = some own ∧ IcmpEq own name := by
  have tested := List.find?_some found
  cases isServer : cptr.serverName with
  | none => simp [isServer] at tested
  | some own => exact ⟨own, rfl, by simpa [isServer] using tested⟩

theorem serverFindName_append (ircd : Ircd) {clients : List Client}
    (isAfter : after.clients = ircd.clients ++ clients) :
    after.serverFindName name = (ircd.serverFindName name).or (clients.find? fun cptr =>
      (cptr.serverName.map fun own => decide (IcmpEq own name)) = some true) := by
  rw [serverFindName, isAfter, List.find?_append]
  rfl

/-- A server is found under its name. -/
theorem Named.serverFindName (named : ircd.Named) (member : cptr ∈ ircd.clients)
    (isServer : cptr.IsServer) : ircd.serverFindName cptr.name = some cptr := by
  cases found : ircd.serverFindName cptr.name with
  | none =>
      have tested := List.find?_eq_none.mp found cptr member
      simp [named.serverName cptr member isServer, IcmpEq.refl] at tested
  | some other =>
      obtain ⟨own, isOwn, same⟩ := serverName_of_find found
      have isOther := mem_of_serverFindName found
      have otherServer : other.IsServer := by
        cases isKind : other.kind with
        | user _ => simp [Client.serverName, isKind] at isOwn
        | server _ => simp [Client.IsServer, Client.IsUser, isKind, ClientKind.isUser]
      rw [named.serverName other isOther otherServer] at isOwn
      obtain rfl := Option.some.inj isOwn
      rw [named.distinct other isOther cptr member otherServer isServer same]

/-! ## One line -/

/-- The server that `ms_nserver` adds. -/
def newServer (ircd : Ircd) (l origin : Nat) (name : CString) : Client where
  id := ircd.clientId
  isLocal := false
  kind := .server name
  source := l
  origin := some origin
  name := name
  hash := strIhash name
  ts := 0

theorem msNserver_eq (unknown : ircd.serverFindName name = none)
    (isUp : ircd.serverFindName uplink = some sptr) (fits : name.length ≤ hostLen) :
    ircd.msNserver l uplink name = some { ircd with
      clients := ircd.clients ++ [ircd.newServer l sptr.id name]
      clientId := ircd.clientId + 1 } := by
  have whole : strlcpy name (hostLen + 1) = name := strlcpy_eq_self (Nat.lt_succ_of_le fits)
  rw [msNserver, if_neg (not_not_intro unknown), isUp, Option.map_some, clientNewRemote, whole,
    whole]
  rfl

/-- The lines have been taken: the table has grown by their servers. -/
structure Taken (receiver after : Ircd) (l' : Nat) (lines : List Nserver) : Prop where
  added : ∃ added, after.clients = receiver.clients ++ added ∧
    added.map Client.serverName = lines.map (fun line => some line.name) ∧
      ∀ cptr ∈ added, cptr.source = l'
  found : ∀ line ∈ lines, ∃ cptr up, after.serverFindName line.name = some cptr ∧
    after.serverFindName line.uplink = some up ∧ cptr.origin = some up.id
  distinct : (after.clients.map Client.id).Nodup
  fresh : ∀ cptr ∈ after.clients, cptr.id < after.clientId

namespace Taken

/-- What the receiver has found is found. -/
theorem kept (taken : Taken receiver after l' lines)
    (known : receiver.serverFindName name = some cptr) :
    after.serverFindName name = some cptr := by
  obtain ⟨added, isAfter, _, _⟩ := taken.added
  rw [serverFindName_append receiver isAfter, known, Option.some_or]

/-- What is not found and is not in the lines is not found. -/
theorem unknown (taken : Taken receiver after l' lines)
    (unknown : receiver.serverFindName name = none)
    (apart : ∀ line ∈ lines, ¬ IcmpEq line.name name) :
    after.serverFindName name = none := by
  obtain ⟨added, isAfter, names, _⟩ := taken.added
  rw [serverFindName_append receiver isAfter, unknown, Option.none_or, List.find?_eq_none]
  intro cptr member
  have isName := List.mem_map_of_mem (f := Client.serverName) member
  rw [names, List.mem_map] at isName
  obtain ⟨line, isLine, isName⟩ := isName
  simpa [← isName] using apart line isLine

/-- One more line. -/
theorem snoc (taken : Taken receiver after l' lines)
    (unknown : after.serverFindName line.name = none)
    (isUp : after.serverFindName line.uplink = some sptr)
    (fits : line.name.length ≤ hostLen) :
    ∃ next, after.msNserver l' line.uplink line.name = some next ∧
      Taken receiver next l' (lines ++ [line]) := by
  refine ⟨_, msNserver_eq unknown isUp fits, ?_, ?_, ?_, ?_⟩
  · obtain ⟨added, isAfter, names, source⟩ := taken.added
    refine ⟨added ++ [after.newServer l' sptr.id line.name], ?_, ?_, ?_⟩
    · rw [← List.append_assoc, ← isAfter]
    · rw [List.map_append, List.map_append, names]
      rfl
    · intro cptr member
      cases List.mem_append.mp member with
      | inl old => exact source cptr old
      | inr isNew => rw [List.mem_singleton.mp isNew, newServer]
  · have later : ∀ {name : CString} {cptr : Client},
        after.serverFindName name = some cptr → Ircd.serverFindName { after with
          clients := after.clients ++ [after.newServer l' sptr.id line.name]
          clientId := after.clientId + 1 } name = some cptr := by
      intro name cptr known
      rw [serverFindName_append after rfl, known, Option.some_or]
    intro other member
    cases List.mem_append.mp member with
    | inl old =>
        obtain ⟨cptr, up, isCptr, isUp, isOrigin⟩ := taken.found other old
        exact ⟨cptr, up, later isCptr, later isUp, isOrigin⟩
    | inr isLine =>
        obtain rfl := List.mem_singleton.mp isLine
        refine ⟨after.newServer l' sptr.id other.name, sptr, ?_, later isUp, rfl⟩
        rw [serverFindName_append after rfl, unknown, Option.none_or]
        simp [newServer, Client.serverName, IcmpEq.refl]
  · rw [List.map_append, List.nodup_append]
    refine ⟨taken.distinct, List.nodup_singleton _, ?_⟩
    rintro _ isOld _ isNew rfl
    obtain ⟨cptr, member, same⟩ := List.mem_map.mp isOld
    have less := taken.fresh cptr member
    rw [same, List.mem_singleton.mp isNew] at less
    exact absurd less (Nat.lt_irrefl _)
  · intro cptr member
    cases List.mem_append.mp member with
    | inl old => exact Nat.lt_succ_of_lt (taken.fresh cptr old)
    | inr isNew =>
        rw [List.mem_singleton.mp isNew]
        exact Nat.lt_succ_self _

end Taken

/-! ## The whole burst -/

/-- The lines of a burst are taken when their servers are new and each uplink is known or
stands before. -/
theorem exists_taken (linked : receiver.Linked)
    (fits : ∀ line ∈ lines, line.name.length ≤ hostLen)
    (apart : lines.Pairwise fun line other => ¬ IcmpEq line.name other.name)
    (unknown : ∀ line ∈ lines, receiver.serverFindName line.name = none)
    (inOrder : ∀ before line after, lines = before ++ line :: after →
      receiver.serverFindName line.uplink ≠ none ∨
        ∃ earlier ∈ before, earlier.name = line.uplink) :
    ∃ after, receiver.rebuild l' lines = some after ∧ Taken receiver after l' lines := by
  induction lines using List.reverseRecOn with
  | nil =>
      refine ⟨receiver, rfl, ⟨[], (List.append_nil _).symm, rfl, fun _ => by simp⟩, ?_, linked.distinct, ?_⟩
      · intro line member
        cases member
      · exact fun cptr member => linked.network.placesFresh _ (place_mem member)
  | append_singleton lines line induction =>
      obtain ⟨early, _, apart⟩ := List.pairwise_append.mp apart
      obtain ⟨after, rebuilt, taken⟩ := induction
        (fun other member => fits other (List.mem_append_left _ member)) early
        (fun other member => unknown other (List.mem_append_left _ member)) (by
          intro before other rest whole
          exact inOrder before other (rest ++ [line]) (by simp [whole]))
      have isLast : line ∈ lines ++ [line] := List.mem_append_right _ (List.mem_singleton_self _)
      have isUnknown := taken.unknown (unknown line isLast) fun other member =>
        apart other member line (List.mem_singleton_self _)
      have exists_up : ∃ sptr, after.serverFindName line.uplink = some sptr := by
        cases inOrder lines line [] rfl with
        | inl known =>
            obtain ⟨sptr, known⟩ := Option.ne_none_iff_exists'.mp known
            exact ⟨sptr, taken.kept known⟩
        | inr earlier =>
            obtain ⟨other, member, same⟩ := earlier
            obtain ⟨sptr, _, isUp, _⟩ := taken.found other member
            exact ⟨sptr, same ▸ isUp⟩
      obtain ⟨sptr, isUp⟩ := exists_up
      obtain ⟨next, stepped, taken⟩ := taken.snoc isUnknown isUp (fits line isLast)
      refine ⟨next, ?_, taken⟩
      rw [rebuild, List.foldlM_append] at *
      rw [rebuilt]
      simpa using stepped

/-! ## The burst at the peer -/

theorem Linked.nserverOf_eq (linked : sender.Linked) (named : sender.Named)
    (announced : sender.Announced l cptr) (isUp : up ∈ sender.clients)
    (isOrigin : cptr.origin = some up.id) : sender.nserverOf cptr = ⟨up.name, cptr.name⟩ := by
  rw [nserverOf, isOrigin, Option.bind_some, linked.client?_of_mem isUp,
    named.serverName cptr announced.member announced.isServer]
  rfl

/-- The lines to a peer that knows `NSERVER`. -/
theorem Linked.serverBurst_eq (linked : sender.Linked) (separate : sender.Separate l) :
    sender.serverBurst l true =
      ((sender.burstOrder l).map sender.nserverOf).map ServerLine.nserver := by
  apply List.map_injective_iff.mpr (Option.some_injective _)
  rw [linked.serverBurst_map_some separate, List.map_map, List.map_map]
  apply List.map_congr_left
  intro cptr member
  have announced := linked.mem_burstOrder.mp member
  obtain ⟨up, isUp, isOrigin, _⟩ := linked.exists_origin announced.member announced.notMe
  rw [linked.introduceOne_eq separate announced isUp isOrigin, if_pos rfl, Function.comp_apply,
    Function.comp_apply, nserverOf, isOrigin, Option.bind_some, linked.client?_of_mem isUp]
  rfl

/-- The servers of a burst stand at the peer as they stand at the sender. -/
theorem Taken.rebuilt (linked : sender.Linked) (named : sender.Named)
    (taken : Taken receiver after l' ((sender.burstOrder l).map sender.nserverOf))
    (knowsMe : ∀ me ∈ sender.clients, me.id = sender.clientMe →
      receiver.serverFindName me.name ≠ none) : Rebuilt sender receiver after l l' := by
  have lineAt : ∀ cptr up, sender.Announced l cptr → up ∈ sender.clients →
      cptr.origin = some up.id → ∃ cptr' up', after.serverFindName cptr.name = some cptr' ∧
        after.serverFindName up.name = some up' ∧ cptr'.origin = some up'.id := by
    intro cptr up announced isUp isOrigin
    have found := taken.found (sender.nserverOf cptr)
      (List.mem_map_of_mem (linked.mem_burstOrder.mpr announced))
    rwa [linked.nserverOf_eq named announced isUp isOrigin] at found
  refine ⟨?_, ?_⟩
  · obtain ⟨added, isAfter, names, source⟩ := taken.added
    refine ⟨added, isAfter, fun cptr' member => ⟨source cptr' member, ?_⟩⟩
    have isName := List.mem_map_of_mem (f := Client.serverName) member
    rw [names, List.map_map, List.mem_map] at isName
    obtain ⟨cptr, isCptr, isName⟩ := isName
    have announced := linked.mem_burstOrder.mp isCptr
    obtain ⟨up, isUp, isOrigin, _⟩ := linked.exists_origin announced.member announced.notMe
    rw [Function.comp_apply, linked.nserverOf_eq named announced isUp isOrigin] at isName
    exact ⟨cptr, announced, isName.symm⟩
  · intro cptr announced up isUp known
    obtain ⟨own, isOwn, isOrigin, ownServer⟩ :=
      linked.exists_origin announced.member announced.notMe
    obtain ⟨cptr', own', isCptr', isOwn', isOrigin'⟩ := lineAt cptr own announced isOwn isOrigin
    have found : ∃ up', after.serverFindName up.name = some up' := by
      cases known with
      | inl isMe =>
          obtain ⟨up', isUp'⟩ := Option.ne_none_iff_exists'.mp (knowsMe up isUp isMe)
          exact ⟨up', taken.kept isUp'⟩
      | inr upAnnounced =>
          obtain ⟨upup, isUpup, isUpOrigin, _⟩ :=
            linked.exists_origin upAnnounced.member upAnnounced.notMe
          obtain ⟨up', _, isUp', _⟩ := lineAt up upup upAnnounced isUpup isUpOrigin
          exact ⟨up', isUp'⟩
    obtain ⟨up', isUp'⟩ := found
    refine ⟨cptr', up', isCptr', isUp', ?_⟩
    have upServer : up.IsServer := by
      cases known with
      | inl isMe =>
          obtain ⟨me, isClient, same, isServer, _⟩ := linked.exists_me
          rwa [KeyedList.eq_of_key_eq linked.distinct isUp isClient (isMe.trans same.symm)]
      | inr upAnnounced => exact upAnnounced.isServer
    constructor
    · intro onUp
      have same : own' = up' := KeyedList.eq_of_key_eq taken.distinct
        (mem_of_serverFindName isOwn') (mem_of_serverFindName isUp')
        (Option.some.inj (isOrigin'.symm.trans onUp))
      obtain ⟨name, isName, sameOwn⟩ := serverName_of_find isOwn'
      obtain ⟨name', isName', sameUp⟩ := serverName_of_find isUp'
      obtain rfl := Option.some.inj ((same ▸ isName).symm.trans isName')
      rw [isOrigin, named.distinct own isOwn up isUp ownServer upServer
        (sameOwn.symm.trans sameUp)]
    · intro onUp
      obtain rfl := KeyedList.eq_of_key_eq linked.distinct isOwn isUp
        (Option.some.inj (isOrigin.symm.trans onUp))
      rw [isOrigin', Option.some.inj (isOwn'.symm.trans isUp')]

/-- The peer takes the lines about servers that it does not know. -/
theorem Linked.exists_rebuilt (linked : sender.Linked) (named : sender.Named)
    (separate : sender.Separate l) (linked' : receiver.Linked)
    (knowsMe : ∀ me ∈ sender.clients, me.id = sender.clientMe →
      receiver.serverFindName me.name ≠ none)
    (unknown : ∀ cptr, sender.Announced l cptr → receiver.serverFindName cptr.name = none) :
    ∃ after, receiver.rebuild l' ((sender.burstOrder l).map sender.nserverOf) = some after ∧
      Rebuilt sender receiver after l l' := by
  have isOrder := linked.burstOrder separate
  have lineOf : ∀ cptr ∈ sender.burstOrder l, ∃ up ∈ sender.clients,
      cptr.origin = some up.id ∧ sender.nserverOf cptr = ⟨up.name, cptr.name⟩ := by
    intro cptr member
    have announced := linked.mem_burstOrder.mp member
    obtain ⟨up, isUp, isOrigin, _⟩ := linked.exists_origin announced.member announced.notMe
    exact ⟨up, isUp, isOrigin, linked.nserverOf_eq named announced isUp isOrigin⟩
  have lineName : ∀ cptr ∈ sender.burstOrder l, (sender.nserverOf cptr).name = cptr.name := by
    intro cptr member
    obtain ⟨up, _, _, isLine⟩ := lineOf cptr member
    rw [isLine]
  obtain ⟨after, rebuilt, taken⟩ : ∃ after, receiver.rebuild l'
      ((sender.burstOrder l).map sender.nserverOf) = some after ∧ Taken receiver after l'
        ((sender.burstOrder l).map sender.nserverOf) := by
    apply exists_taken linked'
    · intro line member
      obtain ⟨cptr, isCptr, rfl⟩ := List.mem_map.mp member
      have announced := linked.mem_burstOrder.mp isCptr
      rw [lineName cptr isCptr]
      exact named.fits cptr announced.member announced.isServer
    · rw [List.pairwise_map]
      refine isOrder.once.imp_of_mem ?_
      intro cptr other isCptr isOther differ same
      rw [lineName cptr isCptr, lineName other isOther] at same
      have announced := linked.mem_burstOrder.mp isCptr
      have announced' := linked.mem_burstOrder.mp isOther
      exact differ (named.distinct cptr announced.member other announced'.member
        announced.isServer announced'.isServer same)
    · intro line member
      obtain ⟨cptr, isCptr, rfl⟩ := List.mem_map.mp member
      rw [lineName cptr isCptr]
      exact unknown cptr (linked.mem_burstOrder.mp isCptr)
    · intro before line rest whole
      obtain ⟨first, second, split, rfl, tail⟩ := List.map_eq_append_iff.mp whole
      obtain ⟨cptr, last, rfl, rfl, _⟩ := List.map_eq_cons_iff.mp tail
      have isCptr : cptr ∈ sender.burstOrder l := by simp [split]
      obtain ⟨up, isUp, isOrigin, isLine⟩ := lineOf cptr isCptr
      rw [isLine]
      cases isOrder.inOrder first cptr last split with
      | inl onMe =>
          exact Or.inl (knowsMe up isUp (Option.some.inj (isOrigin.symm.trans onMe)))
      | inr early =>
          obtain ⟨up', isEarly, isOrigin'⟩ := early
          have isUp' : up' ∈ sender.burstOrder l := by simp [split, isEarly]
          obtain rfl := KeyedList.eq_of_key_eq linked.distinct isUp
            (linked.mem_burstOrder.mp isUp').member
            (Option.some.inj (isOrigin.symm.trans isOrigin'))
          exact Or.inr ⟨_, List.mem_map_of_mem isEarly, lineName up isUp'⟩
  exact ⟨after, rebuilt, taken.rebuilt linked named knowsMe⟩

theorem linked_of_run (table : ChanmodeTable) (name : CString) (systime : Nat)
    {events : List Event} {final : Ircd}
    (runs : TransitionSystem.run (step table) (boot name systime) events = some final) :
    final.Linked :=
  TransitionSystem.invariant_of_run (fun _ _ _ linked stepped => linked.step table stepped)
    (linked_boot name systime) runs

/-- A hub with two servers one behind the other, and a server that links. -/
def chain : List Event :=
  [.accept true, .serverLogin 1 "hub".toList true,
    .msNserver 1 none "hub".toList "leaf".toList,
    .msNserver 1 none "leaf".toList "twig".toList,
    .accept true, .serverLogin 2 "irc.b".toList true]

end Ircd

end Chaosircd
