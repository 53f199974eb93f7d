import Chaosircd.NetworkStep

/-!
# The lifetime of a channel

A channel should be registered exactly as long as it has a member or is
persistent.  Members are lost by `PART`, by `KICK`, by the exit of a user and by
the loss of a server, and each of the four has its own test.  This file compares
the channels after an event with the members that the event leaves, and finds
the events on which the tests are right.
-/

namespace Chaosircd

namespace Channel

/-- What keeps a channel registered. -/
def Alive (chptr : Channel) : Prop :=
  chptr.chanusers ≠ [] ∨ chptr.IsPersistent

instance (chptr : Channel) : Decidable chptr.Alive :=
  inferInstanceAs (Decidable (_ ∨ _))

/-- The channel after members have left it one after the other. -/
def leave (chptr : Channel) (leavers : List Nat) : Channel :=
  leavers.foldl chanuserDelete chptr

end Channel

namespace Ircd

/-- The sender of a `PART`, on the channel that it names. -/
def partLeavers (ircd : Ircd) (cptr : Client) (name : CString)
    (chptr : Channel) : List Nat :=
  if (ircd.channelFindName name).map Channel.id = some chptr.id then [cptr.id]
  else []

/-- The client that one target of a `KICK` makes leave. -/
def kickLeaver (ircd : Ircd) (lcptr : Lclient) (kicker : Finset Char)
    (target : CString × Bool) : Option Nat :=
  if KickAllowed kicker target.2 then
    (ircd.kickTarget lcptr target.1).map Client.id
  else none

/-- The targets of a `KICK`, on the channel that it names. -/
def kickLeavers (ircd : Ircd) (lcptr : Lclient) (cptr : Client)
    (name arg : CString) (halfop : Nat → Bool) (chptr : Channel) : List Nat :=
  match ircd.channelFindName name with
  | none => []
  | some found =>
      match found.chanuserFind cptr.id with
      | none => []
      | some cuptr =>
          if found.id = chptr.id then
            ((strTokenizeS ',' maxTargets arg).mapIdx fun i target =>
              (target, halfop i)).filterMap (ircd.kickLeaver lcptr cuptr.flags)
          else []

/-- The members that an event takes from a channel by name. -/
def leavers (ircd : Ircd) (event : Event) (chptr : Channel) : List Nat :=
  match event with
  | .mPart l name =>
      match ircd.userLine l with
      | some (_, cptr) => ircd.partLeavers cptr name chptr
      | none => []
  | .msPart l pfx name =>
      match ircd.serverLine l pfx with
      | some (_, cptr) => ircd.partLeavers cptr name chptr
      | none => []
  | .mKick l name targets halfop =>
      match ircd.userLine l with
      | some (lcptr, cptr) =>
          ircd.kickLeavers lcptr cptr name targets halfop chptr
      | none => []
  | .msKick l pfx name targets halfop =>
      match ircd.serverLine l pfx with
      | some (lcptr, cptr) =>
          ircd.kickLeavers lcptr cptr name targets halfop chptr
      | none => []
  | _ => []

/-- The memberships that an event leaves on a channel: those that no `PART` or
`KICK` ends, of clients that still exist. -/
def remaining (ircd next : Ircd) (event : Event) (chptr : Channel) :
    List Chanuser :=
  (chptr.leave (ircd.leavers event chptr)).chanusers.filter fun cuptr =>
    (next.client? cuptr.client).isSome

/-- Every registered channel has a member or is persistent. -/
def ChannelsAlive (ircd : Ircd) : Prop :=
  ∀ chptr ∈ ircd.channels, chptr.Alive

instance (ircd : Ircd) : Decidable ircd.ChannelsAlive :=
  inferInstanceAs (Decidable (∀ chptr ∈ ircd.channels, _))

def IsRegistered (ircd : Ircd) (id : Nat) : Prop :=
  ∃ chptr ∈ ircd.channels, chptr.id = id

instance (ircd : Ircd) (id : Nat) : Decidable (ircd.IsRegistered id) :=
  inferInstanceAs (Decidable (∃ chptr ∈ ircd.channels, _))

/-- The law of an event: afterwards all channels are alive, and of the channels
before it those are registered that a member stays on or that are persistent. -/
def KeepsLifetimes (ircd : Ircd) (event : Event) (next : Ircd) : Prop :=
  next.ChannelsAlive ∧
    ∀ chptr ∈ ircd.channels, next.IsRegistered chptr.id ↔
      ircd.remaining next event chptr ≠ [] ∨ chptr.IsPersistent

/-- One of the tokens of an `NJOIN` names a remote user. -/
def NamesMember (ircd : Ircd) (lcptr : Lclient) (members : CString) : Prop :=
  ∃ token ∈ strTokenize 32 members,
    ∃ acptr ∈ ircd.njoinTarget lcptr
        (token.dropWhile fun c => !charsIsnickchar c && !charsIsuidchar c),
      acptr.isLocal = false

/-- The events on which the tests for an empty channel are right: a `KICK`
leaves somebody on a channel that is not persistent, a `PART` from another
server and the loss of a server leave somebody on every persistent channel that
they take a member from, an `NJOIN` that creates a channel, or that takes its
modes from a channel without members, names a member, and `-P` is not set on a
channel without members. -/
def LifetimeGuard (ircd : Ircd) (event : Event) : Prop :=
  match event with
  | .mKick .. | .msKick .. =>
      ∀ chptr ∈ ircd.channels, chptr.IsPersistent ∨
        (chptr.leave (ircd.leavers event chptr)).chanusers ≠ []
  | .msPart .. =>
      ∀ chptr ∈ ircd.channels, chptr.IsPersistent → chptr.chanusers = [] ∨
        (chptr.leave (ircd.leavers event chptr)).chanusers ≠ []
  | .msNjoin l pfx name tsArg members =>
      ircd.FromServer l pfx fun lcptr cptr =>
        cptr.IsServer → charsValidChan name →
          (∀ chptr ∈ ircd.channelFindName name, chptr.chanusers = [] ∧
            timeT (strToul tsArg) < timeT chptr.ts) →
              ircd.NamesMember lcptr members
  | .changeFlag id what letter =>
      what = .del → letter = 'P' → ∀ chptr ∈ ircd.channels, chptr.id = id →
        chptr.chanusers ≠ []
  | _ =>
      ∀ sptr ∈ ircd.clients, ircd.exitOf event = some sptr.id → sptr.IsServer →
        ∀ chptr ∈ ircd.channels, chptr.IsPersistent → chptr.chanusers = [] ∨
          ∃ cuptr ∈ chptr.chanusers,
            ¬ ircd.topology.Below sptr.id cuptr.client

end Ircd

/-! ## Members that leave -/

namespace Channel

theorem leave_spec (chptr : Channel) (leavers : List Nat) :
    (chptr.leave leavers).id = chptr.id ∧
      (chptr.leave leavers).modes = chptr.modes ∧
        (chptr.leave leavers).chanusers.Sublist chptr.chanusers := by
  induction leavers generalizing chptr with
  | nil => exact ⟨rfl, rfl, List.Sublist.refl _⟩
  | cons leaver leavers ih =>
      obtain ⟨sameId, sameModes, sub⟩ := ih (chptr.chanuserDelete leaver)
      exact ⟨sameId, sameModes, sub.trans List.eraseP_sublist⟩

theorem leave_isPersistent {chptr : Channel} {leavers : List Nat} :
    (chptr.leave leavers).IsPersistent ↔ chptr.IsPersistent := by
  rw [IsPersistent, (chptr.leave_spec leavers).2.1, IsPersistent]

/-- Deleting the membership of a client that has none changes nothing. -/
theorem chanuserDelete_of_not_isMember {chptr : Channel} {cptr : Nat}
    (notMember : ¬ chptr.IsMember cptr) : chptr.chanuserDelete cptr = chptr := by
  have same : (chptr.chanusers.eraseP fun cuptr => cuptr.client = cptr) =
      chptr.chanusers := by
    apply List.eraseP_of_forall_not
    intro cuptr member
    rw [decide_eq_true_eq]
    exact fun isCptr => notMember ⟨cuptr, member, isCptr⟩
  rw [chanuserDelete, same]

theorem chanuserFind_isSome_iff {chptr : Channel} {cptr : Nat} :
    chptr.chanuserFind cptr = none ↔ ¬ chptr.IsMember cptr := by
  simp [chanuserFind, IsMember]

end Channel

namespace Ircd

variable {ircd next : Ircd} {event : Event}

/-- No client leaves the table. -/
def KeepsUsers (ircd next : Ircd) : Prop :=
  ∀ id, ircd.HasUser id → ∃ cptr ∈ next.clients, cptr.id = id

theorem keepsUsers_refl (ircd : Ircd) : ircd.KeepsUsers ircd :=
  fun _ ⟨cptr, member, isId, _⟩ => ⟨cptr, member, isId⟩

theorem OnlyChannels.keepsUsers (only : ircd.OnlyChannels next) :
    ircd.KeepsUsers next := by
  obtain ⟨channels, channelId, rfl⟩ := only
  exact ircd.keepsUsers_refl

theorem client?_isSome_iff {id : Nat} :
    (ircd.client? id).isSome ↔ ∃ cptr ∈ ircd.clients, cptr.id = id := by
  simp [client?]

theorem remaining_eq (linked : ircd.Linked) (kept : ircd.KeepsUsers next)
    {chptr : Channel} (isChannel : chptr ∈ ircd.channels) :
    ircd.remaining next event chptr =
      (chptr.leave (ircd.leavers event chptr)).chanusers := by
  rw [remaining, List.filter_eq_self]
  intro cuptr isMember
  rw [client?_isSome_iff]
  exact kept _ (linked.channels.members chptr isChannel cuptr
    ((chptr.leave_spec _).2.2.subset isMember))

theorem eq_of_channelId_eq (linked : ircd.Linked) {chptr other : Channel}
    (isChannel : chptr ∈ ircd.channels) (isOther : other ∈ ircd.channels)
    (same : chptr.id = other.id) : chptr = other :=
  KeyedList.eq_of_key_eq linked.channels.distinct isChannel isOther same

/-- The law of an event that deletes no channel. -/
theorem keepsLifetimes_of_kept (linked : ircd.Linked) (kept : ircd.KeepsUsers next)
    (stays : ∀ chptr ∈ ircd.channels,
      (chptr.leave (ircd.leavers event chptr)).Alive)
    (nextAlive : next.ChannelsAlive)
    (registered : ∀ chptr ∈ ircd.channels, next.IsRegistered chptr.id) :
    ircd.KeepsLifetimes event next := by
  refine ⟨nextAlive, fun chptr isChannel => ?_⟩
  rw [remaining_eq linked kept isChannel]
  exact iff_of_true (registered chptr isChannel)
    ((stays chptr isChannel).imp_right Channel.leave_isPersistent.mp)

theorem keepsLifetimes_of_channels_eq (linked : ircd.Linked)
    (alive : ircd.ChannelsAlive) (kept : ircd.KeepsUsers next)
    (same : next.channels = ircd.channels)
    (stays : ∀ chptr ∈ ircd.channels,
      (chptr.leave (ircd.leavers event chptr)).Alive) :
    ircd.KeepsLifetimes event next := by
  apply keepsLifetimes_of_kept linked kept stays
  · rw [ChannelsAlive, same]
    exact alive
  · intro chptr isChannel
    exact ⟨chptr, same ▸ isChannel, rfl⟩

/-- The law of an event that takes members from one channel and keeps the
channel. -/
theorem keepsLifetimes_of_leave (linked : ircd.Linked) (alive : ircd.ChannelsAlive)
    (id : Nat) (leavers : List Nat)
    (isLeavers : ∀ chptr ∈ ircd.channels,
      ircd.leavers event chptr = if chptr.id = id then leavers else [])
    (stays : ∀ chptr ∈ ircd.channels, chptr.id = id →
      (chptr.leave leavers).Alive) :
    ircd.KeepsLifetimes event (ircd.updateChannel id (·.leave leavers)) := by
  have isAlive : ∀ chptr ∈ ircd.channels,
      (if chptr.id = id then chptr.leave leavers else chptr).Alive := by
    intro chptr isChannel
    split_ifs with isId
    · exact stays chptr isChannel isId
    · exact alive chptr isChannel
  have kept : ircd.KeepsUsers (ircd.updateChannel id (·.leave leavers)) :=
    ircd.keepsUsers_refl
  apply keepsLifetimes_of_kept linked kept
  · intro chptr isChannel
    have left := isAlive chptr isChannel
    rw [isLeavers chptr isChannel]
    split_ifs at left ⊢ <;> exact left
  · intro left member
    obtain ⟨chptr, isChannel, rfl⟩ := List.mem_map.mp member
    exact isAlive chptr isChannel
  · intro chptr isChannel
    refine ⟨_, List.mem_map_of_mem isChannel, ?_⟩
    split_ifs
    · exact (chptr.leave_spec leavers).1
    · rfl

/-- The law of an event that takes the last member from a channel and deletes the
channel. -/
theorem keepsLifetimes_of_delete (linked : ircd.Linked)
    (alive : ircd.ChannelsAlive) (id : Nat) (leavers : List Nat)
    (isLeavers : ∀ chptr ∈ ircd.channels,
      ircd.leavers event chptr = if chptr.id = id then leavers else [])
    (goes : ∀ chptr ∈ ircd.channels, chptr.id = id →
      ¬ (chptr.leave leavers).Alive) :
    ircd.KeepsLifetimes event (ircd.channelDelete id) := by
  constructor
  · exact fun chptr member => alive chptr (List.mem_of_mem_filter member)
  · intro chptr isChannel
    have kept : ircd.KeepsUsers (ircd.channelDelete id) := ircd.keepsUsers_refl
    rw [remaining_eq linked kept isChannel, isLeavers chptr isChannel]
    by_cases isId : chptr.id = id
    · have dead := goes chptr isChannel isId
      rw [Channel.Alive, Channel.leave_isPersistent] at dead
      rw [if_pos isId]
      refine iff_of_false ?_ dead
      rintro ⟨other, member, same⟩
      have notId := (List.mem_filter.mp member).2
      simp [same, isId] at notId
    · rw [if_neg isId]
      refine iff_of_true ⟨chptr, List.mem_filter.mpr ⟨isChannel, ?_⟩, rfl⟩
        (alive chptr isChannel)
      simpa using isId

/-! ## The handlers of `PART` -/

theorem partLeavers_eq {name : CString} {found : Channel}
    (isFound : ircd.channelFindName name = some found) (cptr : Client)
    (chptr : Channel) :
    ircd.partLeavers cptr name chptr =
      if chptr.id = found.id then [cptr.id] else [] := by
  simp [partLeavers, isFound, eq_comm]

/-- A `PART` of a client that is not on the channel changes nothing. -/
private theorem keepsLifetimes_of_not_isMember (linked : ircd.Linked)
    (alive : ircd.ChannelsAlive) {cptr : Client} {name : CString}
    (isLeavers : ∀ chptr, ircd.leavers event chptr =
      ircd.partLeavers cptr name chptr)
    (notMember : ∀ found ∈ ircd.channelFindName name,
      ¬ found.IsMember cptr.id) :
    ircd.KeepsLifetimes event ircd := by
  apply keepsLifetimes_of_channels_eq linked alive ircd.keepsUsers_refl rfl
  intro chptr isChannel
  rw [isLeavers, partLeavers]
  split_ifs with isFound
  · obtain ⟨found, isName, same⟩ := Option.map_eq_some_iff.mp isFound
    obtain rfl := eq_of_channelId_eq linked (List.mem_of_find?_eq_some isName)
      isChannel same
    change (found.chanuserDelete cptr.id).Alive
    rw [Channel.chanuserDelete_of_not_isMember (notMember found isName)]
    exact alive found isChannel
  · exact alive chptr isChannel

theorem keepsLifetimes_mPart (linked : ircd.Linked) (alive : ircd.ChannelsAlive)
    (cptr : Client) (name : CString)
    (isLeavers : ∀ chptr, ircd.leavers event chptr =
      ircd.partLeavers cptr name chptr) :
    ircd.KeepsLifetimes event (ircd.mPart cptr name) := by
  unfold mPart
  split
  · rename_i notFound
    exact keepsLifetimes_of_not_isMember linked alive isLeavers (by simp [notFound])
  · rename_i found isFound
    have isChannel := List.mem_of_find?_eq_some isFound
    have isFoundLeavers : ∀ chptr ∈ ircd.channels, ircd.leavers event chptr =
        if chptr.id = found.id then [cptr.id] else [] := fun chptr _ =>
      (isLeavers chptr).trans (partLeavers_eq isFound cptr chptr)
    split
    · rename_i notMember
      refine keepsLifetimes_of_not_isMember linked alive isLeavers ?_
      rw [isFound]
      rintro _ ⟨⟩
      exact Channel.chanuserFind_isSome_iff.mp notMember
    · dsimp only
      split_ifs with refused empty
      · apply keepsLifetimes_of_channels_eq linked alive ircd.keepsUsers_refl rfl
        intro chptr isChannel'
        rw [isFoundLeavers chptr isChannel']
        split_ifs with same
        · obtain rfl := eq_of_channelId_eq linked isChannel' isChannel same
          exact .inr (Channel.leave_isPersistent.mpr refused.2.2)
        · exact alive chptr isChannel'
      · apply keepsLifetimes_of_delete linked alive found.id [cptr.id] isFoundLeavers
        intro chptr isChannel' same
        obtain rfl := eq_of_channelId_eq linked isChannel' isChannel same
        rintro (nonempty | persistent)
        · exact nonempty empty.1
        · exact empty.2 persistent
      · apply keepsLifetimes_of_leave linked alive found.id [cptr.id] isFoundLeavers
        intro chptr isChannel' same
        obtain rfl := eq_of_channelId_eq linked isChannel' isChannel same
        by_contra dead
        rw [Channel.Alive, not_or, not_not] at dead
        exact empty dead

theorem keepsLifetimes_msPart (linked : ircd.Linked) (alive : ircd.ChannelsAlive)
    (cptr : Client) (name : CString)
    (isLeavers : ∀ chptr, ircd.leavers event chptr =
      ircd.partLeavers cptr name chptr)
    (guard : ∀ chptr ∈ ircd.channels, chptr.IsPersistent →
      chptr.chanusers = [] ∨
        (chptr.leave (ircd.leavers event chptr)).chanusers ≠ []) :
    ircd.KeepsLifetimes event (ircd.msPart cptr name) := by
  unfold msPart
  split
  · rename_i notFound
    exact keepsLifetimes_of_not_isMember linked alive isLeavers (by simp [notFound])
  · rename_i found isFound
    have isChannel := List.mem_of_find?_eq_some isFound
    have isFoundLeavers : ∀ chptr ∈ ircd.channels, ircd.leavers event chptr =
        if chptr.id = found.id then [cptr.id] else [] := fun chptr _ =>
      (isLeavers chptr).trans (partLeavers_eq isFound cptr chptr)
    split
    · rename_i notMember
      refine keepsLifetimes_of_not_isMember linked alive isLeavers ?_
      rw [isFound]
      rintro _ ⟨⟩
      exact Channel.chanuserFind_isSome_iff.mp notMember
    · rename_i cuptr isMember
      dsimp only
      split_ifs with empty
      · apply keepsLifetimes_of_delete linked alive found.id [cptr.id] isFoundLeavers
        intro chptr isChannel' same
        obtain rfl := eq_of_channelId_eq linked isChannel' isChannel same
        rintro (nonempty | persistent)
        · exact nonempty empty
        · rcases guard chptr isChannel (Channel.leave_isPersistent.mp persistent)
            with nobody | somebody
          · simp [Channel.chanuserFind, nobody] at isMember
          · rw [isFoundLeavers chptr isChannel, if_pos rfl] at somebody
            exact somebody empty
      · apply keepsLifetimes_of_leave linked alive found.id [cptr.id] isFoundLeavers
        intro chptr isChannel' same
        obtain rfl := eq_of_channelId_eq linked isChannel' isChannel same
        exact .inl empty

/-! ## The handler of `KICK` -/

theorem updateChannel_self (id : Nat) {change : Channel → Channel}
    (same : ∀ chptr ∈ ircd.channels, chptr.id = id → change chptr = chptr) :
    ircd.updateChannel id change = ircd := by
  have channels : (ircd.channels.map fun chptr =>
      if chptr.id = id then change chptr else chptr) = ircd.channels := by
    conv_rhs => rw [← List.map_id ircd.channels]
    apply List.map_congr_left
    intro chptr member
    by_cases isId : chptr.id = id
    · rw [if_pos isId, same chptr member isId]
      rfl
    · rw [if_neg isId]
      rfl
  rw [updateChannel, channels]

theorem updateChannel_updateChannel (id : Nat) (first second : Channel → Channel)
    (keepsId : ∀ chptr, (first chptr).id = chptr.id) :
    (ircd.updateChannel id first).updateChannel id second =
      ircd.updateChannel id fun chptr => second (first chptr) := by
  simp only [updateChannel, List.map_map]
  congr 1
  apply List.map_congr_left
  intro chptr _
  by_cases isId : chptr.id = id <;> simp [isId, keepsId]

/-- One round of a `KICK` makes the client that its target names leave. -/
theorem chanuserKickOne_eq (linked : ircd.Linked) (lcptr : Lclient)
    (kicker : Finset Char) (id : Nat) (target : CString × Bool) :
    ircd.chanuserKickOne lcptr kicker id target =
      ircd.updateChannel id
        (·.leave (ircd.kickLeaver lcptr kicker target).toList) := by
  have unchanged : ∀ leavers, (∀ chptr ∈ ircd.channels, chptr.id = id →
      chptr.leave leavers = chptr) → ircd =
        ircd.updateChannel id (·.leave leavers) := fun leavers same =>
    (updateChannel_self id same).symm
  unfold chanuserKickOne kickLeaver
  cases isTarget : ircd.kickTarget lcptr target.1 with
  | none =>
      apply unchanged
      intro chptr _ _
      split_ifs <;> rfl
  | some acptr =>
      cases isFound : ircd.channels.find? fun other => other.id = id with
      | none =>
          apply unchanged
          intro chptr isChannel isId
          have notId := List.find?_eq_none.mp isFound chptr isChannel
          simp [isId] at notId
      | some found =>
          dsimp only
          have isChannel := List.mem_of_find?_eq_some isFound
          have foundId : found.id = id := by simpa using List.find?_some isFound
          by_cases allowed : KickAllowed kicker target.2
          · by_cases isMember : found.IsMember acptr.id
            · rw [if_pos ⟨isMember, allowed⟩, if_pos allowed]
              rfl
            · rw [if_neg fun both => isMember both.1, if_pos allowed]
              apply unchanged
              intro chptr isChannel' isId
              obtain rfl := eq_of_channelId_eq linked isChannel' isChannel
                (isId.trans foundId.symm)
              exact Channel.chanuserDelete_of_not_isMember isMember
          · rw [if_neg fun both => allowed both.2, if_neg allowed]
            exact unchanged _ fun _ _ _ => rfl

theorem chanuserKick_eq (linked : ircd.Linked) (lcptr : Lclient)
    (kicker : Finset Char) (id : Nat) (targets : List (CString × Bool)) :
    ircd.chanuserKick lcptr id kicker targets =
      ircd.updateChannel id
        (·.leave (targets.filterMap (ircd.kickLeaver lcptr kicker))) := by
  induction targets generalizing ircd with
  | nil => exact (updateChannel_self id fun _ _ _ => rfl).symm
  | cons target targets ih =>
      have linked' : (ircd.chanuserKickOne lcptr kicker id target).Linked := by
        have channels := linked.channels.chanuserKickOne lcptr kicker id target
        obtain ⟨list, next, same⟩ :=
          OnlyChannels.chanuserKickOne ircd lcptr kicker id target
        rw [same] at channels ⊢
        exact ⟨linked.network, channels, linked.index⟩
      have step : ircd.chanuserKick lcptr id kicker (target :: targets) =
          (ircd.chanuserKickOne lcptr kicker id target).chanuserKick lcptr id
            kicker targets := rfl
      rw [step, ih linked', chanuserKickOne_eq linked,
        updateChannel_updateChannel id _ _ fun chptr => (chptr.leave_spec _).1]
      congr 1
      funext chptr
      rw [List.filterMap_cons]
      cases ircd.kickLeaver lcptr kicker target <;> rfl

theorem keepsLifetimes_mKick (linked : ircd.Linked) (alive : ircd.ChannelsAlive)
    (lcptr : Lclient) (cptr : Client) (name arg : CString) (halfop : Nat → Bool)
    (isLeavers : ∀ chptr, ircd.leavers event chptr =
      ircd.kickLeavers lcptr cptr name arg halfop chptr)
    (guard : ∀ chptr ∈ ircd.channels, chptr.IsPersistent ∨
      (chptr.leave (ircd.leavers event chptr)).chanusers ≠ []) :
    ircd.KeepsLifetimes event (ircd.mKick lcptr cptr name arg halfop) := by
  have unchanged : (∀ chptr, ircd.leavers event chptr = []) →
      ircd.KeepsLifetimes event ircd := by
    intro nobody
    apply keepsLifetimes_of_channels_eq linked alive ircd.keepsUsers_refl rfl
    intro chptr isChannel
    rw [nobody]
    exact alive chptr isChannel
  unfold mKick
  split
  · rename_i notFound
    exact unchanged fun chptr => by simp [isLeavers, kickLeavers, notFound]
  · rename_i found isFound
    split
    · rename_i notMember
      exact unchanged fun chptr => by simp [isLeavers, kickLeavers, isFound, notMember]
    · rename_i cuptr isMember
      rw [chanuserKick_eq linked]
      have isFoundLeavers : ∀ chptr ∈ ircd.channels, ircd.leavers event chptr =
          if chptr.id = found.id then
            ((strTokenizeS ',' maxTargets arg).mapIdx fun i target =>
              (target, halfop i)).filterMap (ircd.kickLeaver lcptr cuptr.flags)
          else [] := by
        intro chptr _
        simp only [isLeavers, kickLeavers, isFound, isMember, eq_comm]
      apply keepsLifetimes_of_leave linked alive found.id _ isFoundLeavers
      intro chptr isChannel same
      have left := guard chptr isChannel
      rw [isFoundLeavers chptr isChannel, if_pos same] at left
      exact left.symm.imp_right Channel.leave_isPersistent.mpr

/-! ## The handlers of `JOIN`, `NJOIN` and of flag changes -/

/-- All channels are alive, and no channel is gone. -/
def Covers (ircd next : Ircd) : Prop :=
  next.ChannelsAlive ∧ ∀ id, ircd.IsRegistered id → next.IsRegistered id

theorem keepsLifetimes_of_covers (linked : ircd.Linked) (alive : ircd.ChannelsAlive)
    (only : ircd.OnlyChannels next) (covers : ircd.Covers next)
    (nobody : ∀ chptr, ircd.leavers event chptr = []) :
    ircd.KeepsLifetimes event next := by
  apply keepsLifetimes_of_kept linked only.keepsUsers
  · intro chptr isChannel
    rw [nobody]
    exact alive chptr isChannel
  · exact covers.1
  · exact fun chptr isChannel => covers.2 _ ⟨chptr, isChannel, rfl⟩

theorem covers_updateChannel (alive : ircd.ChannelsAlive) (id : Nat)
    (change : Channel → Channel)
    (keepsId : ∀ chptr, chptr.id = id → (change chptr).id = chptr.id)
    (stays : ∀ chptr ∈ ircd.channels, chptr.id = id → (change chptr).Alive) :
    ircd.Covers (ircd.updateChannel id change) := by
  constructor
  · intro left member
    obtain ⟨chptr, isChannel, rfl⟩ := List.mem_map.mp member
    split_ifs with isId
    · exact stays chptr isChannel isId
    · exact alive chptr isChannel
  · rintro target ⟨chptr, isChannel, rfl⟩
    refine ⟨_, List.mem_map_of_mem isChannel, ?_⟩
    split_ifs with isId
    · exact keepsId chptr isId
    · rfl

theorem covers_channelNew (alive : ircd.ChannelsAlive) {chptr : Channel}
    (isAlive : chptr.Alive) : ircd.Covers (ircd.channelNew chptr) := by
  constructor
  · intro other member
    rcases List.mem_append.mp member with old | new
    · exact alive other old
    · rw [List.mem_singleton.mp new]
      exact isAlive
  · rintro target ⟨other, isChannel, isId⟩
    exact ⟨other, List.mem_append_left _ isChannel, isId⟩

theorem covers_mJoinLoop (cptr : Nat) (chanv : List (CString × JoinHooks))
    {ircd : Ircd} (alive : ircd.ChannelsAlive) :
    ircd.Covers (ircd.mJoinLoop cptr chanv) := by
  have joins : ∀ {ircd : Ircd} (_ : ircd.ChannelsAlive) (name : CString)
      (hooks : JoinHooks), ircd.Covers (ircd.channelJoin cptr name hooks) := by
    intro ircd alive name hooks
    unfold channelJoin
    split
    · split_ifs
      · exact ⟨alive, fun _ => id⟩
      · exact ⟨alive, fun _ => id⟩
      · exact covers_updateChannel alive _ _ (fun _ _ => rfl)
          fun _ _ _ => .inl (by simp [Channel.chanuserAdd])
    · exact covers_channelNew alive (.inl (by simp [Channel.chanuserAdd]))
  induction chanv generalizing ircd with
  | nil => exact ⟨alive, fun _ => id⟩
  | cons chan chanv ih =>
      rw [mJoinLoop]
      split_ifs
      · exact ⟨alive, fun _ => id⟩
      · exact ⟨alive, fun _ => id⟩
      · exact ⟨alive, fun _ => id⟩
      · obtain ⟨alive', registered⟩ := joins alive chan.1 chan.2
        obtain ⟨alive'', registered'⟩ := ih alive'
        exact ⟨alive'', fun id isRegistered =>
          registered' id (registered id isRegistered)⟩

/-- A token that names a remote user adds a member to an empty channel. -/
theorem chanuserParse_ne_nil {table : ChanmodeTable} {lcptr : Lclient}
    {members : CString} (names : ircd.NamesMember lcptr members)
    {chptr : Channel} (empty : chptr.chanusers = []) (pfx : Bool) :
    ircd.chanuserParse table lcptr chptr members pfx ≠ [] := by
  obtain ⟨token, isToken, acptr, isTarget, isRemote⟩ := names
  have notMember : ¬ (acptr.isLocal ∨ chptr.IsMember acptr.id) := by
    simp [isRemote, Channel.IsMember, empty]
  have target : ircd.njoinTarget lcptr (token.dropWhile fun c =>
      !charsIsnickchar c && !charsIsuidchar c) = some acptr := isTarget
  intro nobody
  have notParsed := List.filterMap_eq_nil_iff.mp nobody token isToken
  simp only [chanuserParseOne, target, if_neg notMember, reduceCtorEq] at notParsed

theorem covers_msNjoin (alive : ircd.ChannelsAlive)
    (table : ChanmodeTable) (lcptr : Lclient) (cptr : Client)
    (name tsArg members : CString)
    (guard : cptr.IsServer → charsValidChan name →
      (∀ chptr ∈ ircd.channelFindName name, chptr.chanusers = [] ∧
        timeT (strToul tsArg) < timeT chptr.ts) →
          ircd.NamesMember lcptr members) :
    ircd.Covers (ircd.msNjoin table lcptr cptr name tsArg members) := by
  unfold msNjoin
  split_ifs with accepted
  · dsimp only
    split
    · rename_i notFound
      exact covers_channelNew alive
        (.inl (chanuserParse_ne_nil
          (guard accepted.1 accepted.2 (by simp [notFound])) rfl true))
    · rename_i found isFound
      have isChannel := List.mem_of_find?_eq_some isFound
      apply covers_updateChannel alive
      · rintro chptr isId
        split_ifs <;> exact isId.symm
      · intro _ _ _
        by_cases empty : found.chanusers = []
        · by_cases older : timeT (strToul tsArg) < timeT found.ts
          · have names := guard accepted.1 accepted.2 (by
              rw [isFound]
              rintro _ ⟨⟩
              exact ⟨empty, older⟩)
            rw [if_pos older]
            refine .inl fun nobody => ?_
            have emptyDropped : (found.dropTs table (strToul tsArg)).chanusers = [] := by
              simp [Channel.dropTs, Channel.chanuserDrop, Channel.chanmodeDrop, empty]
            exact chanuserParse_ne_nil names emptyDropped _
              (List.append_eq_nil_iff.mp nobody).2
          · rw [if_neg older]
            exact .inr ((alive found isChannel).resolve_left (not_not_intro empty))
        · refine .inl fun nobody => empty ?_
          have nobody := (List.append_eq_nil_iff.mp nobody).1
          split_ifs at nobody
          · simpa [Channel.dropTs, Channel.chanuserDrop, Channel.chanmodeDrop]
              using nobody
          · exact nobody
  · exact ⟨alive, fun _ => id⟩

theorem covers_changeFlag (alive : ircd.ChannelsAlive) (id : Nat)
    (what : Channel.What) (letter : Char)
    (guard : what = .del → letter = 'P' → ∀ chptr ∈ ircd.channels,
      chptr.id = id → chptr.chanusers ≠ []) :
    ircd.Covers (ircd.changeFlag id what letter) := by
  apply covers_updateChannel alive
  · intro chptr _
    cases what <;> simp only [Channel.chanmodeBounceSimple] <;>
      split_ifs <;> rfl
  · intro chptr isChannel isId
    have isAlive := alive chptr isChannel
    cases what with
    | add =>
        simp only [Channel.chanmodeBounceSimple]
        split_ifs
        · exact isAlive
        · exact isAlive.imp_right fun persistent =>
            Finset.mem_insert_of_mem persistent
    | del =>
        simp only [Channel.chanmodeBounceSimple]
        split_ifs
        · by_cases isP : letter = 'P'
          · exact .inl (guard rfl isP chptr isChannel isId)
          · exact isAlive.imp_right fun persistent =>
              Finset.mem_erase.mpr ⟨Ne.symm isP, persistent⟩
        · exact isAlive

/-! ## Exits -/

/-- The law of an exit that leaves somebody on every persistent channel, or that
keeps persistent channels. -/
theorem keepsLifetimes_of_pruned (linked : ircd.Linked) (alive : ircd.ChannelsAlive)
    {keep : Bool} {gone lost : Nat → Bool}
    (pruned : Pruned keep gone lost ircd next)
    (nobody : ∀ chptr, ircd.leavers event chptr = [])
    (guard : keep = false → ∀ chptr ∈ ircd.channels, chptr.IsPersistent →
      chptr.chanusers = [] ∨
        ∃ cuptr ∈ chptr.chanusers, gone cuptr.client = false) :
    ircd.KeepsLifetimes event next := by
  have kept : ∀ chptr ∈ ircd.channels,
      ((chptr.prune keep gone).isSome ↔
        (chptr.without gone).chanusers ≠ [] ∨ chptr.IsPersistent) := by
    intro chptr isChannel
    have isAlive := alive chptr isChannel
    rw [Channel.prune]
    by_cases empty : (chptr.without gone).chanusers = []
    · by_cases persistent : chptr.IsPersistent
      · have stays : ¬ (chptr.chanusers ≠ [] ∧
            ¬ (keep = true ∧ chptr.IsPersistent)) := by
          rintro ⟨nonempty, notKept⟩
          have isFalse : keep = false := by
            simpa [persistent] using notKept
          obtain ⟨cuptr, isMember, stays⟩ :=
            (guard isFalse chptr isChannel persistent).resolve_left nonempty
          have left : cuptr ∈ (chptr.without gone).chanusers :=
            List.mem_filter.mpr ⟨isMember, by simp [stays]⟩
          rw [empty] at left
          cases left
        rw [if_neg fun all => stays all.2]
        simp [persistent]
      · have nonempty := isAlive.resolve_right persistent
        rw [if_pos ⟨empty, nonempty, fun both => persistent both.2⟩]
        simp [empty, persistent]
    · rw [if_neg fun all => empty all.1]
      simp [empty]
  have remaining : ∀ chptr ∈ ircd.channels,
      ircd.remaining next event chptr = (chptr.without gone).chanusers := by
    intro chptr isChannel
    rw [Ircd.remaining, nobody, Channel.without]
    apply List.filter_congr
    intro cuptr isMember
    obtain ⟨cptr, member, isId, -⟩ :=
      linked.channels.members chptr isChannel cuptr isMember
    rw [Bool.eq_iff_iff, client?_isSome_iff, Bool.not_eq_true']
    obtain ⟨listsn, history, -, rfl⟩ := pruned
    constructor
    · rintro ⟨other, isOther, same⟩
      rw [← same]
      simpa using (List.mem_filter.mp isOther).2
    · intro stays
      exact ⟨cptr, List.mem_filter.mpr ⟨member, by simp [isId, stays]⟩, isId⟩
  obtain ⟨listsn, history, -, rfl⟩ := pruned
  constructor
  · intro left member
    obtain ⟨chptr, isChannel, isLeft⟩ := List.mem_filterMap.mp member
    have isAlive := (kept chptr isChannel).mp (by simp [isLeft])
    rw [Channel.prune_eq_some isLeft]
    exact isAlive
  · intro chptr isChannel
    rw [remaining chptr isChannel, ← kept chptr isChannel]
    constructor
    · rintro ⟨left, member, isId⟩
      obtain ⟨other, isOther, isLeft⟩ := List.mem_filterMap.mp member
      have sameId : other.id = chptr.id := by
        rw [Channel.prune_eq_some isLeft] at isId
        exact isId
      rw [← eq_of_channelId_eq linked isOther isChannel sameId, isLeft]
      rfl
    · intro isSome
      obtain ⟨left, isLeft⟩ := Option.isSome_iff_exists.mp isSome
      refine ⟨left, List.mem_filterMap.mpr ⟨chptr, isChannel, isLeft⟩, ?_⟩
      rw [Channel.prune_eq_some isLeft]
      rfl

/-! ## Every event -/

theorem Grows.keepsUsers {named : Nat → Place → Prop}
    (grows : Grows named ircd next) : ircd.KeepsUsers next := by
  intro id isUser
  obtain ⟨place, isPlace, isId, -⟩ := hasUser_iff.mp isUser
  obtain ⟨cptr, member, same⟩ := mem_places.mp (grows.growth.places_subset isPlace)
  exact ⟨cptr, member, (congrArg Place.id same).trans isId⟩

/-- An event that changes the tables keeps the law. -/
private theorem keepsLifetimes_of_effect {named : Nat → Place → Prop}
    (linked : ircd.Linked) (alive : ircd.ChannelsAlive)
    (effect : Effect named ircd event next) (notTalk : ¬ event.ChangesChannels)
    (nobody : ∀ chptr, ircd.leavers event chptr = [])
    (guard : ∀ sptr ∈ ircd.clients, ircd.exitOf event = some sptr.id →
      sptr.IsServer → ∀ chptr ∈ ircd.channels, chptr.IsPersistent →
        chptr.chanusers = [] ∨ ∃ cuptr ∈ chptr.chanusers,
          ¬ ircd.topology.Below sptr.id cuptr.client) :
    ircd.KeepsLifetimes event next := by
  cases effect with
  | grows grows =>
      apply keepsLifetimes_of_channels_eq linked alive grows.keepsUsers
        grows.channels
      intro chptr isChannel
      rw [nobody]
      exact alive chptr isChannel
  | @exit sptr isExit member notMe pruned =>
      apply keepsLifetimes_of_pruned linked alive pruned nobody
      intro isServer chptr isChannel persistent
      refine (guard sptr member isExit (Bool.eq_false_iff.mp isServer) chptr
        isChannel persistent).imp_right ?_
      rintro ⟨cuptr, isMember, notBelow⟩
      refine ⟨cuptr, isMember, ?_⟩
      rw [Bool.or_eq_false_iff, decide_eq_false_iff_not]
      constructor
      · intro isServerMember
        obtain ⟨cptr, isClient, isId, isUser⟩ :=
          linked.channels.members chptr isChannel cuptr isMember
        have same := linked.network.eq_of_id_eq (place_mem isClient)
          (place_mem member) (isId.trans isServerMember)
        have isUser' : sptr.kind.isUser = true :=
          (congrArg Place.isUser same).symm.trans isUser
        rw [isServer] at isUser'
        cases isUser'
      · by_contra below
        exact notBelow (Topology.isBelow_iff.mp (Bool.not_eq_false _ |>.mp below))
  | channels changes only members => exact absurd changes notTalk

/-- Every guarded event keeps the law. -/
theorem keepsLifetimes_step (linked : ircd.Linked) (alive : ircd.ChannelsAlive)
    (table : ChanmodeTable) (guard : ircd.LifetimeGuard event)
    (stepped : ircd.step table event = some next) :
    ircd.KeepsLifetimes event next := by
  have effect := linked.effect table (ircd.originsAre_true event) stepped
  cases event with
  | mJoin l names hooks =>
      cases stepped
      rcases ircd.fromUser_cases l _ with ⟨-, same⟩ | ⟨lcptr, cptr, -, same⟩ <;>
        rw [same]
      · exact keepsLifetimes_of_covers linked alive (.refl ircd)
          ⟨alive, fun _ => id⟩ fun _ => rfl
      · exact keepsLifetimes_of_covers linked alive (.mJoinLoop ircd cptr.id _)
          (covers_mJoinLoop cptr.id _ alive) fun _ => rfl
  | msNjoin l pfx name tsArg members =>
      rcases fromServer_cases stepped with
        ⟨-, rfl⟩ | ⟨lcptr, cptr, reached, handled⟩
      · exact keepsLifetimes_of_covers linked alive (.refl _)
          ⟨alive, fun _ => id⟩ fun _ => rfl
      · cases handled
        exact keepsLifetimes_of_covers linked alive
          (.msNjoin ircd table lcptr cptr name tsArg members)
          (covers_msNjoin alive table lcptr cptr name tsArg members
            (guard lcptr cptr reached)) fun _ => rfl
  | mPart l name =>
      cases stepped
      rcases ircd.fromUser_cases l _ with
        ⟨dropped, same⟩ | ⟨lcptr, cptr, reached, same⟩ <;> rw [same]
      · exact keepsLifetimes_of_covers linked alive (.refl ircd)
          ⟨alive, fun _ => id⟩ fun _ => by simp [leavers, dropped]
      · exact keepsLifetimes_mPart linked alive cptr name fun _ => by
          simp [leavers, reached]
  | msPart l pfx name =>
      rcases fromServer_cases stepped with
        ⟨dropped, rfl⟩ | ⟨lcptr, cptr, reached, handled⟩
      · exact keepsLifetimes_of_covers linked alive (.refl _)
          ⟨alive, fun _ => id⟩ fun _ => by simp [leavers, dropped]
      · cases handled
        exact keepsLifetimes_msPart linked alive cptr name
          (fun _ => by simp [leavers, reached]) guard
  | mKick l name targets halfop =>
      cases stepped
      rcases ircd.fromUser_cases l _ with
        ⟨dropped, same⟩ | ⟨lcptr, cptr, reached, same⟩ <;> rw [same]
      · exact keepsLifetimes_of_covers linked alive (.refl ircd)
          ⟨alive, fun _ => id⟩ fun _ => by simp [leavers, dropped]
      · exact keepsLifetimes_mKick linked alive lcptr cptr name targets halfop
          (fun _ => by simp [leavers, reached]) guard
  | msKick l pfx name targets halfop =>
      rcases fromServer_cases stepped with
        ⟨dropped, rfl⟩ | ⟨lcptr, cptr, reached, handled⟩
      · exact keepsLifetimes_of_covers linked alive (.refl _)
          ⟨alive, fun _ => id⟩ fun _ => by simp [leavers, dropped]
      · cases handled
        exact keepsLifetimes_mKick linked alive lcptr cptr name targets halfop
          (fun _ => by simp [leavers, reached]) guard
  | changeFlag id what letter =>
      cases stepped
      exact keepsLifetimes_of_covers linked alive ⟨_, _, rfl⟩
        (covers_changeFlag alive id what letter guard) fun _ => rfl
  | _ =>
      exact keepsLifetimes_of_effect linked alive effect (by simp [Event.ChangesChannels])
        (fun _ => rfl) guard

/-- Two users register, and the first one creates a channel and makes it
persistent when it is told to. -/
def gathering (persistent : Bool) : List Event :=
  [.accept true, .mrUser 1 "al".toList "AAAAAAAA".toList .none,
    .mrNick 1 "alice".toList .none, .accept true,
    .mrUser 2 "bo".toList "AAAAAAAB".toList .none,
    .mrNick 2 "bob".toList .none,
    .mJoin 1 "#c".toList fun _ => ⟨false, {'o'}⟩] ++
  if persistent then [.changeFlag 0 .add 'P'] else []

end Ircd

end Chaosircd
