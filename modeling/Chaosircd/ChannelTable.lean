import Chaosircd.Chars
import Chaosircd.ClientTable
import Chaosircd.Tokenize

/-!
# Channels and memberships

The functions that create and delete channels and that add and remove members,
and the handlers of `JOIN`, `PART` and `KICK`.  Each way of losing a member has
its own test for whether the channel goes with it, and they are not the same
test.
-/

namespace Chaosircd

namespace Channel

/-- `channel_is_persistent`. -/
def IsPersistent (chptr : Channel) : Prop :=
  'P' ∈ chptr.modes

instance (chptr : Channel) : Decidable chptr.IsPersistent :=
  inferInstanceAs (Decidable (_ ∈ _))

/-- `chanuser_find`. -/
def chanuserFind (chptr : Channel) (cptr : Nat) : Option Chanuser :=
  chptr.chanusers.find? fun cuptr => cuptr.client = cptr

/-- `channel_is_member`. -/
def IsMember (chptr : Channel) (cptr : Nat) : Prop :=
  ∃ cuptr ∈ chptr.chanusers, cuptr.client = cptr

instance (chptr : Channel) (cptr : Nat) : Decidable (chptr.IsMember cptr) :=
  inferInstanceAs (Decidable (∃ cuptr ∈ _, _))

/-- `chanuser_add` with the privileges that the join hooks give. -/
def chanuserAdd (chptr : Channel) (cptr : Nat) (flags : Finset Char) :
    Channel :=
  { chptr with chanusers := chptr.chanusers ++ [⟨cptr, flags⟩] }

/-- `chanuser_delete` of the membership that `chanuser_find` returns. -/
def chanuserDelete (chptr : Channel) (cptr : Nat) : Channel :=
  { chptr with
    chanusers := chptr.chanusers.eraseP fun cuptr => cuptr.client = cptr }

/-- `chanuser_delete` of every membership of a client. -/
def chanuserDeleteAll (chptr : Channel) (cptr : Nat) : Channel :=
  { chptr with
    chanusers := chptr.chanusers.filter fun cuptr => cuptr.client ≠ cptr }

/-- What a mode change does, as `CHANMODE_ADD` or `CHANMODE_DEL`. -/
inductive What where
  | add
  | del
  deriving DecidableEq

/-- `chanmode_bounce_simple`; a change without effect is bounced. -/
def chanmodeBounceSimple (chptr : Channel) (what : What) (letter : Char) :
    Option Channel :=
  match what with
  | .del =>
      if letter ∈ chptr.modes then
        some { chptr with modes := chptr.modes.erase letter }
      else none
  | .add =>
      if letter ∈ chptr.modes then none
      else some { chptr with modes := insert letter chptr.modes }

end Channel

/-- `chanuser_is_owner` of the `PART` handler.  The macro compares the
privileges with a set that is itself cut down to them. -/
def Chanuser.IsOwner (cuptr : Chanuser) : Prop :=
  cuptr.flags ∩ (cuptr.flags ∩ {'o'} ∪ cuptr.flags ∩ {'h'} ∪ cuptr.flags ∩ {'v'}) =
    cuptr.flags ∩ {'o'} ∪ cuptr.flags ∩ {'h'} ∪ cuptr.flags ∩ {'v'}

instance (cuptr : Chanuser) : Decidable cuptr.IsOwner :=
  inferInstanceAs (Decidable (_ = _))

/-- Everyone is an owner. -/
theorem Chanuser.isOwner (cuptr : Chanuser) : cuptr.IsOwner := by
  rw [IsOwner, Finset.inter_eq_right]
  intro letter member
  simp only [Finset.mem_union, Finset.mem_inter] at member
  tauto

/-- `channel_is_valid`. -/
def channelIsValid (name : CString) : Bool :=
  match name with
  | first :: _ => first ∈ ['#', '+', '&', '!']
  | [] => false

/-- What the `channel_join` hooks answer: that the user may not join, and the
privileges of the new member. -/
structure JoinHooks where
  refused : Bool
  flags : Finset Char
  deriving DecidableEq

namespace Ircd

/-- `channel_find_name`. -/
def channelFindName (ircd : Ircd) (name : CString) : Option Channel :=
  ircd.channels.find? fun chptr => IcmpEq chptr.name name

/-- The channel block that `channel_new` links. -/
def newChannel (ircd : Ircd) (name : CString) : Channel where
  id := ircd.channelId
  name := strlcpy name (channelLen + 1)
  ts := ircd.systime
  chanusers := []
  modes := ∅
  key := []
  limit := 0
  modelists := fun _ => []
  topic := []
  topicInfo := []
  topicTs := 0

/-- `channel_new`, for a block that the caller completes. -/
def channelNew (ircd : Ircd) (chptr : Channel) : Ircd :=
  { ircd with
    channels := ircd.channels ++ [chptr], channelId := ircd.channelId + 1 }

/-- `channel_delete`. -/
def channelDelete (ircd : Ircd) (id : Nat) : Ircd :=
  { ircd with channels := ircd.channels.filter fun chptr => chptr.id ≠ id }

/-- Removes a client from all of its channels; an emptied channel is deleted
unless it is to be kept. -/
def leaveChannels (ircd : Ircd) (cptr : Nat) (keep : Channel → Prop)
    [DecidablePred keep] : Ircd :=
  { ircd with
    channels := ircd.channels.filterMap fun chptr =>
      if chptr.IsMember cptr then
        let left := chptr.chanuserDeleteAll cptr
        if left.chanusers = [] ∧ ¬ keep left then none else some left
      else some chptr }

/-- `channel_join`. -/
def channelJoin (ircd : Ircd) (cptr : Nat) (name : CString)
    (hooks : JoinHooks) : Ircd :=
  match ircd.channelFindName name with
  | some chptr =>
      if chptr.IsMember cptr then ircd
      else if hooks.refused then ircd
      else
        ircd.updateChannel chptr.id fun chptr =>
          chptr.chanuserAdd cptr hooks.flags
  | none => ircd.channelNew ((ircd.newChannel name).chanuserAdd cptr hooks.flags)

/-- The size of `cptr->user->channels`. -/
def userChannelCount (ircd : Ircd) (cptr : Nat) : Nat :=
  (ircd.channels.map fun chptr =>
    chptr.chanusers.countP fun cuptr => cuptr.client = cptr).sum

/-- The loop of `m_join`. -/
def mJoinLoop (ircd : Ircd) (cptr : Nat) : List (CString × JoinHooks) → Ircd
  | [] => ircd
  | (name, hooks) :: chanv =>
      if !charsValidChan name ∨ channelLen < name.length then ircd
      else if !channelIsValid name then ircd
      else if ircd.userChannelCount cptr = maxChannels then ircd
      else (ircd.channelJoin cptr name hooks).mJoinLoop cptr chanv

/-- `m_join`; `hooks i` answers for the `i`-th channel of the line. -/
def mJoin (ircd : Ircd) (cptr : Nat) (arg : CString) (hooks : Nat → JoinHooks) :
    Ircd :=
  ircd.mJoinLoop cptr <|
    (strTokenizeS ',' maxChannels arg).mapIdx fun i name => (name, hooks i)

/-- `m_part`. -/
def mPart (ircd : Ircd) (cptr : Client) (name : CString) : Ircd :=
  match ircd.channelFindName name with
  | none => ircd
  | some chptr =>
      match chptr.chanuserFind cptr.id with
      | none => ircd
      | some cuptr =>
          if cuptr.IsOwner ∧ cptr.isLocal ∧ chptr.IsPersistent then ircd
          else
            let left := chptr.chanuserDelete cptr.id
            if left.chanusers = [] ∧ ¬ left.IsPersistent then
              ircd.channelDelete chptr.id
            else
              ircd.updateChannel chptr.id fun chptr =>
                chptr.chanuserDelete cptr.id

/-- `ms_part`. -/
def msPart (ircd : Ircd) (cptr : Client) (name : CString) : Ircd :=
  match ircd.channelFindName name with
  | none => ircd
  | some chptr =>
      match chptr.chanuserFind cptr.id with
      | none => ircd
      | some _ =>
          let left := chptr.chanuserDelete cptr.id
          if left.chanusers = [] then ircd.channelDelete chptr.id
          else
            ircd.updateChannel chptr.id fun chptr =>
              chptr.chanuserDelete cptr.id

/-- How `chanuser_kick` finds the client a target names. -/
def kickTarget (ircd : Ircd) (lcptr : Lclient) (target : CString) :
    Option Client :=
  if lcptr.capUid then ircd.clientFindUid target
  else ircd.clientFindNickh target

/-- The sum of the `chanuser_kick` hooks is not zero.  `hooks_call` passes four
arguments on, so what the half-operator hook reads as the flags of the target is
undefined; its answer for a half-operator is a parameter. -/
def KickAllowed (kicker : Finset Char) (halfopAnswer : Bool) : Prop :=
  'o' ∈ kicker ∨ ('h' ∈ kicker ∧ halfopAnswer)

instance (kicker : Finset Char) (halfopAnswer : Bool) :
    Decidable (KickAllowed kicker halfopAnswer) :=
  inferInstanceAs (Decidable (_ ∨ _))

/-- One round of the loop of `chanuser_kick`. -/
def chanuserKickOne (ircd : Ircd) (lcptr : Lclient) (kicker : Finset Char)
    (chptr : Nat) (target : CString × Bool) : Ircd :=
  match ircd.kickTarget lcptr target.1,
      ircd.channels.find? (fun other => other.id = chptr) with
  | some acptr, some channel =>
      if channel.IsMember acptr.id ∧ KickAllowed kicker target.2 then
        ircd.updateChannel chptr fun channel => channel.chanuserDelete acptr.id
      else ircd
  | _, _ => ircd

/-- `chanuser_kick`. -/
def chanuserKick (ircd : Ircd) (lcptr : Lclient) (chptr : Nat)
    (kicker : Finset Char) (targets : List (CString × Bool)) : Ircd :=
  targets.foldl
    (fun ircd target => ircd.chanuserKickOne lcptr kicker chptr target) ircd

/-- `m_kick`; `halfop i` is the answer of the half-operator hook for the `i`-th
target. -/
def mKick (ircd : Ircd) (lcptr : Lclient) (cptr : Client) (name arg : CString)
    (halfop : Nat → Bool) : Ircd :=
  match ircd.channelFindName name with
  | none => ircd
  | some chptr =>
      match chptr.chanuserFind cptr.id with
      | none => ircd
      | some cuptr =>
          ircd.chanuserKick lcptr chptr.id cuptr.flags <|
            (strTokenizeS ',' maxTargets arg).mapIdx fun i target =>
              (target, halfop i)

/-- One change of a flag mode that `MODE` applies to a channel. -/
def changeFlag (ircd : Ircd) (id : Nat) (what : Channel.What) (letter : Char) :
    Ircd :=
  ircd.updateChannel id fun chptr =>
    (chptr.chanmodeBounceSimple what letter).getD chptr

/-! ## What the channel operations leave alone -/

/-- Two states differ in their channels only. -/
def OnlyChannels (ircd ircd' : Ircd) : Prop :=
  ∃ channels channelId,
    ircd' = { ircd with channels := channels, channelId := channelId }

namespace OnlyChannels

theorem refl (ircd : Ircd) : ircd.OnlyChannels ircd :=
  ⟨_, _, rfl⟩

theorem trans {first second third : Ircd} (left : first.OnlyChannels second)
    (right : second.OnlyChannels third) : first.OnlyChannels third := by
  obtain ⟨channels, channelId, rfl⟩ := left
  obtain ⟨channels', channelId', rfl⟩ := right
  exact ⟨channels', channelId', rfl⟩

theorem channelJoin (ircd : Ircd) (cptr : Nat) (name : CString)
    (hooks : JoinHooks) :
    ircd.OnlyChannels (ircd.channelJoin cptr name hooks) := by
  unfold Ircd.channelJoin
  split
  · split_ifs <;> exact ⟨_, _, rfl⟩
  · exact ⟨_, _, rfl⟩

theorem mJoinLoop (ircd : Ircd) (cptr : Nat)
    (chanv : List (CString × JoinHooks)) :
    ircd.OnlyChannels (ircd.mJoinLoop cptr chanv) := by
  induction chanv generalizing ircd with
  | nil => exact refl ircd
  | cons chan chanv ih =>
      rw [Ircd.mJoinLoop]
      split_ifs
      · exact refl ircd
      · exact refl ircd
      · exact refl ircd
      · exact (channelJoin ircd cptr _ _).trans (ih _)

theorem mPart (ircd : Ircd) (cptr : Client) (name : CString) :
    ircd.OnlyChannels (ircd.mPart cptr name) := by
  unfold Ircd.mPart
  split
  · exact refl ircd
  · split
    · exact refl ircd
    · split_ifs
      · exact refl ircd
      · dsimp only
        split_ifs <;> exact ⟨_, _, rfl⟩

theorem msPart (ircd : Ircd) (cptr : Client) (name : CString) :
    ircd.OnlyChannels (ircd.msPart cptr name) := by
  unfold Ircd.msPart
  split
  · exact refl ircd
  · split
    · exact refl ircd
    · dsimp only
      split_ifs <;> exact ⟨_, _, rfl⟩

theorem chanuserKickOne (ircd : Ircd) (lcptr : Lclient) (kicker : Finset Char)
    (chptr : Nat) (target : CString × Bool) :
    ircd.OnlyChannels (ircd.chanuserKickOne lcptr kicker chptr target) := by
  unfold Ircd.chanuserKickOne
  split
  · split_ifs <;> exact ⟨_, _, rfl⟩
  · exact refl ircd

theorem mKick (ircd : Ircd) (lcptr : Lclient) (cptr : Client)
    (name arg : CString) (halfop : Nat → Bool) :
    ircd.OnlyChannels (ircd.mKick lcptr cptr name arg halfop) := by
  unfold Ircd.mKick
  split
  · exact refl ircd
  · split
    · exact refl ircd
    · exact List.foldlRecOn _ _ (refl ircd) fun _ kept target _ =>
        kept.trans (chanuserKickOne _ _ _ _ target)

end OnlyChannels

end Ircd

end Chaosircd
