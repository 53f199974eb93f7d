import Chaosircd.JoinPoll

/-!
# Channel modes: which joins depend on the order of the modules

The modules can be loaded in any order, so whether `channel_join` lets a client
in should not depend on it, and neither should what an exception, an invitation
or an invite exception lifts.  A refused join should leave every block as it was.
Both hold exactly where the facts about the client and the channel do not clash
in the shared reply of the hooks.
-/

namespace Chaosircd

namespace Modes

/-! ## The table of channels -/

theorem channelFindName_channelStore {channels : List Channel} {name : CString}
    {chptr after : Channel} (found : channelFindName channels name = some chptr)
    (sameName : after.name = chptr.name) :
    channelFindName (channelStore name after channels) name = some after := by
  have named : IcmpEq after.name name := by
    rw [sameName]
    simpa using List.find?_some found
  induction channels with
  | nil => cases found
  | cons first channels ih =>
      by_cases first_named : IcmpEq first.name name
      · rw [channelStore, if_pos first_named]
        exact List.find?_cons_of_pos (by simpa using named)
      · have later : channelFindName channels name = some chptr := by
          rwa [channelFindName, List.find?_cons_of_neg (by simpa using first_named)]
            at found
        rw [channelStore, if_neg first_named, channelFindName,
          List.find?_cons_of_neg (by simpa using first_named)]
        exact ih later

theorem channelStore_self {channels : List Channel} {name : CString} {chptr : Channel}
    (found : channelFindName channels name = some chptr) :
    channelStore name chptr channels = channels := by
  induction channels with
  | nil => rfl
  | cons first channels ih =>
      by_cases named : IcmpEq first.name name
      · have same : first = chptr := by
          rw [channelFindName, List.find?_cons_of_pos (by simpa using named)] at found
          exact Option.some.inj found
        rw [channelStore, if_pos named, same]
      · rw [channelFindName, List.find?_cons_of_neg (by simpa using named)] at found
        rw [channelStore, if_neg named, ih found]

/-! ## The outcome and the poll -/

/-- The join ended with a numeric. -/
def JoinOutcome.isDenied : JoinOutcome → Bool
  | .denied _ => true
  | .ignored | .joined => false

/-- `channel_join` refuses the client with these hooks. -/
def Denies (hooks : List JoinHook) (state : JoinState) (name : CString)
    (key : Option CString) : Prop :=
  (channelJoin hooks state name key).2.isDenied = true

instance (hooks : List JoinHook) (state : JoinState) (name : CString)
    (key : Option CString) : Decidable (Denies hooks state name key) :=
  inferInstanceAs (Decidable (_ = true))

section Verdict

variable {state : JoinState} {name : CString} {key : Option CString} {chptr : Channel}
variable {order : List JoinHook}

theorem not_denies_of_none (missing : channelFindName state.channels name = none) :
    ¬ Denies (hookList order) state name key := by
  simp [Denies, channelJoin, missing, JoinOutcome.isDenied]

theorem not_denies_of_member (found : channelFindName state.channels name = some chptr)
    (member : chptr.IsMember state.cptr) : ¬ Denies (hookList order) state name key := by
  simp [Denies, channelJoin, found, member, JoinOutcome.isDenied]

theorem denies_iff (found : channelFindName state.channels name = some chptr)
    (stranger : ¬ chptr.IsMember state.cptr) (loaded : order.Perm JoinHook.all) :
    Denies (hookList order) state name key ↔
      (joinFacts state.cptr chptr key).refused order = true := by
  have reply := hooksCall_reply order key ⟨state.cptr, chptr, 0⟩
  rw [hookList_eq loaded, JoinFacts.refused_eq_true]
  simp only [Denies, channelJoin, found, stranger, if_false, reply]
  by_cases positive : 0 < (poll (joinFacts state.cptr chptr key) order
      (Joining.ballot ⟨state.cptr, chptr, 0⟩)).reply
  · rw [if_pos positive]
    exact ⟨fun _ => positive, fun _ => rfl⟩
  · rw [if_neg positive]
    constructor
    · intro denied
      cases denied
    · intro refused
      exact absurd refused positive

/-- A refused join leaves the blocks as the ballot tells. -/
theorem channelJoin_of_refused (found : channelFindName state.channels name = some chptr)
    (stranger : ¬ chptr.IsMember state.cptr) (loaded : order.Perm JoinHook.all)
    (refused : (joinFacts state.cptr chptr key).refused order = true) :
    (channelJoin (hookList order) state name key).1 =
      { state with
        cptr := (hooksCall order key ⟨state.cptr, chptr, 0⟩).cptr
        channels := channelStore name (hooksCall order key ⟨state.cptr, chptr, 0⟩).chptr
          state.channels } := by
  have reply := hooksCall_reply order key ⟨state.cptr, chptr, 0⟩
  have positive : 0 < (hooksCall order key ⟨state.cptr, chptr, 0⟩).reply := by
    rw [reply]
    exact JoinFacts.refused_eq_true.mp refused
  rw [hookList_eq loaded]
  simp only [channelJoin, found, stranger, if_false, positive, if_true]

end Verdict

/-! ## The order of the modules -/

/-- The channel without its bans. -/
def Channel.withoutBans (chptr : Channel) : Channel :=
  { chptr with modelists := fun letter => if letter = 'b' then [] else chptr.modelists letter }

/-- The channel without its invite-only flag. -/
def Channel.withoutInviteOnly (chptr : Channel) : Channel :=
  { chptr with modes := chptr.modes.erase 'i' }

/-- The state with another block for this channel. -/
def JoinState.store (state : JoinState) (name : CString) (chptr : Channel) : JoinState :=
  { state with channels := channelStore name chptr state.channels }

/-- Every order of the modules gives one verdict; an exception makes the bans not count, an
invitation or an invite exception makes the invite-only flag not count. -/
structure OrderIndependent (state : JoinState) (name : CString) (key : Option CString) :
    Prop where
  sameVerdict : ∀ order order' : List JoinHook, order.Perm JoinHook.all →
    order'.Perm JoinHook.all →
    (Denies (hookList order) state name key ↔ Denies (hookList order') state name key)
  exceptionOverrides : ∀ chptr, channelFindName state.channels name = some chptr →
    chanmodeMatchBan state.cptr (chptr.modelists 'e') = true →
    ∀ order : List JoinHook, order.Perm JoinHook.all →
    (Denies (hookList order) state name key ↔
      Denies (hookList order) (state.store name chptr.withoutBans) name key)
  invitationOverrides : ∀ chptr, channelFindName state.channels name = some chptr →
    (state.cptr.Invited chptr ∨
      chanmodeMatchBan state.cptr (chptr.modelists 'I') = true) →
    ∀ order : List JoinHook, order.Perm JoinHook.all →
    (Denies (hookList order) state name key ↔
      Denies (hookList order) (state.store name chptr.withoutInviteOnly) name key)

theorem joinFacts_withoutBans (cptr : Client) (chptr : Channel) (key : Option CString) :
    joinFacts cptr chptr.withoutBans key =
      { joinFacts cptr chptr key with banned := false } := by
  rfl

theorem joinFacts_withoutInviteOnly (cptr : Client) (chptr : Channel)
    (key : Option CString) :
    joinFacts cptr chptr.withoutInviteOnly key =
      { joinFacts cptr chptr key with inviteOnly := false } := by
  have badKey : BadKey chptr.withoutInviteOnly key ↔ BadKey chptr key := by
    simp [BadKey, Channel.withoutInviteOnly]
  have full : Full chptr.withoutInviteOnly ↔ Full chptr := by
    simp [Full, Channel.withoutInviteOnly]
  simp only [joinFacts, badKey, full]
  simp [Channel.withoutInviteOnly, Client.Invited]

/-- The verdict of a channel that differs from another one in a fact that does not count. -/
theorem denies_store_iff {state : JoinState} {name : CString} {key : Option CString}
    {chptr : Channel} (after : Channel) (found : channelFindName state.channels name = some chptr)
    (sameName : after.name = chptr.name) (sameUsers : after.chanusers = chptr.chanusers)
    (noClash : ¬ chptr.IsMember state.cptr → ¬ (joinFacts state.cptr chptr key).Clash)
    (noClashAfter : ¬ chptr.IsMember state.cptr →
      ¬ (joinFacts state.cptr after key).Clash)
    (sameVerdict : (joinFacts state.cptr after key).intended =
      (joinFacts state.cptr chptr key).intended)
    {order : List JoinHook} (loaded : order.Perm JoinHook.all) :
    Denies (hookList order) state name key ↔
      Denies (hookList order) (state.store name after) name key := by
  have foundAfter : channelFindName (state.store name after).channels name = some after :=
    channelFindName_channelStore found sameName
  have sameMember : after.IsMember state.cptr ↔ chptr.IsMember state.cptr := by
    rw [Channel.IsMember, Channel.IsMember, sameUsers]
  by_cases member : chptr.IsMember state.cptr
  · have before : ¬ Denies (hookList order) state name key :=
      not_denies_of_member found member
    have later : ¬ Denies (hookList order) (state.store name after) name key :=
      not_denies_of_member foundAfter (sameMember.mpr member)
    exact ⟨fun denied => absurd denied before, fun denied => absurd denied later⟩
  · rw [denies_iff found member loaded,
      denies_iff foundAfter (fun inside => member (sameMember.mp inside)) loaded,
      JoinFacts.refused_eq_intended (noClash member) loaded, ← sameVerdict,
      ← JoinFacts.refused_eq_intended (noClashAfter member) loaded]
    rfl

/-- The verdict is independent of the order of the modules exactly where the channel is not
found, the client is a member already, or the facts do not clash. -/
theorem orderIndependent_iff (state : JoinState) (name : CString) (key : Option CString) :
    OrderIndependent state name key ↔
      ∀ chptr, channelFindName state.channels name = some chptr →
        ¬ chptr.IsMember state.cptr → ¬ (joinFacts state.cptr chptr key).Clash := by
  constructor
  · intro independent chptr found stranger clash
    obtain ⟨⟨strict, strictMem, refused⟩, lenient, lenientMem, allowed⟩ :=
      JoinFacts.strict_and_lenient_of_clash clash
    have strictLoaded := JoinFacts.perm_of_mem_strict strictMem
    have lenientLoaded := JoinFacts.perm_of_mem_lenient lenientMem
    have same := independent.sameVerdict strict lenient strictLoaded lenientLoaded
    rw [denies_iff found stranger strictLoaded,
      denies_iff found stranger lenientLoaded] at same
    have contradiction := (same.mp refused).symm.trans allowed
    cases contradiction
  · intro free
    refine ⟨?_, ?_, ?_⟩
    · intro order order' loaded loaded'
      cases found : channelFindName state.channels name with
      | none =>
          exact ⟨fun denied => absurd denied (not_denies_of_none found),
            fun denied => absurd denied (not_denies_of_none found)⟩
      | some chptr =>
          by_cases member : chptr.IsMember state.cptr
          · exact ⟨fun denied => absurd denied (not_denies_of_member found member),
              fun denied => absurd denied (not_denies_of_member found member)⟩
          · have noClash := free chptr found member
            rw [denies_iff found member loaded, denies_iff found member loaded',
              JoinFacts.refused_eq_intended noClash loaded,
              JoinFacts.refused_eq_intended noClash loaded']
    · intro chptr found excepted order loaded
      refine denies_store_iff chptr.withoutBans found rfl rfl (free chptr found) ?_ ?_
        loaded
      · intro stranger
        exact JoinFacts.not_clash_banned (free chptr found stranger)
      · exact @JoinFacts.intended_banned (joinFacts state.cptr chptr key) excepted
    · intro chptr found lifted order loaded
      refine denies_store_iff chptr.withoutInviteOnly found rfl rfl (free chptr found)
        ?_ ?_ loaded
      · intro stranger
        rw [joinFacts_withoutInviteOnly]
        exact JoinFacts.not_clash_inviteOnly (free chptr found stranger)
      · rw [joinFacts_withoutInviteOnly]
        refine JoinFacts.intended_inviteOnly (lifted.imp ?_ fun invexed => invexed)
        exact fun invited => decide_eq_true invited

/-! ### Banned, excepted and without the key -/

/-- `*!*@*` on a list. -/
def everyone : Chanmodeitem where
  mask := "*!*@*".toList
  nmask := "*".toList
  umask := "*".toList
  hmask := "*".toList
  info := "op!op@host".toList
  ts := 1
  ihash := 0

/-- A local user, with an invitation to the first channel or without. -/
def guest (invites : Finset Nat) : Client where
  id := 7
  isUser := true
  isLocal := true
  name := "guest".toList
  user := some ⟨"user".toList, "AAAAAAAA".toList, invites⟩
  host := "host".toList
  hostreal := "host".toList
  hostip := "10.0.0.1".toList
  info := "Guest".toList

/-- A channel with a key and with one mask on each of these lists. -/
def keyedChannel (letters : List Char) (invites : Finset Nat) : Channel where
  id := 0
  name := "#c".toList
  modes := {'k'}
  key := "secret".toList
  limit := 0
  modelists := fun letter => if letter ∈ letters then [everyone] else []
  chanusers := [⟨1, {'o'}⟩]
  invites := invites

/-- Everyone is banned and excepted, and the guest does not know the key. -/
def bannedAndExcepted : JoinState where
  cptr := guest ∅
  channels := [keyedChannel ['b', 'e'] ∅]
  channelId := 1

theorem not_orderIndependent_of_bannedAndExcepted :
    ¬ OrderIndependent bannedAndExcepted "#c".toList none := by
  intro independent
  have same := independent.sameVerdict
    [.except, .ban, .key, .deny, .invite, .invex, .limit]
    [.ban, .key, .except, .deny, .invite, .invex, .limit] (by decide) (by decide)
  have refused : Denies (hookList [.except, .ban, .key, .deny, .invite, .invex, .limit])
      bannedAndExcepted "#c".toList none := by decide
  have allowed : ¬ Denies
      (hookList [.ban, .key, .except, .deny, .invite, .invex, .limit])
      bannedAndExcepted "#c".toList none := by decide
  exact allowed (same.mp refused)

/-! ## What a refused join leaves behind -/

/-- A join that is refused changes nothing, whatever the order of the modules. -/
def DenialAtomic (state : JoinState) (name : CString) (key : Option CString) : Prop :=
  ∀ order : List JoinHook, order.Perm JoinHook.all →
    Denies (hookList order) state name key →
    (channelJoin (hookList order) state name key).1 = state

theorem hooksCall_of_not_invited {cptr : Client} {chptr : Channel}
    {key : Option CString} {order : List JoinHook} (uninvited : ¬ cptr.Invited chptr) :
    (hooksCall order key ⟨cptr, chptr, 0⟩).cptr = cptr ∧
      (hooksCall order key ⟨cptr, chptr, 0⟩).chptr = chptr := by
  rw [hooksCall_eq]
  simp [Joining.settle, uninvited]

theorem hooksCall_of_spent {cptr : Client} {chptr : Channel} {key : Option CString}
    {order : List JoinHook} (invited : cptr.Invited chptr)
    (spent : (poll (joinFacts cptr chptr key) order
      ⟨0, (joinFacts cptr chptr key).invited⟩).pending = false) :
    (hooksCall order key ⟨cptr, chptr, 0⟩).cptr ≠ cptr := by
  have after : (hooksCall order key ⟨cptr, chptr, 0⟩).cptr =
      (userUninvite ⟨cptr, chptr, 0⟩).cptr := by
    rw [hooksCall_eq, Joining.settle, if_pos ⟨invited, spent⟩]
  rw [after]
  intro same
  have gone := Client.not_invited_userUninvite ⟨cptr, chptr, 0⟩
  rw [same] at gone
  exact gone invited

/-- A refused join changes nothing exactly where the channel is not found, the client is a
member already, or no order spends an invitation. -/
theorem denialAtomic_iff (state : JoinState) (name : CString) (key : Option CString) :
    DenialAtomic state name key ↔
      ∀ chptr, channelFindName state.channels name = some chptr →
        ¬ chptr.IsMember state.cptr →
        ¬ (joinFacts state.cptr chptr key).SpendsInvitation := by
  constructor
  · intro atomic chptr found stranger spends
    obtain ⟨order, member, refused, spent⟩ := JoinFacts.strict_of_spendsInvitation spends
    have loaded := JoinFacts.perm_of_mem_strict member
    have denied := (denies_iff found stranger loaded).mpr refused
    have same := atomic order loaded denied
    rw [channelJoin_of_refused found stranger loaded refused] at same
    have invited : state.cptr.Invited chptr := of_decide_eq_true spends.1
    exact hooksCall_of_spent invited spent (congrArg JoinState.cptr same)
  · intro saved order loaded denied
    cases found : channelFindName state.channels name with
    | none => exact absurd denied (not_denies_of_none found)
    | some chptr =>
        by_cases member : chptr.IsMember state.cptr
        · exact absurd denied (not_denies_of_member found member)
        · have refused := (denies_iff found member loaded).mp denied
          have uninvited : ¬ state.cptr.Invited chptr := by
            intro invited
            have fact : (joinFacts state.cptr chptr key).invited = true :=
              decide_eq_true invited
            have allowed := JoinFacts.not_refused_of_invited loaded fact
              (saved chptr found member)
            exact absurd (refused.symm.trans allowed) (by decide)
          obtain ⟨sameClient, sameChannel⟩ :=
            @hooksCall_of_not_invited _ _ key order uninvited
          rw [channelJoin_of_refused found member loaded refused, sameClient, sameChannel,
            channelStore_self found]

/-- The guest is invited, but banned. -/
def invitedAndBanned : JoinState where
  cptr := guest {0}
  channels := [keyedChannel ['b'] {7}]
  channelId := 1

theorem not_denialAtomic_of_invitedAndBanned :
    ¬ DenialAtomic invitedAndBanned "#c".toList (some "secret".toList) := by
  intro atomic
  have same := atomic [.invite, .ban, .deny, .except, .invex, .key, .limit] (by decide)
    (by decide)
  have kept : invitedAndBanned.cptr.Invited (keyedChannel ['b'] {7}) := by decide
  rw [← same] at kept
  exact absurd kept (by decide)

end Modes

end Chaosircd
