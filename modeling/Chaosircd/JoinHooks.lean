import Chaosircd.MaskList
import Mathlib.Data.Finset.Insert

/-!
# Channel modes: the join hooks

Seven mode modules register a first-stage hook on `channel_join`.  All of them
write one shared reply: a numeric above zero refuses the join, the negated letter
of a mode says that the client was excepted or invited.  `hooks_call` walks the
hooks in the order in which the modules were loaded, and `channel_join` acts on
the reply that the last one left.

A hook looks at the client, the channel and the key only through eight facts.
The votes on those facts are the abstract game of the hooks; the hooks are shown
to play it.
-/

namespace Chaosircd

namespace Modes

/-! ## The hooks -/

/-- The modules with a first-stage hook on `channel_join`. -/
inductive JoinHook where
  | ban
  | deny
  | except
  | invite
  | invex
  | key
  | limit
  deriving DecidableEq, Repr

/-- Every module with a first-stage hook. -/
def JoinHook.all : List JoinHook :=
  [.ban, .deny, .except, .invite, .invex, .key, .limit]

theorem JoinHook.mem_all (hook : JoinHook) : hook ∈ JoinHook.all := by
  cases hook <;> decide

/-- `hook_register`: a hook that is there is refused, a new one goes to the tail. -/
def hookRegister (hooks : List JoinHook) (hook : JoinHook) : List JoinHook :=
  if hook ∈ hooks then hooks else hooks ++ [hook]

/-- The hook list after the modules were loaded in this order. -/
def hookList (order : List JoinHook) : List JoinHook :=
  order.foldl hookRegister []

theorem foldl_hookRegister {order hooks : List JoinHook}
    (distinct : (hooks ++ order).Nodup) :
    order.foldl hookRegister hooks = hooks ++ order := by
  induction order generalizing hooks with
  | nil => simp
  | cons hook order ih =>
      have fresh : hook ∉ hooks := by
        intro member
        exact (List.nodup_append.mp distinct).2.2 _ member _ (by simp) rfl
      have regroup : hooks ++ hook :: order = (hooks ++ [hook]) ++ order := by simp
      rw [List.foldl_cons, hookRegister, if_neg fresh, regroup]
      exact ih (by rwa [← regroup])

theorem hookList_eq {order : List JoinHook} (loaded : order.Perm JoinHook.all) :
    hookList order = order := by
  have distinct : order.Nodup := loaded.nodup_iff.mpr (by decide)
  rw [hookList, foldl_hookRegister (by simpa using distinct)]
  rfl

/-- What the hooks are called with: the two blocks and the shared reply. -/
structure Joining where
  cptr : Client
  chptr : Channel
  reply : Int

/-- `ERR_DENIEDFROMCHAN`. -/
def errDeniedfromchan : Int := 470

/-- `ERR_CHANNELISFULL`. -/
def errChannelisfull : Int := 471

/-- `ERR_INVITEONLYCHAN`. -/
def errInviteonlychan : Int := 473

/-- `ERR_BANNEDFROMCHAN`. -/
def errBannedfromchan : Int := 474

/-- `ERR_BADCHANNELKEY`. -/
def errBadchannelkey : Int := 475

/-- `-CM_EXCEPT_CHAR`, `-CM_INVITE_CHAR` and `-CM_INVEX_CHAR`. -/
def spared (letter : Char) : Int :=
  -(letter.toNat : Int)

/-- The client holds an invitation to the channel. -/
def Client.Invited (cptr : Client) (chptr : Channel) : Prop :=
  ∃ uptr ∈ cptr.user, chptr.id ∈ uptr.invites

instance (cptr : Client) (chptr : Channel) : Decidable (cptr.Invited chptr) :=
  inferInstanceAs (Decidable (∃ uptr ∈ cptr.user, _))

/-- `user_uninvite` on the invitation of the client to the channel. -/
def userUninvite (s : Joining) : Joining :=
  { s with
    cptr := { s.cptr with
      user := s.cptr.user.map fun uptr =>
        { uptr with invites := uptr.invites.erase s.chptr.id } }
    chptr := { s.chptr with invites := s.chptr.invites.erase s.cptr.id } }

/-- The guard that `cm_ban_hook` and `cm_deny_hook` share. -/
def refuseUnexcepted (matched : Bool) (numeric : Int) (s : Joining) : Joining :=
  if 0 < s.reply ∨ s.reply = spared 'e' then s
  else if matched then { s with reply := numeric }
  else s

/-- `cm_ban_hook`. -/
def cmBanHook (s : Joining) : Joining :=
  refuseUnexcepted (chanmodeMatchBan s.cptr (s.chptr.modelists 'b')) errBannedfromchan s

/-- `cm_deny_hook`. -/
def cmDenyHook (s : Joining) : Joining :=
  refuseUnexcepted (chanmodeMatchDeny s.cptr (s.chptr.modelists 'd')) errDeniedfromchan s

/-- `cm_except_hook`. -/
def cmExceptHook (s : Joining) : Joining :=
  if 0 < s.reply ∧ s.reply ≠ errBannedfromchan ∧ s.reply ≠ errDeniedfromchan then s
  else if chanmodeMatchBan s.cptr (s.chptr.modelists 'e') then
    { s with reply := spared 'e' }
  else s

/-- `cm_invite_hook`: the invitation is used up where it is found. -/
def cmInviteHook (s : Joining) : Joining :=
  if (0 < s.reply ∨ s.reply = spared 'I') ∧
      s.reply ≠ errChannelisfull ∧ s.reply ≠ errBadchannelkey then s
  else if s.cptr.Invited s.chptr then
    { userUninvite s with reply := spared 'i' }
  else if 'i' ∈ s.chptr.modes then { s with reply := errInviteonlychan }
  else s

/-- `cm_invex_hook`: a matching mask uses up the invitation as well. -/
def cmInvexHook (s : Joining) : Joining :=
  if (0 < s.reply ∧ s.reply ≠ errInviteonlychan ∧ s.reply ≠ errChannelisfull ∧
      s.reply ≠ errBadchannelkey) ∨ s.reply = spared 'i' then s
  else if chanmodeMatchBan s.cptr (s.chptr.modelists 'I') then
    if s.cptr.Invited s.chptr then { userUninvite s with reply := spared 'I' }
    else { s with reply := spared 'I' }
  else s

/-- The guard that `cm_key_hook` and `cm_limit_hook` share. -/
def refuseUninvited (refused : Bool) (numeric : Int) (s : Joining) : Joining :=
  if 0 < s.reply ∨ s.reply = spared 'I' ∨ s.reply = spared 'i' then s
  else if refused then { s with reply := numeric }
  else s

/-- `+k` is set and the key is missing or another one. -/
def BadKey (chptr : Channel) (key : Option CString) : Prop :=
  'k' ∈ chptr.modes ∧ key ≠ some chptr.key

/-- `+l` is set and one more member is above the limit. -/
def Full (chptr : Channel) : Prop :=
  'l' ∈ chptr.modes ∧ chptr.limit < chptr.chanusers.length + 1

instance (chptr : Channel) (key : Option CString) : Decidable (BadKey chptr key) :=
  inferInstanceAs (Decidable (_ ∧ _))

instance (chptr : Channel) : Decidable (Full chptr) :=
  inferInstanceAs (Decidable (_ ∧ _))

/-- `cm_key_hook`. -/
def cmKeyHook (key : Option CString) (s : Joining) : Joining :=
  refuseUninvited (decide (BadKey s.chptr key)) errBadchannelkey s

/-- `cm_limit_hook`. -/
def cmLimitHook (s : Joining) : Joining :=
  refuseUninvited (decide (Full s.chptr)) errChannelisfull s

/-- The callback a module registered. -/
def JoinHook.callback (key : Option CString) : JoinHook → Joining → Joining
  | .ban => cmBanHook
  | .deny => cmDenyHook
  | .except => cmExceptHook
  | .invite => cmInviteHook
  | .invex => cmInvexHook
  | .key => cmKeyHook key
  | .limit => cmLimitHook

/-- `hooks_call(channel_join, HOOK_1ST, cptr, chptr, key, &reply)`. -/
def hooksCall (hooks : List JoinHook) (key : Option CString) (s : Joining) : Joining :=
  hooks.foldl (fun s hook => hook.callback key s) s

/-! ## `channel_join` -/

/-- What `channel_join` reads and writes: the client that joins and the channel table. -/
structure JoinState where
  cptr : Client
  channels : List Channel
  channelId : Nat

/-- How `channel_join` ends. -/
inductive JoinOutcome where
  | ignored
  | denied (numeric : Int)
  | joined
  deriving DecidableEq, Repr

/-- `channel_is_member`. -/
def Channel.IsMember (chptr : Channel) (cptr : Client) : Prop :=
  ∃ cuptr ∈ chptr.chanusers, cuptr.client = cptr.id

instance (chptr : Channel) (cptr : Client) : Decidable (chptr.IsMember cptr) :=
  inferInstanceAs (Decidable (∃ cuptr ∈ chptr.chanusers, _))

/-- `channel_find_name`. -/
def channelFindName (channels : List Channel) (name : CString) : Option Channel :=
  channels.find? fun chptr => IcmpEq chptr.name name

/-- The block that `channel_find_name` returned has been written to. -/
def channelStore (name : CString) (after : Channel) : List Channel → List Channel
  | [] => []
  | chptr :: channels =>
    if IcmpEq chptr.name name then after :: channels
    else chptr :: channelStore name after channels

/-- `cm_aop_hook`, `cm_ahalfop_hook` and `cm_avoice_hook`: a member that matches the list
gets the privilege. -/
def autoFlags (chptr : Channel) (cptr : Client) (list flag : Char) : Finset Char :=
  if chanmodeMatchAmode cptr (chptr.modelists list) then {flag} else ∅

/-- `chanuser_add` and the hooks that give the new member its first privileges. -/
def chanuserAdd (chptr : Channel) (cptr : Client) (flags : Finset Char) : Channel :=
  { chptr with chanusers := chptr.chanusers ++ [⟨cptr.id, flags⟩] }

/-- `channel_new`. -/
def channelNew (id : Nat) (name : CString) : Channel where
  id := id
  name := strlcpy name 129
  modes := ∅
  key := []
  limit := 0
  modelists := fun _ => []
  chanusers := []
  invites := ∅

/-- `channel_join`. -/
def channelJoin (hooks : List JoinHook) (state : JoinState) (name : CString)
    (key : Option CString) : JoinState × JoinOutcome :=
  match channelFindName state.channels name with
  | some chptr =>
    if chptr.IsMember state.cptr then (state, .ignored)
    else
      let s := hooksCall hooks key ⟨state.cptr, chptr, 0⟩
      if 0 < s.reply then
        ({ state with cptr := s.cptr, channels := channelStore name s.chptr state.channels },
          .denied s.reply)
      else
        -- third stage: the lists `O`, `H` and `V` of an existing channel
        let flags := autoFlags s.chptr s.cptr 'O' 'o' ∪ autoFlags s.chptr s.cptr 'H' 'h' ∪
          autoFlags s.chptr s.cptr 'V' 'v'
        ({ state with
            cptr := s.cptr
            channels := channelStore name (chanuserAdd s.chptr s.cptr flags) state.channels },
          .joined)
  | none =>
    -- second stage: the creator gets every privilege
    let chptr := chanuserAdd (channelNew state.channelId name) state.cptr {'o', 'h', 'v'}
    ({ state with
        channels := state.channels ++ [chptr]
        channelId := state.channelId + 1 }, .joined)

/-! ## The votes of the hooks -/

/-- All that the hooks find out about a client, a channel and a key. -/
structure JoinFacts where
  banned : Bool
  denied : Bool
  excepted : Bool
  invited : Bool
  invexed : Bool
  inviteOnly : Bool
  badKey : Bool
  full : Bool
  deriving DecidableEq

/-- The facts of a client, a channel and a key. -/
def joinFacts (cptr : Client) (chptr : Channel) (key : Option CString) : JoinFacts where
  banned := chanmodeMatchBan cptr (chptr.modelists 'b')
  denied := chanmodeMatchDeny cptr (chptr.modelists 'd')
  excepted := chanmodeMatchBan cptr (chptr.modelists 'e')
  invited := decide (cptr.Invited chptr)
  invexed := chanmodeMatchBan cptr (chptr.modelists 'I')
  inviteOnly := decide ('i' ∈ chptr.modes)
  badKey := decide (BadKey chptr key)
  full := decide (Full chptr)

/-- The reply so far, and whether the invitation is still there. -/
structure Ballot where
  reply : Int
  pending : Bool
  deriving DecidableEq

/-- What a hook does to the ballot. -/
def JoinHook.vote (facts : JoinFacts) (ballot : Ballot) : JoinHook → Ballot
  | .ban =>
    if 0 < ballot.reply ∨ ballot.reply = spared 'e' then ballot
    else if facts.banned then { ballot with reply := errBannedfromchan } else ballot
  | .deny =>
    if 0 < ballot.reply ∨ ballot.reply = spared 'e' then ballot
    else if facts.denied then { ballot with reply := errDeniedfromchan } else ballot
  | .except =>
    if 0 < ballot.reply ∧ ballot.reply ≠ errBannedfromchan ∧
        ballot.reply ≠ errDeniedfromchan then ballot
    else if facts.excepted then { ballot with reply := spared 'e' } else ballot
  | .invite =>
    if (0 < ballot.reply ∨ ballot.reply = spared 'I') ∧
        ballot.reply ≠ errChannelisfull ∧ ballot.reply ≠ errBadchannelkey then ballot
    else if ballot.pending then ⟨spared 'i', false⟩
    else if facts.inviteOnly then { ballot with reply := errInviteonlychan } else ballot
  | .invex =>
    if (0 < ballot.reply ∧ ballot.reply ≠ errInviteonlychan ∧
        ballot.reply ≠ errChannelisfull ∧ ballot.reply ≠ errBadchannelkey) ∨
        ballot.reply = spared 'i' then ballot
    else if facts.invexed then ⟨spared 'I', false⟩ else ballot
  | .key =>
    if 0 < ballot.reply ∨ ballot.reply = spared 'I' ∨ ballot.reply = spared 'i' then ballot
    else if facts.badKey then { ballot with reply := errBadchannelkey } else ballot
  | .limit =>
    if 0 < ballot.reply ∨ ballot.reply = spared 'I' ∨ ballot.reply = spared 'i' then ballot
    else if facts.full then { ballot with reply := errChannelisfull } else ballot

/-- The ballot after all hooks have voted. -/
def poll (facts : JoinFacts) (hooks : List JoinHook) (ballot : Ballot) : Ballot :=
  hooks.foldl (fun ballot hook => hook.vote facts ballot) ballot

@[simp]
theorem poll_nil (facts : JoinFacts) (ballot : Ballot) : poll facts [] ballot = ballot :=
  rfl

@[simp]
theorem poll_cons (facts : JoinFacts) (hook : JoinHook) (hooks : List JoinHook)
    (ballot : Ballot) :
    poll facts (hook :: hooks) ballot = poll facts hooks (hook.vote facts ballot) :=
  rfl

/-- A hook never brings an invitation back. -/
theorem JoinHook.vote_pending {facts : JoinFacts} {ballot : Ballot} {hook : JoinHook}
    (still : (hook.vote facts ballot).pending = true) : ballot.pending = true := by
  cases hook <;> simp only [JoinHook.vote] at still <;> split_ifs at still <;> simp_all

theorem poll_pending {facts : JoinFacts} {hooks : List JoinHook} {ballot : Ballot}
    (still : (poll facts hooks ballot).pending = true) : ballot.pending = true := by
  induction hooks generalizing ballot with
  | nil => exact still
  | cons hook hooks ih => exact JoinHook.vote_pending (ih still)

/-- The votes look at the ballot for the invitation, not at the facts. -/
theorem poll_invited (facts : JoinFacts) (invited : Bool) (hooks : List JoinHook)
    (ballot : Ballot) :
    poll { facts with invited := invited } hooks ballot = poll facts hooks ballot := by
  induction hooks generalizing ballot with
  | nil => rfl
  | cons hook hooks ih =>
      rw [poll_cons, poll_cons, ih]
      cases hook <;> rfl

/-- The blocks as the ballot tells: without the invitation where it was used up. -/
def Joining.settle (s : Joining) (ballot : Ballot) : Joining :=
  if s.cptr.Invited s.chptr ∧ ballot.pending = false then
    { userUninvite s with reply := ballot.reply }
  else { s with reply := ballot.reply }

/-- The ballot before the first vote. -/
def Joining.ballot (s : Joining) : Ballot :=
  ⟨s.reply, decide (s.cptr.Invited s.chptr)⟩

theorem Client.not_invited_userUninvite (s : Joining) :
    ¬ (userUninvite s).cptr.Invited (userUninvite s).chptr := by
  rintro ⟨uptr, found, invited⟩
  obtain ⟨before, -, rfl⟩ := Option.map_eq_some_iff.mp found
  simp [userUninvite] at invited

/-- Using up an invitation changes no other fact. -/
theorem joinFacts_userUninvite (s : Joining) (key : Option CString) :
    joinFacts (userUninvite s).cptr (userUninvite s).chptr key =
      { joinFacts s.cptr s.chptr key with invited := false } := by
  have sameNick : ∀ cmiptr : Chanmodeitem,
      cmiptr.MatchesNick (userUninvite s).cptr ↔ cmiptr.MatchesNick s.cptr := by
    intro cmiptr
    simp [Chanmodeitem.MatchesNick, userUninvite]
  have gone := Client.not_invited_userUninvite s
  simp only [joinFacts, chanmodeMatchBan, sameNick, gone]
  rfl

theorem joinFacts_settle (s : Joining) (ballot : Ballot) (key : Option CString) :
    joinFacts (s.settle ballot).cptr (s.settle ballot).chptr key =
      { joinFacts s.cptr s.chptr key with
        invited := decide (s.cptr.Invited s.chptr) && ballot.pending } := by
  unfold Joining.settle
  by_cases used : s.cptr.Invited s.chptr ∧ ballot.pending = false
  · rw [if_pos used, used.2]
    simpa using joinFacts_userUninvite s key
  · rw [if_neg used]
    by_cases invited : s.cptr.Invited s.chptr
    · have still : ballot.pending = true := by simpa [invited] using used
      simp [joinFacts, invited, still]
    · simp [joinFacts, invited]

/-- A callback does to the blocks what its vote says. -/
theorem JoinHook.callback_eq (hook : JoinHook) (key : Option CString) (s : Joining) :
    hook.callback key s =
      s.settle (hook.vote (joinFacts s.cptr s.chptr key) s.ballot) := by
  by_cases invited : s.cptr.Invited s.chptr <;> cases hook <;>
    simp only [JoinHook.callback, cmBanHook, cmDenyHook, cmExceptHook, cmInviteHook,
      cmInvexHook, cmKeyHook, cmLimitHook, refuseUnexcepted, refuseUninvited,
      JoinHook.vote, joinFacts, Joining.ballot, Joining.settle, invited, decide_true,
      decide_false, decide_eq_true_eq, true_and, false_and, if_true, if_false] <;>
    split_ifs <;> simp_all

theorem Joining.settle_settle {s : Joining} {first second : Ballot}
    (fewer : second.pending = true → first.pending = true) :
    (s.settle first).settle second = s.settle second := by
  by_cases used : s.cptr.Invited s.chptr ∧ first.pending = false
  · have last : second.pending = false := by
      cases still : second.pending with
      | false => rfl
      | true => simp [fewer still] at used
    have gone := Client.not_invited_userUninvite s
    simp only [Joining.settle, used, last, and_self, if_true, gone, false_and, if_false]
  · have same : s.settle first = { s with reply := first.reply } := if_neg used
    rw [same]
    rfl

theorem Joining.ballot_settle {s : Joining} {ballot : Ballot}
    (fewer : ballot.pending = true → s.cptr.Invited s.chptr) :
    (s.settle ballot).ballot = ballot := by
  have facts := congrArg JoinFacts.invited (joinFacts_settle s ballot none)
  have reply : (s.settle ballot).reply = ballot.reply := by
    unfold Joining.settle
    split_ifs <;> rfl
  have pending : decide ((s.settle ballot).cptr.Invited (s.settle ballot).chptr) =
      ballot.pending := by
    refine facts.trans ?_
    cases still : ballot.pending with
    | false => simp
    | true => simp [fewer still]
  unfold Joining.ballot
  rw [reply, pending]

/-- The hooks play the game of their votes. -/
theorem hooksCall_eq (hooks : List JoinHook) (key : Option CString) (s : Joining) :
    hooksCall hooks key s =
      s.settle (poll (joinFacts s.cptr s.chptr key) hooks s.ballot) := by
  induction hooks generalizing s with
  | nil =>
      by_cases invited : s.cptr.Invited s.chptr <;>
        simp [hooksCall, Joining.settle, Joining.ballot, invited]
  | cons hook hooks ih =>
      have step : hooksCall (hook :: hooks) key s =
          hooksCall hooks key (hook.callback key s) := rfl
      have fewer : (hook.vote (joinFacts s.cptr s.chptr key) s.ballot).pending = true →
          s.cptr.Invited s.chptr := by
        intro still
        simpa [Joining.ballot] using JoinHook.vote_pending still
      rw [step, hook.callback_eq, ih, joinFacts_settle, poll_invited,
        Joining.ballot_settle fewer, poll_cons]
      exact Joining.settle_settle poll_pending

theorem hooksCall_reply (hooks : List JoinHook) (key : Option CString) (s : Joining) :
    (hooksCall hooks key s).reply =
      (poll (joinFacts s.cptr s.chptr key) hooks s.ballot).reply := by
  rw [hooksCall_eq]
  unfold Joining.settle
  split_ifs <;> rfl

end Modes

end Chaosircd
