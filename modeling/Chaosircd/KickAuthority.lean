import Chaosircd.ChannelTable
import Chaosircd.TransitionSystem

/-!
# The authority to kick

`chanuser_kick` asks the hooks for each of its targets.  `hooks_call` hands four arguments
on, and the half-operator's hook has six: what it takes for the membership of the target is
whatever the fifth happens to be.  A target can be the kicker, whose membership is freed then
and read again for the next target.
-/

namespace Chaosircd

namespace Kick

/-! ## Memberships and hooks -/

/-- A linked membership: its block, its client and its privileges. -/
structure Block where
  id : Nat
  client : Nat
  flags : Finset Char
  deriving DecidableEq

/-- `chptr->chanusers`; a block is linked once. -/
structure Members where
  list : List Block
  distinct : (list.map Block.id).Nodup

/-- The hooks that the modules register for `chanuser_kick`. -/
inductive KickHook where
  | cmOpKick
  | cmHalfopKick
  deriving DecidableEq

/-- What memory shows for one target: the flags in the block of the kicker once it is freed,
and those behind the fifth argument.  There are none where the access faults. -/
structure Shown where
  freed : Option (Finset Char)
  fifth : Option (Finset Char)
  deriving DecidableEq

/-- `cm_op_kick` and `cm_halfop_kick`, for the flags that are read through `cuptr`; there is
no answer when an access faults. -/
def KickHook.call (hook : KickHook) (flags fifth : Option (Finset Char)) : Option Int :=
  match hook with
  | .cmOpKick => flags.map fun flags => if 'o' ∈ flags then 1 else 0
  | .cmHalfopKick => flags.bind fun flags =>
    if 'o' ∈ flags then some 1
    else if 'h' ∈ flags then fifth.map fun seen => if 'o' ∈ seen then 0 else 1
    else some 0

/-- The loop of `hooks_call`, which adds the answers up. -/
def hooksSum (flags fifth : Option (Finset Char)) : List KickHook → Option Int
  | [] => some 0
  | hook :: hooks =>
    (hook.call flags fifth).bind fun answer => (hooksSum flags fifth hooks).map (answer + ·)

/-- `hooks_call` for `chanuser_kick`; without a `cuptr` every hook answers zero. -/
def hooksCall (hooks : List KickHook) (cuptr : Option Nat)
    (flags fifth : Option (Finset Char)) : Option Int :=
  match cuptr with
  | none => some 0
  | some _ => hooksSum flags fifth hooks

/-- What the kicker is told. -/
inductive Reply where
  | noSuchNick (nick : CString)
  | notOnChannel
  | userNotInChannel (client : Nat)
  | chanOPrivsNeeded
  deriving DecidableEq

/-- The arguments of `chanuser_kick` but for the targets: the kicker, whether it is a user,
whether its line came over a link with `CAP_UID`, its membership, and what
`client_find_uid` or `client_find_nickh` finds. -/
structure Caller where
  cptr : Nat
  isUser : Bool
  capUid : Bool
  cuptr : Option Nat
  find : CString → Option Nat
  hooks : List KickHook

/-- The memberships, what the kicker has been told, and the clients whose kicks have been
sent to the members and servers. -/
structure State where
  chanusers : Members
  replies : List Reply
  kicks : List Nat

namespace Members

/-- `chanuser_find`. -/
def chanuserFind (members : Members) (cptr : Nat) : Option Block :=
  members.list.find? fun cuptr => cuptr.client = cptr

/-- The block behind a pointer, if it is linked still. -/
def block (members : Members) (id : Nat) : Option Block :=
  members.list.find? fun cuptr => cuptr.id = id

/-- `chanuser_delete`. -/
def chanuserDelete (members : Members) (id : Nat) : Members where
  list := members.list.filter fun cuptr => cuptr.id ≠ id
  distinct := members.distinct.sublist (List.filter_sublist.map Block.id)

end Members

/-! ## The loop over the targets -/

namespace State

/-- The flags that a hook reads through `cuptr`. -/
def cuptrFlags (s : State) (caller : Caller) (shown : Shown) : Option (Finset Char) :=
  match caller.cuptr.bind s.chanusers.block with
  | some cuptr => some cuptr.flags
  | none => shown.freed

/-- The membership that a target names. -/
def target (s : State) (caller : Caller) (nick : CString) : Option Block :=
  (caller.find nick).bind s.chanusers.chanuserFind

/-- What the kicker is told about a target that names no member. -/
def missed (caller : Caller) (nick : CString) : List Reply :=
  if caller.isUser then
    match caller.find nick with
    | none => if caller.capUid then [] else [.noSuchNick nick]
    | some acptr => if acptr = caller.cptr then [.notOnChannel] else [.userNotInChannel acptr]
  else []

/-- One round of the loop of `chanuser_kick`. -/
def kickOne (caller : Caller) (s : State) (event : CString × Shown) : Option State :=
  match s.target caller event.1 with
  | none => some { s with replies := s.replies ++ missed caller event.1 }
  | some acuptr =>
    (hooksCall caller.hooks caller.cuptr (s.cuptrFlags caller event.2) event.2.fifth).map
      fun ret =>
        if ret = 0 then { s with replies := s.replies ++ [.chanOPrivsNeeded] }
        else
          { s with
            chanusers := s.chanusers.chanuserDelete acuptr.id
            kicks := s.kicks ++ [acuptr.client] }

/-! ## What is asked of a round -/

/-- The kicker is a member with the privilege to kick a membership. -/
def Authorised (s : State) (caller : Caller) (acuptr : Block) : Prop :=
  ∃ cuptr ∈ s.chanusers.list, cuptr.client = caller.cptr ∧
    ('o' ∈ cuptr.flags ∨ ('h' ∈ cuptr.flags ∧ 'o' ∉ acuptr.flags))

/-- Every membership that a round removes is one that the kicker may remove. -/
def Sound (caller : Caller) (s : State) (event : CString × Shown) : Prop :=
  ∀ s', s.kickOne caller event = some s' → ∀ acuptr ∈ s.chanusers.list,
    acuptr ∉ s'.chanusers.list → s.Authorised caller acuptr

/-- What a hook reads lets the kick through: the flags of an operator, or for the hook of the
half-operator its flags and a fifth argument that shows no operator. -/
def Opens (flags : Finset Char) (fifth : Option (Finset Char)) (hook : KickHook) : Prop :=
  'o' ∈ flags ∨ hook = .cmHalfopKick ∧ 'h' ∈ flags ∧ ∃ seen ∈ fifth, 'o' ∉ seen

/-- One of the hooks lets the kick through. -/
def Lets (hooks : List KickHook) (flags : Finset Char) (fifth : Option (Finset Char)) : Prop :=
  ∃ hook ∈ hooks, Opens flags fifth hook

/-- The condition on a round.  For a half-operator and a target that is an operator, the fifth
argument shows an operator, or the kicker is an operator by another membership; and once the
kicker's membership is gone, what is left of it does not let a kick through that no other
membership of the kicker allows. -/
def Fits (caller : Caller) (s : State) (event : CString × Shown) : Prop :=
  ∀ acuptr ∈ s.target caller event.1, ∀ id ∈ caller.cuptr,
    match s.chanusers.block id with
    | some cuptr => .cmHalfopKick ∈ caller.hooks → 'o' ∈ acuptr.flags → 'o' ∉ cuptr.flags →
      'h' ∈ cuptr.flags → (∀ seen ∈ event.2.fifth, 'o' ∈ seen) ∨
        ∃ other ∈ s.chanusers.list, other.client = caller.cptr ∧ 'o' ∈ other.flags
    | none => ∀ freed ∈ event.2.freed, Lets caller.hooks freed event.2.fifth →
      s.Authorised caller acuptr

/-! ## What the hooks answer -/

variable {caller : Caller} {s : State} {event : CString × Shown} {flags : Finset Char}
  {fifth : Option (Finset Char)} {hooks : List KickHook}

theorem call_spec {hook : KickHook} {answer : Int}
    (called : hook.call (some flags) fifth = some answer) :
    0 ≤ answer ∧ (answer ≠ 0 ↔ Opens flags fifth hook) := by
  cases hook with
  | cmOpKick =>
      cases called
      by_cases isOp : 'o' ∈ flags
      · simp [Opens, isOp]
      · simp [Opens, isOp]
  | cmHalfopKick =>
      rw [KickHook.call, Option.bind_some] at called
      split at called
      · cases called
        simp [Opens, *]
      · split at called
        · obtain ⟨seen, rfl, rfl⟩ := Option.map_eq_some_iff.mp called
          split
          · simp [Opens, *]
          · simp [Opens, *]
        · cases called
          simp [Opens, *]

/-- The answers add up to something exactly if one of the hooks lets the kick through. -/
theorem hooksSum_spec {ret : Int} (called : hooksSum (some flags) fifth hooks = some ret) :
    0 ≤ ret ∧ (ret ≠ 0 ↔ Lets hooks flags fifth) := by
  induction hooks generalizing ret with
  | nil =>
      cases called
      simp [Lets]
  | cons hook hooks induction =>
      obtain ⟨answer, answered, rest⟩ := Option.bind_eq_some_iff.mp called
      obtain ⟨sum, summed, rfl⟩ := Option.map_eq_some_iff.mp rest
      obtain ⟨positive, opens⟩ := call_spec answered
      obtain ⟨positive', lets⟩ := induction summed
      have either : Lets (hook :: hooks) flags fifth ↔
          Opens flags fifth hook ∨ Lets hooks flags fifth := by
        simp [Lets]
      rw [either, ← opens, ← lets]
      omega

/-- A kick that is let through does not fault. -/
theorem hooksSum_of_lets (lets : Lets hooks flags fifth) :
    ∃ ret, hooksSum (some flags) fifth hooks = some ret := by
  have answers (hook : KickHook) : ∃ answer, hook.call (some flags) fifth = some answer := by
    obtain ⟨_, _, isOp | ⟨_, isHalfop, seen, shown, _⟩⟩ := lets
    · cases hook with
      | cmOpKick => exact ⟨1, by simp [KickHook.call, isOp]⟩
      | cmHalfopKick => exact ⟨1, by simp [KickHook.call, isOp]⟩
    · cases shown
      cases hook with
      | cmOpKick => exact ⟨_, rfl⟩
      | cmHalfopKick =>
          rw [KickHook.call, Option.bind_some]
          split
          · exact ⟨_, rfl⟩
          · exact ⟨_, rfl⟩
  clear lets
  induction hooks with
  | nil => exact ⟨0, rfl⟩
  | cons hook hooks induction =>
      obtain ⟨answer, answered⟩ := answers hook
      obtain ⟨sum, summed⟩ := induction
      exact ⟨answer + sum, by simp [hooksSum, answered, summed]⟩

theorem hooksSum_fault {ret : Int} (called : hooksSum none fifth hooks = some ret) : ret = 0 := by
  cases hooks with
  | nil =>
      cases called
      rfl
  | cons hook hooks =>
      cases hook with
      | cmOpKick => cases called
      | cmHalfopKick => cases called

/-- With both hooks, `KickAllowed` is what lets a kick through; its parameter is what the fifth
argument shows. -/
theorem kickAllowed_iff_lets {flags seen : Finset Char} :
    Ircd.KickAllowed flags ('o' ∉ seen) ↔
      Lets [.cmOpKick, .cmHalfopKick] flags (some seen) := by
  simp only [Ircd.KickAllowed, Lets, Opens, decide_eq_true_eq]
  constructor
  · rintro (isOp | ⟨isHalfop, noOp⟩)
    · exact ⟨.cmOpKick, by simp, .inl isOp⟩
    · exact ⟨.cmHalfopKick, by simp, .inr ⟨rfl, isHalfop, seen, rfl, noOp⟩⟩
  · rintro ⟨hook, -, isOp | ⟨-, isHalfop, shown, isSeen, noOp⟩⟩
    · exact .inl isOp
    · cases isSeen
      exact .inr ⟨isHalfop, noOp⟩

/-! ## One round -/

theorem mem_of_target {nick : CString} {acuptr : Block}
    (named : s.target caller nick = some acuptr) : acuptr ∈ s.chanusers.list := by
  obtain ⟨acptr, -, found⟩ := Option.bind_eq_some_iff.mp named
  exact List.mem_of_find?_eq_some found

/-- A kick that is let through takes place. -/
theorem kickOne_of_lets {acuptr : Block} {id : Nat} (named : s.target caller event.1 = some acuptr)
    (isCuptr : caller.cuptr = some id) (read : s.cuptrFlags caller event.2 = some flags)
    (lets : Lets caller.hooks flags event.2.fifth) :
    ∃ s', s.kickOne caller event = some s' ∧ acuptr ∉ s'.chanusers.list := by
  obtain ⟨ret, summed⟩ := hooksSum_of_lets lets
  have some : ret ≠ 0 := (hooksSum_spec summed).2.mpr lets
  refine ⟨{ s with
    chanusers := s.chanusers.chanuserDelete acuptr.id
    kicks := s.kicks ++ [acuptr.client] }, ?_, ?_⟩
  · simp [kickOne, named, hooksCall, isCuptr, read, summed, some]
  · simp [Members.chanuserDelete]

/-- A membership that a round removes is the one that the target names, and what is read lets
the kick through. -/
theorem lets_of_removed {acuptr : Block} {s' : State} (stepped : s.kickOne caller event = some s')
    (listed : acuptr ∈ s.chanusers.list) (removed : acuptr ∉ s'.chanusers.list) :
    s.target caller event.1 = some acuptr ∧
      ∃ id flags, caller.cuptr = some id ∧ s.cuptrFlags caller event.2 = some flags ∧
        Lets caller.hooks flags event.2.fifth := by
  rw [kickOne] at stepped
  cases named : s.target caller event.1 with
  | none =>
      rw [named] at stepped
      cases stepped
      exact absurd listed removed
  | some target =>
      rw [named] at stepped
      obtain ⟨ret, called, ended⟩ := Option.map_eq_some_iff.mp stepped
      by_cases zero : ret = 0
      · rw [if_pos zero] at ended
        cases ended
        exact absurd listed removed
      · rw [if_neg zero] at ended
        cases ended
        have same : acuptr = target := by
          have sameId : acuptr.id = target.id := by
            simpa [Members.chanuserDelete, listed] using removed
          exact List.inj_on_of_nodup_map s.chanusers.distinct listed (mem_of_target named) sameId
        refine ⟨congrArg some same.symm, ?_⟩
        cases isCuptr : caller.cuptr with
        | none =>
            rw [isCuptr] at called
            cases called
            exact absurd rfl zero
        | some id =>
            rw [isCuptr, hooksCall] at called
            cases read : s.cuptrFlags caller event.2 with
            | none =>
                rw [read] at called
                exact absurd (hooksSum_fault called) zero
            | some flags =>
                rw [read] at called
                exact ⟨id, flags, rfl, rfl, (hooksSum_spec called).2.mp zero⟩

/-- The block of `cuptr`, while it is linked, is one of the kicker. -/
def Owns (caller : Caller) (s : State) : Prop :=
  ∀ id ∈ caller.cuptr, ∀ cuptr ∈ s.chanusers.list, cuptr.id = id → cuptr.client = caller.cptr

theorem sound_iff_fits (owns : s.Owns caller) : s.Sound caller event ↔ s.Fits caller event := by
  constructor
  · intro sound acuptr named id isCuptr
    have listed := mem_of_target named
    cases linked : s.chanusers.block id with
    | some cuptr =>
        intro halfop isOp notOp isHalfop
        by_contra neither
        obtain ⟨hidden, nobody⟩ := not_or.mp neither
        push Not at hidden
        obtain ⟨seen, shown, noOp⟩ := hidden
        have read : s.cuptrFlags caller event.2 = some cuptr.flags := by
          simp [cuptrFlags, Option.mem_def.mp isCuptr, linked]
        obtain ⟨s', stepped, removed⟩ := kickOne_of_lets named isCuptr read
          ⟨.cmHalfopKick, halfop, .inr ⟨rfl, isHalfop, seen, shown, noOp⟩⟩
        obtain ⟨other, member, isKicker, op | halfop⟩ := sound s' stepped acuptr listed removed
        · exact nobody ⟨other, member, isKicker, op⟩
        · exact halfop.2 isOp
    | none =>
        intro freed shown lets
        have read : s.cuptrFlags caller event.2 = some freed := by
          simpa [cuptrFlags, Option.mem_def.mp isCuptr, linked] using shown
        obtain ⟨s', stepped, removed⟩ := kickOne_of_lets named isCuptr read lets
        exact sound s' stepped acuptr listed removed
  · intro fits s' stepped acuptr listed removed
    obtain ⟨named, id, flags, isCuptr, read, lets⟩ := lets_of_removed stepped listed removed
    have condition := fits acuptr named id isCuptr
    rw [cuptrFlags, isCuptr, Option.bind_some] at read
    cases linked : s.chanusers.block id with
    | none =>
        rw [linked] at condition read
        exact condition flags read lets
    | some cuptr =>
        rw [linked] at condition read
        cases read
        have member := List.mem_of_find?_eq_some linked
        have isKicker := owns id isCuptr cuptr member (by simpa using List.find?_some linked)
        obtain ⟨hook, registered, op | ⟨rfl, isHalfop, seen, shown, noOp⟩⟩ := lets
        · exact ⟨cuptr, member, isKicker, .inl op⟩
        · by_cases op : 'o' ∈ cuptr.flags
          · exact ⟨cuptr, member, isKicker, .inl op⟩
          · by_cases isOp : 'o' ∈ acuptr.flags
            · rcases condition registered isOp op isHalfop with all | other
              · exact absurd (all seen shown) noOp
              · obtain ⟨other, member, isKicker, op⟩ := other
                exact ⟨other, member, isKicker, .inl op⟩
            · exact ⟨cuptr, member, isKicker, .inr ⟨isHalfop, isOp⟩⟩

/-! ## Lists of targets -/

theorem Owns.kickOne (owns : s.Owns caller) {s' : State}
    (stepped : s.kickOne caller event = some s') : s'.Owns caller := by
  have fewer : ∀ cuptr ∈ s'.chanusers.list, cuptr ∈ s.chanusers.list := by
    rw [State.kickOne] at stepped
    cases named : s.target caller event.1 with
    | none =>
        rw [named] at stepped
        cases stepped
        exact fun cuptr => id
    | some acuptr =>
        rw [named] at stepped
        obtain ⟨ret, -, rfl⟩ := Option.map_eq_some_iff.mp stepped
        split
        · exact fun cuptr => id
        · exact fun cuptr listed => List.mem_of_mem_filter listed
  exact fun id isCuptr cuptr listed => owns id isCuptr cuptr (fewer cuptr listed)

/-- The call of `chanuser_kick` by `m_kick`. -/
def mKick (members : Members) (caller : Caller) : Caller :=
  { caller with cuptr := (members.chanuserFind caller.cptr).map Block.id }

/-- In every loop over targets, members are removed by those who may remove them exactly if
each round meets the condition. -/
theorem kick_run_iff (members : Members) (caller : Caller) (targets : List (CString × Shown)) :
    TransitionSystem.GuardedRun (kickOne (mKick members caller)) (Sound (mKick members caller))
        ⟨members, [], []⟩ targets ↔
      TransitionSystem.GuardedRun (kickOne (mKick members caller)) (Fits (mKick members caller))
        ⟨members, [], []⟩ targets := by
  have owns : Owns (mKick members caller) ⟨members, [], []⟩ := by
    intro id isCuptr cuptr listed same
    obtain ⟨found, isFound, isId⟩ := Option.map_eq_some_iff.mp isCuptr
    have member := List.mem_of_find?_eq_some isFound
    have isKicker : found.client = caller.cptr := by simpa using List.find?_some isFound
    rw [List.inj_on_of_nodup_map members.distinct listed member (same.trans isId.symm)]
    exact isKicker
  have promised : TransitionSystem.GuardedRun (kickOne (mKick members caller)) (fun _ _ => True)
      ⟨members, [], []⟩ targets :=
    TransitionSystem.guardedRun_of_forall (fun _ _ => trivial) _ _
  refine TransitionSystem.guardedRun_congr ?_ ?_ owns promised
  · exact fun s event owns _ => sound_iff_fits owns
  · exact fun s event s' owns _ _ stepped => owns.kickOne stepped

/-- An operator kicks itself and then a second member. -/
theorem kicker_kicks_after_itself :
    ¬ TransitionSystem.GuardedRun
      (kickOne (mKick ⟨[⟨0, 1, {'o'}⟩, ⟨1, 2, ∅⟩], by decide⟩
        ⟨1, true, false, none, fun nick => if nick = "op".toList then some 1 else some 2,
          [.cmOpKick, .cmHalfopKick]⟩))
      (Sound (mKick ⟨[⟨0, 1, {'o'}⟩, ⟨1, 2, ∅⟩], by decide⟩
        ⟨1, true, false, none, fun nick => if nick = "op".toList then some 1 else some 2,
          [.cmOpKick, .cmHalfopKick]⟩))
      ⟨⟨[⟨0, 1, {'o'}⟩, ⟨1, 2, ∅⟩], by decide⟩, [], []⟩
      [("op".toList, ⟨some {'o'}, none⟩), ("bob".toList, ⟨some {'o'}, none⟩)] := by
  rintro ⟨-, second, -⟩
  obtain ⟨cuptr, member, isKicker, -⟩ := second _ rfl ⟨1, 2, ∅⟩ (by decide) (by decide)
  revert isKicker
  revert cuptr
  decide

end State

end Kick

end Chaosircd
