import Chaosircd.JoinHooks

/-!
# Channel modes: the verdict of the join hooks

The modes are meant to be read without any order: a ban or a deny mask refuses
unless an exception matches, and the invite-only flag, the key and the limit
refuse unless the client is invited or matches an invite exception.  Three
combinations of facts are at odds with the one reply that the hooks share.  Away
from them every order of the hooks gives the intended verdict; on each of them
two orders disagree.
-/

namespace Chaosircd

namespace Modes

namespace JoinFacts

/-- What the modes are meant to decide. -/
def intended (facts : JoinFacts) : Bool :=
  ((facts.banned || facts.denied) && !facts.excepted) ||
    ((facts.inviteOnly || facts.badKey || facts.full) &&
      !(facts.invited || facts.invexed))

/-- The verdict of the hooks called in this order. -/
def refused (facts : JoinFacts) (order : List JoinHook) : Bool :=
  decide (0 < (poll facts order ⟨0, facts.invited⟩).reply)

/-- An exception has to lift a ban or a deny mask while something else bears on the reply. -/
def ExceptionClash (facts : JoinFacts) : Prop :=
  facts.excepted ∧ (facts.banned ∨ facts.denied) ∧
    (facts.invited ∨ facts.invexed ∨ facts.inviteOnly ∨ facts.badKey ∨ facts.full)

/-- An invitation has to lift the key or the limit while a mask of another list matches. -/
def InvitationClash (facts : JoinFacts) : Prop :=
  (facts.invited ∨ facts.invexed) ∧ (facts.badKey ∨ facts.full) ∧
    (facts.banned ∨ facts.denied ∨ facts.excepted)

/-- An invite exception has to lift the invite-only flag next to an exception, or next to
a ban that no invitation of the client keeps apart. -/
def InvexClash (facts : JoinFacts) : Prop :=
  facts.invexed ∧ facts.inviteOnly ∧
    (facts.excepted ∨ ((facts.banned ∨ facts.denied) ∧ ¬ facts.invited))

/-- The facts on which the hooks depend on their order. -/
def Clash (facts : JoinFacts) : Prop :=
  facts.ExceptionClash ∨ facts.InvitationClash ∨ facts.InvexClash

instance (facts : JoinFacts) : Decidable facts.Clash :=
  inferInstanceAs (Decidable ((_ ∧ _ ∧ _) ∨ (_ ∧ _ ∧ _) ∨ (_ ∧ _ ∧ _)))

end JoinFacts

/-- The hook has a reason to refuse. -/
def JoinHook.grounds (facts : JoinFacts) : JoinHook → Bool
  | .ban => facts.banned
  | .deny => facts.denied
  | .invite => facts.inviteOnly
  | .key => facts.badKey
  | .limit => facts.full
  | .except | .invex => false

/-! ## One rule for all orders -/

/-- The rule of the poll: an invariant of the hooks still to come and the ballot. -/
theorem poll_rule {facts : JoinFacts} (Inv : List JoinHook → Ballot → Prop)
    (step : ∀ hook hooks ballot, hook ∉ hooks → Inv (hook :: hooks) ballot →
      Inv hooks (hook.vote facts ballot))
    (hooks : List JoinHook) (ballot : Ballot) (distinct : hooks.Nodup)
    (start : Inv hooks ballot) : Inv [] (poll facts hooks ballot) := by
  induction hooks generalizing ballot with
  | nil => exact start
  | cons hook hooks ih =>
      obtain ⟨fresh, distinct⟩ := List.nodup_cons.mp distinct
      exact ih _ distinct (step hook hooks ballot fresh start)

variable {facts : JoinFacts} {hooks : List JoinHook}

/-- Nothing that refuses: the reply stays at or below zero. -/
theorem poll_unrestricted (ban : facts.banned = false) (deny : facts.denied = false)
    (inviteOnly : facts.inviteOnly = false) (badKey : facts.badKey = false)
    (full : facts.full = false) (distinct : hooks.Nodup) :
    (poll facts hooks ⟨0, facts.invited⟩).reply ≤ 0 := by
  refine poll_rule (fun _ ballot => ballot.reply ≤ 0) ?_ hooks _ distinct le_rfl
  intro hook hooks ballot _ low
  cases hook <;> simp only [JoinHook.vote, ban, deny, inviteOnly, badKey, full] <;>
    split_ifs <;> simp_all [spared]

/-- Nothing that lifts, or only an exception and no ban: one hook that refuses is enough. -/
theorem poll_unlifted {refuser : JoinHook} (distinct : hooks.Nodup)
    (member : refuser ∈ hooks) (invited : facts.invited = false)
    (invexed : facts.invexed = false)
    (lifted : facts.excepted = true → facts.banned = false ∧ facts.denied = false)
    (grounds : refuser.grounds facts = true) :
    0 < (poll facts hooks ⟨0, facts.invited⟩).reply := by
  have last := @poll_rule facts
    (fun rest ballot => ballot.pending = false ∧ ballot.reply ≠ spared 'I' ∧
      ballot.reply ≠ spared 'i' ∧
      (facts.excepted = true → ballot.reply ≠ errBannedfromchan ∧
        ballot.reply ≠ errDeniedfromchan) ∧
      (facts.excepted = false → ballot.reply ≠ spared 'e') ∧
      (0 < ballot.reply ∨ refuser ∈ rest)) ?_ hooks ⟨0, facts.invited⟩ distinct ?_
  · simpa using last.2.2.2.2.2
  · rintro hook rest ⟨reply, pending⟩ fresh ⟨unused, notI, noti, high, low, still⟩
    simp only at unused notI noti high low still
    subst unused
    cases hook <;> cases excepted : facts.excepted <;>
      simp_all [JoinHook.vote, spared, errBannedfromchan, errDeniedfromchan,
        errInviteonlychan, errChannelisfull, errBadchannelkey] <;>
      grind [JoinHook.grounds]
  · simp [invited, member, spared, errBannedfromchan, errDeniedfromchan]

/-- An exception and bans, nothing else: once the exception has voted it stays. -/
theorem poll_excepted (distinct : hooks.Nodup) (member : JoinHook.except ∈ hooks)
    (excepted : facts.excepted = true) (invited : facts.invited = false)
    (invexed : facts.invexed = false) (inviteOnly : facts.inviteOnly = false)
    (badKey : facts.badKey = false) (full : facts.full = false) :
    (poll facts hooks ⟨0, facts.invited⟩).reply ≤ 0 := by
  have last := @poll_rule facts
    (fun rest ballot => ballot.pending = false ∧ (ballot.reply = spared 'e' ∨
      JoinHook.except ∈ rest ∧ (ballot.reply = 0 ∨ ballot.reply = errBannedfromchan ∨
        ballot.reply = errDeniedfromchan))) ?_ hooks ⟨0, facts.invited⟩ distinct ?_
  · have reply : (poll facts hooks ⟨0, facts.invited⟩).reply = spared 'e' := by
      simpa using last.2
    rw [reply]
    decide
  · rintro hook rest ⟨reply, pending⟩ fresh ⟨unused, still⟩
    simp only at unused still
    subst unused
    cases hook <;>
      simp_all [JoinHook.vote, spared, errBannedfromchan, errDeniedfromchan,
        errInviteonlychan, errChannelisfull, errBadchannelkey] <;> grind
  · simp [invited, member]

/-- An invitation and no mask against it: once the invitation has voted it stays. -/
theorem poll_invited_unmasked (distinct : hooks.Nodup) (member : JoinHook.invite ∈ hooks)
    (invited : facts.invited = true) (excepted : facts.excepted = false)
    (banned : facts.banned = false) (denied : facts.denied = false) :
    (poll facts hooks ⟨0, facts.invited⟩).reply ≤ 0 := by
  have last := @poll_rule facts
    (fun rest ballot => ballot.reply = spared 'I' ∨
      (ballot.reply = spared 'i' ∧ JoinHook.invite ∉ rest) ∨
      (ballot.pending = true ∧ JoinHook.invite ∈ rest ∧ (ballot.reply = 0 ∨
        ballot.reply = errChannelisfull ∨ ballot.reply = errBadchannelkey)))
    ?_ hooks ⟨0, facts.invited⟩ distinct ?_
  · have reply : (poll facts hooks ⟨0, facts.invited⟩).reply = spared 'I' ∨
        (poll facts hooks ⟨0, facts.invited⟩).reply = spared 'i' := by
      simpa using last
    rcases reply with reply | reply <;> rw [reply] <;> decide
  · rintro hook rest ⟨reply, pending⟩ fresh still
    simp only at still
    cases hook <;>
      simp_all [JoinHook.vote, spared, errBannedfromchan, errDeniedfromchan,
        errInviteonlychan, errChannelisfull, errBadchannelkey] <;> grind
  · simp [invited, member]

/-- An invite exception and no mask against it: once it has voted it stays. -/
theorem poll_invexed_unmasked (distinct : hooks.Nodup) (member : JoinHook.invex ∈ hooks)
    (invexed : facts.invexed = true) (invited : facts.invited = false)
    (excepted : facts.excepted = false) (banned : facts.banned = false)
    (denied : facts.denied = false) :
    (poll facts hooks ⟨0, facts.invited⟩).reply ≤ 0 := by
  have last := @poll_rule facts
    (fun rest ballot => ballot.reply = spared 'I' ∨
      (ballot.pending = false ∧ JoinHook.invex ∈ rest ∧ (ballot.reply = 0 ∨
        ballot.reply = errInviteonlychan ∨ ballot.reply = errChannelisfull ∨
        ballot.reply = errBadchannelkey))) ?_ hooks ⟨0, facts.invited⟩ distinct ?_
  · have reply : (poll facts hooks ⟨0, facts.invited⟩).reply = spared 'I' := by
      simpa using last
    rw [reply]
    decide
  · rintro hook rest ⟨reply, pending⟩ fresh still
    simp only at still
    cases hook <;>
      simp_all [JoinHook.vote, spared, errBannedfromchan, errDeniedfromchan,
        errInviteonlychan, errChannelisfull, errBadchannelkey] <;> grind
  · simp [invited, member]

/-- A ban next to an invitation or an invite exception, without a key or a limit: the ban
has the last word. -/
theorem poll_masked {refuser : JoinHook} (distinct : hooks.Nodup)
    (member : refuser ∈ hooks) (excepted : facts.excepted = false)
    (badKey : facts.badKey = false) (full : facts.full = false)
    (free : facts.inviteOnly = true → facts.invited = true)
    (refuses : (refuser = .ban ∧ facts.banned = true) ∨
      (refuser = .deny ∧ facts.denied = true)) :
    0 < (poll facts hooks ⟨0, facts.invited⟩).reply := by
  have last := @poll_rule facts
    (fun rest ballot => ballot.reply = errBannedfromchan ∨
      ballot.reply = errDeniedfromchan ∨
      (refuser ∈ rest ∧ (ballot.reply = spared 'I' ∨
        (ballot.reply = spared 'i' ∧ JoinHook.invite ∉ rest) ∨
        (ballot.reply = 0 ∧ ballot.pending = facts.invited))))
    ?_ hooks ⟨0, facts.invited⟩ distinct ?_
  · have reply : (poll facts hooks ⟨0, facts.invited⟩).reply = errBannedfromchan ∨
        (poll facts hooks ⟨0, facts.invited⟩).reply = errDeniedfromchan := by
      simpa using last
    rcases reply with reply | reply <;> rw [reply] <;> decide
  · rintro hook rest ⟨reply, pending⟩ fresh still
    simp only at still
    cases hook <;> cases invited : facts.invited <;>
      simp_all [JoinHook.vote, spared, errBannedfromchan, errDeniedfromchan,
        errInviteonlychan, errChannelisfull, errBadchannelkey] <;> grind
  · simp [member]

/-- An exception and an invitation, without a ban, a key, a limit or an invite exception. -/
theorem poll_excepted_invited (distinct : hooks.Nodup) (invited : facts.invited = true)
    (banned : facts.banned = false) (denied : facts.denied = false)
    (badKey : facts.badKey = false) (full : facts.full = false)
    (invexed : facts.invexed = false) :
    (poll facts hooks ⟨0, facts.invited⟩).reply ≤ 0 := by
  have last := @poll_rule facts
    (fun rest ballot => ballot.reply ≤ 0 ∧
      (ballot.pending = true ∨ JoinHook.invite ∉ rest))
    ?_ hooks ⟨0, facts.invited⟩ distinct ?_
  · exact last.1
  · rintro hook rest ⟨reply, pending⟩ fresh ⟨low, still⟩
    simp only at low still
    cases hook <;>
      simp_all [JoinHook.vote, spared, errBannedfromchan, errDeniedfromchan,
        errInviteonlychan, errChannelisfull, errBadchannelkey] <;> grind
  · simp [invited]

/-! ## The verdict -/

namespace JoinFacts

theorem refused_eq_true {order : List JoinHook} :
    facts.refused order = true ↔ 0 < (poll facts order ⟨0, facts.invited⟩).reply :=
  decide_eq_true_iff

theorem refused_eq_false {order : List JoinHook} :
    facts.refused order = false ↔ (poll facts order ⟨0, facts.invited⟩).reply ≤ 0 := by
  rw [refused, decide_eq_false_iff_not, not_lt]

/-- With an invitation or an invite exception. -/
theorem refused_of_lifted {order : List JoinHook} (noClash : ¬ facts.Clash)
    (loaded : order.Perm JoinHook.all)
    (lifted : facts.invited = true ∨ facts.invexed = true) :
    facts.refused order = facts.intended := by
  have distinct : order.Nodup := loaded.nodup_iff.mpr (by decide)
  have member : ∀ hook, hook ∈ order := fun hook =>
    loaded.mem_iff.mpr hook.mem_all
  simp only [Clash, ExceptionClash, InvitationClash, InvexClash] at noClash
  by_cases masked : facts.banned = true ∨ facts.denied = true
  · -- the mask refuses and nothing can be an exception
    have excepted : facts.excepted = false := by grind
    have badKey : facts.badKey = false := by grind
    have full : facts.full = false := by grind
    have free : facts.inviteOnly = true → facts.invited = true := by grind
    have verdict : facts.intended = true := by grind [intended]
    rw [verdict, refused_eq_true]
    rcases masked with banned | denied
    · exact poll_masked distinct (member .ban) excepted badKey full free
        (Or.inl ⟨rfl, banned⟩)
    · exact poll_masked distinct (member .deny) excepted badKey full free
        (Or.inr ⟨rfl, denied⟩)
  · have banned : facts.banned = false := by grind
    have denied : facts.denied = false := by grind
    have verdict : facts.intended = false := by grind [intended]
    rw [verdict, refused_eq_false]
    by_cases excepted : facts.excepted = true
    · have badKey : facts.badKey = false := by grind
      have full : facts.full = false := by grind
      by_cases inviteOnly : facts.inviteOnly = true
      · have invexed : facts.invexed = false := by grind
        have invited : facts.invited = true := by grind
        exact poll_excepted_invited distinct invited banned denied badKey full invexed
      · have inviteOnly : facts.inviteOnly = false := by grind
        exact poll_unrestricted banned denied inviteOnly badKey full distinct
    · have excepted : facts.excepted = false := by grind
      cases invited : facts.invited with
      | true =>
          simpa only [invited] using
            poll_invited_unmasked distinct (member .invite) invited excepted banned denied
      | false =>
          have invexed : facts.invexed = true := by grind
          simpa only [invited] using
            poll_invexed_unmasked distinct (member .invex) invexed invited excepted
              banned denied

/-- With neither. -/
theorem refused_of_not_lifted {order : List JoinHook} (noClash : ¬ facts.Clash)
    (loaded : order.Perm JoinHook.all) (invited : facts.invited = false)
    (invexed : facts.invexed = false) : facts.refused order = facts.intended := by
  have distinct : order.Nodup := loaded.nodup_iff.mpr (by decide)
  have member : ∀ hook, hook ∈ order := fun hook =>
    loaded.mem_iff.mpr hook.mem_all
  simp only [Clash, ExceptionClash, InvitationClash, InvexClash] at noClash
  by_cases overruled :
      facts.excepted = true ∧ (facts.banned = true ∨ facts.denied = true)
  · have inviteOnly : facts.inviteOnly = false := by grind
    have badKey : facts.badKey = false := by grind
    have full : facts.full = false := by grind
    have verdict : facts.intended = false := by grind [intended]
    rw [verdict, refused_eq_false]
    exact poll_excepted distinct (member .except) overruled.1 invited invexed inviteOnly
      badKey full
  · have lifted : facts.excepted = true →
        facts.banned = false ∧ facts.denied = false := by grind
    by_cases grounds : ∃ refuser : JoinHook, refuser.grounds facts = true
    · obtain ⟨refuser, found⟩ := grounds
      have verdict : facts.intended = true := by
        cases refuser <;> simp only [JoinHook.grounds] at found <;> grind [intended]
      rw [verdict, refused_eq_true]
      exact poll_unlifted distinct (member refuser) invited invexed lifted found
    · have none : ∀ refuser : JoinHook, refuser.grounds facts = false := by
        intro refuser
        simpa using fun found => grounds ⟨refuser, found⟩
      have banned := none .ban
      have denied := none .deny
      have inviteOnly := none .invite
      have badKey := none .key
      have full := none .limit
      simp only [JoinHook.grounds] at banned denied inviteOnly badKey full
      have verdict : facts.intended = false := by grind [intended]
      rw [verdict, refused_eq_false]
      exact poll_unrestricted banned denied inviteOnly badKey full distinct

/-- Away from the clashes every order reaches the intended verdict. -/
theorem refused_eq_intended {order : List JoinHook} (noClash : ¬ facts.Clash)
    (loaded : order.Perm JoinHook.all) : facts.refused order = facts.intended := by
  by_cases lifted : facts.invited = true ∨ facts.invexed = true
  · exact refused_of_lifted noClash loaded lifted
  · exact refused_of_not_lifted noClash loaded (by grind) (by grind)

/-- Dropping the bans brings no clash. -/
theorem not_clash_banned (noClash : ¬ facts.Clash) :
    ¬ Clash { facts with banned := false } := by
  simp only [Clash, ExceptionClash, InvitationClash, InvexClash] at noClash ⊢
  grind

/-- Dropping the invite-only flag brings no clash. -/
theorem not_clash_inviteOnly (noClash : ¬ facts.Clash) :
    ¬ Clash { facts with inviteOnly := false } := by
  simp only [Clash, ExceptionClash, InvitationClash, InvexClash] at noClash ⊢
  grind

/-- With an exception the bans do not count. -/
theorem intended_banned (excepted : facts.excepted = true) :
    intended { facts with banned := false } = facts.intended := by
  simp [intended, excepted]

/-- With an invitation or an invite exception the invite-only flag does not count. -/
theorem intended_inviteOnly (lifted : facts.invited = true ∨ facts.invexed = true) :
    intended { facts with inviteOnly := false } = facts.intended := by
  rcases lifted with invited | invexed <;> simp [intended, *]

/-- The facts on which some order uses the invitation up and refuses all the same. -/
def SpendsInvitation (facts : JoinFacts) : Prop :=
  facts.invited ∧ (facts.banned ∨ facts.denied ∨
    (facts.excepted ∧ (facts.badKey ∨ facts.full ∨ (facts.inviteOnly ∧ facts.invexed))))

instance (facts : JoinFacts) : Decidable facts.SpendsInvitation :=
  inferInstanceAs (Decidable (_ ∧ _))

/-- An invited client is let in by every order, or some order spends the invitation. -/
theorem not_refused_of_invited {order : List JoinHook} (loaded : order.Perm JoinHook.all)
    (invited : facts.invited = true) (saved : ¬ facts.SpendsInvitation) :
    facts.refused order = false := by
  simp only [SpendsInvitation] at saved
  have noClash : ¬ facts.Clash := by
    simp only [Clash, ExceptionClash, InvitationClash, InvexClash]
    grind
  rw [refused_eq_intended noClash loaded]
  grind [intended]

/-- Orders that let in on every clash, one of them at a time. -/
def lenient : List (List JoinHook) :=
  [[.key, .limit, .ban, .deny, .invite, .except, .invex],
    [.ban, .deny, .invite, .invex, .key, .limit, .except],
    [.except, .invite, .ban, .deny, .invex, .key, .limit]]

/-- Orders that refuse on every clash, one of them at a time. -/
def strict : List (List JoinHook) :=
  [[.invex, .except, .invite, .ban, .deny, .key, .limit],
    [.invite, .except, .invex, .ban, .deny, .key, .limit]]

/-- What the orders make of every set of facts. -/
theorem orders_table (facts : JoinFacts) :
    (facts.Clash → (∃ order ∈ strict, facts.refused order = true) ∧
      ∃ order ∈ lenient, facts.refused order = false) ∧
    (facts.SpendsInvitation → ∃ order ∈ strict, facts.refused order = true ∧
      (poll facts order ⟨0, facts.invited⟩).pending = false) := by
  obtain ⟨banned, denied, excepted, invited, invexed, inviteOnly, badKey, full⟩ := facts
  cases banned <;> cases denied <;> cases invited
  all_goals
    revert excepted invexed inviteOnly badKey full
    decide +kernel

/-- On a clash the order decides. -/
theorem strict_and_lenient_of_clash (clash : facts.Clash) :
    (∃ order ∈ strict, facts.refused order = true) ∧
      ∃ order ∈ lenient, facts.refused order = false :=
  facts.orders_table.1 clash

/-- One of the strict orders spends the invitation. -/
theorem strict_of_spendsInvitation (spends : facts.SpendsInvitation) :
    ∃ order ∈ strict, facts.refused order = true ∧
      (poll facts order ⟨0, facts.invited⟩).pending = false :=
  facts.orders_table.2 spends

theorem perm_of_mem_lenient {order : List JoinHook} (member : order ∈ lenient) :
    order.Perm JoinHook.all := by
  have all : ∀ order ∈ lenient, order.Perm JoinHook.all := by decide
  exact all order member

theorem perm_of_mem_strict {order : List JoinHook} (member : order ∈ strict) :
    order.Perm JoinHook.all := by
  have all : ∀ order ∈ strict, order.Perm JoinHook.all := by decide
  exact all order member

end JoinFacts

end Modes

end Chaosircd
