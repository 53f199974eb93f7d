import Chaosircd.ModeLines

/-!
# Channel modes: what a bounced change leaves behind

A callback that refuses a change should not have touched the channel.  The lists
are the deliberate exception: the masks that a new mask makes superfluous, and
those that a removal means, are taken out and announced by explicit removals,
while the change that was asked for bounces.  Nothing else of the channel
changes, and the bounced change itself shows in no line.  The setting of another
key on a channel that has one is left out here.
-/

namespace Chaosircd

namespace Modes

/-- A key is set on a channel that has another one. -/
def ReplacesKey (chptr : Channel) (cmcptr : Chanmodechange) : Prop :=
  cmcptr.mode.cb = .cmKeyBounce ∧ cmcptr.what = .add ∧ cmcptr.arg ≠ [] ∧
    cmcptr.mode.letter ∈ chptr.modes ∧ chptr.key ≠ cmcptr.arg.take keyLen

instance (chptr : Channel) (cmcptr : Chanmodechange) :
    Decidable (ReplacesKey chptr cmcptr) :=
  inferInstanceAs (Decidable (_ ∧ _))

/-- The channel is as before, except that its list of this mode has lost the masks for
which explicit removals were inserted. -/
structure OnlyAnnounced (mode : Chanmode) (before after : Channel)
    (inserted : List Chanmodechange) : Prop where
  modes : after.modes = before.modes
  key : after.key = before.key
  limit : after.limit = before.limit
  members : after.chanusers = before.chanusers
  invites : after.invites = before.invites
  otherLists : ∀ letter, letter ≠ mode.letter →
    after.modelists letter = before.modelists letter
  ownList : (after.modelists mode.letter).Sublist (before.modelists mode.letter)
  announced : ∃ lost : List Chanmodeitem, inserted = lost.map (explicitDel mode) ∧
    (after.modelists mode.letter ++ lost).Perm (before.modelists mode.letter)

theorem OnlyAnnounced.refl (mode : Chanmode) (chptr : Channel) :
    OnlyAnnounced mode chptr chptr [] where
  modes := rfl
  key := rfl
  limit := rfl
  members := rfl
  invites := rfl
  otherLists _ _ := rfl
  ownList := List.Sublist.refl _
  announced := ⟨[], rfl, by simp⟩

/-- A list that lost some of its entries. -/
theorem OnlyAnnounced.of_setList (mode : Chanmode) {chptr : Channel}
    {kept lost : List Chanmodeitem} (shrunk : kept.Sublist (chptr.modelists mode.letter))
    (split : (kept ++ lost).Perm (chptr.modelists mode.letter)) :
    OnlyAnnounced mode chptr (chptr.setList mode.letter kept)
      (lost.map (explicitDel mode)) where
  modes := rfl
  key := rfl
  limit := rfl
  members := rfl
  invites := rfl
  otherLists letter other := by simp [Channel.setList, other]
  ownList := by simpa [Channel.setList] using shrunk
  announced := ⟨lost, rfl, by simpa [Channel.setList] using split⟩

/-! ## One callback after the other -/

section Callbacks

variable {systime : Nat} {cptr : Client} {chptr : Channel} {cmcptr : Chanmodechange}

/-- What a callback that refused has done. -/
def Harmless (chptr : Channel) (cmcptr : Chanmodechange) (b : Bounce) : Prop :=
  (b.ret = 1 ∨ b.ret = -2) ∧ b.cmcptr.mode = cmcptr.mode ∧ b.cmcptr.what = cmcptr.what ∧
    OnlyAnnounced cmcptr.mode chptr b.chptr b.inserted

theorem harmless_refuse : Harmless chptr cmcptr (refuse 1 chptr cmcptr) :=
  ⟨Or.inl rfl, rfl, rfl, OnlyAnnounced.refl _ _⟩

theorem chanmodeBounceSimple_harmless
    (refused : (chanmodeBounceSimple chptr cmcptr).ret ≠ 0) :
    Harmless chptr cmcptr (chanmodeBounceSimple chptr cmcptr) := by
  cases what : cmcptr.what with
  | query => simp [chanmodeBounceSimple, what] at refused
  | add =>
      by_cases isSet : cmcptr.mode.letter ∈ chptr.modes
      · have result : chanmodeBounceSimple chptr cmcptr = refuse 1 chptr cmcptr := by
          simp [chanmodeBounceSimple, what, isSet]
        rw [result]
        exact harmless_refuse
      · simp [chanmodeBounceSimple, what, isSet] at refused
  | del =>
      by_cases isSet : cmcptr.mode.letter ∈ chptr.modes
      · simp [chanmodeBounceSimple, what, isSet] at refused
      · have result : chanmodeBounceSimple chptr cmcptr = refuse 1 chptr cmcptr := by
          simp [chanmodeBounceSimple, what, isSet]
        rw [result]
        exact harmless_refuse

theorem cmInviteBounce_harmless (refused : (cmInviteBounce chptr cmcptr).ret ≠ 0) :
    Harmless chptr cmcptr (cmInviteBounce chptr cmcptr) := by
  cases what : cmcptr.what with
  | query =>
      simp only [cmInviteBounce, what] at refused ⊢
      exact chanmodeBounceSimple_harmless refused
  | add =>
      simp only [cmInviteBounce, what] at refused ⊢
      exact chanmodeBounceSimple_harmless refused
  | del =>
      by_cases isSet : cmcptr.mode.letter ∈ chptr.modes
      · simp [cmInviteBounce, chanmodeBounceSimple, what, isSet] at refused
      · have result : cmInviteBounce chptr cmcptr = refuse 1 chptr cmcptr := by
          simp [cmInviteBounce, what, isSet]
        rw [result]
        exact harmless_refuse

theorem cmKeyBounce_harmless (keyMode : cmcptr.mode.cb = .cmKeyBounce)
    (sameKey : ¬ ReplacesKey chptr cmcptr) (refused : (cmKeyBounce chptr cmcptr).ret ≠ 0) :
    Harmless chptr cmcptr (cmKeyBounce chptr cmcptr) := by
  cases what : cmcptr.what with
  | query =>
      simp only [cmKeyBounce, what] at refused ⊢
      exact chanmodeBounceSimple_harmless refused
  | add =>
      by_cases missing : cmcptr.arg = []
      · have result : cmKeyBounce chptr cmcptr = refuse 1 chptr cmcptr := by
          simp [cmKeyBounce, what, missing]
        rw [result]
        exact harmless_refuse
      · -- with the flag set the key is the same one, and is accepted again
        by_cases isSet : cmcptr.mode.letter ∈ chptr.modes
        · have equal : chptr.key = cmcptr.arg.take keyLen := by
            by_contra other
            exact sameKey ⟨keyMode, what, missing, isSet, other⟩
          simp [cmKeyBounce, chanmodeBounceSimple, what, missing, isSet, equal] at refused
        · simp [cmKeyBounce, chanmodeBounceSimple, what, missing, isSet] at refused
  | del =>
      by_cases isSet : cmcptr.mode.letter ∈ chptr.modes
      · simp [cmKeyBounce, chanmodeBounceSimple, what, isSet] at refused
      · have result : cmKeyBounce chptr cmcptr = refuse 1 chptr cmcptr := by
          simp [cmKeyBounce, what, isSet]
        rw [result]
        exact harmless_refuse

theorem cmLimitBounce_harmless (refused : (cmLimitBounce chptr cmcptr).ret ≠ 0) :
    Harmless chptr cmcptr (cmLimitBounce chptr cmcptr) := by
  cases what : cmcptr.what with
  | query =>
      simp only [cmLimitBounce, what] at refused ⊢
      exact chanmodeBounceSimple_harmless refused
  | add =>
      by_cases invalid : strToul cmcptr.arg = 2 ^ 64 - 1 ∨ strToul cmcptr.arg = 0
      · have result : cmLimitBounce chptr cmcptr = refuse 1 chptr cmcptr := by
          simp only [cmLimitBounce, what, if_pos invalid]
        rw [result]
        exact harmless_refuse
      · by_cases isSet : cmcptr.mode.letter ∈ chptr.modes
        · by_cases equal : chptr.limit = strToul cmcptr.arg
          · -- the limit is written again, but it is the same
            have result : cmLimitBounce chptr cmcptr = refuse 1 chptr cmcptr := by
              simp only [cmLimitBounce, what, if_neg invalid, isSet, equal, ne_eq,
                not_true_eq_false, and_false, if_false, chanmodeBounceSimple, if_true]
              rw [← equal]
            rw [result]
            exact harmless_refuse
          · simp only [cmLimitBounce, what, if_neg invalid] at refused
            simp [chanmodeBounceSimple, what, isSet, equal] at refused
        · simp only [cmLimitBounce, what, if_neg invalid] at refused
          simp [chanmodeBounceSimple, what, isSet] at refused
  | del =>
      by_cases isSet : cmcptr.mode.letter ∈ chptr.modes
      · simp [cmLimitBounce, chanmodeBounceSimple, what, isSet] at refused
      · have result : cmLimitBounce chptr cmcptr = refuse 1 chptr cmcptr := by
          simp [cmLimitBounce, what, isSet]
        rw [result]
        exact harmless_refuse

theorem chanuserModeBounce_harmless (refused : (chanuserModeBounce chptr cmcptr).ret ≠ 0) :
    Harmless chptr cmcptr (chanuserModeBounce chptr cmcptr) := by
  have result : chanuserModeBounce chptr cmcptr = refuse 1 chptr cmcptr := by
    unfold chanuserModeBounce at refused ⊢
    split at refused
    · exact absurd rfl refused
    · split at refused
      · rfl
      · split_ifs at refused ⊢
        · exact absurd rfl refused
        · rfl
    · split at refused
      · rfl
      · split_ifs at refused ⊢
        · rfl
        · exact absurd rfl refused
  rw [result]
  exact harmless_refuse

/-! ### Mask lists -/

theorem coverScan_kept (arg : CString) (mlptr : List Chanmodeitem) :
    (coverScan arg mlptr).kept.Sublist mlptr := by
  induction mlptr with
  | nil => exact List.Sublist.refl _
  | cons cmiptr mlptr ih =>
      rw [coverScan]
      dsimp only
      split_ifs
      · exact List.Sublist.refl _
      · exact ih.cons _
      · exact ih.cons_cons _

theorem coverScan_perm (arg : CString) (mlptr : List Chanmodeitem) :
    ((coverScan arg mlptr).kept ++ (coverScan arg mlptr).lost).Perm mlptr := by
  induction mlptr with
  | nil => exact List.Perm.refl _
  | cons cmiptr mlptr ih =>
      rw [coverScan]
      dsimp only
      split_ifs
      · simp
      · exact List.perm_middle.trans (ih.cons _)
      · exact ih.cons _

theorem chanmodeBounceMask_harmless
    (refused : (chanmodeBounceMask systime cptr chptr cmcptr).ret ≠ 0) :
    Harmless chptr cmcptr (chanmodeBounceMask systime cptr chptr cmcptr) := by
  cases what : cmcptr.what with
  | query => simp [chanmodeBounceMask, what] at refused
  | add =>
      have kept := coverScan_kept cmcptr.arg (chptr.modelists cmcptr.mode.letter)
      have split := coverScan_perm cmcptr.arg (chptr.modelists cmcptr.mode.letter)
      simp only [chanmodeBounceMask, what] at refused ⊢
      split_ifs at refused ⊢
      · exact ⟨Or.inl rfl, rfl, rfl, OnlyAnnounced.of_setList _ kept split⟩
      · -- the list is full, and nothing has been linked
        rw [chanmodeMaskAdd] at refused ⊢
        split_ifs at refused ⊢
        · exact ⟨Or.inr rfl, rfl, rfl, OnlyAnnounced.of_setList _ kept split⟩
        · exact absurd rfl refused
  | del =>
      simp only [chanmodeBounceMask, what]
      refine ⟨Or.inl rfl, rfl, rfl, OnlyAnnounced.of_setList _ List.filter_sublist ?_⟩
      refine List.perm_append_comm.trans ?_
      simpa using List.filter_append_perm
        (fun cmiptr => decide (Comparable cmcptr.arg cmiptr))
        (chptr.modelists cmcptr.mode.letter)

theorem chanmodeBounceBan_harmless
    (refused : (chanmodeBounceBan systime cptr chptr cmcptr).ret ≠ 0) :
    Harmless chptr cmcptr (chanmodeBounceBan systime cptr chptr cmcptr) := by
  cases what : cmcptr.what with
  | query =>
      simp only [chanmodeBounceBan, what] at refused ⊢
      exact chanmodeBounceMask_harmless refused
  | add =>
      simp only [chanmodeBounceBan, what] at refused ⊢
      obtain ⟨ret, mode, direction, only⟩ := chanmodeBounceMask_harmless refused
      exact ⟨ret, mode, direction.trans what.symm, only⟩
  | del =>
      simp only [chanmodeBounceBan, what] at refused ⊢
      exact chanmodeBounceMask_harmless refused

/-- Every callback that refuses is harmless, the key apart. -/
theorem callback_harmless (sameKey : ¬ ReplacesKey chptr cmcptr)
    (refused : (callback systime cptr chptr cmcptr).ret ≠ 0) :
    Harmless chptr cmcptr (callback systime cptr chptr cmcptr) := by
  cases cb : cmcptr.mode.cb <;> simp only [callback, cb] at refused ⊢
  · exact chanmodeBounceSimple_harmless refused
  · exact chanmodeBounceSimple_harmless refused
  · exact cmInviteBounce_harmless refused
  · exact cmKeyBounce_harmless cb sameKey refused
  · exact cmLimitBounce_harmless refused
  · exact chanmodeBounceBan_harmless refused
  · exact chanmodeBounceMask_harmless refused
  · exact chanuserModeBounce_harmless refused

end Callbacks

/-! ## In the walk over the changes -/

section Walk

variable {systime : Nat} {source : Source}

theorem chanmodeApply_append (chptr : Channel) (before behind : List Chanmodechange) :
    chanmodeApply systime source chptr (before ++ behind) =
      behind.foldl (applyOne systime source) (chanmodeApply systime source chptr before) :=
  List.foldl_append

theorem foldl_applyOne_changes (changes : List Chanmodechange) (state : Applied) :
    ∃ later, (changes.foldl (applyOne systime source) state).changes =
      state.changes ++ later := by
  induction changes generalizing state with
  | nil => exact ⟨[], (List.append_nil _).symm⟩
  | cons cmcptr changes ih =>
      obtain ⟨later, tail⟩ := ih (applyOne systime source state cmcptr)
      have one : ∃ own, (applyOne systime source state cmcptr).changes =
          state.changes ++ own := by
        rw [applyOne]
        dsimp only
        split_ifs
        · exact ⟨_, rfl⟩
        · exact ⟨_, List.append_assoc ..⟩
        · exact ⟨_, List.append_assoc ..⟩
      obtain ⟨own, head⟩ := one
      refine ⟨own ++ later, ?_⟩
      rw [List.foldl_cons, tail, head, List.append_assoc]

/-- One turn of the walk at a change that is refused. -/
theorem applyOne_of_refused {state : Applied} {cmcptr : Chanmodechange}
    (refused : (callback systime source.cptr state.chptr cmcptr).ret ≠ 0)
    (sameKey : ¬ ReplacesKey state.chptr cmcptr) :
    ∃ inserted bounced, (applyOne systime source state cmcptr).changes =
        state.changes ++ inserted ++ [bounced] ∧
      bounced.mode = cmcptr.mode ∧ bounced.what = cmcptr.what ∧ bounced.bounced ≠ 0 ∧
      OnlyAnnounced cmcptr.mode state.chptr (applyOne systime source state cmcptr).chptr
        inserted := by
  by_cases unprivileged : source.Unprivileged state.chptr cmcptr
  · -- the callback is not even called
    refine ⟨[], { cmcptr with bounced := cmcptr.bounced + 1 }, ?_, rfl, rfl,
      Nat.succ_ne_zero _, ?_⟩
    · rw [applyOne, if_pos unprivileged, List.append_nil]
    · rw [applyOne, if_pos unprivileged]
      exact OnlyAnnounced.refl _ _
  · obtain ⟨ret, mode, what, only⟩ := callback_harmless sameKey refused
    have bounces : (callback systime source.cptr state.chptr cmcptr).ret = -2 ∨
        (callback systime source.cptr state.chptr cmcptr).ret = -1 ∨
        (callback systime source.cptr state.chptr cmcptr).ret = 1 ∨
        (cmcptr.what = .query ∧ cmcptr.bounced = 0) := by
      rcases ret with ret | ret <;> simp [ret]
    refine ⟨(callback systime source.cptr state.chptr cmcptr).inserted,
      { (callback systime source.cptr state.chptr cmcptr).cmcptr with
        bounced := (callback systime source.cptr state.chptr cmcptr).cmcptr.bounced + 1 },
      ?_, mode, what, Nat.succ_ne_zero _, ?_⟩
    · rw [applyOne, if_neg unprivileged]
      dsimp only
      rw [if_pos bounces]
    · rw [applyOne, if_neg unprivileged]
      dsimp only
      rw [if_pos bounces]
      exact only

end Walk

/-- A change that its callback refuses leaves mode bits, key, limit, member flags and the
other lists as they were, its own list loses exactly the masks announced by explicit
removals in front of it, and no line of the walk shows it. -/
theorem refused_change_has_no_effect (systime : Nat) (source : Source) (chptr : Channel)
    (before behind : List Chanmodechange) (cmcptr : Chanmodechange)
    (refused : (callback systime source.cptr
      (chanmodeApply systime source chptr before).chptr cmcptr).ret ≠ 0)
    (sameKey : ¬ ReplacesKey (chanmodeApply systime source chptr before).chptr cmcptr) :
    ∃ inserted bounced later,
      OnlyAnnounced cmcptr.mode (chanmodeApply systime source chptr before).chptr
        (chanmodeApply systime source chptr (before ++ [cmcptr])).chptr inserted ∧
      bounced.mode = cmcptr.mode ∧ bounced.what = cmcptr.what ∧ bounced.bounced ≠ 0 ∧
      (chanmodeApply systime source chptr (before ++ cmcptr :: behind)).changes =
        (chanmodeApply systime source chptr before).changes ++ inserted ++
          bounced :: later ∧
      ∀ (cptr : Client) (shown : Channel),
        (∀ n, 0 < n →
          chanmodeSendLocal cptr shown
              (chanmodeApply systime source chptr (before ++ cmcptr :: behind)).changes n =
            chanmodeSendLocal cptr shown
              ((chanmodeApply systime source chptr before).changes ++ inserted ++ later)
              n) ∧
        chanmodeSendRemote cptr shown
            (chanmodeApply systime source chptr (before ++ cmcptr :: behind)).changes =
          chanmodeSendRemote cptr shown
            ((chanmodeApply systime source chptr before).changes ++ inserted ++ later) := by
  obtain ⟨inserted, bounced, turn, mode, what, marked, only⟩ :=
    applyOne_of_refused refused sameKey
  obtain ⟨later, rest⟩ := @foldl_applyOne_changes systime source behind
    (applyOne systime source (chanmodeApply systime source chptr before) cmcptr)
  have whole : (chanmodeApply systime source chptr (before ++ cmcptr :: behind)).changes =
      (chanmodeApply systime source chptr before).changes ++ inserted ++ bounced :: later := by
    rw [chanmodeApply_append, List.foldl_cons, rest, turn]
    simp only [List.append_assoc, List.singleton_append]
  have same : unbounced
      (chanmodeApply systime source chptr (before ++ cmcptr :: behind)).changes =
      unbounced ((chanmodeApply systime source chptr before).changes ++ inserted ++ later) := by
    simp only [whole, unbounced_append, unbounced_cons_of_ne marked]
  refine ⟨inserted, bounced, later, ?_, mode, what, marked, whole, ?_⟩
  · have single : chanmodeApply systime source chptr (before ++ [cmcptr]) =
        applyOne systime source (chanmodeApply systime source chptr before) cmcptr :=
      chanmodeApply_append chptr before [cmcptr]
    rw [single]
    exact only
  · intro cptr shown
    exact ⟨fun n positive => chanmodeSendLocal_congr cptr shown positive same,
      chanmodeSendRemote_congr cptr shown same⟩

/-! ### Removing a ban -/

/-- The mode `b`. -/
def banMode : Chanmode where
  letter := 'b'
  type := .list
  need := {'o', 'h'}
  cb := .chanmodeBounceBan

/-- A server that changes modes. -/
def hub : Source where
  cptr :=
    { id := 1
      isUser := false
      isLocal := false
      name := "hub".toList
      user := none
      host := "hub".toList
      hostreal := "hub".toList
      hostip := "10.0.0.9".toList
      info := "hub".toList }
  cuptr := false

/-- One ban. -/
def spammer : Chanmodeitem where
  mask := "spam!*@*".toList
  nmask := "spam".toList
  umask := "*".toList
  hmask := "*".toList
  info := "hub".toList
  ts := 1
  ihash := strHash "hub".toList

/-- A channel with one ban. -/
def bannedChannel : Channel where
  id := 0
  name := "#c".toList
  modes := {'n'}
  key := []
  limit := 0
  modelists := fun letter => if letter = 'b' then [spammer] else []
  chanusers := [⟨7, {'o'}⟩]
  invites := ∅

/-- `-b *!*@*`. -/
def unbanAll : Chanmodechange where
  mode := banMode
  what := .del
  acptr := none
  bounced := 0
  ts := 0
  nmask := none
  umask := none
  hmask := none
  info := []
  arg := "*!*@*".toList

/-- The removal bounces, and the ban is gone all the same. -/
theorem refused_removal_empties_list :
    (callback 1 hub.cptr bannedChannel unbanAll).ret ≠ 0 ∧
      (chanmodeApply 1 hub bannedChannel [unbanAll]).chptr.modelists 'b' ≠
        bannedChannel.modelists 'b' := by
  decide

theorem refused_change_has_no_effect_of_removal :
    ∃ inserted bounced later,
      OnlyAnnounced banMode (chanmodeApply 1 hub bannedChannel []).chptr
        (chanmodeApply 1 hub bannedChannel ([] ++ [unbanAll])).chptr inserted ∧
      bounced.mode = banMode ∧ bounced.what = .del ∧ bounced.bounced ≠ 0 ∧
      (chanmodeApply 1 hub bannedChannel ([] ++ unbanAll :: [])).changes =
        (chanmodeApply 1 hub bannedChannel []).changes ++ inserted ++ bounced :: later ∧
      ∀ (cptr : Client) (shown : Channel),
        (∀ n, 0 < n →
          chanmodeSendLocal cptr shown
              (chanmodeApply 1 hub bannedChannel ([] ++ unbanAll :: [])).changes n =
            chanmodeSendLocal cptr shown
              ((chanmodeApply 1 hub bannedChannel []).changes ++ inserted ++ later) n) ∧
        chanmodeSendRemote cptr shown
            (chanmodeApply 1 hub bannedChannel ([] ++ unbanAll :: [])).changes =
          chanmodeSendRemote cptr shown
            ((chanmodeApply 1 hub bannedChannel []).changes ++ inserted ++ later) :=
  refused_change_has_no_effect 1 hub bannedChannel [] [] unbanAll (by decide) (by decide)

end Modes

end Chaosircd
