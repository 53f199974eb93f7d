import Chaosircd.MaskCoverage

/-!
# The groups of a mask list

A new entry of a mask list goes behind the first run of entries with the same information hash,
so the entries with one hash stand together.  A new mask takes out the masks that it covers and
bounces at one that covers it, so no mask of a list matches another one.  Both survive removals,
and a full list takes no entry.
-/

namespace Chaosircd

/-! ## Equal elements together -/

section Grouped

variable {α : Type} {a : α} {front rear xs ys : List α}

/-- Between two equal elements there is no other one. -/
def Grouped (xs : List α) : Prop :=
  ∀ a b, [a, b, a].Sublist xs → b = a

theorem Grouped.sublist (grouped : Grouped ys) (sublist : xs.Sublist ys) : Grouped xs :=
  fun a b between => grouped a b (between.trans sublist)

/-- Without equal neighbours, a list makes use of one of two equal neighbours only. -/
theorem sublist_of_doubled (distinct : xs.IsChain (· ≠ ·))
    (sublist : xs.Sublist (front ++ a :: a :: rear)) : xs.Sublist (front ++ a :: rear) := by
  induction front generalizing xs with
  | nil =>
      cases sublist with
      | cons _ skipped => exact skipped
      | cons_cons _ taken =>
          rename_i ys
          cases taken with
          | cons _ skipped => exact skipped.cons_cons a
          | cons_cons _ _ => exact absurd rfl (List.isChain_cons_cons.mp distinct).1
  | cons first front ih =>
      cases sublist with
      | cons _ skipped => exact (ih distinct skipped).cons first
      | cons_cons _ taken => exact (ih distinct.of_cons taken).cons_cons first

/-- An element may be doubled. -/
theorem Grouped.double (grouped : Grouped (front ++ a :: rear)) :
    Grouped (front ++ a :: a :: rear) := by
  intro c b between
  by_contra other
  apply other
  apply grouped c b
  apply sublist_of_doubled _ between
  exact .cons_cons (Ne.symm other) (.cons_cons other (.singleton c))

/-- A new element may stand at the end. -/
theorem Grouped.concat (grouped : Grouped xs) (new : a ∉ xs) : Grouped (xs ++ [a]) := by
  intro c b between
  obtain ⟨first, last, same, inside, end_⟩ := List.sublist_append_iff.mp between
  rcases List.sublist_singleton.mp end_ with rfl | rfl
  · rw [List.append_nil] at same
    exact grouped c b (same ▸ inside)
  · obtain ⟨rfl, last⟩ := List.append_inj' (show [c, b] ++ [c] = first ++ [a] from same) rfl
    have equal : c = a := (List.cons.inj last).1
    exact absurd (inside.subset (equal ▸ List.mem_cons_self)) new

end Grouped

namespace Modes

/-! ## Linking and walking -/

theorem linkByHash_perm (cmiptr : Chanmodeitem) (mlptr : List Chanmodeitem) :
    (linkByHash cmiptr mlptr).Perm (cmiptr :: mlptr) := by
  induction mlptr with
  | nil => exact List.Perm.refl _
  | cons acmiptr mlptr ih =>
      rw [linkByHash]
      split
      · exact List.Perm.swap _ _ _
      · exact (ih.cons acmiptr).trans (List.Perm.swap _ _ _)

/-- A block is linked behind one with its hash, or at the tail where there is none. -/
theorem map_linkByHash (cmiptr : Chanmodeitem) (mlptr : List Chanmodeitem) :
    (cmiptr.ihash ∉ mlptr.map Chanmodeitem.ihash ∧
        (linkByHash cmiptr mlptr).map Chanmodeitem.ihash =
          mlptr.map Chanmodeitem.ihash ++ [cmiptr.ihash]) ∨
      ∃ front rear, mlptr.map Chanmodeitem.ihash = front ++ cmiptr.ihash :: rear ∧
        (linkByHash cmiptr mlptr).map Chanmodeitem.ihash =
          front ++ cmiptr.ihash :: cmiptr.ihash :: rear := by
  induction mlptr with
  | nil => exact .inl ⟨List.not_mem_nil, rfl⟩
  | cons acmiptr mlptr ih =>
      rw [linkByHash]
      split
      case isTrue last =>
        exact .inr ⟨[], mlptr.map Chanmodeitem.ihash, by simp [last.1], by simp [last.1]⟩
      case isFalse further =>
        rcases ih with ⟨new, same⟩ | ⟨front, rear, split_, same⟩
        · left
          have other : acmiptr.ihash ≠ cmiptr.ihash := by
            intro equal
            apply further
            refine ⟨equal, fun next => new ?_⟩
            cases mlptr with
            | nil => cases next
            | cons after mlptr =>
                have hash : after.ihash = cmiptr.ihash := Option.some.inj next
                rw [List.map_cons, hash]
                exact List.mem_cons_self
          rw [List.map_cons, List.map_cons, same]
          exact ⟨List.not_mem_cons_of_ne_of_not_mem (Ne.symm other) new, rfl⟩
        · right
          rw [List.map_cons, List.map_cons, same, split_]
          exact ⟨acmiptr.ihash :: front, rear, rfl, rfl⟩

theorem grouped_linkByHash {cmiptr : Chanmodeitem} {mlptr : List Chanmodeitem}
    (grouped : Grouped (mlptr.map Chanmodeitem.ihash)) :
    Grouped ((linkByHash cmiptr mlptr).map Chanmodeitem.ihash) := by
  rcases map_linkByHash cmiptr mlptr with ⟨new, same⟩ | ⟨front, rear, split_, same⟩
  · rw [same]
    exact grouped.concat new
  · rw [split_] at grouped
    rw [same]
    exact grouped.double

/-- Neither mask matches the other one. -/
def Unrelated (mask mask' : CString) : Prop :=
  strMatch mask mask' = false ∧ strMatch mask' mask = false

/-- What a walk keeps that was not ended is unrelated to the new mask. -/
theorem coverScan_unrelated {arg : CString} {mlptr : List Chanmodeitem}
    (notCovered : (coverScan arg mlptr).covered = false) :
    ∀ cmiptr ∈ (coverScan arg mlptr).kept, Unrelated arg cmiptr.mask := by
  induction mlptr with
  | nil => exact fun _ member => by cases member
  | cons cmiptr mlptr ih =>
      rw [coverScan] at notCovered ⊢
      dsimp only at notCovered ⊢
      split_ifs at notCovered ⊢ with covers covered
      · exact ih notCovered
      · intro other member
        rcases List.mem_cons.mp member with rfl | member
        · exact ⟨Bool.eq_false_of_not_eq_true covers, Bool.eq_false_of_not_eq_true covered⟩
        · exact ih notCovered other member

/-! ## Every list that is reached -/

/-- The entries with one hash stand together, there are not too many of them, no mask matches
another one, and the hash is that of the information. -/
structure WellKept (mlptr : List Chanmodeitem) : Prop where
  grouped : Grouped (mlptr.map Chanmodeitem.ihash)
  size : mlptr.length ≤ maxBans
  unrelated : mlptr.Pairwise fun cmiptr other => Unrelated cmiptr.mask other.mask
  hashed : ∀ cmiptr ∈ mlptr, cmiptr.ihash = strHash cmiptr.info

variable {systime : Nat} {cptr : Client} {chptr : Channel} {cmcptr : Chanmodechange}
  {mlptr left : List Chanmodeitem}

theorem WellKept.nil : WellKept [] where
  grouped := fun _ _ between => by cases between
  size := Nat.zero_le _
  unrelated := .nil
  hashed := fun _ member => by cases member

theorem WellKept.sublist (kept : WellKept mlptr) (sublist : left.Sublist mlptr) :
    WellKept left where
  grouped := kept.grouped.sublist (sublist.map _)
  size := sublist.length_le.trans kept.size
  unrelated := kept.unrelated.sublist sublist
  hashed := fun cmiptr member => kept.hashed cmiptr (sublist.subset member)

/-- The field of an argument holds its mask. -/
theorem mask_maskItem (fits : cmcptr.arg.length ≤ prefixLen) :
    (maskItem systime cptr cmcptr).mask = cmcptr.arg := by
  rw [maskItem]
  dsimp only
  rw [strlcpy]
  exact List.take_of_length_le fits

theorem WellKept.chanmodeMaskAdd (kept : WellKept mlptr)
    (fits : cmcptr.arg.length ≤ prefixLen)
    (unrelated : ∀ cmiptr ∈ mlptr, Unrelated cmcptr.arg cmiptr.mask) :
    WellKept (chanmodeMaskAdd systime cptr mlptr cmcptr).2 := by
  rw [Modes.chanmodeMaskAdd]
  split
  case isTrue => exact kept
  case isFalse room =>
    have perm := linkByHash_perm (maskItem systime cptr cmcptr) mlptr
    have size := kept.size
    refine ⟨grouped_linkByHash kept.grouped, ?_, ?_, ?_⟩
    · rw [perm.length_eq, List.length_cons]
      omega
    · rw [perm.pairwise_iff fun both => ⟨both.2, both.1⟩, List.pairwise_cons, mask_maskItem fits]
      exact ⟨unrelated, kept.unrelated⟩
    · intro cmiptr member
      rcases List.mem_cons.mp (perm.subset member) with rfl | old
      · rfl
      · exact kept.hashed cmiptr old

/-- A change to the list of its mode keeps all lists. -/
theorem wellKept_setList (kept : ∀ letter, WellKept (chptr.modelists letter)) {letter : Char}
    (changed : WellKept mlptr) (other : Char) :
    WellKept ((chptr.setList letter mlptr).modelists other) := by
  rw [Channel.setList]
  dsimp only
  split
  · exact changed
  · exact kept other

theorem wellKept_chanmodeBounceMask (kept : ∀ letter, WellKept (chptr.modelists letter))
    (fits : cmcptr.arg.length ≤ prefixLen) (letter : Char) :
    WellKept ((chanmodeBounceMask systime cptr chptr cmcptr).chptr.modelists letter) := by
  have old := kept cmcptr.mode.letter
  rw [chanmodeBounceMask]
  cases what : cmcptr.what with
  | query => exact kept letter
  | del =>
      apply wellKept_setList kept
      exact old.sublist List.filter_sublist
  | add =>
      have walked := old.sublist (coverScan_kept cmcptr.arg _)
      dsimp only
      split
      case isTrue => exact wellKept_setList kept walked letter
      case isFalse notCovered =>
        apply wellKept_setList kept
        apply walked.chanmodeMaskAdd fits
        exact coverScan_unrelated (Bool.eq_false_of_not_eq_true notCovered)

/-- The channels after additions and removals, from one with empty lists on.  An argument is
never longer than its field. -/
inductive MasksReach : Channel → Prop where
  | created {chptr : Channel} (empty : ∀ letter, chptr.modelists letter = []) : MasksReach chptr
  | bounced {chptr : Channel} (reach : MasksReach chptr) (systime : Nat) (cptr : Client)
      (cmcptr : Chanmodechange) (fits : cmcptr.arg.length ≤ prefixLen) :
      MasksReach (chanmodeBounceMask systime cptr chptr cmcptr).chptr

/-- Every mask list that is reached is well kept, and so is what removals leave of it. -/
theorem wellKept_of_masksReach (reach : MasksReach chptr) (letter : Char)
    (removed : left.Sublist (chptr.modelists letter)) : WellKept left := by
  have kept : ∀ letter, WellKept (chptr.modelists letter) := by
    clear removed
    induction reach with
    | created empty =>
        intro letter
        rw [empty]
        exact .nil
    | bounced _ systime cptr cmcptr fits ih =>
        exact wellKept_chanmodeBounceMask ih fits
  exact (kept letter).sublist removed

theorem wellKept_of_masksReach_ban :
    WellKept ((chanmodeBounceMask 1 visitor openChannel (banOf "*!*@*")).chptr.modelists 'b') :=
  wellKept_of_masksReach
    (.bounced (.created fun _ => rfl) 1 visitor (banOf "*!*@*") (by decide)) 'b'
    (List.Sublist.refl _)

/-! ## The lists behind `MODE` -/

/-- The ban that is put together out of an argument fits the field it goes to. -/
theorem length_normalChange_arg (cmcptr : Chanmodechange) :
    (normalChange cmcptr).arg.length ≤ prefixLen :=
  Nat.le_of_lt_succ (strlcpy_length_lt _ (Nat.succ_pos prefixLen))

theorem wellKept_chanmodeBounceBan (kept : ∀ letter, WellKept (chptr.modelists letter))
    (fits : cmcptr.arg.length ≤ prefixLen) (letter : Char) :
    WellKept ((chanmodeBounceBan systime cptr chptr cmcptr).chptr.modelists letter) := by
  by_cases isAdd : cmcptr.what = .add
  · rw [chanmodeBounceBan_add isAdd]
    apply wellKept_chanmodeBounceMask kept
    exact length_normalChange_arg cmcptr
  · have same : chanmodeBounceBan systime cptr chptr cmcptr =
        chanmodeBounceMask systime cptr chptr cmcptr := by
      cases what : cmcptr.what with
      | add => exact absurd what isAdd
      | del => simp only [chanmodeBounceBan, what]
      | query => simp only [chanmodeBounceBan, what]
    rw [same]
    exact wellKept_chanmodeBounceMask kept fits letter

theorem wellKept_callback (kept : ∀ letter, WellKept (chptr.modelists letter))
    (fits : cmcptr.arg.length ≤ prefixLen) (letter : Char) :
    WellKept ((callback systime cptr chptr cmcptr).chptr.modelists letter) := by
  by_cases ban : cmcptr.mode.cb = .chanmodeBounceBan
  · rw [callback, ban]
    exact wellKept_chanmodeBounceBan kept fits letter
  by_cases mask : cmcptr.mode.cb = .chanmodeBounceMask
  · rw [callback, mask]
    exact wellKept_chanmodeBounceMask kept fits letter
  · rw [callback_modelists ban mask]
    exact kept letter

theorem wellKept_applyOne {source : Source} {state : Applied}
    (kept : ∀ letter, WellKept (state.chptr.modelists letter))
    (fits : cmcptr.arg.length ≤ prefixLen) (letter : Char) :
    WellKept ((applyOne systime source state cmcptr).chptr.modelists letter) := by
  rw [applyOne]
  split
  · exact kept letter
  · dsimp only
    split
    · exact wellKept_callback kept fits letter
    · exact wellKept_callback kept fits letter

theorem wellKept_chanmodeApply {source : Source} {changes : List Chanmodechange}
    (kept : ∀ letter, WellKept (chptr.modelists letter))
    (fits : ∀ cmcptr ∈ changes, cmcptr.arg.length ≤ prefixLen) (letter : Char) :
    WellKept ((chanmodeApply systime source chptr changes).chptr.modelists letter) := by
  have start : ∀ letter, WellKept ((⟨chptr, []⟩ : Applied).chptr.modelists letter) := kept
  rw [chanmodeApply]
  generalize (⟨chptr, []⟩ : Applied) = state at start
  induction changes generalizing state with
  | nil => exact start letter
  | cons cmcptr changes ih =>
      rw [List.forall_mem_cons] at fits
      exact ih fits.2 _ (wellKept_applyOne start fits.1)

/-- The channels after lists of changes, each from some source, from a channel with empty lists
on. -/
inductive ModesReach : Channel → Prop where
  | created {chptr : Channel} (empty : ∀ letter, chptr.modelists letter = []) : ModesReach chptr
  | applied {chptr : Channel} (reach : ModesReach chptr) (systime : Nat) (source : Source)
      (changes : List Chanmodechange)
      (fits : ∀ cmcptr ∈ changes, cmcptr.arg.length ≤ prefixLen) :
      ModesReach (chanmodeApply systime source chptr changes).chptr

/-- Whoever changes the modes of a channel, its mask lists are well kept. -/
theorem wellKept_of_modesReach (reach : ModesReach chptr) :
    ∀ letter, WellKept (chptr.modelists letter) := by
  induction reach with
  | created empty =>
      intro letter
      rw [empty]
      exact .nil
  | applied _ systime source changes fits ih => exact wellKept_chanmodeApply ih fits

theorem wellKept_of_modesReach_bans :
    WellKept ((chanmodeApply 1 hub openChannel
      [banOf "a*!*@*", banOf "*!*@*"]).chptr.modelists 'b') :=
  wellKept_of_modesReach
    (.applied (.created fun _ => rfl) 1 hub [banOf "a*!*@*", banOf "*!*@*"] (by decide)) 'b'

end Modes

end Chaosircd
