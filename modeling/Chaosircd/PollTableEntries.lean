import Chaosircd.PollTable
import Chaosircd.TransitionSystem

/-!
# Entries and indices

The entries of the poll array and the registered descriptors should be in one to
one correspondence.  Removing an entry keeps this, unless descriptor 0 stands
behind it: the loop of `io_remove_fd` writes no new index for that descriptor.
-/

namespace Chaosircd

namespace PollTable

namespace State

/-- The entries and the registered descriptors point at each other, and an entry waits for
the events that its descriptor asks for. -/
structure Sound (s : State) : Prop where
  indexed : ∀ fd ∈ s.registered, ∃ i < s.ioCount,
    (s.ioList fd).index = i ∧ (s.ioPfds i).fd = fd
  entries : ∀ i < s.ioCount, ∃ fd ∈ s.registered,
    (s.ioPfds i).fd = fd ∧ (s.ioList fd).index = i
  requested : ∀ i < s.ioCount, ∀ fd : Nat, (s.ioPfds i).fd = fd →
    (s.ioPfds i).events = pollMask (s.ioList fd).events

/-- What holds between the operations: besides, there are as many entries as registered
descriptors, and the index of any other descriptor is minus one or zero. -/
structure Good (s : State) : Prop extends Sound s where
  card : s.ioCount = s.registered.card
  small : ∀ fd ∈ s.registered, fd < ioMaxFds
  live : ∀ fd ∈ s.registered, (s.ioList fd).closed = false ∧ (s.ioList fd).dead = false ∧
    (s.ioList fd).type ≠ none
  idle : ∀ fd ∉ s.registered,
    ((s.ioList fd).index = -1 ∧ (s.ioList fd).closed = true ∧ (s.ioList fd).dead = false) ∨
      ((s.ioList fd).index = 0 ∧ (s.ioList fd).type = none)

theorem good_boot : boot.Good := by
  refine ⟨⟨by simp [boot], by simp [boot], by simp [boot]⟩, rfl, by simp [boot],
    by simp [boot], ?_⟩
  intro fd _
  exact Or.inr ⟨rfl, rfl⟩

section

variable {s : State} {fd : Nat}

theorem Sound.of_entry (sound : s.Sound) {i : Nat} (inside : i < s.ioCount)
    (isEntry : (s.ioPfds i).fd = fd) : fd ∈ s.registered ∧ (s.ioList fd).index = i := by
  obtain ⟨owner, registered, isOwner, index⟩ := sound.entries i inside
  rw [isEntry] at isOwner
  obtain rfl : fd = owner := by exact_mod_cast isOwner
  exact ⟨registered, index⟩

theorem Good.count_le (good : s.Good) : s.ioCount ≤ ioMaxFds := by
  have subset : s.registered ⊆ Finset.range ioMaxFds := by
    intro fd registered
    rw [Finset.mem_range]
    exact good.small fd registered
  have bounded := Finset.card_le_card subset
  rw [Finset.card_range] at bounded
  rw [good.card]
  exact bounded

theorem Good.count_lt (good : s.Good) (small : fd < ioMaxFds) (fresh : fd ∉ s.registered) :
    s.ioCount < ioMaxFds := by
  have subset : insert fd s.registered ⊆ Finset.range ioMaxFds := by
    intro other member
    rw [Finset.mem_range]
    rcases Finset.mem_insert.mp member with rfl | registered
    · exact small
    · exact good.small other registered
  have bounded := Finset.card_le_card subset
  rw [Finset.card_range, Finset.card_insert_of_notMem fresh, ← good.card] at bounded
  exact bounded

/-- A sound table has no fewer entries than registered descriptors. -/
theorem Sound.card_le (sound : s.Sound) : s.registered.card ≤ s.ioCount := by
  have placed : ∀ fd ∈ s.registered, ∃ i < s.ioCount, (s.ioPfds i).fd = fd := by
    intro fd registered
    obtain ⟨i, inside, -, isEntry⟩ := sound.indexed fd registered
    exact ⟨i, inside, isEntry⟩
  choose! place inside isEntry using placed
  have injective : Set.InjOn place s.registered := by
    intro first isFirst second isSecond same
    have sameEntry := isEntry first isFirst
    rw [same, isEntry second isSecond] at sameEntry
    exact_mod_cast sameEntry.symm
  have bounded := Finset.card_le_card_of_injOn place
    (fun fd registered => Finset.mem_coe.mpr (Finset.mem_range.mpr (inside fd registered)))
    injective
  rw [Finset.card_range] at bounded
  exact bounded

/-! ## The loop of `io_remove_fd` -/

section Shift

variable {turns index : Nat}

theorem moveDown_ioPfds (s : State) (index : Nat) :
    (s.moveDown index).ioPfds = Function.update s.ioPfds index (s.ioPfds (index + 1)) := by
  rw [moveDown]
  split_ifs <;> rfl

theorem moveDown_ioList_of_ne (other : fd = 0 ∨ (s.ioPfds (index + 1)).fd ≠ fd) :
    (s.moveDown index).ioList fd = s.ioList fd := by
  rw [moveDown]
  dsimp only
  split_ifs with positive
  · refine Function.update_of_ne ?_ _ _
    rintro rfl
    rcases other with isZero | other
    · omega
    · exact other (Int.toNat_of_nonneg (Int.le_of_lt positive)).symm
  · rfl

@[simp]
theorem shiftDown_ioCount (turns : Nat) (s : State) (index : Nat) :
    (shiftDown turns s index).ioCount = s.ioCount := by
  induction turns generalizing s index with
  | zero => rfl
  | succ turns ih =>
      rw [shiftDown, ih, moveDown]
      split_ifs <;> rfl

@[simp]
theorem shiftDown_registered (turns : Nat) (s : State) (index : Nat) :
    (shiftDown turns s index).registered = s.registered := by
  induction turns generalizing s index with
  | zero => rfl
  | succ turns ih =>
      rw [shiftDown, ih, moveDown]
      split_ifs <;> rfl

theorem shiftDown_ioPfds (turns : Nat) (s : State) (index j : Nat) :
    (shiftDown turns s index).ioPfds j =
      if index ≤ j ∧ j < index + turns then s.ioPfds (j + 1) else s.ioPfds j := by
  induction turns generalizing s index with
  | zero =>
      rw [shiftDown, if_neg]
      omega
  | succ turns ih =>
      rw [shiftDown, ih, moveDown_ioPfds]
      by_cases first : j = index
      · subst first
        rw [if_neg (by omega), if_pos (by omega), Function.update_self]
      · by_cases inside : index ≤ j ∧ j < index + (turns + 1)
        · rw [if_pos (by omega), if_pos inside, Function.update_of_ne (by omega)]
        · rw [if_neg (by omega), if_neg inside, Function.update_of_ne first]

theorem shiftDown_ioList_of_not
    (absent : ∀ k, index < k → k ≤ index + turns → (s.ioPfds k).fd = fd → fd = 0) :
    (shiftDown turns s index).ioList fd = s.ioList fd := by
  induction turns generalizing s index with
  | zero => rfl
  | succ turns ih =>
      rw [shiftDown, ih]
      · apply moveDown_ioList_of_ne
        rw [or_iff_not_imp_right, not_not]
        exact absent (index + 1) (by omega) (by omega)
      · intro k above below
        rw [moveDown_ioPfds, Function.update_of_ne (by omega)]
        exact absent k (by omega) (by omega)

theorem shiftDown_ioList_of_mem {k : Nat} (above : index < k) (below : k ≤ index + turns)
    (isEntry : (s.ioPfds k).fd = fd) (positive : 0 < fd)
    (only : ∀ k', index < k' → k' ≤ index + turns → (s.ioPfds k').fd = fd → k' = k) :
    (shiftDown turns s index).ioList fd = { s.ioList fd with index := k - 1 } := by
  induction turns generalizing s index with
  | zero => omega
  | succ turns ih =>
      rw [shiftDown]
      by_cases first : k = index + 1
      · -- the first turn writes the index, the others leave it
        subst first
        rw [shiftDown_ioList_of_not, moveDown, isEntry, if_pos (by exact_mod_cast positive)]
        · simp [setIo, setPfd]
        · intro k' above' below'
          rw [moveDown_ioPfds, Function.update_of_ne (by omega)]
          intro again
          have same := only k' (by omega) (by omega) again
          omega
      · have other : (s.ioPfds (index + 1)).fd ≠ fd := by
          intro isFirst
          exact first (only (index + 1) (by omega) (by omega) isFirst).symm
        rw [ih (by omega) (by omega), moveDown_ioList_of_ne (Or.inr other)]
        · rw [moveDown_ioPfds, Function.update_of_ne (by omega)]
          exact isEntry
        · intro k' above' below'
          rw [moveDown_ioPfds, Function.update_of_ne (by omega)]
          exact only k' (by omega) (by omega)

end Shift

/-! ## `io_remove_fd` on a registered descriptor -/

/-- What `io_remove_fd` does to a descriptor with an entry. -/
structure Removed (s : State) (fd i : Nat) (after : State) : Prop where
  ioCount : after.ioCount = s.ioCount - 1
  registered : after.registered = s.registered
  ioPfds : ∀ j < s.ioCount - 1,
    after.ioPfds j = if j < i then s.ioPfds j else s.ioPfds (j + 1)
  own : after.ioList fd = { s.ioList fd with index := -1 }
  idle : ∀ other ∉ s.registered, after.ioList other = s.ioList other
  before : ∀ other ∈ s.registered, other ≠ fd → ∀ k : Nat, (s.ioList other).index = k →
    k < i ∨ other = 0 → after.ioList other = s.ioList other
  behind : ∀ other ∈ s.registered, other ≠ 0 → ∀ k : Nat, (s.ioList other).index = k →
    i < k → after.ioList other = { s.ioList other with index := k - 1 }

theorem Good.removed (good : s.Good) (registered : fd ∈ s.registered) {i : Nat}
    (index : (s.ioList fd).index = i) : Removed s fd i (s.ioRemoveFd fd) := by
  obtain ⟨i', inside, index', isEntry⟩ := good.indexed fd registered
  obtain rfl : i' = i := by
    rw [index] at index'
    exact_mod_cast index'.symm
  have result : s.ioRemoveFd fd =
      { (shiftDown (s.ioCount - 1 - i') (s.setPfd i' ⟨-1, 0⟩) i').setIo fd
          { (shiftDown (s.ioCount - 1 - i') (s.setPfd i' ⟨-1, 0⟩) i').ioList fd with
            index := -1 } with ioCount := s.ioCount - 1 } := by
    rw [ioRemoveFd]
    dsimp only
    rw [index, if_pos (by omega), Int.toNat_natCast]
  have entryOf : ∀ other k, i' < k → k ≤ i' + (s.ioCount - 1 - i') →
      ((s.setPfd i' ⟨-1, 0⟩).ioPfds k).fd = (other : Nat) →
        other ∈ s.registered ∧ (s.ioList other).index = k := by
    intro other k above below isEntry
    rw [setPfd] at isEntry
    dsimp only at isEntry
    rw [Function.update_of_ne (by omega)] at isEntry
    exact good.of_entry (by omega) isEntry
  have kept : ∀ other, (∀ k, i' < k → k ≤ i' + (s.ioCount - 1 - i') →
      ((s.setPfd i' ⟨-1, 0⟩).ioPfds k).fd = (other : Nat) → other = 0) →
        (shiftDown (s.ioCount - 1 - i') (s.setPfd i' ⟨-1, 0⟩) i').ioList other =
          s.ioList other := fun other absent => shiftDown_ioList_of_not absent
  rw [result]
  refine ⟨rfl, ?_, ?_, ?_, ?_, ?_, ?_⟩
  · simp [setIo, setPfd]
  · intro j below
    simp only [setIo]
    rw [shiftDown_ioPfds]
    by_cases before : j < i'
    · rw [if_neg (by omega), if_pos before]
      exact Function.update_of_ne (by omega) _ _
    · rw [if_pos (by omega), if_neg before]
      exact Function.update_of_ne (by omega) _ _
  · simp only [setIo, Function.update_self]
    rw [kept]
    intro k above below again
    have same := (entryOf fd k above below again).2
    omega
  · intro other notRegistered
    have different : other ≠ fd := by
      rintro rfl
      exact notRegistered registered
    simp only [setIo, Function.update_of_ne different]
    apply kept
    intro k above below again
    exact absurd (entryOf other k above below again).1 notRegistered
  · intro other _ different k isIndex place
    simp only [setIo, Function.update_of_ne different]
    apply kept
    intro k' above below again
    have same := (entryOf other k' above below again).2
    omega
  · intro other isRegistered notZero k isIndex above
    have different : other ≠ fd := by
      rintro rfl
      omega
    obtain ⟨k', inside', isIndex', isEntry'⟩ := good.indexed other isRegistered
    obtain rfl : k' = k := by omega
    simp only [setIo, Function.update_of_ne different]
    apply shiftDown_ioList_of_mem above (by omega)
    · rw [setPfd]
      dsimp only
      rw [Function.update_of_ne (by omega)]
      exact isEntry'
    · omega
    · intro k above' below' again
      have same := (entryOf other k above' below' again).2
      omega

end

end State

end PollTable

end Chaosircd
