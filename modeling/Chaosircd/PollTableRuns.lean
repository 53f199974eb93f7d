import Chaosircd.PollTableEntries

/-!
# The poll table over a run

Two things break the table.  Descriptor 0 keeps its index when an entry before
its own is removed.  And the index of a descriptor that is not registered is
followed all the same: zero leads to the entry of somebody else, minus one out
of the array.  A run keeps the table sound if and only if it does neither.
-/

namespace Chaosircd

namespace PollTable

open TransitionSystem

namespace State

/-- The entry of a descriptor. -/
def entry (s : State) (fd : Nat) : Pollfd :=
  s.ioPfds (s.ioList fd).index.toNat

/-- The other registered descriptors stay, and so do their entries. -/
def OthersKept (s : State) (fd : Nat) (after : State) : Prop :=
  ∀ other ∈ s.registered, other ≠ fd →
    other ∈ after.registered ∧ after.entry other = s.entry other

/-- The operation stays inside the tables, leaves them sound and leaves the entries of other
descriptors alone. -/
def DoesWell (s : State) (op : Op) : Prop :=
  ∃ after, s.step op = some after ∧ after.Sound ∧ s.OthersKept op.fd after

/-- `io_new` is called for descriptors that are not registered. -/
def Promised (s : State) : Op → Prop
  | .new fd _ => fd ∉ s.registered
  | _ => True

instance (s : State) (op : Op) : Decidable (s.Promised op) := by
  cases op <;> unfold Promised <;> infer_instance

/-- Descriptor 0 does not stand behind the descriptor. -/
def ZeroBefore (s : State) (fd : Nat) : Prop :=
  0 ∈ s.registered → (s.ioList 0).index ≤ (s.ioList fd).index

/-- The index of a descriptor that is not registered leads to no entry, or to one that the
change leaves as it is. -/
def Harmless (s : State) (fd : Nat) (change : BitVec 16 → BitVec 16) : Prop :=
  (s.ioList fd).index < 0 ∨ s.ioCount = 0 ∨
    change (s.ioPfds 0).events = (s.ioPfds 0).events

/-- When `io_shutup` of a descriptor of the table does well. -/
def ShutupAllowed (s : State) (fd : Nat) : Prop :=
  if fd ∈ s.registered then s.ZeroBefore fd
  else if (s.ioList fd).closed then
    (s.ioList fd).events = 0 ∨
      s.Harmless fd fun poll => lowerPoll poll (ioRead ||| ioWrite ||| ioError)
  else s.ioCount = 0

/-- When an operation does well. -/
def Allowed (s : State) : Op → Prop
  | .new _ _ => True
  | .setEvents fd events => fd < ioMaxFds ∧ (fd ∈ s.registered ∨ ¬ HasPoll events ∨
      (s.ioList fd).index = 0 ∧ s.Harmless fd fun poll => raisePoll poll events)
  | .unsetEvents fd events => fd < ioMaxFds ∧
      (fd ∈ s.registered ∨ s.Harmless fd fun poll => lowerPoll poll events)
  | .shutup fd _ => fd < ioMaxFds ∧ s.ShutupAllowed fd
  | .push fd _ => fd < ioMaxFds → s.ShutupAllowed fd
  | .destroy fd _ => fd < ioMaxFds ∧ (fd ∈ s.registered → s.ZeroBefore fd)

instance (s : State) (fd : Nat) : Decidable (s.ZeroBefore fd) :=
  inferInstanceAs (Decidable (_ → _))

instance (s : State) (fd : Nat) (change : BitVec 16 → BitVec 16) :
    Decidable (s.Harmless fd change) :=
  inferInstanceAs (Decidable (_ ∨ _ ∨ _))

instance (s : State) (fd : Nat) : Decidable (s.ShutupAllowed fd) := by
  unfold ShutupAllowed
  infer_instance

instance (s : State) (op : Op) : Decidable (s.Allowed op) := by
  cases op <;> unfold Allowed <;> infer_instance

section

variable {s after : State} {fd : Nat}

theorem Sound.entry_eq (sound : s.Sound) {i : Nat} (inside : i < s.ioCount)
    (isEntry : (s.ioPfds i).fd = fd) : s.entry fd = s.ioPfds i := by
  rw [entry, (sound.of_entry inside isEntry).2, Int.toNat_natCast]

theorem OthersKept.trans {s' : State} (first : s.OthersKept fd s')
    (second : s'.OthersKept fd after) : s.OthersKept fd after := by
  intro other registered different
  obtain ⟨registered', same⟩ := first other registered different
  obtain ⟨registered'', same'⟩ := second other registered' different
  exact ⟨registered'', same'.trans same⟩

/-! ## Registered descriptors -/

/-- The mask that a descriptor asks for is written to both tables. -/
def request (s : State) (fd i : Nat) (mask : BitVec 5) : State :=
  (s.setIo fd { s.ioList fd with events := mask }).setPfd i
    { s.ioPfds i with events := pollMask mask }

theorem request_ioList (s : State) (fd i : Nat) (mask : BitVec 5) (other : Nat) :
    ((s.request fd i mask).ioList other).index = (s.ioList other).index ∧
      ((s.request fd i mask).ioList other).type = (s.ioList other).type ∧
      ((s.request fd i mask).ioList other).closed = (s.ioList other).closed ∧
      ((s.request fd i mask).ioList other).dead = (s.ioList other).dead := by
  by_cases same : other = fd
  · subst same
    simp [request, setIo, setPfd]
  · simp [request, setIo, setPfd, same]

theorem request_fd (s : State) (fd i : Nat) (mask : BitVec 5) (j : Nat) :
    ((s.request fd i mask).ioPfds j).fd = (s.ioPfds j).fd := by
  by_cases same : j = i
  · subst same
    simp [request, setIo, setPfd]
  · simp [request, setIo, setPfd, same]

theorem Good.request (good : s.Good) (registered : fd ∈ s.registered) {i : Nat}
    (index : (s.ioList fd).index = i) (mask : BitVec 5) :
    (s.request fd i mask).Good ∧ s.OthersKept fd (s.request fd i mask) := by
  have fields := request_ioList s fd i mask
  have fds := request_fd s fd i mask
  obtain ⟨i', inside, index', isEntry⟩ := good.indexed fd registered
  obtain rfl : i' = i := by omega
  refine ⟨⟨⟨?_, ?_, ?_⟩, good.card, good.small, ?_, ?_⟩, ?_⟩
  · intro other isRegistered
    rw [(fields other).1]
    simp only [fds]
    exact good.indexed other isRegistered
  · intro j below
    obtain ⟨owner, isRegistered, isOwner, isIndex⟩ := good.entries j below
    exact ⟨owner, isRegistered, (fds j).trans isOwner, (fields owner).1.trans isIndex⟩
  · intro j below other isEntry'
    rw [fds] at isEntry'
    by_cases same : j = i'
    · subst same
      obtain rfl : other = fd := by
        rw [isEntry] at isEntry'
        exact_mod_cast isEntry'.symm
      simp [State.request, setIo, setPfd]
    · have different : other ≠ fd := by
        rintro rfl
        have isIndex := (good.of_entry below isEntry').2
        omega
      simp only [State.request, setIo, setPfd, Function.update_of_ne same,
        Function.update_of_ne different]
      exact good.requested j below other isEntry'
  · intro other isRegistered
    rw [(fields other).2.1, (fields other).2.2.1, (fields other).2.2.2]
    exact good.live other isRegistered
  · intro other notRegistered
    rw [(fields other).1, (fields other).2.1, (fields other).2.2.1, (fields other).2.2.2]
    exact good.idle other notRegistered
  · intro other isRegistered different
    refine ⟨isRegistered, ?_⟩
    rw [entry, entry, (fields other).1]
    obtain ⟨k, inside', isIndex, isEntry'⟩ := good.indexed other isRegistered
    rw [isIndex, Int.toNat_natCast]
    refine Function.update_of_ne ?_ _ _
    rintro rfl
    rw [isEntry] at isEntry'
    exact different (by exact_mod_cast isEntry'.symm)

theorem Good.poll_eq (good : s.Good) (registered : fd ∈ s.registered) {i : Nat}
    (index : (s.ioList fd).index = i) :
    i < ioMaxFds ∧ (s.ioPfds i).events = pollMask (s.ioList fd).events := by
  obtain ⟨i', inside, index', isEntry⟩ := good.indexed fd registered
  obtain rfl : i' = i := by omega
  have bounded := good.count_le
  exact ⟨by omega, good.requested i' inside fd isEntry⟩

theorem raisePoll_of_not_hasPoll {events : BitVec 32} (nothing : ¬ HasPoll events)
    (poll : BitVec 16) : raisePoll poll events = poll := by
  rw [HasPoll, not_or, not_or] at nothing
  simp only [raisePoll]
  rw [if_neg nothing.2.2, if_neg nothing.2.1, if_neg nothing.1]

theorem Good.ioSetEvents (good : s.Good) (registered : fd ∈ s.registered) {i : Nat}
    (index : (s.ioList fd).index = i) (events : BitVec 32) :
    s.ioSetEvents fd events =
      some (s.request fd i ((s.ioList fd).events ||| events.setWidth 5)) := by
  obtain ⟨small, poll⟩ := good.poll_eq registered index
  rw [State.ioSetEvents, State.request]
  dsimp only
  rw [← raisePoll_pollMask, ← poll]
  split_ifs with has
  · rw [modifyPoll]
    simp only [setIo, Function.update_self, index]
    rw [if_pos (by omega), Int.toNat_natCast]
  · rw [raisePoll_of_not_hasPoll has, setPfd]
    simp [setIo]

theorem Good.ioUnsetEvents (good : s.Good) (registered : fd ∈ s.registered) {i : Nat}
    (index : (s.ioList fd).index = i) (events : BitVec 32) :
    s.ioUnsetEvents fd events =
      some (s.request fd i ((s.ioList fd).events &&& ~~~events.setWidth 5)) := by
  obtain ⟨small, poll⟩ := good.poll_eq registered index
  rw [State.ioUnsetEvents, State.request]
  dsimp only
  rw [← lowerPoll_pollMask, ← poll, if_pos (by omega), modifyPoll]
  simp only [setIo, Function.update_self, index]
  rw [if_pos (by omega), Int.toNat_natCast]

/-! ## Descriptors that are not registered -/

/-- A change of a descriptor that is not registered, and perhaps of a slot that is no
entry. -/
theorem Good.setIdle (good : s.Good) (fresh : fd ∉ s.registered) {io : Io} {j : Nat}
    {pfd : Pollfd}
    (idle : (io.index = -1 ∧ io.closed = true ∧ io.dead = false) ∨
      (io.index = 0 ∧ io.type = none))
    (unseen : s.ioCount ≤ j ∨ pfd = s.ioPfds j) :
    ((s.setIo fd io).setPfd j pfd).Good ∧
      s.OthersKept fd ((s.setIo fd io).setPfd j pfd) := by
  have lists : ∀ other ∈ s.registered,
      ((s.setIo fd io).setPfd j pfd).ioList other = s.ioList other := by
    intro other registered
    refine Function.update_of_ne ?_ _ _
    rintro rfl
    exact fresh registered
  have pfds : ∀ i < s.ioCount, ((s.setIo fd io).setPfd j pfd).ioPfds i = s.ioPfds i := by
    intro i below
    rcases unseen with outside | rfl
    · exact Function.update_of_ne (by omega) _ _
    · simp [setPfd, setIo]
  refine ⟨⟨⟨?_, ?_, ?_⟩, good.card, good.small, ?_, ?_⟩, ?_⟩
  · intro other registered
    obtain ⟨i, below, index, isEntry⟩ := good.indexed other registered
    refine ⟨i, below, ?_, ?_⟩
    · rw [lists other registered]
      exact index
    · rw [pfds i below]
      exact isEntry
  · intro i below
    obtain ⟨owner, registered, isOwner, index⟩ := good.entries i below
    refine ⟨owner, registered, ?_, ?_⟩
    · rw [pfds i below]
      exact isOwner
    · rw [lists owner registered]
      exact index
  · intro i below other isEntry
    rw [pfds i below] at isEntry ⊢
    rw [lists other (good.of_entry below isEntry).1]
    exact good.requested i below other isEntry
  · intro other registered
    rw [lists other registered]
    exact good.live other registered
  · intro other notRegistered
    by_cases same : other = fd
    · subst same
      simpa [setPfd, setIo] using idle
    · simpa [setPfd, setIo, same] using good.idle other notRegistered
  · intro other registered _
    refine ⟨registered, ?_⟩
    obtain ⟨i, below, index, -⟩ := good.indexed other registered
    rw [entry, entry, lists other registered, index, Int.toNat_natCast, pfds i below]

theorem setPfd_self (s : State) (j : Nat) : s.setPfd j (s.ioPfds j) = s := by
  simp [setPfd]

theorem Good.setIdle' (good : s.Good) (fresh : fd ∉ s.registered) {io : Io}
    (idle : (io.index = -1 ∧ io.closed = true ∧ io.dead = false) ∨
      (io.index = 0 ∧ io.type = none)) :
    (s.setIo fd io).Good ∧ s.OthersKept fd (s.setIo fd io) := by
  have changed := @setIdle s fd good fresh io 0 (s.ioPfds 0) idle (Or.inr rfl)
  rwa [show s.ioPfds 0 = (s.setIo fd io).ioPfds 0 from rfl, setPfd_self] at changed

/-- The entry that stands first belongs to somebody else. -/
theorem Good.exists_owner (good : s.Good) (fresh : fd ∉ s.registered) (some_ : s.ioCount ≠ 0) :
    ∃ owner ∈ s.registered, owner ≠ fd ∧ (s.ioList owner).index = 0 := by
  obtain ⟨owner, registered, -, index⟩ := good.entries 0 (by omega)
  refine ⟨owner, registered, ?_, index⟩
  rintro rfl
  exact fresh registered

/-- What follows the index of a descriptor that is not registered. -/
theorem Good.modifyPoll_iff (good : s.Good) (fresh : fd ∉ s.registered)
    (index : (s.ioList fd).index = 0) {io : Io} (index' : io.index = 0)
    (type : io.type = none) (change : BitVec 16 → BitVec 16) :
    ∃ after, (s.setIo fd io).modifyPoll fd change = some after ∧
      after.registered = s.registered ∧ after.ioList = (s.setIo fd io).ioList ∧
      after.ioCount = s.ioCount ∧
      (s.Harmless fd change → after.Good ∧ s.OthersKept fd after) ∧
      (s.OthersKept fd after → s.Harmless fd change) := by
  have result : (s.setIo fd io).modifyPoll fd change =
      some ((s.setIo fd io).setPfd 0
        { s.ioPfds 0 with events := change (s.ioPfds 0).events }) := by
    rw [modifyPoll]
    simp only [setIo, Function.update_self, index']
    rw [if_pos (by decide)]
    rfl
  refine ⟨_, result, rfl, rfl, rfl, ?_, ?_⟩
  · intro harmless
    apply good.setIdle fresh (Or.inr ⟨index', type⟩)
    rcases harmless with negative | nobody | same
    · omega
    · exact Or.inl (by omega)
    · apply Or.inr
      rw [same]
  · intro kept
    by_cases nobody : s.ioCount = 0
    · exact Or.inr (Or.inl nobody)
    · obtain ⟨owner, registered, different, isIndex⟩ := good.exists_owner fresh nobody
      obtain ⟨-, same⟩ := kept owner registered different
      simp only [entry, setPfd, setIo, Function.update_of_ne different, isIndex,
        Int.toNat_zero, Function.update_self] at same
      exact Or.inr (Or.inr (congrArg Pollfd.events same))

/-! ## Removing an entry -/

/-- The tables after the entry of a descriptor was removed and its record rewritten. -/
def dropped (s : State) (fd : Nat) (io : Io) : State :=
  { (s.ioRemoveFd fd).setIo fd io with registered := s.registered.erase fd }

section Dropped

variable (io : Io)

/-- Where another descriptor is, after the entry `i` has gone. -/
theorem Good.moved (good : s.Good) (registered : fd ∈ s.registered)
    (zeroBefore : s.ZeroBefore fd) {i : Nat} (index : (s.ioList fd).index = i) {other : Nat}
    (isRegistered : other ∈ s.registered) (different : other ≠ fd) {k : Nat}
    (isIndex : (s.ioList other).index = k) :
    k ≠ i ∧ (s.dropped fd io).ioList other =
      { s.ioList other with index := if k < i then k else k - 1 } := by
  have removed := good.removed registered index
  obtain ⟨i', inside, index', isEntry⟩ := good.indexed fd registered
  obtain rfl : i' = i := by omega
  obtain ⟨k', below, isIndex', isEntry'⟩ := good.indexed other isRegistered
  obtain rfl : k' = k := by omega
  have apart : k' ≠ i' := by
    rintro rfl
    rw [isEntry] at isEntry'
    exact different (by exact_mod_cast isEntry'.symm)
  have sameList : (s.dropped fd io).ioList other = (s.ioRemoveFd fd).ioList other :=
    Function.update_of_ne different _ _
  refine ⟨apart, ?_⟩
  rw [sameList]
  by_cases before : k' < i'
  · rw [removed.before other isRegistered different k' isIndex (Or.inl before), if_pos before,
      ← isIndex]
  · have notZero : other ≠ 0 := by
      rintro rfl
      have bound := zeroBefore isRegistered
      omega
    rw [removed.behind other isRegistered notZero k' isIndex (by omega), if_neg before]

/-- The entry of another descriptor moves with its index. -/
theorem Good.place (good : s.Good) (registered : fd ∈ s.registered)
    (zeroBefore : s.ZeroBefore fd) {other : Nat} (isRegistered : other ∈ s.registered)
    (different : other ≠ fd) :
    ∃ j < s.ioCount - 1, ∃ k < s.ioCount, (s.ioList other).index = k ∧
      ((s.dropped fd io).ioList other).index = j ∧
        (s.dropped fd io).ioPfds j = s.ioPfds k ∧ (s.ioPfds k).fd = other := by
  obtain ⟨i, inside, index, -⟩ := good.indexed fd registered
  have pfds : ∀ j < s.ioCount - 1, (s.dropped fd io).ioPfds j =
      if j < i then s.ioPfds j else s.ioPfds (j + 1) := (good.removed registered index).ioPfds
  obtain ⟨k, below, isIndex, isEntry⟩ := good.indexed other isRegistered
  obtain ⟨apart, isMoved⟩ :=
    good.moved io registered zeroBefore index isRegistered different isIndex
  by_cases before : k < i
  · refine ⟨k, by omega, k, below, isIndex, ?_, ?_, isEntry⟩
    · rw [isMoved, if_pos before]
    · rw [pfds k (by omega), if_pos before]
  · refine ⟨k - 1, by omega, k, below, isIndex, ?_, ?_, isEntry⟩
    · rw [isMoved, if_neg before]
      dsimp only
      omega
    · rw [pfds (k - 1) (by omega), if_neg (by omega), Nat.sub_add_cancel (by omega)]

/-- Each entry that is left belongs to another descriptor. -/
theorem Good.owner (good : s.Good) (registered : fd ∈ s.registered)
    (zeroBefore : s.ZeroBefore fd) {j : Nat} (below : j < s.ioCount - 1) :
    ∃ other ∈ s.registered, other ≠ fd ∧ ((s.dropped fd io).ioPfds j).fd = other ∧
      ((s.dropped fd io).ioList other).index = j := by
  obtain ⟨i, inside, index, -⟩ := good.indexed fd registered
  have pfds : (s.dropped fd io).ioPfds j =
      if j < i then s.ioPfds j else s.ioPfds (j + 1) :=
    (good.removed registered index).ioPfds j below
  by_cases before : j < i
  · obtain ⟨other, isRegistered, isOwner, isIndex⟩ := good.entries j (by omega)
    have different : other ≠ fd := by
      rintro rfl
      omega
    have isMoved := (good.moved io registered zeroBefore index isRegistered different
      isIndex).2
    refine ⟨other, isRegistered, different, ?_, ?_⟩
    · rw [pfds, if_pos before]
      exact isOwner
    · rw [isMoved, if_pos before]
  · obtain ⟨other, isRegistered, isOwner, isIndex⟩ := good.entries (j + 1) (by omega)
    have different : other ≠ fd := by
      rintro rfl
      omega
    have isMoved := (good.moved io registered zeroBefore index isRegistered different
      isIndex).2
    refine ⟨other, isRegistered, different, ?_, ?_⟩
    · rw [pfds, if_neg before]
      exact isOwner
    · rw [isMoved, if_neg (by omega)]
      dsimp only
      omega

/-- Another descriptor changes in its index only. -/
theorem Good.fields (good : s.Good) (registered : fd ∈ s.registered)
    (zeroBefore : s.ZeroBefore fd) {other : Nat} (isRegistered : other ∈ s.registered)
    (different : other ≠ fd) :
    ((s.dropped fd io).ioList other).events = (s.ioList other).events ∧
      ((s.dropped fd io).ioList other).closed = (s.ioList other).closed ∧
      ((s.dropped fd io).ioList other).dead = (s.ioList other).dead ∧
      ((s.dropped fd io).ioList other).type = (s.ioList other).type := by
  obtain ⟨i, -, index, -⟩ := good.indexed fd registered
  obtain ⟨k, -, isIndex, -⟩ := good.indexed other isRegistered
  rw [(good.moved io registered zeroBefore index isRegistered different isIndex).2]
  exact ⟨rfl, rfl, rfl, rfl⟩

theorem Good.sound_dropped (good : s.Good) (registered : fd ∈ s.registered)
    (zeroBefore : s.ZeroBefore fd) : (s.dropped fd io).Sound := by
  obtain ⟨i, -, index, -⟩ := good.indexed fd registered
  have count : (s.dropped fd io).ioCount = s.ioCount - 1 := (good.removed registered index).ioCount
  refine ⟨?_, ?_, ?_⟩
  · intro other member
    obtain ⟨different, isRegistered⟩ := Finset.mem_erase.mp member
    obtain ⟨j, below, k, -, -, isIndex, same, isEntry⟩ :=
      good.place io registered zeroBefore isRegistered different
    refine ⟨j, by rw [count]; exact below, isIndex, ?_⟩
    rw [same]
    exact isEntry
  · intro j below
    rw [count] at below
    obtain ⟨other, isRegistered, different, isOwner, isIndex⟩ :=
      good.owner io registered zeroBefore below
    exact ⟨other, Finset.mem_erase.mpr ⟨different, isRegistered⟩, isOwner, isIndex⟩
  · intro j below other isEntry
    rw [count] at below
    obtain ⟨owner, isRegistered, different, isOwner, isIndex⟩ :=
      good.owner io registered zeroBefore below
    obtain rfl : other = owner := by
      rw [isEntry] at isOwner
      exact_mod_cast isOwner
    obtain ⟨j', -, k, below', -, isIndex', same, isEntry'⟩ :=
      good.place io registered zeroBefore isRegistered different
    obtain rfl : j' = j := by omega
    rw [same, (good.fields io registered zeroBefore isRegistered different).1]
    exact good.requested k below' other isEntry'

end Dropped

theorem Good.dropped (good : s.Good) (registered : fd ∈ s.registered)
    (zeroBefore : s.ZeroBefore fd) {io : Io}
    (idle : (io.index = -1 ∧ io.closed = true ∧ io.dead = false) ∨
      (io.index = 0 ∧ io.type = none)) :
    (s.dropped fd io).Good ∧ s.OthersKept fd (s.dropped fd io) := by
  obtain ⟨i, -, index, -⟩ := good.indexed fd registered
  have removed := good.removed registered index
  have count : (s.dropped fd io).ioCount = s.ioCount - 1 := removed.ioCount
  refine ⟨⟨good.sound_dropped io registered zeroBefore, ?_, ?_, ?_, ?_⟩, ?_⟩
  · rw [count, good.card]
    exact (Finset.card_erase_of_mem registered).symm
  · intro other member
    exact good.small other (Finset.mem_of_mem_erase member)
  · intro other member
    obtain ⟨different, isRegistered⟩ := Finset.mem_erase.mp member
    obtain ⟨-, closed, dead, type⟩ := good.fields io registered zeroBefore isRegistered different
    rw [closed, dead, type]
    exact good.live other isRegistered
  · intro other notMember
    by_cases same : other = fd
    · subst same
      simpa [State.dropped, setIo] using idle
    · have notRegistered : other ∉ s.registered := fun isRegistered =>
        notMember (Finset.mem_erase.mpr ⟨same, isRegistered⟩)
      have sameList : (s.dropped fd io).ioList other = (s.ioRemoveFd fd).ioList other :=
        Function.update_of_ne same _ _
      rw [sameList, removed.idle other notRegistered]
      exact good.idle other notRegistered
  · intro other isRegistered different
    obtain ⟨j, -, k, -, isIndex, isIndex', same, -⟩ :=
      good.place io registered zeroBefore isRegistered different
    refine ⟨Finset.mem_erase.mpr ⟨different, isRegistered⟩, ?_⟩
    rw [entry, entry, isIndex, isIndex', Int.toNat_natCast, Int.toNat_natCast, same]

/-- Descriptor 0 is lost when it stands behind the entry that is removed. -/
theorem Good.zeroBefore_of_dropped (good : s.Good) (registered : fd ∈ s.registered) {io : Io}
    (sound : (s.dropped fd io).Sound) : s.ZeroBefore fd := by
  intro zero
  by_contra behind
  obtain ⟨i, inside, index, -⟩ := good.indexed fd registered
  obtain ⟨k, below, index', isEntry⟩ := good.indexed 0 zero
  have removed := good.removed registered index
  have different : 0 ≠ fd := by
    rintro rfl
    omega
  have kept := removed.before 0 zero different k index' (Or.inr rfl)
  obtain ⟨j, below', isIndex, isEntry'⟩ :=
    sound.indexed 0 (Finset.mem_erase.mpr ⟨different, zero⟩)
  have isIndex' : ((s.ioRemoveFd fd).ioList 0).index = j := by
    simpa [State.dropped, setIo, different] using isIndex
  rw [kept] at isIndex'
  obtain rfl : j = k := by omega
  have count : (s.dropped fd io).ioCount = s.ioCount - 1 := removed.ioCount
  rw [count] at below'
  have moved : (s.dropped fd io).ioPfds j = if j < i then s.ioPfds j else s.ioPfds (j + 1) :=
    removed.ioPfds j below'
  rw [moved, if_neg (by omega)] at isEntry'
  have again := (good.of_entry (by omega) isEntry').2
  omega

/-! ## `io_shutup` -/

@[simp]
theorem setIo_setIo (s : State) (fd : Nat) (io io' : Io) :
    (s.setIo fd io).setIo fd io' = s.setIo fd io' := by
  simp [setIo]

@[simp]
theorem setIo_ioList_self (s : State) (fd : Nat) (io : Io) :
    (s.setIo fd io).ioList fd = io := by
  simp [setIo]

theorem ioUnsetEvents_of_neg (index : (s.ioList fd).index < 0) (events : BitVec 32) :
    s.ioUnsetEvents fd events = some (s.setIo fd
      { s.ioList fd with events := (s.ioList fd).events &&& ~~~events.setWidth 5 }) := by
  rw [State.ioUnsetEvents]
  exact if_neg (by omega)

/-- The queued write of a registered descriptor. -/
theorem Good.ioQueuedWrite (good : s.Good) (registered : fd ∈ s.registered) (emptied : Bool) :
    ∃ written, s.ioQueuedWrite fd emptied = some written ∧ written.Good ∧
      s.OthersKept fd written ∧ written.registered = s.registered ∧
      (∀ other, (written.ioList other).index = (s.ioList other).index) := by
  obtain ⟨i, -, index, -⟩ := good.indexed fd registered
  rw [State.ioQueuedWrite]
  split_ifs
  · obtain ⟨good', kept⟩ := good.request registered index
      ((s.ioList fd).events &&& ~~~ioWrite.setWidth 5)
    exact ⟨_, good.ioUnsetEvents registered index ioWrite, good', kept, rfl,
      fun other => (request_ioList s fd i _ other).1⟩
  · exact ⟨s, rfl, good, fun other registered _ => ⟨registered, rfl⟩, rfl, fun _ => rfl⟩

theorem Good.ioShutup (good : s.Good) (registered : fd ∈ s.registered) (emptied : Bool) :
    ∃ written io, written.Good ∧ s.OthersKept fd written ∧
      written.registered = s.registered ∧
      (∀ other, (written.ioList other).index = (s.ioList other).index) ∧
      s.ioShutup fd emptied = some ((written.ioRemoveFd fd).setIo fd io) ∧
      io.index = -1 ∧ io.closed = true ∧ io.dead = false ∧ io.type ≠ none := by
  obtain ⟨written, isWritten, good', kept, same, indices⟩ :=
    good.ioQueuedWrite registered emptied
  have registered' : fd ∈ written.registered := same ▸ registered
  obtain ⟨i, -, index, -⟩ := good'.indexed fd registered'
  obtain ⟨-, dead, type⟩ := good'.live fd registered'
  have own := (good'.removed registered' index).own
  have shut : s.closeFd fd emptied = some ((written.ioRemoveFd fd).setIo fd
      { written.ioList fd with index := -1, closed := true }) := by
    rw [closeFd, (good.live fd registered).1, isWritten]
    simp only [Bool.false_eq_true, if_false, Option.map_some, own]
  by_cases asked : (written.ioList fd).events = 0
  · refine ⟨written, { written.ioList fd with index := -1, closed := true }, good', kept, same,
      indices, ?_, rfl, rfl, dead, type⟩
    rw [State.ioShutup, shut, Option.bind_some, setIo_ioList_self, if_neg (not_not.mpr asked)]
  · refine ⟨written,
      { written.ioList fd with
        index := -1
        closed := true
        events := (written.ioList fd).events &&&
          ~~~(ioRead ||| ioWrite ||| ioError).setWidth 5 },
      good', kept, same, indices, ?_, rfl, rfl, dead, type⟩
    rw [State.ioShutup, shut, Option.bind_some, setIo_ioList_self, if_pos asked,
      ioUnsetEvents_of_neg, setIo_setIo, setIo_ioList_self]
    rw [setIo_ioList_self]
    exact (by decide : (-1 : Int) < 0)

/-- `io_shutup` of a registered descriptor does well unless descriptor 0 stands behind it. -/
theorem Good.shutup_registered (good : s.Good) (registered : fd ∈ s.registered)
    (emptied : Bool) :
    ∃ after, s.ioShutup fd emptied = some after ∧
      (s.ZeroBefore fd → { after with registered := s.registered.erase fd }.Good ∧
        s.OthersKept fd { after with registered := s.registered.erase fd }) ∧
      ({ after with registered := s.registered.erase fd }.Sound → s.ZeroBefore fd) := by
  obtain ⟨written, io, good', kept, same, indices, result, index, closed, dead, -⟩ :=
    good.ioShutup registered emptied
  have registered' : fd ∈ written.registered := same ▸ registered
  have zeroIff : written.ZeroBefore fd ↔ s.ZeroBefore fd := by
    rw [ZeroBefore, ZeroBefore, same, indices, indices]
  have isDropped : { (written.ioRemoveFd fd).setIo fd io with
      registered := s.registered.erase fd } = written.dropped fd io := by
    rw [State.dropped, same]
  refine ⟨_, result, ?_, ?_⟩
  · intro zeroBefore
    rw [isDropped]
    obtain ⟨good'', kept'⟩ := good'.dropped registered' (zeroIff.mpr zeroBefore)
      (Or.inl ⟨index, closed, dead⟩)
    exact ⟨good'', kept.trans kept'⟩
  · intro sound
    rw [isDropped] at sound
    exact zeroIff.mp (good'.zeroBefore_of_dropped registered' sound)

/-- `io_unset_events` of a descriptor that is not registered. -/
theorem Good.unsetEvents_fresh (good : s.Good) (fresh : fd ∉ s.registered)
    (events : BitVec 32) :
    ∃ after, s.ioUnsetEvents fd events = some after ∧ after.registered = s.registered ∧
      ((s.Harmless fd fun poll => lowerPoll poll events) →
        after.Good ∧ s.OthersKept fd after) ∧
      (s.OthersKept fd after → s.Harmless fd fun poll => lowerPoll poll events) := by
  rcases good.idle fd fresh with ⟨index, closed, dead⟩ | ⟨index, type⟩
  · have negative : (s.ioList fd).index < 0 := by omega
    refine ⟨_, ioUnsetEvents_of_neg negative events, rfl, ?_, fun _ => Or.inl negative⟩
    intro _
    exact good.setIdle' fresh (Or.inl ⟨index, closed, dead⟩)
  · obtain ⟨after, result, same, -, -, iff⟩ :=
      @modifyPoll_iff s fd good fresh index
        { s.ioList fd with events := (s.ioList fd).events &&& ~~~events.setWidth 5 }
        index type fun poll => lowerPoll poll events
    refine ⟨after, ?_, same, iff⟩
    rw [State.ioUnsetEvents, if_pos (by omega)]
    exact result

theorem ioUnsetEvents_ioCount {events : BitVec 32}
    (result : s.ioUnsetEvents fd events = some after) : after.ioCount = s.ioCount := by
  rw [State.ioUnsetEvents] at result
  split_ifs at result with positive
  · rw [modifyPoll] at result
    split_ifs at result
    obtain rfl := Option.some.inj result
    rfl
  · obtain rfl := Option.some.inj result
    rfl

theorem closeFd_fresh (type : (s.ioList fd).type = none) (opened : (s.ioList fd).closed = false)
    (emptied : Bool) : s.closeFd fd emptied =
      some ((s.ioRemoveFd fd).setIo fd { (s.ioRemoveFd fd).ioList fd with closed := true }) := by
  rw [closeFd, opened, if_neg Bool.false_ne_true, State.ioQueuedWrite, if_neg, Option.map_some]
  exact fun written => written.2 type

/-- `io_shutup` of a descriptor that is not registered and not closed takes the first entry
away. -/
theorem ioShutup_ioCount (type : (s.ioList fd).type = none)
    (opened : (s.ioList fd).closed = false) (index : (s.ioList fd).index = 0)
    (some_ : s.ioCount ≠ 0) {emptied : Bool} (result : s.ioShutup fd emptied = some after) :
    after.ioCount = s.ioCount - 1 := by
  have count : (s.ioRemoveFd fd).ioCount = s.ioCount - 1 := by
    rw [ioRemoveFd]
    dsimp only
    rw [if_pos (by omega)]
  rw [State.ioShutup, closeFd_fresh type opened, Option.bind_some] at result
  split_ifs at result
  · exact (ioUnsetEvents_ioCount result).trans count
  · obtain rfl := Option.some.inj result
    exact count

theorem Good.shutup_fresh (good : s.Good) (fresh : fd ∉ s.registered) (emptied : Bool) :
    (s.ShutupAllowed fd → ∃ after, s.ioShutup fd emptied = some after ∧
      after.registered = s.registered ∧ after.Good ∧ s.OthersKept fd after) ∧
    ∀ after, s.ioShutup fd emptied = some after →
      { after with registered := s.registered }.Sound →
      s.OthersKept fd { after with registered := s.registered } → s.ShutupAllowed fd := by
  rw [ShutupAllowed, if_neg fresh]
  cases closed : (s.ioList fd).closed with
  | true =>
      have shut : s.closeFd fd emptied = some s := by simp [closeFd, closed]
      rw [State.ioShutup, shut, Option.bind_some, if_pos rfl]
      by_cases asked : (s.ioList fd).events = 0
      · rw [if_neg (not_not.mpr asked)]
        refine ⟨fun _ => ⟨s, rfl, rfl, good, fun other registered _ => ⟨registered, rfl⟩⟩, ?_⟩
        exact fun _ _ _ _ => Or.inl asked
      · rw [if_pos asked]
        obtain ⟨after, result, same, well, needed⟩ := good.unsetEvents_fresh fresh
          (ioRead ||| ioWrite ||| ioError)
        constructor
        · intro allowed
          obtain ⟨good', kept⟩ := well (allowed.resolve_left asked)
          exact ⟨after, result, same, good', kept⟩
        · intro after' result' _ kept
          obtain rfl : after = after' := Option.some.inj (result.symm.trans result')
          have unchanged : { after with registered := s.registered } = after := by rw [← same]
          rw [unchanged] at kept
          exact Or.inr (needed kept)
  | false =>
      obtain ⟨index, type⟩ : (s.ioList fd).index = 0 ∧ (s.ioList fd).type = none := by
        rcases good.idle fd fresh with ⟨-, isClosed, -⟩ | idle
        · rw [closed] at isClosed
          cases isClosed
        · exact idle
      rw [if_neg (by simp)]
      constructor
      · intro nobody
        have nothing : s.ioRemoveFd fd = s := by
          rw [ioRemoveFd]
          exact if_neg (by omega)
        obtain ⟨good', kept⟩ := @setIdle' s fd good fresh
          { s.ioList fd with closed := true } (Or.inr ⟨index, type⟩)
        rw [State.ioShutup, closeFd_fresh type closed, nothing, Option.bind_some,
          setIo_ioList_self]
        split_ifs
        · obtain ⟨after, result, same, well, -⟩ := good'.unsetEvents_fresh fresh
            (ioRead ||| ioWrite ||| ioError)
          obtain ⟨good'', kept'⟩ := well (Or.inr (Or.inl nobody))
          exact ⟨after, result, same, good'', kept.trans kept'⟩
        · exact ⟨_, rfl, rfl, good', kept⟩
      · intro after result sound _
        by_contra some_
        have fewer := sound.card_le
        have count := ioShutup_ioCount type closed index some_ result
        have card := good.card
        simp only at fewer
        omega

/-! ## One operation -/

/-- What is proved of one operation. -/
structure Verdict (s : State) (op : Op) : Prop where
  well : s.Allowed op → ∃ after, s.step op = some after ∧ after.Good ∧ s.OthersKept op.fd after
  needed : s.DoesWell op → s.Allowed op

theorem step_eq_some_iff {op : Op} : s.step op = some after ↔
    ∃ result, s.exec op = some result ∧
      { result with registered := op.registers s.registered } = after := by
  rw [step, Option.map_eq_some_iff]

/-- The tables with a new entry. -/
def added (s : State) (fd : Nat) (type : FdType) : State where
  ioList := Function.update s.ioList fd ⟨some type, 0, false, false, s.ioCount⟩
  ioPfds := Function.update s.ioPfds s.ioCount ⟨fd, 0⟩
  ioCount := s.ioCount + 1
  registered := insert fd s.registered

theorem Good.added (good : s.Good) (small : fd < ioMaxFds) (fresh : fd ∉ s.registered)
    (type : FdType) : (s.added fd type).Good ∧ s.OthersKept fd (s.added fd type) := by
  have lists : ∀ other ∈ s.registered,
      (s.added fd type).ioList other = s.ioList other := by
    intro other registered
    refine Function.update_of_ne ?_ _ _
    rintro rfl
    exact fresh registered
  have own : (s.added fd type).ioList fd = ⟨some type, 0, false, false, s.ioCount⟩ :=
    Function.update_self ..
  have pfds : ∀ i < s.ioCount, (s.added fd type).ioPfds i = s.ioPfds i := fun i below =>
    Function.update_of_ne (Nat.ne_of_lt below) _ _
  have last : (s.added fd type).ioPfds s.ioCount = ⟨fd, 0⟩ := Function.update_self ..
  refine ⟨⟨⟨?_, ?_, ?_⟩, ?_, ?_, ?_, ?_⟩, ?_⟩
  · intro other member
    rcases Finset.mem_insert.mp member with rfl | registered
    · refine ⟨s.ioCount, Nat.lt_succ_self _, ?_, ?_⟩
      · rw [own]
      · rw [last]
    · obtain ⟨i, below, index, isEntry⟩ := good.indexed other registered
      refine ⟨i, Nat.lt_succ_of_lt below, ?_, ?_⟩
      · rw [lists other registered]
        exact index
      · rw [pfds i below]
        exact isEntry
  · intro i below
    rcases Nat.lt_succ_iff_lt_or_eq.mp below with old | rfl
    · obtain ⟨owner, registered, isOwner, index⟩ := good.entries i old
      refine ⟨owner, Finset.mem_insert_of_mem registered, ?_, ?_⟩
      · rw [pfds i old]
        exact isOwner
      · rw [lists owner registered]
        exact index
    · refine ⟨fd, Finset.mem_insert_self fd _, ?_, ?_⟩
      · rw [last]
      · rw [own]
  · intro i below other isEntry
    rcases Nat.lt_succ_iff_lt_or_eq.mp below with old | rfl
    · rw [pfds i old] at isEntry ⊢
      rw [lists other (good.of_entry old isEntry).1]
      exact good.requested i old other isEntry
    · rw [last] at isEntry ⊢
      obtain rfl : fd = other := Int.natCast_inj.mp isEntry
      rw [own]
      exact (by decide : (0 : BitVec 16) = pollMask 0)
  · rw [State.added]
    dsimp only
    rw [Finset.card_insert_of_notMem fresh, good.card]
  · intro other member
    rcases Finset.mem_insert.mp member with rfl | registered
    · exact small
    · exact good.small other registered
  · intro other member
    rcases Finset.mem_insert.mp member with rfl | registered
    · rw [own]
      simp
    · rw [lists other registered]
      exact good.live other registered
  · intro other notMember
    rw [State.added, Finset.mem_insert, not_or] at notMember
    have kept : (s.added fd type).ioList other = s.ioList other :=
      Function.update_of_ne notMember.1 _ _
    rw [kept]
    exact good.idle other notMember.2
  · intro other registered _
    refine ⟨Finset.mem_insert_of_mem registered, ?_⟩
    obtain ⟨i, below, index, -⟩ := good.indexed other registered
    rw [entry, entry, lists other registered, index, Int.toNat_natCast, pfds i below]

theorem Good.verdict_new (good : s.Good) (fresh : fd ∉ s.registered) (type : FdType) :
    s.Verdict (.new fd type) := by
  refine ⟨fun _ => ?_, fun _ => trivial⟩
  by_cases small : fd < ioMaxFds
  · have room := good.count_lt small fresh
    refine ⟨s.added fd type, ?_, good.added small fresh type⟩
    have result : s.exec (.new fd type) =
        some { s.added fd type with registered := s.registered } := by
      rw [exec, ioNew, if_neg (not_not.mpr small), ioAddFd]
      rw [if_pos (show (s.setIo fd _).ioCount < ioMaxFds from room), setIo_ioList_self, setIo_setIo]
      rfl
    rw [step, result, Option.map_some, Op.registers, if_pos small]
    rfl
  · refine ⟨s, ?_, good, fun other registered _ => ⟨registered, rfl⟩⟩
    rw [step, exec, ioNew, if_pos small, Option.map_some, Op.registers, if_neg small]

/-- A mask is written for a descriptor that is not registered and nothing else happens. -/
theorem Good.setMask (good : s.Good) (fresh : fd ∉ s.registered) (mask : BitVec 5) :
    (s.setIo fd { s.ioList fd with events := mask }).Good ∧
      s.OthersKept fd (s.setIo fd { s.ioList fd with events := mask }) :=
  good.setIdle' fresh (good.idle fd fresh)

theorem Good.verdict_setEvents (good : s.Good) (fd : Nat) (events : BitVec 32) :
    s.Verdict (.setEvents fd events) := by
  by_cases small : fd < ioMaxFds
  swap
  · refine ⟨fun allowed => absurd allowed.1 small, ?_⟩
    rintro ⟨after, result, -⟩
    rw [step, exec, if_neg small] at result
    cases result
  have isExec : s.exec (.setEvents fd events) = s.ioSetEvents fd events := if_pos small
  by_cases registered : fd ∈ s.registered
  · obtain ⟨i, -, index, -⟩ := good.indexed fd registered
    refine ⟨fun _ => ?_, fun _ => ⟨small, Or.inl registered⟩⟩
    refine ⟨_, ?_, good.request registered index
      ((s.ioList fd).events ||| events.setWidth 5)⟩
    rw [step, isExec, good.ioSetEvents registered index]
    rfl
  · by_cases has : HasPoll events
    · rcases good.idle fd registered with ⟨index, -⟩ | ⟨index, type⟩
      · -- minus one leads out of the array
        have outside : s.step (.setEvents fd events) = none := by
          rw [step, isExec, State.ioSetEvents, if_pos has, modifyPoll, setIo_ioList_self, if_neg]
          · rfl
          · dsimp only
            omega
        refine ⟨?_, ?_⟩
        · rintro ⟨-, isRegistered | nothing | ⟨isZero, -⟩⟩
          · exact absurd isRegistered registered
          · exact absurd has nothing
          · omega
        · rintro ⟨after, result, -⟩
          rw [outside] at result
          cases result
      · obtain ⟨after, result, same, -, -, well, needed⟩ :=
          @modifyPoll_iff s fd good registered index
            { s.ioList fd with events := (s.ioList fd).events ||| events.setWidth 5 }
            index type fun poll => raisePoll poll events
        have isStep : s.step (.setEvents fd events) = some after := by
          rw [step, isExec, State.ioSetEvents, if_pos has, result, Option.map_some,
            Op.registers, ← same]
        refine ⟨?_, ?_⟩
        · rintro ⟨-, isRegistered | nothing | ⟨-, harmless⟩⟩
          · exact absurd isRegistered registered
          · exact absurd has nothing
          · exact ⟨after, isStep, well harmless⟩
        · rintro ⟨after', result', -, kept⟩
          obtain rfl := Option.some.inj (isStep.symm.trans result')
          exact ⟨small, Or.inr (Or.inr ⟨index, needed kept⟩)⟩
    · refine ⟨fun _ => ?_, fun _ => ⟨small, Or.inr (Or.inl has)⟩⟩
      refine ⟨_, ?_, good.setMask registered ((s.ioList fd).events ||| events.setWidth 5)⟩
      rw [step, isExec, State.ioSetEvents, if_neg has]
      rfl

theorem Good.verdict_unsetEvents (good : s.Good) (fd : Nat) (events : BitVec 32) :
    s.Verdict (.unsetEvents fd events) := by
  by_cases small : fd < ioMaxFds
  swap
  · refine ⟨fun allowed => absurd allowed.1 small, ?_⟩
    rintro ⟨after, result, -⟩
    rw [step, exec, if_neg small] at result
    cases result
  have isExec : s.exec (.unsetEvents fd events) = s.ioUnsetEvents fd events := if_pos small
  by_cases registered : fd ∈ s.registered
  · obtain ⟨i, -, index, -⟩ := good.indexed fd registered
    refine ⟨fun _ => ?_, fun _ => ⟨small, Or.inl registered⟩⟩
    refine ⟨_, ?_, good.request registered index
      ((s.ioList fd).events &&& ~~~events.setWidth 5)⟩
    rw [step, isExec, good.ioUnsetEvents registered index]
    rfl
  · obtain ⟨after, result, same, well, needed⟩ := good.unsetEvents_fresh registered events
    have isStep : s.step (.unsetEvents fd events) = some after := by
      rw [step, isExec, result, Option.map_some, Op.registers, ← same]
    refine ⟨?_, ?_⟩
    · rintro ⟨-, isRegistered | harmless⟩
      · exact absurd isRegistered registered
      · exact ⟨after, isStep, well harmless⟩
    · rintro ⟨after', result', -, kept⟩
      obtain rfl := Option.some.inj (isStep.symm.trans result')
      exact ⟨small, Or.inr (needed kept)⟩

/-- `io_shutup` of a descriptor of the table. -/
theorem Good.shutup (good : s.Good) (fd : Nat) (emptied : Bool) :
    (s.ShutupAllowed fd → ∃ after, s.ioShutup fd emptied = some after ∧
      { after with registered := s.registered.erase fd }.Good ∧
      s.OthersKept fd { after with registered := s.registered.erase fd }) ∧
    ∀ after, s.ioShutup fd emptied = some after →
      { after with registered := s.registered.erase fd }.Sound →
      s.OthersKept fd { after with registered := s.registered.erase fd } →
      s.ShutupAllowed fd := by
  by_cases registered : fd ∈ s.registered
  · obtain ⟨after, result, well, needed⟩ := good.shutup_registered registered emptied
    rw [ShutupAllowed, if_pos registered]
    refine ⟨fun zeroBefore => ⟨after, result, well zeroBefore⟩, ?_⟩
    intro after' result' sound _
    obtain rfl := Option.some.inj (result.symm.trans result')
    exact needed sound
  · obtain ⟨well, needed⟩ := good.shutup_fresh registered emptied
    rw [Finset.erase_eq_of_notMem registered]
    refine ⟨fun allowed => ?_, needed⟩
    obtain ⟨after, result, same, good', kept⟩ := well allowed
    rw [← same]
    exact ⟨after, result, good', kept⟩

theorem Good.verdict_shutup (good : s.Good) (fd : Nat) (emptied : Bool) :
    s.Verdict (.shutup fd emptied) := by
  obtain ⟨well, needed⟩ := good.shutup fd emptied
  refine ⟨?_, ?_⟩
  · rintro ⟨small, allowed⟩
    obtain ⟨after, result, good', kept⟩ := well allowed
    refine ⟨_, step_eq_some_iff.mpr ⟨after, ?_, rfl⟩, good', kept⟩
    rw [exec, if_pos small, result]
  · rintro ⟨_, result, sound, kept⟩
    obtain ⟨after, isExec, rfl⟩ := step_eq_some_iff.mp result
    rw [exec] at isExec
    split_ifs at isExec with small
    exact ⟨small, needed after isExec sound kept⟩

theorem Good.verdict_push (good : s.Good) (fd : Nat) (emptied : Bool) :
    s.Verdict (.push fd emptied) := by
  obtain ⟨well, needed⟩ := good.shutup fd emptied
  by_cases small : fd < ioMaxFds
  · refine ⟨?_, ?_⟩
    · intro allowed
      obtain ⟨after, result, good', kept⟩ := well (allowed small)
      refine ⟨_, step_eq_some_iff.mpr ⟨after, ?_, rfl⟩, good', kept⟩
      rw [exec, ioPush, if_pos small, result]
    · rintro ⟨_, result, sound, kept⟩ _
      obtain ⟨after, isExec, rfl⟩ := step_eq_some_iff.mp result
      rw [exec, ioPush, if_pos small] at isExec
      exact needed after isExec sound kept
  · refine ⟨fun _ => ?_, fun _ inside => absurd inside small⟩
    have fresh : fd ∉ s.registered := fun registered => small (good.small fd registered)
    refine ⟨s, ?_, good, fun other registered _ => ⟨registered, rfl⟩⟩
    rw [step, exec, ioPush, if_neg small, Option.map_some, Op.registers,
      Finset.erase_eq_of_notMem fresh]

theorem ioRemoveFd_of_neg (index : (s.ioList fd).index < 0) : s.ioRemoveFd fd = s := by
  rw [ioRemoveFd]
  exact if_neg (by omega)

/-- A descriptor that was shut but not destroyed. -/
theorem ioShutup_of_closed (closed : (s.ioList fd).closed = true)
    (index : (s.ioList fd).index < 0) (emptied : Bool) :
    ∃ io, io.index = (s.ioList fd).index ∧ s.ioShutup fd emptied = some (s.setIo fd io) := by
  have shut : s.closeFd fd emptied = some s := by simp [closeFd, closed]
  rw [State.ioShutup, shut, Option.bind_some]
  by_cases asked : (s.ioList fd).events = 0
  · rw [if_neg (not_not.mpr asked)]
    exact ⟨s.ioList fd, rfl, by simp [setIo]⟩
  · rw [if_pos asked, ioUnsetEvents_of_neg index]
    exact ⟨{ s.ioList fd with
      events := (s.ioList fd).events &&& ~~~(ioRead ||| ioWrite ||| ioError).setWidth 5 },
      rfl, rfl⟩

theorem Good.verdict_destroy (good : s.Good) (fd : Nat) (emptied : Bool) :
    s.Verdict (.destroy fd emptied) := by
  by_cases small : fd < ioMaxFds
  swap
  · refine ⟨fun allowed => absurd allowed.1 small, ?_⟩
    rintro ⟨after, result, -⟩
    rw [step, exec, if_neg small] at result
    cases result
  have isExec : s.exec (.destroy fd emptied) = s.ioDestroy fd emptied := if_pos small
  by_cases registered : fd ∈ s.registered
  · obtain ⟨-, dead, type⟩ := good.live fd registered
    obtain ⟨written, io, good', kept, same, indices, result, index, -⟩ :=
      good.ioShutup registered emptied
    have registered' : fd ∈ written.registered := same ▸ registered
    have zeroIff : written.ZeroBefore fd ↔ s.ZeroBefore fd := by
      rw [ZeroBefore, ZeroBefore, same, indices, indices]
    have negative : (((written.ioRemoveFd fd).setIo fd io).ioList fd).index < 0 := by
      rw [setIo_ioList_self]
      omega
    have isStep : s.step (.destroy fd emptied) =
        some (written.dropped fd { Io.zero with dead := true }) := by
      rw [step, isExec, ioDestroy, if_neg (by rw [dead]; exact Bool.false_ne_true), if_neg type,
        result, Option.map_some, ioRemoveFd_of_neg negative, setIo_setIo, Option.map_some,
        State.dropped, same]
      rfl
    refine ⟨?_, ?_⟩
    · rintro ⟨-, zeroBefore⟩
      obtain ⟨good'', kept'⟩ := @dropped written fd good' registered'
        (zeroIff.mpr (zeroBefore registered)) { Io.zero with dead := true } (Or.inr ⟨rfl, rfl⟩)
      exact ⟨_, isStep, good'', kept.trans kept'⟩
    · rintro ⟨after, result', sound, -⟩
      obtain rfl := Option.some.inj (isStep.symm.trans result')
      exact ⟨small, fun _ => zeroIff.mp (good'.zeroBefore_of_dropped registered' sound)⟩
  · refine ⟨fun _ => ?_, fun _ => ⟨small, fun isRegistered => absurd isRegistered registered⟩⟩
    have isStep : ∀ after, s.ioDestroy fd emptied = some after →
        after.registered = s.registered → s.step (.destroy fd emptied) = some after := by
      intro after result same
      rw [step, isExec, result, Option.map_some, Op.registers,
        Finset.erase_eq_of_notMem registered, ← same]
    by_cases gone : (s.ioList fd).dead = true ∨ (s.ioList fd).type = none
    · refine ⟨s, isStep s ?_ rfl, good, fun other registered _ => ⟨registered, rfl⟩⟩
      rw [ioDestroy]
      split_ifs with dead none_
      · rfl
      · rfl
      · exact absurd gone (not_or.mpr ⟨dead, none_⟩)
    · rw [not_or] at gone
      obtain ⟨index, closed, -⟩ := (good.idle fd registered).resolve_right
        fun idle => gone.2 idle.2
      have negative : (s.ioList fd).index < 0 := by omega
      obtain ⟨io, isIndex, result⟩ := ioShutup_of_closed closed negative emptied
      obtain ⟨good', kept⟩ := @setIdle' s fd good registered { Io.zero with dead := true }
        (Or.inr ⟨rfl, rfl⟩)
      refine ⟨s.setIo fd { Io.zero with dead := true }, isStep _ ?_ rfl, good', kept⟩
      rw [ioDestroy, if_neg gone.1, if_neg gone.2, result, Option.map_some,
        ioRemoveFd_of_neg, setIo_setIo]
      rw [setIo_ioList_self, isIndex]
      exact negative

/-! ## Runs -/

theorem Good.verdict (good : s.Good) {op : Op} (promised : s.Promised op) : s.Verdict op := by
  cases op with
  | new fd type => exact good.verdict_new promised type
  | setEvents fd events => exact good.verdict_setEvents fd events
  | unsetEvents fd events => exact good.verdict_unsetEvents fd events
  | shutup fd emptied => exact good.verdict_shutup fd emptied
  | push fd emptied => exact good.verdict_push fd emptied
  | destroy fd emptied => exact good.verdict_destroy fd emptied

end

/-- In a run whose calls of `io_new` are for descriptors that are not registered, every
operation leaves the tables sound and the entries of other descriptors alone if and only if
every operation is one that is allowed. -/
theorem doesWell_iff_allowed (run : List Op) (promised : GuardedRun step Promised boot run) :
    GuardedRun step DoesWell boot run ↔ GuardedRun step Allowed boot run := by
  apply @guardedRun_congr State Op step Promised DoesWell Allowed Good
  · intro s op good kept
    have verdict := good.verdict kept
    refine ⟨verdict.needed, fun allowed => ?_⟩
    obtain ⟨after, result, good', others⟩ := verdict.well allowed
    exact ⟨after, result, good'.toSound, others⟩
  · intro s op next good kept allowed stepped
    obtain ⟨after, result, good', -⟩ := (good.verdict kept).well allowed
    obtain rfl := Option.some.inj (result.symm.trans stepped)
    exact good'
  · exact good_boot
  · exact promised

/-- Descriptor 5 is registered behind descriptor 0 and removed. -/
theorem doesWell_of_zeroFirst :
    GuardedRun step DoesWell boot [.new 0 .file, .new 5 .socket, .shutup 5 false] :=
  (doesWell_iff_allowed _ (by decide)).mpr (by decide)

/-- Descriptor 5 is registered before descriptor 0. -/
def zeroBehind : State :=
  (run step boot [.new 5 .socket, .new 0 .file]).getD boot

/-- Descriptor 5 is removed, and descriptor 0 keeps its index. -/
theorem not_doesWell_of_zeroBehind :
    ¬ ∀ run, GuardedRun step Promised boot run → GuardedRun step DoesWell boot run := by
  intro all
  have guarded := all ([.new 5 .socket, .new 0 .file] ++ [.shutup 5 false]) (by decide)
  obtain ⟨⟨after, result, sound, -⟩, -⟩ := guarded.of_append.2 zeroBehind rfl
  have index : (zeroBehind.step (.shutup 5 false)).map (fun after => (after.ioList 0).index) =
      some 1 := by decide
  have count : (zeroBehind.step (.shutup 5 false)).map State.ioCount = some 1 := by decide
  have registered : (zeroBehind.step (.shutup 5 false)).map State.registered = some {0} := by
    decide
  rw [result, Option.map_some, Option.some.injEq] at index count registered
  obtain ⟨i, below, isIndex, -⟩ := sound.indexed 0 (by rw [registered]; decide)
  omega

end State

end PollTable

end Chaosircd
