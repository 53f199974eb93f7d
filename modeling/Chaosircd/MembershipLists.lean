import Chaosircd.Memberships

/-!
# The lists agree with the blocks

What a membership block says about its channel, its client and its location
decides which lists it is on, except for the blocks of an `NJOIN` that are not
linked yet.  Every operation keeps this, whatever the line of an `NJOIN` holds.
-/

namespace Chaosircd

namespace Memberships

open Dlink

namespace State

/-- The block is in use and not one of those that wait to be linked. -/
def Linked (s : State) (pending : List Nat) (cuptr : Nat) : Prop :=
  s.used cuptr = true ∧ cuptr ∉ pending

/-- The lists are what the blocks say, and every number that is in use has been given out. -/
structure Inv (s : State) (pending : List Nat) : Prop where
  chanusers : s.chanusers.Indexes fun chptr cuptr =>
    s.Linked pending cuptr ∧ (s.chanuser cuptr).channel = chptr
  lchanusers : s.lchanusers.Indexes fun chptr cuptr =>
    s.Linked pending cuptr ∧ (s.chanuser cuptr).channel = chptr ∧
      (s.chanuser cuptr).isLocal = true
  rchanusers : s.rchanusers.Indexes fun chptr cuptr =>
    s.Linked pending cuptr ∧ (s.chanuser cuptr).channel = chptr ∧
      (s.chanuser cuptr).isLocal = false
  channels : s.channels.Indexes fun cptr cuptr =>
    s.Linked pending cuptr ∧ (s.chanuser cuptr).client = cptr
  given : ∀ cuptr, s.used cuptr = true → cuptr < s.chanuserHeap ∧
    (s.chanuser cuptr).channel < s.channelId ∧ (s.chanuser cuptr).client < s.clientId
  registered : ∀ chptr, (s.channel chptr).isSome → chptr < s.channelId
  present : ∀ cptr, (s.client cptr).isSome → cptr < s.clientId

theorem inv_boot : boot.Inv [] := by
  refine ⟨?_, ?_, ?_, ?_, by simp [boot], by simp [boot], by simp [boot]⟩
  all_goals
    apply Lists.indexes_empty.congr
    simp [Linked, boot]

section

variable {s : State} {pending : List Nat} {chptr cptr cuptr : Nat}

theorem Inv.clientNew (inv : s.Inv pending) (isLocal : Bool) :
    (s.clientNew isLocal).Inv pending := by
  have unlisted : s.channels.listZero s.clientId = s.channels := by
    apply inv.channels.listZero
    rintro cuptr ⟨linked, isClient⟩
    exact absurd (inv.given cuptr linked.1).2.2 (by omega)
  refine ⟨inv.chanusers, inv.lchanusers, inv.rchanusers, ?_, ?_, inv.registered, ?_⟩
  · simp only [State.clientNew, unlisted]
    exact inv.channels
  · intro cuptr used
    obtain ⟨block, channel, client⟩ := inv.given cuptr used
    exact ⟨block, channel, Nat.lt_succ_of_lt client⟩
  · intro cptr isSome
    by_cases same : cptr = s.clientId
    · rw [same]
      exact Nat.lt_succ_self _
    · rw [State.clientNew] at isSome
      dsimp only at isSome
      rw [Function.update_of_ne same] at isSome
      exact Nat.lt_succ_of_lt (inv.present cptr isSome)

theorem Inv.channelNew (inv : s.Inv pending) : s.channelNew.Inv pending := by
  have unlisted : ∀ cuptr, s.used cuptr = true → (s.chanuser cuptr).channel ≠ s.channelId := by
    intro cuptr used isChannel
    exact absurd (inv.given cuptr used).2.1 (by omega)
  have members : s.chanusers.listZero s.channelId = s.chanusers :=
    inv.chanusers.listZero fun cuptr inside => unlisted cuptr inside.1.1 inside.2
  have locals : s.lchanusers.listZero s.channelId = s.lchanusers :=
    inv.lchanusers.listZero fun cuptr inside => unlisted cuptr inside.1.1 inside.2.1
  have remotes : s.rchanusers.listZero s.channelId = s.rchanusers :=
    inv.rchanusers.listZero fun cuptr inside => unlisted cuptr inside.1.1 inside.2.1
  refine ⟨?_, ?_, ?_, inv.channels, ?_, ?_, inv.present⟩
  · simp only [State.channelNew, members]
    exact inv.chanusers
  · simp only [State.channelNew, locals]
    exact inv.lchanusers
  · simp only [State.channelNew, remotes]
    exact inv.rchanusers
  · intro cuptr used
    obtain ⟨block, channel, client⟩ := inv.given cuptr used
    exact ⟨block, Nat.lt_succ_of_lt channel, client⟩
  · intro chptr isSome
    by_cases same : chptr = s.channelId
    · rw [same]
      exact Nat.lt_succ_self _
    · rw [State.channelNew] at isSome
      dsimp only at isSome
      rw [Function.update_of_ne same] at isSome
      exact Nat.lt_succ_of_lt (inv.registered chptr isSome)

/-- The mode of a channel does not matter, as long as no channel appears. -/
theorem Inv.setChannel (inv : s.Inv pending) {channel : Nat → Option Bool}
    (fewer : ∀ chptr, (channel chptr).isSome → (s.channel chptr).isSome) :
    { s with channel := channel }.Inv pending :=
  ⟨inv.chanusers, inv.lchanusers, inv.rchanusers, inv.channels, inv.given,
    fun chptr isSome => inv.registered chptr (fewer chptr isSome), inv.present⟩

theorem Inv.setClient (inv : s.Inv pending) {client : Nat → Option Bool}
    (fewer : ∀ cptr, (client cptr).isSome → (s.client cptr).isSome) :
    { s with client := client }.Inv pending :=
  ⟨inv.chanusers, inv.lchanusers, inv.rchanusers, inv.channels, inv.given,
    inv.registered, fun cptr isSome => inv.present cptr (fewer cptr isSome)⟩

/-- The lists stay as they are while blocks that are not on them change. -/
theorem Inv.rewrite (inv : s.Inv pending) {chanuser : Nat → Chanuser} {used : Nat → Bool}
    {heap : Nat} {pending' : List Nat}
    (linkedIff : ∀ cuptr, used cuptr = true ∧ cuptr ∉ pending' ↔ s.Linked pending cuptr)
    (same : ∀ cuptr, s.Linked pending cuptr → chanuser cuptr = s.chanuser cuptr)
    (given : ∀ cuptr, used cuptr = true → cuptr < heap ∧
      (chanuser cuptr).channel < s.channelId ∧ (chanuser cuptr).client < s.clientId) :
    { s with chanuser := chanuser, used := used, chanuserHeap := heap }.Inv pending' := by
  have agree : ∀ (p : Chanuser → Prop) cuptr,
      (used cuptr = true ∧ cuptr ∉ pending') ∧ p (chanuser cuptr) ↔
        s.Linked pending cuptr ∧ p (s.chanuser cuptr) := by
    intro p cuptr
    rw [linkedIff]
    refine and_congr_right fun linked => ?_
    rw [same cuptr linked]
  refine ⟨?_, ?_, ?_, ?_, given, inv.registered, inv.present⟩
  · exact inv.chanusers.congr fun chptr cuptr => agree (fun block => block.channel = chptr) cuptr
  · exact inv.lchanusers.congr fun chptr cuptr =>
      agree (fun block => block.channel = chptr ∧ block.isLocal = true) cuptr
  · exact inv.rchanusers.congr fun chptr cuptr =>
      agree (fun block => block.channel = chptr ∧ block.isLocal = false) cuptr
  · exact inv.channels.congr fun cptr cuptr => agree (fun block => block.client = cptr) cuptr

theorem Inv.chanuserNew (inv : s.Inv pending) (channel : chptr < s.channelId)
    (client : cptr < s.clientId) :
    (s.chanuserNew chptr cptr).Inv (s.chanuserHeap :: pending) := by
  have unused : ∀ cuptr, s.used cuptr = true → cuptr ≠ s.chanuserHeap := by
    intro cuptr used
    exact Nat.ne_of_lt (inv.given cuptr used).1
  apply inv.rewrite
  · intro cuptr
    by_cases same : cuptr = s.chanuserHeap
    · subst same
      constructor
      · rintro ⟨-, apart⟩
        simp at apart
      · intro linked
        exact absurd rfl (unused _ linked.1)
    · simp [same, Linked]
  · intro cuptr linked
    exact Function.update_of_ne (unused cuptr linked.1) _ _
  · intro cuptr used
    by_cases same : cuptr = s.chanuserHeap
    · subst same
      simp [channel, client]
    · rw [Function.update_of_ne same] at used ⊢
      obtain ⟨block, bounds⟩ := inv.given cuptr used
      exact ⟨Nat.lt_succ_of_lt block, bounds⟩

/-- A block that is linked comes to one list of each family that takes it. -/
theorem linked_cons_iff (used : s.used cuptr = true) (notPending : cuptr ∉ pending)
    {takes : Chanuser → Nat → Prop} {i : Nat} (taken : ∀ j, takes (s.chanuser cuptr) j ↔ j = i)
    (j other : Nat) : s.Linked pending other ∧ takes (s.chanuser other) j ↔
      (s.Linked (cuptr :: pending) other ∧ takes (s.chanuser other) j) ∨
        j = i ∧ other = cuptr := by
  by_cases same : other = cuptr
  · subst same
    simp [Linked, used, notPending, taken]
  · simp [Linked, same]

/-- A family that does not take the block stays as it is. -/
theorem linked_cons_iff_of_not {takes : Chanuser → Nat → Prop}
    (untaken : ∀ j, ¬ takes (s.chanuser cuptr) j) (j other : Nat) :
    s.Linked pending other ∧ takes (s.chanuser other) j ↔
      s.Linked (cuptr :: pending) other ∧ takes (s.chanuser other) j := by
  by_cases same : other = cuptr
  · subst same
    simp [untaken]
  · simp [Linked, same]

theorem Inv.link (inv : s.Inv (cuptr :: pending)) (used : s.used cuptr = true)
    (notPending : cuptr ∉ pending) (channel : (s.chanuser cuptr).channel = chptr)
    (client : (s.chanuser cuptr).client = cptr) {isLocal : Bool}
    (location : (s.chanuser cuptr).isLocal = isLocal) :
    (s.link cuptr chptr cptr isLocal).Inv pending := by
  have fresh : ∀ p : Prop, ¬ (s.Linked (cuptr :: pending) cuptr ∧ p) := by
    rintro p ⟨linked, -⟩
    exact linked.2 List.mem_cons_self
  refine ⟨?_, ?_, ?_, ?_, inv.given, inv.registered, inv.present⟩
  · apply inv.chanusers.addTail fun j => fresh _
    apply @linked_cons_iff s pending cuptr used notPending
      (fun block chptr => block.channel = chptr)
    intro j
    rw [channel, eq_comm]
  · cases isLocal with
    | true =>
        apply inv.lchanusers.addTail fun j => fresh _
        apply @linked_cons_iff s pending cuptr used notPending
          (fun block chptr => block.channel = chptr ∧ block.isLocal = true)
        intro j
        rw [channel, location, eq_comm]
        simp
    | false =>
        apply inv.lchanusers.congr
        apply @linked_cons_iff_of_not s pending cuptr
          (fun block chptr => block.channel = chptr ∧ block.isLocal = true)
        simp [location]
  · cases isLocal with
    | true =>
        apply inv.rchanusers.congr
        apply @linked_cons_iff_of_not s pending cuptr
          (fun block chptr => block.channel = chptr ∧ block.isLocal = false)
        simp [location]
    | false =>
        apply inv.rchanusers.addTail fun j => fresh _
        apply @linked_cons_iff s pending cuptr used notPending
          (fun block chptr => block.channel = chptr ∧ block.isLocal = false)
        intro j
        rw [channel, location, eq_comm]
        simp
  · apply inv.channels.addTail fun j => fresh _
    apply @linked_cons_iff s pending cuptr used notPending
      (fun block cptr => block.client = cptr)
    intro j
    rw [client, eq_comm]

theorem Inv.chanuserAdd (inv : s.Inv []) (channel : chptr < s.channelId) (cptr : Nat) :
    (s.chanuserAdd chptr cptr).Inv [] := by
  rw [State.chanuserAdd]
  cases found : s.client cptr with
  | none => exact inv
  | some isLocal =>
      have client : cptr < s.clientId := inv.present cptr (by rw [found]; rfl)
      have new := inv.chanuserNew channel client
      dsimp only
      have located := @Inv.rewrite (s.chanuserNew chptr cptr) [s.chanuserHeap] new
        (Function.update (s.chanuserNew chptr cptr).chanuser s.chanuserHeap
          { (s.chanuserNew chptr cptr).chanuser s.chanuserHeap with isLocal := isLocal })
        (s.chanuserNew chptr cptr).used (s.chanuserNew chptr cptr).chanuserHeap
        [s.chanuserHeap] (fun _ => Iff.rfl) (by
          intro cuptr linked
          refine Function.update_of_ne ?_ _ _
          rintro rfl
          exact linked.2 List.mem_cons_self) (by
          intro cuptr used
          by_cases same : cuptr = s.chanuserHeap
          · subst same
            simpa using new.given _ used
          · rw [Function.update_of_ne same]
            exact new.given cuptr used)
      apply located.link
      · simp [State.chanuserNew]
      · simp
      · simp [State.chanuserNew]
      · simp [State.chanuserNew]
      · simp

/-- A linked block leaves the lists that it is on. -/
theorem linked_delete_iff {takes : Chanuser → Nat → Prop} (j other : Nat) :
    (Function.update s.used cuptr false other = true ∧ other ∉ pending) ∧
        takes (s.chanuser other) j ↔
      (s.Linked pending other ∧ takes (s.chanuser other) j) ∧ other ≠ cuptr := by
  by_cases same : other = cuptr
  · subst same
    simp
  · simp [Linked, same]

theorem linked_delete_iff_of_not {takes : Chanuser → Nat → Prop}
    (untaken : ∀ j, ¬ takes (s.chanuser cuptr) j) (j other : Nat) :
    (Function.update s.used cuptr false other = true ∧ other ∉ pending) ∧
        takes (s.chanuser other) j ↔
      s.Linked pending other ∧ takes (s.chanuser other) j := by
  by_cases same : other = cuptr
  · subst same
    simp [untaken]
  · simp [Linked, same]

theorem Inv.chanuserDelete (inv : s.Inv pending) (linked : s.Linked pending cuptr) :
    (s.chanuserDelete cuptr).Inv pending := by
  refine ⟨?_, ?_, ?_, ?_, ?_, inv.registered, inv.present⟩
  · exact inv.chanusers.delete ⟨linked, rfl⟩
      (@linked_delete_iff s pending cuptr fun block chptr => block.channel = chptr)
  · cases location : (s.chanuser cuptr).isLocal with
    | true =>
        simp only [State.chanuserDelete, location, if_true]
        exact inv.lchanusers.delete ⟨linked, rfl, location⟩
          (@linked_delete_iff s pending cuptr fun block chptr =>
            block.channel = chptr ∧ block.isLocal = true)
    | false =>
        simp only [State.chanuserDelete, location, Bool.false_eq_true, if_false]
        exact inv.lchanusers.congr
          (@linked_delete_iff_of_not s pending cuptr
            (fun block chptr => block.channel = chptr ∧ block.isLocal = true)
            (by simp [location]))
  · cases location : (s.chanuser cuptr).isLocal with
    | true =>
        simp only [State.chanuserDelete, location, if_true]
        exact inv.rchanusers.congr
          (@linked_delete_iff_of_not s pending cuptr
            (fun block chptr => block.channel = chptr ∧ block.isLocal = false)
            (by simp [location]))
    | false =>
        simp only [State.chanuserDelete, location, Bool.false_eq_true, if_false]
        exact inv.rchanusers.delete ⟨linked, rfl, location⟩
          (@linked_delete_iff s pending cuptr fun block chptr =>
            block.channel = chptr ∧ block.isLocal = false)
  · exact inv.channels.delete ⟨linked, rfl⟩
      (@linked_delete_iff s pending cuptr fun block cptr => block.client = cptr)
  · intro other used
    apply inv.given other
    by_cases same : other = cuptr
    · subst same
      simp [State.chanuserDelete] at used
    · simpa [State.chanuserDelete, same] using used

/-! ## Finding a membership -/

theorem Inv.of_chanuserFind (inv : s.Inv pending)
    (found : s.chanuserFind chptr cptr = some cuptr) :
    s.Linked pending cuptr ∧ (s.chanuser cuptr).channel = chptr ∧
      (s.chanuser cuptr).client = cptr := by
  rw [chanuserFind] at found
  split_ifs at found with isSome
  have member := inv.channels.mem_nodes.mp (List.mem_of_find?_eq_some found)
  have onChannel := List.find?_some found
  exact ⟨member.1, by simpa using onChannel, member.2⟩

theorem Inv.not_linked_of_chanuserFind (inv : s.Inv pending)
    (isSome : (s.client cptr).isSome) (absent : s.chanuserFind chptr cptr = none)
    (linked : s.Linked pending cuptr) :
    ¬ ((s.chanuser cuptr).channel = chptr ∧ (s.chanuser cuptr).client = cptr) := by
  rintro ⟨channel, client⟩
  rw [chanuserFind, if_pos isSome, List.find?_eq_none] at absent
  have other := absent cuptr (inv.channels.mem_nodes.mpr ⟨linked, client⟩)
  exact other (by simpa using channel)

/-! ## Deleting a channel -/

/-- A channel without members goes away and nothing else happens. -/
theorem Inv.channelDelete_eq (inv : s.Inv pending)
    (isEmpty : (s.chanusers.list chptr).size = 0) :
    s.channelDelete chptr = { s with channel := Function.update s.channel chptr none } := by
  have nobody : ∀ cuptr, ¬ (s.Linked pending cuptr ∧ (s.chanuser cuptr).channel = chptr) := by
    intro cuptr member
    have listed := inv.chanusers.mem_nodes.mpr member
    have length := inv.chanusers.size chptr
    rw [isEmpty] at length
    rw [List.eq_nil_of_length_eq_zero length.symm] at listed
    cases listed
  have members : s.chanusers.listZero chptr = s.chanusers := inv.chanusers.listZero nobody
  have locals : s.lchanusers.listZero chptr = s.lchanusers :=
    inv.lchanusers.listZero fun cuptr inside => nobody cuptr ⟨inside.1, inside.2.1⟩
  simp only [channelDelete, channelRelease, isEmpty, foreachSafe, members, locals]

theorem Inv.channelDelete (inv : s.Inv pending)
    (isEmpty : (s.chanusers.list chptr).size = 0) : (s.channelDelete chptr).Inv pending := by
  rw [inv.channelDelete_eq isEmpty]
  apply inv.setChannel
  intro other isSome
  by_cases same : other = chptr
  · subst same
    simp at isSome
  · simpa [same] using isSome

end

end State

end Memberships

end Chaosircd
