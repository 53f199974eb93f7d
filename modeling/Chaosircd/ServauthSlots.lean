import Chaosircd.Servauth
import Chaosircd.TransitionSystem

/-!
# The slots of the lookup process

A state is sound when the process has not crashed, a slot is busy exactly while one lookup is
pending for it, and of every accepted command there is one reply, or else one slot that will
give it.  A step can do three things to this: answer a command at once, let a command occupy a
slot, and let a slot reply and be free again.
-/

namespace Chaosircd

namespace Servauth

/-- The slot is busy for the command with this number. -/
def Query.serves (n : Nat) (q : Query) : Bool :=
  decide (¬ q.IsFree) && decide (q.serial = some n)

namespace State

/-- The number of replies to a command. -/
def answers (s : State) (n : Nat) : Nat :=
  s.replies.countP fun reply => reply.serial = some n

/-- The number of slots that are busy for a command. -/
def servers (s : State) (n : Nat) : Nat :=
  s.slots.countP fun q => q.serves n

/-- What holds when no slot has leaked and no reply is lost or doubled. -/
structure Sound (s : State) : Prop where
  alive : s.status ≠ .crashed
  pending : ∀ q ∈ s.slots, q.pending = if q.IsFree then 0 else 1
  owned : ∀ q ∈ s.slots, ¬ q.IsFree → ∃ n, q.serial = some n ∧ s.accepted[n]? = q.id
  named : ∀ reply ∈ s.replies, ∃ n, reply.serial = some n ∧ s.accepted[n]? = some reply.id
  once : ∀ n, s.answers n + s.servers n = if n < s.accepted.length then 1 else 0

/-- What else holds: the entries of two of the caches can always be given up. -/
structure Inv (s : State) : Prop extends s.Sound where
  auth : Yielding [1, 2] s.authcache
  dns : Yielding [1, 2] s.dnscache

/-- A state that looks the same to commands and replies. -/
structure Alike (s s' : State) : Prop where
  slots : s'.slots = s.slots
  accepted : s'.accepted = s.accepted
  replies : s'.replies = s.replies
  status : s'.status ≠ .crashed

theorem Alike.sound {s s' : State} (alike : s.Alike s') (sound : s.Sound) : s'.Sound where
  alive := alike.status
  pending := alike.slots ▸ sound.pending
  owned := by
    rw [alike.slots, alike.accepted]
    exact sound.owned
  named := by
    rw [alike.replies, alike.accepted]
    exact sound.named
  once := by
    unfold answers servers
    rw [alike.slots, alike.accepted, alike.replies]
    exact sound.once

/-- Where a slot changes, so does the number of the slots that are busy for a command. -/
theorem servers_set (s : State) {i : Nat} (inside : i < s.slots.length) (q : Query) (n : Nat) :
    { s with slots := s.slots.set i q }.servers n + (s.slots[i].serves n).toNat =
      s.servers n + (q.serves n).toNat := by
  have split := List.countP_set (p := fun q : Query => q.serves n) (a := q) inside
  have counted : (s.slots[i].serves n).toNat ≤ s.servers n := by
    cases serving : s.slots[i].serves n with
    | false => exact Nat.zero_le _
    | true => exact List.countP_pos_iff.mpr ⟨_, List.getElem_mem inside, serving⟩
  have converted (b : Bool) : (if b = true then 1 else 0) = b.toNat := by cases b <;> rfl
  rw [converted, converted] at split
  unfold servers at counted ⊢
  dsimp only
  omega

namespace Sound

variable {s : State}

theorem owner (sound : s.Sound) {q : Query} (member : q ∈ s.slots) (busy : ¬ q.IsFree) :
    ∃ n id, q.serial = some n ∧ s.accepted[n]? = some id ∧ q.id = some id := by
  obtain ⟨n, serial, same⟩ := sound.owned q member busy
  obtain ⟨id, named⟩ := Option.ne_none_iff_exists'.mp busy
  exact ⟨n, id, serial, same.trans named, named⟩

/-- A command is answered at once. -/
theorem answer (sound : s.Sound) (kind : ReplyKind) (id : CString) (text : Option CString) :
    ((s.send (some s.accepted.length) kind id text).accept id).Sound where
  alive := sound.alive
  pending := sound.pending
  owned := by
    intro q member busy
    obtain ⟨n, id, serial, same, named⟩ := sound.owner member busy
    obtain ⟨inside, _⟩ := List.getElem?_eq_some_iff.mp same
    refine ⟨n, serial, ?_⟩
    rw [named, ← same]
    exact List.getElem?_append_left inside
  named := by
    intro reply member
    rcases List.mem_append.mp member with old | new
    · obtain ⟨n, serial, same⟩ := sound.named reply old
      obtain ⟨inside, _⟩ := List.getElem?_eq_some_iff.mp same
      exact ⟨n, serial, (List.getElem?_append_left inside).trans same⟩
    · obtain rfl := List.mem_singleton.mp new
      exact ⟨s.accepted.length, rfl, List.getElem?_concat_length⟩
  once := by
    intro n
    have once := sound.once n
    simp only [answers, servers, accept, send, List.countP_append, List.length_append,
      List.countP_singleton, Option.some.injEq, decide_eq_true_eq, List.length_singleton]
      at once ⊢
    split <;> split at once <;> split <;> omega

/-- A command occupies a free slot. -/
theorem occupy (sound : s.Sound) {i : Nat} (inside : i < s.slots.length)
    (free : s.slots[i].IsFree) {id : CString} {q : Query} (named : q.id = some id)
    (serial : q.serial = some s.accepted.length) (pending : q.pending = 1) :
    ({ s with slots := s.slots.set i q }.accept id).Sound where
  alive := sound.alive
  pending := by
    intro other member
    cases List.mem_or_eq_of_mem_set member with
    | inl old => exact sound.pending other old
    | inr new =>
        have busy : ¬ q.IsFree := by simp [Query.IsFree, named]
        rw [new, pending, if_neg busy]
  owned := by
    intro other member busy
    cases List.mem_or_eq_of_mem_set member with
    | inl old =>
        obtain ⟨n, id, serial, same, named⟩ := sound.owner old busy
        obtain ⟨inside, _⟩ := List.getElem?_eq_some_iff.mp same
        refine ⟨n, serial, ?_⟩
        rw [named, ← same]
        exact List.getElem?_append_left inside
    | inr new =>
        refine ⟨s.accepted.length, new ▸ serial, ?_⟩
        rw [new, named]
        exact List.getElem?_concat_length
  named := by
    intro reply member
    obtain ⟨n, serial, same⟩ := sound.named reply member
    obtain ⟨inside, _⟩ := List.getElem?_eq_some_iff.mp same
    exact ⟨n, serial, (List.getElem?_append_left inside).trans same⟩
  once := by
    intro n
    have once := sound.once n
    have changed := s.servers_set inside q n
    have before : s.slots[i].serves n = false := by simp [Query.serves, free]
    have after : q.serves n = decide (n = s.accepted.length) := by
      simp [Query.serves, Query.IsFree, named, serial, eq_comm]
    rw [before, after] at changed
    simp only [answers, servers, accept, List.length_append, List.length_singleton,
      Bool.toNat_false] at once changed ⊢
    by_cases own : n = s.accepted.length
    · rw [decide_eq_true own, Bool.toNat_true] at changed
      rw [if_neg (by omega)] at once
      rw [if_pos (by omega)]
      omega
    · rw [decide_eq_false own, Bool.toNat_false] at changed
      split at once <;> split <;> omega

/-- A slot replies to the command that it is busy for, and is free again. -/
theorem release (sound : s.Sound) {i : Nat} (inside : i < s.slots.length) {id : CString}
    (named : s.slots[i].id = some id) (kind : ReplyKind) (text : Option CString) :
    ((s.send s.slots[i].serial kind id text).queryFree i).Sound := by
  have member : s.slots[i] ∈ s.slots := List.getElem_mem inside
  have busy : ¬ s.slots[i].IsFree := by simp [Query.IsFree, named]
  obtain ⟨m, serial, same⟩ := sound.owned _ member busy
  rw [named] at same
  obtain ⟨accepted, _⟩ := List.getElem?_eq_some_iff.mp same
  refine ⟨sound.alive, ?_, ?_, ?_, ?_⟩
  · intro other member
    cases List.mem_or_eq_of_mem_set member with
    | inl old => exact sound.pending other old
    | inr new =>
        rw [new]
        rfl
  · intro other member busy
    cases List.mem_or_eq_of_mem_set member with
    | inl old => exact sound.owned other old busy
    | inr new => exact absurd (new ▸ rfl) busy
  · intro reply member
    rcases List.mem_append.mp member with old | new
    · exact sound.named reply old
    · obtain rfl := List.mem_singleton.mp new
      exact ⟨m, serial, same⟩
  · intro n
    have once := sound.once n
    have changed := s.servers_set inside Query.zero n
    have before : s.slots[i].serves n = decide (m = n) := by
      simp [Query.serves, busy, serial]
    have after : Query.zero.serves n = false := by simp [Query.serves, Query.IsFree, Query.zero]
    rw [before, after] at changed
    simp only [answers, servers, queryFree, send, List.countP_append, List.countP_singleton,
      serial, Option.some.injEq, decide_eq_true_eq, Bool.toNat_false] at once changed ⊢
    by_cases own : m = n
    · rw [decide_eq_true own, Bool.toNat_true] at changed
      rw [if_pos own]
      omega
    · rw [decide_eq_false own, Bool.toNat_false] at changed
      rw [if_neg own]
      omega

end Sound

/-- A slot that is taken without a lookup for it has leaked. -/
theorem not_sound_of_leak {s : State} {i : Nat} (inside : i < s.slots.length) {q : Query}
    (busy : ¬ q.IsFree) (idle : q.pending = 0) :
    ¬ ({ s with slots := s.slots.set i q }.shutdown).Sound := by
  intro sound
  have pending := sound.pending q (List.mem_set inside q)
  rw [if_neg busy, idle] at pending
  exact Nat.zero_ne_one pending

theorem not_sound_crash (s : State) : ¬ s.crash.Sound :=
  fun sound => sound.alive rfl

end State

end Servauth

end Chaosircd
