import Chaosircd.Dlink

/-!
# Timers and their list

A timer is a block on `timer_list`, in the order in which the timers were
started.  `timer_start` takes a chunk from the heap of timers and links it at the
tail, `timer_remove` unlinks it and gives the chunk back with its contents as
they are, so that the next timer may get the same chunk.  The number of a timer
tells it from a later one in the same chunk.
-/

namespace Chaosircd

namespace TimerHeap

open Dlink

/-- `struct timer`, its node, callback and note apart. -/
structure Timer where
  id : Nat
  refcount : Nat
  deadline : Nat
  interval : Nat
  deriving DecidableEq

/-- The heap of timers, the list block and the clock. -/
structure Heap where
  links : Links Nat
  timerList : Dlist Nat
  timer : Nat → Timer
  used : Nat → Bool
  timerMtime : Nat
  timerId : Nat

/-- A pointer to a timer: the chunk, and the timer that was in it. -/
structure Ref where
  block : Nat
  id : Nat
  deriving DecidableEq

/-- The pointer to the timer that is in a chunk now. -/
def Heap.ref (h : Heap) (block : Nat) : Ref :=
  ⟨block, (h.timer block).id⟩

/-- The timer that the pointer was made for is still registered. -/
def Heap.Holds (h : Heap) (timer : Ref) : Prop :=
  h.used timer.block = true ∧ (h.timer timer.block).id = timer.id

instance (h : Heap) (timer : Ref) : Decidable (h.Holds timer) :=
  inferInstanceAs (Decidable (_ ∧ _))

/-- `timer_start` with the chunk that `mem_static_alloc` handed out. -/
def timerStart (h : Heap) (block interval : Nat) : Heap :=
  let linked := addTail h.links h.timerList block
  { h with
    links := linked.1
    timerList := linked.2
    timer := Function.update h.timer block
      { id := h.timerId
        refcount := 1
        deadline := (h.timerMtime + interval) % 2 ^ 64
        interval := interval }
    used := Function.update h.used block true
    timerId := h.timerId + 1 }

/-- `timer_remove`: the chunk keeps its contents. -/
def timerRemove (h : Heap) (block : Nat) : Heap :=
  let unlinked := delete h.links h.timerList block
  { h with
    links := unlinked.1
    timerList := unlinked.2
    used := Function.update h.used block false }

/-- A block is written to. -/
def Heap.write (h : Heap) (block : Nat) (timer : Timer) : Heap :=
  { h with timer := Function.update h.timer block timer }

/-- `timer_cancel`. -/
def timerCancel (h : Heap) (block : Nat) : Heap :=
  timerRemove (h.write block { h.timer block with refcount := 0 }) block

/-- The list is well formed: its blocks are the chunks in use, linked in the order in which
they were started. -/
structure WellFormed (h : Heap) (blocks : List Nat) : Prop where
  list : Represents h.links h.timerList blocks
  used : ∀ block, h.used block = true ↔ block ∈ blocks
  started : (blocks.map fun block => (h.timer block).id).Pairwise (· < ·)
  fresh : ∀ block ∈ blocks, (h.timer block).id < h.timerId

section

variable {h : Heap} {blocks : List Nat}

theorem WellFormed.block_eq (wf : WellFormed h blocks) {block block' : Nat}
    (member : block ∈ blocks) (member' : block' ∈ blocks)
    (same : (h.timer block).id = (h.timer block').id) : block = block' := by
  have distinct : (blocks.map fun block => (h.timer block).id).Nodup :=
    wf.started.imp fun less => Nat.ne_of_lt less
  exact List.inj_on_of_nodup_map distinct member member' same

theorem WellFormed.timerStart (wf : WellFormed h blocks) {block : Nat}
    (free : h.used block = false) (interval : Nat) :
    WellFormed (timerStart h block interval) (blocks ++ [block]) := by
  have outside : block ∉ blocks := by
    rw [← wf.used]
    simp [free]
  have older : ∀ other ∈ blocks,
      (TimerHeap.timerStart h block interval).timer other = h.timer other := by
    intro other member
    refine Function.update_of_ne ?_ _ _
    rintro rfl
    exact outside member
  refine ⟨wf.list.addTail outside, ?_, ?_, ?_⟩
  · intro other
    by_cases same : other = block
    · simp [TimerHeap.timerStart, same]
    · simpa [TimerHeap.timerStart, same] using wf.used other
  · rw [List.map_append, List.pairwise_append]
    refine ⟨?_, by simp, ?_⟩
    · rw [List.map_congr_left fun other member => by rw [older other member]]
      exact wf.started
    · intro number member last isLast
      obtain ⟨other, inside, rfl⟩ := List.mem_map.mp member
      have newest : last = h.timerId := by simpa [TimerHeap.timerStart] using isLast
      rw [older other inside, newest]
      exact wf.fresh other inside
  · intro other member
    rcases List.mem_append.mp member with inside | last
    · rw [older other inside]
      exact Nat.lt_succ_of_lt (wf.fresh other inside)
    · have isNew : other = block := by simpa using last
      simp [TimerHeap.timerStart, isNew]

theorem WellFormed.timerRemove {before behind : List Nat} {block : Nat}
    (wf : WellFormed h (before ++ block :: behind)) :
    WellFormed (timerRemove h block) (before ++ behind) := by
  have shrunk : (before ++ behind).Sublist (before ++ block :: behind) :=
    (List.sublist_cons_self block behind).append_left before
  refine ⟨wf.list.delete, ?_, ?_, ?_⟩
  · intro other
    by_cases same : other = block
    · subst same
      have absent : other ∉ before ++ behind := by
        have nodup := wf.list.nodup
        rw [List.nodup_middle] at nodup
        exact (List.nodup_cons.mp nodup).1
      simp only [TimerHeap.timerRemove, Function.update_self]
      simp [absent]
    · have kept := wf.used other
      simp only [TimerHeap.timerRemove, ne_eq, same, not_false_eq_true, Function.update_of_ne]
      rw [kept]
      simp [same]
  · exact wf.started.sublist (shrunk.map _)
  · intro other member
    exact wf.fresh other (shrunk.subset member)

/-- A write that keeps the number of the timer. -/
theorem WellFormed.write (wf : WellFormed h blocks) {block : Nat} {timer : Timer}
    (sameId : timer.id = (h.timer block).id) : WellFormed (h.write block timer) blocks := by
  have ids : ∀ other, ((h.write block timer).timer other).id = (h.timer other).id := by
    intro other
    by_cases same : other = block
    · simp [Heap.write, same, sameId]
    · simp [Heap.write, same]
  refine ⟨wf.list, wf.used, ?_, ?_⟩
  · rw [List.map_congr_left fun other _ => ids other]
    exact wf.started
  · intro other member
    rw [ids]
    exact wf.fresh other member

theorem WellFormed.timerCancel {before behind : List Nat} {block : Nat}
    (wf : WellFormed h (before ++ block :: behind)) :
    WellFormed (timerCancel h block) (before ++ behind) :=
  WellFormed.timerRemove (wf.write rfl)

end

/-- A heap whose timer list is well formed. -/
structure Timers where
  heap : Heap
  blocks : List Nat
  wellFormed : WellFormed heap blocks

/-- No timers yet. -/
def Timers.boot (mtime : Nat) : Timers where
  heap := ⟨⟨fun _ => none, fun _ => none⟩, zero, fun _ => ⟨0, 0, 0, 0⟩, fun _ => false, mtime, 0⟩
  blocks := []
  wellFormed := ⟨represents_zero _, by simp, by simp, by simp⟩

/-- `timer_start` on a well-formed list. -/
def Timers.start (timers : Timers) (block interval : Nat)
    (free : timers.heap.used block = false) : Timers where
  heap := timerStart timers.heap block interval
  blocks := timers.blocks ++ [block]
  wellFormed := timers.wellFormed.timerStart free interval

end TimerHeap

end Chaosircd
