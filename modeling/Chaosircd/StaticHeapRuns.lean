import Chaosircd.StaticHeapInvariant
import Chaosircd.TransitionSystem

/-!
# Static heaps over whole runs

Every block of a chain of two or more has a used chunk between the operations: a block is
mapped only when one of its chunks is handed out at once, and a block whose last chunk
comes back is given back with it.  So `mem_static_collect`, which would take every block
without a used chunk, always leaves one.
-/

namespace Chaosircd

namespace StaticHeap

open Dlink (Traverses)

variable {sizes : Sizes} {heap : Sheap} {live blocks : List Nat} {sequences : Sequences}

/-! ## Operations -/

section Operations

variable {sbptr ptr : Nat}

theorem findFree_eq {start : Option Nat} {turns : Nat} (walk : Traverses heap.next start blocks)
    (enough : blocks.length ≤ turns) :
    findFree heap turns start = blocks.find? fun sbptr => heap.blockFree sbptr ≠ 0 := by
  induction blocks generalizing start turns with
  | nil =>
      obtain rfl : start = none := walk
      cases turns <;> rfl
  | cons block blocks induction =>
      obtain ⟨rfl, walk⟩ := walk
      cases turns with
      | zero => simp at enough
      | succ turns =>
          rw [findFree, induction walk (by simpa using enough), List.find?_cons]
          by_cases room : heap.blockFree block = 0
          · simp [room]
          · simp [room]

/-- The blocks, as the loops meet them. -/
def blocksOf (heap : Sheap) : List Nat :=
  Dlink.follow heap.next heap.blockCount heap.base

theorem Core.blocksOf_eq (core : Core sizes heap live blocks sequences) : blocksOf heap = blocks := by
  rw [blocksOf, core.blockCount]
  exact follow_eq core.chain

/-- What holds of a heap and its live chunks between the operations. -/
def Inv (sizes : Sizes) (heap : Sheap) (live : List Nat) : Prop :=
  ∃ blocks sequences, Core sizes heap live blocks sequences ∧ Busy blocks sequences ∧ blocks ≠ []

theorem two_le_length {other : Nat} (member : sbptr ∈ blocks) (inside : other ∈ blocks)
    (apart : other ≠ sbptr) : 2 ≤ blocks.length := by
  cases blocks with
  | nil => exact absurd member List.not_mem_nil
  | cons block blocks =>
      cases blocks with
      | nil =>
          rw [List.mem_singleton] at member inside
          exact absurd (inside.trans member.symm) apart
      | cons next blocks =>
          rw [List.length_cons, List.length_cons]
          omega

theorem exists_other (nodup : blocks.Nodup) (several : 2 ≤ blocks.length) (sbptr : Nat) :
    ∃ other ∈ blocks, other ≠ sbptr := by
  cases blocks with
  | nil => simp at several
  | cons block blocks =>
      cases blocks with
      | nil => simp at several
      | cons next blocks =>
          by_cases same : block = sbptr
          · refine ⟨next, by simp, ?_⟩
            rintro rfl
            rw [List.nodup_cons, same] at nodup
            exact nodup.1 List.mem_cons_self
          · exact ⟨block, List.mem_cons_self, same⟩

/-- The first block with a free chunk hands one out; all other blocks are busy already. -/
theorem Core.occupy (core : Core sizes heap live blocks sequences) (room : heap.freeChunks ≠ 0)
    (busy : ∀ sbptr ∈ blocks, heap.blockFree sbptr = 0 ∨
      ∀ other ∈ blocks, other ≠ sbptr → sequences.nodes (other, .used) ≠ []) :
    ∃ ptr heap', StaticHeap.occupy sizes heap [] = some ⟨heap', some ptr, []⟩ ∧ ptr ∉ live ∧
      Inv sizes heap' (ptr :: live) := by
  rw [StaticHeap.occupy, findFree_eq core.chain (Nat.le_of_eq core.blockCount.symm)]
  cases found : blocks.find? fun sbptr => decide (heap.blockFree sbptr ≠ 0) with
  | none =>
      have zero : (blocks.map heap.blockFree).sum = 0 := by
        rw [List.sum_eq_zero_iff_forall_eq_nat]
        simpa using found
      exact absurd (core.freeChunks.trans zero) room
  | some sbptr =>
      have member := List.mem_of_find?_eq_some found
      have hasRoom : heap.blockFree sbptr ≠ 0 := by
        simpa using List.find?_some found
      obtain ⟨ptr, heap', sequences', result, fresh, core', used, others⟩ :=
        core.blockAlloc member hasRoom
      refine ⟨ptr, heap', by simp [result], fresh, blocks, sequences', core', ?_,
        List.ne_nil_of_mem member⟩
      intro _ other inside
      by_cases same : other = sbptr
      · rw [same]
        exact used
      · rw [others other same]
        exact (busy sbptr member).resolve_left hasRoom other inside same

/-- `mem_static_alloc` hands out a chunk that is not live, when there is one or a block can
be mapped. -/
theorem Inv.alloc {mapped : Option Nat} (inv : Inv sizes heap live)
    (legal : ∀ sbptr, mapped = some sbptr → 0 < sbptr ∧
      ∀ other ∈ blocksOf heap, Apart heap.blockSize sbptr other)
    (room : mapped ≠ none ∨ heap.freeChunks ≠ 0) :
    ∃ ptr heap', StaticHeap.alloc sizes heap mapped = some ⟨heap', some ptr, []⟩ ∧ ptr ∉ live ∧
      Inv sizes heap' (ptr :: live) := by
  obtain ⟨blocks, sequences, core, busy, nonempty⟩ := inv
  rw [StaticHeap.alloc]
  by_cases full : heap.freeChunks = 0
  · obtain ⟨sbptr, rfl⟩ := Option.ne_none_iff_exists'.mp (room.resolve_right (not_not_intro full))
    obtain ⟨positive, apart⟩ := legal sbptr rfl
    obtain ⟨heap', sequences', result, core', same, perBlock, free⟩ :=
      core.blockNew positive (core.blocksOf_eq ▸ apart)
    -- the blocks there were have no free chunk left
    have allUsed : ∀ other ∈ blocks, sequences'.nodes (other, .used) ≠ [] := by
      intro other member idle
      rw [same] at idle
      have isFull := (core.idle_iff member).mpr idle
      have total := core.blockFree_le member
      have positive := core.positive
      omega
    have hasRoom : heap'.freeChunks ≠ 0 := by
      have total := core'.blockFree_le List.mem_cons_self
      have positive := core'.positive
      omega
    rw [if_pos full, result]
    apply core'.occupy hasRoom
    intro other member
    rw [List.mem_cons] at member
    cases member with
    | inl isNew =>
        right
        intro older inside apart
        rw [isNew] at apart
        exact allUsed older ((List.mem_cons.mp inside).resolve_left apart)
    | inr old =>
        left
        have count := core.count old
        have count' := core'.count (List.mem_cons_of_mem sbptr old)
        have total := core.blockFree_le old
        rw [same, perBlock] at count'
        omega
  · rw [if_neg full]
    apply core.occupy full
    intro sbptr member
    right
    intro other inside apart
    exact busy (two_le_length member inside apart) other inside

/-- `mem_static_alloc` ends the program when nothing is free and nothing can be mapped. -/
theorem Inv.alloc_fatal (inv : Inv sizes heap live) (full : heap.freeChunks = 0) :
    StaticHeap.alloc sizes heap none = none := by
  obtain ⟨blocks, sequences, core, -, -⟩ := inv
  have positive := core.positive
  have early : heap.freeChunks < heap.chunksPerBlock ∨ heap.blockCount = 1 := by
    omega
  have kept : StaticHeap.collect heap = some (heap, []) := if_pos early
  simp [StaticHeap.alloc, full, StaticHeap.blockNew, kept]

/-- `mem_static_free` takes the chunk back, and its block with the last one. -/
theorem Inv.free (inv : Inv sizes heap live) (isLive : ptr ∈ live) :
    ∃ heap' released, StaticHeap.free sizes heap ptr = some ⟨heap', none, released⟩ ∧
      Inv sizes heap' (live.erase ptr) ∧
      ∀ sbptr ∈ released, Unused heap (live.erase ptr) sbptr := by
  obtain ⟨blocks, sequences, core, busy, nonempty⟩ := inv
  obtain ⟨sbptr, member, scptr, linked, rfl⟩ := (core.live_iff ptr).mp isLive
  obtain ⟨sequences', core', used, others⟩ := core.giveBack member linked
  have header := sizes.schunk_pos
  have positive : scptr + sizes.schunk ≠ 0 := by omega
  have owner : heap.chunkBlock (scptr + sizes.schunk - sizes.schunk) = some sbptr := by
    rw [Nat.add_sub_cancel]
    exact core.owner sbptr member scptr linked
  rw [StaticHeap.free, if_neg positive]
  dsimp only
  rw [owner, Nat.add_sub_cancel]
  have sizeOf : ((givenBack heap sbptr scptr (scptr + sizes.schunk)).ones.lists.list
      (sbptr, .used)).size = (sequences'.nodes (sbptr, .used)).length :=
    (core'.ones.holds.list (sbptr, .used)).size
  by_cases last : sequences'.nodes (sbptr, .used) = []
  · rw [last] at sizeOf
    have keep : blocks.length = 1 ∨ ∃ sbptr ∈ blocks, sequences'.nodes (sbptr, .used) ≠ [] := by
      by_cases single : blocks.length = 1
      · exact Or.inl single
      · have several : 2 ≤ blocks.length := by
          have atLeast := List.length_pos_iff.mpr nonempty
          omega
        obtain ⟨other, inside, apart⟩ := exists_other core.nodup several sbptr
        refine Or.inr ⟨other, inside, ?_⟩
        rw [others other apart]
        exact busy several other inside
    obtain ⟨heap', released, blocks', sequences'', result, core'', busy', nonempty', unused⟩ :=
      core'.collect keep
    refine ⟨heap', released, ?_, ⟨blocks', sequences'', core'', busy', nonempty'⟩, unused⟩
    refine (if_pos sizeOf).trans ?_
    exact congrArg (Option.map _) result
  · have notZero : (sequences'.nodes (sbptr, .used)).length ≠ 0 := by
      rwa [Ne, List.length_eq_zero_iff]
    rw [← sizeOf] at notZero
    refine ⟨_, [], if_neg notZero, ⟨blocks, sequences', core', ?_, nonempty⟩, by simp⟩
    intro several other inside
    by_cases same : other = sbptr
    · rw [same]
      exact last
    · rw [others other same]
      exact busy several other inside

/-- `mem_static_collect` between the operations. -/
theorem Inv.collect (inv : Inv sizes heap live) :
    ∃ heap' released, StaticHeap.collect heap = some (heap', released) ∧
      Inv sizes heap' live ∧ ∀ sbptr ∈ released, Unused heap live sbptr := by
  obtain ⟨blocks, sequences, core, busy, nonempty⟩ := inv
  have keep : blocks.length = 1 ∨ ∃ sbptr ∈ blocks, sequences.nodes (sbptr, .used) ≠ [] := by
    cases blocks with
    | nil => exact absurd rfl nonempty
    | cons block blocks =>
        cases blocks with
        | nil => exact Or.inl rfl
        | cons next blocks =>
            refine Or.inr ⟨block, List.mem_cons_self, busy ?_ block List.mem_cons_self⟩
            rw [List.length_cons, List.length_cons]
            omega
  obtain ⟨heap', released, blocks', sequences', result, core', busy', nonempty', unused⟩ :=
    core.collect keep
  exact ⟨heap', released, result, ⟨blocks', sequences', core', busy', nonempty'⟩, unused⟩

end Operations

/-! ## Runs -/

/-- The operations; what the system maps for a new block comes with the allocation. -/
inductive Op where
  | alloc (mapped : Option Nat)
  | free (ptr : Nat)
  | collect

/-- A heap and the chunks that have been handed out and not given back. -/
structure State where
  heap : Sheap
  live : List Nat

section Runs

variable (sizes : Sizes)

/-- One operation. -/
def exec (heap : Sheap) : Op → Option Outcome
  | .alloc mapped => alloc sizes heap mapped
  | .free ptr => free sizes heap ptr
  | .collect => (collect heap).map fun (heap, released) => ⟨heap, none, released⟩

/-- The live chunks after an operation. -/
def liveAfter (live : List Nat) (outcome : Outcome) : Op → List Nat
  | .alloc _ => outcome.ptr.toList ++ live
  | .free ptr => live.erase ptr
  | .collect => live

/-- The state after an operation, unless the program has ended. -/
def step (state : State) (op : Op) : Option State :=
  (exec sizes state.heap op).map fun outcome =>
    ⟨outcome.heap, liveAfter state.live outcome op⟩

/-- The system maps memory that no block of the chain lies in, and chunks are given back
once. -/
def Legal (state : State) : Op → Prop
  | .alloc (some sbptr) =>
    0 < sbptr ∧ ∀ other ∈ blocksOf state.heap, Apart state.heap.blockSize sbptr other
  | .alloc none => True
  | .free ptr => ptr ∈ state.live
  | .collect => True

instance (state : State) (op : Op) : Decidable (Legal state op) :=
  match op with
  | .alloc (some sbptr) => inferInstanceAs (Decidable (0 < sbptr ∧
      ∀ other ∈ blocksOf state.heap,
        sbptr + state.heap.blockSize ≤ other ∨ other + state.heap.blockSize ≤ sbptr))
  | .alloc none => inferInstanceAs (Decidable True)
  | .free ptr => inferInstanceAs (Decidable (ptr ∈ state.live))
  | .collect => inferInstanceAs (Decidable True)

/-- Live chunks do not overlap, and all counters are right. -/
structure Sound (state : State) : Prop where
  apart : state.live.Pairwise (Apart state.heap.chunkSize)
  nodup : state.live.Nodup
  counted : ∃ blocks, Traverses state.heap.next state.heap.base blocks ∧ blocks ≠ [] ∧
    state.heap.blockCount = blocks.length ∧
    state.heap.freeChunks = (blocks.map state.heap.blockFree).sum ∧
    ∀ sbptr ∈ blocks, ∃ chunks, Traverses state.heap.ones.lists.links.next
      (state.heap.ones.lists.list (sbptr, .free)).head chunks ∧
      state.heap.blockFree sbptr = chunks.length

/-- A chunk that is handed out is not live, and memory that is given back has no live
chunk in it. -/
structure SoundStep (state : State) (op : Op) (outcome : Outcome) : Prop where
  fresh : ∀ ptr, outcome.ptr = some ptr → ptr ∉ state.live
  unused : ∀ sbptr ∈ outcome.released,
    Unused state.heap (liveAfter state.live outcome op) sbptr

variable {sizes}

theorem Inv.sound {state : State} (inv : Inv sizes state.heap state.live) : Sound state := by
  obtain ⟨blocks, sequences, core, -, nonempty⟩ := inv
  refine ⟨?_, core.live_nodup, blocks, core.chain, nonempty, core.blockCount, core.freeChunks,
    ?_⟩
  · refine core.live_nodup.pairwise_of_forall_ne ?_
    intro ptr isLive ptr' isLive' differ
    exact core.live_apart isLive isLive' differ
  · intro sbptr member
    exact ⟨_, (core.ones.holds.list (sbptr, .free)).traverses, core.blockFree sbptr member⟩

/-- One operation from a good state: it ends the program for want of memory only. -/
theorem Inv.exec {state : State} (inv : Inv sizes state.heap state.live) {op : Op}
    (legal : Legal state op) :
    (exec sizes state.heap op = none ∧ op = .alloc none ∧ state.heap.freeChunks = 0) ∨
      ∃ outcome, exec sizes state.heap op = some outcome ∧
        Inv sizes outcome.heap (liveAfter state.live outcome op) ∧ SoundStep state op outcome := by
  cases op with
  | alloc mapped =>
      by_cases room : mapped ≠ none ∨ state.heap.freeChunks ≠ 0
      · have apart : ∀ sbptr, mapped = some sbptr → 0 < sbptr ∧
            ∀ other ∈ blocksOf state.heap, Apart state.heap.blockSize sbptr other := by
          rintro sbptr rfl
          exact legal
        obtain ⟨ptr, heap', result, fresh, inv'⟩ := inv.alloc apart room
        exact Or.inr ⟨_, result, inv', fun ptr isPtr => Option.some.inj isPtr ▸ fresh, by simp⟩
      · rw [not_or, not_not, not_not] at room
        obtain ⟨rfl, full⟩ := room
        exact Or.inl ⟨inv.alloc_fatal full, rfl, full⟩
  | free ptr =>
      obtain ⟨heap', released, result, inv', unused⟩ := inv.free legal
      exact Or.inr ⟨_, result, inv', by simp, unused⟩
  | collect =>
      obtain ⟨heap', released, result, inv', unused⟩ := inv.collect
      exact Or.inr ⟨⟨heap', none, released⟩, by simp [StaticHeap.exec, result], inv', by simp,
        unused⟩

/-- A heap that has been created has one block and no live chunk. -/
theorem inv_create (sizes : Sizes) {size count sbptr : Nat} (wanted : 0 < count) (positive : 0 < sbptr) :
    ∃ heap, create sizes size count (some sbptr) = some heap ∧ Inv sizes heap [] := by
  have core : Core sizes
      { base := none
        blockCount := 0
        freeChunks := 0
        blockSize := blockSizeFor sizes size count
        chunkSize := size
        chunksPerBlock := (blockSizeFor sizes size count - sizes.sblock) / (size + sizes.schunk)
        next := fun _ => none
        blockFree := fun _ => 0
        chunkBlock := fun _ => none
        ones := Dlink.Store.empty fun _ => 0 } [] [] (Dlink.Sequences.empty fun _ => 0) := by
    refine ⟨blockSizeFor_chunks size wanted, blockSizeFor_fits size count, Dlink.Inv.empty _, rfl,
      ?_, List.Pairwise.nil, rfl, rfl, ?_, ?_, fun _ _ _ => rfl, ?_, ?_, List.nodup_nil⟩
    all_goals simp
  obtain ⟨heap, sequences, result, core', -⟩ := core.blockNew positive (by simp)
  refine ⟨heap, result, [sbptr], sequences, core', ?_, by simp⟩
  intro several
  simp at several

/-- Every run of a heap from its creation on: live chunks do not overlap and all counters
are right in the state it leads to, and any operation there hands out a chunk that is not
live and gives back memory without live chunks, or ends the program for want of memory. -/
theorem heap_sound {size count sbptr : Nat} {heap : Sheap} (wanted : 0 < count)
    (positive : 0 < sbptr) (created : create sizes size count (some sbptr) = some heap)
    {ops : List Op} {state : State}
    (legal : TransitionSystem.GuardedRun (step sizes) Legal ⟨heap, []⟩ ops)
    (runs : TransitionSystem.run (step sizes) ⟨heap, []⟩ ops = some state) :
    Sound state ∧ ∀ op, Legal state op →
      (StaticHeap.exec sizes state.heap op = none ∧ op = .alloc none ∧
        state.heap.freeChunks = 0) ∨
      ∃ outcome, StaticHeap.exec sizes state.heap op = some outcome ∧
        SoundStep state op outcome := by
  obtain ⟨heap', result, inv⟩ := inv_create sizes wanted positive
  obtain rfl := Option.some.inj (result.symm.trans created)
  have kept : ∀ (state : State) (op : Op) (next : State), Inv sizes state.heap state.live →
      Legal state op → step sizes state op = some next → Inv sizes next.heap next.live := by
    intro state op next inv legal stepped
    cases inv.exec legal with
    | inl ended => simp [step, ended.1] at stepped
    | inr went =>
        obtain ⟨outcome, result, inv', -⟩ := went
        rw [step, result] at stepped
        obtain rfl := Option.some.inj stepped
        exact inv'
  have final := TransitionSystem.invariant_of_guardedRun kept inv legal runs
  refine ⟨final.sound, fun op allowed => ?_⟩
  cases final.exec allowed with
  | inl ended => exact Or.inl ended
  | inr went =>
      obtain ⟨outcome, result, -, good⟩ := went
      exact Or.inr ⟨outcome, result, good⟩

end Runs

/-- The sizes on a machine with pointers of eight bytes. -/
def sizes64 : Sizes :=
  ⟨32, 88, 4096, by decide, by decide⟩

/-- Two chunks make the first block full, a third one needs another block, and the second
block goes when its chunk comes back. -/
def fullBlock : List Op :=
  [.alloc none, .alloc none, .alloc (some 65536), .free 69688, .collect]

/-- A heap of chunks of 4000 bytes that has been created. -/
def created : Sheap :=
  (create sizes64 4000 1 (some 4096)).get rfl

theorem fullBlock_sound : ∃ state,
    TransitionSystem.run (step sizes64) ⟨created, []⟩ fullBlock = some state ∧
      Sound state ∧ state.live = [4216, 8248] ∧ state.heap.blockCount = 1 := by
  have wanted : 0 < 1 := by decide
  have positive : 0 < 4096 := by decide
  have legal : TransitionSystem.GuardedRun (step sizes64) Legal ⟨created, []⟩ fullBlock := by
    decide +kernel
  have outcome : (TransitionSystem.run (step sizes64) ⟨created, []⟩ fullBlock).map
      (fun state => (state.live, state.heap.blockCount)) = some ([4216, 8248], 1) := by
    decide +kernel
  cases runs : TransitionSystem.run (step sizes64) ⟨created, []⟩ fullBlock with
  | none => simp [runs] at outcome
  | some state =>
      simp only [runs, Option.map_some, Option.some.injEq, Prod.mk.injEq] at outcome
      exact ⟨state, rfl, (heap_sound wanted positive rfl legal runs).1, outcome⟩

end StaticHeap

end Chaosircd
