import Chaosircd.StaticHeap
import Mathlib.Data.List.Pairwise

/-!
# The invariant of a static heap

The chain of blocks, the lists of their chunks and the counters belong together, and the
chunks handed out are those on the lists of used ones.  Each part of an operation (a new
block, a chunk handed out or given back, a block taken out of the chain) keeps it.
-/

namespace Chaosircd

namespace StaticHeap

/-! ## The chain -/

open Dlink (Traverses)

section Chain

variable {next : Nat → Option Nat} {start : Option Nat} {blocks : List Nat}

theorem traverses_congr {next' : Nat → Option Nat} (walk : Traverses next start blocks)
    (same : ∀ block ∈ blocks, next' block = next block) : Traverses next' start blocks := by
  induction blocks generalizing start with
  | nil => exact walk
  | cons block blocks induction =>
      rw [List.forall_mem_cons] at same
      obtain ⟨isStart, walk⟩ := walk
      rw [← same.1] at walk
      exact ⟨isStart, induction walk same.2⟩

theorem traverses_head (walk : Traverses next start blocks) : start = blocks.head? := by
  cases blocks with
  | nil => exact walk
  | cons block blocks => exact walk.1

theorem follow_eq (walk : Traverses next start blocks) :
    Dlink.follow next blocks.length start = blocks := by
  induction blocks generalizing start with
  | nil => rfl
  | cons block blocks induction =>
      obtain ⟨rfl, walk⟩ := walk
      rw [List.length_cons, Dlink.follow, induction walk]

/-- What follows a block on the chain. -/
theorem traverses_next {before rest : List Nat} {block : Nat}
    (walk : Traverses next start (before ++ block :: rest)) :
    Traverses next (next block) rest := by
  induction before generalizing start with
  | nil => exact walk.2
  | cons first before induction => exact induction walk.2

/-- A block is taken out of the chain by writing what refers to it. -/
theorem traverses_unchain {before rest : List Nat} {block prev : Nat}
    (walk : Traverses next start (before ++ prev :: block :: rest))
    (nodup : (before ++ prev :: block :: rest).Nodup) :
    Traverses (Function.update next prev (next block)) start (before ++ prev :: rest) := by
  induction before generalizing start with
  | nil =>
      obtain ⟨isStart, -, walk⟩ := walk
      rw [List.nil_append, List.nodup_cons, List.mem_cons, not_or] at nodup
      refine ⟨isStart, ?_⟩
      rw [Function.update_self]
      apply traverses_congr walk
      intro other member
      apply Function.update_of_ne
      rintro rfl
      exact nodup.1.2 member
  | cons first before induction =>
      obtain ⟨isStart, walk⟩ := walk
      rw [List.cons_append, List.nodup_cons] at nodup
      have other : first ≠ prev := by
        rintro rfl
        exact nodup.1 (by simp)
      refine ⟨isStart, ?_⟩
      rw [Function.update_of_ne other]
      exact induction walk nodup.2

end Chain

/-! ## The invariant -/

/-- The abstract content of the lists of all blocks. -/
abbrev Sequences : Type :=
  Dlink.Sequences (Nat × Ones) Nat Nat

/-- The memory of two blocks does not overlap. -/
def Apart (blockSize sbptr sbptr' : Nat) : Prop :=
  sbptr + blockSize ≤ sbptr' ∨ sbptr' + blockSize ≤ sbptr

instance (blockSize : Nat) : Std.Symm (Apart blockSize) :=
  ⟨fun _ _ => Or.symm⟩

variable (sizes : Sizes)

/-- The headers of the chunks of a block. -/
def chunks (heap : Sheap) (sbptr : Nat) : List Nat :=
  headers sizes heap.chunkSize heap.chunksPerBlock (sbptr + sizes.sblock)

/-- The blocks of the chain, their lists and the counters belong together, and the chunks
handed out are the used ones. -/
structure Core (heap : Sheap) (live blocks : List Nat) (sequences : Sequences) : Prop where
  positive : 0 < heap.chunksPerBlock
  fits : sizes.sblock + heap.chunksPerBlock * (sizes.schunk + heap.chunkSize) ≤ heap.blockSize
  ones : Dlink.Inv heap.ones sequences
  chain : Traverses heap.next heap.base blocks
  mapped : ∀ sbptr ∈ blocks, 0 < sbptr
  apart : blocks.Pairwise (Apart heap.blockSize)
  blockCount : heap.blockCount = blocks.length
  freeChunks : heap.freeChunks = (blocks.map heap.blockFree).sum
  blockFree : ∀ sbptr ∈ blocks, heap.blockFree sbptr = (sequences.nodes (sbptr, .free)).length
  whole : ∀ sbptr ∈ blocks,
    (sequences.nodes (sbptr, .free) ++ sequences.nodes (sbptr, .used)).Perm
      (chunks sizes heap sbptr)
  gone : ∀ sbptr ∉ blocks, ∀ ones, sequences.nodes (sbptr, ones) = []
  owner : ∀ sbptr ∈ blocks, ∀ scptr ∈ sequences.nodes (sbptr, .used),
    heap.chunkBlock scptr = some sbptr
  live_iff : ∀ ptr, ptr ∈ live ↔ ∃ sbptr ∈ blocks, ∃ scptr ∈ sequences.nodes (sbptr, .used),
    ptr = scptr + sizes.schunk
  live_nodup : live.Nodup

/-- No block is without a used chunk, unless it is the only one. -/
def Busy (blocks : List Nat) (sequences : Sequences) : Prop :=
  2 ≤ blocks.length → ∀ sbptr ∈ blocks, sequences.nodes (sbptr, .used) ≠ []

variable {sizes} {heap : Sheap} {live blocks : List Nat} {sequences : Sequences}

section Core

variable {sbptr scptr : Nat}

theorem Core.nodup (core : Core sizes heap live blocks sequences) : blocks.Nodup := by
  refine core.apart.imp ?_
  intro sbptr sbptr' apart
  have wide := Nat.mul_pos core.positive (Nat.add_pos_left sizes.schunk_pos heap.chunkSize)
  have fits := core.fits
  rw [Apart] at apart
  omega

/-- A chunk with its header lies in its block. -/
theorem Core.inside (core : Core sizes heap live blocks sequences) (member : sbptr ∈ blocks)
    {ones : Ones} (linked : scptr ∈ sequences.nodes (sbptr, ones)) :
    sbptr + sizes.sblock ≤ scptr ∧
      scptr + sizes.schunk + heap.chunkSize ≤ sbptr + heap.blockSize := by
  have either : scptr ∈ sequences.nodes (sbptr, .free) ++ sequences.nodes (sbptr, .used) := by
    cases ones with
    | free => exact List.mem_append_left _ linked
    | used => exact List.mem_append_right _ linked
  have header := (core.whole sbptr member).mem_iff.mp either
  obtain ⟨lower, upper⟩ := headers_bounds header
  have fits := core.fits
  omega

/-- A chunk that is linked belongs to a block of the chain. -/
theorem Core.block_of_linked (core : Core sizes heap live blocks sequences) {ones : Ones}
    (linked : scptr ∈ sequences.nodes (sbptr, ones)) : sbptr ∈ blocks := by
  by_contra outside
  rw [core.gone sbptr outside] at linked
  exact List.not_mem_nil linked

/-- The free and the used chunks of a block are all its chunks. -/
theorem Core.count (core : Core sizes heap live blocks sequences) (member : sbptr ∈ blocks) :
    heap.blockFree sbptr + (sequences.nodes (sbptr, .used)).length = heap.chunksPerBlock := by
  have length := (core.whole sbptr member).length_eq
  rw [List.length_append, chunks, headers_length] at length
  rw [core.blockFree sbptr member]
  exact length

/-- What `mem_static_collect` looks for is a block without a used chunk. -/
theorem Core.idle_iff (core : Core sizes heap live blocks sequences) (member : sbptr ∈ blocks) :
    heap.blockFree sbptr = heap.chunksPerBlock ↔ sequences.nodes (sbptr, .used) = [] := by
  have count := core.count member
  rw [← List.length_eq_zero_iff]
  omega

theorem sum_map_update {f : Nat → Nat} (nodup : blocks.Nodup) (member : sbptr ∈ blocks)
    (value : Nat) : (blocks.map (Function.update f sbptr value)).sum + f sbptr =
      (blocks.map f).sum + value := by
  induction blocks with
  | nil => exact absurd member List.not_mem_nil
  | cons block blocks induction =>
      rw [List.nodup_cons] at nodup
      rw [List.map_cons, List.map_cons, List.sum_cons, List.sum_cons]
      by_cases same : sbptr = block
      · subst same
        have others : blocks.map (Function.update f sbptr value) = blocks.map f := by
          apply List.map_congr_left
          intro other inside
          apply Function.update_of_ne
          rintro rfl
          exact nodup.1 inside
        rw [others, Function.update_self]
        omega
      · have inside : sbptr ∈ blocks := by simpa [same] using member
        have rest := induction nodup.2 inside
        rw [Function.update_of_ne (Ne.symm same)]
        omega

theorem Core.blockFree_le (core : Core sizes heap live blocks sequences)
    (member : sbptr ∈ blocks) : heap.blockFree sbptr ≤ heap.freeChunks := by
  have sum := sum_map_update (f := heap.blockFree) core.nodup member 0
  rw [core.freeChunks]
  omega

/-- The chunks of one block change between its two lists. -/
theorem Core.relink {sequences' : Sequences} {live' : List Nat} {freeChunks count : Nat}
    {chunkBlock : Nat → Option Nat} {ones : Dlink.Store (Nat × Ones) Nat Nat}
    (core : Core sizes heap live blocks sequences) (member : sbptr ∈ blocks)
    (inv : Dlink.Inv ones sequences')
    (others : ∀ other, other ≠ sbptr → ∀ ones,
      sequences'.nodes (other, ones) = sequences.nodes (other, ones))
    (perm : (sequences'.nodes (sbptr, .free) ++ sequences'.nodes (sbptr, .used)).Perm
      (sequences.nodes (sbptr, .free) ++ sequences.nodes (sbptr, .used)))
    (counted : count = (sequences'.nodes (sbptr, .free)).length)
    (total : freeChunks + heap.blockFree sbptr = heap.freeChunks + count)
    (owner : ∀ scptr ∈ sequences'.nodes (sbptr, .used), chunkBlock scptr = some sbptr)
    (kept : ∀ other, other ≠ sbptr → ∀ scptr ∈ sequences.nodes (other, .used),
      chunkBlock scptr = heap.chunkBlock scptr)
    (live_iff : ∀ ptr, ptr ∈ live' ↔ ∃ sbptr ∈ blocks,
      ∃ scptr ∈ sequences'.nodes (sbptr, .used), ptr = scptr + sizes.schunk)
    (nodup : live'.Nodup) :
    Core sizes { heap with
      freeChunks := freeChunks
      blockFree := Function.update heap.blockFree sbptr count
      chunkBlock := chunkBlock
      ones := ones } live' blocks sequences' := by
  refine ⟨core.positive, core.fits, inv, core.chain, core.mapped, core.apart, core.blockCount,
    ?_, ?_, ?_, ?_, ?_, live_iff, nodup⟩
  · have sum := sum_map_update (f := heap.blockFree) core.nodup member count
    rw [← core.freeChunks] at sum
    dsimp only
    omega
  · intro other inside
    by_cases same : other = sbptr
    · subst same
      exact (Function.update_self _ _ _).trans counted
    · rw [others other same, ← core.blockFree other inside]
      exact Function.update_of_ne same _ _
  · intro other inside
    by_cases same : other = sbptr
    · subst same
      exact perm.trans (core.whole other inside)
    · rw [others other same, others other same]
      exact core.whole other inside
  · intro other outside ones
    have apart : other ≠ sbptr := fun same => outside (same ▸ member)
    rw [others other apart]
    exact core.gone other outside ones
  · intro other inside scptr linked
    by_cases same : other = sbptr
    · subst same
      exact owner scptr linked
    · rw [others other same] at linked
      exact (kept other same scptr linked).trans (core.owner other inside scptr linked)

/-- A chunk goes from one list of its block to the other. -/
def shift (sequences : Sequences) (sbptr : Nat) (free used : List Nat) : Sequences :=
  (sequences.set (sbptr, .free) free).set (sbptr, .used) used

theorem shift_free (sequences : Sequences) (free used : List Nat) :
    (shift sequences sbptr free used).nodes (sbptr, .free) = free := by
  simp [shift, Dlink.Sequences.set_nodes]

theorem shift_used (sequences : Sequences) (free used : List Nat) :
    (shift sequences sbptr free used).nodes (sbptr, .used) = used := by
  simp [shift, Dlink.Sequences.set_nodes]

theorem shift_other (sequences : Sequences) (free used : List Nat) {other : Nat}
    (apart : other ≠ sbptr) (ones : Ones) :
    (shift sequences sbptr free used).nodes (other, ones) = sequences.nodes (other, ones) := by
  simp [shift, Dlink.Sequences.set_nodes, apart]

/-- A free chunk is handed out. -/
theorem Core.blockAlloc (core : Core sizes heap live blocks sequences) (member : sbptr ∈ blocks)
    (room : heap.blockFree sbptr ≠ 0) :
    ∃ ptr heap' sequences', StaticHeap.blockAlloc sizes heap sbptr = some (heap', ptr) ∧
      ptr ∉ live ∧ Core sizes heap' (ptr :: live) blocks sequences' ∧
      sequences'.nodes (sbptr, .used) ≠ [] ∧ ∀ other, other ≠ sbptr →
        sequences'.nodes (other, .used) = sequences.nodes (other, .used) := by
  have list := core.ones.holds.list (sbptr, .free)
  obtain ⟨scptr, rest, free⟩ : ∃ scptr rest, sequences.nodes (sbptr, .free) = scptr :: rest := by
    cases free : sequences.nodes (sbptr, .free) with
    | nil => exact absurd ((core.blockFree sbptr member).trans (congrArg List.length free)) room
    | cons scptr rest => exact ⟨scptr, rest, rfl⟩
  have linked : scptr ∈ sequences.nodes (sbptr, .free) := by
    rw [free]
    exact List.mem_cons_self
  have fresh : ∀ other, scptr ∉ sequences.nodes (other, .used) := by
    intro other there
    have same := core.ones.holds.apart (sbptr, .free) (other, .used) scptr linked there
    exact Ones.noConfusion (congrArg Prod.snd same)
  have notLive : scptr + sizes.schunk ∉ live := by
    rw [core.live_iff]
    rintro ⟨other, -, node, there, same⟩
    obtain rfl := Nat.add_right_cancel same
    exact fresh other there
  have unlinked : Dlink.Inv (heap.ones.exec (.delete (sbptr, .free) scptr))
      (sequences.apply (.delete (sbptr, .free) scptr)) :=
    core.ones.exec linked trivial
  have relinked : Dlink.Inv
      ((heap.ones.exec (.delete (sbptr, .free) scptr)).exec
        (.addTail (sbptr, .used) scptr (scptr + sizes.schunk)))
      ((sequences.apply (.delete (sbptr, .free) scptr)).apply
        (.addTail (sbptr, .used) scptr (scptr + sizes.schunk))) :=
    unlinked.exec (core.ones.unlinked_of_delete linked) trivial
  generalize handed : (sequences.apply (.delete (sbptr, .free) scptr)).apply
    (.addTail (sbptr, .used) scptr (scptr + sizes.schunk)) = sequences' at relinked
  have nodes : ∀ i, sequences'.nodes i = (shift sequences sbptr rest
      (sequences.nodes (sbptr, .used) ++ [scptr])).nodes i := by
    intro i
    rw [← handed, shift]
    simp [Dlink.Sequences.apply, Dlink.Sequences.set_nodes, Dlink.Sequences.setData, free]
  have freeNow : sequences'.nodes (sbptr, .free) = rest := by
    rw [nodes, shift_free]
  have usedNow : sequences'.nodes (sbptr, .used) = sequences.nodes (sbptr, .used) ++ [scptr] := by
    rw [nodes, shift_used]
  have others : ∀ other, other ≠ sbptr → ∀ ones,
      sequences'.nodes (other, ones) = sequences.nodes (other, ones) := by
    intro other apart ones
    rw [nodes, shift_other _ _ _ apart]
  have head : (heap.ones.lists.list (sbptr, .free)).head = some scptr := by
    rw [list.head, free]
    rfl
  have length := core.blockFree sbptr member
  rw [free, List.length_cons] at length
  have allocated : StaticHeap.blockAlloc sizes heap sbptr = some ({ heap with
      freeChunks := heap.freeChunks - 1
      blockFree := Function.update heap.blockFree sbptr (heap.blockFree sbptr - 1)
      chunkBlock := Function.update heap.chunkBlock scptr (some sbptr)
      ones := (heap.ones.exec (.delete (sbptr, .free) scptr)).exec
        (.addTail (sbptr, .used) scptr (scptr + sizes.schunk)) }, scptr + sizes.schunk) := by
    rw [StaticHeap.blockAlloc, head]
    simp [Dlink.Store.exec, Dlink.Store.write, Dlink.Store.setData]
  have total := core.blockFree_le member
  refine ⟨scptr + sizes.schunk, _, sequences', allocated, notLive,
    core.relink member relinked others ?_ ?_ ?_ ?_ ?_ ?_
      (List.nodup_cons.mpr ⟨notLive, core.live_nodup⟩), ?_,
    fun other apart => others other apart .used⟩
  · rw [freeNow, usedNow, free, List.cons_append, ← List.append_assoc]
    exact List.perm_append_singleton _ _
  · rw [freeNow, length, Nat.add_sub_cancel]
  · omega
  · intro node there
    rw [usedNow, List.mem_append, List.mem_singleton] at there
    by_cases same : node = scptr
    · rw [same, Function.update_self]
    · rw [Function.update_of_ne same]
      exact core.owner sbptr member node (there.resolve_right same)
  · intro other _ node there
    apply Function.update_of_ne
    rintro rfl
    exact fresh other there
  · intro ptr
    rw [List.mem_cons, core.live_iff]
    constructor
    · rintro (rfl | ⟨other, inside, node, there, isPtr⟩)
      · refine ⟨sbptr, member, scptr, ?_, rfl⟩
        rw [usedNow]
        simp
      · refine ⟨other, inside, node, ?_, isPtr⟩
        by_cases same : other = sbptr
        · subst same
          rw [usedNow]
          exact List.mem_append_left _ there
        · rwa [others other same]
    · rintro ⟨other, inside, node, there, isPtr⟩
      by_cases same : other = sbptr
      · subst same
        rw [usedNow, List.mem_append, List.mem_singleton] at there
        cases there with
        | inl old => exact Or.inr ⟨other, inside, node, old, isPtr⟩
        | inr isNew => exact Or.inl (isNew ▸ isPtr)
      · rw [others other same] at there
        exact Or.inr ⟨other, inside, node, there, isPtr⟩
  · rw [usedNow]
    simp

/-- The heap after a chunk has been given back, before the blocks are collected. -/
def givenBack (heap : Sheap) (sbptr scptr ptr : Nat) : Sheap :=
  { heap with
    freeChunks := heap.freeChunks + 1
    blockFree := Function.update heap.blockFree sbptr (heap.blockFree sbptr + 1)
    ones := (heap.ones.exec (.delete (sbptr, .used) scptr)).exec
      (.addHead (sbptr, .free) scptr ptr) }

/-- A chunk that has been handed out is given back. -/
theorem Core.giveBack (core : Core sizes heap live blocks sequences) (member : sbptr ∈ blocks)
    (linked : scptr ∈ sequences.nodes (sbptr, .used)) :
    ∃ sequences', Core sizes (givenBack heap sbptr scptr (scptr + sizes.schunk))
        (live.erase (scptr + sizes.schunk)) blocks sequences' ∧
      sequences'.nodes (sbptr, .used) = (sequences.nodes (sbptr, .used)).erase scptr ∧
      ∀ other, other ≠ sbptr →
        sequences'.nodes (other, .used) = sequences.nodes (other, .used) := by
  have nodup := (core.ones.holds.list (sbptr, .used)).nodup
  have only : ∀ other, scptr ∈ sequences.nodes (other, .used) → other = sbptr := by
    intro other there
    have same := core.ones.holds.apart (sbptr, .used) (other, .used) scptr linked there
    exact (congrArg Prod.fst same).symm
  have unlinked : Dlink.Inv (heap.ones.exec (.delete (sbptr, .used) scptr))
      (sequences.apply (.delete (sbptr, .used) scptr)) :=
    core.ones.exec linked trivial
  have relinked : Dlink.Inv
      ((heap.ones.exec (.delete (sbptr, .used) scptr)).exec
        (.addHead (sbptr, .free) scptr (scptr + sizes.schunk)))
      ((sequences.apply (.delete (sbptr, .used) scptr)).apply
        (.addHead (sbptr, .free) scptr (scptr + sizes.schunk))) :=
    unlinked.exec (core.ones.unlinked_of_delete linked) trivial
  generalize returned : (sequences.apply (.delete (sbptr, .used) scptr)).apply
    (.addHead (sbptr, .free) scptr (scptr + sizes.schunk)) = sequences' at relinked
  have nodes : ∀ i, sequences'.nodes i = (shift sequences sbptr
      (scptr :: sequences.nodes (sbptr, .free))
      ((sequences.nodes (sbptr, .used)).erase scptr)).nodes i := by
    intro i
    rw [← returned, shift]
    simp only [Dlink.Sequences.apply, Dlink.Sequences.set_nodes, Dlink.Sequences.setData]
    rw [Function.update_comm (by simp)]
    simp
  have freeNow : sequences'.nodes (sbptr, .free) = scptr :: sequences.nodes (sbptr, .free) := by
    rw [nodes, shift_free]
  have usedNow : sequences'.nodes (sbptr, .used) =
      (sequences.nodes (sbptr, .used)).erase scptr := by
    rw [nodes, shift_used]
  have others : ∀ other, other ≠ sbptr → ∀ ones,
      sequences'.nodes (other, ones) = sequences.nodes (other, ones) := by
    intro other apart ones
    rw [nodes, shift_other _ _ _ apart]
  refine ⟨sequences', core.relink member relinked others ?_ ?_ ?_ ?_ ?_ ?_
    (core.live_nodup.erase _), usedNow, fun other apart => others other apart .used⟩
  · rw [freeNow, usedNow, List.cons_append]
    exact List.perm_middle.symm.trans
      ((List.perm_cons_erase linked).symm.append_left (sequences.nodes (sbptr, .free)))
  · rw [freeNow, List.length_cons, core.blockFree sbptr member]
  · omega
  · intro node there
    rw [usedNow] at there
    exact core.owner sbptr member node (List.mem_of_mem_erase there)
  · exact fun _ _ _ _ => rfl
  · intro ptr
    rw [core.live_nodup.mem_erase_iff, core.live_iff]
    constructor
    · rintro ⟨notPtr, other, inside, node, there, rfl⟩
      refine ⟨other, inside, node, ?_, rfl⟩
      by_cases same : other = sbptr
      · subst same
        rw [usedNow, nodup.mem_erase_iff]
        exact ⟨fun same => notPtr (congrArg (· + sizes.schunk) same), there⟩
      · rwa [others other same]
    · rintro ⟨other, inside, node, there, rfl⟩
      by_cases same : other = sbptr
      · subst same
        rw [usedNow, nodup.mem_erase_iff] at there
        exact ⟨fun same => there.1 (Nat.add_right_cancel same), other, inside, node, there.2, rfl⟩
      · rw [others other same] at there
        refine ⟨fun isPtr => same (only other ?_), other, inside, node, there, rfl⟩
        rwa [← Nat.add_right_cancel isPtr]

/-! ### New blocks -/

/-- The loop links all chunks of the block as free ones. -/
theorem initChunks_inv (sbptr : Nat) {chunkSize count : Nat}
    {ones : Dlink.Store (Nat × Ones) Nat Nat}
    (inv : Dlink.Inv ones sequences)
    (fresh : ∀ node ∈ headers sizes chunkSize count scptr, sequences.Unlinked node) :
    ∃ sequences', Dlink.Inv (initChunks sizes sbptr chunkSize count scptr ones) sequences' ∧
      sequences'.nodes = Function.update sequences.nodes (sbptr, .free)
        ((headers sizes chunkSize count scptr).reverse ++ sequences.nodes (sbptr, .free)) := by
  induction count generalizing scptr ones sequences with
  | zero =>
      refine ⟨sequences, inv, ?_⟩
      rw [headers, List.reverse_nil, List.nil_append, Function.update_eq_self]
  | succ count induction =>
      rw [headers, List.forall_mem_cons] at fresh
      have linked : Dlink.Inv (ones.exec (.addHead (sbptr, .free) scptr (scptr + sizes.schunk)))
          (sequences.apply (.addHead (sbptr, .free) scptr (scptr + sizes.schunk))) :=
        inv.exec fresh.1 trivial
      have nodes : (sequences.apply
          (.addHead (sbptr, .free) scptr (scptr + sizes.schunk))).nodes =
          Function.update sequences.nodes (sbptr, .free)
            (scptr :: sequences.nodes (sbptr, .free)) := rfl
      have nodup : (headers sizes chunkSize (count + 1) scptr).Nodup := headers_nodup
      rw [headers, List.nodup_cons] at nodup
      obtain ⟨sequences', inv', nodes'⟩ := induction linked (by
        intro node member i there
        rw [nodes] at there
        by_cases same : i = (sbptr, .free)
        · subst same
          rw [Function.update_self, List.mem_cons] at there
          cases there with
          | inl isFirst =>
              rw [isFirst] at member
              exact nodup.1 member
          | inr old => exact fresh.2 node member _ old
        · rw [Function.update_of_ne same] at there
          exact fresh.2 node member i there)
      refine ⟨sequences', inv', ?_⟩
      rw [nodes', nodes, Function.update_idem, Function.update_self, headers,
        List.reverse_cons, List.append_assoc]
      rfl

/-- A new block has all its chunks on its list of free ones. -/
theorem Core.blockNew (core : Core sizes heap live blocks sequences) (positive : 0 < sbptr)
    (apart : ∀ other ∈ blocks, Apart heap.blockSize sbptr other) :
    ∃ heap' sequences', StaticHeap.blockNew sizes heap (some sbptr) = some heap' ∧
      Core sizes heap' live (sbptr :: blocks) sequences' ∧
      (∀ other, sequences'.nodes (other, .used) = sequences.nodes (other, .used)) ∧
      heap'.chunksPerBlock = heap.chunksPerBlock ∧
      heap'.blockFree sbptr = heap.chunksPerBlock := by
  have wide := Nat.mul_pos core.positive (Nat.add_pos_left sizes.schunk_pos heap.chunkSize)
  have fits := core.fits
  have isNew : sbptr ∉ blocks := by
    intro member
    have overlaps := apart sbptr member
    rw [Apart] at overlaps
    omega
  have empty := core.gone sbptr isNew
  have zeroed : Dlink.Inv ((heap.ones.exec (.destroy (sbptr, .free))).exec
      (.destroy (sbptr, .used)))
      ((sequences.apply (.destroy (sbptr, .free))).apply (.destroy (sbptr, .used))) :=
    core.ones.destroy.destroy
  have unchanged : ((sequences.apply (.destroy (sbptr, .free))).apply
      (.destroy (sbptr, .used))).nodes = sequences.nodes := by
    have first : Function.update sequences.nodes (sbptr, .free) [] = sequences.nodes := by
      rw [← empty .free, Function.update_eq_self]
    have second : Function.update sequences.nodes (sbptr, .used) [] = sequences.nodes := by
      rw [← empty .used, Function.update_eq_self]
    simp only [Dlink.Sequences.apply, Dlink.Sequences.set_nodes, first, second]
  have outside : ∀ node ∈ chunks sizes heap sbptr, ∀ other ∈ blocks, ∀ ones,
      node ∉ sequences.nodes (other, ones) := by
    intro node header other member ones there
    obtain ⟨lower, upper⟩ := core.inside member there
    have bounds := headers_bounds header
    have overlaps := apart other member
    rw [Apart] at overlaps
    have := sizes.schunk_pos
    omega
  have fresh : ∀ node ∈ chunks sizes heap sbptr, ((sequences.apply
      (.destroy (sbptr, .free))).apply (.destroy (sbptr, .used))).Unlinked node := by
    intro node header i there
    rw [unchanged] at there
    exact outside node header i.1 (core.block_of_linked there) i.2 there
  obtain ⟨sequences', inv, nodes⟩ := initChunks_inv sbptr zeroed fresh
  rw [unchanged, empty, List.append_nil] at nodes
  have usedNow : ∀ other, sequences'.nodes (other, .used) = sequences.nodes (other, .used) := by
    intro other
    rw [nodes, Function.update_of_ne (by simp)]
  have freeNow : sequences'.nodes (sbptr, .free) = (chunks sizes heap sbptr).reverse := by
    rw [nodes, Function.update_self]
    rfl
  have others : ∀ other, other ≠ sbptr → ∀ ones,
      sequences'.nodes (other, ones) = sequences.nodes (other, ones) := by
    intro other apart ones
    rw [nodes, Function.update_of_ne (by simp [apart])]
  have old : ∀ other ∈ blocks, other ≠ sbptr := by
    rintro other member rfl
    exact isNew member
  refine ⟨_, sequences', rfl, ⟨core.positive, core.fits, inv, ?_, ?_, ?_, ?_, ?_, ?_, ?_, ?_,
    ?_, ?_, core.live_nodup⟩, usedNow, rfl, Function.update_self _ _ _⟩
  · refine ⟨rfl, ?_⟩
    dsimp only
    rw [Function.update_self]
    apply traverses_congr core.chain
    intro other member
    exact Function.update_of_ne (old other member) _ _
  · exact List.forall_mem_cons.mpr ⟨positive, core.mapped⟩
  · exact List.Pairwise.cons apart core.apart
  · rw [List.length_cons, ← core.blockCount]
  · have kept : blocks.map (Function.update heap.blockFree sbptr heap.chunksPerBlock) =
        blocks.map heap.blockFree := by
      apply List.map_congr_left
      intro other member
      exact Function.update_of_ne (old other member) _ _
    dsimp only
    rw [List.map_cons, List.sum_cons, kept, Function.update_self, core.freeChunks, Nat.add_comm]
  · rw [List.forall_mem_cons]
    constructor
    · rw [freeNow, List.length_reverse, chunks, headers_length]
      exact Function.update_self _ _ _
    · intro other member
      rw [others other (old other member), ← core.blockFree other member]
      exact Function.update_of_ne (old other member) _ _
  · rw [List.forall_mem_cons]
    constructor
    · rw [usedNow, empty, List.append_nil, freeNow]
      exact List.reverse_perm _
    · intro other member
      rw [others other (old other member), others other (old other member)]
      exact core.whole other member
  · intro other notThere ones
    rw [List.mem_cons, not_or] at notThere
    rw [others other notThere.1]
    exact core.gone other notThere.2 ones
  · rw [List.forall_mem_cons]
    constructor
    · intro node there
      rw [usedNow, empty] at there
      exact absurd there List.not_mem_nil
    · intro other member node there
      rw [usedNow] at there
      obtain ⟨lower, upper⟩ := core.inside member there
      have overlaps := apart other member
      rw [Apart] at overlaps
      have header := sizes.schunk_pos
      have elsewhere : ¬ (sbptr ≤ node ∧ node < sbptr + heap.blockSize) := by
        omega
      exact (if_neg elsewhere).trans (core.owner other member node there)
  · intro ptr
    rw [core.live_iff]
    simp [usedNow, empty]

/-! ### Collecting blocks -/

/-- The heap after a block has been taken out of the chain. -/
def unchained (heap : Sheap) (prev : Option Nat) (sbptr : Nat) : Sheap :=
  blockDelete
    { heap with
      base := if prev = none then heap.next sbptr else heap.base
      next := match prev with
        | some prev => Function.update heap.next prev (heap.next sbptr)
        | none => heap.next
      blockCount := heap.blockCount - 1
      freeChunks := heap.freeChunks - heap.chunksPerBlock } sbptr

/-- A block without a used chunk is given back. -/
theorem Core.unchain {before rest : List Nat}
    (core : Core sizes heap live (before ++ sbptr :: rest) sequences)
    (idle : sequences.nodes (sbptr, .used) = []) :
    ∃ sequences', Core sizes (unchained heap before.getLast? sbptr) live (before ++ rest)
        sequences' ∧
      ∀ other, sequences'.nodes (other, .used) = sequences.nodes (other, .used) := by
  have nodup := core.nodup
  have member : sbptr ∈ before ++ sbptr :: rest := by simp
  rw [List.nodup_middle, List.nodup_cons] at nodup
  have others : ∀ other ∈ before ++ rest, other ∈ before ++ sbptr :: rest ∧ other ≠ sbptr := by
    intro other inside
    refine ⟨by simp at inside ⊢; tauto, ?_⟩
    rintro rfl
    exact nodup.1 inside
  have cleared : Dlink.Inv ((heap.ones.exec (.destroy (sbptr, .free))).exec
      (.destroy (sbptr, .used)))
      (shift sequences sbptr [] []) :=
    core.ones.destroy.destroy
  have usedNow : ∀ other, (shift sequences sbptr [] []).nodes (other, .used) =
      sequences.nodes (other, .used) := by
    intro other
    by_cases same : other = sbptr
    · rw [same, shift_used, idle]
    · rw [shift_other _ _ _ same]
  have full := (core.idle_iff member).mpr idle
  refine ⟨shift sequences sbptr [] [], ⟨core.positive, core.fits, cleared, ?_, ?_, ?_, ?_, ?_,
    ?_, ?_, ?_, ?_, ?_, core.live_nodup⟩, usedNow⟩
  · cases last : before.getLast? with
    | none =>
        obtain rfl := List.getLast?_eq_none_iff.mp last
        exact traverses_next core.chain
    | some prev =>
        have split : before = before.dropLast ++ [prev] :=
          (List.dropLast_append_getLast? prev last).symm
        have chain := core.chain
        have whole := core.nodup
        rw [split, List.append_assoc] at chain whole ⊢
        exact traverses_unchain chain whole
  · intro other inside
    exact core.mapped other (others other inside).1
  · exact core.apart.sublist ((List.sublist_cons_self sbptr rest).append_left before)
  · have length := core.blockCount
    rw [List.length_append, List.length_cons] at length
    rw [List.length_append]
    exact Nat.sub_eq_of_eq_add length
  · have sum := core.freeChunks
    rw [List.map_append, List.map_cons, List.sum_append, List.sum_cons, full] at sum
    have lessened : heap.freeChunks - heap.chunksPerBlock =
        ((before ++ rest).map heap.blockFree).sum := by
      rw [List.map_append, List.sum_append]
      omega
    exact lessened
  · intro other inside
    rw [shift_other _ _ _ (others other inside).2]
    exact core.blockFree other (others other inside).1
  · intro other inside
    rw [shift_other _ _ _ (others other inside).2, shift_other _ _ _ (others other inside).2]
    exact core.whole other (others other inside).1
  · intro other outside ones
    by_cases same : other = sbptr
    · subst same
      cases ones with
      | free => exact shift_free _ _ _
      | used => exact shift_used _ _ _
    · rw [shift_other _ _ _ same]
      apply core.gone other
      simp only [List.mem_append, List.mem_cons, not_or] at outside ⊢
      exact ⟨outside.1, same, outside.2⟩
  · intro other inside node there
    rw [usedNow] at there
    exact core.owner other (others other inside).1 node there
  · intro ptr
    rw [core.live_iff]
    simp only [usedNow]
    constructor
    · rintro ⟨other, inside, node, there, isPtr⟩
      refine ⟨other, ?_, node, there, isPtr⟩
      have notIdle : other ≠ sbptr := by
        rintro rfl
        rw [idle] at there
        exact List.not_mem_nil there
      simp only [List.mem_append, List.mem_cons] at inside ⊢
      tauto
    · rintro ⟨other, inside, found⟩
      exact ⟨other, (others other inside).1, found⟩

theorem collectLoop_of_full {turns : Nat} {prev : Option Nat}
    (full : heap.blockFree sbptr = heap.chunksPerBlock) :
    collectLoop (turns + 1) prev (some sbptr) heap =
      (collectLoop turns prev (heap.next sbptr) (unchained heap prev sbptr)).map
        fun (rest, released) => (rest, sbptr :: released) := by
  cases prev <;> simp [collectLoop, full, unchained]

theorem collectLoop_of_not_full {turns : Nat} {prev : Option Nat}
    (notFull : heap.blockFree sbptr ≠ heap.chunksPerBlock) :
    collectLoop (turns + 1) prev (some sbptr) heap =
      collectLoop turns (some sbptr) (heap.next sbptr) heap := by
  simp [collectLoop, notFull]

/-- The loop of `mem_static_collect` keeps the blocks with used chunks. -/
theorem Core.collectLoop {before rest : List Nat} {turns : Nat}
    (core : Core sizes heap live (before ++ rest) sequences) (enough : rest.length ≤ turns) :
    ∃ heap' released sequences',
      collectLoop turns before.getLast? rest.head? heap = some (heap', released) ∧
      Core sizes heap' live
        (before ++ rest.filter fun sbptr => sequences.nodes (sbptr, .used) ≠ []) sequences' ∧
      (∀ other, sequences'.nodes (other, .used) = sequences.nodes (other, .used)) ∧
      ∀ sbptr ∈ released, sbptr ∈ rest ∧ sequences.nodes (sbptr, .used) = [] := by
  induction rest generalizing before turns heap sequences with
  | nil => 
      refine ⟨heap, [], sequences, ?_, by simpa using core, fun _ => rfl, by simp⟩
      cases turns <;> rfl
  | cons sbptr rest induction =>
      cases turns with
      | zero => simp at enough
      | succ turns =>
          have member : sbptr ∈ before ++ sbptr :: rest := by simp
          have follows : heap.next sbptr = rest.head? :=
            traverses_head (traverses_next core.chain)
          have shorter : rest.length ≤ turns := by simpa using enough
          rw [List.head?_cons]
          by_cases idle : sequences.nodes (sbptr, .used) = []
          · obtain ⟨sequences₁, core₁, same₁⟩ := core.unchain idle
            obtain ⟨heap', released, sequences', result, core', same', idles⟩ :=
              induction core₁ shorter
            have kept : (sbptr :: rest).filter (fun sbptr => sequences.nodes (sbptr, .used) ≠ []) =
                rest.filter fun sbptr => sequences₁.nodes (sbptr, .used) ≠ [] := by
              rw [List.filter_cons_of_neg (by simpa using idle)]
              simp only [same₁]
            rw [collectLoop_of_full ((core.idle_iff member).mpr idle), follows, result, kept]
            refine ⟨heap', sbptr :: released, sequences', rfl, core',
              fun other => (same' other).trans (same₁ other), ?_⟩
            rw [List.forall_mem_cons]
            refine ⟨⟨List.mem_cons_self, idle⟩, fun other gone => ?_⟩
            obtain ⟨inRest, isIdle⟩ := idles other gone
            exact ⟨List.mem_cons_of_mem _ inRest, same₁ other ▸ isIdle⟩
          · have split : before ++ sbptr :: rest = (before ++ [sbptr]) ++ rest := by simp
            rw [split] at core
            obtain ⟨heap', released, sequences', result, core', same', idles⟩ :=
              induction core shorter
            rw [collectLoop_of_not_full fun full => idle ((core.idle_iff (by simp)).mp full),
              follows]
            rw [List.getLast?_concat] at result
            refine ⟨heap', released, sequences', result, ?_, same', ?_⟩
            · rw [List.filter_cons_of_pos (by simpa using idle)]
              simpa using core'
            · intro other member
              exact ⟨List.mem_cons_of_mem _ (idles other member).1, (idles other member).2⟩

/-- The loop from the first block on. -/
theorem Core.collectLoop_chain (core : Core sizes heap live blocks sequences) :
    ∃ heap' released sequences',
      StaticHeap.collectLoop heap.blockCount none heap.base heap = some (heap', released) ∧
      Core sizes heap' live
        (blocks.filter fun sbptr => sequences.nodes (sbptr, .used) ≠ []) sequences' ∧
      (∀ other, sequences'.nodes (other, .used) = sequences.nodes (other, .used)) ∧
      ∀ sbptr ∈ released, sbptr ∈ blocks ∧ sequences.nodes (sbptr, .used) = [] := by
  have whole : Core sizes heap live ([] ++ blocks) sequences := core
  rw [traverses_head core.chain, core.blockCount]
  exact whole.collectLoop (Nat.le_refl _)

/-- Two live chunks do not overlap. -/
theorem Core.live_apart (core : Core sizes heap live blocks sequences) {ptr ptr' : Nat}
    (isLive : ptr ∈ live) (isLive' : ptr' ∈ live) (differ : ptr ≠ ptr') :
    Apart heap.chunkSize ptr ptr' := by
  obtain ⟨block, member, node, linked, rfl⟩ := (core.live_iff ptr).mp isLive
  obtain ⟨block', member', node', linked', rfl⟩ := (core.live_iff ptr').mp isLive'
  have differ' : node ≠ node' := fun same => differ (congrArg (· + sizes.schunk) same)
  rw [Apart]
  by_cases same : block = block'
  · subst same
    have header := (core.whole block member).mem_iff.mp (List.mem_append_right _ linked)
    have header' := (core.whole block member).mem_iff.mp (List.mem_append_right _ linked')
    have apart : (chunks sizes heap block).Pairwise (Apart (sizes.schunk + heap.chunkSize)) :=
      headers_apart.imp Or.inl
    have overlaps := apart.forall header header' differ'
    rw [Apart] at overlaps
    omega
  · have overlaps := core.apart.forall member member' same
    have bounds := core.inside member linked
    have bounds' := core.inside member' linked'
    rw [Apart] at overlaps
    omega

/-- Memory that no live chunk lies in. -/
def Unused (heap : Sheap) (live : List Nat) (sbptr : Nat) : Prop :=
  ∀ ptr ∈ live, ptr + heap.chunkSize ≤ sbptr ∨ sbptr + heap.blockSize ≤ ptr

theorem Core.unused (core : Core sizes heap live blocks sequences) (member : sbptr ∈ blocks)
    (idle : sequences.nodes (sbptr, .used) = []) : Unused heap live sbptr := by
  intro ptr isLive
  obtain ⟨other, inside, node, there, rfl⟩ := (core.live_iff ptr).mp isLive
  obtain ⟨lower, upper⟩ := core.inside inside there
  have apart : other ≠ sbptr := by
    rintro rfl
    rw [idle] at there
    exact List.not_mem_nil there
  have overlaps := core.apart.forall inside member apart
  rw [Apart] at overlaps
  omega

/-- `mem_static_collect` gives back blocks without live chunks, and never all of them. -/
theorem Core.collect (core : Core sizes heap live blocks sequences)
    (keep : blocks.length = 1 ∨ ∃ sbptr ∈ blocks, sequences.nodes (sbptr, .used) ≠ []) :
    ∃ heap' released blocks' sequences', StaticHeap.collect heap = some (heap', released) ∧
      Core sizes heap' live blocks' sequences' ∧ Busy blocks' sequences' ∧ blocks' ≠ [] ∧
      ∀ sbptr ∈ released, Unused heap live sbptr := by
  have nonempty : blocks ≠ [] := by
    rintro rfl
    simp at keep
  rw [StaticHeap.collect]
  by_cases early : heap.freeChunks < heap.chunksPerBlock ∨ heap.blockCount = 1
  · rw [if_pos early]
    refine ⟨heap, [], blocks, sequences, rfl, core, ?_, nonempty, by simp⟩
    intro several sbptr member idle
    have full := (core.idle_iff member).mpr idle
    have total := core.blockFree_le member
    rw [core.blockCount] at early
    omega
  · rw [if_neg early]
    rw [not_or, core.blockCount] at early
    obtain ⟨heap', released, sequences', result, core', same, idles⟩ :=
      core.collectLoop_chain
    refine ⟨heap', released, _, sequences', result, core', ?_, ?_, ?_⟩
    · intro _ sbptr member
      rw [same]
      simpa using (List.mem_filter.mp member).2
    · obtain ⟨sbptr, member, busy⟩ := keep.resolve_left early.2
      apply List.ne_nil_of_mem
      exact List.mem_filter.mpr ⟨member, by simpa using busy⟩
    · intro sbptr gone
      exact core.unused (idles sbptr gone).1 (idles sbptr gone).2

end Core

end StaticHeap

end Chaosircd
