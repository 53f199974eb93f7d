import Chaosircd.DlinkRefinement

/-!
# Heaps of chunks of one size

A static heap is a chain of blocks, and a block is cut into chunks of one size.  Each
block links its chunks on a list of free ones or on a list of used ones and counts the
free ones; the heap counts its blocks and all free chunks.  A block is mapped when no
chunk is free, and `mem_static_collect` takes the blocks out of the chain that have no
used chunk, while it walks the chain.
-/

namespace Chaosircd

namespace StaticHeap

/-- The two lists of a block, `free_ones` and `used_ones`. -/
inductive Ones where
  | free
  | used
  deriving DecidableEq

/-- The sizes of the descriptors, and `MEM_PAD_BLOCKS`, a power of two. -/
structure Sizes where
  schunk : Nat
  sblock : Nat
  padBlocks : Nat
  schunk_pos : 0 < schunk
  padBlocks_pos : 0 < padBlocks

/-- `struct sheap`, with what its blocks and their chunks hold by address. -/
structure Sheap where
  base : Option Nat
  blockCount : Nat
  freeChunks : Nat
  blockSize : Nat
  chunkSize : Nat
  chunksPerBlock : Nat
  /-- `sbptr->next` -/
  next : Nat → Option Nat
  /-- `sbptr->free_chunks` -/
  blockFree : Nat → Nat
  /-- `scptr->block` -/
  chunkBlock : Nat → Option Nat
  /-- the lists of all blocks; the nodes are the chunk headers -/
  ones : Dlink.Store (Nat × Ones) Nat Nat

/-- What an operation leaves: the heap, the pointer it returns and the blocks it has
given back. -/
structure Outcome where
  heap : Sheap
  ptr : Option Nat
  released : List Nat

variable (sizes : Sizes)

/-- The loop of `mem_static_block_new`. -/
def initChunks (sbptr chunkSize : Nat) :
    Nat → Nat → Dlink.Store (Nat × Ones) Nat Nat → Dlink.Store (Nat × Ones) Nat Nat
  | 0, _, ones => ones
  | i + 1, scptr, ones =>
    initChunks sbptr chunkSize i (scptr + sizes.schunk + chunkSize)
      (ones.exec (.addHead (sbptr, .free) scptr (scptr + sizes.schunk)))

/-- `mem_static_block_new`.  The system maps zeroed pages, or none. -/
def blockNew (heap : Sheap) (mapped : Option Nat) : Option Sheap :=
  match mapped with
  | none => none
  | some sbptr =>
    let zeroed := (heap.ones.exec (.destroy (sbptr, .free))).exec (.destroy (sbptr, .used))
    some { heap with
      base := some sbptr
      blockCount := heap.blockCount + 1
      freeChunks := heap.freeChunks + heap.chunksPerBlock
      next := Function.update heap.next sbptr heap.base
      blockFree := Function.update heap.blockFree sbptr heap.chunksPerBlock
      chunkBlock := fun scptr =>
        if sbptr ≤ scptr ∧ scptr < sbptr + heap.blockSize then none else heap.chunkBlock scptr
      ones := initChunks sizes sbptr heap.chunkSize heap.chunksPerBlock (sbptr + sizes.sblock)
        zeroed }

/-- `mem_static_block_delete`.  The memory of the block is gone, and its lists with it. -/
def blockDelete (heap : Sheap) (sbptr : Nat) : Sheap :=
  { heap with
    ones := (heap.ones.exec (.destroy (sbptr, .free))).exec (.destroy (sbptr, .used)) }

/-- `mem_static_block_alloc`. -/
def blockAlloc (heap : Sheap) (sbptr : Nat) : Option (Sheap × Nat) :=
  match (heap.ones.lists.list (sbptr, .free)).head with
  | none => none
  | some scptr =>
    let unlinked := heap.ones.exec (.delete (sbptr, .free) scptr)
    let ones := unlinked.exec (.addTail (sbptr, .used) scptr (scptr + sizes.schunk))
    some ({ heap with
      freeChunks := heap.freeChunks - 1
      blockFree := Function.update heap.blockFree sbptr (heap.blockFree sbptr - 1)
      chunkBlock := Function.update heap.chunkBlock scptr (some sbptr)
      ones := ones }, ones.data scptr)

/-- The loop of `mem_static_collect`.  It has no result when the chain is longer than the
number of turns. -/
def collectLoop : Nat → Option Nat → Option Nat → Sheap → Option (Sheap × List Nat)
  | _, _, none, heap => some (heap, [])
  | 0, _, some _, _ => none
  | turns + 1, prev, some dbptr, heap =>
    if heap.blockFree dbptr = heap.chunksPerBlock then
      let unchained : Sheap :=
        match prev with
        | some prev => { heap with next := Function.update heap.next prev (heap.next dbptr) }
        | none => { heap with base := heap.next dbptr }
      let counted : Sheap := { unchained with
        blockCount := heap.blockCount - 1
        freeChunks := heap.freeChunks - heap.chunksPerBlock }
      (collectLoop turns prev (heap.next dbptr) (blockDelete counted dbptr)).map
        fun (rest, released) => (rest, dbptr :: released)
    else collectLoop turns (some dbptr) (heap.next dbptr) heap

/-- `mem_static_collect`. -/
def collect (heap : Sheap) : Option (Sheap × List Nat) :=
  if heap.freeChunks < heap.chunksPerBlock ∨ heap.blockCount = 1 then some (heap, [])
  else collectLoop heap.blockCount none heap.base heap

/-- The first block of the chain that has free chunks. -/
def findFree (heap : Sheap) : Nat → Option Nat → Option Nat
  | _, none => none
  | 0, some _ => none
  | turns + 1, some sbptr =>
    if heap.blockFree sbptr ≠ 0 then some sbptr else findFree heap turns (heap.next sbptr)

/-- The loop of `mem_static_alloc`. -/
def occupy (heap : Sheap) (released : List Nat) : Option Outcome :=
  match findFree heap heap.blockCount heap.base with
  | none => some ⟨heap, none, released⟩
  | some sbptr =>
    (blockAlloc sizes heap sbptr).map fun (heap, ptr) => ⟨heap, some ptr, released⟩

/-- `mem_static_alloc`.  There is no result when the program ends for want of memory. -/
def alloc (heap : Sheap) (mapped : Option Nat) : Option Outcome :=
  if heap.freeChunks = 0 then
    match blockNew sizes heap mapped with
    | some heap => occupy sizes heap []
    | none =>
      match collect heap with
      | none => none
      | some (heap, released) =>
        if heap.freeChunks = 0 then none else occupy sizes heap released
  else occupy sizes heap []

/-- `mem_static_free`. -/
def free (heap : Sheap) (ptr : Nat) : Option Outcome :=
  if ptr = 0 then some ⟨heap, none, []⟩
  else
    let scptr := ptr - sizes.schunk
    match heap.chunkBlock scptr with
    | none => none
    | some dbptr =>
      let unlinked := heap.ones.exec (.delete (dbptr, .used) scptr)
      let heap := { heap with
        freeChunks := heap.freeChunks + 1
        blockFree := Function.update heap.blockFree dbptr (heap.blockFree dbptr + 1)
        ones := unlinked.exec (.addHead (dbptr, .free) scptr ptr) }
      if (heap.ones.lists.list (dbptr, .used)).size = 0 then
        (collect heap).map fun (heap, released) => ⟨heap, none, released⟩
      else some ⟨heap, none, []⟩

/-- The size of a block: room for so many chunks, up to the next boundary. -/
def blockSizeFor (size count : Nat) : Nat :=
  let blocksize := (size + sizes.schunk) * count + sizes.sblock
  if blocksize % sizes.padBlocks ≠ 0 then
    (blocksize + (sizes.padBlocks - 1)) / sizes.padBlocks * sizes.padBlocks
  else blocksize

/-- `mem_static_create`. -/
def create (size count : Nat) (mapped : Option Nat) : Option Sheap :=
  let blocksize := blockSizeFor sizes size count
  blockNew sizes
    { base := none
      blockCount := 0
      freeChunks := 0
      blockSize := blocksize
      chunkSize := size
      chunksPerBlock := (blocksize - sizes.sblock) / (size + sizes.schunk)
      next := fun _ => none
      blockFree := fun _ => 0
      chunkBlock := fun _ => none
      ones := Dlink.Store.empty fun _ => 0 } mapped

/-! ## The chunks of a block -/

/-- The addresses of so many chunk headers, from this one on. -/
def headers (chunkSize : Nat) : Nat → Nat → List Nat
  | 0, _ => []
  | i + 1, scptr => scptr :: headers chunkSize i (scptr + sizes.schunk + chunkSize)

variable {sizes} {chunkSize count scptr : Nat}

@[simp]
theorem headers_length : (headers sizes chunkSize count scptr).length = count := by
  induction count generalizing scptr with
  | zero => rfl
  | succ count induction => rw [headers, List.length_cons, induction]

/-- A chunk with its header lies between the first header and the end of the last chunk. -/
theorem headers_bounds {node : Nat} (member : node ∈ headers sizes chunkSize count scptr) :
    scptr ≤ node ∧
      node + (sizes.schunk + chunkSize) ≤ scptr + count * (sizes.schunk + chunkSize) := by
  induction count generalizing scptr with
  | zero => exact absurd member List.not_mem_nil
  | succ count induction =>
      rw [Nat.succ_mul]
      cases member with
      | head => omega
      | tail _ member =>
          obtain ⟨lower, upper⟩ := induction member
          omega

/-- Two chunks of a block with their headers do not overlap. -/
theorem headers_apart : (headers sizes chunkSize count scptr).Pairwise fun node node' =>
    node + (sizes.schunk + chunkSize) ≤ node' := by
  induction count generalizing scptr with
  | zero => exact List.Pairwise.nil
  | succ count induction =>
      refine List.Pairwise.cons ?_ induction
      intro node member
      have lower := (headers_bounds member).1
      omega

theorem headers_nodup : (headers sizes chunkSize count scptr).Nodup := by
  refine headers_apart.imp ?_
  intro node node' apart
  have := sizes.schunk_pos
  omega

theorem le_blockSizeFor (sizes : Sizes) (size count : Nat) :
    (size + sizes.schunk) * count + sizes.sblock ≤ blockSizeFor sizes size count := by
  rw [blockSizeFor]
  generalize (size + sizes.schunk) * count + sizes.sblock = blocksize
  have positive := sizes.padBlocks_pos
  split
  · have parts := Nat.div_add_mod (blocksize + (sizes.padBlocks - 1)) sizes.padBlocks
    have below := Nat.mod_lt (blocksize + (sizes.padBlocks - 1)) positive
    rw [Nat.mul_comm] at parts
    omega
  · exact Nat.le_refl blocksize

/-- The chunks fit into a block of a heap that has been created. -/
theorem blockSizeFor_fits (size count : Nat) :
    sizes.sblock + (blockSizeFor sizes size count - sizes.sblock) / (size + sizes.schunk) *
      (sizes.schunk + size) ≤ blockSizeFor sizes size count := by
  have enough := le_blockSizeFor sizes size count
  have within := Nat.div_mul_le_self (blockSizeFor sizes size count - sizes.sblock)
    (size + sizes.schunk)
  rw [Nat.add_comm sizes.schunk size]
  omega

theorem blockSizeFor_chunks (size : Nat) {count : Nat} (wanted : 0 < count) :
    0 < (blockSizeFor sizes size count - sizes.sblock) / (size + sizes.schunk) := by
  have enough := le_blockSizeFor sizes size count
  have one := Nat.le_mul_of_pos_right (size + sizes.schunk) wanted
  have positive := sizes.schunk_pos
  apply Nat.div_pos
  · omega
  · omega

end StaticHeap

end Chaosircd
