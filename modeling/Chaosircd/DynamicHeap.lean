import Mathlib.Algebra.Ring.Nat
import Mathlib.Data.List.Basic
import Mathlib.Logic.Function.Basic

/-!
# Heaps of chunks of any size

A dynamic heap is a chain of blocks of one size.  A block begins with its descriptor and
links its chunks, each behind its header, in the order of their addresses.  A chunk is put
into the first gap that is large enough, be it between two chunks or behind the last one;
in a block without chunks it is put to the start.  A block without chunks is given back
when another one is there.

Sizes and addresses are 64 bit wide.  The figures about free and used bytes are kept for
the dump only and are left out.
-/

namespace Chaosircd

namespace DynamicHeap

/-! ## Blocks and chunks -/

/-- `sizeof(struct dchunk)`. -/
def dchunkSize : Nat := 40

/-- `sizeof(struct dblock)`. -/
def dblockSize : Nat := 72

/-- `MEM_PAD_BLOCKS`. -/
def padBlocks : Nat := 4096

/-- `struct dchunk` by the address of its header, and how much its owner asked for last. -/
structure Dchunk where
  addr : Nat
  size : Nat
  asked : Nat
  deriving DecidableEq, Repr

/-- Where the data of the chunk is. -/
def Dchunk.ptr (chnk : Dchunk) : Nat :=
  chnk.addr + dchunkSize

/-- Where the data of the chunk ends. -/
def Dchunk.stop (chnk : Dchunk) : Nat :=
  chnk.addr + dchunkSize + chnk.size

/-- `struct dblock` by its address. -/
structure Dblock where
  addr : Nat
  size : Nat
  chunks : List Dchunk
  deriving DecidableEq, Repr

/-- `struct dheap` with the chain of its blocks, and the bytes in memory. -/
structure Dheap where
  blockSize : Nat
  base : List Dblock
  mem : Nat → UInt8

/-! ## Memory -/

/-- `memset`. -/
def memset (ptr : Nat) (byte : UInt8) (size : Nat) (mem : Nat → UInt8) : Nat → UInt8 :=
  fun addr => if ptr ≤ addr ∧ addr < ptr + size then byte else mem addr

/-- `memcpy`. -/
def memcpy (dest src size : Nat) (mem : Nat → UInt8) : Nat → UInt8 :=
  fun addr => if dest ≤ addr ∧ addr < dest + size then mem (src + (addr - dest)) else mem addr

/-- The byte belongs to a descriptor or to a header. -/
def inHeader (base : List Dblock) (addr : Nat) : Bool :=
  base.any fun dbptr =>
    (decide (dbptr.addr ≤ addr) && decide (addr < dbptr.addr + dblockSize)) ||
      dbptr.chunks.any fun chnk => decide (chnk.addr ≤ addr) && decide (addr < chnk.ptr)

/-- The allocator writes to descriptors and headers; which bytes come out is not said. -/
def scribble (base : List Dblock) (junk mem : Nat → UInt8) : Nat → UInt8 :=
  fun addr => if inHeader base addr then junk addr else mem addr

/-! ## Allocation -/

/-- Pads a size to pointer boundary, in 64 bits. -/
def padSize (size : Nat) : Nat :=
  if size % 8 ≠ 0 then (size + 8) % 2 ^ 64 / 8 * 8 else size

/-- The loop of `mem_dynamic_block_alloc` and the check behind it.  `stop` is where the
chunk before ends and `limit` where the block does. -/
def placeChunk (limit size asked : Nat) : Nat → List Dchunk → Option (List Dchunk × Dchunk)
  | stop, [] =>
    if (stop + dchunkSize + size) % 2 ^ 64 ≤ limit then
      some ([⟨stop, size, asked⟩], ⟨stop, size, asked⟩)
    else none
  | stop, chnk :: chunks =>
    if (size + dchunkSize) % 2 ^ 64 ≤ (chnk.addr + 2 ^ 64 - stop) % 2 ^ 64 then
      some (⟨stop, size, asked⟩ :: chnk :: chunks, ⟨stop, size, asked⟩)
    else
      (placeChunk limit size asked (chnk.stop % 2 ^ 64) chunks).map
        fun (chunks, newchnk) => (chnk :: chunks, newchnk)

/-- `mem_dynamic_block_alloc`. -/
def blockAlloc (size asked : Nat) (dbptr : Dblock) : Option (Dblock × Dchunk) :=
  match dbptr.chunks with
  | [] =>
    let newchnk := ⟨dbptr.addr + dblockSize, size, asked⟩
    some ({ dbptr with chunks := [newchnk] }, newchnk)
  | chnk :: chunks =>
    (placeChunk ((dbptr.addr + dbptr.size) % 2 ^ 64) size asked (dbptr.addr + dblockSize)
      (chnk :: chunks)).map fun (chunks, newchnk) => ({ dbptr with chunks := chunks }, newchnk)

/-- The loop of `mem_dynamic_alloc`. -/
def chainAlloc (size asked : Nat) : List Dblock → Option (List Dblock × Dchunk)
  | [] => none
  | dbptr :: base =>
    match blockAlloc size asked dbptr with
    | some (dbptr, newchnk) => some (dbptr :: base, newchnk)
    | none => (chainAlloc size asked base).map fun (base, newchnk) => (dbptr :: base, newchnk)

/-- The chain with a place for a new chunk.  `mem_dynamic_block_new` puts a new block in
front; there is no result when the program ends for want of memory. -/
def makeRoom (heap : Dheap) (size asked : Nat) (mapped : Option Nat) :
    Option (List Dblock × Dchunk) :=
  match chainAlloc size asked heap.base with
  | some found => some found
  | none =>
    match mapped with
    | none => none
    | some addr =>
      (blockAlloc size asked ⟨addr, heap.blockSize, []⟩).map
        fun (dbptr, newchnk) => (dbptr :: heap.base, newchnk)

/-- `mem_dynamic_alloc`. -/
def dynamicAlloc (heap : Dheap) (size : Nat) (mapped : Option Nat) (junk : Nat → UInt8) :
    Option (Dheap × Nat) :=
  (makeRoom heap (padSize size) size mapped).map fun (base, newchnk) =>
    ({ heap with
      base := base
      mem := memset newchnk.ptr 0 (padSize size) (scribble base junk heap.mem) }, newchnk.ptr)

/-! ## Release and reallocation -/

/-- The chunk with this data pointer, its block, and the chunks behind it. -/
def find (base : List Dblock) (ptr : Nat) : Option (Dblock × Dchunk × List Dchunk) :=
  base.findSome? fun dbptr =>
    match dbptr.chunks.dropWhile fun chnk => chnk.ptr ≠ ptr with
    | [] => none
    | chnk :: rest => some (dbptr, chnk, rest)

/-- Changes the chunks of one block. -/
def updateBlock (addr : Nat) (f : List Dchunk → List Dchunk) (base : List Dblock) :
    List Dblock :=
  base.map fun dbptr =>
    if dbptr.addr = addr then { dbptr with chunks := f dbptr.chunks } else dbptr

/-- `mem_dynamic_collect`. -/
def collect (base : List Dblock) : List Dblock :=
  if base.length = 1 then base else base.filter fun dbptr => !dbptr.chunks.isEmpty

/-- `mem_dynamic_block_free`. -/
def blockFree (addr : Nat) (chnk : Dchunk) (base : List Dblock) : List Dblock :=
  let unlinked := updateBlock addr (fun chunks => chunks.erase chnk) base
  if unlinked.any fun dbptr => decide (dbptr.addr = addr) && dbptr.chunks.isEmpty then
    collect unlinked
  else unlinked

/-- `mem_dynamic_free`. -/
def dynamicFree (heap : Dheap) (ptr : Nat) (junk : Nat → UInt8) : Option Dheap :=
  match find heap.base ptr with
  | none => none
  | some (dbptr, chnk, _) =>
    some { heap with
      base := blockFree dbptr.addr chnk heap.base
      mem := scribble heap.base junk heap.mem }

/-- Sets the size of the chunk with this data pointer. -/
def resizeChunk (ptr size : Nat) : List Dchunk → List Dchunk
  | [] => []
  | chnk :: chunks =>
    if chnk.ptr = ptr then { chnk with size := size, asked := size } :: chunks
    else chnk :: resizeChunk ptr size chunks

/-- `top` of `mem_dynamic_realloc`. -/
def reallocTop (dbptr : Dblock) : List Dchunk → Nat
  | next :: _ => next.addr
  | [] => (dbptr.addr + dblockSize + dbptr.size) % 2 ^ 64

/-- `mem_dynamic_realloc`. -/
def dynamicRealloc (heap : Dheap) (ptr size : Nat) (mapped : Option Nat)
    (junk : Nat → UInt8) : Option (Dheap × Nat) :=
  if ptr = 0 then dynamicAlloc heap size mapped junk
  else
    match find heap.base ptr with
    | none => none
    | some (dbptr, dcptr, rest) =>
      let avail := (reallocTop dbptr rest + 2 ^ 64 - ptr) % 2 ^ 64
      let resized := updateBlock dbptr.addr (resizeChunk ptr size) heap.base
      if size ≤ dcptr.size then
        some ({ heap with base := resized, mem := scribble heap.base junk heap.mem }, ptr)
      else if size ≤ avail then
        some ({ heap with
          base := resized
          mem := scribble heap.base junk
            (memset (ptr + dcptr.size) 0 (size - dcptr.size) heap.mem) }, ptr)
      else
        (dynamicAlloc heap size mapped junk).map fun (moved, top) =>
          ({ moved with
            base := blockFree dbptr.addr dcptr moved.base
            mem := scribble moved.base junk (memcpy top ptr dcptr.size moved.mem) }, top)

/-- `mem_dynamic_create`.  There is no result when the program ends. -/
def create (blocksize : Nat) (mapped : Option Nat) (mem : Nat → UInt8) : Option Dheap :=
  if blocksize = 0 then none
  else
    let padded :=
      if blocksize % padBlocks ≠ 0 then
        (blocksize + (padBlocks - 1)) % 2 ^ 64 / padBlocks * padBlocks
      else blocksize
    mapped.map fun addr => ⟨padded, [⟨addr, padded, []⟩], mem⟩

/-- What is done with a heap.  What the system answers to a request for memory and the
bytes of the headers come with the event. -/
inductive Event where
  | alloc (size : Nat) (mapped : Option Nat) (junk : Nat → UInt8)
  | realloc (ptr size : Nat) (mapped : Option Nat) (junk : Nat → UInt8)
  | free (ptr : Nat) (junk : Nat → UInt8)
  | write (ptr offset : Nat) (byte : UInt8)

/-- One event and the pointer it returns.  There is no result when the program ends and
when a pointer is passed that is not one of a chunk. -/
def step (heap : Dheap) : Event → Option (Dheap × Nat)
  | .alloc size mapped junk => dynamicAlloc heap size mapped junk
  | .realloc ptr size mapped junk => dynamicRealloc heap ptr size mapped junk
  | .free ptr junk => (dynamicFree heap ptr junk).map fun heap => (heap, 0)
  | .write ptr offset byte =>
    match find heap.base ptr with
    | none => none
    | some (_, chnk, _) =>
      if offset < chnk.size then
        some ({ heap with mem := Function.update heap.mem (ptr + offset) byte }, 0)
      else none

/-- The heap after an event. -/
def exec (heap : Dheap) (event : Event) : Option Dheap :=
  (step heap event).map Prod.fst

/-! ## What is wanted -/

/-- Chunks lie in the data area of their block and apart from each other, and are as large
as their owners asked for. -/
structure Sound (heap : Dheap) : Prop where
  inside : ∀ dbptr ∈ heap.base, ∀ chnk ∈ dbptr.chunks,
    dbptr.addr + dblockSize ≤ chnk.addr ∧ chnk.stop ≤ dbptr.addr + dbptr.size
  apart : (heap.base.flatMap Dblock.chunks).Pairwise fun chnk other =>
    chnk.stop ≤ other.addr ∨ other.stop ≤ chnk.addr
  large : ∀ dbptr ∈ heap.base, ∀ chnk ∈ dbptr.chunks, chnk.asked ≤ chnk.size

/-- The pointer that is returned is one of a chunk of which so much was asked for. -/
def Returns : Event → Dheap × Nat → Prop
  | .alloc size _ _, next | .realloc _ size _ _, next =>
    ∃ dbptr ∈ next.1.base, ∃ chnk ∈ dbptr.chunks, chnk.ptr = next.2 ∧ chnk.asked = size
  | .free _ _, _ | .write _ _ _, _ => True

/-- A reallocation keeps what was in the chunk, as far as there is room for it. -/
def Preserves (heap : Dheap) : Event → Dheap × Nat → Prop
  | .realloc ptr size _ _, next =>
    ∀ dbptr chnk rest, find heap.base ptr = some (dbptr, chnk, rest) →
      ∀ i < min chnk.size size, next.1.mem (next.2 + i) = heap.mem (ptr + i)
  | .alloc _ _ _, _ | .free _ _, _ | .write _ _ _, _ => True

/-- The event leaves the heap as it should be. -/
structure SoundAfter (heap : Dheap) (event : Event) (next : Dheap × Nat) : Prop where
  sound : Sound next.1
  returns : Returns event next
  preserves : Preserves heap event next

/-- What the event leaves, if it leaves anything, is as it should be. -/
def SoundStep (heap : Dheap) (event : Event) : Prop :=
  ∀ next, step heap event = some next → SoundAfter heap event next

/-! ## The condition and the promise -/

/-- The padded size fits into a block beside the descriptor and a header. -/
structure AllocFits (blockSize size : Nat) : Prop where
  padded : size ≤ padSize size
  room : dblockSize + dchunkSize + padSize size ≤ blockSize

/-- A chunk that grows in place ends within its block, and one that has to move fits. -/
def ReallocFits (blockSize size : Nat) (dbptr : Dblock) (dcptr : Dchunk) :
    List Dchunk → Prop
  | next :: _ => dcptr.ptr + size ≤ next.addr ∨ AllocFits blockSize size
  | [] =>
    dcptr.ptr + size ≤ dbptr.addr + dbptr.size ∨
      (dbptr.addr + dbptr.size + dblockSize < dcptr.ptr + size ∧ AllocFits blockSize size)

/-- The sizes of the event fit. -/
def Fits (heap : Dheap) : Event → Prop
  | .alloc size _ _ => AllocFits heap.blockSize size
  | .realloc ptr size _ _ =>
    if ptr = 0 then AllocFits heap.blockSize size
    else
      ∀ dbptr dcptr rest, find heap.base ptr = some (dbptr, dcptr, rest) →
        size ≤ dcptr.size ∨ ReallocFits heap.blockSize size dbptr dcptr rest
  | .free _ _ | .write _ _ _ => True

/-- What the system maps is at none of the blocks, and in the lower half of the address
space. -/
def Fresh (heap : Dheap) (addr : Nat) : Prop :=
  0 < addr ∧ addr + heap.blockSize ≤ 2 ^ 63 ∧ ∀ dbptr ∈ heap.base,
    addr + heap.blockSize ≤ dbptr.addr ∨ dbptr.addr + heap.blockSize ≤ addr

/-- What the system maps is fresh. -/
def Promise (heap : Dheap) : Event → Prop
  | .alloc _ mapped _ | .realloc _ _ mapped _ => ∀ addr ∈ mapped, Fresh heap addr
  | .free _ _ | .write _ _ _ => True

/-- The program ends or a pointer is passed that is not one of a chunk, or else the sizes
fit. -/
def FitsOrEnds (heap : Dheap) (event : Event) : Prop :=
  step heap event = none ∨ Fits heap event

instance (heap : Dheap) (addr : Nat) : Decidable (Fresh heap addr) :=
  inferInstanceAs (Decidable (_ ∧ _ ∧ _))

instance (heap : Dheap) (event : Event) : Decidable (Promise heap event) :=
  match event with
  | .alloc _ mapped _ => inferInstanceAs (Decidable (∀ addr ∈ mapped, Fresh heap addr))
  | .realloc _ _ mapped _ => inferInstanceAs (Decidable (∀ addr ∈ mapped, Fresh heap addr))
  | .free _ _ => inferInstanceAs (Decidable True)
  | .write _ _ _ => inferInstanceAs (Decidable True)

end DynamicHeap

end Chaosircd
