import Chaosircd.DynamicHeapChain
import Chaosircd.TransitionSystem

/-!
# Runs of a dynamic heap

What is put into a gap or behind the last chunk is checked to fit, but the first chunk of a
block is not: a size for which a block has no room runs over its end, and a size near the
end of the 64 bits is padded to nothing.  `mem_dynamic_realloc` takes the end of a block to
be one descriptor farther than it is when the last chunk grows.  As long as sizes keep away
from this the heap is sound, and with the first one that does not it is not.
-/

namespace Chaosircd

namespace DynamicHeap

variable {size ptr addr : Nat} {mapped : Option Nat} {junk mem : Nat → UInt8}
  {heap : Dheap} {next : Dheap × Nat} {base : List Dblock} {dbptr : Dblock}
  {chnk newchnk : Dchunk} {rest : List Dchunk} {blockSize : Nat}

/-! ## Bytes -/

theorem memset_of_not {byte : UInt8} (outside : addr < ptr ∨ ptr + size ≤ addr) :
    memset ptr byte size mem addr = mem addr := by
  rw [memset, if_neg (by omega)]

theorem memcpy_of_lt {dest src i : Nat} (within : i < size) :
    memcpy dest src size mem (dest + i) = mem (src + i) := by
  rw [memcpy, if_pos (by omega), Nat.add_sub_cancel_left]

/-- The data of a chunk is apart from descriptors and headers. -/
theorem Inv.not_inHeader (inv : Inv blockSize base) (member : dbptr ∈ base)
    (chunk : chnk ∈ dbptr.chunks) {i : Nat} (within : i < chnk.size) :
    inHeader base (chnk.ptr + i) = false := by
  have bounds := (inv.ok dbptr member).packed.bounds chunk
  rw [Dchunk.stop] at bounds
  rw [inHeader, List.any_eq_false]
  intro other member'
  rw [Bool.or_eq_true, not_or]
  constructor
  · rw [Bool.and_eq_true, decide_eq_true_eq, decide_eq_true_eq, Dchunk.ptr]
    rintro ⟨lower, upper⟩
    simp only [dblockSize, dchunkSize] at bounds lower upper
    have same : dbptr = other := by
      by_contra differ
      have apart := inv.apart_of_ne member member' differ
      omega
    subst same
    omega
  · rw [List.any_eq_true]
    rintro ⟨chnk', chunk', header⟩
    rw [Bool.and_eq_true, decide_eq_true_eq, decide_eq_true_eq, Dchunk.ptr, Dchunk.ptr] at header
    have differ : chnk ≠ chnk' := by
      intro same
      rw [same] at header
      omega
    have apart := inv.chunks_apart_of_ne member chunk member' chunk' differ
    rw [Dchunk.stop, Dchunk.stop] at apart
    omega

theorem Inv.scribble_eq (inv : Inv blockSize base) (member : dbptr ∈ base)
    (chunk : chnk ∈ dbptr.chunks) {i : Nat} (within : i < chnk.size) :
    scribble base junk mem (chnk.ptr + i) = mem (chnk.ptr + i) := by
  rw [scribble, inv.not_inHeader member chunk within]
  exact if_neg Bool.false_ne_true

/-! ## Allocations -/

theorem dynamicAlloc_eq (found : dynamicAlloc heap size mapped junk = some next) :
    ∃ base newchnk, makeRoom heap (padSize size) size mapped = some (base, newchnk) ∧
      next = ({ heap with
        base := base
        mem := memset newchnk.ptr 0 (padSize size) (scribble base junk heap.mem) },
        newchnk.ptr) := by
  obtain ⟨⟨base, newchnk⟩, made, same⟩ := Option.map_eq_some_iff.mp found
  exact ⟨base, newchnk, made, same.symm⟩

/-- Where the new chunk is inside of a block, its size has fitted. -/
theorem AllocFits.of_inside (bounds : dbptr.addr + dblockSize ≤ newchnk.addr ∧
      newchnk.stop ≤ dbptr.addr + dbptr.size) (whole : dbptr.size = heap.blockSize)
    (sizes : newchnk.size = padSize size ∧ newchnk.asked = size)
    (large : newchnk.asked ≤ newchnk.size) : AllocFits heap.blockSize size := by
  rw [sizes.1, sizes.2] at large
  refine ⟨large, ?_⟩
  rw [Dchunk.stop, sizes.1, whole] at bounds
  omega

theorem Inv.alloc (inv : Inv heap.blockSize heap.base) (fits : AllocFits heap.blockSize size)
    (fresh : ∀ addr ∈ mapped, Fresh heap addr)
    (found : dynamicAlloc heap size mapped junk = some next) :
    Inv next.1.blockSize next.1.base ∧ Returns (.alloc size mapped junk) next := by
  obtain ⟨base, newchnk, made, rfl⟩ := dynamicAlloc_eq found
  obtain ⟨sizes, ⟨dbptr, member, chunk, _⟩, _⟩ :=
    makeRoom_eq (fun dbptr member => (inv.ok dbptr member).size) made
  exact ⟨inv.makeRoom made fits.padded fits.room fresh, dbptr, member, newchnk, chunk, rfl,
    sizes.2⟩

theorem Inv.allocFits_of_sound (inv : Inv heap.blockSize heap.base)
    (found : dynamicAlloc heap size mapped junk = some next) (sound : Sound next.1) :
    AllocFits heap.blockSize size := by
  obtain ⟨base, newchnk, made, rfl⟩ := dynamicAlloc_eq found
  obtain ⟨sizes, ⟨dbptr, member, chunk, whole⟩, _⟩ :=
    makeRoom_eq (fun dbptr member => (inv.ok dbptr member).size) made
  exact AllocFits.of_inside (sound.inside dbptr member newchnk chunk) whole sizes
    (sound.large dbptr member newchnk chunk)

/-! ## Reallocations -/

/-- Another chunk outlives the release of a chunk. -/
theorem mem_blockFree (addr : Nat) {other : Dchunk} (member : dbptr ∈ base) (chunk : other ∈ dbptr.chunks)
    (differ : other ≠ chnk) :
    ∃ next ∈ blockFree addr chnk base, next.addr = dbptr.addr ∧ next.size = dbptr.size ∧
      other ∈ next.chunks := by
  obtain ⟨next, unlinked, sameAddr, sameSize, chunk⟩ : ∃ next ∈
      updateBlock addr (fun chunks => chunks.erase chnk) base,
      next.addr = dbptr.addr ∧ next.size = dbptr.size ∧ other ∈ next.chunks := by
    refine ⟨_, List.mem_map_of_mem member, ?_⟩
    split
    · exact ⟨rfl, rfl, (List.mem_erase_of_ne differ).mpr chunk⟩
    · exact ⟨rfl, rfl, chunk⟩
  refine ⟨next, ?_, sameAddr, sameSize, chunk⟩
  rw [blockFree]
  split
  · rw [collect]
    split
    · exact unlinked
    · rw [List.mem_filter]
      refine ⟨unlinked, ?_⟩
      cases chunks : next.chunks with
      | nil => rw [chunks] at chunk; exact absurd chunk List.not_mem_nil
      | cons _ _ => rfl
  · exact unlinked

/-- The chunk is set to a size for which there is space behind it. -/
theorem Inv.resize (inv : Inv blockSize base) (found : find base ptr = some (dbptr, chnk, rest))
    (space : ptr + size ≤ topOf (dbptr.addr + blockSize) rest) :
    Inv blockSize (DynamicHeap.updateBlock dbptr.addr (resizeChunk ptr size) base) := by
  obtain ⟨member, rfl, before, whole, others⟩ := find_eq_some found
  have ok := inv.ok dbptr member
  have packed := ok.packed
  have large := ok.large
  rw [whole] at packed large
  have chunk : chnk ∈ dbptr.chunks := by simp [whole]
  apply inv.updateBlock member chunk
  · rw [whole, resizeChunk_append others]
    exact packed.resize space
  · rw [whole, resizeChunk_append others]
    intro other resized
    rw [List.mem_append, List.mem_cons] at resized
    rcases resized with earlier | isThis | later
    · exact large other (by simp [earlier])
    · rw [isThis]
    · exact large other (by simp [later])

/-- The chunk that is set to a size. -/
theorem mem_resize (size : Nat) (found : find base ptr = some (dbptr, chnk, rest)) :
    ∃ next ∈ updateBlock dbptr.addr (resizeChunk ptr size) base,
      next.addr = dbptr.addr ∧ next.size = dbptr.size ∧
        { chnk with size := size, asked := size } ∈ next.chunks := by
  obtain ⟨member, rfl, before, whole, others⟩ := find_eq_some found
  refine ⟨_, List.mem_map_of_mem member, ?_⟩
  rw [if_pos rfl]
  refine ⟨rfl, rfl, ?_⟩
  rw [whole, resizeChunk_append others]
  simp

/-- The space that `mem_dynamic_realloc` reckons with: behind the last chunk it is one
descriptor too much. -/
theorem Inv.avail_eq (inv : Inv blockSize base)
    (found : find base ptr = some (dbptr, chnk, rest)) :
    ptr + (reallocTop dbptr rest + 2 ^ 64 - ptr) % 2 ^ 64 =
      topOf (dbptr.addr + blockSize + dblockSize) rest ∧
    chnk.stop ≤ topOf (dbptr.addr + blockSize) rest := by
  obtain ⟨member, rfl, before, whole, _⟩ := find_eq_some found
  have ok := inv.ok dbptr member
  have low := ok.low
  have packed := ok.packed
  rw [whole] at packed
  have space := packed.stop_le_topOf
  have upper := packed.topOf_le
  refine ⟨?_, space⟩
  rw [Dchunk.stop] at space
  rw [Dchunk.ptr]
  cases rest with
  | nil =>
      rw [reallocTop, ok.size]
      simp only [topOf, dblockSize] at space ⊢
      omega
  | cons next rest =>
      simp only [reallocTop, topOf] at space upper ⊢
      omega

/-- The chunk has been resized in place. -/
theorem Inv.resized (inv : Inv heap.blockSize heap.base)
    (found : find heap.base ptr = some (dbptr, chnk, rest))
    (space : ptr + size ≤ topOf (dbptr.addr + heap.blockSize) rest)
    (kept : ∀ i < min chnk.size size, mem (ptr + i) = heap.mem (ptr + i)) :
    Inv heap.blockSize (DynamicHeap.updateBlock dbptr.addr (resizeChunk ptr size) heap.base) ∧
      SoundAfter heap (.realloc ptr size mapped junk)
        ({ heap with
          base := DynamicHeap.updateBlock dbptr.addr (resizeChunk ptr size) heap.base
          mem := scribble heap.base junk mem }, ptr) := by
  have inv' := inv.resize found space
  obtain ⟨member, pointer, before, whole, _⟩ := find_eq_some found
  have chunk : chnk ∈ dbptr.chunks := by simp [whole]
  refine ⟨inv', inv'.sound, ?_, ?_⟩
  · obtain ⟨next, member', _, _, chunk'⟩ := mem_resize size found
    exact ⟨next, member', _, chunk', pointer, rfl⟩
  · intro dbptr' chnk' rest' found' i within
    rw [found] at found'
    cases found'
    rw [← kept i within]
    dsimp only
    rw [← pointer, inv.scribble_eq member chunk (by omega)]

/-- The chunk has been moved: the bytes are copied before the old chunk is released. -/
theorem Inv.moved (inv : Inv heap.blockSize heap.base)
    (found : find heap.base ptr = some (dbptr, chnk, rest)) (grows : chnk.size < size)
    (fits : AllocFits heap.blockSize size) (fresh : ∀ addr ∈ mapped, Fresh heap addr)
    (moved : dynamicAlloc heap size mapped junk = some next) :
    Inv next.1.blockSize (DynamicHeap.blockFree dbptr.addr chnk next.1.base) ∧
      SoundAfter heap (.realloc ptr size mapped junk)
        ({ next.1 with
          base := DynamicHeap.blockFree dbptr.addr chnk next.1.base
          mem := scribble next.1.base junk (memcpy next.2 ptr chnk.size next.1.mem) },
          next.2) := by
  obtain ⟨base, newchnk, made, rfl⟩ := dynamicAlloc_eq moved
  obtain ⟨member, pointer, before, whole, _⟩ := find_eq_some found
  obtain ⟨sizes, ⟨block, isBlock, isChunk, _⟩, olds⟩ :=
    makeRoom_eq (fun dbptr member => (inv.ok dbptr member).size) made
  have chunk : chnk ∈ dbptr.chunks := by simp [whole]
  have asked := (inv.ok dbptr member).large chnk chunk
  have differ : newchnk ≠ chnk := by
    intro same
    rw [← same, sizes.2] at asked
    rw [← same] at grows
    omega
  have inv' := inv.makeRoom made fits.padded fits.room fresh
  obtain ⟨dbptr', member', sameAddr, chunks⟩ := olds dbptr member
  have freed := inv'.blockFree member' (chunks chnk chunk)
  rw [sameAddr] at freed
  refine ⟨freed, freed.sound, ?_, ?_⟩
  · obtain ⟨next, isNext, _, _, isChunk'⟩ :=
      mem_blockFree dbptr.addr isBlock isChunk differ
    exact ⟨next, isNext, newchnk, isChunk', rfl, sizes.2⟩
  · intro dbptr'' chnk'' rest'' found' i within
    rw [found] at found'
    cases found'
    have large := fits.padded
    have apart :=
      inv'.chunks_apart_of_ne isBlock isChunk member' (chunks chnk chunk) differ
    rw [Dchunk.stop, Dchunk.stop, sizes.1] at apart
    dsimp only
    rw [inv'.scribble_eq isBlock isChunk (by rw [sizes.1]; omega), memcpy_of_lt (by omega),
      memset_of_not]
    · rw [← pointer, inv'.scribble_eq member' (chunks chnk chunk) (by omega)]
    · rw [← pointer, Dchunk.ptr, Dchunk.ptr]
      omega

/-- A reallocation whose sizes fit. -/
theorem Inv.realloc (inv : Inv heap.blockSize heap.base) (nonzero : ptr ≠ 0)
    (fresh : ∀ addr ∈ mapped, Fresh heap addr)
    (fits : Fits heap (.realloc ptr size mapped junk))
    (stepped : dynamicRealloc heap ptr size mapped junk = some next) :
    Inv next.1.blockSize next.1.base ∧ SoundAfter heap (.realloc ptr size mapped junk) next := by
  rw [dynamicRealloc, if_neg nonzero] at stepped
  rw [Fits, if_neg nonzero] at fits
  cases found : find heap.base ptr with
  | none => rw [found] at stepped; exact absurd stepped (by simp)
  | some result =>
      obtain ⟨dbptr, chnk, rest⟩ := result
      have fits := fits dbptr chnk rest found
      obtain ⟨avail, space⟩ := inv.avail_eq found
      obtain ⟨member, pointer, before, whole, _⟩ := find_eq_some found
      have room := (inv.ok dbptr member).size
      rw [found] at stepped
      dsimp only at stepped
      rw [Dchunk.stop, ← Dchunk.ptr, pointer] at space
      split at stepped
      · cases stepped
        exact inv.resized found (by omega) fun _ _ => rfl
      · rename_i grows
        have fits := fits.resolve_left grows
        split at stepped
        · rename_i within
          cases stepped
          refine inv.resized found ?_ fun i within => memset_of_not (by omega)
          cases rest with
          | nil =>
              rw [ReallocFits, pointer, room] at fits
              rw [topOf] at avail ⊢
              omega
          | cons next rest =>
              rw [topOf] at avail ⊢
              omega
        · rename_i beyond
          obtain ⟨moved, allocated, rfl⟩ := Option.map_eq_some_iff.mp stepped
          refine inv.moved found (Nat.lt_of_not_le grows) ?_ fresh allocated
          cases rest with
          | nil =>
              rw [ReallocFits, pointer, room] at fits
              rw [topOf] at avail
              exact (fits.resolve_left (by omega)).2
          | cons next rest =>
              rw [ReallocFits, pointer] at fits
              rw [topOf] at avail
              exact fits.resolve_left (by omega)

/-- What a reallocation has needed. -/
theorem Inv.fits_of_realloc (inv : Inv heap.blockSize heap.base) (nonzero : ptr ≠ 0)
    (stepped : dynamicRealloc heap ptr size mapped junk = some next) (sound : Sound next.1) :
    Fits heap (.realloc ptr size mapped junk) := by
  rw [dynamicRealloc, if_neg nonzero] at stepped
  rw [Fits, if_neg nonzero]
  intro dbptr chnk rest found
  obtain ⟨avail, _⟩ := inv.avail_eq found
  obtain ⟨member, pointer, before, whole, _⟩ := find_eq_some found
  have room := (inv.ok dbptr member).size
  have chunk : chnk ∈ dbptr.chunks := by simp [whole]
  have asked := (inv.ok dbptr member).large chnk chunk
  rw [found] at stepped
  dsimp only at stepped
  by_cases grows : size ≤ chnk.size
  · exact Or.inl grows
  · right
    rw [if_neg grows] at stepped
    split at stepped
    · rename_i within
      cases stepped
      obtain ⟨next, isNext, sameAddr, sameSize, chunk'⟩ := mem_resize size found
      have inside := (sound.inside next isNext _ chunk').2
      rw [sameAddr, sameSize, Dchunk.stop] at inside
      dsimp only at inside
      cases rest with
      | nil =>
          rw [ReallocFits, Dchunk.ptr]
          exact Or.inl inside
      | cons next rest =>
          rw [ReallocFits, pointer]
          rw [topOf] at avail
          omega
    · rename_i beyond
      obtain ⟨moved, allocated, rfl⟩ := Option.map_eq_some_iff.mp stepped
      have fits : AllocFits heap.blockSize size := by
        obtain ⟨base, newchnk, made, rfl⟩ := dynamicAlloc_eq allocated
        obtain ⟨sizes, ⟨block, isBlock, isChunk, same⟩, _⟩ :=
          makeRoom_eq (fun dbptr member => (inv.ok dbptr member).size) made
        have differ : newchnk ≠ chnk := by
          intro same
          rw [← same, sizes.2] at asked
          rw [← same] at grows
          omega
        obtain ⟨next, isNext, _, sameSize, isChunk'⟩ :=
          mem_blockFree dbptr.addr isBlock isChunk differ
        exact AllocFits.of_inside (sound.inside next isNext newchnk isChunk')
          (sameSize.trans same) sizes (sound.large next isNext newchnk isChunk')
      cases rest with
      | nil =>
          rw [ReallocFits, pointer, room]
          rw [topOf] at avail
          exact Or.inr ⟨by omega, fits⟩
      | cons next rest => exact Or.inr fits

/-! ## Events and runs -/

/-- An event whose sizes fit keeps the heap sound. -/
theorem Inv.step (inv : Inv heap.blockSize heap.base) {event : Event}
    (promised : Promise heap event) (fits : Fits heap event)
    (stepped : step heap event = some next) :
    Inv next.1.blockSize next.1.base ∧ SoundAfter heap event next := by
  cases event with
  | alloc size mapped junk =>
      obtain ⟨inv', returns⟩ := inv.alloc fits promised stepped
      exact ⟨inv', inv'.sound, returns, trivial⟩
  | realloc ptr size mapped junk =>
      by_cases zero : ptr = 0
      · rw [Fits, if_pos zero] at fits
        rw [DynamicHeap.step, dynamicRealloc, if_pos zero] at stepped
        obtain ⟨inv', returns⟩ := inv.alloc fits promised stepped
        refine ⟨inv', inv'.sound, returns, ?_⟩
        intro dbptr chnk rest found
        have pointer := (find_eq_some found).2.1
        rw [Dchunk.ptr, dchunkSize] at pointer
        omega
      · exact inv.realloc zero promised fits stepped
  | free ptr junk =>
      obtain ⟨freed, found, rfl⟩ := Option.map_eq_some_iff.mp stepped
      rw [dynamicFree] at found
      split at found
      · exact absurd found (by simp)
      · rename_i dbptr chnk rest located
        cases found
        obtain ⟨member, _, before, whole, _⟩ := find_eq_some located
        have chunk : chnk ∈ dbptr.chunks := by simp [whole]
        have inv' := inv.blockFree member chunk
        exact ⟨inv', inv'.sound, trivial, trivial⟩
  | write ptr offset byte =>
      rw [DynamicHeap.step] at stepped
      split at stepped
      · exact absurd stepped (by simp)
      · split at stepped
        · cases stepped
          have sound : ∀ mem, Sound { heap with mem := mem } := fun mem => Inv.sound inv
          exact ⟨inv, sound _, trivial, trivial⟩
        · exact absurd stepped (by simp)

/-- What an event has needed that leaves the heap sound. -/
theorem Inv.fits_of_sound (inv : Inv heap.blockSize heap.base) {event : Event}
    (stepped : DynamicHeap.step heap event = some next) (sound : Sound next.1) :
    Fits heap event := by
  cases event with
  | alloc size mapped junk => exact inv.allocFits_of_sound stepped sound
  | realloc ptr size mapped junk =>
      by_cases zero : ptr = 0
      · rw [DynamicHeap.step, dynamicRealloc, if_pos zero] at stepped
        rw [Fits, if_pos zero]
        exact inv.allocFits_of_sound stepped sound
      · exact inv.fits_of_realloc zero stepped sound
  | free ptr junk => trivial
  | write ptr offset byte => trivial

/-- For one event. -/
theorem Inv.soundStep_iff (inv : Inv heap.blockSize heap.base) {event : Event}
    (promised : Promise heap event) : SoundStep heap event ↔ FitsOrEnds heap event := by
  constructor
  · intro sound
    cases stepped : DynamicHeap.step heap event with
    | none => exact Or.inl stepped
    | some next => exact Or.inr (inv.fits_of_sound stepped (sound next stepped).sound)
  · intro fits next stepped
    cases fits with
    | inl ends => exact absurd (ends.symm.trans stepped) (by simp)
    | inr fits => exact (inv.step promised fits stepped).2

theorem inv_create {blocksize : Nat} (created : create blocksize mapped mem = some heap)
    (fresh : ∀ addr ∈ mapped, Fresh ⟨heap.blockSize, [], mem⟩ addr) :
    Inv heap.blockSize heap.base := by
  rw [create] at created
  split at created
  · exact absurd created (by simp)
  · obtain ⟨addr, found, rfl⟩ := Option.map_eq_some_iff.mp created
    obtain ⟨positive, low, _⟩ := fresh addr found
    constructor
    · intro dbptr member
      rw [List.mem_singleton.mp member]
      exact ⟨rfl, positive, low, trivial, by simp⟩
    · exact List.pairwise_singleton _ _

/-- In a run from a new heap on, each event leaves live chunks inside of blocks, apart from
each other and as large as has been asked for, and a reallocation keeps the bytes, as long
as and no longer than sizes fit. -/
theorem soundSteps_iff {blocksize : Nat} (created : create blocksize mapped mem = some heap)
    (fresh : ∀ addr ∈ mapped, Fresh ⟨heap.blockSize, [], mem⟩ addr) {events : List Event}
    (promised : TransitionSystem.GuardedRun exec Promise heap events) :
    TransitionSystem.GuardedRun exec SoundStep heap events ↔
      TransitionSystem.GuardedRun exec FitsOrEnds heap events := by
  refine TransitionSystem.guardedRun_congr
    (fun heap event inv promised => Inv.soundStep_iff inv promised) ?_
    (inv_create created fresh) promised
  intro heap event next inv promised fits stepped
  obtain ⟨result, answer, rfl⟩ := Option.map_eq_some_iff.mp stepped
  cases fits with
  | inl ends => exact absurd (ends.symm.trans answer) (by simp)
  | inr fits => exact (inv.step promised fits answer).1

/-- A heap of the size of the generic one, at one mebibyte. -/
def genericHeap : Dheap :=
  ⟨524288, [⟨1048576, 524288, []⟩], fun _ => 0⟩

/-- Two chunks, the second of which is moved. -/
def growing : List Event :=
  [.alloc 100 none fun _ => 0, .alloc 20 none fun _ => 1, .write 1048688 7 42,
    .realloc 1048688 30 none fun _ => 2, .realloc 1048688 1000 none fun _ => 3]

theorem soundSteps_growing :
    TransitionSystem.GuardedRun exec SoundStep genericHeap growing ↔
      TransitionSystem.GuardedRun exec FitsOrEnds genericHeap growing :=
  soundSteps_iff
    (rfl : create 524288 (some 1048576) (fun _ => 0) = some genericHeap)
    (by decide) (by decide +kernel)

/-- A request for as much as a block has runs over the end of the block. -/
theorem large_chunk_outside :
    ¬ ∀ events, TransitionSystem.GuardedRun exec Promise genericHeap events →
      TransitionSystem.GuardedRun exec SoundStep genericHeap events := by
  intro always
  have step := (always [.alloc 524288 none fun _ => 0] (by decide +kernel)).1
  have inside := (step _ rfl).sound.inside
  revert inside
  decide +kernel

end DynamicHeap

end Chaosircd
