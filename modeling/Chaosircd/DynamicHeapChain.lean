import Chaosircd.DynamicHeap
import Mathlib.Data.List.Pairwise

/-!
# The chain of a dynamic heap

The chunks of a block are packed: each one begins behind the end of the one before, and
the last one ends within the block.  A gap that is large enough takes a chunk, whatever
leaves a block leaves the others packed, and a chunk may grow up to the next one.
-/

namespace Chaosircd

namespace DynamicHeap

/-! ## Packed chunks -/

/-- The chunks follow each other from `stop` on, up to `limit`. -/
def Packed (limit : Nat) : Nat → List Dchunk → Prop
  | _, [] => True
  | stop, chnk :: chunks =>
    stop ≤ chnk.addr ∧ chnk.stop ≤ limit ∧ Packed limit chnk.stop chunks

/-- Where the space behind a chunk ends. -/
def topOf (limit : Nat) : List Dchunk → Nat
  | next :: _ => next.addr
  | [] => limit

variable {limit stop size asked ptr : Nat} {chnk newchnk : Dchunk}
  {chunks before rest : List Dchunk}

theorem Dchunk.addr_lt_stop (chnk : Dchunk) : chnk.addr < chnk.stop := by
  rw [Dchunk.stop, dchunkSize]
  omega

theorem Packed.mono {stop' : Nat} (packed : Packed limit stop chunks) (lower : stop' ≤ stop) :
    Packed limit stop' chunks := by
  cases chunks with
  | nil => trivial
  | cons chnk chunks => exact ⟨Nat.le_trans lower packed.1, packed.2⟩

theorem Packed.bounds (packed : Packed limit stop chunks) (member : chnk ∈ chunks) :
    stop ≤ chnk.addr ∧ chnk.stop ≤ limit := by
  induction chunks generalizing stop with
  | nil => exact absurd member List.not_mem_nil
  | cons first chunks induction =>
      obtain ⟨lower, upper, packed⟩ := packed
      cases List.mem_cons.mp member with
      | inl isFirst =>
          rw [isFirst]
          exact ⟨lower, upper⟩
      | inr later =>
          have bounds := induction packed later
          have forward := first.addr_lt_stop
          omega

theorem Packed.apart (packed : Packed limit stop chunks) :
    chunks.Pairwise fun chnk other => chnk.stop ≤ other.addr := by
  induction chunks generalizing stop with
  | nil => exact List.Pairwise.nil
  | cons first chunks induction =>
      refine List.Pairwise.cons ?_ (induction packed.2.2)
      intro other member
      exact (packed.2.2.bounds member).1

theorem Packed.sublist (packed : Packed limit stop chunks) (shorter : rest.Sublist chunks) :
    Packed limit stop rest := by
  induction shorter generalizing stop with
  | slnil => trivial
  | cons first _ induction =>
      have forward := first.addr_lt_stop
      have lower := packed.1
      exact (induction packed.2.2).mono (by omega)
  | cons_cons first _ induction => exact ⟨packed.1, packed.2.1, induction packed.2.2⟩

/-- The space behind a chunk. -/
theorem Packed.stop_le_topOf (packed : Packed limit stop (before ++ chnk :: rest)) :
    chnk.stop ≤ topOf limit rest := by
  induction before generalizing stop with
  | nil =>
      cases rest with
      | nil => exact packed.2.1
      | cons next rest => exact packed.2.2.1
  | cons first before induction => exact induction packed.2.2

theorem Packed.topOf_le (packed : Packed limit stop (before ++ chnk :: rest)) :
    topOf limit rest ≤ limit := by
  induction before generalizing stop with
  | nil =>
      cases rest with
      | nil => exact Nat.le_refl limit
      | cons next rest =>
          have forward := next.addr_lt_stop
          have upper := packed.2.2.2.1
          rw [topOf]
          omega
  | cons first before induction => exact induction packed.2.2

/-- A chunk may grow up to the next one. -/
theorem Packed.resize (packed : Packed limit stop (before ++ chnk :: rest))
    (fits : chnk.ptr + size ≤ topOf limit rest) :
    Packed limit stop (before ++ { chnk with size := size, asked := asked } :: rest) := by
  induction before generalizing stop with
  | nil =>
      have upper := packed.topOf_le
      refine ⟨packed.1, Nat.le_trans fits upper, ?_⟩
      cases rest with
      | nil => trivial
      | cons next rest => exact ⟨fits, packed.2.2.2⟩
  | cons first before induction => exact ⟨packed.1, packed.2.1, induction packed.2.2⟩

/-- The first gap that is large enough takes the new chunk. -/
theorem Packed.placeChunk (packed : Packed limit stop chunks)
    (placed : placeChunk limit size asked stop chunks = some (rest, newchnk))
    (low : stop ≤ 2 ^ 63) (lower : limit ≤ 2 ^ 63)
    (small : dblockSize + dchunkSize + size ≤ 2 ^ 63) : Packed limit stop rest := by
  induction chunks generalizing stop rest with
  | nil =>
      rw [DynamicHeap.placeChunk] at placed
      split at placed
      · rename_i fits
        cases placed
        refine ⟨Nat.le_refl stop, ?_, trivial⟩
        rw [Dchunk.stop]
        simp only [dchunkSize, dblockSize] at fits small low ⊢
        omega
      · exact absurd placed (by simp)
  | cons chnk chunks induction =>
      obtain ⟨first, upper, packed⟩ := packed
      have forward := chnk.addr_lt_stop
      rw [DynamicHeap.placeChunk] at placed
      split at placed
      · rename_i fits
        cases placed
        have gap : Dchunk.stop ⟨stop, size, asked⟩ ≤ chnk.addr := by
          rw [Dchunk.stop]
          simp only [dchunkSize, dblockSize] at fits small ⊢
          omega
        exact ⟨Nat.le_refl stop, by omega, gap, upper, packed⟩
      · obtain ⟨⟨later, newchnk'⟩, placed, same⟩ := Option.map_eq_some_iff.mp placed
        cases same
        have word : chnk.stop % 2 ^ 64 = chnk.stop := Nat.mod_eq_of_lt (by omega)
        rw [word] at placed
        exact ⟨first, upper, induction packed placed (by omega)⟩

/-- The new chunk joins the others. -/
theorem mem_placeChunk (placed : placeChunk limit size asked stop chunks = some (rest, newchnk)) :
    (newchnk.size = size ∧ newchnk.asked = asked) ∧
      ∀ chnk, chnk ∈ rest ↔ chnk = newchnk ∨ chnk ∈ chunks := by
  induction chunks generalizing stop rest with
  | nil =>
      rw [placeChunk] at placed
      split at placed
      · cases placed
        simp
      · exact absurd placed (by simp)
  | cons first chunks induction =>
      rw [placeChunk] at placed
      split at placed
      · cases placed
        simp
      · obtain ⟨⟨later, newchnk'⟩, placed, same⟩ := Option.map_eq_some_iff.mp placed
        cases same
        obtain ⟨sizes, members⟩ := induction placed
        refine ⟨sizes, ?_⟩
        intro chnk
        rw [List.mem_cons, members, List.mem_cons]
        exact or_left_comm

/-! ## Blocks -/

/-- A block of the heap and its chunks. -/
structure BlockOk (blockSize : Nat) (dbptr : Dblock) : Prop where
  size : dbptr.size = blockSize
  positive : 0 < dbptr.addr
  low : dbptr.addr + blockSize ≤ 2 ^ 63
  packed : Packed (dbptr.addr + blockSize) (dbptr.addr + dblockSize) dbptr.chunks
  large : ∀ chnk ∈ dbptr.chunks, chnk.asked ≤ chnk.size

/-- The blocks are apart from each other. -/
structure Inv (blockSize : Nat) (base : List Dblock) : Prop where
  ok : ∀ dbptr ∈ base, BlockOk blockSize dbptr
  apart : (base.map Dblock.addr).Pairwise fun addr other =>
    addr + blockSize ≤ other ∨ other + blockSize ≤ addr

variable {blockSize addr : Nat} {base base' : List Dblock} {dbptr dbptr' : Dblock}

theorem blockAlloc_eq {next : Dblock} (found : blockAlloc size asked dbptr = some (next, newchnk)) :
    next.addr = dbptr.addr ∧ next.size = dbptr.size ∧
      (newchnk.size = size ∧ newchnk.asked = asked) ∧
      ∀ chnk, chnk ∈ next.chunks ↔ chnk = newchnk ∨ chnk ∈ dbptr.chunks := by
  rw [blockAlloc] at found
  split at found
  · rename_i none
    cases found
    simp [none]
  · rename_i first chunks some
    obtain ⟨⟨placed, newchnk'⟩, found, same⟩ := Option.map_eq_some_iff.mp found
    cases same
    obtain ⟨sizes, members⟩ := mem_placeChunk found
    rw [some]
    exact ⟨rfl, rfl, sizes, members⟩

theorem BlockOk.blockAlloc {next : Dblock} (ok : BlockOk blockSize dbptr)
    (found : blockAlloc size asked dbptr = some (next, newchnk)) (large : asked ≤ size)
    (room : dblockSize + dchunkSize + size ≤ blockSize) : BlockOk blockSize next := by
  obtain ⟨sameAddr, sameSize, sizes, members⟩ := blockAlloc_eq found
  have low := ok.low
  refine ⟨sameSize.trans ok.size, sameAddr ▸ ok.positive, sameAddr ▸ low, ?_, ?_⟩
  · rw [sameAddr]
    rw [DynamicHeap.blockAlloc] at found
    split at found
    · cases found
      refine ⟨Nat.le_refl _, ?_, trivial⟩
      rw [Dchunk.stop]
      dsimp only
      omega
    · rename_i first chunks some
      obtain ⟨⟨placed, newchnk'⟩, found, same⟩ := Option.map_eq_some_iff.mp found
      cases same
      have word : (dbptr.addr + dbptr.size) % 2 ^ 64 = dbptr.addr + blockSize := by
        rw [ok.size]
        exact Nat.mod_eq_of_lt (by omega)
      rw [word] at found
      have packed := ok.packed
      rw [some] at packed
      exact packed.placeChunk found (by omega) low (by omega)
  · intro chnk member
    cases (members chnk).mp member with
    | inl isNew =>
        rw [isNew, sizes.1, sizes.2]
        exact large
    | inr old => exact ok.large chnk old

/-! ## The chain -/

/-- Whatever takes place in one block of the chain. -/
theorem chainAlloc_eq (found : chainAlloc size asked base = some (base', newchnk)) :
    ∃ before dbptr after next, base = before ++ dbptr :: after ∧
      base' = before ++ next :: after ∧ blockAlloc size asked dbptr = some (next, newchnk) := by
  induction base generalizing base' with
  | nil => exact absurd found (by simp [chainAlloc])
  | cons first base induction =>
      rw [chainAlloc] at found
      cases tried : blockAlloc size asked first with
      | some result =>
          rw [tried] at found
          cases found
          exact ⟨[], first, base, result.1, rfl, rfl, tried⟩
      | none =>
          rw [tried] at found
          obtain ⟨⟨later, newchnk'⟩, found, same⟩ := Option.map_eq_some_iff.mp found
          cases same
          obtain ⟨before, dbptr, after, next, whole, whole', allocated⟩ := induction found
          exact ⟨first :: before, dbptr, after, next, by rw [whole]; rfl, by rw [whole']; rfl,
            allocated⟩

theorem Inv.apart_of_ne (inv : Inv blockSize base) (member : dbptr ∈ base)
    (member' : dbptr' ∈ base) (differ : dbptr ≠ dbptr') :
    dbptr.addr + blockSize ≤ dbptr'.addr ∨ dbptr'.addr + blockSize ≤ dbptr.addr := by
  have symmetric : Std.Symm fun dbptr other : Dblock =>
      dbptr.addr + blockSize ≤ other.addr ∨ other.addr + blockSize ≤ dbptr.addr :=
    ⟨fun _ _ => Or.symm⟩
  exact (List.pairwise_map.mp inv.apart).forall member member' differ

/-- A block is known by its address, where blocks have a size. -/
theorem Inv.eq_of_addr (inv : Inv blockSize base) (some : 0 < blockSize) (member : dbptr ∈ base)
    (member' : dbptr' ∈ base) (same : dbptr'.addr = dbptr.addr) : dbptr' = dbptr := by
  by_contra differ
  have apart := inv.apart_of_ne member' member differ
  omega

theorem Inv.sublist (inv : Inv blockSize base) (shorter : base'.Sublist base) :
    Inv blockSize base' :=
  ⟨fun dbptr member => inv.ok dbptr (shorter.subset member),
    inv.apart.sublist (shorter.map Dblock.addr)⟩

/-- The chunk of a block is in its room. -/
theorem Inv.room_of_mem (inv : Inv blockSize base) (member : dbptr ∈ base)
    (chunk : chnk ∈ dbptr.chunks) : dblockSize + dchunkSize ≤ blockSize := by
  have bounds := (inv.ok dbptr member).packed.bounds chunk
  rw [Dchunk.stop] at bounds
  omega

/-- Two chunks of the chain are apart. -/
theorem Inv.chunks_apart (inv : Inv blockSize base) :
    (base.flatMap Dblock.chunks).Pairwise fun chnk other =>
      chnk.stop ≤ other.addr ∨ other.stop ≤ chnk.addr := by
  rw [List.pairwise_flatMap]
  constructor
  · intro dbptr member
    exact (inv.ok dbptr member).packed.apart.imp Or.inl
  · refine (List.pairwise_map.mp inv.apart).imp_of_mem ?_
    intro dbptr other member member' apart chnk chunk chnk' chunk'
    have bounds := (inv.ok dbptr member).packed.bounds chunk
    have bounds' := (inv.ok other member').packed.bounds chunk'
    omega

theorem Inv.chunks_apart_of_ne (inv : Inv blockSize base) (member : dbptr ∈ base)
    (chunk : chnk ∈ dbptr.chunks) (member' : dbptr' ∈ base) (chunk' : chnk' ∈ dbptr'.chunks)
    (differ : chnk ≠ chnk') : chnk.stop ≤ chnk'.addr ∨ chnk'.stop ≤ chnk.addr := by
  have symmetric : Std.Symm fun chnk other : Dchunk =>
      chnk.stop ≤ other.addr ∨ other.stop ≤ chnk.addr := ⟨fun _ _ => Or.symm⟩
  exact inv.chunks_apart.forall (List.mem_flatMap_of_mem member chunk)
    (List.mem_flatMap_of_mem member' chunk') differ

theorem Inv.sound {heap : Dheap} (inv : Inv heap.blockSize heap.base) : Sound heap := by
  refine ⟨?_, inv.chunks_apart, fun dbptr member => (inv.ok dbptr member).large⟩
  intro dbptr member chnk chunk
  rw [(inv.ok dbptr member).size]
  exact (inv.ok dbptr member).packed.bounds chunk

/-- New chunks for one block. -/
theorem Inv.updateBlock (inv : Inv blockSize base) (member : dbptr ∈ base)
    (chunk : chnk ∈ dbptr.chunks) {f : List Dchunk → List Dchunk}
    (packed : Packed (dbptr.addr + blockSize) (dbptr.addr + dblockSize) (f dbptr.chunks))
    (large : ∀ chnk ∈ f dbptr.chunks, chnk.asked ≤ chnk.size) :
    Inv blockSize (updateBlock dbptr.addr f base) := by
  have room := inv.room_of_mem member chunk
  rw [dblockSize] at room
  constructor
  · intro next changed
    obtain ⟨old, member', rfl⟩ := List.mem_map.mp changed
    have ok := inv.ok old member'
    split
    · rename_i same
      have isOld := inv.eq_of_addr (by omega) member member' same
      subst isOld
      exact ⟨ok.size, ok.positive, ok.low, packed, large⟩
    · exact ok
  · have addresses : (DynamicHeap.updateBlock dbptr.addr f base).map Dblock.addr =
        base.map Dblock.addr := by
      rw [DynamicHeap.updateBlock, List.map_map]
      refine List.map_congr_left fun old _ => ?_
      dsimp only [Function.comp]
      split <;> rfl
    rw [addresses]
    exact inv.apart

theorem Inv.collect (inv : Inv blockSize base) : Inv blockSize (collect base) := by
  rw [DynamicHeap.collect]
  split
  · exact inv
  · exact inv.sublist List.filter_sublist

theorem Inv.blockFree (inv : Inv blockSize base) (member : dbptr ∈ base)
    (chunk : chnk ∈ dbptr.chunks) : Inv blockSize (blockFree dbptr.addr chnk base) := by
  have ok := inv.ok dbptr member
  have unlinked := inv.updateBlock member chunk (f := fun chunks => chunks.erase chnk)
    (ok.packed.sublist List.erase_sublist)
    (fun chnk member => ok.large chnk (List.mem_of_mem_erase member))
  rw [DynamicHeap.blockFree]
  split
  · exact unlinked.collect
  · exact unlinked

/-- Room has been made for a chunk of this size. -/
theorem Inv.makeRoom {heap : Dheap} {mapped : Option Nat}
    (inv : Inv heap.blockSize heap.base)
    (found : makeRoom heap size asked mapped = some (base, newchnk)) (large : asked ≤ size)
    (room : dblockSize + dchunkSize + size ≤ heap.blockSize)
    (fresh : ∀ addr ∈ mapped, Fresh heap addr) : Inv heap.blockSize base := by
  unfold DynamicHeap.makeRoom at found
  split at found
  · rename_i result placed
    cases found
    obtain ⟨before, dbptr, after, next, whole, whole', allocated⟩ := chainAlloc_eq placed
    have member : dbptr ∈ heap.base := by simp [whole]
    have same := (blockAlloc_eq allocated).1
    constructor
    · intro other member'
      rw [whole', List.mem_append, List.mem_cons] at member'
      rcases member' with earlier | isNext | later
      · exact inv.ok other (by simp [whole, earlier])
      · rw [isNext]
        exact (inv.ok dbptr member).blockAlloc allocated large room
      · exact inv.ok other (by simp [whole, later])
    · have addresses : base.map Dblock.addr = heap.base.map Dblock.addr := by
        rw [whole, whole']
        simp [same]
      rw [addresses]
      exact inv.apart
  · split at found
    · exact absurd found (by simp)
    · rename_i addr
      obtain ⟨⟨next, newchnk'⟩, allocated, same⟩ := Option.map_eq_some_iff.mp found
      cases same
      obtain ⟨positive, low, apart⟩ := fresh addr rfl
      have empty : BlockOk heap.blockSize ⟨addr, heap.blockSize, []⟩ :=
        ⟨rfl, positive, low, trivial, by simp⟩
      constructor
      · rw [List.forall_mem_cons]
        exact ⟨empty.blockAlloc allocated large room, inv.ok⟩
      · rw [List.map_cons, List.pairwise_cons, (blockAlloc_eq allocated).1]
        refine ⟨?_, inv.apart⟩
        intro other member
        obtain ⟨dbptr, isOld, rfl⟩ := List.mem_map.mp member
        exact apart dbptr isOld

/-- Who is there when room has been made. -/
theorem makeRoom_eq {heap : Dheap} {mapped : Option Nat}
    (sizes : ∀ dbptr ∈ heap.base, dbptr.size = heap.blockSize)
    (found : makeRoom heap size asked mapped = some (base, newchnk)) :
    (newchnk.size = size ∧ newchnk.asked = asked) ∧
      (∃ dbptr ∈ base, newchnk ∈ dbptr.chunks ∧ dbptr.size = heap.blockSize) ∧
      ∀ dbptr ∈ heap.base, ∃ next ∈ base, next.addr = dbptr.addr ∧
        ∀ chnk ∈ dbptr.chunks, chnk ∈ next.chunks := by
  unfold makeRoom at found
  split at found
  · rename_i result placed
    cases found
    obtain ⟨before, dbptr, after, next, whole, whole', allocated⟩ := chainAlloc_eq placed
    obtain ⟨sameAddr, sameSize, newSizes, members⟩ := blockAlloc_eq allocated
    have member : next ∈ base := by simp [whole']
    refine ⟨newSizes, ⟨next, member, (members newchnk).mpr (Or.inl rfl), ?_⟩, ?_⟩
    · rw [sameSize]
      exact sizes dbptr (by simp [whole])
    · intro old isOld
      rw [whole, List.mem_append, List.mem_cons] at isOld
      rcases isOld with earlier | isThis | later
      · exact ⟨old, by simp [whole', earlier], rfl, fun _ => id⟩
      · rw [isThis]
        exact ⟨next, member, sameAddr, fun chnk chunk => (members chnk).mpr (Or.inr chunk)⟩
      · exact ⟨old, by simp [whole', later], rfl, fun _ => id⟩
  · split at found
    · exact absurd found (by simp)
    · obtain ⟨⟨next, newchnk'⟩, allocated, same⟩ := Option.map_eq_some_iff.mp found
      cases same
      obtain ⟨_, sameSize, newSizes, members⟩ := blockAlloc_eq allocated
      refine ⟨newSizes, ⟨next, by simp, (members newchnk).mpr (Or.inl rfl), sameSize⟩, ?_⟩
      intro old isOld
      exact ⟨old, List.mem_cons_of_mem _ isOld, rfl, fun _ => id⟩

/-! ## Finding a chunk -/

theorem dropWhile_ptr (found : (chunks.dropWhile fun chnk => chnk.ptr ≠ ptr) = chnk :: rest) :
    chnk.ptr = ptr ∧ ∃ before, chunks = before ++ chnk :: rest ∧
      ∀ other ∈ before, other.ptr ≠ ptr := by
  induction chunks with
  | nil => exact absurd found (by simp)
  | cons first chunks induction =>
      rw [List.dropWhile_cons] at found
      split at found
      · rename_i skipped
        obtain ⟨same, before, whole, others⟩ := induction found
        refine ⟨same, first :: before, by rw [whole]; rfl, ?_⟩
        rw [List.forall_mem_cons]
        exact ⟨of_decide_eq_true skipped, others⟩
      · rename_i here
        cases found
        exact ⟨by simpa using here, [], rfl, by simp⟩

theorem find_eq_some (found : find base ptr = some (dbptr, chnk, rest)) :
    dbptr ∈ base ∧ chnk.ptr = ptr ∧ ∃ before, dbptr.chunks = before ++ chnk :: rest ∧
      ∀ other ∈ before, other.ptr ≠ ptr := by
  obtain ⟨block, member, answer⟩ := List.exists_of_findSome?_eq_some found
  split at answer
  · exact absurd answer (by simp)
  · rename_i chnk' rest' dropped
    cases answer
    exact ⟨member, dropWhile_ptr dropped⟩

theorem resizeChunk_append (others : ∀ other ∈ before, other.ptr ≠ chnk.ptr) :
    resizeChunk chnk.ptr size (before ++ chnk :: rest) =
      before ++ { chnk with size := size, asked := size } :: rest := by
  induction before with
  | nil => rw [List.nil_append, resizeChunk, if_pos rfl]; rfl
  | cons first before induction =>
      rw [List.forall_mem_cons] at others
      rw [List.cons_append, resizeChunk, if_neg others.1, induction others.2]
      rfl

end DynamicHeap

end Chaosircd
