import Chaosircd.ByteQueue

/-!
# Queues as lists of chunks

What one queue sees of its blocks is a list of chunks, each a position together
with the data of a block: the first position is the queue's own, the others are
those stored with the blocks.  Writing extends the last chunk or appends one,
reading shortens the first chunk or drops it.
-/

namespace Chaosircd

/-- A block as a queue sees it. -/
structure Chunk where
  info : Finfo
  data : List UInt8

namespace Chunk

def unread (chunk : Chunk) : List UInt8 :=
  (chunk.data.take chunk.info.tail).drop chunk.info.head

/-- The position lies in the block, and its counters count the unread bytes. -/
structure Sound (chunk : Chunk) : Prop where
  ordered : chunk.info.head ≤ chunk.info.tail
  bounded : chunk.info.tail ≤ queueChunkSize
  room : chunk.data.length = queueChunkSize
  size : chunk.info.size = chunk.unread.length
  lines : chunk.info.lines = chunk.unread.count newline

variable {chunk : Chunk}

theorem Sound.length_unread (sound : chunk.Sound) :
    chunk.unread.length = chunk.info.tail - chunk.info.head := by
  have bounded := sound.bounded
  rw [unread, List.length_drop, List.length_take, sound.room]
  omega

theorem Sound.length_unread_le (sound : chunk.Sound) :
    chunk.unread.length ≤ queueChunkSize := by
  have bounded := sound.bounded
  rw [sound.length_unread]
  omega

theorem Sound.unread_eq_nil_iff (sound : chunk.Sound) :
    chunk.unread = [] ↔ chunk.info.head = chunk.info.tail := by
  have ordered := sound.ordered
  rw [← List.length_eq_zero_iff, sound.length_unread]
  omega

theorem count_lineCount (byte : UInt8) :
    [byte].count newline = lineCount byte := by
  simp only [lineCount, List.count_singleton, beq_iff_eq]

/-- The chunk behind a byte that is written to it. -/
def grow (chunk : Chunk) (byte : UInt8) : Chunk :=
  ⟨chunk.info.grow byte, chunk.data.set chunk.info.tail byte⟩

theorem Sound.unread_grow (sound : chunk.Sound)
    (space : chunk.info.tail < queueChunkSize) (byte : UInt8) :
    (chunk.grow byte).unread = chunk.unread ++ [byte] := by
  have inside : chunk.info.tail < chunk.data.length := by
    rw [sound.room]
    exact space
  have tail : uint32Add chunk.info.tail 1 = chunk.info.tail + 1 := by
    apply uint32Add_of_lt
    unfold queueChunkSize at space
    omega
  have taken : (chunk.data.set chunk.info.tail byte).take (chunk.info.tail + 1) =
      chunk.data.take chunk.info.tail ++ [byte] := by
    rw [List.take_succ_eq_append_getElem (by simpa using inside)]
    simp [List.take_set_of_le]
  have ordered : chunk.info.head ≤ (chunk.data.take chunk.info.tail).length := by
    rw [List.length_take]
    have := sound.ordered
    omega
  change ((chunk.data.set chunk.info.tail byte).take
    (uint32Add chunk.info.tail 1)).drop chunk.info.head = _
  rw [tail, taken, List.drop_append_of_le_length ordered]
  rfl

theorem Sound.grow (sound : chunk.Sound)
    (space : chunk.info.tail < queueChunkSize) (byte : UInt8) :
    (chunk.grow byte).Sound := by
  have tail : uint32Add chunk.info.tail 1 = chunk.info.tail + 1 := by
    apply uint32Add_of_lt
    unfold queueChunkSize at space
    omega
  have short := sound.length_unread_le
  have count := List.count_le_length (a := newline) (l := chunk.unread)
  have line : lineCount byte ≤ 1 := by
    unfold lineCount
    split <;> omega
  unfold queueChunkSize at short
  constructor
  · change chunk.info.head ≤ uint32Add chunk.info.tail 1
    have := sound.ordered
    omega
  · change uint32Add chunk.info.tail 1 ≤ queueChunkSize
    omega
  · change (chunk.data.set chunk.info.tail byte).length = queueChunkSize
    rw [List.length_set, sound.room]
  · rw [sound.unread_grow space, List.length_append, ← sound.size]
    apply uint32Add_of_lt
    rw [sound.size]
    omega
  · rw [sound.unread_grow space, List.count_append, count_lineCount,
      ← sound.lines]
    apply uint32Add_of_lt
    rw [sound.lines]
    omega

/-- The chunk behind a byte that is read from it. -/
def shrink (chunk : Chunk) (byte : UInt8) : Chunk :=
  ⟨chunk.info.shrink byte, chunk.data⟩

theorem unread_eq_cons {byte : UInt8} {rest : List UInt8}
    (unread : chunk.unread = byte :: rest) :
    chunk.info.head < chunk.info.tail ∧
      chunk.data.getD chunk.info.head 0 = byte ∧
        (chunk.data.take chunk.info.tail).drop (chunk.info.head + 1) = rest := by
  have long : chunk.info.head < (chunk.data.take chunk.info.tail).length := by
    by_contra short
    rw [Chunk.unread, List.drop_eq_nil_of_le (by omega)] at unread
    cases unread
  have split := List.drop_eq_getElem_cons long
  rw [Chunk.unread, split] at unread
  injection unread with isByte isRest
  rw [List.length_take] at long
  have inside : chunk.info.head < chunk.data.length := by omega
  refine ⟨by omega, ?_, isRest⟩
  rw [← isByte, List.getElem_take]
  simp [inside]

theorem Sound.unread_shrink (sound : chunk.Sound) {byte : UInt8}
    {rest : List UInt8} (unread : chunk.unread = byte :: rest) :
    (chunk.shrink byte).unread = rest := by
  obtain ⟨ahead, -, isRest⟩ := unread_eq_cons unread
  have bounded := sound.bounded
  unfold queueChunkSize at bounded
  have head : uint32Add chunk.info.head 1 = chunk.info.head + 1 :=
    uint32Add_of_lt (by omega)
  change (chunk.data.take chunk.info.tail).drop (uint32Add chunk.info.head 1) = _
  rw [head, isRest]

theorem Sound.shrink (sound : chunk.Sound) {byte : UInt8}
    {rest : List UInt8} (unread : chunk.unread = byte :: rest) :
    (chunk.shrink byte).Sound := by
  obtain ⟨ahead, -, -⟩ := unread_eq_cons unread
  have bounded := sound.bounded
  have short := sound.length_unread_le
  unfold queueChunkSize at bounded short
  have head : uint32Add chunk.info.head 1 = chunk.info.head + 1 :=
    uint32Add_of_lt (by omega)
  have size : chunk.info.size = rest.length + 1 := by
    rw [sound.size, unread, List.length_cons]
  have lines : chunk.info.lines = rest.count newline + lineCount byte := by
    rw [sound.lines, unread, ← count_lineCount byte, ← List.count_append,
      List.count_cons, List.count_append, List.count_singleton]
  have count := List.count_le_length (a := newline) (l := chunk.unread)
  rw [← sound.lines] at count
  constructor
  · change uint32Add chunk.info.head 1 ≤ chunk.info.tail
    omega
  · exact sound.bounded
  · exact sound.room
  · rw [sound.unread_shrink unread]
    change uint32Sub chunk.info.size 1 = _
    rw [uint32Sub_of_le (by omega) (by rw [sound.size]; omega), size]
    rfl
  · rw [sound.unread_shrink unread]
    change uint32Sub chunk.info.lines (lineCount byte) = _
    rw [uint32Sub_of_le (by omega) (by omega), lines]
    exact Nat.add_sub_cancel _ _

end Chunk

/-- A list of chunks has the bytes unread; only the first chunk may be used
up. -/
structure Holds (chunks : List Chunk) (bytes : List UInt8) : Prop where
  sound : ∀ chunk ∈ chunks, chunk.Sound
  pending : ∀ chunk ∈ chunks.tail, chunk.unread ≠ []
  content : chunks.flatMap Chunk.unread = bytes

namespace Holds

variable {chunk chunk' : Chunk} {chunks chunks' : List Chunk}
  {bytes bytes' : List UInt8} {byte : UInt8}

theorem nil : Holds [] [] :=
  ⟨by simp, by simp, rfl⟩

theorem bytes_eq_nil (holds : Holds [] bytes) : bytes = [] :=
  holds.content.symm

/-- The chunks behind the first one. -/
theorem tail (holds : Holds (chunk :: chunks) bytes) :
    Holds chunks (bytes.drop chunk.unread.length) where
  sound := fun other member => holds.sound other (List.mem_cons_of_mem _ member)
  pending := fun other member => holds.pending other (List.mem_of_mem_tail member)
  content := by
    rw [← holds.content, List.flatMap_cons, List.drop_left]

theorem bytes_eq (holds : Holds (chunk :: chunks) bytes) :
    bytes = chunk.unread ++ bytes.drop chunk.unread.length := by
  conv_lhs => rw [← holds.content, List.flatMap_cons]
  rw [← holds.tail.content]

/-- The first chunk after the first one has a byte. -/
theorem unread_ne_nil (holds : Holds (chunk :: chunk' :: chunks) bytes) :
    chunk'.unread ≠ [] :=
  holds.pending chunk' List.mem_cons_self

/-- A byte is read from the first chunk. -/
theorem shrink (holds : Holds (chunk :: chunks) (byte :: bytes))
    (unread : chunk.unread ≠ []) :
    chunk.data.getD chunk.info.head 0 = byte ∧
      Holds (chunk.shrink byte :: chunks) bytes := by
  have sound := holds.sound chunk List.mem_cons_self
  obtain ⟨first, rest, split⟩ := List.exists_cons_of_ne_nil unread
  have content := holds.content
  rw [List.flatMap_cons, split, List.cons_append] at content
  injection content with isByte isBytes
  subst isByte
  refine ⟨(Chunk.unread_eq_cons split).2.1, ?_, holds.pending, ?_⟩
  · intro other member
    rcases List.mem_cons.mp member with rfl | later
    · exact sound.shrink split
    · exact holds.sound other (List.mem_cons_of_mem _ later)
  · rw [List.flatMap_cons, sound.unread_shrink split]
    exact isBytes

/-- The last chunk is replaced. -/
theorem replace (holds : Holds (chunks ++ [chunk]) bytes) (sound : chunk'.Sound)
    (unread : chunk'.unread = chunk.unread ++ bytes') :
    Holds (chunks ++ [chunk']) (bytes ++ bytes') where
  sound := by
    intro other member
    rcases List.mem_append.mp member with earlier | last
    · exact holds.sound other (List.mem_append_left _ earlier)
    · rwa [List.mem_singleton.mp last]
  pending := by
    have pending := holds.pending
    cases chunks with
    | nil => simp
    | cons first chunks =>
        intro other member
        rcases List.mem_append.mp member with earlier | last
        · exact pending other (List.mem_append_left _ earlier)
        · have nonempty := pending chunk (List.mem_append_right _ (by simp))
          rw [List.mem_singleton.mp last, unread]
          simp [nonempty]
  content := by
    rw [← holds.content]
    simp [unread]

/-- A list of chunks is linked to the tail of another. -/
theorem append (holds : Holds chunks bytes) (holds' : Holds chunks' bytes')
    (pending : chunks = [] ∨ ∀ chunk ∈ chunks', chunk.unread ≠ []) :
    Holds (chunks ++ chunks') (bytes ++ bytes') where
  sound := by
    intro other member
    rcases List.mem_append.mp member with earlier | later
    · exact holds.sound other earlier
    · exact holds'.sound other later
  pending := by
    rcases pending with rfl | pending
    · exact holds'.pending
    · cases chunks with
      | nil => exact holds'.pending
      | cons first chunks =>
          intro other member
          rcases List.mem_append.mp member with earlier | later
          · exact holds.pending other earlier
          · exact pending other later
  content := by
    rw [List.flatMap_append, holds.content, holds'.content]

end Holds

end Chaosircd
