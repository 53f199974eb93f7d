import Chaosircd.ByteQueueReads

/-!
# Writing to a queue

While `queue_write` runs, the position in the last block is the queue's own and
the one stored with the block is behind.  The bytes of the queue are those of the
chunks in front of the last block, followed by those that the queue's own
position covers.  Linking a block and returning bring the stored position up to
date.
-/

namespace Chaosircd

variable {others : Nat → Nat} {heap : QueueHeap} {fifo : Fqueue}
  {bytes : List UInt8} {byte : UInt8} {b : Nat} {blocks : List Nat}

namespace Counted

/-- A change of the position or the data of a block leaves the counts right. -/
theorem set (counted : Counted others heap blocks) (b : Nat) {block : Fblock}
    (refcount : block.refcount = (heap.block b).refcount)
    (room : block.data.length = queueChunkSize) :
    Counted others (heap.set b block) blocks := by
  have same : ∀ b', ((heap.set b block).block b').refcount =
      (heap.block b').refcount := by
    intro b'
    by_cases isBlock : b' = b <;> simp [isBlock, refcount]
  constructor
  · exact fun b' => (same b').trans (counted.counted b')
  · exact fun b' => (same b').symm ▸ counted.fits b'
  · exact fun b' isFresh => (same b').trans (counted.fresh b' isFresh)
  · intro b'
    by_cases isBlock : b' = b
    · simp [isBlock, room]
    · simp [isBlock, counted.room b']

/-- A block with one reference is in one place of one queue. -/
theorem unique (counted : Counted others heap (blocks ++ [b]))
    (single : (heap.block b).refcount = 1) : others b = 0 ∧ b ∉ blocks := by
  have ours := counted.counted b
  rw [List.count_append, List.count_singleton_self, single] at ours
  exact ⟨by omega, List.count_eq_zero.mp (by omega)⟩

/-- A block in a queue has a reference. -/
theorem refcount_pos (counted : Counted others heap (blocks ++ [b])) :
    0 < (heap.block b).refcount := by
  have ours := counted.counted b
  rw [List.count_append, List.count_singleton_self] at ours
  omega

/-- Nothing refers to the next block that is allocated. -/
theorem unused (counted : Counted others heap blocks) :
    others heap.next = 0 ∧ heap.next ∉ blocks := by
  have ours := counted.counted heap.next
  rw [counted.fresh heap.next (Nat.le_refl _)] at ours
  exact ⟨by omega, List.count_eq_zero.mp (by omega)⟩

theorem alloc (counted : Counted others heap blocks) :
    Counted others heap.alloc (blocks ++ [heap.next]) := by
  obtain ⟨noOthers, notOurs⟩ := counted.unused
  constructor
  · intro b'
    by_cases isNext : b' = heap.next
    · subst isNext
      simp [QueueHeap.alloc, QueueHeap.setRefcount, noOthers,
        List.count_eq_zero.mpr notOurs]
    · have ours := counted.counted b'
      simpa [QueueHeap.alloc, QueueHeap.setRefcount, isNext, Ne.symm isNext,
        List.count_singleton] using ours
  · intro b'
    by_cases isNext : b' = heap.next
    · simp [QueueHeap.alloc, QueueHeap.setRefcount, isNext]
    · simpa [QueueHeap.alloc, QueueHeap.setRefcount, isNext] using
        counted.fits b'
  · intro b' isFresh
    have later : heap.next + 1 ≤ b' := isFresh
    have notNext : b' ≠ heap.next := by omega
    simpa [QueueHeap.alloc, QueueHeap.setRefcount, notNext] using
      counted.fresh b' (by omega)
  · intro b'
    exact (congrArg (List.length ∘ Chunk.data)
      (heap.chunk_setRefcount heap.next 1 b')).trans (counted.room b')

end Counted

namespace QueueHeap

theorem agrees_set {references : Nat → Nat} (unreferred : references b = 0)
    (block : Fblock) : Agrees references heap (heap.set b block) := by
  intro b' referred
  have notBlock : b' ≠ b := by
    rintro rfl
    exact referred unreferred
  simp [chunk, notBlock]

theorem chunks_set (notMember : b ∉ blocks) (head : Finfo) (block : Fblock) :
    (heap.set b block).chunks head blocks = heap.chunks head blocks := by
  apply chunks_congr
  intro b' member
  have notBlock : b' ≠ b := by
    rintro rfl
    exact notMember member
  simp [chunk, notBlock]

end QueueHeap

/-- The state of `queue_write` when the bytes are in the queue. -/
structure Writing (others : Nat → Nat) (writer : QueueWriter)
    (bytes : List UInt8) : Prop where
  counted : Counted others writer.heap writer.fifo.blocks
  counts : writer.fifo.Counts bytes
  headptr : writer.headptr = writer.fifo.blocks.head?
  tailptr : writer.tailptr = writer.fifo.blocks.getLast?
  empty : writer.fifo.blocks = [] → bytes = []
  holds : ∀ blocks b, writer.fifo.blocks = blocks ++ [b] →
    Holds (writer.heap.chunks writer.fifo.head blocks ++
      [⟨writer.fifo.tail, (writer.heap.block b).data⟩]) bytes
  shared : ∀ blocks b, writer.fifo.blocks = blocks ++ [b] →
    1 < (writer.heap.block b).refcount →
      (writer.fifo.blocks.head? = some b →
        writer.fifo.head = writer.fifo.tail) ∧
      (blocks ≠ [] → writer.fifo.tail = (writer.heap.block b).info)

/-- The queue that a write starts from. -/
theorem Queued.writing (queued : Queued others heap fifo bytes)
    (once : ∀ b ∈ fifo.blocks.head?, fifo.blocks.getLast? = some b →
      fifo.head = fifo.tail) :
    Writing others ⟨heap, fifo, fifo.blocks.head?, fifo.blocks.getLast?⟩
      bytes := by
  refine ⟨queued.reading.counted, queued.counts, rfl, rfl,
    queued.reading.bytes_eq_nil, ?_, ?_⟩
  · intro blocks b isBlocks
    change fifo.blocks = blocks ++ [b] at isBlocks
    have holds := queued.reading.holds
    rw [isBlocks] at holds
    cases blocks with
    | nil =>
        rw [← queued.single b isBlocks] at holds
        exact holds
    | cons first blocks =>
        have tail := queued.reading.tail (first :: blocks) b
          (List.cons_ne_nil _ _) isBlocks
        rw [QueueHeap.chunks_append (List.cons_ne_nil _ _)] at holds
        rw [tail]
        exact holds
  · intro blocks b isBlocks _
    change fifo.blocks = blocks ++ [b] at isBlocks
    have isLast : fifo.blocks.getLast? = some b := by
      rw [isBlocks, List.getLast?_append_of_ne_nil]
      · rfl
      · exact List.cons_ne_nil _ _
    exact ⟨fun isHead => once b isHead isLast,
      fun nonempty => queued.reading.tail blocks b nonempty isBlocks⟩

namespace QueueWriter

variable {writer : QueueWriter}

/-- The stored positions are brought up to date. -/
def settle (writer : QueueWriter) : QueueWriter := writer.updateInfo.updateHead

@[simp] theorem settle_blocks (writer : QueueWriter) :
    writer.settle.fifo.blocks = writer.fifo.blocks := by
  unfold settle updateInfo updateHead
  split <;> split_ifs <;> rfl

@[simp] theorem settle_next (writer : QueueWriter) :
    writer.settle.heap.next = writer.heap.next := by
  unfold settle updateInfo updateHead
  split <;> split_ifs <;> rfl

theorem settle_headptr (writer : QueueWriter) :
    writer.settle.headptr = writer.headptr := by
  unfold settle updateInfo updateHead
  split <;> split_ifs <;> rfl

theorem settle_heap (writer : QueueWriter) :
    writer.settle.heap = writer.updateInfo.heap := by
  unfold settle updateHead
  split_ifs <;> rfl

theorem settle_fifo (writer : QueueWriter) :
    writer.settle.fifo = { writer.fifo with
      head := if writer.headptr = writer.tailptr then writer.fifo.tail
        else writer.fifo.head } := by
  unfold settle updateInfo updateHead
  split <;> split_ifs <;> rfl

/-- The updates of `finish` are the same when the last block has one
reference. -/
theorem finish_eq (isTail : writer.tailptr = some b)
    (single : (writer.heap.block b).refcount = 1) :
    writer.finish = writer.settle := by
  simp only [settle, finish, updateInfo, updateHead, isTail, single, if_true]
  split_ifs <;> simp [isTail]

end QueueWriter

theorem Fqueue.Counts.grow (counts : fifo.Counts bytes)
    (fits : bytes.length + 1 < 2 ^ 32) (byte : UInt8) :
    Fqueue.Counts { fifo with
      tail := fifo.tail.grow byte
      size := uint32Add fifo.size 1
      lines := uint32Add fifo.lines (lineCount byte) } (bytes ++ [byte]) := by
  have count := List.count_le_length (a := newline) (l := bytes)
  have line : lineCount byte ≤ 1 := by
    unfold lineCount
    split <;> omega
  constructor
  · change uint32Add fifo.size 1 = _
    rw [counts.size, uint32Add_of_lt fits, List.length_append]
    rfl
  · change uint32Add fifo.lines (lineCount byte) = _
    rw [counts.lines, uint32Add_of_lt (by omega), List.count_append,
      Chunk.count_lineCount]
  · rwa [List.length_append]

namespace Writing

variable {writer : QueueWriter}

theorem isTail (writing : Writing others writer bytes)
    (isBlocks : writer.fifo.blocks = blocks ++ [b]) : writer.tailptr = some b := by
  rw [writing.tailptr, isBlocks]
  simp

/-- Once the stored positions are up to date the bytes are in the queue. -/
theorem settle (writing : Writing others writer bytes) :
    Queued others writer.settle.heap writer.settle.fifo bytes ∧
      QueueHeap.Agrees others writer.heap writer.settle.heap := by
  have counts := writing.counts
  rcases List.eq_nil_or_concat' writer.fifo.blocks with
    noBlocks | ⟨blocks, b, isBlocks⟩
  · have isTail : writer.tailptr = none := by rw [writing.tailptr, noBlocks]; rfl
    have isHead : writer.headptr = none := by rw [writing.headptr, noBlocks]; rfl
    have settled : writer.settle =
        { writer with fifo := { writer.fifo with head := writer.fifo.tail } } := by
      simp [QueueWriter.settle, QueueWriter.updateInfo, QueueWriter.updateHead,
        isTail, isHead]
    obtain rfl := writing.empty noBlocks
    rw [settled]
    refine ⟨⟨⟨writing.counted, ?_, ?_⟩, ⟨counts.1, counts.2, counts.3⟩, ?_⟩,
      .refl _ _⟩
    · dsimp only
      rw [noBlocks]
      exact .nil
    · intro blocks b _ isBlocks
      change writer.fifo.blocks = blocks ++ [b] at isBlocks
      simp [noBlocks] at isBlocks
    · intro b isBlocks
      change writer.fifo.blocks = [b] at isBlocks
      simp [noBlocks] at isBlocks
  · have isTail := writing.isTail isBlocks
    have isLast : ∀ {blocks' b'}, writer.fifo.blocks = blocks' ++ [b'] →
        blocks' = blocks ∧ b' = b := by
      intro blocks' b' isBlocks'
      simpa using List.append_inj' (isBlocks'.symm.trans isBlocks) rfl
    have holds := writing.holds blocks b isBlocks
    -- what the updates have to achieve
    have queued : ∀ (heap : QueueHeap) (head : Finfo),
        Counted others heap writer.fifo.blocks →
          (blocks = [] → head = writer.fifo.tail) →
            (blocks ≠ [] → head = writer.fifo.head ∧
              (heap.block b).info = writer.fifo.tail) →
              (heap.block b).data = (writer.heap.block b).data →
                (∀ b' ∈ blocks, heap.chunk b' = writer.heap.chunk b') →
                  Queued others heap { writer.fifo with head := head } bytes := by
      intro heap head counted isHead isInfo data same
      refine ⟨⟨counted, ?_, ?_⟩, ⟨counts.1, counts.2, counts.3⟩, ?_⟩
      · dsimp only
        rw [isBlocks]
        cases blocks with
        | nil =>
            rw [isHead rfl, ← data] at *
            exact holds
        | cons first blocks =>
            obtain ⟨rfl, info⟩ := isInfo (List.cons_ne_nil _ _)
            rw [QueueHeap.chunks_append (List.cons_ne_nil _ _),
              QueueHeap.chunks_congr same, List.map_singleton, QueueHeap.chunk,
              info, data]
            exact holds
      · intro blocks' b' nonempty isBlocks'
        obtain ⟨rfl, rfl⟩ := isLast isBlocks'
        exact (isInfo nonempty).2.symm
      · intro b' isSingle
        obtain ⟨rfl, -⟩ := @isLast [] b' isSingle
        exact (isHead rfl).symm
    have isHead : blocks = [] → writer.headptr = writer.tailptr := by
      rintro rfl
      rw [writing.headptr, isTail, isBlocks]
      rfl
    rw [QueueWriter.settle_fifo]
    by_cases single : (writer.heap.block b).refcount = 1
    · have counted := writing.counted
      rw [isBlocks] at counted
      obtain ⟨noOthers, notEarlier⟩ := counted.unique single
      have settled : writer.settle.heap =
          writer.heap.setInfo b writer.fifo.tail := by
        rw [QueueWriter.settle_heap, QueueWriter.updateInfo, isTail]
        simp [single]
      rw [settled]
      refine ⟨?_, QueueHeap.agrees_set noOthers _⟩
      apply queued
      · exact writing.counted.set b rfl (writing.counted.room b)
      · exact fun none => if_pos (isHead none)
      · intro nonempty
        refine ⟨if_neg fun same => notEarlier ?_, by simp [QueueHeap.setInfo]⟩
        rw [writing.headptr, isTail, isBlocks,
          List.head?_append_of_ne_nil _ nonempty] at same
        exact List.mem_of_head? same
      · simp [QueueHeap.setInfo]
      · intro b' member
        have notBlock : b' ≠ b := by
          rintro rfl
          exact notEarlier member
        simp [QueueHeap.setInfo, QueueHeap.chunk, notBlock]
    · have positive := Counted.refcount_pos (isBlocks ▸ writing.counted)
      obtain ⟨once, info⟩ := writing.shared blocks b isBlocks (by omega)
      have settled : writer.settle.heap = writer.heap := by
        rw [QueueWriter.settle_heap, QueueWriter.updateInfo, isTail]
        simp [single]
      rw [settled]
      refine ⟨?_, .refl _ _⟩
      apply queued
      · exact writing.counted
      · exact fun none => if_pos (isHead none)
      · intro nonempty
        refine ⟨?_, (info nonempty).symm⟩
        split_ifs with same
        · exact (once (by rw [← writing.headptr, same, isTail])).symm
        · rfl
      · rfl
      · exact fun _ _ => rfl

/-- A byte is put into a last block that has room and one reference. -/
theorem putByte (writing : Writing others writer bytes)
    (isBlocks : writer.fifo.blocks = blocks ++ [b])
    (single : (writer.heap.block b).refcount = 1)
    (space : writer.fifo.tail.tail ≠ queueChunkSize)
    (fits : bytes.length + 1 < 2 ^ 32) (byte : UInt8) :
    Writing others (writer.putByte byte) (bytes ++ [byte]) ∧
      QueueHeap.Agrees others writer.heap (writer.putByte byte).heap ∧
        (writer.putByte byte).fifo.blocks = blocks ++ [b] ∧
          ((writer.putByte byte).heap.block b).refcount = 1 := by
  have counted := writing.counted
  rw [isBlocks] at counted
  obtain ⟨noOthers, notEarlier⟩ := counted.unique single
  have holds := writing.holds blocks b isBlocks
  have sound := holds.sound _ (List.mem_append_right _ (List.mem_singleton_self _))
  have bounded : writer.fifo.tail.tail ≤ queueChunkSize := sound.bounded
  have inside : writer.fifo.tail.tail < queueChunkSize := by omega
  have put : writer.putByte byte =
      { writer with
        heap := writer.heap.setByte b writer.fifo.tail.tail byte
        fifo := { writer.fifo with
          tail := writer.fifo.tail.grow byte
          size := uint32Add writer.fifo.size 1
          lines := uint32Add writer.fifo.lines (lineCount byte) } } := by
    rw [QueueWriter.putByte, writing.isTail isBlocks]
  rw [put]
  refine ⟨?_, QueueHeap.agrees_set noOthers _, isBlocks, by
    simpa [QueueHeap.setByte] using single⟩
  constructor
  · exact writing.counted.set b rfl (by simpa using counted.room b)
  · exact writing.counts.grow fits _
  · exact writing.headptr
  · exact writing.tailptr
  · intro noBlocks
    exact absurd (isBlocks.symm.trans noBlocks) (by simp)
  · intro blocks' b' isBlocks'
    obtain ⟨rfl, isLast⟩ := List.append_inj' (isBlocks.symm.trans isBlocks') rfl
    obtain rfl := List.singleton_inj.mp isLast
    dsimp only
    rw [QueueHeap.setByte, QueueHeap.chunks_set notEarlier]
    have grown := holds.replace (sound.grow inside byte)
      (sound.unread_grow inside byte)
    simpa [Chunk.grow] using grown
  · intro blocks' b' isBlocks' isShared
    obtain ⟨rfl, isLast⟩ := List.append_inj' (isBlocks.symm.trans isBlocks') rfl
    obtain rfl := List.singleton_inj.mp isLast
    simp [QueueHeap.setByte, single] at isShared

end Writing

/-- A byte is put into a block that is linked for it. -/
theorem Queued.linkBlock (queued : Queued others heap fifo bytes)
    (fits : bytes.length + 1 < 2 ^ 32) (byte : UInt8) (tailptr : Option Nat) :
    Writing others (QueueWriter.putByte
        (QueueWriter.linkBlock ⟨heap, fifo, fifo.blocks.head?, tailptr⟩) byte)
      (bytes ++ [byte]) ∧
    QueueHeap.Agrees others heap (QueueWriter.putByte
        (QueueWriter.linkBlock ⟨heap, fifo, fifo.blocks.head?, tailptr⟩)
          byte).heap ∧
    (QueueWriter.putByte (QueueWriter.linkBlock
        ⟨heap, fifo, fifo.blocks.head?, tailptr⟩) byte).fifo.blocks =
      fifo.blocks ++ [heap.next] ∧
    ((QueueWriter.putByte (QueueWriter.linkBlock
        ⟨heap, fifo, fifo.blocks.head?, tailptr⟩) byte).heap.block
      heap.next).refcount = 1 := by
  have counted := queued.reading.counted
  obtain ⟨noOthers, notEarlier⟩ := counted.unused
  have single : (heap.alloc.block heap.next).refcount = 1 := by
    simp [QueueHeap.alloc, QueueHeap.setRefcount]
  have same : ∀ b', heap.alloc.chunk b' = heap.chunk b' :=
    fun b' => heap.chunk_setRefcount heap.next 1 b'
  have put : QueueWriter.putByte
      (QueueWriter.linkBlock ⟨heap, fifo, fifo.blocks.head?, tailptr⟩) byte =
        { heap := heap.alloc.setByte heap.next 0 byte
          fifo := { fifo with
            blocks := fifo.blocks ++ [heap.next]
            tail := Finfo.grow .zero byte
            size := uint32Add fifo.size 1
            lines := uint32Add fifo.lines (lineCount byte) }
          headptr := if fifo.blocks = [] then some heap.next
            else fifo.blocks.head?
          tailptr := some heap.next } := rfl
  rw [put]
  have counts := queued.counts.grow fits byte
  refine ⟨?_, ?_, rfl, by simpa [QueueHeap.setByte] using single⟩
  · constructor
    · exact counted.alloc.set heap.next rfl (by
        simpa using counted.alloc.room heap.next)
    · exact ⟨counts.1, counts.2, counts.3⟩
    · dsimp only
      split_ifs with noBlocks
      · rw [noBlocks]
        rfl
      · rw [List.head?_append_of_ne_nil _ noBlocks]
    · simp
    · intro noBlocks
      exact absurd noBlocks (by simp)
    · intro blocks' b' isBlocks'
      obtain ⟨rfl, isLast⟩ := List.append_inj' isBlocks' rfl
      obtain rfl := List.singleton_inj.mp isLast
      dsimp only
      rw [QueueHeap.setByte, QueueHeap.chunks_set notEarlier,
        QueueHeap.chunks_congr fun b' _ => same b']
      have data : (heap.alloc.block heap.next).data.length = queueChunkSize :=
        counted.alloc.room heap.next
      have blank : Chunk.Sound ⟨.zero, (heap.alloc.block heap.next).data⟩ :=
        ⟨Nat.le_refl _, Nat.zero_le _, data, rfl, rfl⟩
      have noBytes : Chunk.unread ⟨.zero, (heap.alloc.block heap.next).data⟩ =
          [] := blank.unread_eq_nil_iff.mpr rfl
      have space : Finfo.zero.tail < queueChunkSize := by decide
      have grown := blank.grow space byte
      have unread := blank.unread_grow space byte
      rw [noBytes, List.nil_append] at unread
      have first : Holds [Chunk.grow
          ⟨.zero, (heap.alloc.block heap.next).data⟩ byte] [byte] :=
        ⟨by simpa using grown, by simp, by simpa using unread⟩
      have appended := queued.reading.holds.append first (.inr (by
        rw [List.forall_mem_singleton, unread]
        exact List.cons_ne_nil _ _))
      simpa [Chunk.grow, Finfo.zero] using appended
    · intro blocks' b' isBlocks' isShared
      obtain ⟨rfl, isLast⟩ := List.append_inj' isBlocks' rfl
      obtain rfl := List.singleton_inj.mp isLast
      simp [QueueHeap.setByte, single] at isShared
  · intro b' referred
    rw [← same b']
    exact QueueHeap.agrees_set noOthers _ b' referred

namespace Writing

variable {writer : QueueWriter}

/-- One round of the loop. -/
theorem writeByte (writing : Writing others writer bytes)
    (fits : bytes.length + 1 < 2 ^ 32) (byte : UInt8) :
    Writing others (writer.writeByte byte) (bytes ++ [byte]) ∧
      QueueHeap.Agrees others writer.heap (writer.writeByte byte).heap ∧
        ∃ blocks b, (writer.writeByte byte).fifo.blocks = blocks ++ [b] ∧
          ((writer.writeByte byte).heap.block b).refcount = 1 := by
  unfold QueueWriter.writeByte
  split_ifs with needsBlock
  · obtain ⟨queued, agrees⟩ := writing.settle
    have headptr : writer.settle.headptr = writer.settle.fifo.blocks.head? := by
      rw [QueueWriter.settle_blocks, QueueWriter.settle_headptr, writing.headptr]
    obtain ⟨put, agrees', isBlocks, single⟩ :=
      queued.linkBlock fits byte writer.settle.tailptr
    rw [← headptr] at put agrees' isBlocks single
    exact ⟨put, agrees.trans agrees', _, _, isBlocks, single⟩
  · unfold QueueWriter.NeedsBlock at needsBlock
    rcases List.eq_nil_or_concat' writer.fifo.blocks with
      noBlocks | ⟨blocks, b, isBlocks⟩
    · have noTail : writer.tailptr = none := by
        rw [writing.tailptr, noBlocks]
        rfl
      simp [noTail] at needsBlock
    · simp only [writing.isTail isBlocks, not_or] at needsBlock
      have positive := Counted.refcount_pos (isBlocks ▸ writing.counted)
      obtain ⟨put, agrees, isBlocks', single⟩ := writing.putByte isBlocks
        (by omega) needsBlock.1 fits byte
      exact ⟨put, agrees, blocks, b, isBlocks', single⟩

/-- The loop, over a buffer that is not empty. -/
theorem writeBytes (writing : Writing others writer bytes) (buf : List UInt8)
    (fits : bytes.length + (buf.length + 1) < 2 ^ 32) (byte : UInt8) :
    Writing others ((byte :: buf).foldl QueueWriter.writeByte writer)
        (bytes ++ byte :: buf) ∧
      QueueHeap.Agrees others writer.heap
          ((byte :: buf).foldl QueueWriter.writeByte writer).heap ∧
        ∃ blocks b,
          ((byte :: buf).foldl QueueWriter.writeByte writer).fifo.blocks =
              blocks ++ [b] ∧
            (((byte :: buf).foldl QueueWriter.writeByte writer).heap.block
              b).refcount = 1 := by
  induction buf generalizing writer bytes byte with
  | nil => exact writing.writeByte fits byte
  | cons next buf ih =>
      rw [List.length_cons] at fits
      obtain ⟨written, agrees, -⟩ := writing.writeByte (by omega) byte
      obtain ⟨written', agrees', single⟩ :=
        ih written (by rw [List.length_append, List.length_singleton]; omega) next
      rw [List.append_assoc] at written'
      exact ⟨written', agrees.trans agrees', single⟩

end Writing

theorem Queued.write (queued : Queued others heap fifo bytes)
    (once : ∀ b ∈ fifo.blocks.head?, fifo.blocks.getLast? = some b →
      fifo.head = fifo.tail)
    {buf : List UInt8} (nonempty : buf ≠ [])
    (fits : bytes.length + buf.length < 2 ^ 32) :
    QueueHeap.Agrees others heap (queueWrite heap fifo buf).2.1 ∧
      Queued others (queueWrite heap fifo buf).2.1
        (queueWrite heap fifo buf).2.2 (bytes ++ buf) := by
  obtain ⟨byte, buf, rfl⟩ := List.exists_cons_of_ne_nil nonempty
  obtain ⟨written, agrees, blocks, b, isBlocks, single⟩ :=
    (queued.writing once).writeBytes buf fits byte
  obtain ⟨settled, agrees'⟩ := written.settle
  unfold queueWrite
  dsimp only
  rw [QueueWriter.finish_eq (written.isTail isBlocks) single]
  exact ⟨agrees.trans agrees', settled⟩

/-! ## `queue_link` -/

theorem Counted.hold (counted : Counted others heap blocks)
    (fits : (heap.block b).refcount + 1 < 2 ^ 32) (used : b < heap.next) :
    Counted others (heap.hold b) (blocks ++ [b]) := by
  have held : uint32Add (heap.block b).refcount 1 =
      (heap.block b).refcount + 1 := uint32Add_of_lt fits
  constructor
  · intro b'
    have ours := counted.counted b'
    rw [List.count_append]
    by_cases same : b' = b
    · subst same
      simp [QueueHeap.hold, QueueHeap.setRefcount, held]
      omega
    · simpa [QueueHeap.hold, QueueHeap.setRefcount, same,
        List.count_singleton, Ne.symm same] using ours
  · intro b'
    by_cases same : b' = b
    · simp [QueueHeap.hold, QueueHeap.setRefcount, same, held]
      exact fits
    · simpa [QueueHeap.hold, QueueHeap.setRefcount, same] using counted.fits b'
  · intro b' isFresh
    have notBlock : b' ≠ b := by
      rintro rfl
      exact absurd used (Nat.not_lt.mpr isFresh)
    simpa [QueueHeap.hold, QueueHeap.setRefcount, notBlock] using
      counted.fresh b' isFresh
  · intro b'
    exact (congrArg (List.length ∘ Chunk.data) (heap.chunk_hold b b')).trans
      (counted.room b')

theorem Counted.holdAll (counted : Counted others heap blocks)
    {blocks' : List Nat}
    (fits : ∀ b ∈ blocks',
      (heap.block b).refcount + blocks'.count b < 2 ^ 32)
    (used : ∀ b ∈ blocks', b < heap.next) :
    Counted others (blocks'.foldl QueueHeap.hold heap) (blocks ++ blocks') ∧
      ∀ b', (blocks'.foldl QueueHeap.hold heap).chunk b' = heap.chunk b' := by
  induction blocks' generalizing heap blocks with
  | nil =>
      rw [List.append_nil]
      exact ⟨counted, fun _ => rfl⟩
  | cons b blocks' ih =>
      have first := fits b List.mem_cons_self
      rw [List.count_cons_self] at first
      have held := counted.hold (by omega) (used b List.mem_cons_self)
      have fits' : ∀ b' ∈ blocks',
          ((heap.hold b).block b').refcount + blocks'.count b' < 2 ^ 32 := by
        intro b' member
        have later := fits b' (List.mem_cons_of_mem _ member)
        by_cases same : b' = b
        · subst same
          have wrapped : uint32Add (heap.block b').refcount 1 =
              (heap.block b').refcount + 1 := uint32Add_of_lt (by omega)
          simp [QueueHeap.hold, QueueHeap.setRefcount, wrapped]
          omega
        · rw [List.count_cons_of_ne (Ne.symm same)] at later
          simpa [QueueHeap.hold, QueueHeap.setRefcount, same] using later
      obtain ⟨counted', same⟩ := ih held fits' fun b' member =>
        used b' (List.mem_cons_of_mem _ member)
      rw [List.append_assoc] at counted'
      exact ⟨counted', fun b' => (same b').trans (heap.chunk_hold b b')⟩

end Chaosircd
