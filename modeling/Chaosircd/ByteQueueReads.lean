import Chaosircd.ByteQueueChunks

/-!
# Reading from a queue

A queue shares its heap with others, which hold some references to each block.
Operations of the queue keep the count of references right, and leave the chunks
alone that the others refer to.  Under this discipline the operations that
dequeue take the first bytes of the queue.
-/

namespace Chaosircd

namespace QueueHeap

def chunk (heap : QueueHeap) (b : Nat) : Chunk :=
  ⟨(heap.block b).info, (heap.block b).data⟩

/-- The chunks of a queue with the position `head` in its first block. -/
def chunks (heap : QueueHeap) (head : Finfo) : List Nat → List Chunk
  | [] => []
  | b :: rest => ⟨head, (heap.block b).data⟩ :: rest.map heap.chunk

/-- Both heaps have the same chunks where there are references. -/
def Agrees (references : Nat → Nat) (heap heap' : QueueHeap) : Prop :=
  ∀ b, references b ≠ 0 → heap'.chunk b = heap.chunk b

variable {heap heap' heap'' : QueueHeap} {head : Finfo} {blocks : List Nat}
  {references : Nat → Nat}

theorem Agrees.refl (references : Nat → Nat) (heap : QueueHeap) :
    Agrees references heap heap :=
  fun _ _ => rfl

theorem Agrees.trans (first : Agrees references heap heap')
    (second : Agrees references heap' heap'') : Agrees references heap heap'' :=
  fun b referred => (second b referred).trans (first b referred)

theorem chunks_congr (same : ∀ b ∈ blocks, heap'.chunk b = heap.chunk b) :
    heap'.chunks head blocks = heap.chunks head blocks := by
  cases blocks with
  | nil => rfl
  | cons b rest =>
      have data : (heap'.block b).data = (heap.block b).data :=
        congrArg Chunk.data (same b List.mem_cons_self)
      have rest' : rest.map heap'.chunk = rest.map heap.chunk :=
        List.map_congr_left fun b member => same b (List.mem_cons_of_mem _ member)
      rw [chunks, chunks, data, rest']

theorem chunks_append {blocks' : List Nat} (nonempty : blocks ≠ []) :
    heap.chunks head (blocks ++ blocks') =
      heap.chunks head blocks ++ blocks'.map heap.chunk := by
  cases blocks with
  | nil => exact absurd rfl nonempty
  | cons b rest => simp [chunks]

theorem chunks_eq_nil_iff : heap.chunks head blocks = [] ↔ blocks = [] := by
  cases blocks <;> simp [chunks]

/-! ## Updates of one block -/

@[simp] theorem set_block (heap : QueueHeap) (b b' : Nat) (block : Fblock) :
    (heap.set b block).block b' = if b' = b then block else heap.block b' := by
  simp [set, Function.update_apply]

theorem chunk_setRefcount (heap : QueueHeap) (b refcount b' : Nat) :
    (heap.setRefcount b refcount).chunk b' = heap.chunk b' := by
  by_cases same : b' = b <;> simp [chunk, setRefcount, same]

theorem chunk_hold (heap : QueueHeap) (b b' : Nat) :
    (heap.hold b).chunk b' = heap.chunk b' :=
  heap.chunk_setRefcount b _ b'

theorem chunk_release (heap : QueueHeap) (b b' : Nat) :
    (heap.release b).chunk b' = heap.chunk b' :=
  heap.chunk_setRefcount b _ b'

end QueueHeap

/-- The reference counts are right for a queue with the blocks `blocks`, when
other queues hold `others b` references to the block `b`. -/
structure Counted (others : Nat → Nat) (heap : QueueHeap) (blocks : List Nat) :
    Prop where
  counted : ∀ b, (heap.block b).refcount = others b + blocks.count b
  fits : ∀ b, (heap.block b).refcount < 2 ^ 32
  fresh : ∀ b, heap.next ≤ b → (heap.block b).refcount = 0
  room : ∀ b, (heap.block b).data.length = queueChunkSize

/-- The counters of a queue count its bytes. -/
structure Fqueue.Counts (fifo : Fqueue) (bytes : List UInt8) : Prop where
  size : fifo.size = bytes.length
  lines : fifo.lines = bytes.count newline
  fits : bytes.length < 2 ^ 32

/-- The blocks of a queue have the bytes unread, while it dequeues: when only
one block is left, the position in the last block can be behind. -/
structure Reading (others : Nat → Nat) (heap : QueueHeap) (fifo : Fqueue)
    (bytes : List UInt8) : Prop where
  counted : Counted others heap fifo.blocks
  holds : Holds (heap.chunks fifo.head fifo.blocks) bytes
  tail : ∀ blocks b, blocks ≠ [] → fifo.blocks = blocks ++ [b] →
    fifo.tail = (heap.block b).info

/-- A queue that has the bytes unread. -/
structure Queued (others : Nat → Nat) (heap : QueueHeap) (fifo : Fqueue)
    (bytes : List UInt8) : Prop where
  reading : Reading others heap fifo bytes
  counts : fifo.Counts bytes
  single : ∀ b, fifo.blocks = [b] → fifo.tail = fifo.head

variable {others : Nat → Nat} {heap : QueueHeap} {fifo : Fqueue}
  {bytes : List UInt8} {byte : UInt8} {b : Nat} {rest : List Nat}

namespace Counted

theorem release (counted : Counted others heap (b :: rest)) :
    Counted others (heap.release b) rest := by
  have ours := counted.counted b
  have fits := counted.fits b
  rw [List.count_cons_self] at ours
  have released : uint32Sub (heap.block b).refcount 1 =
      (heap.block b).refcount - 1 := uint32Sub_of_le (by omega) fits
  constructor
  · intro b'
    by_cases same : b' = b
    · subst same
      simp [QueueHeap.release, QueueHeap.setRefcount, released]
      omega
    · have theirs := counted.counted b'
      rw [List.count_cons_of_ne (Ne.symm same)] at theirs
      simp [QueueHeap.release, QueueHeap.setRefcount, same, theirs]
  · intro b'
    by_cases same : b' = b
    · simp [QueueHeap.release, QueueHeap.setRefcount, same, released]
      omega
    · simp [QueueHeap.release, QueueHeap.setRefcount, same]
      exact counted.fits b'
  · intro b' isFresh
    by_cases same : b' = b
    · subst same
      have none := counted.fresh b' isFresh
      omega
    · simp [QueueHeap.release, QueueHeap.setRefcount, same]
      exact counted.fresh b' isFresh
  · intro b'
    have same := congrArg Chunk.data (heap.chunk_release b b')
    exact (congrArg List.length same).trans (counted.room b')

end Counted

/-! ## Advancing to the next block -/

namespace Reading

theorem bytes_eq_nil (reading : Reading others heap fifo bytes)
    (noBlocks : fifo.blocks = []) : bytes = [] := by
  have holds := reading.holds
  rw [noBlocks] at holds
  exact holds.bytes_eq_nil

/-- The head block with its chunk, which covers the first bytes. -/
theorem head (reading : Reading others heap fifo bytes)
    (isBlocks : fifo.blocks = b :: rest) :
    Holds (⟨fifo.head, (heap.block b).data⟩ :: rest.map heap.chunk) bytes := by
  have holds := reading.holds
  rw [isBlocks] at holds
  exact holds

theorem advance (reading : Reading others heap fifo bytes)
    (isBlocks : fifo.blocks = b :: rest) :
    (∀ b', (queueAdvance heap fifo).1.chunk b' = heap.chunk b') ∧
      (queueAdvance heap fifo).2.blocks = rest ∧
        Reading others (queueAdvance heap fifo).1 (queueAdvance heap fifo).2
          (bytes.drop
            (Chunk.unread ⟨fifo.head, (heap.block b).data⟩).length) := by
  have holds := (reading.head isBlocks).tail
  have counted := reading.counted
  rw [isBlocks] at counted
  have tail := reading.tail
  have same := heap.chunk_release b
  unfold queueAdvance
  rw [isBlocks]
  refine ⟨same, rfl, counted.release, ?_, ?_⟩
  · cases rest with
    | nil => exact holds
    | cons next rest =>
        have chunks : (heap.release b).chunks ((heap.release b).block next).info
            (next :: rest) = (next :: rest).map heap.chunk := by
          rw [← List.map_congr_left fun b' _ => same b']
          rfl
        change Holds ((heap.release b).chunks ((heap.release b).block next).info
            (next :: rest)) _
        rw [chunks]
        exact holds
  · intro blocks last _ isRest
    change rest = blocks ++ [last] at isRest
    change fifo.tail = ((heap.release b).block last).info
    rw [tail (b :: blocks) last (List.cons_ne_nil _ _) (by rw [isBlocks, isRest]; rfl)]
    exact (congrArg Chunk.info (same last)).symm

/-- After a refill either nothing is left or the head block has a byte. -/
theorem refill (reading : Reading others heap fifo bytes)
    (nonempty : fifo.blocks ≠ []) :
    (∀ b', (queueRefill heap fifo).1.chunk b' = heap.chunk b') ∧
      Reading others (queueRefill heap fifo).1 (queueRefill heap fifo).2 bytes ∧
        ∀ b rest, (queueRefill heap fifo).2.blocks = b :: rest →
          Chunk.unread ⟨(queueRefill heap fifo).2.head,
            ((queueRefill heap fifo).1.block b).data⟩ ≠ [] := by
  obtain ⟨first, blocks, isBlocks⟩ := List.exists_cons_of_ne_nil nonempty
  have sound := (reading.head isBlocks).sound _ List.mem_cons_self
  unfold queueRefill
  split_ifs with used
  · have noBytes := sound.unread_eq_nil_iff.mpr used
    obtain ⟨same, advanced, reading'⟩ := reading.advance isBlocks
    rw [noBytes] at reading'
    refine ⟨same, reading', fun b rest isRest => ?_⟩
    have isNext : blocks = b :: rest := advanced.symm.trans isRest
    have holds := reading.head isBlocks
    rw [isNext] at holds
    have chunk : (⟨(queueAdvance heap fifo).2.head,
        ((queueAdvance heap fifo).1.block b).data⟩ : Chunk) = heap.chunk b := by
      rw [← same b]
      unfold queueAdvance
      rw [isBlocks, isNext]
      rfl
    rw [chunk]
    exact holds.unread_ne_nil
  · refine ⟨fun _ => rfl, reading, fun b rest isRest => ?_⟩
    rw [isBlocks] at isRest
    obtain ⟨rfl, -⟩ := List.cons.inj isRest
    exact fun noBytes => used (sound.unread_eq_nil_iff.mp noBytes)

/-- The byte at the read position is the next one. -/
theorem dequeue (reading : Reading others heap fifo (byte :: bytes))
    (isBlocks : fifo.blocks = b :: rest)
    (unread : Chunk.unread ⟨fifo.head, (heap.block b).data⟩ ≠ []) :
    heap.byteAt b fifo.head = byte ∧
      Reading others heap (fifo.dequeue byte) bytes := by
  obtain ⟨isByte, holds⟩ := (reading.head isBlocks).shrink unread
  refine ⟨isByte, ?_⟩
  constructor
  · rw [Fqueue.dequeue_blocks]
    exact reading.counted
  · rw [Fqueue.dequeue_blocks, Fqueue.dequeue_head, isBlocks]
    exact holds
  · rw [Fqueue.dequeue_blocks, Fqueue.dequeue_tail]
    exact reading.tail

/-- Behind the operation the position in the last block is right. -/
theorem updateTail (reading : Reading others heap fifo bytes)
    (counts : fifo.Counts bytes) :
    Queued others heap fifo.updateTail bytes := by
  unfold Fqueue.updateTail
  split_ifs with short
  · refine ⟨⟨reading.counted, reading.holds, ?_⟩, ⟨counts.1, counts.2, counts.3⟩,
      fun _ _ => rfl⟩
    intro blocks last nonempty isBlocks
    change fifo.blocks = blocks ++ [last] at isBlocks
    have long := List.length_pos_iff.mpr nonempty
    rw [isBlocks, List.length_append, List.length_singleton] at short
    omega
  · refine ⟨reading, counts, fun b isSingle => ?_⟩
    rw [isSingle] at short
    exact absurd (Nat.le_refl 1) short

end Reading

theorem Fqueue.Counts.dequeue (counts : fifo.Counts (byte :: bytes)) :
    (fifo.dequeue byte).Counts bytes := by
  have fits := counts.fits
  have size := counts.size
  have lines : fifo.lines = bytes.count newline + lineCount byte := by
    rw [counts.lines, ← Chunk.count_lineCount byte, List.count_singleton,
      List.count_cons]
  have count := List.count_le_length (a := newline) (l := byte :: bytes)
  rw [← counts.lines] at count
  rw [List.length_cons] at fits size count
  constructor
  · change uint32Sub fifo.size 1 = _
    rw [uint32Sub_of_le (by omega) (by omega), size]
    rfl
  · change uint32Sub fifo.lines (lineCount byte) = _
    rw [uint32Sub_of_le (by omega) (by omega), lines]
    exact Nat.add_sub_cancel _ _
  · omega

theorem Fqueue.Counts.advanced (counts : fifo.Counts bytes) (heap : QueueHeap) :
    (queueAdvance heap fifo).2.Counts bytes := by
  unfold queueAdvance
  split
  · exact counts
  · exact ⟨counts.1, counts.2, counts.3⟩

theorem Fqueue.Counts.refill (counts : fifo.Counts bytes) (heap : QueueHeap) :
    (queueRefill heap fifo).2.Counts bytes := by
  unfold queueRefill
  split_ifs
  · exact counts.advanced heap
  · exact counts

/-! ## `queue_read` -/

theorem Reading.readLoop (reading : Reading others heap fifo bytes)
    (counts : fifo.Counts bytes) (nonempty : fifo.blocks ≠ []) (n : Nat) :
    (∀ b', (queueReadLoop n heap fifo).2.1.chunk b' = heap.chunk b') ∧
      (queueReadLoop n heap fifo).1 = bytes.take n ∧
        Reading others (queueReadLoop n heap fifo).2.1
            (queueReadLoop n heap fifo).2.2 (bytes.drop n) ∧
          (queueReadLoop n heap fifo).2.2.Counts (bytes.drop n) := by
  induction n generalizing heap fifo bytes with
  | zero => exact ⟨fun _ => rfl, rfl, reading, counts⟩
  | succ n ih =>
      obtain ⟨same, reading, pending⟩ := reading.refill nonempty
      replace counts := counts.refill heap
      unfold queueReadLoop
      cases isBlocks : (queueRefill heap fifo).2.blocks with
      | nil =>
          obtain rfl := reading.bytes_eq_nil isBlocks
          exact ⟨same, rfl, reading, counts⟩
      | cons b rest =>
          have unread := pending b rest isBlocks
          obtain ⟨byte, bytes, rfl⟩ : ∃ byte bytes', bytes = byte :: bytes' := by
            rw [(reading.head isBlocks).bytes_eq]
            obtain ⟨byte, chunk, split⟩ := List.exists_cons_of_ne_nil unread
            exact ⟨byte, _, by rw [split]; rfl⟩
          obtain ⟨isByte, dequeued⟩ := reading.dequeue isBlocks unread
          dsimp only
          rw [isByte]
          obtain ⟨same', taken, reading', counts'⟩ := ih dequeued counts.dequeue
            (by rw [Fqueue.dequeue_blocks, isBlocks]; exact List.cons_ne_nil _ _)
          exact ⟨fun b' => (same' b').trans (same b'),
            congrArg (byte :: ·) taken, reading', counts'⟩

theorem Queued.read (queued : Queued others heap fifo bytes) (n : Nat) :
    (queueRead heap fifo n).1 = bytes.take n ∧
      (∀ b', (queueRead heap fifo n).2.1.chunk b' = heap.chunk b') ∧
        Queued others (queueRead heap fifo n).2.1 (queueRead heap fifo n).2.2
          (bytes.drop n) := by
  unfold queueRead
  split_ifs with noBlocks
  · obtain rfl := queued.reading.bytes_eq_nil noBlocks
    rw [List.take_nil, List.drop_nil]
    exact ⟨rfl, fun _ => rfl, queued⟩
  · obtain ⟨same, taken, reading, counts⟩ :=
      queued.reading.readLoop queued.counts noBlocks n
    exact ⟨taken, same, reading.updateTail counts⟩

/-! ## `queue_gets` -/

theorem Holds.length_le {chunks : List Chunk} (holds : Holds chunks bytes) :
    bytes.length ≤ queueChunkSize * chunks.length := by
  induction chunks generalizing bytes with
  | nil =>
      rw [holds.bytes_eq_nil]
      exact Nat.zero_le _
  | cons chunk chunks ih =>
      have short := (holds.sound chunk List.mem_cons_self).length_unread_le
      have rest := ih holds.tail
      rw [List.length_drop] at rest
      rw [List.length_cons, Nat.mul_succ]
      omega

theorem Fifo.length_line_le {α : Type*} [DecidableEq α] (delimiter : α)
    (fifo : List α) : (Fifo.line delimiter fifo).length ≤ fifo.length := by
  unfold Fifo.line
  split_ifs
  · rw [List.length_take]
    omega
  · exact Nat.zero_le _

theorem Reading.getsLoop (reading : Reading others heap fifo bytes)
    (counts : fifo.Counts bytes) (hasLine : newline ∈ bytes) (n i rounds : Nat)
    (enough : (Fifo.line newline bytes).length ≤ rounds) :
    (∀ b', (queueGetsLoop n rounds i heap fifo).2.1.chunk b' = heap.chunk b') ∧
      (queueGetsLoop n rounds i heap fifo).1.1 + 1 =
          i + (Fifo.line newline bytes).length ∧
        (queueGetsLoop n rounds i heap fifo).1.2 =
            (Fifo.line newline bytes).take (n - i) ∧
          Reading others (queueGetsLoop n rounds i heap fifo).2.1
              (queueGetsLoop n rounds i heap fifo).2.2
              (bytes.drop (Fifo.line newline bytes).length) ∧
            (queueGetsLoop n rounds i heap fifo).2.2.Counts
              (bytes.drop (Fifo.line newline bytes).length) := by
  induction rounds generalizing heap fifo bytes i with
  | zero =>
      have long : 0 < (Fifo.line newline bytes).length := by
        rw [Fifo.line, if_pos hasLine, List.length_take]
        have := List.length_pos_of_mem hasLine
        omega
      omega
  | succ rounds ih =>
      have nonempty : fifo.blocks ≠ [] := by
        intro noBlocks
        rw [reading.bytes_eq_nil noBlocks] at hasLine
        cases hasLine
      obtain ⟨same, reading, pending⟩ := reading.refill nonempty
      replace counts := counts.refill heap
      unfold queueGetsLoop
      cases isBlocks : (queueRefill heap fifo).2.blocks with
      | nil =>
          rw [reading.bytes_eq_nil isBlocks] at hasLine
          cases hasLine
      | cons b rest =>
          obtain ⟨byte, bytes, rfl⟩ :=
            List.exists_cons_of_ne_nil (List.ne_nil_of_mem hasLine)
          obtain ⟨isByte, dequeued⟩ :=
            reading.dequeue isBlocks (pending b rest isBlocks)
          have stored : ∀ line : List UInt8,
              (if i < n then [byte] else []) ++ line.take (n - (i + 1)) =
                (byte :: line).take (n - i) := by
            intro line
            split_ifs with inside
            · rw [show n - i = n - (i + 1) + 1 by omega]
              rfl
            · rw [show n - (i + 1) = 0 by omega, show n - i = 0 by omega]
              rfl
          dsimp only
          rw [isByte]
          by_cases isNewline : byte = newline
          · have line : Fifo.line newline (byte :: bytes) = [byte] := by
              rw [Fifo.line_cons, if_pos isNewline]
            have first := stored []
            rw [List.take_nil, List.append_nil] at first
            rw [if_pos isNewline, line]
            exact ⟨same, rfl, first, dequeued, counts.dequeue⟩
          · have later : newline ∈ bytes :=
              (List.mem_cons.mp hasLine).resolve_left (Ne.symm isNewline)
            have line : Fifo.line newline (byte :: bytes) =
                byte :: Fifo.line newline bytes := by
              rw [Fifo.line_cons, if_neg isNewline, if_pos later]
            rw [line, List.length_cons] at enough
            obtain ⟨same', count, taken, reading', counts'⟩ :=
              ih dequeued counts.dequeue later (i + 1) (by omega)
            rw [if_neg isNewline, line]
            refine ⟨fun b' => (same' b').trans (same b'), ?_, ?_, reading',
              counts'⟩
            · dsimp only
              rw [count, List.length_cons]
              omega
            · dsimp only
              rw [taken, stored]

theorem Queued.gets (queued : Queued others heap fifo bytes) (n : Nat) :
    (queueGets heap fifo n).1 = ((Fifo.line newline bytes).length,
        (Fifo.line newline bytes).take (n - 1)) ∧
      (∀ b', (queueGets heap fifo n).2.1.chunk b' = heap.chunk b') ∧
        Queued others (queueGets heap fifo n).2.1 (queueGets heap fifo n).2.2
          (bytes.drop (Fifo.line newline bytes).length) := by
  have lines := queued.counts.lines
  unfold queueGets
  split_ifs with noLines
  · have noLine : newline ∉ bytes :=
      List.count_eq_zero.mp (lines.symm.trans noLines)
    rw [Fifo.line, if_neg noLine, List.take_nil]
    exact ⟨rfl, fun _ => rfl, queued⟩
  · have hasLine : newline ∈ bytes :=
      List.count_pos_iff.mp (by omega)
    have room := queued.reading.holds.length_le
    have chunks : (heap.chunks fifo.head fifo.blocks).length =
        fifo.blocks.length := by
      cases fifo.blocks <;> simp [QueueHeap.chunks]
    have short := Fifo.length_line_le newline bytes
    rw [chunks] at room
    obtain ⟨same, count, taken, reading, counts⟩ :=
      queued.reading.getsLoop queued.counts hasLine n 0 _
        (Nat.le_succ_of_le (Nat.le_trans short room))
    rw [Nat.zero_add] at count
    refine ⟨?_, same, reading.updateTail counts⟩
    dsimp only
    rw [count, taken, List.take_take, Nat.sub_zero, Nat.min_eq_left (by omega)]

/-! ## `queue_map` -/

/-- The loop looks at the read and the write position only. -/
theorem queueMapLoop_congr {info info' : Finfo} (head : info.head = info'.head)
    (tail : info.tail = info'.tail) (n : Nat) (blocks : List Nat) :
    queueMapLoop heap n info blocks = queueMapLoop heap n info' blocks := by
  induction n generalizing info info' blocks with
  | zero => cases blocks <;> rfl
  | succ n ih =>
      cases blocks with
      | nil => rfl
      | cons b rest =>
          cases info with
          | mk infoHead infoTail =>
              cases head
              cases tail
              unfold queueMapLoop
              refine if_congr Iff.rfl rfl
                (congrArg (heap.byteAt b info' :: ·) ?_)
              apply ih <;> rfl

theorem Holds.mapLoop {info : Finfo}
    (holds : Holds (⟨info, (heap.block b).data⟩ :: rest.map heap.chunk) bytes)
    (n : Nat) : queueMapLoop heap n info (b :: rest) = bytes.take n := by
  induction n generalizing info b rest bytes with
  | zero => rfl
  | succ n ih =>
      have sound := holds.sound _ List.mem_cons_self
      have step : ∀ {b rest info bytes},
          Holds (⟨info, (heap.block b).data⟩ :: rest.map heap.chunk) bytes →
            Chunk.unread ⟨info, (heap.block b).data⟩ ≠ [] →
              heap.byteAt b info :: queueMapLoop heap n
                { info with head := uint32Add info.head 1 } (b :: rest) =
                  bytes.take (n + 1) := by
        intro b rest info bytes holds unread
        obtain ⟨byte, bytes, rfl⟩ : ∃ byte bytes', bytes = byte :: bytes' := by
          rw [holds.bytes_eq]
          obtain ⟨byte, chunk, split⟩ := List.exists_cons_of_ne_nil unread
          exact ⟨byte, _, by rw [split]; rfl⟩
        obtain ⟨isByte, shrunk⟩ := holds.shrink unread
        have taken := ih shrunk
        have isByte' : heap.byteAt b info = byte := isByte
        have same : queueMapLoop heap n
            { info with head := uint32Add info.head 1 } (b :: rest) =
              queueMapLoop heap n (info.shrink byte) (b :: rest) := by
          apply queueMapLoop_congr <;> rfl
        rw [isByte', List.take_succ_cons, ← taken, same]
      unfold queueMapLoop
      split_ifs with used
      · have noBytes := sound.unread_eq_nil_iff.mpr used
        have rest' := holds.tail
        rw [noBytes] at rest'
        cases rest with
        | nil =>
            rw [show bytes = [] from rest'.bytes_eq_nil]
            rfl
        | cons next rest => exact step rest' holds.unread_ne_nil
      · exact step holds fun noBytes => used (sound.unread_eq_nil_iff.mp noBytes)

theorem Queued.map (queued : Queued others heap fifo bytes) (n : Nat) :
    queueMap heap fifo n = bytes.take n := by
  unfold queueMap
  cases isBlocks : fifo.blocks with
  | nil =>
      rw [queued.reading.bytes_eq_nil isBlocks, List.take_nil]
      cases n <;> rfl
  | cons b rest => exact (queued.reading.head isBlocks).mapLoop n

/-! ## `queue_cut` -/

/-- The queue after the sizes of `i` bytes have been taken off. -/
def Fqueue.cutSize (fifo : Fqueue) (i : Nat) : Fqueue :=
  { fifo with
    head := { fifo.head with size := uint32Sub fifo.head.size i }
    size := uint32Sub fifo.size i }

theorem Reading.withCounts (reading : Reading others heap fifo bytes)
    (size lines : Nat) :
    Reading others heap { fifo with size := size, lines := lines } bytes :=
  ⟨reading.counted, reading.holds, reading.tail⟩

/-- The counters after the first chunk has been taken off. -/
theorem Fqueue.Counts.advance (counts : fifo.Counts bytes) {chunk : Chunk}
    {chunks : List Chunk} (holds : Holds (chunk :: chunks) bytes) :
    Fqueue.Counts { fifo with
      size := uint32Sub fifo.size chunk.info.size
      lines := uint32Sub fifo.lines chunk.info.lines }
      (bytes.drop chunk.unread.length) := by
  have sound := holds.sound chunk List.mem_cons_self
  have split := holds.bytes_eq
  have length := congrArg List.length split
  have count := congrArg (List.count newline) split
  have lines := List.count_le_length (a := newline) (l := bytes)
  have fits := counts.fits
  rw [List.length_append] at length
  rw [List.count_append] at count
  constructor
  · change uint32Sub fifo.size chunk.info.size = _
    rw [counts.size, sound.size, uint32Sub_of_le (by omega) fits]
    omega
  · change uint32Sub fifo.lines chunk.info.lines = _
    rw [counts.lines, sound.lines, uint32Sub_of_le (by omega) (by omega)]
    omega
  · omega

theorem Reading.cutBlocks (reading : Reading others heap fifo bytes)
    (counts : fifo.Counts bytes) (i : Nat) :
    ∃ bytes',
      (∀ b', (queueCutBlocks fifo.blocks i heap fifo).2.1.chunk b' =
        heap.chunk b') ∧
      Reading others (queueCutBlocks fifo.blocks i heap fifo).2.1
        (queueCutBlocks fifo.blocks i heap fifo).2.2 bytes' ∧
      (queueCutBlocks fifo.blocks i heap fifo).2.2.Counts bytes' ∧
      bytes'.drop (queueCutBlocks fifo.blocks i heap fifo).1 = bytes.drop i ∧
      ((queueCutBlocks fifo.blocks i heap fifo).2.2.blocks ≠ [] →
        (queueCutBlocks fifo.blocks i heap fifo).1 <
          (queueCutBlocks fifo.blocks i heap fifo).2.2.head.size) := by
  induction isBlocks : fifo.blocks generalizing heap fifo bytes i with
  | nil =>
      refine ⟨bytes, fun _ => rfl, reading, counts, rfl, fun nonempty => ?_⟩
      exact absurd isBlocks nonempty
  | cons b rest ih =>
      unfold queueCutBlocks
      split_ifs with whole
      · obtain ⟨same, advanced, reading'⟩ :=
          (reading.withCounts (uint32Sub fifo.size fifo.head.size)
            (uint32Sub fifo.lines fifo.head.lines)).advance isBlocks
        have sound := (reading.head isBlocks).sound _ List.mem_cons_self
        obtain ⟨bytes', same', reading', counts', rest', short⟩ := ih reading'
          ((counts.advance (reading.head isBlocks)).advanced heap)
          (i - fifo.head.size) advanced
        refine ⟨bytes', fun b' => (same' b').trans (same b'), reading', counts',
          rest'.trans ?_, short⟩
        have size : fifo.head.size =
            (Chunk.unread ⟨fifo.head, (heap.block b).data⟩).length := sound.size
        rw [List.drop_drop, ← size, Nat.add_sub_cancel' whole]
      · refine ⟨bytes, fun _ => rfl, reading, counts, rfl, fun _ => ?_⟩
        exact Nat.lt_of_not_le whole

theorem Fqueue.cutSize_zero {size : Nat} (fits : fifo.head.size < 2 ^ 32)
    (isSize : fifo.size = size) (fits' : size < 2 ^ 32) :
    fifo.cutSize 0 = fifo := by
  subst isSize
  unfold Fqueue.cutSize
  rw [uint32Sub_of_le (Nat.zero_le _) fits, uint32Sub_of_le (Nat.zero_le _) fits']
  rfl

theorem Fqueue.cutSize_succ {i : Nat} (inside : i < fifo.head.size)
    (inside' : i < fifo.size) (fits : fifo.head.size < 2 ^ 32)
    (fits' : fifo.size < 2 ^ 32) :
    { fifo.cutSize (i + 1) with
      head := { (fifo.cutSize (i + 1)).head with
        head := uint32Add fifo.head.head 1
        lines := uint32Sub fifo.head.lines (lineCount byte) }
      lines := uint32Sub fifo.lines (lineCount byte) } =
        (fifo.dequeue byte).cutSize i := by
  have head : uint32Sub fifo.head.size (i + 1) =
      uint32Sub (uint32Sub fifo.head.size 1) i := by
    unfold uint32Sub
    omega
  have size : uint32Sub fifo.size (i + 1) =
      uint32Sub (uint32Sub fifo.size 1) i := by
    unfold uint32Sub
    omega
  simp only [Fqueue.cutSize, Fqueue.dequeue, Finfo.shrink, head, size]

theorem Reading.cutBytes (reading : Reading others heap fifo bytes)
    (counts : fifo.Counts bytes) (isBlocks : fifo.blocks = b :: rest) {i : Nat}
    (inside : i ≤ fifo.head.size) :
    Reading others heap (queueCutBytes heap b i (fifo.cutSize i))
        (bytes.drop i) ∧
      (queueCutBytes heap b i (fifo.cutSize i)).Counts (bytes.drop i) := by
  induction i generalizing fifo bytes with
  | zero =>
      have sound := (reading.head isBlocks).sound _ List.mem_cons_self
      have short := sound.length_unread_le
      have size : fifo.head.size =
          (Chunk.unread ⟨fifo.head, (heap.block b).data⟩).length := sound.size
      unfold queueChunkSize at short
      rw [queueCutBytes, Fqueue.cutSize_zero (by omega) counts.size counts.fits]
      exact ⟨reading, counts⟩
  | succ i ih =>
      have holds := reading.head isBlocks
      have sound := holds.sound _ List.mem_cons_self
      have short := sound.length_unread_le
      have size : fifo.head.size =
          (Chunk.unread ⟨fifo.head, (heap.block b).data⟩).length := sound.size
      unfold queueChunkSize at short
      have unread : Chunk.unread ⟨fifo.head, (heap.block b).data⟩ ≠ [] := by
        rw [← List.length_pos_iff, ← size]
        omega
      have long := congrArg List.length holds.bytes_eq
      rw [List.length_append] at long
      obtain ⟨byte, bytes, rfl⟩ : ∃ byte bytes', bytes = byte :: bytes' := by
        rw [holds.bytes_eq]
        obtain ⟨byte, chunk, split⟩ := List.exists_cons_of_ne_nil unread
        exact ⟨byte, _, by rw [split]; rfl⟩
      obtain ⟨isByte, dequeued⟩ := reading.dequeue isBlocks unread
      have isByte' : heap.byteAt b (fifo.cutSize (i + 1)).head = byte := isByte
      have isSize := counts.size
      have fits := counts.fits
      have step := ih dequeued counts.dequeue
        (by rw [Fqueue.dequeue_blocks, isBlocks])
      rw [queueCutBytes, isByte']
      rw [← Fqueue.cutSize_succ (by omega) (by omega) (by omega) (by omega)] at step
      apply step
      rw [Fqueue.dequeue_head]
      change i ≤ uint32Sub fifo.head.size 1
      rw [uint32Sub_of_le (by omega) (by omega)]
      omega

theorem Queued.cut (queued : Queued others heap fifo bytes) (n : Nat) :
    (∀ b', (queueCut heap fifo n).2.1.chunk b' = heap.chunk b') ∧
      Queued others (queueCut heap fifo n).2.1 (queueCut heap fifo n).2.2
        (bytes.drop n) := by
  unfold queueCut
  split_ifs with noBlocks
  · obtain rfl := queued.reading.bytes_eq_nil noBlocks
    rw [List.drop_nil]
    exact ⟨fun _ => rfl, queued⟩
  · obtain ⟨bytes', same, reading, counts, rest, short⟩ :=
      queued.reading.cutBlocks queued.counts n
    dsimp only
    split
    · rename_i noBlocks'
      obtain rfl := reading.bytes_eq_nil noBlocks'
      rw [List.drop_nil] at rest
      rw [← rest]
      exact ⟨same, reading.updateTail counts⟩
    · rename_i b rest' isBlocks
      have inside := short (by rw [isBlocks]; exact List.cons_ne_nil _ _)
      obtain ⟨reading', counts'⟩ :=
        reading.cutBytes counts isBlocks (Nat.le_of_lt inside)
      rw [← rest]
      exact ⟨same, reading'.updateTail counts'⟩

/-! ## `queue_destroy` -/

theorem Counted.releaseAll {blocks : List Nat}
    (counted : Counted others heap blocks) :
    Counted others (blocks.foldl QueueHeap.release heap) [] ∧
      ∀ b', (blocks.foldl QueueHeap.release heap).chunk b' = heap.chunk b' := by
  induction blocks generalizing heap with
  | nil => exact ⟨counted, fun _ => rfl⟩
  | cons b blocks ih =>
      obtain ⟨counted', same⟩ := ih counted.release
      exact ⟨counted', fun b' => (same b').trans (heap.chunk_release b b')⟩

theorem Counted.queued_zero (counted : Counted others heap []) :
    Queued others heap .zero [] := by
  refine ⟨⟨counted, .nil, ?_⟩, ⟨rfl, rfl, by decide⟩, ?_⟩
  · intro blocks b _ isBlocks
    exact absurd isBlocks (by simp [Fqueue.zero])
  · intro b isBlocks
    exact absurd isBlocks (by simp [Fqueue.zero])

theorem Queued.destroy (queued : Queued others heap fifo bytes) :
    (∀ b', (queueDestroy heap fifo).1.chunk b' = heap.chunk b') ∧
      Queued others (queueDestroy heap fifo).1 (queueDestroy heap fifo).2 [] := by
  obtain ⟨counted, same⟩ := queued.reading.counted.releaseAll
  exact ⟨same, counted.queued_zero⟩

end Chaosircd
