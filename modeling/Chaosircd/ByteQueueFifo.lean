import Chaosircd.ByteQueueWrites
import Chaosircd.TransitionSystem
import Mathlib.Algebra.Order.BigOperators.Group.Finset

/-!
# Byte queues behave like independent queues

Each queue of a pool is handled under the references that the others hold, so
an operation on one queue leaves the bytes of the others alone.  Two things go
wrong.  `queue_link` appends the blocks of a queue to one that is not empty with
the positions stored in them, and reading never updates these: bytes that were
read from the first block come back.  `queue_write` compares the first and the
last block to see whether there is one, and a block that was linked twice can be
both.
-/

namespace Chaosircd

namespace QueuePool

variable {ι : Type*} [Fintype ι] [DecidableEq ι]

/-- The references to a block that other queues than `q` hold. -/
def others (pool : QueuePool ι) (q : ι) (b : Nat) : Nat :=
  ∑ q' ∈ Finset.univ.erase q, (pool.queue q').blocks.count b

/-- Every queue of the pool has the bytes of its counterpart. -/
def Represents (pool : QueuePool ι) (fifos : ι → List UInt8) : Prop :=
  ∀ q, Queued (pool.others q) pool.heap (pool.queue q) (fifos q)

/-- A queue is written to without a reset of its read position, and linked
without a return of bytes that were read; counters and reference counts fit
32 bits; a buffer for a line has room for its end. -/
def Allows (pool : QueuePool ι) : Fifo.Op ι UInt8 → Prop
  | .write q buf =>
      buf ≠ [] ∧ (pool.queue q).size + buf.length < 2 ^ 32 ∧
        ∀ b ∈ (pool.queue q).blocks.head?,
          (pool.queue q).blocks.getLast? = some b →
            (pool.queue q).head = (pool.queue q).tail
  | .gets _ n => 0 < n
  | .link source target =>
      (pool.queue source).size = 0 ∨
        (pool.queue target).size + (pool.queue source).size < 2 ^ 32 ∧
        (∀ b ∈ (pool.queue source).blocks, (pool.heap.block b).refcount +
          (pool.queue source).blocks.count b < 2 ^ 32) ∧
        ((pool.queue target).blocks = [] ∨
          ∀ b ∈ (pool.queue source).blocks.head?,
            (pool.queue source).head = (pool.heap.block b).info ∧
              (pool.queue source).head.size ≠ 0)
  | _ => True

instance (pool : QueuePool ι) (op : Fifo.Op ι UInt8) :
    Decidable (pool.Allows op) := by
  cases op <;> unfold Allows <;> infer_instance

end QueuePool

section

variable {others others' : Nat → Nat} {heap heap' : QueueHeap} {fifo : Fqueue}
  {bytes bytes' : List UInt8}

/-- A queue is left alone when its chunks are. -/
theorem Queued.frame (queued : Queued others heap fifo bytes)
    (counted : Counted others' heap' fifo.blocks)
    (same : ∀ b ∈ fifo.blocks, heap'.chunk b = heap.chunk b) :
    Queued others' heap' fifo bytes := by
  refine ⟨⟨counted, ?_, ?_⟩, queued.counts, queued.single⟩
  · rw [QueueHeap.chunks_congr same]
    exact queued.reading.holds
  · intro blocks b nonempty isBlocks
    rw [queued.reading.tail blocks b nonempty isBlocks]
    refine (congrArg Chunk.info (same b ?_)).symm
    rw [isBlocks]
    exact List.mem_append_right _ (List.mem_singleton_self b)

/-- The blocks of a queue that starts with a fresh read position are linked. -/
theorem Queued.chunks_eq (queued : Queued others heap fifo bytes)
    (fresh : ∀ b ∈ fifo.blocks.head?,
      fifo.head = (heap.block b).info ∧ fifo.head.size ≠ 0) :
    Holds (fifo.blocks.map heap.chunk) bytes ∧
      (∀ chunk ∈ fifo.blocks.map heap.chunk, chunk.unread ≠ []) ∧
        ∀ blocks b, fifo.blocks = blocks ++ [b] →
          fifo.tail = (heap.block b).info := by
  have holds := queued.reading.holds
  have single := queued.single
  have tail := queued.reading.tail
  cases isBlocks : fifo.blocks with
  | nil =>
      rw [isBlocks] at holds
      exact ⟨holds, by simp, by simp⟩
  | cons first rest =>
      rw [isBlocks] at holds fresh single tail
      obtain ⟨isHead, nonempty⟩ := fresh first rfl
      have chunks : heap.chunks fifo.head (first :: rest) =
          (first :: rest).map heap.chunk := by
        rw [QueueHeap.chunks, isHead]
        rfl
      have sound := holds.sound ⟨fifo.head, (heap.block first).data⟩
        List.mem_cons_self
      have size : fifo.head.size =
          (Chunk.unread ⟨fifo.head, (heap.block first).data⟩).length :=
        sound.size
      refine ⟨chunks ▸ holds, ?_, ?_⟩
      · rw [← chunks]
        intro chunk member
        rcases List.mem_cons.mp member with rfl | later
        · rw [← List.length_pos_iff, ← size]
          omega
        · exact holds.pending chunk later
      · intro blocks b isLast
        cases blocks with
        | nil =>
            rw [single b isLast, isHead]
            rw [(List.cons.inj isLast).1]
        | cons other blocks =>
            exact tail (other :: blocks) b (List.cons_ne_nil _ _) isLast

theorem Queued.link {fifo' : Fqueue}
    (queued : Queued others heap fifo bytes)
    (source : Queued others' heap fifo' bytes')
    (nonempty : fifo'.size ≠ 0) (fits : fifo.size + fifo'.size < 2 ^ 32)
    (references : ∀ b ∈ fifo'.blocks,
      (heap.block b).refcount + fifo'.blocks.count b < 2 ^ 32)
    (fresh : fifo.blocks = [] ∨ ∀ b ∈ fifo'.blocks.head?,
      fifo'.head = (heap.block b).info ∧ fifo'.head.size ≠ 0) :
    (∀ b, (queueLink heap fifo' fifo).1.chunk b = heap.chunk b) ∧
      Queued others (queueLink heap fifo' fifo).1 (queueLink heap fifo' fifo).2
        (bytes ++ bytes') := by
  have used : ∀ b ∈ fifo'.blocks, b < heap.next := by
    intro b member
    by_contra isFresh
    have none := source.reading.counted.fresh b (Nat.not_lt.mp isFresh)
    have some := source.reading.counted.counted b
    have := List.count_pos_iff.mpr member
    omega
  obtain ⟨counted, same⟩ :=
    queued.reading.counted.holdAll references used
  have counts := queued.counts
  have counts' := source.counts
  have count := List.count_le_length (a := newline) (l := bytes)
  have count' := List.count_le_length (a := newline) (l := bytes')
  rw [counts.size, counts'.size] at fits
  unfold queueLink
  rw [if_neg nonempty]
  refine ⟨same, ⟨counted, ?_, ?_⟩, ⟨?_, ?_, ?_⟩, ?_⟩
  · dsimp only
    rw [QueueHeap.chunks_congr fun b _ => same b]
    split_ifs with empty
    · rw [empty, queued.reading.bytes_eq_nil empty]
      exact source.reading.holds
    · obtain ⟨holds, pending, -⟩ := source.chunks_eq (fresh.resolve_left empty)
      rw [QueueHeap.chunks_append empty]
      exact queued.reading.holds.append holds (.inr pending)
  · intro blocks b notFirst isBlocks
    dsimp only at isBlocks ⊢
    have info : ((fifo'.blocks.foldl QueueHeap.hold heap).block b).info =
        (heap.block b).info := congrArg Chunk.info (same b)
    rw [info]
    rcases List.eq_nil_or_concat' fifo'.blocks with
      noBlocks | ⟨blocks', b', isBlocks'⟩
    · rw [source.reading.bytes_eq_nil noBlocks] at counts'
      exact absurd counts'.size nonempty
    · have isLast : b' = b := by
        rw [isBlocks', ← List.append_assoc] at isBlocks
        exact List.singleton_inj.mp (List.append_inj' isBlocks rfl).2
      subst isLast
      by_cases empty : fifo.blocks = []
      · refine source.reading.tail blocks b' notFirst ?_
        rw [empty] at isBlocks
        exact isBlocks
      · exact (source.chunks_eq (fresh.resolve_left empty)).2.2 blocks' b'
          isBlocks'
  · dsimp only
    rw [counts.size, counts'.size, uint32Add_of_lt fits, List.length_append]
  · dsimp only
    rw [counts.lines, counts'.lines, uint32Add_of_lt (by omega),
      List.count_append]
  · rwa [List.length_append]
  · intro b isBlocks
    dsimp only at isBlocks ⊢
    have notBlocks : fifo'.blocks ≠ [] := by
      intro noBlocks
      rw [source.reading.bytes_eq_nil noBlocks] at counts'
      exact nonempty counts'.size
    have empty : fifo.blocks = [] := by
      rcases List.append_eq_singleton_iff.mp isBlocks with first | second
      · exact first.1
      · exact absurd second.2 notBlocks
    rw [empty] at isBlocks ⊢
    exact source.single b isBlocks

end

namespace QueuePool

variable {ι : Type*} [Fintype ι] [DecidableEq ι] {pool : QueuePool ι}
  {fifos : ι → List UInt8}

theorem others_add (pool : QueuePool ι) (q : ι) (b : Nat) :
    pool.others q b + (pool.queue q).blocks.count b =
      ∑ q', (pool.queue q').blocks.count b :=
  Finset.sum_erase_add _ _ (Finset.mem_univ q)

omit [Fintype ι] in
@[simp] theorem set_queue_self (pool : QueuePool ι) (q : ι)
    (result : QueueHeap × Fqueue) : (pool.set q result).queue q = result.2 := by
  simp [set]

omit [Fintype ι] in
@[simp] theorem set_queue_of_ne (pool : QueuePool ι) {q q' : ι}
    (other : q' ≠ q) (result : QueueHeap × Fqueue) :
    (pool.set q result).queue q' = pool.queue q' := by
  simp [set, other]

theorem others_set_self (pool : QueuePool ι) (q : ι)
    (result : QueueHeap × Fqueue) :
    (pool.set q result).others q = pool.others q := by
  funext b
  apply Finset.sum_congr rfl
  intro q' member
  rw [set_queue_of_ne _ (Finset.ne_of_mem_erase member)]

/-- Another queue is one of the others. -/
theorem others_ne_zero {q q' : ι} (other : q' ≠ q) {b : Nat}
    (member : b ∈ (pool.queue q').blocks) : pool.others q b ≠ 0 := by
  intro none
  have isOther := Finset.mem_erase.mpr ⟨other, Finset.mem_univ q'⟩
  have absent := Finset.sum_eq_zero_iff.mp none q' isOther
  have := List.count_pos_iff.mpr member
  omega

/-- An operation on one queue leaves the bytes of the others alone. -/
theorem Represents.set (represents : pool.Represents fifos) (q : ι)
    {heap : QueueHeap} {fifo : Fqueue} {bytes : List UInt8}
    (agrees : QueueHeap.Agrees (pool.others q) pool.heap heap)
    (queued : Queued (pool.others q) heap fifo bytes) :
    (pool.set q (heap, fifo)).Represents (Function.update fifos q bytes) := by
  have counted : ∀ b, (heap.block b).refcount =
      ∑ q', ((pool.set q (heap, fifo)).queue q').blocks.count b := by
    intro b
    rw [← others_add _ q, others_set_self, set_queue_self]
    exact queued.reading.counted.counted b
  intro q'
  by_cases same : q' = q
  · subst same
    rw [others_set_self, set_queue_self, Function.update_self]
    exact queued
  · have blocks : (pool.set q (heap, fifo)).queue q' = pool.queue q' :=
      set_queue_of_ne pool same _
    rw [Function.update_of_ne same, blocks]
    apply (represents q').frame
    · constructor
      · intro b
        rw [← blocks, others_add]
        exact counted b
      · exact queued.reading.counted.fits
      · exact queued.reading.counted.fresh
      · exact queued.reading.counted.room
    · intro b member
      exact agrees b (others_ne_zero same member)

theorem represents_empty : (empty : QueuePool ι).Represents fun _ => [] := by
  intro q
  apply Counted.queued_zero
  constructor
  · intro b
    symm
    exact Finset.sum_eq_zero fun _ _ => rfl
  · intro b
    exact Nat.two_pow_pos 32
  · exact fun _ _ => rfl
  · exact fun _ => List.length_replicate

/-- One operation. -/
theorem Represents.exec (represents : pool.Represents fifos)
    {op : Fifo.Op ι UInt8} (allowed : pool.Allows op) :
    (pool.exec op).2 = (Fifo.exec newline fifos op).2 ∧
      (pool.exec op).1.Represents (Fifo.exec newline fifos op).1 := by
  cases op with
  | write q buf =>
      obtain ⟨nonempty, fits, once⟩ := allowed
      rw [(represents q).counts.size] at fits
      obtain ⟨agrees, queued⟩ := (represents q).write once nonempty fits
      exact ⟨rfl, represents.set q agrees queued⟩
  | read q n =>
      obtain ⟨taken, same, queued⟩ := (represents q).read n
      refine ⟨?_, represents.set q (fun b _ => same b) queued⟩
      simp only [QueuePool.exec, Fifo.exec, taken]
  | gets q n =>
      obtain ⟨taken, same, queued⟩ := (represents q).gets n
      exact ⟨taken, represents.set q (fun b _ => same b) queued⟩
  | map q n =>
      refine ⟨?_, represents⟩
      simp only [QueuePool.exec, Fifo.exec, (represents q).map n]
  | cut q n =>
      obtain ⟨same, queued⟩ := (represents q).cut n
      exact ⟨rfl, represents.set q (fun b _ => same b) queued⟩
  | link source target =>
      refine ⟨rfl, ?_⟩
      by_cases nothing : (pool.queue source).size = 0
      · have noBytes : fifos source = [] := by
          rw [← List.length_eq_zero_iff, ← (represents source).counts.size]
          exact nothing
        have queued := represents target
        simp only [QueuePool.exec, Fifo.exec, queueLink, if_pos nothing, noBytes,
          List.append_nil]
        exact represents.set target (.refl _ _) queued
      · obtain ⟨fits, references, fresh⟩ := allowed.resolve_left nothing
        obtain ⟨same, queued⟩ := (represents target).link (represents source)
          nothing fits references fresh
        exact represents.set target (fun b _ => same b) queued
  | destroy q =>
      obtain ⟨same, queued⟩ := (represents q).destroy
      exact ⟨rfl, represents.set q (fun b _ => same b) queued⟩

/-- In every run whose operations all meet the condition, every operation
answers as on independent queues, and at the end the counters of every queue
count the bytes and the newlines of its counterpart. -/
theorem outputs_eq_fifo (ops : List (Fifo.Op ι UInt8))
    (guarded : TransitionSystem.GuardedRun
      (fun (pool : QueuePool ι) op => some (pool.exec op).1) Allows empty ops) :
    (TransitionSystem.outputs exec empty ops).2 =
        (TransitionSystem.outputs (Fifo.exec newline) (fun _ => []) ops).2 ∧
      ∀ q,
        ((TransitionSystem.outputs exec empty ops).1.queue q).size =
            ((TransitionSystem.outputs (Fifo.exec newline) (fun _ => [])
              ops).1 q).length ∧
          ((TransitionSystem.outputs exec empty ops).1.queue q).lines =
            ((TransitionSystem.outputs (Fifo.exec newline) (fun _ => [])
              ops).1 q).count newline := by
  have simulates : ∀ (pool : QueuePool ι) (fifos : ι → List UInt8)
      (op : Fifo.Op ι UInt8), pool.Represents fifos → pool.Allows op →
        (pool.exec op).2 = (Fifo.exec newline fifos op).2 ∧
          (pool.exec op).1.Represents (Fifo.exec newline fifos op).1 :=
    fun _ _ _ represents allowed => represents.exec allowed
  obtain ⟨answers, represents⟩ := TransitionSystem.outputs_eq_of_simulation
    simulates represents_empty guarded
  exact ⟨answers, fun q =>
    ⟨(represents q).counts.size, (represents q).counts.lines⟩⟩

/-- A line is written once, linked to another queue and read there after its
queue is gone. -/
theorem outputs_eq_fifo_of_multicast :
    (TransitionSystem.outputs exec (empty : QueuePool (Fin 2))
      [.write 0 [97, 10], .write 1 [98], .link 0 1, .destroy 0, .write 1 [99],
        .gets 1 16, .read 1 16]).2 =
      [(2, []), (1, []), (0, []), (0, []), (1, []), (3, [98, 97, 10]),
        (1, [99])] := by
  rw [(outputs_eq_fifo _ _).1]
  · decide
  · decide

/-- A queue is linked to one that is not empty after a byte was read from it. -/
theorem outputs_ne_fifo_of_partial_read :
    (TransitionSystem.outputs exec (empty : QueuePool (Fin 2))
      [.write 0 [97, 98], .read 0 1, .write 1 [99], .link 0 1, .read 1 3]).2 ≠
    (TransitionSystem.outputs (Fifo.exec newline) (fun _ : Fin 2 => [])
      [.write 0 [97, 98], .read 0 1, .write 1 [99], .link 0 1, .read 1 3]).2 := by
  decide

end QueuePool

end Chaosircd
