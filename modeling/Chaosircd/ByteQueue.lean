import Chaosircd.Fifo
import Mathlib.Data.List.Basic

/-!
# Byte queues with shared blocks

A queue is a list of blocks of 128 bytes.  Each queue keeps its own read and
write position in its first and last block; the positions in the other blocks
are those stored with the block.  A block can be in the lists of several queues
and counts the nodes that refer to it.  Blocks are given by identifiers; one
that is not allocated has no references.
-/

namespace Chaosircd

/-- `QUEUE_CHUNK_SIZE`. -/
def queueChunkSize : Nat := 128

/-- Addition of `uint32_t`. -/
def uint32Add (m n : Nat) : Nat := (m + n) % 2 ^ 32

/-- Subtraction of `uint32_t`. -/
def uint32Sub (m n : Nat) : Nat := (2 ^ 32 - n + m) % 2 ^ 32

theorem uint32Add_of_lt {m n : Nat} (fits : m + n < 2 ^ 32) :
    uint32Add m n = m + n :=
  Nat.mod_eq_of_lt fits

theorem uint32Sub_of_le {m n : Nat} (le : n ≤ m) (fits : m < 2 ^ 32) :
    uint32Sub m n = m - n := by
  unfold uint32Sub
  omega

def newline : UInt8 := 10

/-- What a byte adds to a line count. -/
def lineCount (byte : UInt8) : Nat := if byte = newline then 1 else 0

/-- `struct finfo`. -/
structure Finfo where
  head : Nat
  tail : Nat
  size : Nat
  lines : Nat
deriving DecidableEq

namespace Finfo

def zero : Finfo := ⟨0, 0, 0, 0⟩

/-- The position behind a byte that is written. -/
def grow (info : Finfo) (byte : UInt8) : Finfo where
  head := info.head
  tail := uint32Add info.tail 1
  size := uint32Add info.size 1
  lines := uint32Add info.lines (lineCount byte)

/-- The position behind a byte that is read. -/
def shrink (info : Finfo) (byte : UInt8) : Finfo where
  head := uint32Add info.head 1
  tail := info.tail
  size := uint32Sub info.size 1
  lines := uint32Sub info.lines (lineCount byte)

end Finfo

/-- `struct fblock`. -/
structure Fblock where
  refcount : Nat
  info : Finfo
  data : List UInt8

/-- `struct fqueue`. -/
structure Fqueue where
  size : Nat
  lines : Nat
  blocks : List Nat
  head : Finfo
  tail : Finfo

/-- `queue_heap`: the blocks, and the first identifier that was never used. -/
structure QueueHeap where
  block : Nat → Fblock
  next : Nat

namespace QueueHeap

def empty : QueueHeap where
  block := fun _ => ⟨0, .zero, List.replicate queueChunkSize 0⟩
  next := 0

def set (heap : QueueHeap) (b : Nat) (block : Fblock) : QueueHeap where
  block := Function.update heap.block b block
  next := heap.next

def setRefcount (heap : QueueHeap) (b refcount : Nat) : QueueHeap :=
  heap.set b { heap.block b with refcount := refcount }

def setInfo (heap : QueueHeap) (b : Nat) (info : Finfo) : QueueHeap :=
  heap.set b { heap.block b with info := info }

def setByte (heap : QueueHeap) (b i : Nat) (byte : UInt8) : QueueHeap :=
  heap.set b { heap.block b with data := (heap.block b).data.set i byte }

/-- `mem_static_alloc` with the first reference; position and data of the block
are what the memory holds. -/
def alloc (heap : QueueHeap) : QueueHeap :=
  { heap.setRefcount heap.next 1 with next := heap.next + 1 }

def hold (heap : QueueHeap) (b : Nat) : QueueHeap :=
  heap.setRefcount b (uint32Add (heap.block b).refcount 1)

/-- Drop a reference; with the last one the block is freed. -/
def release (heap : QueueHeap) (b : Nat) : QueueHeap :=
  heap.setRefcount b (uint32Sub (heap.block b).refcount 1)

/-- The byte at the read position `info` of a block. -/
def byteAt (heap : QueueHeap) (b : Nat) (info : Finfo) : UInt8 :=
  (heap.block b).data.getD info.head 0

end QueueHeap

namespace Fqueue

/-- `queue_zero`. -/
def zero : Fqueue := ⟨0, 0, [], .zero, .zero⟩

/-- Count a byte that is read from the head block. -/
def dequeue (fifo : Fqueue) (byte : UInt8) : Fqueue :=
  { fifo with
    head := fifo.head.shrink byte
    size := uint32Sub fifo.size 1
    lines := uint32Sub fifo.lines (lineCount byte) }

@[simp] theorem dequeue_blocks (fifo : Fqueue) (byte : UInt8) :
    (fifo.dequeue byte).blocks = fifo.blocks := by
  cases fifo
  rfl

@[simp] theorem dequeue_head (fifo : Fqueue) (byte : UInt8) :
    (fifo.dequeue byte).head = fifo.head.shrink byte := by
  cases fifo
  rfl

@[simp] theorem dequeue_tail (fifo : Fqueue) (byte : UInt8) :
    (fifo.dequeue byte).tail = fifo.tail := by
  cases fifo
  rfl

/-- "We dequeued from tail block, so we need to update tail information": the
head node is the tail node, or neither exists. -/
def updateTail (fifo : Fqueue) : Fqueue :=
  if fifo.blocks.length ≤ 1 then { fifo with tail := fifo.head } else fifo

end Fqueue

/-! ## `queue_write` -/

/-- The registers of `queue_write`. -/
structure QueueWriter where
  heap : QueueHeap
  fifo : Fqueue
  headptr : Option Nat
  tailptr : Option Nat

namespace QueueWriter

def NeedsBlock (writer : QueueWriter) : Prop :=
  match writer.tailptr with
  | none => True
  | some b =>
      writer.fifo.tail.tail = queueChunkSize ∨
        1 < (writer.heap.block b).refcount

instance (writer : QueueWriter) : Decidable writer.NeedsBlock := by
  unfold NeedsBlock
  cases writer.tailptr <;> infer_instance

/-- "It was the first block, so we need to update head information". -/
def updateHead (writer : QueueWriter) : QueueWriter :=
  if writer.headptr = writer.tailptr then
    { writer with fifo := { writer.fifo with head := writer.fifo.tail } }
  else writer

/-- Store the position in a tail block that is not a multicast one. -/
def updateInfo (writer : QueueWriter) : QueueWriter :=
  match writer.tailptr with
  | none => writer
  | some b =>
      if (writer.heap.block b).refcount = 1 then
        { writer with heap := writer.heap.setInfo b writer.fifo.tail }
      else writer

/-- Link a block to the tail. -/
def linkBlock (writer : QueueWriter) : QueueWriter where
  heap := writer.heap.alloc
  fifo := { writer.fifo with
    blocks := writer.fifo.blocks ++ [writer.heap.next]
    tail := .zero }
  headptr :=
    if writer.fifo.blocks = [] then some writer.heap.next else writer.headptr
  tailptr := some writer.heap.next

def putByte (writer : QueueWriter) (byte : UInt8) : QueueWriter :=
  match writer.tailptr with
  | none => writer
  | some b =>
      { writer with
        heap := writer.heap.setByte b writer.fifo.tail.tail byte
        fifo := { writer.fifo with
          tail := writer.fifo.tail.grow byte
          size := uint32Add writer.fifo.size 1
          lines := uint32Add writer.fifo.lines (lineCount byte) } }

/-- The body of the loop. -/
def writeByte (writer : QueueWriter) (byte : UInt8) : QueueWriter :=
  if writer.NeedsBlock then
    writer.updateInfo.updateHead.linkBlock.putByte byte
  else writer.putByte byte

/-- What follows the loop. -/
def finish (writer : QueueWriter) : QueueWriter :=
  match writer.updateHead.tailptr with
  | none => writer.updateHead
  | some b =>
      { writer.updateHead with
        heap := writer.updateHead.heap.setInfo b writer.updateHead.fifo.tail }

end QueueWriter

/-- `queue_write`. -/
def queueWrite (heap : QueueHeap) (fifo : Fqueue) (buf : List UInt8) :
    Nat × QueueHeap × Fqueue :=
  let writer := (buf.foldl QueueWriter.writeByte
    ⟨heap, fifo, fifo.blocks.head?, fifo.blocks.getLast?⟩).finish
  (buf.length, writer.heap, writer.fifo)

/-! ## Operations that dequeue -/

/-- Unlink the head block and advance to the next block. -/
def queueAdvance (heap : QueueHeap) (fifo : Fqueue) : QueueHeap × Fqueue :=
  match fifo.blocks with
  | [] => (heap, fifo)
  | b :: rest =>
      (heap.release b,
        { fifo with
          blocks := rest
          head := match rest with
            | [] => .zero
            | next :: _ => ((heap.release b).block next).info })

/-- Advance when the head reached the tail of the head block. -/
def queueRefill (heap : QueueHeap) (fifo : Fqueue) : QueueHeap × Fqueue :=
  if fifo.head.head = fifo.head.tail then queueAdvance heap fifo
  else (heap, fifo)

/-- The loop of `queue_read`. -/
def queueReadLoop : Nat → QueueHeap → Fqueue →
    List UInt8 × QueueHeap × Fqueue
  | 0, heap, fifo => ([], heap, fifo)
  | n + 1, heap, fifo =>
      match (queueRefill heap fifo).2.blocks with
      | [] => ([], queueRefill heap fifo)
      | b :: _ =>
          let byte := (queueRefill heap fifo).1.byteAt b
            (queueRefill heap fifo).2.head
          let result := queueReadLoop n (queueRefill heap fifo).1
            ((queueRefill heap fifo).2.dequeue byte)
          (byte :: result.1, result.2)

/-- `queue_read`; the count is the length of the bytes. -/
def queueRead (heap : QueueHeap) (fifo : Fqueue) (n : Nat) :
    List UInt8 × QueueHeap × Fqueue :=
  if fifo.blocks = [] then ([], heap, fifo)
  else
    let result := queueReadLoop n heap fifo
    (result.1, result.2.1, result.2.2.updateTail)

/-- The loop of `queue_gets` from its `i`-th round on, which stores the first `n`
bytes of the line.  It ends because a round takes a byte out of a block. -/
def queueGetsLoop (n : Nat) : Nat → Nat → QueueHeap → Fqueue →
    (Nat × List UInt8) × QueueHeap × Fqueue
  | 0, i, heap, fifo => ((i, []), heap, fifo)
  | rounds + 1, i, heap, fifo =>
      match (queueRefill heap fifo).2.blocks with
      | [] => ((i, []), queueRefill heap fifo)
      | b :: _ =>
          let byte := (queueRefill heap fifo).1.byteAt b
            (queueRefill heap fifo).2.head
          let stored := if i < n then [byte] else []
          let fifo' := (queueRefill heap fifo).2.dequeue byte
          if byte = newline then
            ((i, stored), (queueRefill heap fifo).1, fifo')
          else
            let result := queueGetsLoop n rounds (i + 1)
              (queueRefill heap fifo).1 fifo'
            ((result.1.1, stored ++ result.1.2), result.2)

/-- `queue_gets`: how many bytes it takes, and the bytes before the one that ends
the string in the buffer. -/
def queueGets (heap : QueueHeap) (fifo : Fqueue) (n : Nat) :
    (Nat × List UInt8) × QueueHeap × Fqueue :=
  if fifo.lines = 0 then ((0, []), heap, fifo)
  else
    let result := queueGetsLoop n
      (queueChunkSize * fifo.blocks.length + 1) 0 heap fifo
    ((result.1.1 + 1, result.1.2.take (n - 1)), result.2.1,
      result.2.2.updateTail)

/-- The loop of `queue_map` from the node of the first block in the list on. -/
def queueMapLoop (heap : QueueHeap) : Nat → Finfo → List Nat → List UInt8
  | _, _, [] => []
  | 0, _, _ => []
  | n + 1, info, b :: rest =>
      if info.head = info.tail then
        match rest with
        | [] => []
        | next :: rest =>
            let byte := heap.byteAt next (heap.block next).info
            byte :: queueMapLoop heap n
              { (heap.block next).info with
                head := uint32Add (heap.block next).info.head 1 }
              (next :: rest)
      else
        heap.byteAt b info ::
          queueMapLoop heap n { info with head := uint32Add info.head 1 }
            (b :: rest)

/-- `queue_map`; the count is the length of the bytes. -/
def queueMap (heap : QueueHeap) (fifo : Fqueue) (n : Nat) : List UInt8 :=
  queueMapLoop heap n fifo.head fifo.blocks

/-- The first loop of `queue_cut`, which drops whole blocks: the bytes that are
left to cut.  Its first argument runs through the nodes. -/
def queueCutBlocks : List Nat → Nat → QueueHeap → Fqueue →
    Nat × QueueHeap × Fqueue
  | [], i, heap, fifo => (i, heap, fifo)
  | _ :: nodes, i, heap, fifo =>
      if fifo.head.size ≤ i then
        let fifo' := { fifo with
          size := uint32Sub fifo.size fifo.head.size
          lines := uint32Sub fifo.lines fifo.head.lines }
        queueCutBlocks nodes (i - fifo.head.size) (queueAdvance heap fifo').1
          (queueAdvance heap fifo').2
      else (i, heap, fifo)

/-- The second loop of `queue_cut`, which passes over `i` bytes of the block
`b`. -/
def queueCutBytes (heap : QueueHeap) (b : Nat) : Nat → Fqueue → Fqueue
  | 0, fifo => fifo
  | i + 1, fifo =>
      queueCutBytes heap b i
        { fifo with
          head := { fifo.head with
            head := uint32Add fifo.head.head 1
            lines := uint32Sub fifo.head.lines
              (lineCount (heap.byteAt b fifo.head)) }
          lines := uint32Sub fifo.lines
            (lineCount (heap.byteAt b fifo.head)) }

/-- `queue_cut`.  The counter has wrapped around behind the second loop, so what
is returned says nothing while a block is left; no caller reads it. -/
def queueCut (heap : QueueHeap) (fifo : Fqueue) (n : Nat) :
    Nat × QueueHeap × Fqueue :=
  if fifo.blocks = [] then (0, heap, fifo)
  else
    let result := queueCutBlocks fifo.blocks n heap fifo
    match result.2.2.blocks with
    | [] => (result.1, result.2.1, result.2.2.updateTail)
    | b :: _ =>
        let fifo' := { result.2.2 with
          head := { result.2.2.head with
            size := uint32Sub result.2.2.head.size result.1 }
          size := uint32Sub result.2.2.size result.1 }
        (2 ^ 32 - 1, result.2.1,
          (queueCutBytes result.2.1 b result.1 fifo').updateTail)

/-! ## `queue_link` and `queue_destroy` -/

/-- `queue_link`: the queue `to` behind it.  The queue `from` stays as it
is unless it is the same. -/
def queueLink (heap : QueueHeap) (source target : Fqueue) :
    QueueHeap × Fqueue :=
  if source.size = 0 then (heap, target)
  else
    (source.blocks.foldl QueueHeap.hold heap,
      { size := uint32Add target.size source.size
        lines := uint32Add target.lines source.lines
        blocks := target.blocks ++ source.blocks
        head := if target.blocks = [] then source.head else target.head
        tail := source.tail })

/-- `queue_destroy`. -/
def queueDestroy (heap : QueueHeap) (fifo : Fqueue) : QueueHeap × Fqueue :=
  (fifo.blocks.foldl QueueHeap.release heap, .zero)

/-! ## Several queues -/

/-- The queues of a program, with the blocks that they share. -/
structure QueuePool (ι : Type*) where
  heap : QueueHeap
  queue : ι → Fqueue

namespace QueuePool

variable {ι : Type*} [DecidableEq ι]

def empty : QueuePool ι := ⟨.empty, fun _ => .zero⟩

def set (pool : QueuePool ι) (q : ι) (result : QueueHeap × Fqueue) :
    QueuePool ι :=
  ⟨result.1, Function.update pool.queue q result.2⟩

/-- One operation, with the count and the bytes that it returns. -/
def exec (pool : QueuePool ι) :
    Fifo.Op ι UInt8 → QueuePool ι × Nat × List UInt8
  | .write q buf =>
      let result := queueWrite pool.heap (pool.queue q) buf
      (pool.set q result.2, result.1, [])
  | .read q n =>
      let result := queueRead pool.heap (pool.queue q) n
      (pool.set q result.2, result.1.length, result.1)
  | .gets q n =>
      let result := queueGets pool.heap (pool.queue q) n
      (pool.set q result.2, result.1)
  | .map q n =>
      let bytes := queueMap pool.heap (pool.queue q) n
      (pool, bytes.length, bytes)
  | .cut q n =>
      let result := queueCut pool.heap (pool.queue q) n
      (pool.set q result.2, 0, [])
  | .link source target =>
      (pool.set target
        (queueLink pool.heap (pool.queue source) (pool.queue target)), 0, [])
  | .destroy q =>
      (pool.set q (queueDestroy pool.heap (pool.queue q)), 0, [])

end QueuePool

end Chaosircd
