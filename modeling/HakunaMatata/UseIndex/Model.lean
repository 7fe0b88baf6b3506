import HakunaMatata.Base.Memory
import HakunaMatata.Base.Ring

/-!
# The index version of the list pool, `list_memory_pool_use_index.h`

`ListMemoryPool_UseIndex` links its blocks by index instead of by address, so a growth has no
links to correct. The sentinels have the ids `HEAD_ID` and `TAIL_ID`, which stand in the links
for the sentinels themselves. The growth copies the index buffer with the size of
`uintptr_t`, twice that of its entries: it reads past the end of the old buffer and
overwrites the indices of the new blocks with what it finds there. Those words are the
parameter `junk` of `ensureSize` and `alloc`. The release build is modelled.
-/

namespace HakunaMatata

open Base

/-- `HEAD_ID`, the link to the head sentinel. -/
def headId : Nat := 2 ^ 32 - 1

/-- `TAIL_ID`, the link to the tail sentinel. -/
def tailId : Nat := 2 ^ 32 - 2

/-- A `ListMemoryBlock_UseIndex*`: a sentinel, or a block of `memory_block_buf_`. -/
inductive BlockRef where
  | head
  | tail
  | block (index : Nat)
  deriving DecidableEq, Repr

/-- The memory of `struct ListMemoryBlock_UseIndex` objects, one map per field. -/
structure IndexHeap where
  indexPrev : BlockRef → Nat
  indexNext : BlockRef → Nat
  id : BlockRef → Nat
  data : BlockRef → List UInt8

namespace IndexHeap

/-- The new buffer of a growth: `memset` to zero, the new blocks numbered, and the old blocks
copied over the first ones. -/
def growBlocks (heap : IndexHeap) (blockSize oldSize size : Nat) : IndexHeap where
  indexPrev := writeEach .block (fun i => heap.indexPrev (.block i)) (List.range oldSize)
    (writeEach .block (fun _ => 0) (List.range size) heap.indexPrev)
  indexNext := writeEach .block (fun i => heap.indexNext (.block i)) (List.range oldSize)
    (writeEach .block (fun _ => 0) (List.range size) heap.indexNext)
  id := writeEach .block (fun i => heap.id (.block i)) (List.range oldSize)
    (writeEach .block (fun i => i) (List.range' oldSize (size - oldSize))
      (writeEach .block (fun _ => 0) (List.range size) heap.id))
  data := writeEach .block (fun i => heap.data (.block i)) (List.range oldSize)
    (writeEach .block (fun _ => List.replicate blockSize 0) (List.range size) heap.data)

/-- The block that a link forward leads to. -/
def nextRef (index : Nat) : BlockRef :=
  if index ≠ tailId then .block index else .tail

/-- The block that a link backward leads to. -/
def prevRef (index : Nat) : BlockRef :=
  if index ≠ headId then .block index else .head

/-- `GetNext`. -/
def getNext (heap : IndexHeap) : BlockRef → BlockRef :=
  nextRef ∘ heap.indexNext

/-- `GetPrev`. -/
def getPrev (heap : IndexHeap) : BlockRef → BlockRef :=
  prevRef ∘ heap.indexPrev

/-- `r->index_next = index`. -/
def setNext (heap : IndexHeap) (r : BlockRef) (index : Nat) : IndexHeap :=
  { heap with indexNext := Function.update heap.indexNext r index }

/-- `r->index_prev = index`. -/
def setPrev (heap : IndexHeap) (r : BlockRef) (index : Nat) : IndexHeap :=
  { heap with indexPrev := Function.update heap.indexPrev r index }

end IndexHeap

/-- `class ListMemoryPool_UseIndex<BLOCK_SIZE>` with the memory it works on. -/
structure ListMemoryPoolUseIndex where
  heap : IndexHeap
  memoryBlockIndexBuf : List Nat
  allocIndex : Nat
  freeIndex : Nat
  size : Nat
  workingNum : Nat
  enableRealloc : Bool
  blockSize : Nat

namespace ListMemoryPoolUseIndex

/-- The result `-1` of a failed allocation, as `unsigned int`. -/
def allocFailed : Nat := 2 ^ 32 - 1

/-- `sizeof(unsigned int)`. -/
def sizeofUnsigned : Nat := 4

/-- `sizeof(uintptr_t)`. -/
def sizeofUintptr : Nat := 8

/-- Check that a block lies inside the buffer before it is accessed. -/
def deref (pool : ListMemoryPoolUseIndex) : BlockRef → Except Fault Unit
  | .head => .ok ()
  | .tail => .ok ()
  | .block i => if i < pool.size then .ok () else .error .outOfBounds

/-- The constructor, on memory with arbitrary contents. -/
def create (heap : IndexHeap) (blockSize initSize : Nat) (enableRealloc : Bool) :
    ListMemoryPoolUseIndex where
  heap :=
    { indexPrev := Function.update (Function.update
        (writeEach .block (fun _ => 0) (List.range initSize) heap.indexPrev) .head 0) .tail headId
      indexNext := Function.update (Function.update
        (writeEach .block (fun _ => 0) (List.range initSize) heap.indexNext) .tail 0) .head tailId
      id := Function.update (Function.update
        (writeEach .block (fun i => i) (List.range initSize) heap.id) .head headId) .tail tailId
      data := Function.update (Function.update
        (writeEach .block (fun _ => List.replicate blockSize 0) (List.range initSize) heap.data)
          .head (List.replicate blockSize 0)) .tail (List.replicate blockSize 0) }
  memoryBlockIndexBuf := List.range initSize
  allocIndex := 0
  freeIndex := 0
  size := initSize
  workingNum := 0
  enableRealloc := enableRealloc
  blockSize := blockSize

/-- `EnsureSize`. The words behind the end of the old index buffer are `junk`. -/
def ensureSize (junk : Nat → Nat) (size : Nat) (pool : ListMemoryPoolUseIndex) :
    Except Fault (Bool × ListMemoryPoolUseIndex) :=
  if size ≤ pool.size then .ok (true, pool)
  else if pool.enableRealloc then do
    let newIndexBuf := List.replicate pool.size 0 ++ List.range' pool.size (size - pool.size)
    -- `size_ * sizeof(uintptr_t)` bytes of entries of `sizeof(unsigned int)` bytes
    let count := pool.size * sizeofUintptr / sizeofUnsigned
    let newIndexBuf ← memcpy newIndexBuf 0
      (pool.memoryBlockIndexBuf ++ uninit junk (count - pool.memoryBlockIndexBuf.length)) 0 count
    pure (true, { pool with
      heap := pool.heap.growBlocks pool.blockSize pool.size size
      allocIndex := pool.size
      freeIndex := 0
      size := size
      memoryBlockIndexBuf := newIndexBuf })
  else .ok (false, pool)

/-- `LinkToTail`. -/
def linkToTail (pool : ListMemoryPoolUseIndex) (r : BlockRef) :
    Except Fault ListMemoryPoolUseIndex := do
  let heap := pool.heap
  pool.deref (heap.getPrev .tail)
  pool.deref r
  let heap := heap.setNext (heap.getPrev .tail) (heap.id r)
  let heap := heap.setPrev r (heap.indexPrev .tail)
  let heap := heap.setPrev .tail (heap.id r)
  let heap := heap.setNext r tailId
  pure { pool with heap := heap }

/-- `Alloc`. A full pool first asks for twice its size, in `unsigned int` arithmetic. -/
def alloc (junk : Nat → Nat) (pool : ListMemoryPoolUseIndex) :
    Except Fault (Nat × ListMemoryPoolUseIndex) := do
  let (enough, pool) ←
    if pool.workingNum ≥ pool.size then ensureSize junk (u32 (pool.size * 2)) pool
    else pure (true, pool)
  if enough then do
    let index ← load pool.memoryBlockIndexBuf pool.allocIndex
    let pool ← linkToTail { pool with
      allocIndex := advance pool.allocIndex pool.size
      workingNum := u32 (pool.workingNum + 1) } (.block index)
    pure (pool.heap.id (.block index), pool)
  else pure (allocFailed, pool)

/-- `Free` of a block given by its index. -/
def free (blockIndex : Nat) (pool : ListMemoryPoolUseIndex) :
    Except Fault ListMemoryPoolUseIndex := do
  let indexBuf ← store pool.memoryBlockIndexBuf pool.freeIndex blockIndex
  let r := BlockRef.block blockIndex
  let heap := pool.heap
  pool.deref r
  pool.deref (heap.getPrev r)
  let heap := heap.setNext (heap.getPrev r) (heap.indexNext r)
  pool.deref (heap.getNext r)
  let heap := heap.setPrev (heap.getNext r) (heap.indexPrev r)
  pure { pool with
    heap := heap
    memoryBlockIndexBuf := indexBuf
    freeIndex := advance pool.freeIndex pool.size
    workingNum := u32 (pool.workingNum + (2 ^ 32 - 1)) }

end ListMemoryPoolUseIndex

end HakunaMatata
