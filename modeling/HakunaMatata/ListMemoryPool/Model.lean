import HakunaMatata.Base.Memory
import HakunaMatata.Base.Ring
import Mathlib.Data.BitVec
import Mathlib.Logic.Function.Basic

/-!
# The pointer version of the list pool, `list_memory_pool.h`

`ListMemoryPool` keeps its blocks in one buffer. A ring of block pointers holds the idle
blocks, and the blocks in use are linked between the two sentinels
`working_list_head_` and `working_list_tail_`. When the pool grows, `ensureSize` copies the
buffer to another address and adds the distance to every pointer: to the ring entries in one
loop and to the links of the working list in two more, which follow the links that they
patch. Memory is split by field (`BlockHeap`), and every access through a pointer checks that
a live block stands there. The release build is modelled, where `_DEBUG` is not defined.
-/

namespace HakunaMatata

open Base

/-- A pointer to a block: `uintptr_t` of 64 bits. -/
abbrev Addr := BitVec 64

/-- The memory of `struct ListMemoryBlock` objects, one map per field, and the addresses at which a
live object stands. -/
structure BlockHeap where
  ptrPrev : Addr → Addr
  ptrNext : Addr → Addr
  id : Addr → Nat
  data : Addr → List UInt8
  live : Addr → Bool

namespace BlockHeap

/-- Check that a live block stands at an address before it is accessed. -/
def deref (heap : BlockHeap) (p : Addr) : Except Fault Unit :=
  if heap.live p then .ok () else .error .outOfBounds

/-- `p->ptr_next = q`. -/
def setNext (heap : BlockHeap) (p q : Addr) : BlockHeap :=
  { heap with ptrNext := Function.update heap.ptrNext p q }

/-- `p->ptr_prev = q`. -/
def setPrev (heap : BlockHeap) (p q : Addr) : BlockHeap :=
  { heap with ptrPrev := Function.update heap.ptrPrev p q }

/-- `malloc` of a buffer of blocks, followed by `memset` to zero. -/
def callocBlocks (heap : BlockHeap) (addr : Nat → Addr) (blockSize count : Nat) : BlockHeap where
  ptrPrev := writeEach addr (fun _ => 0) (List.range count) heap.ptrPrev
  ptrNext := writeEach addr (fun _ => 0) (List.range count) heap.ptrNext
  id := writeEach addr (fun _ => 0) (List.range count) heap.id
  data := writeEach addr (fun _ => List.replicate blockSize 0) (List.range count) heap.data
  live := writeEach addr (fun _ => true) (List.range count) heap.live

/-- The loop that numbers the blocks from `first` on. -/
def numberBlocks (heap : BlockHeap) (addr : Nat → Addr) (first count : Nat) : BlockHeap :=
  { heap with id := writeEach addr (fun i => i) (List.range' first count) heap.id }

/-- `memcpy` of the first `count` blocks of one buffer to another. -/
def copyBlocks (heap : BlockHeap) (source target : Nat → Addr) (count : Nat) : BlockHeap where
  ptrPrev := writeEach target (fun i => heap.ptrPrev (source i)) (List.range count) heap.ptrPrev
  ptrNext := writeEach target (fun i => heap.ptrNext (source i)) (List.range count) heap.ptrNext
  id := writeEach target (fun i => heap.id (source i)) (List.range count) heap.id
  data := writeEach target (fun i => heap.data (source i)) (List.range count) heap.data
  live := heap.live

/-- `free` of a buffer of blocks. -/
def freeBlocks (heap : BlockHeap) (addr : Nat → Addr) (count : Nat) : BlockHeap :=
  { heap with live := writeEach addr (fun _ => false) (List.range count) heap.live }

/-- The loop that walks a list from `cur` along one kind of link and adds the distance between the
buffers to each link before following it, until a link leads to `stop`. The fuel bounds the walk;
a walk that outlasts it does not end at `stop`. -/
def correctLinks (get : BlockHeap → Addr → Addr) (put : BlockHeap → (Addr → Addr) → BlockHeap)
    (delta stop : Addr) : Nat → BlockHeap → Addr → Except Fault BlockHeap
  | 0, _, _ => .error .diverged
  | fuel + 1, heap, cur => do
    heap.deref cur
    if get heap cur = stop then pure heap
    else
      let link := get heap cur + delta
      correctLinks get put delta stop fuel
        (put heap (Function.update (get heap) cur link)) link

/-- The loop over `ptr_next`, from `working_list_head_`. -/
def correctNext (delta tail : Addr) : Nat → BlockHeap → Addr → Except Fault BlockHeap :=
  correctLinks ptrNext (fun heap next => { heap with ptrNext := next }) delta tail

/-- The loop over `ptr_prev`, from `working_list_tail_`. -/
def correctPrev (delta head : Addr) : Nat → BlockHeap → Addr → Except Fault BlockHeap :=
  correctLinks ptrPrev (fun heap prev => { heap with ptrPrev := prev }) delta head

end BlockHeap

/-- `sizeof(ListMemoryBlock)` for a `BLOCK_SIZE`: two pointers, the id and the data, padded to the
alignment of a pointer. -/
def sizeofBlock (blockSize : Nat) : Nat :=
  (8 + 8 + 4 + blockSize + 7) / 8 * 8

/-- `&buf[i]` for a buffer of blocks. -/
def blockAddr (buf : Addr) (blockSize i : Nat) : Addr :=
  buf + BitVec.ofNat 64 (i * sizeofBlock blockSize)

/-- `class ListMemoryPool<BLOCK_SIZE>` with the memory it works on. The sentinels are members of
the pool, so only their addresses are fields here. -/
structure ListMemoryPool where
  heap : BlockHeap
  memoryBlockBuf : Addr
  memoryBlockPtrBuf : List Addr
  allocIndex : Nat
  freeIndex : Nat
  size : Nat
  workingNum : Nat
  enableRealloc : Bool
  workingListHead : Addr
  workingListTail : Addr
  blockSize : Nat

namespace ListMemoryPool

/-- The result `-1` of a failed allocation, as `unsigned int`. -/
def allocFailed : Nat := 2 ^ 32 - 1

/-- `&memory_block_buf_[i]`. -/
def block (pool : ListMemoryPool) (i : Nat) : Addr :=
  blockAddr pool.memoryBlockBuf pool.blockSize i

/-- The constructor, for a pool object whose sentinels stand at `head` and `tail` and a buffer
that `malloc` placed at `buf`. -/
def create (heap : BlockHeap) (buf head tail : Addr) (blockSize initSize : Nat)
    (enableRealloc : Bool) : ListMemoryPool :=
  let addr := blockAddr buf blockSize
  let heap := (heap.callocBlocks addr blockSize initSize).numberBlocks addr 0 initSize
  -- the sentinels are cleared and linked to each other
  let heap := (heap.setPrev head 0).setNext tail 0
  { heap := (heap.setNext head tail).setPrev tail head
    memoryBlockBuf := buf
    memoryBlockPtrBuf := (List.range initSize).map addr
    allocIndex := 0
    freeIndex := 0
    size := initSize
    workingNum := 0
    enableRealloc := enableRealloc
    workingListHead := head
    workingListTail := tail
    blockSize := blockSize }

/-- `EnsureSize`, where `malloc` places a new buffer at `newBuf`. -/
def ensureSize (newBuf : Addr) (size : Nat) (pool : ListMemoryPool) :
    Except Fault (Bool × ListMemoryPool) :=
  if size ≤ pool.size then .ok (true, pool)
  else if pool.enableRealloc then do
    let oldAddr := blockAddr pool.memoryBlockBuf pool.blockSize
    let newAddr := blockAddr newBuf pool.blockSize
    let heap := pool.heap.callocBlocks newAddr pool.blockSize size
    let newPtrBuf := List.replicate pool.size 0 ++
      (List.range' pool.size (size - pool.size)).map newAddr
    let heap := heap.numberBlocks newAddr pool.size (size - pool.size)
    -- fill old data
    let heap := heap.copyBlocks oldAddr newAddr pool.size
    let newPtrBuf ← memcpy newPtrBuf 0 pool.memoryBlockPtrBuf 0 pool.size
    let delta := newBuf - pool.memoryBlockBuf
    -- correct ptr block
    let newPtrBuf := (newPtrBuf.take pool.size).map (· + delta) ++ newPtrBuf.drop pool.size
    -- correct working list
    let heap ← heap.correctNext delta pool.workingListTail (pool.size + 1) pool.workingListHead
    let heap ← heap.correctPrev delta pool.workingListHead (pool.size + 1) pool.workingListTail
    pure (true, { pool with
      heap := heap.freeBlocks oldAddr pool.size
      allocIndex := pool.size
      freeIndex := 0
      size := size
      memoryBlockBuf := newBuf
      memoryBlockPtrBuf := newPtrBuf })
  else .ok (false, pool)

/-- `LinkToTail`. -/
def linkToTail (pool : ListMemoryPool) (ptrBlock : Addr) : Except Fault ListMemoryPool := do
  let heap := pool.heap
  let tail := pool.workingListTail
  heap.deref tail
  heap.deref (heap.ptrPrev tail)
  let heap := heap.setNext (heap.ptrPrev tail) ptrBlock
  heap.deref ptrBlock
  let heap := heap.setPrev ptrBlock (heap.ptrPrev tail)
  let heap := heap.setPrev tail ptrBlock
  let heap := heap.setNext ptrBlock tail
  pure { pool with heap := heap }

/-- `Alloc`. A full pool first asks for twice its size, in `unsigned int` arithmetic. -/
def alloc (newBuf : Addr) (pool : ListMemoryPool) : Except Fault (Nat × ListMemoryPool) := do
  let (enough, pool) ←
    if pool.workingNum ≥ pool.size then ensureSize newBuf (u32 (pool.size * 2)) pool
    else pure (true, pool)
  if enough then do
    let ptrBlock ← load pool.memoryBlockPtrBuf pool.allocIndex
    let pool ← linkToTail { pool with
      allocIndex := advance pool.allocIndex pool.size
      workingNum := u32 (pool.workingNum + 1) } ptrBlock
    pure (pool.heap.id ptrBlock, pool)
  else pure (allocFailed, pool)

/-- The data bytes behind `GetData`. -/
def getData (pool : ListMemoryPool) (id : Nat) : Except Fault (List UInt8) := do
  pool.heap.deref (pool.block id)
  pure (pool.heap.data (pool.block id))

/-- A store of the user through the pointer that `GetData` returns. -/
def setData (id : Nat) (bytes : List UInt8) (pool : ListMemoryPool) :
    Except Fault ListMemoryPool := do
  pool.heap.deref (pool.block id)
  pure { pool with heap :=
    { pool.heap with data := Function.update pool.heap.data (pool.block id) bytes } }

/-- `Free` of a block given by its address. -/
def freeBlock (ptrBlock : Addr) (pool : ListMemoryPool) : Except Fault ListMemoryPool := do
  let ptrBuf ← store pool.memoryBlockPtrBuf pool.freeIndex ptrBlock
  let heap := pool.heap
  heap.deref ptrBlock
  heap.deref (heap.ptrPrev ptrBlock)
  let heap := heap.setNext (heap.ptrPrev ptrBlock) (heap.ptrNext ptrBlock)
  heap.deref (heap.ptrNext ptrBlock)
  let heap := heap.setPrev (heap.ptrNext ptrBlock) (heap.ptrPrev ptrBlock)
  pure { pool with
    heap := heap
    memoryBlockPtrBuf := ptrBuf
    freeIndex := advance pool.freeIndex pool.size
    workingNum := u32 (pool.workingNum + (2 ^ 32 - 1)) }

/-- `Free` of a block given by its index. -/
def free (blockIndex : Nat) (pool : ListMemoryPool) : Except Fault ListMemoryPool :=
  freeBlock (pool.block blockIndex) pool

end ListMemoryPool

end HakunaMatata
