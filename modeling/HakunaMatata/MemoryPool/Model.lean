import HakunaMatata.Base.Memory
import HakunaMatata.Base.Ring

/-!
# The block pool of `memory_pool.c`

`MemoryPool` hands out blocks of one size. The addresses of the idle blocks stand in
`memoryPoolPtrBuf`, a ring that `memoryPoolAlloc` reads at `allocIndex` and
`memoryPoolFree` fills at `freeIndex`. `memoryPoolEnsureSpace` adds a data buffer and
copies the ring, section by section, into a larger one. The debug build is modelled: its
assertion is a fault and `peak` is kept. Allocation succeeds; the address of a new data
buffer and the contents of a new pointer buffer are arbitrary (`Malloc`).
-/

namespace HakunaMatata

open Base

/-- `struct MemoryPool_tag`. Addresses are natural numbers, the other fields `unsigned int`. -/
structure MemoryPool where
  memoryPoolDataBufs : List Nat
  memoryPoolPtrBuf : List Nat
  allocIndex : Nat
  freeIndex : Nat
  capacity : Nat
  used : Nat
  blockSize : Nat
  numBuf : Nat
  peak : Nat
  deriving DecidableEq, Repr

namespace MemoryPool

/-- What one growth obtains from `malloc`: the address of the data buffer and the initial contents
of the pointer buffer. -/
structure Malloc where
  dataBuf : Nat
  ptrBufContents : Nat → Nat

/-- The addresses of `count` blocks laid out in one data buffer. The offset `i * block_size` is
computed in `unsigned int`. -/
def blockAddresses (dataBuf blockSize count : Nat) : List Nat :=
  (List.range count).map fun i => dataBuf + u32 (i * blockSize)

/-- The capacity used for a requested initial capacity. -/
def initialCapacity (initCapacity : Nat) : Nat :=
  if initCapacity = 0 then 8 else initCapacity

/-- `MemoryPoolInit`. -/
def memoryPoolInit (malloc : Malloc) (initCapacity blockSize : Nat) : MemoryPool where
  memoryPoolDataBufs := [malloc.dataBuf]
  memoryPoolPtrBuf := blockAddresses malloc.dataBuf blockSize (initialCapacity initCapacity)
  allocIndex := 0
  freeIndex := 0
  capacity := initialCapacity initCapacity
  used := 0
  blockSize := blockSize
  numBuf := 1
  peak := 0

/-- A run of entries of the pointer buffer: its first index and its length. -/
structure Section where
  start : Nat
  num : Nat

/-- The section of a null pointer. -/
def Section.null : Section := ⟨0, 0⟩

/-- The four sections of the pointer buffer that `MemoryPoolEnsureSpace` distinguishes: the slots
of blocks in use first, the slots of idle blocks after them. -/
structure Sections where
  free1 : Section
  free2 : Section
  alloc1 : Section
  alloc2 : Section

/-- The sections as `MemoryPoolEnsureSpace` computes them from the two indices. -/
def sections (pool : MemoryPool) : Except Fault Sections :=
  if pool.used = pool.capacity then
    if pool.allocIndex = pool.freeIndex then
      .ok { free1 := ⟨pool.freeIndex, pool.capacity - pool.freeIndex⟩
            free2 := ⟨0, pool.freeIndex⟩
            alloc1 := .null
            alloc2 := .null }
    else .error .assertion
  else if pool.allocIndex > pool.freeIndex then
    .ok { free1 := ⟨pool.freeIndex, pool.allocIndex - pool.freeIndex⟩
          free2 := .null
          alloc1 := ⟨pool.allocIndex, pool.capacity - pool.allocIndex⟩
          alloc2 := ⟨0, pool.freeIndex⟩ }
  else
    .ok { free1 := ⟨pool.freeIndex, pool.capacity - pool.freeIndex⟩
          free2 := ⟨0, pool.allocIndex⟩
          alloc1 := ⟨pool.allocIndex, pool.freeIndex - pool.allocIndex⟩
          alloc2 := .null }

/-- Copy a section of `source` to `target` at `offset`; the offset moves behind the copy. -/
def copySection (source : List Nat) (sec : Section) (target : List Nat × Nat) :
    Except Fault (List Nat × Nat) := do
  let copied ← memcpy target.1 target.2 source sec.start sec.num
  pure (copied, target.2 + sec.num)

/-- Copy a section unless it is empty. -/
def copyNonempty (source : List Nat) (sec : Section) (target : List Nat × Nat) :
    Except Fault (List Nat × Nat) :=
  if sec.num > 0 then copySection source sec target else pure target

/-- `MemoryPoolEnsureSpace`. -/
def memoryPoolEnsureSpace (malloc : Malloc) (capacity : Nat) (pool : MemoryPool) :
    Except Fault MemoryPool :=
  if capacity < pool.capacity then .ok pool
  else do
    let deltaSize := capacity - pool.capacity
    let secs ← sections pool
    let source := pool.memoryPoolPtrBuf
    -- copy free section
    let freed ← copySection source secs.free1 (uninit malloc.ptrBufContents capacity, 0)
    let freed ← copyNonempty source secs.free2 freed
    -- copy alloc section; the guard tests the length of the first free section
    let copied ←
      if secs.free1.num > 0 then do
        let copied ← copySection source secs.alloc1 freed
        copyNonempty source secs.alloc2 copied
      else pure freed
    -- init new section
    let newPtrBuf ← memcpy copied.1 copied.2
      (blockAddresses malloc.dataBuf pool.blockSize deltaSize) 0 deltaSize
    pure { pool with
      memoryPoolDataBufs := pool.memoryPoolDataBufs ++ [malloc.dataBuf]
      memoryPoolPtrBuf := newPtrBuf
      allocIndex := freed.2
      freeIndex := 0
      capacity := capacity
      numBuf := u32 (pool.numBuf + 1) }

/-- `MemoryPoolAlloc`. A full pool is first doubled, in `unsigned int` arithmetic. -/
def memoryPoolAlloc (malloc : Malloc) (pool : MemoryPool) : Except Fault (Nat × MemoryPool) := do
  let pool ←
    if pool.used = pool.capacity then
      memoryPoolEnsureSpace malloc (u32 (pool.capacity * 2)) pool
    else pure pool
  let used := u32 (pool.used + 1)
  let ret ← load pool.memoryPoolPtrBuf pool.allocIndex
  pure (ret, { pool with
    allocIndex := advance pool.allocIndex pool.capacity
    used := used
    peak := if used > pool.peak then used else pool.peak })

/-- `MemoryPoolFree`. -/
def memoryPoolFree (block : Nat) (pool : MemoryPool) : Except Fault MemoryPool := do
  let ptrBuf ← store pool.memoryPoolPtrBuf pool.freeIndex block
  pure { pool with
    memoryPoolPtrBuf := ptrBuf
    freeIndex := advance pool.freeIndex pool.capacity
    used := u32 (pool.used + (2 ^ 32 - 1)) }

end MemoryPool

end HakunaMatata
