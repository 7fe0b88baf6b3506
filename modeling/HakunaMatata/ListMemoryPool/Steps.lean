import HakunaMatata.ListMemoryPool.Relocation

/-!
# The operations of the list pool on the ring and on the list

`Consistent pool inUse` is what the operations need of a pool besides the positions of the ring
indices: the memory is in order, every ring entry points to a block, and `working_num_` counts
the ids in use. `Consistent.take`, `Consistent.release` and `Consistent.grow` say what an
allocation from a pool that is not full, a release and a growth do, the effect on the
ring included. None of them asks whether the ring still holds the right blocks, so they also
describe a pool whose indices are misplaced.
-/

namespace HakunaMatata

open Base

namespace ListMemoryPool

/-- The ring of block pointers. -/
def ring (pool : ListMemoryPool) : SlotRing Addr :=
  ⟨pool.memoryBlockPtrBuf, pool.allocIndex, pool.freeIndex, pool.workingNum⟩

/-- The data bytes of a block. -/
def bytes (pool : ListMemoryPool) (i : Nat) : List UInt8 :=
  pool.heap.data (pool.block i)

/-- Every block of the first pool has the same data in the second. -/
def SameData (pool pool' : ListMemoryPool) : Prop :=
  ∀ i < pool.size, pool'.bytes i = pool.bytes i

/-- The memory, the counters and the ring entries of a pool whose blocks `inUse` are in use. -/
structure Consistent (pool : ListMemoryPool) (inUse : List Nat) : Prop where
  heap : HeapInv pool inUse
  size_lt : pool.size < 2 ^ 32
  buf_length : pool.memoryBlockPtrBuf.length = pool.size
  working_eq : pool.workingNum = inUse.length
  entry : ∀ a ∈ pool.memoryBlockPtrBuf, ∃ i < pool.size, a = pool.block i

/-- The second pool stands at the same place with the same size and options. -/
structure SamePlace (pool pool' : ListMemoryPool) : Prop where
  size_eq : pool'.size = pool.size
  realloc_eq : pool'.enableRealloc = pool.enableRealloc
  block_eq : pool'.block = pool.block

variable {pool : ListMemoryPool} {inUse : List Nat}

theorem Consistent.working_le (h : Consistent pool inUse) : pool.workingNum ≤ pool.size :=
  h.working_eq ▸ h.heap.length_le

theorem create_consistent {heap : BlockHeap} {buf head tail : Addr} {blockSize initSize : Nat}
    (hhead : heap.live head = true) (htail : heap.live tail = true) (hne : head ≠ tail)
    (hfresh : heap.Fresh buf blockSize initSize) (hsize : initSize < 2 ^ 32)
    (enableRealloc : Bool) :
    Consistent (create heap buf head tail blockSize initSize enableRealloc) [] := by
  refine ⟨create_heap_inv hhead htail hne hfresh enableRealloc, hsize, ?_, rfl, ?_⟩
  · simp [create]
  · intro a ha
    obtain ⟨i, hi, rfl⟩ := List.mem_map.mp ha
    exact ⟨i, List.mem_range.mp hi, rfl⟩

/-- The pool after the part of `alloc` that follows the check for room. -/
def taken (pool : ListMemoryPool) (p : Addr) : ListMemoryPool :=
  ({ pool with
    allocIndex := advance pool.allocIndex pool.size
    workingNum := u32 (pool.workingNum + 1) } : ListMemoryPool).linked p

/-- When the check for room leaves the pool as it is, `alloc` returns the block under
`allocIndex`, whether or not it is in use. -/
theorem Consistent.alloc_eq (h : Consistent pool inUse) (newBuf : Addr) {i : Nat}
    (hroom : pool.workingNum ≥ pool.size →
      ensureSize newBuf (u32 (pool.size * 2)) pool = .ok (true, pool))
    (hload : load pool.memoryBlockPtrBuf pool.allocIndex = .ok (pool.block i))
    (hi : i < pool.size) :
    alloc newBuf pool = .ok (i, pool.taken (pool.block i)) := by
  have hlink : linkToTail { pool with
      allocIndex := advance pool.allocIndex pool.size
      workingNum := u32 (pool.workingNum + 1) } (pool.block i) =
      .ok (pool.taken (pool.block i)) := by
    exact (h.heap.withRing pool.memoryBlockPtrBuf _ pool.freeIndex _).linkToTail_eq hi
  have hid : (pool.taken (pool.block i)).heap.id (pool.block i) = i := h.heap.id_block i hi
  rcases Nat.lt_or_ge pool.workingNum pool.size with hworking | hworking
  · simp only [alloc, if_neg (Nat.not_le.mpr hworking), bind, Except.bind, pure, Except.pure,
      if_true, hload, hlink, hid]
  · simp only [alloc, if_pos hworking, hroom hworking, bind, Except.bind, pure, Except.pure,
      if_true, hload, hlink, hid]

/-- An allocation from a pool that is not full links the block under `allocIndex`, provided that
it is not in use. -/
theorem Consistent.take (h : Consistent pool inUse) (hworking : pool.workingNum < pool.size)
    {i : Nat} (hload : load pool.memoryBlockPtrBuf pool.allocIndex = .ok (pool.block i))
    (hi : i < pool.size) (hnew : i ∉ inUse) (newBuf : Addr) :
    ∃ pool', alloc newBuf pool = .ok (i, pool') ∧ Consistent pool' (inUse ++ [i]) ∧
      pool'.ring = ⟨pool.memoryBlockPtrBuf, advance pool.allocIndex pool.memoryBlockPtrBuf.length,
        pool.freeIndex, pool.workingNum + 1⟩ ∧
      SamePlace pool pool' ∧ SameData pool pool' := by
  have hsize := h.size_lt
  have hcount : u32 (pool.workingNum + 1) = pool.workingNum + 1 := u32_of_lt (by omega)
  have halloc := h.alloc_eq newBuf (fun hfull => absurd hworking (Nat.not_lt.mpr hfull)) hload hi
  refine ⟨pool.taken (pool.block i), halloc, ⟨?_, h.size_lt, h.buf_length, ?_, h.entry⟩, ?_,
    ⟨rfl, rfl, rfl⟩, fun _ _ => rfl⟩
  · exact (h.heap.link hi hnew).withRing pool.memoryBlockPtrBuf _ pool.freeIndex _
  · show u32 (pool.workingNum + 1) = _
    rw [hcount, h.working_eq, List.length_append, List.length_singleton]
  · show SlotRing.mk _ _ _ (u32 (pool.workingNum + 1)) = _
    rw [h.buf_length, hcount]
    rfl

theorem Consistent.release (h : Consistent pool inUse) {i : Nat} (hi : i ∈ inUse)
    (hfree : pool.freeIndex < pool.size) :
    ∃ pool', freeBlock (pool.block i) pool = .ok pool' ∧ Consistent pool' (inUse.erase i) ∧
      pool'.ring = pool.ring.put (pool.block i) ∧ SamePlace pool pool' ∧ SameData pool pool' := by
  have hbuf := h.buf_length
  have hcount : 0 < pool.workingNum := h.working_eq ▸ List.length_pos_of_mem hi
  have hword : pool.workingNum < 2 ^ 32 := Nat.lt_of_le_of_lt h.working_le h.size_lt
  have hpred : u32 (pool.workingNum + (2 ^ 32 - 1)) = pool.workingNum - 1 := u32_pred hcount hword
  obtain ⟨next, prev, hexec, hheap⟩ := h.heap.unlink hi (store_of_lt (hbuf ▸ hfree) (pool.block i))
  refine ⟨_, hexec, ⟨?_, h.size_lt, ?_, ?_, ?_⟩, ?_, ⟨rfl, rfl, rfl⟩, fun _ _ => rfl⟩
  · exact hheap.withRing _ pool.allocIndex _ _
  · exact (List.length_set ..).trans hbuf
  · show u32 (pool.workingNum + (2 ^ 32 - 1)) = (inUse.erase i).length
    rw [hpred, List.length_erase_of_mem hi, h.working_eq]
  · intro a ha
    rcases List.mem_or_eq_of_mem_set ha with ha | rfl
    · exact h.entry a ha
    · exact ⟨i, h.heap.in_use_lt i hi, rfl⟩
  · show SlotRing.mk _ _ _ (u32 (pool.workingNum + (2 ^ 32 - 1))) = _
    rw [hpred, ← hbuf]
    rfl

/-- A growth moves the ring entries with their blocks, appends the new blocks, and places the
indices at the old size and at zero. -/
theorem Consistent.grow (h : Consistent pool inUse) (hrealloc : pool.enableRealloc = true)
    {newBuf : Addr} {size : Nat} (hgrow : pool.size < size) (hword : size < 2 ^ 32)
    (hfresh : pool.heap.Fresh newBuf pool.blockSize size) :
    ∃ pool', ensureSize newBuf size pool = .ok (true, pool') ∧ Consistent pool' inUse ∧
      pool'.ring = ⟨pool.memoryBlockPtrBuf.map (· + (newBuf - pool.memoryBlockBuf)) ++
        (List.range' pool.size (size - pool.size)).map pool'.block, pool.size, 0,
        pool.workingNum⟩ ∧
      pool'.size = size ∧ pool'.enableRealloc = pool.enableRealloc ∧ SameData pool pool' := by
  have hbuf := h.buf_length
  obtain ⟨heap, hensure, hheap, hdata⟩ := h.heap.moved hrealloc hbuf hgrow hfresh
  refine ⟨_, hensure, ⟨hheap, hword, ?_, h.working_eq, ?_⟩, rfl, rfl, rfl, hdata⟩
  · simp only [moved, List.length_append, List.length_map, List.length_range', hbuf]
    omega
  · intro a ha
    rcases List.mem_append.mp ha with ha | ha
    · obtain ⟨b, hb, rfl⟩ := List.mem_map.mp ha
      obtain ⟨i, hi, rfl⟩ := h.entry b hb
      exact ⟨i, hi.trans hgrow, blockAddr_add_delta _ _ _ _⟩
    · obtain ⟨i, hi, rfl⟩ := List.mem_map.mp ha
      rw [List.mem_range'_1] at hi
      exact ⟨i, show i < size by omega, rfl⟩

/-- A store of user data keeps the pool consistent and the data of the other blocks. -/
theorem Consistent.set_data (h : Consistent pool inUse) {i : Nat} (hi : i < pool.size)
    (bytes : List UInt8) :
    setData i bytes pool = .ok (pool.written i bytes) ∧ Consistent (pool.written i bytes) inUse ∧
      ∀ j < pool.size, j ≠ i → (pool.written i bytes).bytes j = pool.bytes j := by
  obtain ⟨hset, hheap⟩ := h.heap.set_data hi bytes
  refine ⟨hset, ⟨hheap, h.size_lt, h.buf_length, h.working_eq, h.entry⟩, ?_⟩
  intro j hj hne
  exact Function.update_of_ne (fun heq => hne (h.heap.block_inj hj hi heq)) _ _

end ListMemoryPool

end HakunaMatata
