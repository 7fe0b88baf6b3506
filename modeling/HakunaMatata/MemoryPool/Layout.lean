import HakunaMatata.Base.Extents
import HakunaMatata.Base.Machine
import HakunaMatata.MemoryPool.Steps

/-!
# Where the blocks of the pool lie

A `Layout` is a pool with the buffers that it has obtained from `malloc`, the block pointers that it
has created and those that are handed out. They are read off the pool: a new buffer from
`memoryPoolDataBufs`, new pointers from the part of `memoryPoolPtrBuf` that a growth adds. The size
that `malloc` is asked for is a product in `unsigned int`, so a buffer may be smaller than its
blocks together. `blocks_apart_iff` says for every run that all pointers in the pool and all that
are handed out were created as blocks, and that the blocks are apart inside the buffers exactly if
the product wraps neither at the start nor when the pool is doubled.
-/

namespace HakunaMatata

open Base

namespace MemoryPool

/-- A pool, the buffers it has obtained, the pointers it has created and those handed out. -/
structure Layout where
  pool : MemoryPool
  buffers : List Extent
  created : List Nat
  handedOut : List Nat
  deriving DecidableEq, Repr

/-- The bytes of the blocks. -/
def Layout.blocks (s : Layout) : List Extent :=
  s.created.map fun pointer => ⟨pointer, s.pool.blockSize⟩

/-- Every block lies inside a buffer, and different blocks have no byte in common. -/
structure Layout.Apart (s : Layout) : Prop where
  inside : ∀ block ∈ s.blocks, ∃ buffer ∈ s.buffers, block.Inside buffer
  pairwise : s.blocks.Pairwise Extent.Apart

/-- Every pointer in the pool and every pointer that is handed out was created as that of a
block. -/
structure Layout.Tied (s : Layout) : Prop where
  stored : ∀ pointer ∈ s.pool.memoryPoolPtrBuf, pointer ∈ s.created
  handedOut : ∀ pointer ∈ s.handedOut, pointer ∈ s.created

/-- What `malloc(block_size * count)` returns, where the product is an `unsigned int`. -/
def dataBuffer (dataBuf blockSize count : Nat) : Extent :=
  ⟨dataBuf, u32 (blockSize * count)⟩

/-- The state after `MemoryPoolInit`. -/
def Layout.start (malloc : Malloc) (initCapacity blockSize : Nat) : Layout where
  pool := memoryPoolInit malloc initCapacity blockSize
  buffers := [dataBuffer malloc.dataBuf blockSize (initialCapacity initCapacity)]
  created := (memoryPoolInit malloc initCapacity blockSize).memoryPoolPtrBuf
  handedOut := []

/-- The buffers that the pool has more than before. -/
def Layout.newBuffers (s : Layout) (pool : MemoryPool) : List Extent :=
  (pool.memoryPoolDataBufs.drop s.pool.memoryPoolDataBufs.length).map fun dataBuf =>
    dataBuffer dataBuf pool.blockSize (pool.capacity - s.pool.capacity)

/-- The layout after an operation has changed the pool. -/
def Layout.after (s : Layout) (pool : MemoryPool) (handedOut : List Nat) : Layout where
  pool := pool
  buffers := s.buffers ++ s.newBuffers pool
  created := s.created ++ pool.memoryPoolPtrBuf.drop s.pool.capacity
  handedOut := handedOut

inductive LayoutOp where
  | alloc (malloc : Malloc)
  | free (block : Nat)

def Layout.exec (s : Layout) : LayoutOp → Except Fault Layout
  | .alloc malloc => do
    let allocated ← memoryPoolAlloc malloc s.pool
    pure (s.after allocated.2 (s.handedOut ++ [allocated.1]))
  | .free block => do
    let pool ← memoryPoolFree block s.pool
    pure (s.after pool (s.handedOut.erase block))

/-- `malloc` returns bytes of no earlier buffer, and a block that is freed is handed out. -/
def Layout.Allowed (s : Layout) : LayoutOp → Prop
  | .alloc malloc => ∀ allocated, memoryPoolAlloc malloc s.pool = .ok allocated →
      ∀ new ∈ s.newBuffers allocated.2, ∀ buffer ∈ s.buffers, buffer.Apart new
  | .free block => block ∈ s.handedOut

instance Layout.decidableAllowed (s : Layout) (op : LayoutOp) : Decidable (s.Allowed op) :=
  match op with
  | .alloc _ => inferInstanceAs (Decidable (∀ _, _ → _))
  | .free _ => inferInstanceAs (Decidable (_ ∈ _))

/-- An operation that is allowed. -/
def Layout.step (s : Layout) (op : LayoutOp) : Except Fault Layout :=
  if s.Allowed op then s.exec op else .error .assertion

/-- The allocation doubles the pool: all blocks are in use, and twice the capacity is an
`unsigned int`. -/
def Layout.Doubles (s : Layout) : LayoutOp → Prop
  | .alloc _ => s.pool.used = s.pool.capacity ∧ s.pool.capacity < 2 ^ 31
  | .free _ => False

instance Layout.decidableDoubles (s : Layout) (op : LayoutOp) : Decidable (s.Doubles op) :=
  match op with
  | .alloc _ => inferInstanceAs (Decidable (_ ∧ _))
  | .free _ => inferInstanceAs (Decidable False)

/-! ## Buffers and their blocks -/

/-- A data buffer, and the number of blocks in it. -/
structure Region where
  dataBuf : Nat
  count : Nat

def Region.buffer (blockSize : Nat) (r : Region) : Extent :=
  dataBuffer r.dataBuf blockSize r.count

/-- The bytes of the blocks. -/
def Region.blocks (blockSize : Nat) (r : Region) : List Extent :=
  (blockAddresses r.dataBuf blockSize r.count).map fun address => ⟨address, blockSize⟩

section Regions

variable {blockSize : Nat} {regions : List Region}

theorem length_blocks (blockSize : Nat) (r : Region) : (r.blocks blockSize).length = r.count := by
  rw [Region.blocks, List.length_map, length_block_addresses]

theorem size_of_mem_blocks {r : Region} {block : Extent} (h : block ∈ r.blocks blockSize) :
    block.size = blockSize := by
  obtain ⟨address, _, rfl⟩ := List.mem_map.mp h
  rfl

theorem totalSize_blocks (blockSize : Nat) (r : Region) :
    Extent.totalSize (r.blocks blockSize) = blockSize * r.count := by
  rw [Extent.totalSize_of_size fun _ => size_of_mem_blocks, length_blocks, Nat.mul_comm]

/-- The blocks of all regions together take at least the bytes of the buffers, and more if one of
the products wraps. -/
theorem totalSize_buffers_le (blockSize : Nat) (regions : List Region) :
    Extent.totalSize (regions.map (Region.buffer blockSize)) ≤
      Extent.totalSize (regions.flatMap (Region.blocks blockSize)) := by
  induction regions with
  | nil => exact Nat.le_refl 0
  | cons r regions ih =>
    rw [List.flatMap_cons, Extent.totalSize_append, totalSize_blocks, List.map_cons,
      Extent.totalSize]
    exact Nat.add_le_add (Nat.mod_le _ _) ih

theorem lt_of_totalSize_le
    (h : Extent.totalSize (regions.flatMap (Region.blocks blockSize)) ≤
      Extent.totalSize (regions.map (Region.buffer blockSize))) :
    ∀ r ∈ regions, blockSize * r.count < 2 ^ 32 := by
  induction regions with
  | nil => exact fun r hr => absurd hr List.not_mem_nil
  | cons first regions ih =>
    rw [List.flatMap_cons, Extent.totalSize_append, totalSize_blocks, List.map_cons,
      Extent.totalSize] at h
    have hle := totalSize_buffers_le blockSize regions
    have hfirst : u32 (blockSize * first.count) ≤ blockSize * first.count := Nat.mod_le _ _
    intro r hr
    rcases List.mem_cons.mp hr with rfl | hrest
    · have heq : u32 (blockSize * r.count) = blockSize * r.count := by
        change _ ≤ u32 (blockSize * r.count) + _ at h
        omega
      rw [← heq]
      exact Nat.mod_lt _ (by decide)
    · refine ih ?_ r hrest
      change _ ≤ u32 (blockSize * first.count) + _ at h
      omega

/-- If the product does not wrap, the blocks follow one another in the buffer. -/
theorem blocks_eq_tiles {r : Region} (h : blockSize * r.count < 2 ^ 32) :
    r.blocks blockSize = Extent.tiles r.dataBuf blockSize r.count := by
  rw [Region.blocks, blockAddresses, List.map_map, Extent.tiles]
  refine List.map_congr_left fun i hi => ?_
  have hmul : i * blockSize ≤ r.count * blockSize :=
    Nat.mul_le_mul_right blockSize (Nat.le_of_lt (List.mem_range.mp hi))
  rw [Nat.mul_comm r.count] at hmul
  show Extent.mk (r.dataBuf + u32 (i * blockSize)) blockSize = _
  rw [u32_of_lt (Nat.lt_of_le_of_lt hmul h)]

theorem inside_buffer {r : Region} (h : blockSize * r.count < 2 ^ 32) {block : Extent}
    (hblock : block ∈ r.blocks blockSize) : block.Inside (r.buffer blockSize) := by
  rw [blocks_eq_tiles h] at hblock
  rw [Region.buffer, dataBuffer, u32_of_lt h]
  exact Extent.inside_of_mem_tiles hblock

theorem pairwise_blocks (hbuffers : (regions.map (Region.buffer blockSize)).Pairwise Extent.Apart)
    (h : ∀ r ∈ regions, blockSize * r.count < 2 ^ 32) :
    (regions.flatMap (Region.blocks blockSize)).Pairwise Extent.Apart := by
  rw [List.pairwise_flatMap]
  refine ⟨fun r hr => ?_, ?_⟩
  · rw [blocks_eq_tiles (h r hr)]
    exact Extent.tiles_pairwise _ _ _
  · refine (List.pairwise_map.mp hbuffers).imp_of_mem ?_
    intro r r' hr hr' hapart block hblock block' hblock'
    exact hapart.of_inside (inside_buffer (h r hr) hblock) (inside_buffer (h r' hr') hblock')

end Regions

/-! ## What every run keeps -/

/-- The buffers and the created pointers are those of the regions, the indices are inside the
pointer buffer, and the ring is valid as long as the capacity can be doubled. -/
structure Laid (blockSize : Nat) (regions : List Region) (s : Layout) : Prop where
  blockSize_eq : s.pool.blockSize = blockSize
  buffers_eq : s.buffers = regions.map (Region.buffer blockSize)
  created_eq : s.created = regions.flatMap fun r => blockAddresses r.dataBuf blockSize r.count
  apart : s.buffers.Pairwise Extent.Apart
  length_eq : s.pool.capacity = s.pool.memoryPoolPtrBuf.length
  alloc_lt : s.pool.allocIndex < s.pool.capacity
  free_lt : s.pool.freeIndex < s.pool.capacity
  capacity_lt : s.pool.capacity < 2 ^ 32
  tied : s.Tied
  valid : s.pool.capacity < 2 ^ 31 → s.pool.Valid ∧ s.handedOut.length = s.pool.used

section Runs

variable {blockSize : Nat} {regions : List Region} {s : Layout}

/-- The blocks are apart inside buffers exactly if the size of no buffer wraps. -/
theorem Laid.apart_iff (h : Laid blockSize regions s) :
    s.Apart ↔ ∀ r ∈ regions, blockSize * r.count < 2 ^ 32 := by
  have hbuffers := h.apart
  have hblocks : s.blocks = regions.flatMap (Region.blocks blockSize) := by
    rw [Layout.blocks, h.created_eq, h.blockSize_eq, List.map_flatMap]
    rfl
  rw [h.buffers_eq] at hbuffers
  constructor
  · rintro ⟨hinside, hpairwise⟩
    rw [hblocks] at hinside hpairwise
    rw [h.buffers_eq] at hinside
    exact lt_of_totalSize_le (Extent.totalSize_le_of_inside hpairwise hinside)
  · intro hcounts
    constructor
    · rw [hblocks, h.buffers_eq]
      intro block hblock
      obtain ⟨r, hr, hblock⟩ := List.mem_flatMap.mp hblock
      exact ⟨_, List.mem_map_of_mem hr, inside_buffer (hcounts r hr) hblock⟩
    · rw [hblocks]
      exact pairwise_blocks hbuffers hcounts

theorem laid_start (malloc : Malloc) {initCapacity : Nat} (hcapacity : initCapacity < 2 ^ 32)
    (blockSize : Nat) :
    Laid blockSize [⟨malloc.dataBuf, initialCapacity initCapacity⟩]
      (.start malloc initCapacity blockSize) where
  blockSize_eq := rfl
  buffers_eq := rfl
  created_eq := by simp [Layout.start, memoryPoolInit]
  apart := List.pairwise_singleton _ _
  length_eq := (init_valid malloc hcapacity blockSize).1.capacity_eq
  alloc_lt := (init_valid malloc hcapacity blockSize).1.alloc_lt
  free_lt := (init_valid malloc hcapacity blockSize).1.free_lt
  capacity_lt := (init_valid malloc hcapacity blockSize).1.capacity_lt
  tied := ⟨fun _ h => h, fun _ h => absurd h List.not_mem_nil⟩
  valid _ := ⟨(init_valid malloc hcapacity blockSize).1, rfl⟩

/-- The pool has obtained and created nothing. -/
structure Unchanged (pool pool' : MemoryPool) : Prop where
  dataBufs_eq : pool'.memoryPoolDataBufs = pool.memoryPoolDataBufs
  length_eq : pool'.memoryPoolPtrBuf.length = pool.memoryPoolPtrBuf.length
  capacity_eq : pool'.capacity = pool.capacity
  blockSize_eq : pool'.blockSize = pool.blockSize

theorem Laid.after_unchanged (h : Laid blockSize regions s) {pool' : MemoryPool}
    (hsame : Unchanged s.pool pool') (handedOut : List Nat) :
    s.after pool' handedOut = ⟨pool', s.buffers, s.created, handedOut⟩ := by
  have hlength : pool'.memoryPoolPtrBuf.length ≤ s.pool.capacity := by
    rw [hsame.length_eq, h.length_eq]
  simp [Layout.after, Layout.newBuffers, hsame.dataBufs_eq, List.drop_eq_nil_of_le hlength]

theorem Laid.of_unchanged (h : Laid blockSize regions s) {pool' : MemoryPool}
    {handedOut : List Nat} (hsame : Unchanged s.pool pool')
    (halloc : pool'.allocIndex < s.pool.capacity) (hfree : pool'.freeIndex < s.pool.capacity)
    (hstored : ∀ pointer ∈ pool'.memoryPoolPtrBuf, pointer ∈ s.created)
    (hhanded : ∀ pointer ∈ handedOut, pointer ∈ s.created)
    (hvalid : s.pool.capacity < 2 ^ 31 → pool'.Valid ∧ handedOut.length = pool'.used) :
    Laid blockSize regions (s.after pool' handedOut) := by
  rw [h.after_unchanged hsame]
  exact {
    blockSize_eq := hsame.blockSize_eq.trans h.blockSize_eq
    buffers_eq := h.buffers_eq
    created_eq := h.created_eq
    apart := h.apart
    length_eq := hsame.capacity_eq.trans (h.length_eq.trans hsame.length_eq.symm)
    alloc_lt := halloc.trans_eq hsame.capacity_eq.symm
    free_lt := hfree.trans_eq hsame.capacity_eq.symm
    capacity_lt := hsame.capacity_eq.trans_lt h.capacity_lt
    tied := ⟨hstored, hhanded⟩
    valid := fun hlt => hvalid (hsame.capacity_eq.symm.trans_lt hlt) }

/-- The pool after it has handed out a block. -/
def taken (pool : MemoryPool) : MemoryPool :=
  { pool with
    allocIndex := advance pool.allocIndex pool.capacity
    used := u32 (pool.used + 1)
    peak := if u32 (pool.used + 1) > pool.peak then u32 (pool.used + 1) else pool.peak }

/-- An allocation that does not double the pool hands out a pointer that is stored. -/
theorem alloc_eq_taken {pool : MemoryPool} (malloc : Malloc)
    (hlt : pool.allocIndex < pool.memoryPoolPtrBuf.length) (hcapacity : pool.capacity < 2 ^ 32)
    (hkept : pool.used ≠ pool.capacity ∨ 2 ^ 31 ≤ pool.capacity) :
    memoryPoolAlloc malloc pool =
      .ok (pool.memoryPoolPtrBuf.get ⟨pool.allocIndex, hlt⟩, taken pool) := by
  by_cases hfull : pool.used = pool.capacity
  · have hlarge := hkept.resolve_left (not_not.mpr hfull)
    have hwraps : u32 (pool.capacity * 2) < pool.capacity := by
      unfold u32
      omega
    simp only [memoryPoolAlloc, if_pos hfull, ensure_space_of_lt malloc hwraps, load_of_lt hlt,
      ok_bind]
    rfl
  · simp only [memoryPoolAlloc, if_neg hfull, load_of_lt hlt, bind, Except.bind, pure, Except.pure]
    rfl

theorem unchanged_taken (pool : MemoryPool) : Unchanged pool (taken pool) :=
  ⟨rfl, rfl, rfl, rfl⟩

theorem Laid.stored_lt (h : Laid blockSize regions s) :
    s.pool.allocIndex < s.pool.memoryPoolPtrBuf.length :=
  h.alloc_lt.trans_eq h.length_eq

theorem Laid.take (h : Laid blockSize regions s)
    (hkept : s.pool.used ≠ s.pool.capacity ∨ 2 ^ 31 ≤ s.pool.capacity) :
    Laid blockSize regions (s.after (taken s.pool)
      (s.handedOut ++ [s.pool.memoryPoolPtrBuf.get ⟨s.pool.allocIndex, h.stored_lt⟩])) := by
  refine h.of_unchanged (unchanged_taken s.pool) (advance_lt h.alloc_lt) h.free_lt h.tied.stored ?_
    fun hsmall => ?_
  · intro pointer hpointer
    rcases List.mem_append.mp hpointer with hold | hnew
    · exact h.tied.handedOut pointer hold
    · obtain rfl := List.mem_singleton.mp hnew
      exact h.tied.stored _ (List.get_mem _ _)
  · obtain ⟨hvalid, hcount⟩ := h.valid hsmall
    have hused : s.pool.used < s.pool.capacity :=
      Nat.lt_of_le_of_ne hvalid.used_le (hkept.resolve_right (Nat.not_le.mpr hsmall))
    obtain ⟨block, pool', halloc, hvalid', _, hused'⟩ := alloc_of_not_full hvalid hused ⟨0, id⟩
    cases (alloc_eq_taken _ h.stored_lt h.capacity_lt hkept).symm.trans halloc
    exact ⟨hvalid', by rw [List.length_append, hcount, hused']; rfl⟩

theorem Laid.free (h : Laid blockSize regions s) {block : Nat} (hblock : block ∈ s.handedOut) :
    ∃ pool', memoryPoolFree block s.pool = .ok pool' ∧
      Laid blockSize regions (s.after pool' (s.handedOut.erase block)) := by
  have hlt : s.pool.freeIndex < s.pool.memoryPoolPtrBuf.length := h.free_lt.trans_eq h.length_eq
  have hfree : memoryPoolFree block s.pool = .ok { s.pool with
      memoryPoolPtrBuf := s.pool.memoryPoolPtrBuf.set s.pool.freeIndex block
      freeIndex := advance s.pool.freeIndex s.pool.capacity
      used := u32 (s.pool.used + (2 ^ 32 - 1)) } := by
    rw [memoryPoolFree, store_of_lt hlt]
    rfl
  refine ⟨_, hfree, h.of_unchanged ⟨rfl, List.length_set, rfl, rfl⟩ h.alloc_lt
    (advance_lt h.free_lt) ?_ ?_ fun hsmall => ?_⟩
  · intro pointer hpointer
    rcases List.mem_or_eq_of_mem_set hpointer with hold | rfl
    · exact h.tied.stored pointer hold
    · exact h.tied.handedOut pointer hblock
  · exact fun pointer hpointer => h.tied.handedOut pointer (List.mem_of_mem_erase hpointer)
  · obtain ⟨hvalid, hcount⟩ := h.valid hsmall
    have hpos : 0 < s.pool.used := hcount ▸ List.length_pos_of_mem hblock
    obtain ⟨pool', hfree', hvalid', _, hused'⟩ := free_of_valid hvalid hpos block
    cases hfree.symm.trans hfree'
    exact ⟨hvalid', by rw [List.length_erase_of_mem hblock, hcount, hused']⟩

/-- A full pool with the blocks that a doubling adds. -/
def doubled (malloc : Malloc) (pool : MemoryPool) : MemoryPool :=
  pool.grown malloc (pool.capacity * 2)
    (pool.ring.relayout (blockAddresses malloc.dataBuf pool.blockSize pool.capacity))

theorem Valid.doubled {pool : MemoryPool} (h : pool.Valid) (malloc : Malloc)
    (hfull : pool.used = pool.capacity) (hsmall : pool.capacity < 2 ^ 31) :
    (doubled malloc pool).Valid ∧
      memoryPoolEnsureSpace malloc (u32 (pool.capacity * 2)) pool = .ok (doubled malloc pool) := by
  have hpos : 0 < pool.capacity := Nat.lt_of_le_of_lt (Nat.zero_le _) h.alloc_lt
  have hcount : pool.capacity * 2 - pool.capacity = pool.capacity := by omega
  constructor
  · refine (grown_relayout_valid h malloc (by omega) (by omega) (by omega) ?_).1
    rw [length_block_addresses, hcount]
  · rw [u32_of_lt (by omega), ensure_space_relayout h (by omega) malloc (by omega), hcount]
    rfl

theorem Laid.newBuffers_doubled (h : Laid blockSize regions s) (malloc : Malloc) :
    s.newBuffers (doubled malloc s.pool) =
      [Region.buffer blockSize ⟨malloc.dataBuf, s.pool.capacity⟩] := by
  have hcount : s.pool.capacity * 2 - s.pool.capacity = s.pool.capacity := by omega
  simp [Layout.newBuffers, doubled, grown, Region.buffer, hcount, h.blockSize_eq]

theorem Laid.drop_doubled (h : Laid blockSize regions s) (malloc : Malloc)
    (hvalid : s.pool.Valid) :
    (doubled malloc s.pool).memoryPoolPtrBuf.drop s.pool.capacity =
      blockAddresses malloc.dataBuf blockSize s.pool.capacity := by
  have hsum := hvalid.ring_wf.length_relayout []
  rw [SlotRing.relayout, List.append_nil, List.length_nil, Nat.add_zero] at hsum
  rw [← h.blockSize_eq]
  exact List.drop_left' (hsum.trans h.length_eq.symm)

theorem Laid.double (h : Laid blockSize regions s) (malloc : Malloc)
    (hfull : s.pool.used = s.pool.capacity) (hsmall : s.pool.capacity < 2 ^ 31)
    (hfresh : ∀ buffer ∈ s.buffers,
      buffer.Apart (Region.buffer blockSize ⟨malloc.dataBuf, s.pool.capacity⟩)) :
    Laid blockSize (regions ++ [⟨malloc.dataBuf, s.pool.capacity⟩])
      (s.after (doubled malloc s.pool) s.handedOut) := by
  obtain ⟨hvalid, hcount⟩ := h.valid hsmall
  obtain ⟨hvalid', _⟩ := hvalid.doubled malloc hfull hsmall
  rw [Layout.after, h.newBuffers_doubled malloc, h.drop_doubled malloc hvalid]
  refine ⟨h.blockSize_eq, ?_, ?_, ?_, hvalid'.capacity_eq, hvalid'.alloc_lt, hvalid'.free_lt,
    hvalid'.capacity_lt, ⟨?_, ?_⟩, fun _ => ⟨hvalid', hcount⟩⟩
  · rw [List.map_append, h.buffers_eq]
    rfl
  · rw [List.flatMap_append, h.created_eq, List.flatMap_singleton]
  · rw [List.pairwise_append]
    refine ⟨h.apart, List.pairwise_singleton _ _, fun buffer hbuffer new hnew => ?_⟩
    obtain rfl := List.mem_singleton.mp hnew
    exact hfresh buffer hbuffer
  · -- the old pointers are copied, slots in use first, and the new ones are behind them
    intro pointer hpointer
    have hcells : pointer ∈ (s.pool.ring.stale ++ s.pool.ring.idle) ++
        blockAddresses malloc.dataBuf s.pool.blockSize s.pool.capacity := hpointer
    rw [h.blockSize_eq] at hcells
    refine List.mem_append.mpr ((List.mem_append.mp hcells).imp_left fun hold => ?_)
    refine h.tied.stored pointer ?_
    rcases List.mem_append.mp hold with hold | hold <;>
      exact List.mem_rotate.mp (List.mem_of_mem_take hold)
  · exact fun pointer hpointer => List.mem_append_left _ (h.tied.handedOut pointer hpointer)

theorem Laid.alloc_doubled (h : Laid blockSize regions s) (malloc : Malloc)
    (hfull : s.pool.used = s.pool.capacity) (hsmall : s.pool.capacity < 2 ^ 31)
    (hallowed : s.Allowed (.alloc malloc)) :
    ∃ s', s.exec (.alloc malloc) = .ok s' ∧
      Laid blockSize (regions ++ [⟨malloc.dataBuf, s.pool.capacity⟩]) s' := by
  obtain ⟨hvalid, hgrow⟩ := (h.valid hsmall).1.doubled malloc hfull hsmall
  have hroom : (doubled malloc s.pool).used ≠ (doubled malloc s.pool).capacity := by
    have hpos := h.alloc_lt
    show s.pool.used ≠ s.pool.capacity * 2
    omega
  have halloc := alloc_eq_taken malloc (hvalid.alloc_lt.trans_eq hvalid.capacity_eq)
    hvalid.capacity_lt (.inl hroom)
  rw [← alloc_of_full malloc hfull hgrow hroom] at halloc
  have hnew : Region.buffer blockSize ⟨malloc.dataBuf, s.pool.capacity⟩ ∈
      s.newBuffers (taken (doubled malloc s.pool)) :=
    List.mem_of_mem_head? (congrArg List.head? (h.newBuffers_doubled malloc))
  have hlaid := h.double malloc hfull hsmall (hallowed _ halloc _ hnew)
  have htaken := hlaid.take (.inl hroom)
  rw [hlaid.after_unchanged (unchanged_taken _)] at htaken
  exact ⟨_, by rw [Layout.exec, halloc]; rfl, htaken⟩

/-- The regions after an operation. -/
def regionsAfter (s : Layout) (regions : List Region) : LayoutOp → List Region
  | .alloc malloc =>
    if s.Doubles (.alloc malloc) then regions ++ [⟨malloc.dataBuf, s.pool.capacity⟩] else regions
  | .free _ => regions

theorem Laid.exec (h : Laid blockSize regions s) {op : LayoutOp} (hallowed : s.Allowed op) :
    ∃ s', s.exec op = .ok s' ∧ Laid blockSize (regionsAfter s regions op) s' := by
  cases op with
  | alloc malloc =>
    by_cases hdoubles : s.Doubles (.alloc malloc)
    · rw [regionsAfter, if_pos hdoubles]
      exact h.alloc_doubled malloc hdoubles.1 hdoubles.2 hallowed
    · have hkept : s.pool.used ≠ s.pool.capacity ∨ 2 ^ 31 ≤ s.pool.capacity := by
        simpa only [Layout.Doubles, not_and_or, Nat.not_lt] using hdoubles
      have halloc := alloc_eq_taken malloc h.stored_lt h.capacity_lt hkept
      rw [regionsAfter, if_neg hdoubles]
      exact ⟨_, by rw [Layout.exec, halloc]; rfl, h.take hkept⟩
  | free block =>
    obtain ⟨pool', hfree, hlaid⟩ := h.free hallowed
    exact ⟨_, by rw [Layout.exec, hfree]; rfl, hlaid⟩

/-- The size of a buffer that the operation adds does not wrap. -/
def Layout.NoWrap (s : Layout) (op : LayoutOp) : Prop :=
  s.Allowed op → s.Doubles op → s.pool.blockSize * s.pool.capacity < 2 ^ 32

instance Layout.decidableNoWrap (s : Layout) (op : LayoutOp) : Decidable (s.NoWrap op) :=
  inferInstanceAs (Decidable (_ → _ → _))

theorem Laid.forall_regionsAfter_iff (h : Laid blockSize regions s)
    (hcounts : ∀ r ∈ regions, blockSize * r.count < 2 ^ 32) {op : LayoutOp}
    (hallowed : s.Allowed op) :
    (∀ r ∈ regionsAfter s regions op, blockSize * r.count < 2 ^ 32) ↔ s.NoWrap op := by
  rw [Layout.NoWrap, h.blockSize_eq]
  cases op with
  | alloc malloc =>
    by_cases hdoubles : s.Doubles (.alloc malloc)
    · rw [regionsAfter, if_pos hdoubles, List.forall_mem_append, and_iff_right hcounts,
        List.forall_mem_singleton]
      exact ⟨fun hlt _ _ => hlt, fun hlt => hlt hallowed hdoubles⟩
    · rw [regionsAfter, if_neg hdoubles]
      exact iff_of_true hcounts fun _ hdouble => absurd hdouble hdoubles
  | free block => exact iff_of_true hcounts fun _ hdouble => hdouble.elim

theorem Laid.step (h : Laid blockSize regions s) {op : LayoutOp} {s' : Layout}
    (hstep : s.step op = .ok s') :
    s.Allowed op ∧ Laid blockSize (regionsAfter s regions op) s' := by
  unfold Layout.step at hstep
  split at hstep
  · rename_i hallowed
    obtain ⟨next, hnext, hlaid⟩ := h.exec hallowed
    cases hnext.symm.trans hstep
    exact ⟨hallowed, hlaid⟩
  · cases hstep

end Runs

/-- For every initial capacity, block size and sequence of allocations and releases, as far as each
one is allowed: at every point all pointers in the pool, and all that are handed out, were created
as those of blocks, and at every point the blocks are apart inside their buffers exactly if the
product of the block size with the initial capacity fits in 32 bits, and with the capacity before
each doubling. -/
theorem blocks_apart_iff (malloc : Malloc) (initCapacity blockSize : Nat)
    (hcapacity : initCapacity < 2 ^ 32) (ops : List LayoutOp) :
    Throughout Layout.step Layout.Tied (.start malloc initCapacity blockSize) ops ∧
    (Throughout Layout.step Layout.Apart (.start malloc initCapacity blockSize) ops ↔
      blockSize * initialCapacity initCapacity < 2 ^ 32 ∧
        Along Layout.step Layout.NoWrap (.start malloc initCapacity blockSize) ops) := by
  have hstart := laid_start malloc hcapacity blockSize
  constructor
  · have hlaid : Throughout Layout.step (fun s => ∃ regions, Laid blockSize regions s)
        (.start malloc initCapacity blockSize) ops := by
      refine throughout_of_step (fun s op s' h hstep => ?_) ⟨_, hstart⟩ ops
      obtain ⟨regions, h⟩ := h
      exact ⟨_, (h.step hstep).2⟩
    exact hlaid.mono fun s h => h.elim fun _ h => h.tied
  · have hfirst : (Layout.start malloc initCapacity blockSize).Apart ↔
        blockSize * initialCapacity initCapacity < 2 ^ 32 := by
      rw [hstart.apart_iff, List.forall_mem_singleton]
    by_cases hfits : blockSize * initialCapacity initCapacity < 2 ^ 32
    · rw [iff_true_intro hfits, true_and]
      have hstep : ∀ s op s', (∃ regions, Laid blockSize regions s ∧
          ∀ r ∈ regions, blockSize * r.count < 2 ^ 32) → s.step op = .ok s' →
          (s'.Apart ↔ s.NoWrap op) := by
        rintro s op s' ⟨regions, h, hcounts⟩ hs'
        obtain ⟨hallowed, hlaid⟩ := h.step hs'
        rw [hlaid.apart_iff, h.forall_regionsAfter_iff hcounts hallowed]
      refine throughout_iff_along_of_inv hstep ?_ ?_ ?_
        ⟨_, hstart, List.forall_mem_singleton.mpr hfits⟩
      · rintro s op s' ⟨regions, h, hcounts⟩ hs' hmeets
        obtain ⟨hallowed, hlaid⟩ := h.step hs'
        exact ⟨_, hlaid, (h.forall_regionsAfter_iff hcounts hallowed).mpr hmeets⟩
      · rintro s op fault ⟨regions, h, _⟩ hfault hallowed
        obtain ⟨next, hnext, _⟩ := h.exec hallowed
        rw [Layout.step, if_pos hallowed, hnext] at hfault
        cases hfault
      · rintro s ⟨regions, h, hcounts⟩
        exact h.apart_iff.mpr hcounts
    · exact iff_of_false (fun h => hfits (hfirst.mp h.head)) fun h => hfits h.1

/-- Two blocks of four bytes are handed out, and the pool doubles for a third one and takes the
first one back. -/
def doublingRun : List LayoutOp :=
  [.alloc ⟨0, id⟩, .alloc ⟨0, id⟩, .alloc ⟨2000, id⟩, .free 1000]

theorem blocks_apart_iff_doubled :
    (∃ s, doublingRun.foldlM Layout.step (.start ⟨1000, id⟩ 2 4) = .ok s ∧
      s.buffers = [⟨1000, 8⟩, ⟨2000, 8⟩] ∧ s.created = [1000, 1004, 2000, 2004] ∧
      s.handedOut = [1004, 2000]) ∧
    Throughout Layout.step Layout.Apart (.start ⟨1000, id⟩ 2 4) doublingRun := by
  refine ⟨⟨_, rfl, by decide, by decide, by decide⟩, ?_⟩
  exact (blocks_apart_iff ⟨1000, id⟩ 2 4 (by decide) doublingRun).2.mpr (by decide)

/-- Two blocks of half the 32-bit range: no byte is obtained for them. -/
theorem halves_not_apart :
    (Layout.start ⟨1000, id⟩ 2 (2 ^ 31)).buffers = [⟨1000, 0⟩] ∧
      ¬ (Layout.start ⟨1000, id⟩ 2 (2 ^ 31)).Apart := by
  refine ⟨by decide, fun h => ?_⟩
  obtain ⟨buffer, hbuffer, hinside⟩ := h.inside ⟨1000, 2 ^ 31⟩ (by decide)
  have hempty : buffer = ⟨1000, 0⟩ := List.mem_singleton.mp hbuffer
  rw [hempty] at hinside
  exact absurd hinside (by decide)

end MemoryPool

end HakunaMatata
