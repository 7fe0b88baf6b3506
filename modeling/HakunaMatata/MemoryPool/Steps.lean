import HakunaMatata.MemoryPool.Model

/-!
# What each pool operation does to the ring

One specification per function of `memory_pool.c`, over the ring of block addresses.
`alloc_eq_ring_alloc` and `free_eq_ring_put` are the two ring operations, and
`ensure_space_relayout` says that a growth with a block in use lays the ring out again and
appends the new blocks. `ensure_space_of_empty` is what the same code does when no block is in
use: it counts every idle slot as a slot in use.
-/

namespace HakunaMatata

open Base

namespace MemoryPool

/-- The pointer buffer with its two indices and the number of blocks in use. -/
def ring (pool : MemoryPool) : SlotRing Nat :=
  ⟨pool.memoryPoolPtrBuf, pool.allocIndex, pool.freeIndex, pool.used⟩

/-- The ring is well formed, and `capacity` is the length of the pointer buffer. -/
structure Valid (pool : MemoryPool) : Prop where
  ring_wf : pool.ring.WF
  capacity_eq : pool.capacity = pool.memoryPoolPtrBuf.length
  capacity_lt : pool.capacity < 2 ^ 32

variable {pool : MemoryPool}

theorem Valid.used_le (h : pool.Valid) : pool.used ≤ pool.capacity :=
  h.capacity_eq ▸ h.ring_wf.used_le

theorem Valid.alloc_lt (h : pool.Valid) : pool.allocIndex < pool.capacity :=
  h.capacity_eq ▸ h.ring_wf.alloc_lt

theorem Valid.free_lt (h : pool.Valid) : pool.freeIndex < pool.capacity :=
  h.capacity_eq ▸ h.ring_wf.free_lt

/-- The three positions the two indices of a valid pool can take to each other. -/
theorem Valid.index_cases (h : pool.Valid) :
    pool.used = 0 ∧ pool.freeIndex = pool.allocIndex ∨
      0 < pool.used ∧ pool.allocIndex + (pool.capacity - pool.used) < pool.capacity ∧
        pool.freeIndex = pool.allocIndex + (pool.capacity - pool.used) ∨
      0 < pool.used ∧ pool.used < pool.capacity ∧
        pool.freeIndex + pool.used = pool.allocIndex := by
  have halloc := h.alloc_lt
  have hused := h.used_le
  have hcases := h.ring_wf.aligned_cases
  simp only [ring, ← h.capacity_eq] at hcases
  omega

@[simp] theorem length_block_addresses (dataBuf blockSize count : Nat) :
    (blockAddresses dataBuf blockSize count).length = count := by
  simp [blockAddresses]

theorem init_valid (malloc : Malloc) {initCapacity : Nat} (hcapacity : initCapacity < 2 ^ 32)
    (blockSize : Nat) :
    (memoryPoolInit malloc initCapacity blockSize).Valid ∧
      (memoryPoolInit malloc initCapacity blockSize).ring.idle =
        blockAddresses malloc.dataBuf blockSize (initialCapacity initCapacity) := by
  have hpos : 0 < initialCapacity initCapacity ∧ initialCapacity initCapacity < 2 ^ 32 := by
    unfold initialCapacity
    split <;> omega
  refine ⟨⟨⟨?_, ?_, ?_, ?_⟩, ?_, hpos.2⟩, ?_⟩
  · simpa [ring, memoryPoolInit] using hpos.1
  · simpa [ring, memoryPoolInit] using hpos.1
  · simp [ring, memoryPoolInit]
  · simp [ring, memoryPoolInit]
  · simp [memoryPoolInit]
  · simp only [SlotRing.idle, ring, memoryPoolInit, Nat.sub_zero]
    rw [SlotRing.window_length (Nat.zero_le _)]
    simp

/-! ## Handing out and taking back -/

/-- On a pool that is not full, `MemoryPoolAlloc` is the ring's `alloc`. -/
theorem alloc_eq_ring_alloc {block : Nat} {r : SlotRing Nat}
    (hcapacity : pool.capacity = pool.memoryPoolPtrBuf.length) (hword : pool.capacity < 2 ^ 32)
    (hused : pool.used < pool.capacity) (halloc : pool.ring.alloc = some (block, r))
    (malloc : Malloc) :
    ∃ pool', memoryPoolAlloc malloc pool = .ok (block, pool') ∧ pool'.ring = r ∧
      pool'.memoryPoolPtrBuf = pool.memoryPoolPtrBuf ∧ pool'.capacity = pool.capacity := by
  simp only [SlotRing.alloc, ring, Option.map_eq_some_iff, Prod.mk.injEq] at halloc
  obtain ⟨_, hload, rfl, rfl⟩ := halloc
  obtain ⟨hlt, rfl⟩ := List.getElem?_eq_some_iff.mp hload
  have hu32 : u32 (pool.used + 1) = pool.used + 1 := u32_of_lt (by omega)
  refine ⟨{ pool with
    allocIndex := advance pool.allocIndex pool.capacity
    used := pool.used + 1
    peak := if pool.used + 1 > pool.peak then pool.used + 1 else pool.peak }, ?_, ?_, rfl, rfl⟩
  · simp only [memoryPoolAlloc, Nat.ne_of_lt hused, if_false, pure, Except.pure, bind,
      Except.bind, load_of_lt hlt, hu32]
  · simp only [ring, hcapacity]

theorem free_eq_ring_put (hcapacity : pool.capacity = pool.memoryPoolPtrBuf.length)
    (hlt : pool.freeIndex < pool.capacity) (hused : 0 < pool.used) (hword : pool.used < 2 ^ 32)
    (block : Nat) :
    ∃ pool', memoryPoolFree block pool = .ok pool' ∧ pool'.ring = pool.ring.put block ∧
      pool'.memoryPoolPtrBuf.length = pool.memoryPoolPtrBuf.length ∧
      pool'.capacity = pool.capacity := by
  rw [hcapacity] at hlt
  have hu32 : u32 (pool.used + (2 ^ 32 - 1)) = pool.used - 1 := u32_pred hused hword
  refine ⟨{ pool with
    memoryPoolPtrBuf := pool.memoryPoolPtrBuf.set pool.freeIndex block
    freeIndex := advance pool.freeIndex pool.capacity
    used := pool.used - 1 }, ?_, ?_, by simp, rfl⟩
  · simp only [memoryPoolFree, store_of_lt hlt, hu32, bind, Except.bind, pure, Except.pure]
  · simp only [ring, SlotRing.put, hcapacity]

/-- `MemoryPoolAlloc` on a valid pool that is not full hands out the first idle block. -/
theorem alloc_of_not_full (h : pool.Valid) (hused : pool.used < pool.capacity) (malloc : Malloc) :
    ∃ block pool', memoryPoolAlloc malloc pool = .ok (block, pool') ∧ pool'.Valid ∧
      pool.ring.idle = block :: pool'.ring.idle ∧ pool'.used = pool.used + 1 := by
  obtain ⟨block, r', halloc, hwf, hidle, -, hcount⟩ := h.ring_wf.alloc (h.capacity_eq ▸ hused)
  obtain ⟨pool', hexec, rfl, hbuf, hcapacity⟩ :=
    alloc_eq_ring_alloc h.capacity_eq h.capacity_lt hused halloc malloc
  refine ⟨block, pool', hexec, ⟨hwf, ?_, ?_⟩, hidle, hcount⟩
  · rw [hcapacity, hbuf, h.capacity_eq]
  · rw [hcapacity]
    exact h.capacity_lt

/-- `MemoryPoolFree` on a valid pool with a block in use puts the block behind the idle ones. -/
theorem free_of_valid (h : pool.Valid) (hused : 0 < pool.used) (block : Nat) :
    ∃ pool', memoryPoolFree block pool = .ok pool' ∧ pool'.Valid ∧
      pool'.ring.idle = pool.ring.idle ++ [block] ∧ pool'.used = pool.used - 1 := by
  have hle := h.used_le
  have hlt := h.capacity_lt
  obtain ⟨hwf, hidle⟩ := h.ring_wf.put hused block
  obtain ⟨pool', hexec, hring, hlength, hcapacity⟩ :=
    free_eq_ring_put h.capacity_eq h.free_lt hused (by omega) block
  refine ⟨pool', hexec, ⟨hring ▸ hwf, ?_, ?_⟩, hring ▸ hidle, congrArg SlotRing.used hring⟩
  · rw [hcapacity, hlength, h.capacity_eq]
  · rw [hcapacity]
    exact h.capacity_lt

/-! ## Copying sections -/

/-- The entries of a section. -/
def Section.slice (sec : Section) (source : List Nat) : List Nat :=
  (source.drop sec.start).take sec.num

/-- The section lies inside an array of this length. -/
def Section.Inside (sec : Section) (length : Nat) : Prop :=
  sec.start + sec.num ≤ length

theorem Section.Inside.length_slice {sec : Section} {source : List Nat}
    (h : sec.Inside source.length) : (sec.slice source).length = sec.num := by
  unfold Section.Inside at h
  simp [Section.slice]
  omega

/-- The first entries of a target of length `capacity` are written, and the offset is behind
them. -/
def Filled (capacity : Nat) (written : List Nat) (target : List Nat × Nat) : Prop :=
  ∃ rest, target = (written ++ rest, written.length) ∧ written.length + rest.length = capacity

theorem filled_uninit (junk : Nat → Nat) (capacity : Nat) :
    Filled capacity [] (uninit junk capacity, 0) :=
  ⟨uninit junk capacity, by simp, by simp⟩

variable {capacity : Nat} {written source : List Nat} {target : List Nat × Nat} {sec : Section}

theorem Filled.copy_section (h : Filled capacity written target) (hsec : sec.Inside source.length)
    (hroom : written.length + sec.num ≤ capacity) :
    ∃ target', copySection source sec target = .ok target' ∧
      Filled capacity (written ++ sec.slice source) target' := by
  obtain ⟨rest, rfl, hlength⟩ := h
  have hslice := hsec.length_slice
  refine ⟨((written ++ sec.slice source) ++ rest.drop sec.num, written.length + sec.num), ?_,
    rest.drop sec.num, ?_, ?_⟩
  · have hcopy := memcpy_append written hsec (show sec.num ≤ rest.length by omega)
    simp only [copySection, hcopy, bind, Except.bind, pure, Except.pure, Section.slice]
  · rw [List.length_append, hslice]
  · rw [List.length_append, List.length_drop, hslice]
    omega

/-- Copying a section only when it is not empty comes to the same. -/
theorem Filled.copy_nonempty (h : Filled capacity written target)
    (hsec : sec.Inside source.length) (hroom : written.length + sec.num ≤ capacity) :
    ∃ target', copyNonempty source sec target = .ok target' ∧
      Filled capacity (written ++ sec.slice source) target' := by
  unfold copyNonempty
  split
  · exact h.copy_section hsec hroom
  · rename_i hzero
    have hempty : sec.slice source = [] := by simp [Section.slice, show sec.num = 0 by omega]
    exact ⟨target, rfl, by simpa [hempty] using h⟩

/-- The sections lie inside the pointer buffer, the first one is not empty, and they list the slots
in use and the idle slots. -/
structure Sections.Split (secs : Sections) (source used idle : List Nat) : Prop where
  free1_pos : 0 < secs.free1.num
  free1_inside : secs.free1.Inside source.length
  free2_inside : secs.free2.Inside source.length
  alloc1_inside : secs.alloc1.Inside source.length
  alloc2_inside : secs.alloc2.Inside source.length
  free_eq : secs.free1.slice source ++ secs.free2.slice source = used
  alloc_eq : secs.alloc1.slice source ++ secs.alloc2.slice source = idle

/-- Two sections that meet at the end of the array list a window that passes the end. -/
theorem slices_eq_window {source : List Nat} {start stop count : Nat}
    (hstart : start < source.length) (hstop : stop ≤ start)
    (hcount : start + count = source.length + stop) :
    Section.slice ⟨start, source.length - start⟩ source ++ Section.slice ⟨0, stop⟩ source =
      SlotRing.window source start count := by
  have hrest : start + count - source.length = stop := by omega
  rw [SlotRing.window_eq_wrap (by omega) (by omega) (by omega), hrest]
  simp only [Section.slice, List.drop_zero]
  rw [List.take_of_length_le (by rw [List.length_drop])]

theorem slice_eq_window {source : List Nat} {start count : Nat}
    (h : start + count ≤ source.length) :
    Section.slice ⟨start, count⟩ source ++ Section.null.slice source =
      SlotRing.window source start count := by
  rw [SlotRing.window_eq_slice h]
  simp [Section.slice, Section.null]

/-- With a block in use, comparing the two indices finds the slots in use and the idle ones. -/
theorem Valid.sections_split (h : pool.Valid) (hused : 0 < pool.used) :
    ∃ secs, sections pool = .ok secs ∧
      secs.Split pool.memoryPoolPtrBuf pool.ring.stale pool.ring.idle := by
  have halloc := h.alloc_lt
  have hfree := h.free_lt
  have hle := h.used_le
  have hlength := h.capacity_eq
  rcases h.index_cases with ⟨hzero, -⟩ | ⟨-, hlt, hindex⟩ | ⟨-, hnotfull, hindex⟩
  · omega
  · by_cases hfull : pool.used = pool.capacity
    · have heq : pool.allocIndex = pool.freeIndex := by omega
      refine ⟨_, by rw [sections, if_pos hfull, if_pos heq], ?_, ?_, ?_, ?_, ?_, ?_, ?_⟩
      · exact Nat.sub_pos_of_lt hfree
      · simp only [Section.Inside]
        omega
      · simp only [Section.Inside]
        omega
      · simp [Section.Inside, Section.null]
      · simp [Section.Inside, Section.null]
      · have hsum : pool.freeIndex + pool.used =
            pool.memoryPoolPtrBuf.length + pool.freeIndex := by omega
        simp only [hlength]
        exact slices_eq_window (by omega) (by omega) hsum
      · simp [Section.slice, Section.null, SlotRing.idle, ring, SlotRing.window, ← hlength, hfull]
    · refine ⟨_, by rw [sections, if_neg hfull, if_neg (by omega)], ?_, ?_, ?_, ?_, ?_, ?_, ?_⟩
      · exact Nat.sub_pos_of_lt hfree
      · simp only [Section.Inside]
        omega
      · simp only [Section.Inside]
        omega
      · simp only [Section.Inside]
        omega
      · simp [Section.Inside, Section.null]
      · have hsum : pool.freeIndex + pool.used =
            pool.memoryPoolPtrBuf.length + pool.allocIndex := by omega
        simp only [hlength]
        exact slices_eq_window (by omega) (by omega) hsum
      · have hidle : pool.freeIndex - pool.allocIndex =
            pool.memoryPoolPtrBuf.length - pool.used := by omega
        simp only [hidle]
        exact slice_eq_window (by omega)
  · refine ⟨_, by rw [sections, if_neg (by omega), if_pos (by omega)], ?_, ?_, ?_, ?_, ?_, ?_, ?_⟩
    · exact Nat.sub_pos_of_lt (by omega)
    · simp only [Section.Inside]
      omega
    · simp [Section.Inside, Section.null]
    · simp only [Section.Inside]
      omega
    · simp only [Section.Inside]
      omega
    · have hstale : pool.allocIndex - pool.freeIndex = pool.used := by omega
      simp only [hstale]
      exact slice_eq_window (by omega)
    · have hsum : pool.allocIndex + (pool.memoryPoolPtrBuf.length - pool.used) =
          pool.memoryPoolPtrBuf.length + pool.freeIndex := by omega
      simp only [hlength]
      exact slices_eq_window (by omega) (by omega) hsum

/-! ## Growing -/

/-- The pool after a growth that laid the ring out as `r`. -/
def grown (pool : MemoryPool) (malloc : Malloc) (capacity : Nat) (r : SlotRing Nat) : MemoryPool :=
  { pool with
    memoryPoolDataBufs := pool.memoryPoolDataBufs ++ [malloc.dataBuf]
    memoryPoolPtrBuf := r.cells
    allocIndex := r.allocIndex
    freeIndex := r.freeIndex
    capacity := capacity
    numBuf := u32 (pool.numBuf + 1) }

/-- A growth copies the sections behind each other and appends the addresses of the new blocks. -/
theorem ensure_space_of_split {secs : Sections} {used idle : List Nat} (malloc : Malloc)
    {capacity : Nat} (hcapacity : pool.capacity ≤ capacity) (hsections : sections pool = .ok secs)
    (hsplit : secs.Split pool.memoryPoolPtrBuf used idle)
    (hlength : used.length + idle.length = pool.capacity) :
    memoryPoolEnsureSpace malloc capacity pool = .ok (pool.grown malloc capacity
      ⟨used ++ idle ++
        blockAddresses malloc.dataBuf pool.blockSize (capacity - pool.capacity),
        used.length, 0, pool.used⟩) := by
  obtain ⟨hpos, hf1, hf2, ha1, ha2, hfree, halloc⟩ := hsplit
  have hfreeLength : secs.free1.num + secs.free2.num = used.length := by
    rw [← hfree, List.length_append, hf1.length_slice, hf2.length_slice]
  have hallocLength : secs.alloc1.num + secs.alloc2.num = idle.length := by
    rw [← halloc, List.length_append, ha1.length_slice, ha2.length_slice]
  obtain ⟨t1, hcopy1, ht1⟩ := (filled_uninit malloc.ptrBufContents capacity).copy_section hf1
    (by simp; omega)
  obtain ⟨t2, hcopy2, ht2⟩ := ht1.copy_nonempty hf2
    (by simp [hf1.length_slice]; omega)
  rw [List.nil_append, hfree] at ht2
  obtain ⟨t3, hcopy3, ht3⟩ := ht2.copy_section ha1 (by omega)
  obtain ⟨t4, hcopy4, ht4⟩ := ht3.copy_nonempty ha2
    (by rw [List.length_append, ha1.length_slice]; omega)
  rw [List.append_assoc, halloc] at ht4
  obtain ⟨_, rfl, _⟩ := ht2
  obtain ⟨rest, rfl, hrest⟩ := ht4
  rw [List.length_append] at hrest
  have hblocks : 0 + (capacity - pool.capacity) ≤
      (blockAddresses malloc.dataBuf pool.blockSize (capacity - pool.capacity)).length := by simp
  have hinit := memcpy_append (used ++ idle) hblocks
    (show capacity - pool.capacity ≤ rest.length by omega)
  have hdone : rest.drop (capacity - pool.capacity) = [] := List.drop_eq_nil_of_le (by omega)
  rw [List.drop_zero, List.take_of_length_le (by simp), hdone, List.append_nil] at hinit
  simp only [memoryPoolEnsureSpace, Nat.not_lt.mpr hcapacity, if_false, hsections, hcopy1, hcopy2,
    hpos, if_true, hcopy3, hcopy4, hinit, bind, Except.bind, pure, Except.pure, grown]

theorem ensure_space_of_lt (malloc : Malloc) {capacity : Nat} (h : capacity < pool.capacity) :
    memoryPoolEnsureSpace malloc capacity pool = .ok pool := by
  simp [memoryPoolEnsureSpace, h]

/-- With a block in use, a growth lays the ring out again and appends the new blocks. -/
theorem ensure_space_relayout (h : pool.Valid) (hused : 0 < pool.used) (malloc : Malloc)
    {capacity : Nat} (hcapacity : pool.capacity ≤ capacity) :
    memoryPoolEnsureSpace malloc capacity pool = .ok (pool.grown malloc capacity
      (pool.ring.relayout
        (blockAddresses malloc.dataBuf pool.blockSize (capacity - pool.capacity)))) := by
  obtain ⟨secs, hsections, hsplit⟩ := h.sections_split hused
  have hstale : pool.ring.stale.length = pool.used := SlotRing.length_window h.ring_wf.used_le
  have hidle : pool.ring.idle.length = pool.capacity - pool.used :=
    h.capacity_eq ▸ SlotRing.length_idle pool.ring
  have hle := h.used_le
  rw [ensure_space_of_split malloc hcapacity hsections hsplit (by omega), hstale]
  rfl

/-- The pool after a growth with a block in use is valid, and the new blocks are idle behind the
old idle ones. -/
theorem grown_relayout_valid (h : pool.Valid) (malloc : Malloc) {capacity : Nat}
    (hcapacity : pool.capacity ≤ capacity) (hroom : pool.used < capacity)
    (hword : capacity < 2 ^ 32) {fresh : List Nat}
    (hfresh : fresh.length = capacity - pool.capacity) :
    (pool.grown malloc capacity (pool.ring.relayout fresh)).Valid ∧
      (pool.grown malloc capacity (pool.ring.relayout fresh)).ring.idle =
        pool.ring.idle ++ fresh := by
  have hlength : pool.ring.cells.length + fresh.length = capacity := by
    show pool.memoryPoolPtrBuf.length + fresh.length = capacity
    rw [← h.capacity_eq]
    omega
  obtain ⟨hwf, hidle⟩ := h.ring_wf.relayout (hlength ▸ hroom)
  exact ⟨⟨hwf, (hlength ▸ h.ring_wf.length_relayout fresh).symm, hword⟩, hidle⟩

/-- With no block in use the comparison of the indices takes every idle slot for a slot in use, so
the growth leaves `allocIndex` at the old capacity and `freeIndex` at zero. -/
theorem ensure_space_of_empty (h : pool.Valid) (hused : pool.used = 0) (malloc : Malloc)
    {capacity : Nat} (hcapacity : pool.capacity ≤ capacity) :
    memoryPoolEnsureSpace malloc capacity pool = .ok (pool.grown malloc capacity
      ⟨pool.ring.idle ++
        blockAddresses malloc.dataBuf pool.blockSize (capacity - pool.capacity),
        pool.capacity, 0, 0⟩) := by
  have halloc := h.alloc_lt
  have hlength := h.capacity_eq
  have hindex : pool.freeIndex = pool.allocIndex := by
    have hcases := h.index_cases
    omega
  have hidle : pool.ring.idle.length = pool.capacity := by
    rw [SlotRing.length_idle]
    simp only [ring]
    omega
  obtain ⟨secs, hsections, hsplit⟩ : ∃ secs, sections pool = .ok secs ∧
      secs.Split pool.memoryPoolPtrBuf pool.ring.idle [] := by
    refine ⟨_, by rw [sections, if_neg (by omega), if_neg (by omega)],
      Nat.sub_pos_of_lt h.free_lt, ?_, ?_, ?_, ?_, ?_, ?_⟩
    · simp only [Section.Inside]
      omega
    · simp only [Section.Inside]
      omega
    · simp only [Section.Inside]
      omega
    · simp [Section.Inside, Section.null]
    · simp only [Section.slice, SlotRing.idle, ring, hused, Nat.sub_zero, hindex]
      rw [SlotRing.window_length (by omega), List.drop_zero,
        List.take_of_length_le (by simp; omega)]
    · simp [Section.slice, Section.null, hindex]
  rw [ensure_space_of_split malloc hcapacity hsections hsplit (by simpa using hidle), hidle, hused,
    List.append_nil]

/-- On a full pool `MemoryPoolAlloc` grows first and then allocates from the grown pool. -/
theorem alloc_of_full {grownPool : MemoryPool} (malloc : Malloc)
    (hfull : pool.used = pool.capacity)
    (hgrow : memoryPoolEnsureSpace malloc (u32 (pool.capacity * 2)) pool = .ok grownPool)
    (hroom : grownPool.used ≠ grownPool.capacity) :
    memoryPoolAlloc malloc pool = memoryPoolAlloc malloc grownPool := by
  simp only [memoryPoolAlloc, hfull, if_true, hgrow, hroom, if_false, bind, Except.bind, pure,
    Except.pure]

end MemoryPool

end HakunaMatata
