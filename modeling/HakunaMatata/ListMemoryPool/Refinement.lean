import HakunaMatata.Base.Pool
import HakunaMatata.ListMemoryPool.Steps

/-!
# The list pool refines the abstract pool

`Represents pool p` relates a list pool to an abstract `Pool` of block ids: the ring holds the
idle ids in their order and the working list links the busy ids in theirs. The three
operations follow the abstract ones: `Represents.alloc_idle`, `Represents.free_busy` and
`Represents.ensure_full`. Each lemma also says that the data of every block stays, wherever
the block then stands.
-/

namespace HakunaMatata

open Base

namespace ListMemoryPool

/-- The list pool holds the idle and busy ids of the abstract pool. A pool of no blocks has no
ring. -/
structure Represents (pool : ListMemoryPool) (p : Pool Nat) : Prop where
  consistent : Consistent pool p.busy
  wf : 0 < pool.size → pool.ring.WF
  idle_eq : pool.ring.idle = p.idle.map pool.block
  sound : p.Sound (List.range pool.size)

variable {pool : ListMemoryPool} {p : Pool Nat}

theorem Represents.length_eq (h : Represents pool p) :
    p.idle.length + p.busy.length = pool.size := by
  simpa using h.sound.perm.length_eq

theorem Represents.full_iff (h : Represents pool p) :
    pool.workingNum ≥ pool.size ↔ p.idle = [] := by
  have hlength := h.length_eq
  rw [h.consistent.working_eq, ← List.length_eq_zero_iff]
  omega

theorem Represents.idle_lt (h : Represents pool p) {i : Nat} (hi : i ∈ p.idle) : i < pool.size :=
  List.mem_range.mp (h.sound.perm.subset (List.mem_append_left _ hi))

theorem Represents.busy_lt (h : Represents pool p) {i : Nat} (hi : i ∈ p.busy) : i < pool.size :=
  h.consistent.heap.in_use_lt i hi

theorem Represents.busy_of_full (h : Represents pool p) (hfull : p.idle = []) {i : Nat}
    (hi : i < pool.size) : i ∈ p.busy := by
  have hmem := h.sound.perm.symm.subset (List.mem_range.mpr hi)
  rwa [hfull, List.nil_append] at hmem

theorem Represents.get_data (h : Represents pool p) {i : Nat} (hi : i < pool.size) :
    getData pool i = .ok (pool.bytes i) := by
  simp only [getData, BlockHeap.deref_of_live (h.consistent.heap.live_block i hi), bind,
    Except.bind, pure, Except.pure, bytes]

theorem create_represents {heap : BlockHeap} {buf head tail : Addr} {blockSize initSize : Nat}
    (hhead : heap.live head = true) (htail : heap.live tail = true) (hne : head ≠ tail)
    (hfresh : heap.Fresh buf blockSize initSize) (hsize : initSize < 2 ^ 32)
    (enableRealloc : Bool) :
    Represents (create heap buf head tail blockSize initSize enableRealloc)
      ⟨List.range initSize, []⟩ := by
  refine ⟨create_consistent hhead htail hne hfresh hsize enableRealloc, fun hpos => ?_, ?_, ?_⟩
  · refine ⟨?_, ?_, Nat.zero_le _, ?_⟩
    · simpa [ring, create] using hpos
    · simpa [ring, create] using hpos
    · simp [ring, create]
  · show SlotRing.window ((List.range initSize).map (blockAddr buf blockSize)) 0 _ = _
    rw [SlotRing.window_eq_slice (by simp [ring, create]), List.drop_zero,
      List.take_of_length_le (by simp [ring, create])]
    rfl
  · refine ⟨?_, List.nodup_range⟩
    show (List.range initSize ++ []).Perm (List.range initSize)
    rw [List.append_nil]

theorem Represents.alloc_idle (h : Represents pool p) {i : Nat} {rest : List Nat}
    (hidle : p.idle = i :: rest) (newBuf : Addr) :
    ∃ pool', alloc newBuf pool = .ok (i, pool') ∧ Represents pool' ⟨rest, p.busy ++ [i]⟩ ∧
      SamePlace pool pool' ∧ SameData pool pool' := by
  have hlt : i < pool.size := h.idle_lt (by simp [hidle])
  have hworking : pool.workingNum < pool.size := by
    rw [← Nat.not_le, ← ge_iff_le, h.full_iff, hidle]
    exact List.cons_ne_nil _ _
  have hwf := h.wf (Nat.zero_lt_of_lt hlt)
  have hindex : pool.allocIndex < pool.memoryBlockPtrBuf.length := hwf.alloc_lt
  obtain ⟨x, r, halloc, hwf', hring, -, -⟩ := hwf.alloc (h.consistent.buf_length.symm ▸ hworking)
  simp only [SlotRing.alloc, ring, List.getElem?_eq_getElem hindex, Option.map_some,
    Option.some.injEq, Prod.mk.injEq] at halloc
  obtain ⟨rfl, rfl⟩ := halloc
  rw [h.idle_eq, hidle, List.map_cons, List.cons.injEq] at hring
  have hload : load pool.memoryBlockPtrBuf pool.allocIndex = .ok (pool.block i) := by
    rw [load_of_lt hindex, hring.1]
  obtain ⟨hsound, hnew⟩ := h.sound.alloc
    (show p.alloc = some (i, ⟨rest, p.busy ++ [i]⟩) by simp only [Pool.alloc, hidle])
  obtain ⟨pool', hexec, hconsistent, hring', hplace, hdata⟩ :=
    h.consistent.take hworking hload hlt hnew newBuf
  refine ⟨pool', hexec, ⟨hconsistent, fun _ => ?_, ?_, ?_⟩, hplace, hdata⟩
  · rw [hring']
    exact hwf'
  · rw [hring', hplace.block_eq]
    exact hring.2.symm
  · rw [hplace.size_eq]
    exact hsound

theorem Represents.free_busy (h : Represents pool p) {i : Nat} (hi : i ∈ p.busy) :
    ∃ pool', freeBlock (pool.block i) pool = .ok pool' ∧ Represents pool' (p.free i) ∧
      SamePlace pool pool' ∧ SameData pool pool' := by
  have hwf := h.wf (Nat.zero_lt_of_lt (h.busy_lt hi))
  have hcount : 0 < pool.workingNum := h.consistent.working_eq ▸ List.length_pos_of_mem hi
  obtain ⟨pool', hexec, hconsistent, hring, hplace, hdata⟩ :=
    h.consistent.release hi (h.consistent.buf_length ▸ hwf.free_lt)
  obtain ⟨hwf', hidle⟩ := hwf.put hcount (pool.block i)
  refine ⟨pool', hexec, ⟨hconsistent, fun _ => ?_, ?_, ?_⟩, hplace, hdata⟩
  · rw [hring]
    exact hwf'
  · rw [hring, hidle, h.idle_eq, hplace.block_eq, Pool.free, List.map_append]
    rfl
  · rw [hplace.size_eq]
    exact h.sound.free hi

theorem Represents.ensure_full (h : Represents pool p) (hfull : p.idle = [])
    (hrealloc : pool.enableRealloc = true) {newBuf : Addr} {size : Nat} (hgrow : pool.size < size)
    (hword : size < 2 ^ 32) (hfresh : pool.heap.Fresh newBuf pool.blockSize size) :
    ∃ pool', ensureSize newBuf size pool = .ok (true, pool') ∧
      Represents pool' (p.grow (List.range' pool.size (size - pool.size))) ∧
      pool'.size = size ∧ pool'.enableRealloc = pool.enableRealloc ∧ SameData pool pool' := by
  have hbuf := h.consistent.buf_length
  have hworking : pool.workingNum = pool.size :=
    Nat.le_antisymm h.consistent.working_le (h.full_iff.mpr hfull)
  obtain ⟨pool', hensure, hconsistent, hring, hsize, hrealloc', hdata⟩ :=
    h.consistent.grow hrealloc hgrow hword hfresh
  have hcells : (pool.memoryBlockPtrBuf.map (· + (newBuf - pool.memoryBlockBuf)) ++
      (List.range' pool.size (size - pool.size)).map pool'.block).length = size := by
    simp only [List.length_append, List.length_map, List.length_range', hbuf]
    omega
  refine ⟨pool', hensure, ⟨hconsistent, fun _ => ?_, ?_, ?_⟩, hsize, hrealloc', hdata⟩
  · rw [hring]
    refine ⟨?_, ?_, ?_, ?_⟩
    · exact hcells.symm ▸ hgrow
    · exact hcells.symm ▸ Nat.zero_lt_of_lt hgrow
    · exact hcells.symm ▸ hworking.trans_le hgrow.le
    · show 0 = (pool.size + (_ - pool.workingNum)) % _
      rw [hcells, hworking, Nat.add_sub_cancel' hgrow.le, Nat.mod_self]
  · rw [hring, SlotRing.idle]
    show SlotRing.window _ pool.size (_ - pool.workingNum) = _
    rw [SlotRing.window_eq_slice (by rw [hcells]; omega), hcells, hworking,
      List.drop_left' (by simpa using hbuf), List.take_of_length_le (by simp), Pool.grow, hfull]
    rfl
  · rw [hsize]
    exact h.sound.grow_range hgrow.le

/-- `alloc` on a full pool doubles it and hands out the first new block. -/
theorem Represents.alloc_full (h : Represents pool p) (hfull : p.idle = [])
    (hrealloc : pool.enableRealloc = true) (hpos : 0 < pool.size) (hword : pool.size * 2 < 2 ^ 32)
    {newBuf : Addr} (hfresh : pool.heap.Fresh newBuf pool.blockSize (pool.size * 2)) :
    ∃ pool', alloc newBuf pool = .ok (pool.size, pool') ∧
      Represents pool' ⟨List.range' (pool.size + 1) (pool.size - 1), p.busy ++ [pool.size]⟩ ∧
      pool'.size = pool.size * 2 ∧ pool'.enableRealloc = pool.enableRealloc ∧
      SameData pool pool' := by
  obtain ⟨grown, hensure, hgrown, hsize, hrealloc', hdata⟩ :=
    h.ensure_full hfull hrealloc (show pool.size < pool.size * 2 by omega) hword hfresh
  have hidle : (p.grow (List.range' pool.size (pool.size * 2 - pool.size))).idle =
      pool.size :: List.range' (pool.size + 1) (pool.size - 1) := by
    have hcount : pool.size * 2 - pool.size = pool.size - 1 + 1 := by omega
    rw [Pool.grow, hfull, List.nil_append, hcount, List.range'_succ]
  obtain ⟨pool', halloc, hpool', hplace, hdata'⟩ := hgrown.alloc_idle hidle newBuf
  refine ⟨pool', ?_, hpool', hplace.size_eq.trans hsize, hplace.realloc_eq.trans hrealloc', ?_⟩
  · -- the grown pool is not full, so both calls continue in the same way
    have hnotFull : ¬ grown.workingNum ≥ grown.size := by
      rw [hgrown.full_iff, hidle]
      exact List.cons_ne_nil _ _
    have hgrow : alloc newBuf pool = alloc newBuf grown := by
      simp only [alloc, if_pos (h.full_iff.mpr hfull), if_neg hnotFull, u32_of_lt hword, hensure,
        bind, Except.bind, pure, Except.pure]
    rw [hgrow, halloc]
  · intro i hi
    rw [hdata' i (by omega), hdata i hi]

/-- Without reallocation `alloc` on a full pool fails and changes nothing. -/
theorem Represents.alloc_failed (h : Represents pool p) (hfull : p.idle = [])
    (hrealloc : pool.enableRealloc = false) (hpos : 0 < pool.size)
    (hword : pool.size * 2 < 2 ^ 32) (newBuf : Addr) :
    alloc newBuf pool = .ok (allocFailed, pool) := by
  have hlarger : ¬ pool.size * 2 ≤ pool.size := by omega
  have hensure : ensureSize newBuf (pool.size * 2) pool = .ok (false, pool) := by
    rw [ensureSize, if_neg hlarger, hrealloc]
    rfl
  simp only [alloc, if_pos (h.full_iff.mpr hfull), u32_of_lt hword, hensure, bind, Except.bind,
    pure, Except.pure, Bool.false_eq_true, if_false]

theorem Represents.set_data (h : Represents pool p) {i : Nat} (hi : i < pool.size)
    (bytes : List UInt8) :
    setData i bytes pool = .ok (pool.written i bytes) ∧ Represents (pool.written i bytes) p ∧
      ∀ j < pool.size, j ≠ i → (pool.written i bytes).bytes j = pool.bytes j := by
  obtain ⟨hset, hconsistent, hdata⟩ := h.consistent.set_data hi bytes
  exact ⟨hset, ⟨hconsistent, h.wf, h.idle_eq, h.sound⟩, hdata⟩

end ListMemoryPool

end HakunaMatata
