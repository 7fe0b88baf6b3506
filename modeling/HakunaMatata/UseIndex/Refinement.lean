import HakunaMatata.Base.LinkedList
import HakunaMatata.Base.Pool
import HakunaMatata.UseIndex.Model
import Mathlib.Data.List.Perm.Subperm

/-!
# The index pool refines the abstract pool while it does not grow

`Represents pool p` relates an index pool to an abstract `Pool` of block ids, as for the pointer
version. `Represents.alloc_idle` and `Represents.free_busy` follow the abstract operations.
An allocation additionally needs that the block is not number `TAIL_ID`: its link would be
taken for the tail sentinel (`Represents.alloc_tailId`). A growth does not follow the abstract
operation: `Represents.alloc_full` says what an allocation then returns.
-/

namespace HakunaMatata

open Base

namespace IndexHeap

variable (heap : IndexHeap) (r : BlockRef) (index : Nat)

@[simp] theorem getNext_setNext :
    (heap.setNext r index).getNext = Function.update heap.getNext r (nextRef index) :=
  Function.comp_update nextRef heap.indexNext r index

@[simp] theorem getPrev_setPrev :
    (heap.setPrev r index).getPrev = Function.update heap.getPrev r (prevRef index) :=
  Function.comp_update prevRef heap.indexPrev r index

@[simp] theorem getNext_setPrev : (heap.setPrev r index).getNext = heap.getNext := rfl

@[simp] theorem getPrev_setNext : (heap.setNext r index).getPrev = heap.getPrev := rfl

end IndexHeap

namespace ListMemoryPoolUseIndex

/-- The ring of block indices. -/
def ring (pool : ListMemoryPoolUseIndex) : SlotRing Nat :=
  ⟨pool.memoryBlockIndexBuf, pool.allocIndex, pool.freeIndex, pool.workingNum⟩

/-- The index pool holds the idle and busy ids of the abstract pool. -/
structure Represents (pool : ListMemoryPoolUseIndex) (p : Pool Nat) : Prop where
  size_lt : pool.size < 2 ^ 32
  buf_length : pool.memoryBlockIndexBuf.length = pool.size
  working_eq : pool.workingNum = p.busy.length
  wf : 0 < pool.size → pool.ring.WF
  idle_eq : pool.ring.idle = p.idle
  sound : p.Sound (List.range pool.size)
  id_block : ∀ i < pool.size, pool.heap.id (.block i) = i
  list : IsList pool.heap.getNext pool.heap.getPrev .head .tail (p.busy.map .block)

variable {pool : ListMemoryPoolUseIndex} {p : Pool Nat}

theorem Represents.busy_lt (h : Represents pool p) {i : Nat} (hi : i ∈ p.busy) : i < pool.size :=
  List.mem_range.mp (h.sound.perm.subset (List.mem_append_right _ hi))

theorem Represents.idle_lt (h : Represents pool p) {i : Nat} (hi : i ∈ p.idle) : i < pool.size :=
  List.mem_range.mp (h.sound.perm.subset (List.mem_append_left _ hi))

theorem Represents.full_iff (h : Represents pool p) :
    pool.workingNum ≥ pool.size ↔ p.idle = [] := by
  have hlength : p.idle.length + p.busy.length = pool.size := by
    simpa using h.sound.perm.length_eq
  rw [h.working_eq, ← List.length_eq_zero_iff]
  omega

theorem Represents.deref_node (h : Represents pool p) {r : BlockRef}
    (hr : r ∈ BlockRef.head :: (p.busy.map .block ++ [.tail])) : pool.deref r = .ok () := by
  cases r with
  | head => rfl
  | tail => rfl
  | block i =>
    have hi : i ∈ p.busy := by simpa using hr
    simp only [deref, if_pos (h.busy_lt hi)]

theorem Represents.deref_last (h : Represents pool p) :
    pool.deref (pool.heap.getPrev .tail) = .ok () := by
  obtain ⟨front, hfront⟩ := h.list.split_last
  refine h.deref_node ?_
  rw [← List.cons_append, hfront]
  simp

theorem create_represents (heap : IndexHeap) (blockSize : Nat) {initSize : Nat}
    (hsize : initSize < 2 ^ 32) (enableRealloc : Bool) :
    Represents (create heap blockSize initSize enableRealloc) ⟨List.range initSize, []⟩ := by
  refine ⟨hsize, List.length_range, rfl, fun hpos => ⟨?_, ?_, Nat.zero_le _, ?_⟩, ?_, ⟨?_, ?_⟩, ?_,
    isList_nil ?_ ?_ (by decide)⟩
  · simpa [ring, create] using hpos
  · simpa [ring, create] using hpos
  · simp [ring, create]
  · show SlotRing.window (List.range initSize) 0 _ = _
    rw [SlotRing.window_eq_slice (by simp [ring, create]), List.drop_zero,
      List.take_of_length_le (by simp [ring, create])]
  · show (List.range initSize ++ []).Perm (List.range initSize)
    rw [List.append_nil]
  · exact List.nodup_range
  · intro i hi
    simp only [create, ne_eq, reduceCtorEq, not_false_eq_true, Function.update_of_ne]
    exact writeEach_of_mem (List.mem_range.mpr hi) fun _ _ heq => BlockRef.block.inj heq
  · simp [create, IndexHeap.getNext, IndexHeap.nextRef]
  · simp [create, IndexHeap.getPrev, IndexHeap.prevRef]

/-! ## Linking -/

/-- The pool after `linkToTail` of block `i`. -/
def linked (pool : ListMemoryPoolUseIndex) (i : Nat) : ListMemoryPoolUseIndex :=
  { pool with heap := (((pool.heap.setNext (pool.heap.getPrev .tail) i).setPrev (.block i)
    (pool.heap.indexPrev .tail)).setPrev .tail i).setNext (.block i) tailId }

theorem linkToTail_eq {i : Nat} (hlast : pool.deref (pool.heap.getPrev .tail) = .ok ())
    (hi : i < pool.size) (hid : pool.heap.id (.block i) = i) :
    linkToTail pool (.block i) = .ok (pool.linked i) := by
  have hderef : pool.deref (.block i) = .ok () := if_pos hi
  simp only [linkToTail, hlast, hderef, hid, IndexHeap.setNext, IndexHeap.setPrev, bind,
    Except.bind, pure, Except.pure, linked]

/-- Linking a block whose number is no sentinel's appends it to the list. -/
theorem Represents.link (h : Represents pool p) {i : Nat} (hnew : i ∉ p.busy)
    (hhead : i ≠ headId) (htail : i ≠ tailId) :
    IsList (pool.linked i).heap.getNext (pool.linked i).heap.getPrev .head .tail
      ((p.busy ++ [i]).map .block) := by
  have hnode : BlockRef.block i ∉ BlockRef.head :: (p.busy.map .block ++ [.tail]) := by
    simpa using hnew
  have hlist := h.list.insert_last hnode
  have hnext : IndexHeap.nextRef i = .block i := if_pos htail
  have hprev : IndexHeap.prevRef i = .block i := if_pos hhead
  simp only [linked, IndexHeap.getNext_setNext, IndexHeap.getPrev_setPrev,
    IndexHeap.getNext_setPrev, IndexHeap.getPrev_setNext, hnext, hprev, List.map_append]
  exact hlist

theorem Represents.walk_linked_tailId (h : Represents pool p) (hnew : tailId ∉ p.busy) {fuel : Nat}
    (hfuel : p.busy.length < fuel) :
    walk (pool.linked tailId).heap.getNext .tail fuel .head = some (p.busy.map .block) := by
  have hstop : BlockRef.tail ∉ p.busy.map BlockRef.block := by simp
  refine walk_of_chain ?_ hstop (by simpa using hfuel)
  have htail : IndexHeap.nextRef tailId = .tail := if_neg (fun hne => hne rfl)
  obtain ⟨front, hfront⟩ := h.list.split_last
  -- the last block already linked to the tail sentinel, so only the new block's link changes
  have hlast : pool.heap.getNext (pool.heap.getPrev .tail) = .tail := by
    have hlinked := h.list.linked
    rw [← List.cons_append, hfront, List.append_assoc] at hlinked
    exact (List.isChain_append_cons_cons.mp hlinked).2.1.1
  have hnext : (pool.linked tailId).heap.getNext =
      Function.update pool.heap.getNext (.block tailId) .tail := by
    have hkept : Function.update pool.heap.getNext (pool.heap.getPrev .tail) .tail =
        pool.heap.getNext := Function.update_eq_self_iff.mpr hlast.symm
    simp only [linked, IndexHeap.getNext_setNext, IndexHeap.getNext_setPrev, htail, hkept]
  refine h.list.linked.imp_of_mem_imp fun a b ha hb hlink => ?_
  rw [hnext, Function.update_of_ne, hlink.1]
  rintro rfl
  exact hnew (by simpa using ha)

/-! ## Operations -/

/-- The pool after the part of `alloc` that follows the check for room. -/
def taken (pool : ListMemoryPoolUseIndex) (i : Nat) : ListMemoryPoolUseIndex :=
  ({ pool with
    allocIndex := advance pool.allocIndex pool.size
    workingNum := u32 (pool.workingNum + 1) } : ListMemoryPoolUseIndex).linked i

/-- An allocation from a pool that is not full returns the first idle block. -/
theorem Represents.alloc_eq (h : Represents pool p) {i : Nat} {rest : List Nat}
    (hidle : p.idle = i :: rest) (junk : Nat → Nat) :
    alloc junk pool = .ok (i, pool.taken i) ∧
      load pool.memoryBlockIndexBuf pool.allocIndex = .ok i ∧
      (pool.taken i).ring.WF ∧ (pool.taken i).ring.idle = rest ∧
      (pool.taken i).workingNum = p.busy.length + 1 := by
  have hlt : i < pool.size := h.idle_lt (by simp [hidle])
  have hworking : pool.workingNum < pool.size := by
    rw [← Nat.not_le, ← ge_iff_le, h.full_iff, hidle]
    exact List.cons_ne_nil _ _
  have hwf := h.wf (Nat.zero_lt_of_lt hlt)
  have hindex : pool.allocIndex < pool.memoryBlockIndexBuf.length := hwf.alloc_lt
  obtain ⟨x, r, halloc, hwf', hring, -, -⟩ := hwf.alloc (h.buf_length.symm ▸ hworking)
  simp only [SlotRing.alloc, ring, List.getElem?_eq_getElem hindex, Option.map_some,
    Option.some.injEq, Prod.mk.injEq] at halloc
  obtain ⟨rfl, rfl⟩ := halloc
  rw [h.idle_eq, hidle, List.cons.injEq] at hring
  have hload : load pool.memoryBlockIndexBuf pool.allocIndex = .ok i := by
    rw [load_of_lt hindex, hring.1]
  have hsize := h.size_lt
  have hcount : u32 (pool.workingNum + 1) = pool.workingNum + 1 := u32_of_lt (by omega)
  have hlink : linkToTail { pool with
      allocIndex := advance pool.allocIndex pool.size
      workingNum := u32 (pool.workingNum + 1) } (.block i) = .ok (pool.taken i) :=
    linkToTail_eq h.deref_last hlt (h.id_block i hlt)
  have hid : (pool.taken i).heap.id (.block i) = i := h.id_block i hlt
  have htaken : (pool.taken i).ring = ⟨pool.memoryBlockIndexBuf,
      advance pool.allocIndex pool.memoryBlockIndexBuf.length, pool.freeIndex,
      pool.workingNum + 1⟩ := by
    rw [h.buf_length, ← hcount]
    rfl
  refine ⟨?_, hload, ?_, ?_, ?_⟩
  · simp only [alloc, if_neg (Nat.not_le.mpr hworking), bind, Except.bind, pure, Except.pure,
      if_true, hload, hlink, hid]
  · rw [htaken]
    exact hwf'
  · rw [htaken]
    exact hring.2.symm
  · show u32 (pool.workingNum + 1) = _
    rw [hcount, h.working_eq]

/-- `alloc` hands out the first idle block, if it is not number `TAIL_ID`. -/
theorem Represents.alloc_idle (h : Represents pool p) {i : Nat} {rest : List Nat}
    (hidle : p.idle = i :: rest) (htail : i ≠ tailId) (junk : Nat → Nat) :
    alloc junk pool = .ok (i, pool.taken i) ∧
      Represents (pool.taken i) ⟨rest, p.busy ++ [i]⟩ := by
  obtain ⟨halloc, -, hwf, hring, hworking⟩ := h.alloc_eq hidle junk
  obtain ⟨hsound, hnew⟩ := h.sound.alloc
    (show p.alloc = some (i, ⟨rest, p.busy ++ [i]⟩) by simp only [Pool.alloc, hidle])
  have hhead : i ≠ headId := by
    have hlt : i < pool.size := h.idle_lt (by simp [hidle])
    have hsize := h.size_lt
    unfold headId
    omega
  refine ⟨halloc, h.size_lt, h.buf_length, ?_, fun _ => hwf, hring, hsound, h.id_block,
    h.link hnew hhead htail⟩
  rw [hworking, List.length_append, List.length_singleton]

theorem Represents.free_busy (h : Represents pool p) {i : Nat} (hi : i ∈ p.busy) :
    ∃ pool', free i pool = .ok pool' ∧ Represents pool' (p.free i) ∧ pool'.size = pool.size ∧
      pool'.enableRealloc = pool.enableRealloc := by
  have hlt := h.busy_lt hi
  have hwf := h.wf (Nat.zero_lt_of_lt hlt)
  have hindex : pool.freeIndex < pool.memoryBlockIndexBuf.length := hwf.free_lt
  have hcount : 0 < pool.workingNum := h.working_eq ▸ List.length_pos_of_mem hi
  have hword : pool.workingNum < 2 ^ 32 := by
    have hle : pool.workingNum ≤ pool.memoryBlockIndexBuf.length := hwf.used_le
    have hsize := h.size_lt
    rw [h.buf_length] at hle
    omega
  have hpred : u32 (pool.workingNum + (2 ^ 32 - 1)) = pool.workingNum - 1 := u32_pred hcount hword
  have hmem : BlockRef.block i ∈ p.busy.map BlockRef.block := List.mem_map_of_mem hi
  obtain ⟨hprev, hnext, hne⟩ := h.list.neighbours hmem
  have hsame : IndexHeap.getNext (pool.heap.setNext (pool.heap.getPrev (.block i))
      (pool.heap.indexNext (.block i))) (.block i) = pool.heap.getNext (.block i) := by
    rw [IndexHeap.getNext_setNext, Function.update_of_ne hne.symm]
  have hlist := h.list.remove hmem
  rw [← List.map_erase fun _ _ heq => BlockRef.block.inj heq] at hlist
  obtain ⟨hwf', hidle⟩ := hwf.put hcount i
  have hring : pool.ring.put i = ⟨pool.memoryBlockIndexBuf.set pool.freeIndex i, pool.allocIndex,
      advance pool.freeIndex pool.size, u32 (pool.workingNum + (2 ^ 32 - 1))⟩ := by
    rw [hpred, ← h.buf_length]
    rfl
  have hderef : pool.deref (.block i) = .ok () := if_pos hlt
  refine ⟨{ pool with
      heap := (pool.heap.setNext (pool.heap.getPrev (.block i))
        (pool.heap.indexNext (.block i))).setPrev (pool.heap.getNext (.block i))
        (pool.heap.indexPrev (.block i))
      memoryBlockIndexBuf := pool.memoryBlockIndexBuf.set pool.freeIndex i
      freeIndex := advance pool.freeIndex pool.size
      workingNum := u32 (pool.workingNum + (2 ^ 32 - 1)) }, ?_,
    ⟨h.size_lt, ?_, ?_, fun _ => ?_, ?_, h.sound.free hi, h.id_block, ?_⟩, rfl, rfl⟩
  · simp only [free, store_of_lt hindex, hderef, h.deref_node hprev, hsame, h.deref_node hnext,
      bind, Except.bind, pure, Except.pure]
    rfl
  · exact (List.length_set ..).trans h.buf_length
  · show u32 (pool.workingNum + (2 ^ 32 - 1)) = (p.busy.erase i).length
    rw [hpred, List.length_erase_of_mem hi, h.working_eq]
  · rw [hring] at hwf'
    exact hwf'
  · refine (congrArg SlotRing.idle hring).symm.trans (hidle.trans ?_)
    rw [h.idle_eq, Pool.free]
  · simp only [IndexHeap.getNext_setNext, IndexHeap.getPrev_setPrev, IndexHeap.getNext_setPrev,
      IndexHeap.getPrev_setNext]
    exact hlist

/-- What can be accessed in a buffer can be accessed in a larger one. -/
theorem deref_of_le {pool pool' : ListMemoryPoolUseIndex} (hle : pool.size ≤ pool'.size)
    {r : BlockRef} (h : pool.deref r = .ok ()) : pool'.deref r = .ok () := by
  cases r with
  | head => rfl
  | tail => rfl
  | block i =>
    rw [deref] at h ⊢
    by_cases hi : i < pool.size
    · exact if_pos (Nat.lt_of_lt_of_le hi hle)
    · rw [if_neg hi] at h
      cases h

/-- An allocation that makes the pool grow returns the block that the first word behind the index
buffer names. -/
theorem Represents.alloc_full (h : Represents pool p) (hfull : p.idle = [])
    (hrealloc : pool.enableRealloc = true) (hpos : 0 < pool.size) (hword : pool.size * 2 < 2 ^ 32)
    (junk : Nat → Nat) (hjunk : junk 0 < pool.size) :
    ∃ pool', alloc junk pool = .ok (junk 0, pool') := by
  have hbuf := h.buf_length
  have hcount : pool.size * sizeofUintptr / sizeofUnsigned = pool.size + pool.size := by
    unfold sizeofUintptr sizeofUnsigned
    omega
  have hrest : pool.size * 2 - pool.size = pool.size := by omega
  have hcopy : memcpy (List.replicate pool.size 0 ++ List.range' pool.size pool.size) 0
        (pool.memoryBlockIndexBuf ++ uninit junk pool.size) 0 (pool.size + pool.size) =
      .ok (pool.memoryBlockIndexBuf ++ uninit junk pool.size) := by
    rw [memcpy_start (by simp [hbuf]) (by simp), List.drop_of_length_le (by simp),
      List.append_nil]
  let grown : ListMemoryPoolUseIndex := { pool with
    heap := pool.heap.growBlocks pool.blockSize pool.size (pool.size * 2)
    allocIndex := pool.size
    freeIndex := 0
    size := pool.size * 2
    memoryBlockIndexBuf := pool.memoryBlockIndexBuf ++ uninit junk pool.size }
  have hensure : ensureSize junk (pool.size * 2) pool = .ok (true, grown) := by
    have hlarger : ¬ pool.size * 2 ≤ pool.size := by omega
    simp only [ensureSize, if_neg hlarger, hrealloc, if_true, hcount, hrest, hbuf,
      Nat.add_sub_cancel, hcopy, bind, Except.bind, pure, Except.pure, grown]
  have hload : load grown.memoryBlockIndexBuf grown.allocIndex = .ok (junk 0) := by
    have hindex : pool.size < (pool.memoryBlockIndexBuf ++ uninit junk pool.size).length := by
      rw [List.length_append, length_uninit, hbuf]
      omega
    refine (load_of_lt hindex).trans (congrArg Except.ok ?_)
    rw [List.getElem_append_right hbuf.le]
    simp [uninit, hbuf]
  have hid : grown.heap.id (.block (junk 0)) = junk 0 := by
    refine Eq.trans (writeEach_of_mem (List.mem_range.mpr hjunk) ?_) (h.id_block _ hjunk)
    exact fun _ _ heq => BlockRef.block.inj heq
  have hprev : grown.heap.getPrev .tail = pool.heap.getPrev .tail := by
    have hne : ∀ items : List Nat, ∀ i ∈ items, BlockRef.block i ≠ .tail := by
      intro items i _ heq
      cases heq
    have hkept : grown.heap.indexPrev .tail = pool.heap.indexPrev .tail :=
      (writeEach_of_ne (hne _)).trans (writeEach_of_ne (hne _))
    exact congrArg IndexHeap.prevRef hkept
  have hlast : grown.deref (grown.heap.getPrev .tail) = .ok () := by
    rw [hprev]
    exact deref_of_le (show pool.size ≤ pool.size * 2 by omega) h.deref_last
  have hlink : linkToTail { grown with
      allocIndex := advance grown.allocIndex grown.size
      workingNum := u32 (grown.workingNum + 1) } (.block (junk 0)) =
      .ok (grown.taken (junk 0)) :=
    linkToTail_eq hlast (show junk 0 < pool.size * 2 by omega) hid
  refine ⟨grown.taken (junk 0), ?_⟩
  have hreturned : (grown.taken (junk 0)).heap.id (.block (junk 0)) = junk 0 := hid
  simp only [alloc, if_pos (h.full_iff.mpr hfull), u32_of_lt hword, hensure, hload, hlink,
    hreturned, bind, Except.bind, pure, Except.pure, if_true]

end ListMemoryPoolUseIndex

end HakunaMatata
