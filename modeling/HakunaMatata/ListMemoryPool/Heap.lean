import HakunaMatata.Base.LinkedList
import HakunaMatata.ListMemoryPool.Model
import Mathlib.Data.List.Perm.Subperm

/-!
# The block buffer and the working list

`HeapInv pool inUse` is what the memory of a pool looks like while the ids `inUse` are in
use: the blocks are live, each carries its own index as id, and the blocks in use are linked
between the sentinels in the order of `inUse`. Read `HeapInv.link` and `HeapInv.unlink` first:
they say what `linkToTail` and `freeBlock` do to the list. Nothing here is about the ring of
idle blocks.
-/

namespace HakunaMatata

open Base

/-! ## Addresses -/

/-- Adding the distance between two buffers moves a block of one to the same block of the other. -/
theorem blockAddr_add_delta (buf newBuf : Addr) (blockSize i : Nat) :
    blockAddr buf blockSize i + (newBuf - buf) = blockAddr newBuf blockSize i := by
  unfold blockAddr
  rw [add_right_comm, add_sub_cancel]

theorem sizeofBlock_pos (blockSize : Nat) : 0 < sizeofBlock blockSize := by
  unfold sizeofBlock
  omega

/-- Blocks of a buffer that does not pass the end of memory have distinct addresses. -/
theorem blockAddr_inj {buf : Addr} {blockSize size i j : Nat}
    (hfits : buf.toNat + size * sizeofBlock blockSize ≤ 2 ^ 64) (hi : i < size) (hj : j < size)
    (heq : blockAddr buf blockSize i = blockAddr buf blockSize j) : i = j := by
  have hpos := sizeofBlock_pos blockSize
  have hbound : ∀ k < size, k * sizeofBlock blockSize < 2 ^ 64 := by
    intro k hk
    have hlt := Nat.mul_lt_mul_of_pos_right hk hpos
    omega
  have hoffset := congrArg BitVec.toNat (add_left_cancel heq)
  rw [BitVec.toNat_ofNat, BitVec.toNat_ofNat, Nat.mod_eq_of_lt (hbound i hi),
    Nat.mod_eq_of_lt (hbound j hj)] at hoffset
  exact Nat.eq_of_mul_eq_mul_right hpos hoffset

namespace BlockHeap

/-- What `malloc` promises of a buffer for `size` blocks: it does not pass the end of memory, and
no live block stands in it. -/
def Fresh (heap : BlockHeap) (buf : Addr) (blockSize size : Nat) : Prop :=
  buf.toNat + size * sizeofBlock blockSize ≤ 2 ^ 64 ∧
    ∀ i < size, heap.live (blockAddr buf blockSize i) = false

instance (heap : BlockHeap) (buf : Addr) (blockSize size : Nat) :
    Decidable (heap.Fresh buf blockSize size) :=
  inferInstanceAs (Decidable (_ ∧ _))

theorem deref_of_live {heap : BlockHeap} {p : Addr} (h : heap.live p = true) :
    heap.deref p = .ok () := by
  simp [deref, h]

theorem Fresh.ne_of_live {heap : BlockHeap} {buf : Addr} {blockSize size : Nat}
    (h : heap.Fresh buf blockSize size) {a : Addr} (ha : heap.live a = true) {i : Nat}
    (hi : i < size) : blockAddr buf blockSize i ≠ a := by
  intro heq
  have hdead := h.2 i hi
  rw [heq, ha] at hdead
  cases hdead

end BlockHeap

namespace ListMemoryPool

/-- The memory of a pool whose blocks `inUse` are in use, in the order of their allocation. -/
structure HeapInv (pool : ListMemoryPool) (inUse : List Nat) : Prop where
  fits : pool.memoryBlockBuf.toNat + pool.size * sizeofBlock pool.blockSize ≤ 2 ^ 64
  live_head : pool.heap.live pool.workingListHead = true
  live_tail : pool.heap.live pool.workingListTail = true
  live_block : ∀ i < pool.size, pool.heap.live (pool.block i) = true
  block_ne_head : ∀ i < pool.size, pool.block i ≠ pool.workingListHead
  block_ne_tail : ∀ i < pool.size, pool.block i ≠ pool.workingListTail
  id_block : ∀ i < pool.size, pool.heap.id (pool.block i) = i
  in_use_lt : ∀ i ∈ inUse, i < pool.size
  list : IsList pool.heap.ptrNext pool.heap.ptrPrev pool.workingListHead pool.workingListTail
    (inUse.map pool.block)

/-- The same memory with other links. -/
def relinked (pool : ListMemoryPool) (next prev : Addr → Addr) : ListMemoryPool :=
  { pool with heap := { pool.heap with ptrNext := next, ptrPrev := prev } }

variable {pool : ListMemoryPool} {inUse : List Nat}

theorem HeapInv.block_inj (h : HeapInv pool inUse) {i j : Nat} (hi : i < pool.size)
    (hj : j < pool.size) (heq : pool.block i = pool.block j) : i = j :=
  blockAddr_inj h.fits hi hj heq

theorem HeapInv.nodup (h : HeapInv pool inUse) : inUse.Nodup :=
  (List.nodup_append.mp (List.nodup_cons.mp h.list.nodup).2).1.of_map

theorem HeapInv.length_le (h : HeapInv pool inUse) : inUse.length ≤ pool.size := by
  have hsub : inUse ⊆ List.range pool.size := fun i hi => List.mem_range.mpr (h.in_use_lt i hi)
  simpa using (List.subperm_of_subset h.nodup hsub).length_le

theorem HeapInv.block_mem_iff (h : HeapInv pool inUse) {i : Nat} (hi : i < pool.size) :
    pool.block i ∈ inUse.map pool.block ↔ i ∈ inUse := by
  constructor
  · intro hmem
    obtain ⟨j, hj, heq⟩ := List.mem_map.mp hmem
    rwa [← h.block_inj (h.in_use_lt j hj) hi heq]
  · exact List.mem_map_of_mem

theorem HeapInv.live_node (h : HeapInv pool inUse) {a : Addr}
    (ha : a ∈ pool.workingListHead :: (inUse.map pool.block ++ [pool.workingListTail])) :
    pool.heap.live a = true := by
  rcases List.mem_cons.mp ha with rfl | ha
  · exact h.live_head
  · rcases List.mem_append.mp ha with ha | ha
    · obtain ⟨i, hi, rfl⟩ := List.mem_map.mp ha
      exact h.live_block i (h.in_use_lt i hi)
    · rw [List.mem_singleton.mp ha]
      exact h.live_tail

/-- New links between the sentinels give the invariant for the blocks they link. -/
theorem HeapInv.relinked (h : HeapInv pool inUse) {next prev : Addr → Addr} {inUse' : List Nat}
    (hlt : ∀ i ∈ inUse', i < pool.size)
    (hlist : IsList next prev pool.workingListHead pool.workingListTail (inUse'.map pool.block)) :
    HeapInv (pool.relinked next prev) inUse' :=
  ⟨h.fits, h.live_head, h.live_tail, h.live_block, h.block_ne_head, h.block_ne_tail, h.id_block,
    hlt, hlist⟩

/-- The invariant does not depend on the ring of idle blocks. -/
theorem HeapInv.withRing (h : HeapInv pool inUse) (ptrBuf : List Addr)
    (allocIndex freeIndex workingNum : Nat) :
    HeapInv { pool with
      memoryBlockPtrBuf := ptrBuf
      allocIndex := allocIndex
      freeIndex := freeIndex
      workingNum := workingNum } inUse :=
  ⟨h.fits, h.live_head, h.live_tail, h.live_block, h.block_ne_head, h.block_ne_tail, h.id_block,
    h.in_use_lt, h.list⟩

/-! ## Linking and unlinking -/

/-- The pool after `linkToTail` of a block. -/
def linked (pool : ListMemoryPool) (p : Addr) : ListMemoryPool :=
  pool.relinked
    (Function.update (Function.update pool.heap.ptrNext
      (pool.heap.ptrPrev pool.workingListTail) p) p pool.workingListTail)
    (Function.update (Function.update pool.heap.ptrPrev p
      (pool.heap.ptrPrev pool.workingListTail)) pool.workingListTail p)

/-- `linkToTail` succeeds on every block, also on one that is already linked. -/
theorem HeapInv.linkToTail_eq (h : HeapInv pool inUse) {i : Nat} (hi : i < pool.size) :
    linkToTail pool (pool.block i) = .ok (pool.linked (pool.block i)) := by
  obtain ⟨front, hfront⟩ := h.list.split_last
  have hlast : pool.heap.live (pool.heap.ptrPrev pool.workingListTail) = true := by
    refine h.live_node ?_
    rw [← List.cons_append, hfront]
    simp
  simp only [linkToTail, BlockHeap.deref, BlockHeap.setNext, BlockHeap.setPrev, h.live_tail,
    hlast, h.live_block i hi, if_true, bind, Except.bind, pure, Except.pure, linked,
    ListMemoryPool.relinked]

theorem HeapInv.link (h : HeapInv pool inUse) {i : Nat} (hi : i < pool.size) (hnew : i ∉ inUse) :
    HeapInv (pool.linked (pool.block i)) (inUse ++ [i]) := by
  have hnode : pool.block i ∉
      pool.workingListHead :: (inUse.map pool.block ++ [pool.workingListTail]) := by
    simp only [List.mem_cons, List.mem_append, h.block_mem_iff hi, List.not_mem_nil, or_false]
    rintro (heq | hmem | heq)
    · exact h.block_ne_head i hi heq
    · exact hnew hmem
    · exact h.block_ne_tail i hi heq
  refine h.relinked ?_ ?_
  · intro j hj
    rcases List.mem_append.mp hj with hj | hj
    · exact h.in_use_lt j hj
    · rwa [List.mem_singleton.mp hj]
  · rw [List.map_append]
    exact h.list.insert_last hnode

/-- Erasing an element whose image no other element has commutes with mapping. -/
theorem map_erase_of_inj {α β : Type*} [DecidableEq α] [DecidableEq β] {f : α → β} {xs : List α}
    {x : α} (h : ∀ y ∈ xs, f y = f x → y = x) : (xs.map f).erase (f x) = (xs.erase x).map f := by
  induction xs with
  | nil => rfl
  | cons y xs ih =>
    by_cases heq : y = x
    · simp [heq]
    · have hne : f y ≠ f x := fun hy => heq (h y (by simp) hy)
      rw [List.map_cons, List.erase_cons_tail (by simpa using hne),
        List.erase_cons_tail (by simpa using heq), List.map_cons,
        ih fun z hz => h z (by simp [hz])]

theorem HeapInv.unlink (h : HeapInv pool inUse) {i : Nat} (hi : i ∈ inUse) {ptrBuf : List Addr}
    (hstore : store pool.memoryBlockPtrBuf pool.freeIndex (pool.block i) = .ok ptrBuf) :
    ∃ next prev, freeBlock (pool.block i) pool = .ok { pool.relinked next prev with
        memoryBlockPtrBuf := ptrBuf
        freeIndex := advance pool.freeIndex pool.size
        workingNum := u32 (pool.workingNum + (2 ^ 32 - 1)) } ∧
      HeapInv (pool.relinked next prev) (inUse.erase i) := by
  have hlt : i < pool.size := h.in_use_lt i hi
  have hmem : pool.block i ∈ inUse.map pool.block := List.mem_map_of_mem hi
  obtain ⟨hprev, hnext, hne⟩ := h.list.neighbours hmem
  have herase : (inUse.map pool.block).erase (pool.block i) = (inUse.erase i).map pool.block := by
    refine map_erase_of_inj fun j hj heq => ?_
    exact h.block_inj (h.in_use_lt j hj) hlt heq
  have hlist := h.list.remove hmem
  rw [herase] at hlist
  refine ⟨_, _, ?_, h.relinked (fun j hj => h.in_use_lt j (List.mem_of_mem_erase hj)) hlist⟩
  have hsame : Function.update pool.heap.ptrNext (pool.heap.ptrPrev (pool.block i))
      (pool.heap.ptrNext (pool.block i)) (pool.block i) = pool.heap.ptrNext (pool.block i) :=
    Function.update_of_ne hne.symm _ _
  simp only [freeBlock, hstore, BlockHeap.deref, BlockHeap.setNext, BlockHeap.setPrev,
    h.live_block i hlt, h.live_node hprev, h.live_node hnext, hsame, if_true, bind, Except.bind,
    pure, Except.pure, ListMemoryPool.relinked]

/-! ## Construction and user data -/

theorem create_heap_inv {heap : BlockHeap} {buf head tail : Addr} {blockSize initSize : Nat}
    (hhead : heap.live head = true) (htail : heap.live tail = true) (hne : head ≠ tail)
    (hfresh : heap.Fresh buf blockSize initSize) (enableRealloc : Bool) :
    HeapInv (create heap buf head tail blockSize initSize enableRealloc) [] := by
  have hinj : ∀ i < initSize, ∀ j < initSize,
      blockAddr buf blockSize j = blockAddr buf blockSize i → j = i :=
    fun _ hi _ hj => blockAddr_inj hfresh.1 hj hi
  have hlive : ∀ {a : Addr}, heap.live a = true →
      writeEach (blockAddr buf blockSize) (fun _ => true) (List.range initSize) heap.live a =
        true := by
    intro a ha
    refine (writeEach_of_ne fun i hi => ?_).trans ha
    exact hfresh.ne_of_live ha (List.mem_range.mp hi)
  refine ⟨hfresh.1, hlive hhead, hlive htail, ?_, ?_, ?_, ?_, by simp, isList_nil ?_ ?_ hne⟩
  · intro i hi
    exact writeEach_of_mem (List.mem_range.mpr hi) fun j hj => hinj i hi j (List.mem_range.mp hj)
  · exact fun i hi => hfresh.ne_of_live hhead hi
  · exact fun i hi => hfresh.ne_of_live htail hi
  · intro i hi
    have hmem : ∀ {j : Nat}, j ∈ List.range' 0 initSize ↔ j < initSize := by simp
    exact writeEach_of_mem (hmem.mpr hi) fun j hj => hinj i hi j (hmem.mp hj)
  · exact Function.update_self _ _ _
  · exact Function.update_self _ _ _

/-- The pool after a store of user data. -/
def written (pool : ListMemoryPool) (i : Nat) (bytes : List UInt8) : ListMemoryPool :=
  { pool with heap := { pool.heap with
    data := Function.update pool.heap.data (pool.block i) bytes } }

theorem HeapInv.set_data (h : HeapInv pool inUse) {i : Nat} (hi : i < pool.size)
    (bytes : List UInt8) :
    setData i bytes pool = .ok (pool.written i bytes) ∧ HeapInv (pool.written i bytes) inUse := by
  refine ⟨?_, h.fits, h.live_head, h.live_tail, h.live_block, h.block_ne_head, h.block_ne_tail,
    h.id_block, h.in_use_lt, h.list⟩
  simp only [setData, BlockHeap.deref_of_live (h.live_block i hi), bind, Except.bind, pure,
    Except.pure, written]

end ListMemoryPool

end HakunaMatata
