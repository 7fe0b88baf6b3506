import HakunaMatata.ListMemoryPool.Heap

/-!
# Growth of the list pool moves its blocks

`ensureSize` copies the blocks to a buffer at another address and walks the working list
twice, adding the distance to each link before it follows it. `HeapInv.moved` says that
the growth succeeds, that every block keeps its id and its data, and that the working list
links the same ids in the same order at the new addresses.
-/

namespace HakunaMatata

open Base

namespace BlockHeap

/-- A field of the heap that is read and replaced without touching which blocks are live. -/
structure IsField (get : BlockHeap → Addr → Addr)
    (put : BlockHeap → (Addr → Addr) → BlockHeap) : Prop where
  get_put : ∀ heap links, get (put heap links) = links
  put_put : ∀ heap links links', put (put heap links) links' = put heap links'
  put_get : ∀ heap, put heap (get heap) = heap
  live_put : ∀ heap links, (put heap links).live = heap.live

/-- On pending links through live blocks the loop that corrects a list is `relink`. -/
theorem correctLinks_of_pending {get : BlockHeap → Addr → Addr}
    {put : BlockHeap → (Addr → Addr) → BlockHeap} (hfield : IsField get put)
    {delta stop cur : Addr} {heap : BlockHeap} {xs : List Addr} {fuel : Nat} {links : Addr → Addr}
    (h : Pending (get heap) (· + delta) stop cur xs) (hnodup : (cur :: xs.map (· + delta)).Nodup)
    (hlive : ∀ a ∈ cur :: xs.map (· + delta), heap.live a = true)
    (hrun : relink (· + delta) stop fuel (get heap) cur = some links) :
    correctLinks get put delta stop fuel heap cur = .ok (put heap links) := by
  induction fuel generalizing heap cur xs with
  | zero => cases hrun
  | succ fuel ih =>
    have hcur := deref_of_live (hlive cur (by simp))
    cases xs with
    | nil =>
      have hstop : get heap cur = stop := h
      rw [relink, if_pos hstop] at hrun
      cases hrun
      simp only [correctLinks, hcur, hstop, if_true, bind, Except.bind, pure, Except.pure,
        hfield.put_get]
    | cons x xs =>
      obtain ⟨hlink, hne, hrest⟩ := h
      obtain ⟨hfirst, hnodup'⟩ := List.nodup_cons.mp hnodup
      rw [relink, hlink, if_neg hne] at hrun
      have hpending : Pending
          (get (put heap (Function.update (get heap) cur (x + delta)))) (· + delta) stop
          (x + delta) xs := by
        rw [hfield.get_put]
        refine hrest.congr fun a ha => Function.update_of_ne ?_ _ _
        rintro rfl
        exact hfirst ha
      have hrec := ih hpending hnodup'
        (fun a ha => by
          rw [hfield.live_put]
          exact hlive a (List.mem_cons_of_mem _ ha))
        (by rwa [hfield.get_put])
      simp only [correctLinks, hcur, hlink, if_neg hne, bind, Except.bind, hrec,
        hfield.put_put]

theorem isField_next : IsField ptrNext fun heap next => { heap with ptrNext := next } :=
  ⟨fun _ _ => rfl, fun _ _ _ => rfl, fun _ => rfl, fun _ _ => rfl⟩

theorem isField_prev : IsField ptrPrev fun heap prev => { heap with ptrPrev := prev } :=
  ⟨fun _ _ => rfl, fun _ _ _ => rfl, fun _ => rfl, fun _ _ => rfl⟩

/-- The new buffer before the list is corrected: zeroed, its new blocks numbered, and the old
blocks copied into it. -/
def moveBlocks (heap : BlockHeap) (oldAddr newAddr : Nat → Addr) (blockSize oldSize size : Nat) :
    BlockHeap :=
  ((heap.callocBlocks newAddr blockSize size).numberBlocks newAddr oldSize
    (size - oldSize)).copyBlocks oldAddr newAddr oldSize

section Move

variable {heap : BlockHeap} {oldAddr newAddr : Nat → Addr} {blockSize oldSize size : Nat}

theorem moveBlocks_outside (hle : oldSize ≤ size) {a : Addr} (ha : ∀ i < size, newAddr i ≠ a) :
    (heap.moveBlocks oldAddr newAddr blockSize oldSize size).ptrNext a = heap.ptrNext a ∧
      (heap.moveBlocks oldAddr newAddr blockSize oldSize size).ptrPrev a = heap.ptrPrev a ∧
      (heap.moveBlocks oldAddr newAddr blockSize oldSize size).live a = heap.live a := by
  have hnew : ∀ i ∈ List.range size, newAddr i ≠ a := fun i hi => ha i (List.mem_range.mp hi)
  have hold : ∀ i ∈ List.range oldSize, newAddr i ≠ a :=
    fun i hi => ha i (Nat.lt_of_lt_of_le (List.mem_range.mp hi) hle)
  refine ⟨?_, ?_, ?_⟩
  · exact (writeEach_of_ne hold).trans (writeEach_of_ne hnew)
  · exact (writeEach_of_ne hold).trans (writeEach_of_ne hnew)
  · exact writeEach_of_ne hnew

theorem moveBlocks_live (hinj : ∀ i < size, ∀ j < size, newAddr j = newAddr i → j = i) {i : Nat}
    (hi : i < size) :
    (heap.moveBlocks oldAddr newAddr blockSize oldSize size).live (newAddr i) = true :=
  writeEach_of_mem (List.mem_range.mpr hi) fun j hj => hinj i hi j (List.mem_range.mp hj)

theorem moveBlocks_copied (hle : oldSize ≤ size)
    (hinj : ∀ i < size, ∀ j < size, newAddr j = newAddr i → j = i) {i : Nat} (hi : i < oldSize)
    (hold : ∀ j < size, newAddr j ≠ oldAddr i) :
    (heap.moveBlocks oldAddr newAddr blockSize oldSize size).ptrNext (newAddr i) =
        heap.ptrNext (oldAddr i) ∧
      (heap.moveBlocks oldAddr newAddr blockSize oldSize size).ptrPrev (newAddr i) =
        heap.ptrPrev (oldAddr i) ∧
      (heap.moveBlocks oldAddr newAddr blockSize oldSize size).id (newAddr i) =
        heap.id (oldAddr i) ∧
      (heap.moveBlocks oldAddr newAddr blockSize oldSize size).data (newAddr i) =
        heap.data (oldAddr i) := by
  have hsource : ∀ j ∈ List.range size, newAddr j ≠ oldAddr i :=
    fun j hj => hold j (List.mem_range.mp hj)
  have hnumbered : ∀ j ∈ List.range' oldSize (size - oldSize), newAddr j ≠ oldAddr i := by
    intro j hj
    rw [List.mem_range'_1] at hj
    exact hold j (by omega)
  have hread : ∀ {γ : Type} (value : Nat → γ) (field : Addr → γ),
      writeEach newAddr value (List.range oldSize) field (newAddr i) = value i := by
    intro γ value field
    refine writeEach_of_mem (List.mem_range.mpr hi) fun j hj => hinj i (by omega) j ?_
    exact Nat.lt_of_lt_of_le (List.mem_range.mp hj) hle
  refine ⟨?_, ?_, ?_, ?_⟩
  · exact (hread _ _).trans (writeEach_of_ne hsource)
  · exact (hread _ _).trans (writeEach_of_ne hsource)
  · exact (hread _ _).trans ((writeEach_of_ne hnumbered).trans (writeEach_of_ne hsource))
  · exact (hread _ _).trans (writeEach_of_ne hsource)

theorem moveBlocks_id (hinj : ∀ i < size, ∀ j < size, newAddr j = newAddr i → j = i) {i : Nat}
    (hold : oldSize ≤ i) (hi : i < size) :
    (heap.moveBlocks oldAddr newAddr blockSize oldSize size).id (newAddr i) = i := by
  have hcopied : ∀ j ∈ List.range oldSize, newAddr j ≠ newAddr i := by
    intro j hj heq
    rw [List.mem_range] at hj
    have hsame := hinj i hi j (by omega) heq
    omega
  refine (writeEach_of_ne hcopied).trans (writeEach_of_mem ?_ fun j hj => hinj i hi j ?_)
  · rw [List.mem_range'_1]
    omega
  · rw [List.mem_range'_1] at hj
    omega

end Move

end BlockHeap

namespace ListMemoryPool

variable {pool : ListMemoryPool} {inUse : List Nat}

/-- The pool that `ensureSize` leaves after moving its blocks to `newBuf`. -/
def moved (pool : ListMemoryPool) (newBuf : Addr) (size : Nat) (heap : BlockHeap) :
    ListMemoryPool :=
  { pool with
    heap := heap
    allocIndex := pool.size
    freeIndex := 0
    size := size
    memoryBlockBuf := newBuf
    memoryBlockPtrBuf := pool.memoryBlockPtrBuf.map (· + (newBuf - pool.memoryBlockBuf)) ++
      (List.range' pool.size (size - pool.size)).map (blockAddr newBuf pool.blockSize) }

section Moved

variable {newBuf : Addr} {size : Nat}

/-- The blocks copied to `newBuf`, with the links of the old ones. -/
def copied (pool : ListMemoryPool) (newBuf : Addr) (size : Nat) : BlockHeap :=
  pool.heap.moveBlocks pool.block (blockAddr newBuf pool.blockSize) pool.blockSize pool.size size

theorem fresh_inj (hfresh : pool.heap.Fresh newBuf pool.blockSize size) : ∀ i < size, ∀ j < size,
    blockAddr newBuf pool.blockSize j = blockAddr newBuf pool.blockSize i → j = i :=
  fun _ hi _ hj => blockAddr_inj hfresh.1 hj hi

theorem copied_of_live (hgrow : pool.size < size)
    (hfresh : pool.heap.Fresh newBuf pool.blockSize size) {a : Addr}
    (ha : pool.heap.live a = true) :
    (pool.copied newBuf size).ptrNext a = pool.heap.ptrNext a ∧
      (pool.copied newBuf size).ptrPrev a = pool.heap.ptrPrev a ∧
      (pool.copied newBuf size).live a = true := by
  rw [← ha]
  exact BlockHeap.moveBlocks_outside hgrow.le fun i hi => hfresh.ne_of_live ha hi

theorem HeapInv.copied_block (h : HeapInv pool inUse) (hgrow : pool.size < size)
    (hfresh : pool.heap.Fresh newBuf pool.blockSize size) {i : Nat} (hi : i < pool.size) :
    (pool.copied newBuf size).ptrNext (blockAddr newBuf pool.blockSize i) =
        pool.heap.ptrNext (pool.block i) ∧
      (pool.copied newBuf size).ptrPrev (blockAddr newBuf pool.blockSize i) =
        pool.heap.ptrPrev (pool.block i) ∧
      (pool.copied newBuf size).id (blockAddr newBuf pool.blockSize i) =
        pool.heap.id (pool.block i) ∧
      (pool.copied newBuf size).data (blockAddr newBuf pool.blockSize i) =
        pool.heap.data (pool.block i) :=
  BlockHeap.moveBlocks_copied hgrow.le (fresh_inj hfresh) hi
    fun _ hj => hfresh.ne_of_live (h.live_block i hi) hj

theorem map_block_shift (pool : ListMemoryPool) (newBuf : Addr) (inUse : List Nat) :
    (inUse.map pool.block).map (· + (newBuf - pool.memoryBlockBuf)) =
      inUse.map (blockAddr newBuf pool.blockSize) := by
  rw [List.map_map]
  exact List.map_congr_left fun i _ => blockAddr_add_delta _ _ _ _

theorem HeapInv.copied_links (h : HeapInv pool inUse) (hgrow : pool.size < size)
    (hfresh : pool.heap.Fresh newBuf pool.blockSize size) {x : Addr}
    (hx : x ∈ inUse.map pool.block) :
    (pool.copied newBuf size).ptrNext (x + (newBuf - pool.memoryBlockBuf)) =
        pool.heap.ptrNext x ∧
      (pool.copied newBuf size).ptrPrev (x + (newBuf - pool.memoryBlockBuf)) =
        pool.heap.ptrPrev x := by
  obtain ⟨i, hi, rfl⟩ := List.mem_map.mp hx
  obtain ⟨hnext, hprev, -, -⟩ := h.copied_block hgrow hfresh (h.in_use_lt i hi)
  rw [block, blockAddr_add_delta]
  exact ⟨hnext, hprev⟩

/-- The sentinels and the blocks in use, at their new places, are distinct. -/
theorem HeapInv.nodup_shifted (h : HeapInv pool inUse) (hgrow : pool.size < size)
    (hfresh : pool.heap.Fresh newBuf pool.blockSize size) :
    (pool.workingListHead :: (inUse.map (blockAddr newBuf pool.blockSize) ++
      [pool.workingListTail])).Nodup := by
  have hlt : ∀ i ∈ inUse, i < size := fun i hi => (h.in_use_lt i hi).trans hgrow
  have hnew : (inUse.map (blockAddr newBuf pool.blockSize)).Nodup :=
    h.nodup.map_on fun i hi j hj => fresh_inj hfresh j (hlt j hj) i (hlt i hi)
  have hends : pool.workingListHead ≠ pool.workingListTail := by
    intro heq
    exact (List.nodup_cons.mp h.list.nodup).1 (by simp [heq])
  refine List.nodup_cons.mpr ⟨?_, List.nodup_append.mpr ⟨hnew, by simp, ?_⟩⟩
  · intro hmem
    rcases List.mem_append.mp hmem with hmem | hmem
    · obtain ⟨i, hi, heq⟩ := List.mem_map.mp hmem
      exact hfresh.ne_of_live h.live_head (hlt i hi) heq
    · exact hends (List.mem_singleton.mp hmem)
  · intro a ha b hb
    obtain ⟨i, hi, rfl⟩ := List.mem_map.mp ha
    rw [List.mem_singleton.mp hb]
    exact hfresh.ne_of_live h.live_tail (hlt i hi)

/-- The two loops over the working list link the copied blocks as the old ones were linked. -/
theorem HeapInv.correct_links (h : HeapInv pool inUse) (hgrow : pool.size < size)
    (hfresh : pool.heap.Fresh newBuf pool.blockSize size) :
    ∃ next prev,
      (pool.copied newBuf size).correctNext (newBuf - pool.memoryBlockBuf) pool.workingListTail
          (pool.size + 1) pool.workingListHead =
        .ok { pool.copied newBuf size with ptrNext := next } ∧
      ({ pool.copied newBuf size with ptrNext := next } : BlockHeap).correctPrev
          (newBuf - pool.memoryBlockBuf) pool.workingListHead (pool.size + 1)
          pool.workingListTail =
        .ok { pool.copied newBuf size with ptrNext := next, ptrPrev := prev } ∧
      IsList next prev pool.workingListHead pool.workingListTail
        (inUse.map (blockAddr newBuf pool.blockSize)) := by
  have hshift := map_block_shift pool newBuf inUse
  have hnodup := h.nodup_shifted hgrow hfresh
  obtain ⟨hheadNext, -, hheadLive⟩ := copied_of_live hgrow hfresh h.live_head
  obtain ⟨-, htailPrev, htailLive⟩ := copied_of_live hgrow hfresh h.live_tail
  have hnext := fun x hx => (h.copied_links hgrow hfresh (x := x) hx).1
  have hprev := fun x hx => (h.copied_links hgrow hfresh (x := x) hx).2
  have hlive : ∀ a ∈ inUse.map (blockAddr newBuf pool.blockSize),
      (pool.copied newBuf size).live a = true := by
    intro a ha
    obtain ⟨i, hi, rfl⟩ := List.mem_map.mp ha
    exact BlockHeap.moveBlocks_live (fresh_inj hfresh) ((h.in_use_lt i hi).trans hgrow)
  have hfuel : (inUse.map pool.block).length < pool.size + 1 := by
    simpa using Nat.lt_succ_of_le h.length_le
  obtain ⟨next, prev, hrelinkNext, hrelinkPrev, hlist, -, -⟩ :=
    h.list.relocate (hshift ▸ hnodup) hheadNext htailPrev hnext hprev hfuel
  rw [hshift] at hlist
  have hforward := h.list.pending hheadNext hnext
  have hbackward := h.list.reverse.pending htailPrev fun x hx => hprev x (by simpa using hx)
  refine ⟨next, prev, ?_, ?_, hlist⟩
  · refine BlockHeap.correctLinks_of_pending BlockHeap.isField_next hforward ?_ ?_ hrelinkNext
    · rw [hshift]
      exact hnodup.sublist (List.Sublist.cons_cons _ (List.sublist_append_left _ _))
    · rw [hshift]
      intro a ha
      rcases List.mem_cons.mp ha with rfl | ha
      · exact hheadLive
      · exact hlive a ha
  · refine BlockHeap.correctLinks_of_pending BlockHeap.isField_prev hbackward ?_ ?_ hrelinkPrev
    · rw [List.map_reverse, hshift, ← List.nodup_reverse, List.reverse_cons,
        List.reverse_reverse]
      exact (List.nodup_cons.mp hnodup).2
    · rw [List.map_reverse, hshift]
      intro a ha
      rcases List.mem_cons.mp ha with rfl | ha
      · exact htailLive
      · exact hlive a (List.mem_reverse.mp ha)

/-- A growth succeeds, moves every block with its data, and keeps the working list. -/
theorem HeapInv.moved (h : HeapInv pool inUse) (hrealloc : pool.enableRealloc = true)
    (hbuf : pool.memoryBlockPtrBuf.length = pool.size) (hgrow : pool.size < size)
    (hfresh : pool.heap.Fresh newBuf pool.blockSize size) :
    ∃ heap, ensureSize newBuf size pool = .ok (true, pool.moved newBuf size heap) ∧
      HeapInv (pool.moved newBuf size heap) inUse ∧
      ∀ i < pool.size, heap.data (blockAddr newBuf pool.blockSize i) =
        pool.heap.data (pool.block i) := by
  obtain ⟨next, prev, hnext, hprev, hlist⟩ := h.correct_links hgrow hfresh
  -- the old buffer is released: nothing else that is live stands in it
  have hfree : ∀ {a : Addr}, (∀ i < pool.size, pool.block i ≠ a) →
      (pool.copied newBuf size).live a = true →
      writeEach pool.block (fun _ => false) (List.range pool.size)
        (pool.copied newBuf size).live a = true :=
    fun hne hlive => (writeEach_of_ne fun i hi => hne i (List.mem_range.mp hi)).trans hlive
  have hcopy : memcpy (List.replicate pool.size 0 ++
        (List.range' pool.size (size - pool.size)).map (blockAddr newBuf pool.blockSize)) 0
        pool.memoryBlockPtrBuf 0 pool.size =
      .ok (pool.memoryBlockPtrBuf ++
        (List.range' pool.size (size - pool.size)).map (blockAddr newBuf pool.blockSize)) := by
    rw [memcpy_start hbuf (by simp), List.drop_left' (by simp)]
  refine ⟨({ pool.copied newBuf size with ptrNext := next, ptrPrev := prev } :
    BlockHeap).freeBlocks pool.block pool.size, ?_, ?_, ?_⟩
  · have hptrs : ((pool.memoryBlockPtrBuf ++ (List.range' pool.size (size - pool.size)).map
        (blockAddr newBuf pool.blockSize)).take pool.size) = pool.memoryBlockPtrBuf :=
      List.take_left' hbuf
    have hrest : ((pool.memoryBlockPtrBuf ++ (List.range' pool.size (size - pool.size)).map
        (blockAddr newBuf pool.blockSize)).drop pool.size) =
          (List.range' pool.size (size - pool.size)).map (blockAddr newBuf pool.blockSize) :=
      List.drop_left' hbuf
    have hcopied : ((pool.heap.callocBlocks (blockAddr newBuf pool.blockSize) pool.blockSize
        size).numberBlocks (blockAddr newBuf pool.blockSize) pool.size
          (size - pool.size)).copyBlocks (blockAddr pool.memoryBlockBuf pool.blockSize)
            (blockAddr newBuf pool.blockSize) pool.size = pool.copied newBuf size := rfl
    rw [ensureSize, if_neg (Nat.not_le.mpr hgrow), if_pos hrealloc]
    simp only [hcopy, hptrs, hrest, hcopied, hnext, hprev, bind, Except.bind]
    rfl
  · refine ⟨hfresh.1, ?_, ?_, ?_, ?_, ?_, ?_, ?_, hlist⟩
    · exact hfree h.block_ne_head (copied_of_live hgrow hfresh h.live_head).2.2
    · exact hfree h.block_ne_tail (copied_of_live hgrow hfresh h.live_tail).2.2
    · intro i hi
      refine hfree (fun j hj heq => ?_) (BlockHeap.moveBlocks_live (fresh_inj hfresh) hi)
      exact hfresh.ne_of_live (h.live_block j hj) hi heq.symm
    · exact fun i hi => hfresh.ne_of_live h.live_head hi
    · exact fun i hi => hfresh.ne_of_live h.live_tail hi
    · intro i hi
      by_cases hold : i < pool.size
      · exact (h.copied_block hgrow hfresh hold).2.2.1.trans (h.id_block i hold)
      · exact BlockHeap.moveBlocks_id (fresh_inj hfresh) (Nat.not_lt.mp hold) hi
    · exact fun i hi => (h.in_use_lt i hi).trans hgrow
  · intro i hi
    exact (h.copied_block hgrow hfresh hi).2.2.2

end Moved

end ListMemoryPool

end HakunaMatata
