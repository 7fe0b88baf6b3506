import HakunaMatata.ListMemoryPool.Safety
import HakunaMatata.UseIndex.Refinement

/-!
# The two list pools side by side

A `PairState` is a pointer pool and an index pool that were constructed with the same
arguments and receive the same operations. `SameView` is what a user can compare: the size,
the number of blocks in use, and the working list read forward and backward. Both pools
represent the same abstract pool as long as the index pool neither grows nor hands out block
`TAIL_ID`. `use_index_agrees_iff` shows that these are the exact conditions: the next
allocation agrees for all contents of the memory behind the index buffer exactly when it
meets them.
-/

namespace HakunaMatata

open Base

/-- The ids on the working list, read forward from `working_list_head_`. -/
def ListMemoryPool.forwardIds (pool : ListMemoryPool) (fuel : Nat) : Option (List Nat) :=
  (walk pool.heap.ptrNext pool.workingListTail fuel pool.workingListHead).map
    (List.map pool.heap.id)

/-- The ids on the working list, read backward from `working_list_tail_`. -/
def ListMemoryPool.backwardIds (pool : ListMemoryPool) (fuel : Nat) : Option (List Nat) :=
  (walk pool.heap.ptrPrev pool.workingListHead fuel pool.workingListTail).map
    (List.map pool.heap.id)

namespace ListMemoryPoolUseIndex

/-- The ids on the working list, read forward with `GetNext`. -/
def forwardIds (pool : ListMemoryPoolUseIndex) (fuel : Nat) : Option (List Nat) :=
  (walk pool.heap.getNext .tail fuel .head).map (List.map pool.heap.id)

/-- The ids on the working list, read backward with `GetPrev`. -/
def backwardIds (pool : ListMemoryPoolUseIndex) (fuel : Nat) : Option (List Nat) :=
  (walk pool.heap.getPrev .head fuel .tail).map (List.map pool.heap.id)

/-- A pointer pool and an index pool, with the ids in use. -/
structure PairState where
  pointer : ListMemoryPool
  index : ListMemoryPoolUseIndex
  inUse : List Nat

/-- The operations performed on both pools. An allocation carries the address of a new buffer of
the pointer pool and the words behind the index buffer. -/
inductive PairOp where
  | alloc (newBuf : Addr) (junk : Nat → Nat)
  | free (id : Nat)

/-- Run one operation on both pools. The result is the pair of ids that an allocation returns. -/
def execPair (s : PairState) : PairOp → Except Fault (Option (Nat × Nat) × PairState)
  | .alloc newBuf junk => do
    let (id, pointer) ← s.pointer.alloc newBuf
    let (id', index) ← alloc junk s.index
    pure (some (id, id'), ⟨pointer, index, s.inUse ++ [id]⟩)
  | .free id => do
    let pointer ← s.pointer.free id
    let index ← free id s.index
    pure (none, ⟨pointer, index, s.inUse.erase id⟩)

/-- Both pools report the same size, the same working size, and the same working list in both
directions. -/
structure SameView (s : PairState) : Prop where
  size_eq : s.index.size = s.pointer.size
  working_eq : s.index.workingNum = s.pointer.workingNum
  forward_eq : ∀ fuel, s.pointer.workingNum < fuel →
    s.index.forwardIds fuel = s.pointer.forwardIds fuel
  backward_eq : ∀ fuel, s.pointer.workingNum < fuel →
    s.index.backwardIds fuel = s.pointer.backwardIds fuel

/-- An operation succeeds on both pools, with the same result and the same view after it. -/
def AgreesOn (s : PairState) (op : PairOp) : Prop :=
  ∃ result s', execPair s op = .ok (result, s') ∧ (∀ ids, result = some ids → ids.1 = ids.2) ∧
    SameView s'

/-- The allocations on which the pools agree: a block is idle, and it is not block `TAIL_ID`. -/
def AgreedAlloc (s : PairState) : Prop :=
  s.index.workingNum < s.index.size ∧
    load s.index.memoryBlockIndexBuf s.index.allocIndex ≠ .ok tailId

/-- The operations on which the pools agree. -/
def AllowedPair (s : PairState) : PairOp → Prop
  | .alloc _ _ => AgreedAlloc s
  | .free id => id ∈ s.inUse

/-- The two pools as a machine of operations on which they agree. -/
abbrev pairMachine : Machine PairState PairOp (Option (Nat × Nat)) := ⟨AllowedPair, execPair⟩

/-- Both pools are constructed with the same arguments, with reallocation. -/
def ConstructedPair (initSize : Nat) (s : PairState) : Prop :=
  ListMemoryPool.Constructed initSize true ⟨s.pointer, s.inUse⟩ ∧
    ∃ heap, s.index = create heap s.pointer.blockSize initSize true

/-- The state is reached from construction by operations on which the pools agree. -/
def ReachablePair (initSize : Nat) (s : PairState) : Prop :=
  ∃ first, ConstructedPair initSize first ∧ pairMachine.Steps first s

/-- Both pools represent the same abstract pool. -/
structure PairInv (s : PairState) (idle : List Nat) : Prop where
  pointer : s.pointer.Represents ⟨idle, s.inUse⟩
  index : s.index.Represents ⟨idle, s.inUse⟩
  size_eq : s.index.size = s.pointer.size
  pointer_realloc : s.pointer.enableRealloc = true
  index_realloc : s.index.enableRealloc = true

variable {s : PairState} {idle : List Nat}

theorem pointer_ids {pool : ListMemoryPool} {p : Pool Nat} (h : pool.Represents p) {fuel : Nat}
    (hfuel : pool.workingNum < fuel) :
    pool.forwardIds fuel = some p.busy ∧ pool.backwardIds fuel = some p.busy.reverse := by
  have hinv : ListMemoryPool.Inv ⟨pool, p.busy⟩ := ⟨p.idle, h⟩
  obtain ⟨hforward, hbackward⟩ := hinv.walks hfuel
  have hids : (p.busy.map pool.block).map pool.heap.id = p.busy := hinv.ids
  refine ⟨?_, ?_⟩
  · rw [ListMemoryPool.forwardIds]
    exact (congrArg (Option.map _) hforward).trans (congrArg some hids)
  · rw [ListMemoryPool.backwardIds]
    refine (congrArg (Option.map _) hbackward).trans (congrArg some ?_)
    rw [List.map_reverse, hids]

theorem Represents.ids {pool : ListMemoryPoolUseIndex} {p : Pool Nat} (h : pool.Represents p) :
    (p.busy.map BlockRef.block).map pool.heap.id = p.busy := by
  rw [List.map_map]
  exact (List.map_congr_left fun i hi => h.id_block i (h.busy_lt hi)).trans (List.map_id p.busy)

theorem index_ids {pool : ListMemoryPoolUseIndex} {p : Pool Nat} (h : pool.Represents p)
    {fuel : Nat} (hfuel : pool.workingNum < fuel) :
    pool.forwardIds fuel = some p.busy ∧ pool.backwardIds fuel = some p.busy.reverse := by
  have hlength : (p.busy.map BlockRef.block).length < fuel := by
    rw [List.length_map]
    exact h.working_eq ▸ hfuel
  refine ⟨?_, ?_⟩
  · rw [forwardIds, h.list.walk_next hlength, Option.map_some, h.ids]
  · rw [backwardIds, h.list.walk_prev hlength, Option.map_some, List.map_reverse, h.ids]

/-- Pools that represent the same abstract pool show the same view. -/
theorem PairInv.same_view (h : PairInv s idle) : SameView s := by
  have hworking : s.index.workingNum = s.pointer.workingNum :=
    h.index.working_eq.trans h.pointer.consistent.working_eq.symm
  refine ⟨h.size_eq, hworking, ?_, ?_⟩
  · intro fuel hfuel
    rw [(index_ids h.index (hworking ▸ hfuel)).1, (pointer_ids h.pointer hfuel).1]
  · intro fuel hfuel
    rw [(index_ids h.index (hworking ▸ hfuel)).2, (pointer_ids h.pointer hfuel).2]

/-! ## Steps on which the pools agree -/

theorem ConstructedPair.inv {initSize : Nat} (h : ConstructedPair initSize s) :
    PairInv s (List.range initSize) := by
  obtain ⟨pointer, index, inUse⟩ := s
  obtain ⟨⟨heap, buf, head, tail, blockSize, hhead, htail, hne, hfresh, hsize, hpointer⟩,
    indexHeap, hindex⟩ := h
  obtain ⟨rfl, rfl⟩ := ListMemoryPool.State.mk.inj hpointer
  change index = create indexHeap blockSize initSize true at hindex
  subst hindex
  exact ⟨ListMemoryPool.create_represents hhead htail hne hfresh hsize true,
    create_represents indexHeap _ hsize true, rfl, rfl, rfl⟩

theorem PairInv.alloc (h : PairInv s idle) {i : Nat} {rest : List Nat} (hidle : idle = i :: rest)
    (htail : i ≠ tailId) (newBuf : Addr) (junk : Nat → Nat) :
    ∃ s', execPair s (.alloc newBuf junk) = .ok (some (i, i), s') ∧ PairInv s' rest ∧
      s'.pointer.size = s.pointer.size := by
  obtain ⟨pool', halloc, hrep, hplace, -⟩ :=
    h.pointer.alloc_idle (show (Pool.mk idle s.inUse).idle = i :: rest from hidle) newBuf
  obtain ⟨halloc', hrep'⟩ :=
    h.index.alloc_idle (show (Pool.mk idle s.inUse).idle = i :: rest from hidle) htail junk
  refine ⟨⟨pool', s.index.taken i, s.inUse ++ [i]⟩, ?_, ⟨hrep, hrep', ?_, ?_, h.index_realloc⟩,
    hplace.size_eq⟩
  · simp only [execPair, halloc, halloc', bind, Except.bind, pure, Except.pure]
  · exact h.size_eq.trans hplace.size_eq.symm
  · exact hplace.realloc_eq.trans h.pointer_realloc

theorem PairInv.free (h : PairInv s idle) {id : Nat} (hid : id ∈ s.inUse) :
    ∃ s', execPair s (.free id) = .ok (none, s') ∧ PairInv s' (idle ++ [id]) ∧
      s'.pointer.size = s.pointer.size := by
  obtain ⟨pointer, hfree, hrep, hplace, -⟩ := h.pointer.free_busy hid
  obtain ⟨index, hfree', hrep', hsize, hrealloc⟩ := h.index.free_busy hid
  refine ⟨⟨pointer, index, s.inUse.erase id⟩, ?_, ⟨hrep, hrep', ?_, ?_, ?_⟩, hplace.size_eq⟩
  · simp only [execPair, ListMemoryPool.free, hfree, hfree', bind, Except.bind, pure, Except.pure]
  · exact (hsize.trans h.size_eq).trans hplace.size_eq.symm
  · exact hplace.realloc_eq.trans h.pointer_realloc
  · exact hrealloc.trans h.index_realloc

theorem PairInv.agreed_iff (h : PairInv s idle) :
    AgreedAlloc s ↔ ∃ i rest, idle = i :: rest ∧ i ≠ tailId := by
  cases hidle : idle with
  | nil =>
    have hfull := h.index.full_iff.mpr hidle
    simp only [AgreedAlloc, reduceCtorEq, false_and, exists_const, iff_false, not_and]
    exact fun hworking => absurd hworking (Nat.not_lt.mpr hfull)
  | cons i rest =>
    have hload := (h.index.alloc_eq
      (show (Pool.mk idle s.inUse).idle = i :: rest from hidle) (fun _ => 0)).2.1
    have hworking : s.index.workingNum < s.index.size := by
      rw [← Nat.not_le, ← ge_iff_le, h.index.full_iff, hidle]
      exact List.cons_ne_nil _ _
    simp only [AgreedAlloc, hworking, hload, true_and, ne_eq, Except.ok.injEq, List.cons.injEq]
    constructor
    · intro hne
      exact ⟨i, rest, ⟨rfl, rfl⟩, hne⟩
    · rintro ⟨j, rest', ⟨rfl, rfl⟩, hne⟩
      exact hne

/-- Every step on which the pools agree keeps the common abstract pool and the size. -/
theorem ReachablePair.inv {initSize : Nat} (h : ReachablePair initSize s) :
    (∃ idle, PairInv s idle) ∧ s.pointer.size = initSize := by
  obtain ⟨first, hfirst, hsteps⟩ := h
  refine Machine.invariant (fun s => (∃ idle, PairInv s idle) ∧ s.pointer.size = initSize)
    (fun s op hinv hallowed => ?_) ⟨⟨_, hfirst.inv⟩, ?_⟩ hsteps
  · obtain ⟨⟨idle, hinv⟩, hsize⟩ := hinv
    cases op with
    | alloc newBuf junk =>
      obtain ⟨i, rest, hidle, htail⟩ := hinv.agreed_iff.mp hallowed
      obtain ⟨s', hexec, hinv', hsize'⟩ := hinv.alloc hidle htail newBuf junk
      exact ⟨_, s', hexec, ⟨rest, hinv'⟩, hsize'.trans hsize⟩
    | free id =>
      obtain ⟨s', hexec, hinv', hsize'⟩ := hinv.free hallowed
      exact ⟨_, s', hexec, ⟨_, hinv'⟩, hsize'.trans hsize⟩
  · obtain ⟨⟨_, _, _, _, _, -, -, -, -, -, hpointer⟩, -⟩ := hfirst
    rw [(ListMemoryPool.State.mk.inj hpointer).1]
    rfl

/-! ## Steps on which the pools differ -/

/-- When the allocation makes the pools grow, the memory behind the index buffer can name a block
other than the one that the pointer pool returns. -/
theorem PairInv.differs_of_full (h : PairInv s idle) (hfull : idle = []) (hpos : 0 < s.pointer.size)
    {newBuf : Addr} (hword : s.pointer.size * 2 < 2 ^ 32)
    (hfresh : s.pointer.MallocFresh newBuf (s.pointer.size * 2)) :
    ¬ AgreesOn s (.alloc newBuf fun _ => 0) := by
  obtain ⟨pointer, halloc, -⟩ := h.pointer.alloc_full hfull h.pointer_realloc hpos hword
    (hfresh (by omega) h.pointer_realloc)
  have hsize := h.size_eq
  have hpos' : 0 < s.index.size := by omega
  obtain ⟨index, halloc'⟩ :=
    h.index.alloc_full hfull h.index_realloc hpos' (by omega) (fun _ => 0) hpos'
  rintro ⟨result, s', hexec, hsame, -⟩
  simp only [execPair, halloc, halloc', bind, Except.bind, pure, Except.pure, Except.ok.injEq,
    Prod.mk.injEq] at hexec
  have hids := hsame _ hexec.1.symm
  exact Nat.ne_of_gt hpos hids

/-- When the allocation takes block `TAIL_ID`, the forward list of the index pool lacks it. -/
theorem PairInv.differs_of_tailId (h : PairInv s idle) {rest : List Nat}
    (hidle : idle = tailId :: rest) (newBuf : Addr) (junk : Nat → Nat) :
    ¬ AgreesOn s (.alloc newBuf junk) := by
  have hfirst : (Pool.mk idle s.inUse).idle = tailId :: rest := hidle
  have hnew : tailId ∉ s.inUse := h.index.sound.idle_not_busy (by simp [hidle])
  obtain ⟨pool', halloc, hrep, -, -⟩ := h.pointer.alloc_idle hfirst newBuf
  obtain ⟨halloc', -, -, -, -⟩ := h.index.alloc_eq hfirst junk
  rintro ⟨result, s', hexec, -, hview⟩
  simp only [execPair, halloc, halloc', bind, Except.bind, pure, Except.pure, Except.ok.injEq,
    Prod.mk.injEq] at hexec
  obtain ⟨-, rfl⟩ := hexec
  have hworking : pool'.workingNum < s.inUse.length + 2 := by
    rw [hrep.consistent.working_eq]
    simp
  have hforward := hview.forward_eq (s.inUse.length + 2) hworking
  have hwalk := h.index.walk_linked_tailId hnew
    (show (Pool.mk idle s.inUse).busy.length < s.inUse.length + 2 by simp)
  have hindex : (s.index.taken tailId).forwardIds (s.inUse.length + 2) = some s.inUse :=
    (congrArg (Option.map (List.map s.index.heap.id)) hwalk).trans (congrArg some h.index.ids)
  change (s.index.taken tailId).forwardIds _ = pool'.forwardIds _ at hforward
  rw [hindex, (pointer_ids hrep hworking).1, Option.some.injEq] at hforward
  exact absurd (congrArg List.length hforward) (by simp)

/-- In every state reached from pools constructed alike by operations on which they agree, the
pools show the same view, and they agree on every release of an id in use. They agree on the next
allocation, whatever stands behind the index buffer, exactly when a block is idle and the next one
is not block `TAIL_ID`. -/
theorem use_index_agrees_iff {initSize : Nat} (hpos : 1 ≤ initSize)
    (h : ReachablePair initSize s) :
    SameView s ∧ (∀ id ∈ s.inUse, AgreesOn s (.free id)) ∧
      ∀ newBuf, (s.pointer.workingNum ≥ s.pointer.size →
          s.pointer.size * 2 < 2 ^ 32 ∧ s.pointer.MallocFresh newBuf (s.pointer.size * 2)) →
        ((∀ junk, AgreesOn s (.alloc newBuf junk)) ↔ AgreedAlloc s) := by
  obtain ⟨⟨idle, hinv⟩, hsize⟩ := h.inv
  refine ⟨hinv.same_view, ?_, ?_⟩
  · intro id hid
    obtain ⟨s', hexec, hinv', -⟩ := hinv.free hid
    exact ⟨none, s', hexec, nofun, hinv'.same_view⟩
  · intro newBuf hgrowth
    rw [hinv.agreed_iff]
    constructor
    · intro hagrees
      cases hidle : idle with
      | nil =>
        obtain ⟨hword, hfresh⟩ := hgrowth (hinv.pointer.full_iff.mpr hidle)
        exact absurd (hagrees fun _ => 0)
          (hinv.differs_of_full hidle (by omega) hword hfresh)
      | cons i rest =>
        refine ⟨i, rest, rfl, ?_⟩
        rintro rfl
        exact hinv.differs_of_tailId hidle newBuf (fun _ => 0) (hagrees fun _ => 0)
    · rintro ⟨i, rest, hidle, htail⟩ junk
      obtain ⟨s', hexec, hinv', -⟩ := hinv.alloc hidle htail newBuf junk
      refine ⟨some (i, i), s', hexec, ?_, hinv'.same_view⟩
      rintro ids ⟨⟩
      rfl

/-- Two pools of `initSize` blocks of four bytes. -/
def smallPair (initSize : Nat) : PairState where
  pointer := (ListMemoryPool.smallStart initSize true).pool
  index := create ⟨fun _ => 0, fun _ => 0, fun _ => 0, fun _ => []⟩ 4 initSize true
  inUse := []

theorem small_pair_reachable {initSize : Nat}
    (hfresh : ListMemoryPool.sentinelHeap.Fresh 1024 4 initSize ∧ initSize < 2 ^ 32) :
    ReachablePair initSize (smallPair initSize) :=
  ⟨_, ⟨ListMemoryPool.small_start_constructed hfresh, _, rfl⟩, .refl⟩

/-- The theorem at two pools of two idle blocks: the first allocation agrees. -/
theorem use_index_agrees_iff_small :
    AgreedAlloc (smallPair 2) ∧ ∀ junk, AgreesOn (smallPair 2) (.alloc 0 junk) := by
  have hagreed : AgreedAlloc (smallPair 2) := ⟨by decide, by decide⟩
  refine ⟨hagreed, ((use_index_agrees_iff (by decide) (small_pair_reachable (by decide))).2.2 0
    ?_).mpr hagreed⟩
  intro hfull
  exact absurd hfull (by decide)

/-- Two pools of one block, after both handed it out: the next allocation of the pointer pool
returns block one, and that of the index pool returns block zero again if the word behind its index
buffer is zero. -/
theorem use_index_differs_on_growth :
    ¬ ∀ initSize s newBuf junk, 1 ≤ initSize → ReachablePair initSize s →
      (s.pointer.workingNum ≥ s.pointer.size →
        s.pointer.size * 2 < 2 ^ 32 ∧ s.pointer.MallocFresh newBuf (s.pointer.size * 2)) →
      AgreesOn s (.alloc newBuf junk) := by
  intro hall
  have hfirst : (execPair (smallPair 1) (.alloc 0 fun _ => 0)).toOption.map (fun result =>
      decide (result.2.pointer.size * 2 < 2 ^ 32 ∧
        result.2.pointer.MallocFresh 4096 (result.2.pointer.size * 2))) = some true := by
    decide +kernel
  have hsecond : ((execPair (smallPair 1) (.alloc 0 fun _ => 0)).toOption.bind fun result =>
      (execPair result.2 (.alloc 4096 fun _ => 0)).toOption.map Prod.fst) =
      some (some (1, 0)) := by
    decide +kernel
  cases hexec : execPair (smallPair 1) (.alloc 0 fun _ => 0) with
  | error fault =>
    rw [hexec] at hfirst
    cases hfirst
  | ok value =>
    obtain ⟨result, s⟩ := value
    rw [hexec] at hfirst hsecond
    simp only [Except.toOption, Option.map_some, Option.some.injEq, decide_eq_true_eq,
      Option.bind_some] at hfirst hsecond
    have hagreed : AllowedPair (smallPair 1) (.alloc 0 fun _ => 0) := ⟨by decide, by decide⟩
    obtain ⟨first, hconstructed, hsteps⟩ := small_pair_reachable
      (show ListMemoryPool.sentinelHeap.Fresh 1024 4 1 ∧ 1 < 2 ^ 32 by decide)
    have hreach : ReachablePair 1 s :=
      ⟨first, hconstructed, hsteps.tail ⟨.alloc 0 fun _ => 0, result, hagreed, hexec⟩⟩
    obtain ⟨result', s', hexec', hsame, -⟩ :=
      hall 1 s 4096 (fun _ => 0) (Nat.le_refl 1) hreach fun _ => hfirst
    rw [hexec'] at hsecond
    simp only [Option.map_some, Option.some.injEq] at hsecond
    exact absurd (hsame _ hsecond) (by decide)

end ListMemoryPoolUseIndex

end HakunaMatata
