import HakunaMatata.Base.RingReuse
import HakunaMatata.ListMemoryPool.Safety

/-!
# Direct calls of `EnsureSize`, and the doubling in `Alloc`

`LeavesSafe` is what a direct call of `EnsureSize` that returns true should leave behind.
`EnsureSize` always places `alloc_index_` at the old size and `free_index_` at zero, which
is right for a full pool only. `Alloc` asks a full pool for `size_ * 2` in 32-bit
arithmetic, and `EnsureSize` reports success for a doubling that wrapped, or that stayed at
zero. `ensure_size_safe_iff` gives for every state reached by safe steps the exact
conditions under which the next `EnsureSize` and the next `Alloc` are safe.
-/

namespace HakunaMatata

open Base

namespace ListMemoryPool

/-- No allocation of any later run returns an id in use. -/
def NeverReturnsUsed (s : State) : Prop :=
  ∀ later, Steps s later → ∀ newBuf, Allowed later (.alloc newBuf) →
    ∀ id pool', alloc newBuf later.pool = .ok (id, pool') → id ∉ later.inUse ∨ id = allocFailed

/-- The blocks that the ring counts as idle: `size_ - working_num_` slots from `alloc_index_`. -/
def idleSlots (pool : ListMemoryPool) : List Addr :=
  SlotRing.window pool.memoryBlockPtrBuf pool.allocIndex (pool.size - pool.workingNum)

/-- A call of `EnsureSize` returns, and if it returns true the size is reached, the blocks in use
keep their ids and stay on the working list, the idle slots hold distinct blocks that are not in
use, and no later allocation returns an id in use. -/
def LeavesSafe (s : State) (newBuf : Addr) (size : Nat) : Prop :=
  ∃ enough pool', ensureSize newBuf size s.pool = .ok (enough, pool') ∧
    (enough = true → size ≤ pool'.size ∧
      (∀ id ∈ s.inUse, pool'.heap.id (pool'.block id) = id) ∧
      (∀ fuel, pool'.workingNum < fuel →
        walk pool'.heap.ptrNext pool'.workingListTail fuel pool'.workingListHead =
          some (s.inUse.map pool'.block)) ∧
      pool'.idleSlots.Nodup ∧ (∀ a ∈ pool'.idleSlots, a ∉ s.inUse.map pool'.block) ∧
      NeverReturnsUsed ⟨pool', s.inUse⟩)

/-- A call of `Alloc` returns an id that is not in use, or fails. -/
def ReturnsUnused (s : State) (newBuf : Addr) : Prop :=
  ∃ id pool', alloc newBuf s.pool = .ok (id, pool') ∧ (id ∉ s.inUse ∨ id = allocFailed)

variable {s s' : State}

/-! ## Safe calls -/

theorem Inv.returns_unused (h : Inv s) {newBuf : Addr} (hallowed : Allowed s (.alloc newBuf)) :
    ReturnsUnused s newBuf := by
  obtain ⟨result, s', hexec, houtcome⟩ := h.exec_alloc hallowed
  cases halloc : alloc newBuf s.pool with
  | error fault => simp [exec, halloc, bind, Except.bind] at hexec
  | ok value =>
    simp only [exec, halloc, bind, Except.bind, pure, Except.pure, Except.ok.injEq,
      Prod.mk.injEq] at hexec
    refine ⟨value.1, value.2, halloc, ?_⟩
    rcases houtcome.returned newBuf rfl with ⟨id, hid, hnew, -⟩ | ⟨-, hfailed, -⟩
    · rw [hid, Option.some.injEq] at hexec
      exact Or.inl (hexec.1 ▸ hnew)
    · rw [hfailed, Option.some.injEq] at hexec
      exact Or.inr hexec.1

/-- The invariant excludes that a later allocation returns an id in use. -/
theorem Inv.never_returns_used (h : Inv s) : NeverReturnsUsed s := by
  intro later hsteps newBuf hallowed id pool' halloc
  obtain ⟨id', pool'', halloc', hunused⟩ := (h.steps hsteps).1.returns_unused hallowed
  rw [halloc] at halloc'
  cases halloc'
  exact hunused

/-- Under the invariant the idle slots hold distinct blocks that are not in use. -/
theorem Inv.idle_slots (h : Inv s) :
    s.pool.idleSlots.Nodup ∧ ∀ a ∈ s.pool.idleSlots, a ∉ s.inUse.map s.pool.block := by
  obtain ⟨idle, hrep⟩ := h
  have hslots : s.pool.idleSlots = idle.map s.pool.block := by
    rw [← show s.pool.ring.idle = idle.map s.pool.block from hrep.idle_eq, idleSlots,
      ← hrep.consistent.buf_length]
    rfl
  have hinj : ∀ i ∈ idle, ∀ j < s.pool.size, s.pool.block i = s.pool.block j → i = j :=
    fun i hi j hj => hrep.consistent.heap.block_inj (hrep.idle_lt hi) hj
  rw [hslots]
  refine ⟨hrep.sound.nodup_idle.map_on fun i hi j hj => hinj i hi j (hrep.idle_lt hj), ?_⟩
  intro a ha hused
  obtain ⟨i, hi, rfl⟩ := List.mem_map.mp ha
  obtain ⟨j, hj, heq⟩ := List.mem_map.mp hused
  obtain rfl := hinj i hi j (hrep.busy_lt hj) heq.symm
  exact hrep.sound.idle_not_busy hi hj

theorem Inv.leaves_safe (h : Inv s) {newBuf : Addr} {size : Nat} (hsafe : SafeRequest s.pool size)
    (hword : size < 2 ^ 32) (hfresh : MallocFresh s.pool newBuf size) :
    LeavesSafe s newBuf size := by
  obtain ⟨enough, pool', hensure, hinv, hsize, -⟩ := h.ensure_of_safe hsafe hword hfresh
  obtain ⟨hnodup, hunused⟩ := hinv.idle_slots
  refine ⟨enough, pool', hensure, fun henough => ⟨hsize henough, ?_, ?_, hnodup, hunused,
    hinv.never_returns_used⟩⟩
  · intro id hid
    obtain ⟨idle, hrep⟩ := hinv
    exact hrep.consistent.heap.id_block id (hrep.busy_lt hid)
  · exact fun fuel hfuel => (hinv.walks hfuel).1

/-! ## Uses of the ring are runs of the pool -/

theorem Consistent.alloc_of_ring (h : Consistent s.pool s.inUse) {a : Addr} {r : SlotRing Addr}
    (halloc : s.pool.ring.alloc = some (a, r)) :
    ∃ i < s.pool.size, a = s.pool.block i ∧
      load s.pool.memoryBlockPtrBuf s.pool.allocIndex = .ok (s.pool.block i) ∧
      r = ⟨s.pool.memoryBlockPtrBuf,
        advance s.pool.allocIndex s.pool.memoryBlockPtrBuf.length, s.pool.freeIndex,
        s.pool.workingNum + 1⟩ := by
  simp only [SlotRing.alloc, Option.map_eq_some_iff, Prod.mk.injEq] at halloc
  obtain ⟨b, hget, rfl, rfl⟩ := halloc
  obtain ⟨hlt, hentry⟩ := List.getElem?_eq_some_iff.mp hget
  obtain ⟨i, hi, heq⟩ := h.entry b (hentry ▸ List.getElem_mem hlt)
  refine ⟨i, hi, heq, ?_, rfl⟩
  refine (load_of_lt hlt).trans ?_
  rw [hentry, heq]

theorem Consistent.use (h : Consistent s.pool s.inUse) (hfree : s.pool.freeIndex < s.pool.size)
    (hnever : NeverReturnsUsed s) {r : SlotRing Addr} {held : List Addr}
    (huse : SlotRing.Use (s.pool.ring, s.inUse.map s.pool.block) (r, held)) :
    ∃ s', machine.Step s s' ∧ s'.pool.ring = r ∧ s'.inUse.map s'.pool.block = held ∧
      Consistent s'.pool s'.inUse ∧ s'.pool.freeIndex < s'.pool.size := by
  cases huse with
  | alloc hused halloc =>
    have hworking : s.pool.workingNum < s.pool.size := h.buf_length ▸ hused
    have hallowed : Allowed s (.alloc 0) :=
      ⟨Or.inl hworking, fun hfull => absurd hworking (Nat.not_lt.mpr hfull)⟩
    obtain ⟨i, hi, rfl, hload, rfl⟩ := h.alloc_of_ring halloc
    have hreturned := h.alloc_eq 0 (fun hfull => absurd hworking (Nat.not_lt.mpr hfull)) hload hi
    have hfailed : i ≠ allocFailed := by
      have hsize := h.size_lt
      unfold allocFailed
      omega
    have hnew : i ∉ s.inUse := (hnever s .refl 0 hallowed i _ hreturned).resolve_right hfailed
    obtain ⟨pool', hexec, hconsistent, hring, hplace, -⟩ := h.take hworking hload hi hnew 0
    refine ⟨⟨pool', s.inUse ++ [i]⟩, ⟨.alloc 0, some i, hallowed, ?_⟩, hring, ?_, hconsistent, ?_⟩
    · simp only [exec, hexec, if_neg hfailed, bind, Except.bind, pure, Except.pure]
    · rw [hplace.block_eq, List.map_append]
      rfl
    · show pool'.freeIndex < pool'.size
      rw [hplace.size_eq, show pool'.freeIndex = s.pool.freeIndex from
        congrArg SlotRing.freeIndex hring]
      exact hfree
  | put hheld =>
    obtain ⟨i, hi, rfl⟩ := List.mem_map.mp hheld
    obtain ⟨pool', hexec, hconsistent, hring, hplace, -⟩ := h.release hi hfree
    refine ⟨⟨pool', s.inUse.erase i⟩, ⟨.free i, none, hi, ?_⟩, hring, ?_, hconsistent, ?_⟩
    · simp only [exec, free, hexec, bind, Except.bind, pure, Except.pure]
    · rw [hplace.block_eq]
      refine (map_erase_of_inj fun j hj heq => ?_).symm
      exact h.heap.block_inj (h.heap.in_use_lt j hj) (h.heap.in_use_lt i hi) heq
    · show pool'.freeIndex < pool'.size
      rw [hplace.size_eq, show pool'.freeIndex = advance s.pool.freeIndex _ from
        congrArg SlotRing.freeIndex hring]
      exact h.buf_length ▸ advance_lt (h.buf_length.symm ▸ hfree)

/-- A pool that never returns an id in use has a ring that never reuses a block. -/
theorem Consistent.never_reuses (h : Consistent s.pool s.inUse)
    (hfree : s.pool.freeIndex < s.pool.size) (hnever : NeverReturnsUsed s) :
    SlotRing.NeverReuses (s.pool.ring, s.inUse.map s.pool.block) := by
  -- every sequence of uses is followed by a run, which stays consistent
  have hlift : ∀ target, SlotRing.Uses (s.pool.ring, s.inUse.map s.pool.block) target →
      ∃ s', Steps s s' ∧ (s'.pool.ring, s'.inUse.map s'.pool.block) = target ∧
        Consistent s'.pool s'.inUse ∧ s'.pool.freeIndex < s'.pool.size := by
    intro target huses
    induction huses with
    | refl => exact ⟨s, .refl, rfl, h, hfree⟩
    | tail _ huse ih =>
      obtain ⟨middle, hsteps, rfl, hconsistent, hmiddle⟩ := ih
      obtain ⟨last, hstep, hring, hheld, hlast⟩ := hconsistent.use hmiddle
        (fun later hlater => hnever later (hsteps.trans hlater)) huse
      exact ⟨last, .tail hsteps hstep, by rw [hring, hheld], hlast⟩
  intro r held a r' huses hused halloc
  obtain ⟨later, hsteps, heq, hconsistent, -⟩ := hlift _ huses
  cases heq
  have hworking : later.pool.workingNum < later.pool.size := hconsistent.buf_length ▸ hused
  have hallowed : Allowed later (.alloc 0) :=
    ⟨Or.inl hworking, fun hfull => absurd hworking (Nat.not_lt.mpr hfull)⟩
  obtain ⟨i, hi, rfl, hload, -⟩ := hconsistent.alloc_of_ring halloc
  have hreturned := hconsistent.alloc_eq 0
    (fun hfull => absurd hworking (Nat.not_lt.mpr hfull)) hload hi
  rw [hconsistent.heap.block_mem_iff hi]
  refine (hnever later hsteps 0 hallowed i _ hreturned).resolve_right ?_
  have hsize := hconsistent.size_lt
  unfold allocFailed
  omega

/-! ## Unsafe calls -/

/-- A growth of a pool that is not full misplaces the ring indices. -/
theorem Inv.not_safe_of_growth (h : Inv s) {newBuf : Addr} {size : Nat}
    (hgrow : s.pool.size < size) (hrealloc : s.pool.enableRealloc = true)
    (hworking : s.pool.workingNum < s.pool.size) (hword : size < 2 ^ 32)
    (hfresh : s.pool.heap.Fresh newBuf s.pool.blockSize size) : ¬ LeavesSafe s newBuf size := by
  obtain ⟨idle, hrep⟩ := h
  obtain ⟨grown, hensure, hconsistent, hring, hsize, -, -⟩ :=
    hrep.consistent.grow hrealloc hgrow hword hfresh
  rintro ⟨enough, pool', hensure', hsafe⟩
  rw [hensure] at hensure'
  cases hensure'
  obtain ⟨-, -, -, -, -, hnever⟩ := hsafe rfl
  have hcells : grown.ring.cells.length = size := hconsistent.buf_length.trans hsize
  have hindex : grown.ring.allocIndex = s.pool.size := congrArg SlotRing.allocIndex hring
  have hrefill : grown.ring.freeIndex = 0 := congrArg SlotRing.freeIndex hring
  have hused : grown.ring.used = s.pool.workingNum := congrArg SlotRing.used hring
  have hnever' := Consistent.never_reuses (s := ⟨grown, s.inUse⟩) hconsistent
    (show grown.freeIndex < grown.size by
      rw [hsize, show grown.freeIndex = 0 from hrefill]
      omega) hnever
  refine SlotRing.misplaced_reuse (Nat.sub_pos_of_lt hgrow) ?_ ?_ ?_ hnever'
  · show grown.ring.allocIndex < grown.ring.cells.length
    omega
  · show grown.ring.freeIndex = (grown.ring.allocIndex + _) % grown.ring.cells.length
    rw [hrefill, hindex, hcells, Nat.add_sub_cancel' hgrow.le, Nat.mod_self]
  · show size - s.pool.size + grown.ring.used < grown.ring.cells.length
    omega

/-- An allocation from a full pool whose doubling wraps or stays at zero returns an id in use, or
reads outside the ring. -/
theorem Inv.not_unused_of_wrap (h : Inv s) {newBuf : Addr} (hnotSafe : ¬ SafeAlloc s.pool) :
    ¬ ReturnsUnused s newBuf := by
  obtain ⟨idle, hrep⟩ := h
  simp only [SafeAlloc, not_or, not_and, Nat.not_lt] at hnotSafe
  obtain ⟨hworking, hwrap⟩ := hnotSafe
  have hsize := hrep.consistent.size_lt
  have hroom : ensureSize newBuf (u32 (s.pool.size * 2)) s.pool = .ok (true, s.pool) := by
    rw [ensureSize, if_pos]
    unfold u32
    omega
  rintro ⟨id, pool', halloc, hunused⟩
  rcases Nat.eq_zero_or_pos s.pool.size with hzero | hpos
  · have hload : load s.pool.memoryBlockPtrBuf s.pool.allocIndex = .error .outOfBounds := by
      have hnil : s.pool.memoryBlockPtrBuf = [] :=
        List.length_eq_zero_iff.mp (hrep.consistent.buf_length.trans hzero)
      rw [hnil]
      rfl
    simp only [alloc, if_pos hworking, hroom, hload, bind, Except.bind, if_true] at halloc
    cases halloc
  · have hindex : s.pool.allocIndex < s.pool.memoryBlockPtrBuf.length := (hrep.wf hpos).alloc_lt
    obtain ⟨i, hi, hentry⟩ := hrep.consistent.entry _ (List.getElem_mem hindex)
    have hreturned := hrep.consistent.alloc_eq newBuf (fun _ => hroom)
      ((load_of_lt hindex).trans (congrArg Except.ok hentry)) hi
    rw [halloc] at hreturned
    cases hreturned
    have hused : id ∈ s.inUse := hrep.busy_of_full (hrep.full_iff.mp hworking) hi
    rcases hunused with hunused | hfailed
    · exact hunused hused
    · exact hrep.ne_failed hused hfailed

/-- In every state reached by steps that meet the conditions, `EnsureSize` is safe exactly when the
request does not grow the pool, when the pool may not reallocate, or when every block is in use;
and `Alloc` returns an unused id or fails exactly when a block is idle or the doubling of
the size neither wraps nor stays at zero. -/
theorem ensure_size_safe_iff {initSize : Nat} {enableRealloc : Bool}
    (h : ReachableFrom initSize enableRealloc s) :
    (∀ newBuf size, size < 2 ^ 32 → MallocFresh s.pool newBuf size →
      (LeavesSafe s newBuf size ↔ SafeRequest s.pool size)) ∧
    ∀ newBuf, (s.pool.workingNum ≥ s.pool.size → MallocFresh s.pool newBuf (s.pool.size * 2)) →
      (ReturnsUnused s newBuf ↔ SafeAlloc s.pool) := by
  have hinv := h.inv.1
  refine ⟨fun newBuf size hword hfresh => ⟨fun hsafe => ?_, fun hrequest => ?_⟩,
    fun newBuf hfresh => ⟨fun hreturns => ?_, fun hsafe => ?_⟩⟩
  · by_contra hnot
    simp only [SafeRequest, not_or, Nat.not_le, Bool.not_eq_false] at hnot
    obtain ⟨hgrow, hrealloc, hpartial⟩ := hnot
    have hworking : s.pool.workingNum < s.pool.size := by
      obtain ⟨idle, hrep⟩ := hinv
      exact Nat.lt_of_le_of_ne hrep.consistent.working_le hpartial
    exact hinv.not_safe_of_growth hgrow hrealloc hworking hword (hfresh hgrow hrealloc) hsafe
  · exact hinv.leaves_safe hrequest hword hfresh
  · by_contra hnot
    exact hinv.not_unused_of_wrap hnot hreturns
  · exact hinv.returns_unused ⟨hsafe, hfresh⟩

/-- The theorem at a pool whose only block is in use, asked for two blocks. -/
theorem ensure_size_safe_iff_full :
    ∃ s, machine.run (smallStart 1 true) [.alloc 0] = some s ∧ SafeRequest s.pool 2 ∧
      LeavesSafe s 4096 2 := by
  have hvalues : (machine.run (smallStart 1 true) [.alloc 0]).map (fun s =>
      decide (SafeRequest s.pool 2 ∧ MallocFresh s.pool 4096 2)) = some true := by
    decide +kernel
  obtain ⟨s, hs, hdecided⟩ := Option.map_eq_some_iff.mp hvalues
  obtain ⟨hsafe, hfresh⟩ := of_decide_eq_true hdecided
  have hreach : ReachableFrom 1 true s :=
    ⟨_, small_start_constructed (by decide), Machine.steps_of_run hs⟩
  exact ⟨s, hs, hsafe, ((ensure_size_safe_iff hreach).1 4096 2 (by decide) hfresh).mpr hsafe⟩

/-- A pool of two blocks with the first one in use, asked for four: the ring then counts the block
in use as idle. -/
theorem ensure_size_partial_unsafe :
    ¬ ∀ initSize enableRealloc s newBuf size, ReachableFrom initSize enableRealloc s →
      size < 2 ^ 32 → MallocFresh s.pool newBuf size → LeavesSafe s newBuf size := by
  intro hall
  have hstate : (machine.run (smallStart 2 true) [.alloc 0]).map (fun s =>
      (decide (MallocFresh s.pool 4096 4), s.inUse)) = some (true, [0]) := by
    decide +kernel
  have hcall : ((machine.run (smallStart 2 true) [.alloc 0]).bind fun s =>
      (ensureSize 4096 4 s.pool).toOption.map fun result =>
        (result.1, result.2.idleSlots, result.2.block 0)) =
      some (true, [4144, 4168, 4096], 4096) := by
    decide +kernel
  obtain ⟨s, hs, hvalues⟩ := Option.map_eq_some_iff.mp hstate
  simp only [Prod.mk.injEq, decide_eq_true_eq] at hvalues
  obtain ⟨hfresh, hinUse⟩ := hvalues
  have hreach : ReachableFrom 2 true s :=
    ⟨_, small_start_constructed (by decide), Machine.steps_of_run hs⟩
  obtain ⟨enough, pool', hensure, hsafe⟩ := hall 2 true s 4096 4 hreach (by decide) hfresh
  simp only [hs, Option.bind_some, hensure, Except.toOption, Option.map_some, Option.some.injEq,
    Prod.mk.injEq] at hcall
  obtain ⟨henough, hslots, hblock⟩ := hcall
  obtain ⟨-, -, -, -, hunused, -⟩ := hsafe henough
  refine hunused 4096 (by simp [hslots]) ?_
  rw [hinUse, List.map_singleton, hblock]
  exact List.mem_singleton_self _

end ListMemoryPool

end HakunaMatata
