import HakunaMatata.Base.RingReuse
import HakunaMatata.MemoryPool.Safety

/-!
# Direct calls of `MemoryPoolEnsureSpace`

`LeavesSafe` is what a direct growth request should leave behind: the idle slots and the
blocks handed out still partition the blocks, both indices are inside the pointer buffer, and no
later allocation returns a block that is handed out. `ensure_space_safe_iff` shows that
from a reachable state this holds exactly for a `SafeRequest`. The code tests
`capacity < pool->capacity` although its comment says that the capacity must increase, and
it takes the empty ring for a ring in use; a request for the current capacity on a full or empty
pool, and any larger request on an empty pool, break the ring.
-/

namespace HakunaMatata

open Base

namespace MemoryPool

/-- The state after a growth request that returned this pool. -/
def State.afterRequest (s : State) (malloc : Malloc) (capacity : Nat) (pool : MemoryPool) : State :=
  ⟨pool, s.handedOut, s.created ++ freshBlocks s.pool malloc capacity⟩

/-- No allocation of any later run returns a block that is handed out. -/
def NeverReturnsUsed (s : State) : Prop :=
  ∀ later, Steps s later → ∀ malloc, Allowed later (.alloc malloc) →
    ∀ block pool', memoryPoolAlloc malloc later.pool = .ok (block, pool') →
      block ∉ later.handedOut

/-- A request for `capacity` leaves a pool whose idle slots and handed-out blocks partition the
blocks created, whose indices are inside the pointer buffer, and which never returns a block in
use. -/
def LeavesSafe (s : State) (malloc : Malloc) (capacity : Nat) : Prop :=
  ∃ pool', memoryPoolEnsureSpace malloc capacity s.pool = .ok pool' ∧
    (s.afterRequest malloc capacity pool').idle.Nodup ∧
    (∀ block ∈ (s.afterRequest malloc capacity pool').idle, block ∉ s.handedOut) ∧
    ((s.afterRequest malloc capacity pool').idle ++ s.handedOut).Perm
      (s.afterRequest malloc capacity pool').created ∧
    pool'.allocIndex < pool'.capacity ∧ pool'.freeIndex < pool'.capacity ∧
    NeverReturnsUsed (s.afterRequest malloc capacity pool')

variable {s s' : State}

theorem Inv.never_returns_used (h : Inv s) : NeverReturnsUsed s := by
  intro later hsteps malloc hallowed block pool' halloc
  obtain ⟨block', pool'', halloc', hnew⟩ := (h.steps hsteps).alloc hallowed
  rw [halloc] at halloc'
  cases halloc'
  exact hnew

/-! ## Uses of the ring are runs of the pool -/

/-- What the ring operations need of a pool, without the position of the refill index. -/
structure Loose (s : State) : Prop where
  capacity_eq : s.pool.capacity = s.pool.memoryPoolPtrBuf.length
  capacity_lt : s.pool.capacity < 2 ^ 32
  free_lt : s.pool.freeIndex < s.pool.capacity
  used_eq : s.handedOut.length = s.pool.used
  used_le : s.pool.used ≤ s.pool.capacity

theorem Loose.use (h : Loose s) {r : SlotRing Nat} {held : List Nat}
    (huse : SlotRing.Use (s.pool.ring, s.handedOut) (r, held)) :
    ∃ s', machine.Step s s' ∧ s'.pool.ring = r ∧ s'.handedOut = held ∧ Loose s' := by
  have hcapacity := h.capacity_eq
  have hlt := h.capacity_lt
  have hle := h.used_le
  have hfree := h.free_lt
  cases huse with
  | alloc hused halloc =>
    rename_i block
    have hroom : s.pool.used < s.pool.capacity := hcapacity ▸ hused
    obtain ⟨pool', hexec, rfl, hbuf, hcap⟩ :=
      alloc_eq_ring_alloc hcapacity hlt hroom halloc ⟨0, id⟩
    simp only [SlotRing.alloc, Option.map_eq_some_iff, Prod.mk.injEq] at halloc
    obtain ⟨_, -, -, hring⟩ := halloc
    have hindex : pool'.freeIndex = s.pool.freeIndex :=
      (congrArg SlotRing.freeIndex hring).symm
    have hcount : pool'.used = s.pool.used + 1 := (congrArg SlotRing.used hring).symm
    refine ⟨⟨pool', s.handedOut ++ [block], s.created⟩,
      ⟨.alloc ⟨0, id⟩, some block, fun hfull => absurd hfull (Nat.ne_of_lt hroom), ?_⟩, rfl, rfl,
      ?_⟩
    · simp only [exec, hexec, Nat.ne_of_lt hroom, if_false, bind, Except.bind, pure, Except.pure,
        List.append_nil]
    · refine ⟨?_, ?_, ?_, ?_, ?_⟩
      · rw [hcap, hbuf, hcapacity]
      · rw [hcap]
        exact hlt
      · rw [hcap, hindex]
        exact hfree
      · simp [hcount, h.used_eq]
      · rw [hcap, hcount]
        exact hroom
  | put hheld =>
    rename_i block
    have hpos : 0 < s.pool.used := h.used_eq ▸ List.length_pos_of_mem hheld
    obtain ⟨pool', hexec, hring, hlength, hcap⟩ :=
      free_eq_ring_put hcapacity hfree hpos (by omega) block
    have hindex : pool'.freeIndex = advance s.pool.freeIndex s.pool.memoryPoolPtrBuf.length :=
      congrArg SlotRing.freeIndex hring
    have hcount : pool'.used = s.pool.used - 1 := congrArg SlotRing.used hring
    refine ⟨⟨pool', s.handedOut.erase block, s.created⟩, ⟨.free block, none, hheld, ?_⟩, hring,
      rfl, ?_⟩
    · simp only [exec, hexec, bind, Except.bind, pure, Except.pure]
    · refine ⟨?_, ?_, ?_, ?_, ?_⟩
      · rw [hcap, hlength, hcapacity]
      · rw [hcap]
        exact hlt
      · rw [hcap, hindex, ← hcapacity]
        exact advance_lt hfree
      · simp [List.length_erase_of_mem hheld, h.used_eq, hcount]
      · rw [hcap, hcount]
        omega

/-- A sequence of uses of the ring is a run of the pool. -/
theorem Loose.uses (h : Loose s) {target : SlotRing Nat × List Nat}
    (huses : SlotRing.Uses (s.pool.ring, s.handedOut) target) :
    ∃ s', Steps s s' ∧ (s'.pool.ring, s'.handedOut) = target ∧ Loose s' := by
  induction huses with
  | refl => exact ⟨s, .refl, rfl, h⟩
  | tail _ huse ih =>
    obtain ⟨middle, hsteps, rfl, hloose⟩ := ih
    obtain ⟨last, hstep, hring, hheld, hlast⟩ := hloose.use huse
    exact ⟨last, .tail hsteps hstep, by rw [hring, hheld], hlast⟩

/-- A pool that never returns a block in use has a ring that never reuses a value. -/
theorem Loose.never_reuses (h : Loose s) (hnever : NeverReturnsUsed s) :
    SlotRing.NeverReuses (s.pool.ring, s.handedOut) := by
  intro r held block r' huses hused halloc
  obtain ⟨later, hsteps, heq, hloose⟩ := h.uses huses
  cases heq
  have hroom : later.pool.used < later.pool.capacity := hloose.capacity_eq ▸ hused
  obtain ⟨pool', hexec, -⟩ :=
    alloc_eq_ring_alloc hloose.capacity_eq hloose.capacity_lt hroom halloc ⟨0, id⟩
  exact hnever later hsteps ⟨0, id⟩ (fun hfull => absurd hfull (Nat.ne_of_lt hroom)) block pool'
    hexec

/-! ## Requests that break the ring -/

/-- A request for the current capacity on a full pool leaves `allocIndex` outside the pointer
buffer. -/
theorem not_safe_of_full (h : Inv s) (hfull : s.pool.used = s.pool.capacity) (malloc : Malloc) :
    ¬ LeavesSafe s malloc s.pool.capacity := by
  rintro ⟨pool', hrequest, -, -, -, hindex, -⟩
  have hpos : 0 < s.pool.used := hfull ▸ Nat.lt_of_le_of_lt (Nat.zero_le _) h.valid.alloc_lt
  rw [ensure_space_relayout h.valid hpos malloc (Nat.le_refl _)] at hrequest
  cases hrequest
  exact Nat.ne_of_lt hindex hfull

/-- A request for at least the current capacity on an empty pool leaves `allocIndex` outside the
pointer buffer, or the refill index before the idle slots. -/
theorem not_safe_of_empty (h : Inv s) (hempty : s.pool.used = 0) (malloc : Malloc)
    {capacity : Nat} (hword : capacity < 2 ^ 32) (hcapacity : s.pool.capacity ≤ capacity) :
    ¬ LeavesSafe s malloc capacity := by
  rintro ⟨pool', hrequest, -, -, -, hindex, hfree, hnever⟩
  rw [ensure_space_of_empty h.valid hempty malloc hcapacity] at hrequest
  have hpos : 0 < s.pool.capacity := Nat.lt_of_le_of_lt (Nat.zero_le _) h.valid.alloc_lt
  have hidle : s.pool.ring.idle.length = s.pool.capacity - s.pool.used :=
    h.valid.capacity_eq ▸ SlotRing.length_idle s.pool.ring
  obtain ⟨hlength, hcap, halloc, hzero, hused⟩ :
      pool'.memoryPoolPtrBuf.length = capacity ∧ pool'.capacity = capacity ∧
        pool'.allocIndex = s.pool.capacity ∧ pool'.freeIndex = 0 ∧
        pool'.used = s.pool.used := by
    cases hrequest
    refine ⟨?_, rfl, rfl, rfl, rfl⟩
    show (s.pool.ring.idle ++ blockAddresses _ _ _).length = capacity
    rw [List.length_append, hidle, length_block_addresses]
    omega
  have hloose : Loose (s.afterRequest malloc capacity pool') := by
    refine ⟨hcap.trans hlength.symm, ?_, hfree, h.used_eq.trans hused.symm, ?_⟩
    · exact hcap.symm ▸ hword
    · show pool'.used ≤ pool'.capacity
      omega
  have hgrows : s.pool.capacity < capacity := by omega
  refine SlotRing.misplaced_reuse (Nat.sub_pos_of_lt hgrows) ?_ ?_ ?_ (hloose.never_reuses hnever)
  · show pool'.allocIndex < pool'.memoryPoolPtrBuf.length
    omega
  · show pool'.freeIndex = (pool'.allocIndex + _) % pool'.memoryPoolPtrBuf.length
    rw [hzero, halloc, hlength, Nat.add_sub_cancel' hcapacity, Nat.mod_self]
  · show capacity - s.pool.capacity + pool'.used < pool'.memoryPoolPtrBuf.length
    omega

/-- From a reachable state a direct request leaves a safe pool exactly when it is below the
capacity, or some block is in use and the request exceeds the number of blocks in use. -/
theorem ensure_space_safe_iff (h : Reachable s) (malloc : Malloc) {capacity : Nat}
    (hword : capacity < 2 ^ 32)
    (hfresh : (s.created ++ freshBlocks s.pool malloc capacity).Nodup) :
    LeavesSafe s malloc capacity ↔ SafeRequest s.pool capacity := by
  have hinv := h.inv
  constructor
  · intro hsafe
    by_contra hnot
    simp only [SafeRequest, not_or, not_and, Nat.not_lt] at hnot
    obtain ⟨hle, hused⟩ := hnot
    rcases Nat.eq_zero_or_pos s.pool.used with hempty | hpos
    · exact not_safe_of_empty hinv hempty malloc hword hle hsafe
    · have hbound := hinv.valid.used_le
      have hsame := hused hpos
      obtain rfl : s.pool.capacity = capacity := by omega
      exact not_safe_of_full hinv (by omega) malloc hsafe
  · intro hsafe
    have hallowed : Allowed s (.ensureSpace malloc capacity) := ⟨hsafe, hword, hfresh⟩
    obtain ⟨_, s', hexec, hinv', -⟩ := hinv.step hallowed
    cases hrequest : memoryPoolEnsureSpace malloc capacity s.pool with
    | error fault => simp [exec, hrequest, bind, Except.bind] at hexec
    | ok pool' =>
      simp only [exec, hrequest, bind, Except.bind, pure, Except.pure, Except.ok.injEq,
        Prod.mk.injEq] at hexec
      obtain ⟨-, rfl⟩ := hexec
      have hidle := hinv'.idle_eq
      refine ⟨pool', hrequest, ?_, ?_, ?_, hinv'.valid.alloc_lt, hinv'.valid.free_lt,
        hinv'.never_returns_used⟩
      · exact hidle ▸ hinv'.sound.nodup_idle
      · intro block hblock
        exact hinv'.sound.idle_not_busy (hidle ▸ hblock)
      · exact hidle ▸ hinv'.sound.perm

/-- The theorem at a pool with one of two blocks in use, asked for three. -/
theorem ensure_space_safe_iff_doubled :
    LeavesSafe doubledState ⟨3000, id⟩ 3 ↔ SafeRequest doubledState.pool 3 :=
  ensure_space_safe_iff doubled_state_reachable ⟨3000, id⟩ (by decide) (by decide)

/-- A pool of one idle block asked for two. After one allocation and its release, two further
allocations return the same block. -/
theorem ensure_space_empty_unsafe :
    ¬ ∀ s malloc capacity, Reachable s → capacity < 2 ^ 32 →
      (s.created ++ freshBlocks s.pool malloc capacity).Nodup → LeavesSafe s malloc capacity := by
  intro hall
  have hreach : Reachable (start ⟨1000, id⟩ 1 4) :=
    ⟨⟨1000, id⟩, 1, 4, by decide, by decide, by decide, .refl⟩
  obtain ⟨pool', hrequest, -, -, -, -, -, hnever⟩ :=
    hall (start ⟨1000, id⟩ 1 4) ⟨2000, id⟩ 2 hreach (by decide) (by decide)
  obtain rfl : ⟨[1000, 2000], [1000, 2000], 1, 0, 2, 0, 4, 2, 0⟩ = pool' :=
    Except.ok.inj hrequest
  have hrun : machine.run ((start ⟨1000, id⟩ 1 4).afterRequest ⟨2000, id⟩ 2
        ⟨[1000, 2000], [1000, 2000], 1, 0, 2, 0, 4, 2, 0⟩)
      [.alloc ⟨0, id⟩, .free 2000, .alloc ⟨0, id⟩] =
      some ⟨⟨[1000, 2000], [2000, 2000], 1, 1, 2, 1, 4, 2, 1⟩, [2000], [1000, 2000]⟩ := by
    decide +kernel
  exact hnever _ (Machine.steps_of_run hrun) ⟨0, id⟩ (by decide) 2000 _ rfl (by decide)

end MemoryPool

end HakunaMatata
