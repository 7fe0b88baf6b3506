import HakunaMatata.Base.Machine
import HakunaMatata.Base.Pool
import HakunaMatata.MemoryPool.Steps

/-!
# Runs of the block pool

A `State` is a pool with the blocks handed out and the blocks ever created. `Allowed` is
what a caller has to keep: a freed block is one that is handed out, no doubling wraps, new
block addresses differ from all earlier ones, and a direct growth request is a
`SafeRequest`. Read `Inv.step` first: every allowed operation succeeds, keeps the invariant, and
an allocation returns a block that is not handed out. `reachable_pool_sound` states it for
every reachable state.
-/

namespace HakunaMatata

open Base

namespace MemoryPool

/-- A pool together with the blocks handed out and the blocks created so far. -/
structure State where
  pool : MemoryPool
  handedOut : List Nat
  created : List Nat
  deriving DecidableEq, Repr

/-- The public operations. A growth carries what it obtains from `malloc`. -/
inductive Op where
  | alloc (malloc : Malloc)
  | free (block : Nat)
  | ensureSpace (malloc : Malloc) (capacity : Nat)

/-- The blocks that a request for `capacity` creates. -/
def freshBlocks (pool : MemoryPool) (malloc : Malloc) (capacity : Nat) : List Nat :=
  if capacity < pool.capacity then []
  else blockAddresses malloc.dataBuf pool.blockSize (capacity - pool.capacity)

/-- The state after `MemoryPoolInit`. -/
def start (malloc : Malloc) (initCapacity blockSize : Nat) : State where
  pool := memoryPoolInit malloc initCapacity blockSize
  handedOut := []
  created := blockAddresses malloc.dataBuf blockSize (initialCapacity initCapacity)

/-- Run one operation. The result is the block that an allocation returns. -/
def exec (s : State) : Op → Except Fault (Option Nat × State)
  | .alloc malloc => do
    let (block, pool) ← memoryPoolAlloc malloc s.pool
    let fresh := if s.pool.used = s.pool.capacity then
      freshBlocks s.pool malloc (u32 (s.pool.capacity * 2)) else []
    pure (some block, ⟨pool, s.handedOut ++ [block], s.created ++ fresh⟩)
  | .free block => do
    let pool ← memoryPoolFree block s.pool
    pure (none, ⟨pool, s.handedOut.erase block, s.created⟩)
  | .ensureSpace malloc capacity => do
    let pool ← memoryPoolEnsureSpace malloc capacity s.pool
    pure (none, ⟨pool, s.handedOut, s.created ++ freshBlocks s.pool malloc capacity⟩)

/-- The requests that `MemoryPoolEnsureSpace` serves: one below the capacity, or one made while a
block is in use that leaves an idle block. -/
def SafeRequest (pool : MemoryPool) (capacity : Nat) : Prop :=
  capacity < pool.capacity ∨ 0 < pool.used ∧ pool.used < capacity

/-- What the caller and the allocator provide. -/
def Allowed (s : State) : Op → Prop
  | .alloc malloc => s.pool.used = s.pool.capacity →
      s.pool.capacity * 2 < 2 ^ 32 ∧
        (s.created ++ freshBlocks s.pool malloc (s.pool.capacity * 2)).Nodup
  | .free block => block ∈ s.handedOut
  | .ensureSpace malloc capacity =>
    SafeRequest s.pool capacity ∧ capacity < 2 ^ 32 ∧
      (s.created ++ freshBlocks s.pool malloc capacity).Nodup

/-- A safe request is decidable by comparisons. -/
instance (pool : MemoryPool) (capacity : Nat) : Decidable (SafeRequest pool capacity) :=
  inferInstanceAs (Decidable (_ ∨ _))

/-- An operation's conditions are decidable. -/
instance (s : State) (op : Op) : Decidable (Allowed s op) :=
  match op with
  | .alloc _ => inferInstanceAs (Decidable (_ → _))
  | .free _ => inferInstanceAs (Decidable (_ ∈ _))
  | .ensureSpace _ _ => inferInstanceAs (Decidable (_ ∧ _))

/-- The pool as a machine of allowed operations. -/
abbrev machine : Machine State Op (Option Nat) := ⟨Allowed, exec⟩

/-- A finite run of allowed operations. -/
abbrev Steps : State → State → Prop := machine.Steps

/-- The state is reached from `MemoryPoolInit`, whose blocks have distinct addresses. -/
def Reachable (s : State) : Prop :=
  ∃ malloc initCapacity blockSize, initCapacity < 2 ^ 32 ∧ blockSize < 2 ^ 32 ∧
    (start malloc initCapacity blockSize).created.Nodup ∧
    Steps (start malloc initCapacity blockSize) s

/-- The idle blocks: `capacity - used` slots read cyclically from `allocIndex`. -/
def State.idle (s : State) : List Nat :=
  SlotRing.window s.pool.memoryPoolPtrBuf s.pool.allocIndex (s.pool.capacity - s.pool.used)

/-- The abstract pool of a state. -/
def State.toPool (s : State) : Pool Nat :=
  ⟨s.pool.ring.idle, s.handedOut⟩

/-- The ring is well formed and holds exactly the created blocks that are not handed out. -/
structure Inv (s : State) : Prop where
  valid : s.pool.Valid
  sound : s.toPool.Sound s.created
  used_eq : s.handedOut.length = s.pool.used

variable {s s' : State}

theorem Inv.idle_eq (h : Inv s) : s.idle = s.toPool.idle := by
  simp only [State.idle, State.toPool, SlotRing.idle, h.valid.capacity_eq, ring]

theorem start_inv (malloc : Malloc) {initCapacity blockSize : Nat}
    (hcapacity : initCapacity < 2 ^ 32)
    (hdistinct : (start malloc initCapacity blockSize).created.Nodup) :
    Inv (start malloc initCapacity blockSize) := by
  obtain ⟨hvalid, hidle⟩ := init_valid malloc hcapacity blockSize
  refine ⟨hvalid, ⟨?_, hdistinct⟩, rfl⟩
  show ((memoryPoolInit malloc initCapacity blockSize).ring.idle ++ []).Perm _
  rw [hidle, List.append_nil]
  exact List.Perm.refl _

theorem Inv.alloc_not_full (h : Inv s) (hused : s.pool.used < s.pool.capacity) (malloc : Malloc) :
    ∃ block pool', memoryPoolAlloc malloc s.pool = .ok (block, pool') ∧ block ∉ s.handedOut ∧
      Inv ⟨pool', s.handedOut ++ [block], s.created⟩ := by
  obtain ⟨block, pool', halloc, hvalid, hidle, hcount⟩ := alloc_of_not_full h.valid hused malloc
  have hpool : s.toPool.alloc = some (block, ⟨pool'.ring.idle, s.handedOut ++ [block]⟩) := by
    simp only [Pool.alloc, State.toPool, hidle]
  obtain ⟨hsound, hnew⟩ := h.sound.alloc hpool
  exact ⟨block, pool', halloc, hnew, hvalid, hsound, by simp [h.used_eq, hcount]⟩

/-- A growth with a block in use keeps the invariant, the new blocks being idle. -/
theorem Inv.grow (h : Inv s) {malloc : Malloc} {capacity : Nat}
    (hcapacity : s.pool.capacity ≤ capacity) (hused : 0 < s.pool.used)
    (hroom : s.pool.used < capacity) (hword : capacity < 2 ^ 32)
    (hfresh : (s.created ++ freshBlocks s.pool malloc capacity).Nodup) :
    ∃ pool', memoryPoolEnsureSpace malloc capacity s.pool = .ok pool' ∧
      pool'.used = s.pool.used ∧ pool'.capacity = capacity ∧
      Inv ⟨pool', s.handedOut, s.created ++ freshBlocks s.pool malloc capacity⟩ := by
  have hblocks : freshBlocks s.pool malloc capacity =
      blockAddresses malloc.dataBuf s.pool.blockSize (capacity - s.pool.capacity) := by
    simp [freshBlocks, Nat.not_lt.mpr hcapacity]
  refine ⟨_, ensure_space_relayout h.valid hused malloc hcapacity, rfl, rfl, ?_⟩
  rw [← hblocks]
  obtain ⟨hvalid, hidle⟩ := grown_relayout_valid h.valid malloc hcapacity hroom hword
    (show (freshBlocks s.pool malloc capacity).length = capacity - s.pool.capacity by
      simp [hblocks])
  refine ⟨hvalid, ?_, h.used_eq⟩
  have hsound := h.sound.grow hfresh
  simpa only [Pool.grow, State.toPool, hidle] using hsound

/-- Every allowed operation succeeds and keeps the invariant, and an allocation returns a block
that is not handed out. -/
theorem Inv.step (h : Inv s) {op : Op} (hallowed : Allowed s op) :
    ∃ result s', exec s op = .ok (result, s') ∧ Inv s' ∧
      ∀ block, result = some block → block ∉ s.handedOut := by
  cases op with
  | alloc malloc =>
    by_cases hfull : s.pool.used = s.pool.capacity
    · -- the pool doubles first, and the grown pool is not full
      obtain ⟨hword, hfresh⟩ := hallowed hfull
      have hpos : 0 < s.pool.capacity := Nat.lt_of_le_of_lt (Nat.zero_le _) h.valid.alloc_lt
      obtain ⟨grownPool, hgrow, hused, hcap, hinv⟩ :=
        h.grow (by omega) (by omega) (by omega) hword hfresh
      have hu32 : u32 (s.pool.capacity * 2) = s.pool.capacity * 2 := u32_of_lt hword
      obtain ⟨block, pool', halloc, hnew, hinv'⟩ :=
        hinv.alloc_not_full (show grownPool.used < grownPool.capacity by omega) malloc
      have hgrown := alloc_of_full malloc hfull (by rw [hu32, hgrow])
        (show grownPool.used ≠ grownPool.capacity by omega)
      refine ⟨some block, _, ?_, hinv', ?_⟩
      · simp only [exec, hgrown, halloc, hfull, if_true, hu32, bind, Except.bind, pure,
          Except.pure]
      · rintro _ ⟨⟩
        exact hnew
    · have hused : s.pool.used < s.pool.capacity := Nat.lt_of_le_of_ne h.valid.used_le hfull
      obtain ⟨block, pool', halloc, hnew, hinv⟩ := h.alloc_not_full hused malloc
      refine ⟨some block, _, ?_, hinv, ?_⟩
      · simp only [exec, halloc, hfull, if_false, bind, Except.bind, pure, Except.pure,
          List.append_nil]
      · rintro _ ⟨⟩
        exact hnew
  | free block =>
    have hpos : 0 < s.pool.used := h.used_eq ▸ List.length_pos_of_mem hallowed
    obtain ⟨pool', hfree, hvalid, hidle, hcount⟩ := free_of_valid h.valid hpos block
    refine ⟨none, ⟨pool', s.handedOut.erase block, s.created⟩,
      by simp only [exec, hfree, bind, Except.bind, pure, Except.pure],
      ⟨hvalid, ?_, ?_⟩, by simp⟩
    · have hsound := h.sound.free hallowed
      simpa only [Pool.free, State.toPool, hidle] using hsound
    · simp [List.length_erase_of_mem hallowed, h.used_eq, hcount]
  | ensureSpace malloc capacity =>
    obtain ⟨hsafe, hword, hfresh⟩ := hallowed
    by_cases hlt : capacity < s.pool.capacity
    · have hnone : freshBlocks s.pool malloc capacity = [] := by simp [freshBlocks, hlt]
      refine ⟨none, s, ?_, h, by simp⟩
      simp only [exec, ensure_space_of_lt malloc hlt, bind, Except.bind, pure, Except.pure,
        hnone, List.append_nil]
    · obtain ⟨hused, hroom⟩ := hsafe.resolve_left hlt
      obtain ⟨pool', hgrow, -, -, hinv⟩ := h.grow (by omega) hused hroom hword hfresh
      exact ⟨none, _, by simp only [exec, hgrow, bind, Except.bind, pure, Except.pure], hinv,
        by simp⟩

theorem Inv.steps (h : Inv s) (hsteps : Steps s s') : Inv s' := by
  refine Machine.invariant Inv (fun s op hinv hallowed => ?_) h hsteps
  obtain ⟨result, s', hexec, hinv', -⟩ := hinv.step hallowed
  exact ⟨result, s', hexec, hinv'⟩

theorem Reachable.inv (h : Reachable s) : Inv s := by
  obtain ⟨malloc, initCapacity, blockSize, hcapacity, -, hdistinct, hsteps⟩ := h
  exact (start_inv malloc hcapacity hdistinct).steps hsteps

/-- An allowed allocation returns a block that is not handed out, also when the pool doubles. -/
theorem Inv.alloc (h : Inv s) {malloc : Malloc} (hallowed : Allowed s (.alloc malloc)) :
    ∃ block pool', memoryPoolAlloc malloc s.pool = .ok (block, pool') ∧ block ∉ s.handedOut := by
  obtain ⟨result, s', hexec, -, hnew⟩ := h.step hallowed
  cases halloc : memoryPoolAlloc malloc s.pool with
  | error fault => simp [exec, halloc, bind, Except.bind] at hexec
  | ok value =>
    simp only [exec, halloc, bind, Except.bind, pure, Except.pure, Except.ok.injEq,
      Prod.mk.injEq] at hexec
    exact ⟨value.1, value.2, rfl, hnew value.1 hexec.1.symm⟩

/-- In every reachable state the idle slots hold pairwise distinct blocks, none of them handed
out, and together with the blocks handed out they are exactly the blocks created. The assertion
of the full case holds, and every allowed allocation and release succeeds, the allocation with a
block that is not handed out. -/
theorem reachable_pool_sound (h : Reachable s) :
    s.idle.Nodup ∧ (∀ block ∈ s.idle, block ∉ s.handedOut) ∧
      (s.idle ++ s.handedOut).Perm s.created ∧ s.created.Nodup ∧
      (s.pool.used = s.pool.capacity → s.pool.allocIndex = s.pool.freeIndex) ∧
      (∀ malloc, Allowed s (.alloc malloc) →
        ∃ block pool', memoryPoolAlloc malloc s.pool = .ok (block, pool') ∧
          block ∉ s.handedOut) ∧
      ∀ block ∈ s.handedOut, ∃ pool', memoryPoolFree block s.pool = .ok pool' := by
  have hinv := h.inv
  rw [hinv.idle_eq]
  refine ⟨hinv.sound.nodup_idle, fun _ hblock => hinv.sound.idle_not_busy hblock,
    hinv.sound.perm, hinv.sound.nodup, ?_, fun _ hallowed => hinv.alloc hallowed, ?_⟩
  · intro hfull
    have halloc := hinv.valid.alloc_lt
    have hcases := hinv.valid.index_cases
    omega
  · intro block hblock
    have hpos : 0 < s.pool.used := hinv.used_eq ▸ List.length_pos_of_mem hblock
    obtain ⟨pool', hfree, -⟩ := free_of_valid hinv.valid hpos block
    exact ⟨pool', hfree⟩

/-- A pool of one block at address 1000 that has doubled to a second block at 2000 and taken the
first one back. -/
def doubledState : State :=
  { pool := ⟨[1000, 2000], [1000, 2000], 0, 1, 2, 1, 4, 2, 2⟩
    handedOut := [2000]
    created := [1000, 2000] }

theorem doubled_state_reachable : Reachable doubledState := by
  have hrun : machine.run (start ⟨1000, id⟩ 1 4) [.alloc ⟨0, id⟩, .alloc ⟨2000, id⟩, .free 1000] =
      some doubledState := by decide
  exact ⟨⟨1000, id⟩, 1, 4, by decide, by decide, by decide, Machine.steps_of_run hrun⟩

theorem reachable_pool_sound_doubled :
    Reachable doubledState ∧ doubledState.idle.Nodup ∧
      (doubledState.idle ++ doubledState.handedOut).Perm doubledState.created :=
  ⟨doubled_state_reachable, (reachable_pool_sound doubled_state_reachable).1,
    (reachable_pool_sound doubled_state_reachable).2.2.1⟩

end MemoryPool

end HakunaMatata
