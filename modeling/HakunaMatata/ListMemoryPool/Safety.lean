import HakunaMatata.Base.Machine
import HakunaMatata.ListMemoryPool.Refinement

/-!
# Runs of the list pool

A `State` is a list pool with the ids in use, in the order of their allocation. `Allowed` is
what the caller and `malloc` have to provide for an operation, and a run is a sequence of
allowed operations. Read `Inv.step` first: every allowed operation succeeds, keeps the
invariant, hands out an id that is not in use and keeps the data of every block that it does
not write. `working_list_sound` states it for every reachable state of a pool that may
reallocate.
-/

namespace HakunaMatata

open Base

namespace ListMemoryPool

/-- A pool with the ids in use, in the order of their allocation. -/
structure State where
  pool : ListMemoryPool
  inUse : List Nat

/-- The public operations. An operation that may grow the pool carries the address that `malloc`
returns; `setData` is a store of the user through `GetData`. -/
inductive Op where
  | alloc (newBuf : Addr)
  | free (id : Nat)
  | freeBlock (ptrBlock : Addr)
  | setData (id : Nat) (bytes : List UInt8)
  | ensureSize (newBuf : Addr) (size : Nat)

/-- Run one operation. The result is what an allocation returns. -/
def exec (s : State) : Op → Except Fault (Option Nat × State)
  | .alloc newBuf => do
    let (id, pool) ← alloc newBuf s.pool
    pure (some id, ⟨pool, if id = allocFailed then s.inUse else s.inUse ++ [id]⟩)
  | .free id => do
    let pool ← free id s.pool
    pure (none, ⟨pool, s.inUse.erase id⟩)
  | .freeBlock ptrBlock => do
    let pool ← freeBlock ptrBlock s.pool
    pure (none, ⟨pool, s.inUse.erase (s.pool.heap.id ptrBlock)⟩)
  | .setData id bytes => do
    let pool ← setData id bytes s.pool
    pure (none, ⟨pool, s.inUse⟩)
  | .ensureSize newBuf size => do
    let (_, pool) ← ensureSize newBuf size s.pool
    pure (none, ⟨pool, s.inUse⟩)

/-- The operation stores user data under this id. -/
def Op.Writes (op : Op) (id : Nat) : Prop :=
  ∃ bytes, op = .setData id bytes

/-- The requests that `ensureSize` serves: one that does not grow the pool, or one made while every
block is in use. -/
def SafeRequest (pool : ListMemoryPool) (size : Nat) : Prop :=
  size ≤ pool.size ∨ pool.enableRealloc = false ∨ pool.workingNum = pool.size

/-- The pools from which `alloc` is served: one with an idle block, or one whose doubling neither
wraps nor stays at zero. -/
def SafeAlloc (pool : ListMemoryPool) : Prop :=
  pool.workingNum < pool.size ∨ 0 < pool.size ∧ pool.size * 2 < 2 ^ 32

/-- `malloc` returns a fresh buffer if the request makes the pool grow. -/
def MallocFresh (pool : ListMemoryPool) (newBuf : Addr) (size : Nat) : Prop :=
  pool.size < size → pool.enableRealloc = true → pool.heap.Fresh newBuf pool.blockSize size

/-- What the caller and the allocator provide. -/
def Allowed (s : State) : Op → Prop
  | .alloc newBuf => SafeAlloc s.pool ∧
      (s.pool.workingNum ≥ s.pool.size → MallocFresh s.pool newBuf (s.pool.size * 2))
  | .free id => id ∈ s.inUse
  | .freeBlock ptrBlock => ptrBlock ∈ s.inUse.map s.pool.block
  | .setData id _ => id ∈ s.inUse
  | .ensureSize newBuf size =>
    SafeRequest s.pool size ∧ size < 2 ^ 32 ∧ MallocFresh s.pool newBuf size

instance (pool : ListMemoryPool) (size : Nat) : Decidable (SafeRequest pool size) :=
  inferInstanceAs (Decidable (_ ∨ _))

instance (pool : ListMemoryPool) : Decidable (SafeAlloc pool) :=
  inferInstanceAs (Decidable (_ ∨ _))

instance (pool : ListMemoryPool) (newBuf : Addr) (size : Nat) :
    Decidable (MallocFresh pool newBuf size) :=
  inferInstanceAs (Decidable (_ → _))

/-- An operation's conditions are decidable. -/
instance (s : State) (op : Op) : Decidable (Allowed s op) :=
  match op with
  | .alloc _ => inferInstanceAs (Decidable (_ ∧ _))
  | .free _ => inferInstanceAs (Decidable (_ ∈ _))
  | .freeBlock _ => inferInstanceAs (Decidable (_ ∈ _))
  | .setData _ _ => inferInstanceAs (Decidable (_ ∈ _))
  | .ensureSize _ _ => inferInstanceAs (Decidable (_ ∧ _))

/-- The pool as a machine of allowed operations. -/
abbrev machine : Machine State Op (Option Nat) := ⟨Allowed, exec⟩

/-- A finite run of allowed operations. -/
abbrev Steps : State → State → Prop := machine.Steps

/-- The state is a newly constructed pool of `initSize` blocks. -/
def Constructed (initSize : Nat) (enableRealloc : Bool) (s : State) : Prop :=
  ∃ (heap : BlockHeap) (buf head tail : Addr) (blockSize : Nat),
    heap.live head = true ∧ heap.live tail = true ∧ head ≠ tail ∧
    heap.Fresh buf blockSize initSize ∧ initSize < 2 ^ 32 ∧
    s = ⟨create heap buf head tail blockSize initSize enableRealloc, []⟩

/-- The state is reached from the constructor with these arguments. -/
def ReachableFrom (initSize : Nat) (enableRealloc : Bool) (s : State) : Prop :=
  ∃ first, Constructed initSize enableRealloc first ∧ Steps first s

/-- The pool represents an abstract pool whose busy blocks are the ids in use. -/
def Inv (s : State) : Prop :=
  ∃ idle, Represents s.pool ⟨idle, s.inUse⟩

/-! ## One operation -/

/-- What one operation does besides keeping the invariant: an allocation returns an unused id, or
fails because the pool may not reallocate; user data that is not written stays; the options of the
pool stay, and its size does not shrink. -/
structure Outcome (s : State) (op : Op) (result : Option Nat) (s' : State) : Prop where
  inv : Inv s'
  returned : ∀ newBuf, op = .alloc newBuf →
    (∃ id, result = some id ∧ id ∉ s.inUse ∧ s'.inUse = s.inUse ++ [id]) ∨
      s.pool.enableRealloc = false ∧ result = some allocFailed ∧ s' = s
  kept : ∀ i ∈ s.inUse, ¬ op.Writes i → s'.pool.bytes i = s.pool.bytes i
  written : ∀ i bytes, op = .setData i bytes → s'.pool.bytes i = bytes
  same_realloc : s'.pool.enableRealloc = s.pool.enableRealloc
  size_le : s.pool.size ≤ s'.pool.size

variable {s s' : State}

/-- The ids in use are below the size, and so differ from the value of a failed allocation. -/
theorem Inv.in_use_lt (h : Inv s) {id : Nat} (hid : id ∈ s.inUse) : id < s.pool.size := by
  obtain ⟨idle, hrep⟩ := h
  exact hrep.busy_lt hid

theorem Represents.ne_failed {pool : ListMemoryPool} {p : Pool Nat} (h : Represents pool p)
    {id : Nat} (hid : id ∈ p.busy) : id ≠ allocFailed := by
  have hlt := h.busy_lt hid
  have hsize := h.consistent.size_lt
  unfold allocFailed
  omega

theorem exec_alloc_of_returned {newBuf : Addr} {id : Nat} {pool' : ListMemoryPool}
    {idle : List Nat} (halloc : alloc newBuf s.pool = .ok (id, pool'))
    (hrep : Represents pool' ⟨idle, s.inUse ++ [id]⟩) :
    exec s (.alloc newBuf) = .ok (some id, ⟨pool', s.inUse ++ [id]⟩) := by
  have hne : id ≠ allocFailed :=
    hrep.ne_failed (List.mem_append_right _ (List.mem_singleton_self id))
  simp only [exec, halloc, bind, Except.bind, pure, Except.pure, if_neg hne]

theorem Inv.exec_alloc (h : Inv s) {newBuf : Addr} (hallowed : Allowed s (.alloc newBuf)) :
    ∃ result s', exec s (.alloc newBuf) = .ok (result, s') ∧
      Outcome s (.alloc newBuf) result s' := by
  obtain ⟨idle, hrep⟩ := h
  obtain ⟨hsafe, hfresh⟩ := hallowed
  cases hidle : idle with
  | cons id rest =>
    obtain ⟨pool', halloc, hrep', hplace, hdata⟩ :=
      hrep.alloc_idle (show (Pool.mk idle s.inUse).idle = id :: rest from hidle) newBuf
    have hnew : id ∉ s.inUse := hrep.sound.idle_not_busy (by simp [hidle])
    refine ⟨some id, ⟨pool', s.inUse ++ [id]⟩, exec_alloc_of_returned halloc hrep', ⟨rest, hrep'⟩,
      fun _ _ => Or.inl ⟨id, rfl, hnew, rfl⟩, fun i hi _ => hdata i (hrep.busy_lt hi),
      nofun, hplace.realloc_eq, hplace.size_eq.ge⟩
  | nil =>
    have hfull : (Pool.mk idle s.inUse).idle = [] := hidle
    have hworking := hrep.full_iff.mpr hfull
    obtain ⟨hpos, hword⟩ := hsafe.resolve_left (Nat.not_lt.mpr hworking)
    cases hrealloc : s.pool.enableRealloc with
    | true =>
      obtain ⟨pool', halloc, hrep', hsize, hrealloc', hdata⟩ :=
        hrep.alloc_full hfull hrealloc hpos hword (hfresh hworking (by omega) hrealloc)
      have hnew : s.pool.size ∉ s.inUse :=
        fun hmem => Nat.lt_irrefl _ (hrep.busy_lt hmem)
      refine ⟨some s.pool.size, ⟨pool', s.inUse ++ [s.pool.size]⟩,
        exec_alloc_of_returned halloc hrep', ⟨_, hrep'⟩,
        fun _ _ => Or.inl ⟨_, rfl, hnew, rfl⟩,
        fun i hi _ => hdata i (hrep.busy_lt hi), nofun, hrealloc',
        ?_⟩
      show s.pool.size ≤ pool'.size
      omega
    | false =>
      have halloc := hrep.alloc_failed hfull hrealloc hpos hword newBuf
      refine ⟨some allocFailed, s, ?_, ⟨idle, hrep⟩, fun _ _ => Or.inr ⟨hrealloc, rfl, rfl⟩,
        fun _ _ _ => rfl, nofun, rfl, Nat.le_refl _⟩
      simp only [exec, halloc, bind, Except.bind, pure, Except.pure, if_true]

theorem Inv.exec_free (h : Inv s) {id : Nat} (hid : id ∈ s.inUse) {op : Op}
    (hop : op = .free id ∨ op = .freeBlock (s.pool.block id)) :
    ∃ result s', exec s op = .ok (result, s') ∧ Outcome s op result s' := by
  obtain ⟨idle, hrep⟩ := h
  obtain ⟨pool', hfree, hrep', hplace, hdata⟩ := hrep.free_busy hid
  have hname : s.pool.heap.id (s.pool.block id) = id :=
    hrep.consistent.heap.id_block id (hrep.busy_lt hid)
  refine ⟨none, ⟨pool', s.inUse.erase id⟩, ?_, ⟨_, hrep'⟩, ?_,
    fun i hi _ => hdata i (hrep.busy_lt hi), ?_, hplace.realloc_eq, hplace.size_eq.ge⟩
  · rcases hop with rfl | rfl
    · simp only [exec, free, hfree, bind, Except.bind, pure, Except.pure]
    · simp only [exec, hfree, hname, bind, Except.bind, pure, Except.pure]
  · rcases hop with rfl | rfl
    · exact nofun
    · exact nofun
  · rcases hop with rfl | rfl
    · exact nofun
    · exact nofun

theorem Inv.exec_setData (h : Inv s) {id : Nat} (hid : id ∈ s.inUse) (bytes : List UInt8) :
    ∃ result s', exec s (.setData id bytes) = .ok (result, s') ∧
      Outcome s (.setData id bytes) result s' := by
  obtain ⟨idle, hrep⟩ := h
  have hlt := hrep.busy_lt hid
  obtain ⟨hset, hrep', hdata⟩ := hrep.set_data hlt bytes
  refine ⟨none, ⟨s.pool.written id bytes, s.inUse⟩, ?_, ⟨idle, hrep'⟩, nofun,
    ?_, ?_, rfl, Nat.le_refl _⟩
  · simp only [exec, hset, bind, Except.bind, pure, Except.pure]
  · intro i hi hnot
    refine hdata i (hrep.busy_lt hi) ?_
    rintro rfl
    exact hnot ⟨bytes, rfl⟩
  · intro i data heq
    cases heq
    exact Function.update_self _ _ _

/-- A safe request for a size succeeds and keeps the invariant, and it only reports success when
the size is reached. -/
theorem Inv.ensure_of_safe (h : Inv s) {newBuf : Addr} {size : Nat}
    (hsafe : SafeRequest s.pool size) (hword : size < 2 ^ 32)
    (hfresh : MallocFresh s.pool newBuf size) :
    ∃ enough pool', ensureSize newBuf size s.pool = .ok (enough, pool') ∧
      Inv ⟨pool', s.inUse⟩ ∧ (enough = true → size ≤ pool'.size) ∧ SameData s.pool pool' ∧
      pool'.enableRealloc = s.pool.enableRealloc ∧ s.pool.size ≤ pool'.size := by
  by_cases hle : size ≤ s.pool.size
  · exact ⟨true, s.pool, by rw [ensureSize, if_pos hle], h, fun _ => hle, fun _ _ => rfl, rfl,
      Nat.le_refl _⟩
  · cases hrealloc : s.pool.enableRealloc with
    | false =>
      refine ⟨false, s.pool, ?_, h, fun henough => absurd henough Bool.false_ne_true,
        fun _ _ => rfl, hrealloc, Nat.le_refl _⟩
      rw [ensureSize, if_neg hle, hrealloc]
      rfl
    | true =>
      obtain ⟨idle, hrep⟩ := h
      -- the pool is full, so the growth hands the new blocks to an empty ring
      have hworking : s.pool.workingNum = s.pool.size := by
        rcases hsafe with hsafe | hsafe | hsafe
        · exact absurd hsafe hle
        · rw [hrealloc] at hsafe
          cases hsafe
        · exact hsafe
      obtain ⟨pool', hensure, hrep', hsize, hrealloc', hdata⟩ :=
        hrep.ensure_full (hrep.full_iff.mp hworking.ge) hrealloc (Nat.not_le.mp hle) hword
          (hfresh (Nat.not_le.mp hle) hrealloc)
      exact ⟨true, pool', hensure, ⟨_, hrep'⟩, fun _ => hsize.ge, hdata,
        hrealloc'.trans hrealloc, by omega⟩

theorem Inv.exec_ensureSize (h : Inv s) {newBuf : Addr} {size : Nat}
    (hallowed : Allowed s (.ensureSize newBuf size)) :
    ∃ result s', exec s (.ensureSize newBuf size) = .ok (result, s') ∧
      Outcome s (.ensureSize newBuf size) result s' := by
  obtain ⟨hsafe, hword, hfresh⟩ := hallowed
  obtain ⟨enough, pool', hensure, hinv, -, hdata, hrealloc, hsize⟩ :=
    h.ensure_of_safe hsafe hword hfresh
  refine ⟨none, ⟨pool', s.inUse⟩, ?_, hinv, nofun, fun i hi _ => hdata i (h.in_use_lt hi), nofun,
    hrealloc, hsize⟩
  simp only [exec, hensure, bind, Except.bind, pure, Except.pure]

/-- Every allowed operation succeeds, with the outcome described above. -/
theorem Inv.step (h : Inv s) {op : Op} (hallowed : Allowed s op) :
    ∃ result s', exec s op = .ok (result, s') ∧ Outcome s op result s' := by
  cases op with
  | alloc newBuf => exact h.exec_alloc hallowed
  | free id => exact h.exec_free hallowed (Or.inl rfl)
  | freeBlock ptrBlock =>
    obtain ⟨id, hid, rfl⟩ := List.mem_map.mp hallowed
    exact h.exec_free hid (Or.inr rfl)
  | setData id bytes => exact h.exec_setData hallowed bytes
  | ensureSize newBuf size => exact h.exec_ensureSize hallowed

/-! ## Reachable states -/

theorem Constructed.inv {initSize : Nat} {enableRealloc : Bool}
    (h : Constructed initSize enableRealloc s) : Inv s := by
  obtain ⟨heap, buf, head, tail, blockSize, hhead, htail, hne, hfresh, hsize, rfl⟩ := h
  exact ⟨_, create_represents hhead htail hne hfresh hsize enableRealloc⟩

/-- A run keeps the invariant, the option to reallocate, and does not shrink the pool. -/
theorem Inv.steps (h : Inv s) (hsteps : Steps s s') :
    Inv s' ∧ s'.pool.enableRealloc = s.pool.enableRealloc ∧ s.pool.size ≤ s'.pool.size := by
  refine Machine.invariant (fun t => Inv t ∧ t.pool.enableRealloc = s.pool.enableRealloc ∧
    s.pool.size ≤ t.pool.size) (fun t op hinv hallowed => ?_) ⟨h, rfl, Nat.le_refl _⟩ hsteps
  obtain ⟨result, t', hexec, houtcome⟩ := hinv.1.step hallowed
  exact ⟨result, t', hexec, houtcome.inv, houtcome.same_realloc.trans hinv.2.1,
    hinv.2.2.trans houtcome.size_le⟩

theorem ReachableFrom.inv {initSize : Nat} {enableRealloc : Bool}
    (h : ReachableFrom initSize enableRealloc s) :
    Inv s ∧ s.pool.enableRealloc = enableRealloc ∧ initSize ≤ s.pool.size := by
  obtain ⟨first, hfirst, hsteps⟩ := h
  obtain ⟨hinv, hrealloc, hsize⟩ := hfirst.inv.steps hsteps
  obtain ⟨_, _, _, _, _, -, -, -, -, -, rfl⟩ := hfirst
  exact ⟨hinv, hrealloc, hsize⟩

/-- The list walked forward from `working_list_head_` and backward from `working_list_tail_`. -/
theorem Inv.walks (h : Inv s) {fuel : Nat} (hfuel : s.pool.workingNum < fuel) :
    walk s.pool.heap.ptrNext s.pool.workingListTail fuel s.pool.workingListHead =
        some (s.inUse.map s.pool.block) ∧
      walk s.pool.heap.ptrPrev s.pool.workingListHead fuel s.pool.workingListTail =
        some (s.inUse.map s.pool.block).reverse := by
  obtain ⟨idle, hrep⟩ := h
  have hlength : (s.inUse.map s.pool.block).length < fuel := by
    rw [List.length_map]
    exact hrep.consistent.working_eq ▸ hfuel
  exact ⟨hrep.consistent.heap.list.walk_next hlength, hrep.consistent.heap.list.walk_prev hlength⟩

theorem Inv.ids (h : Inv s) : (s.inUse.map s.pool.block).map s.pool.heap.id = s.inUse := by
  obtain ⟨idle, hrep⟩ := h
  rw [List.map_map]
  refine (List.map_congr_left fun id hid => ?_).trans (List.map_id s.inUse)
  exact hrep.consistent.heap.id_block id (hrep.busy_lt hid)

theorem Inv.get_data (h : Inv s) {id : Nat} (hid : id < s.pool.size) :
    getData s.pool id = .ok (s.pool.bytes id) := by
  obtain ⟨idle, hrep⟩ := h
  exact hrep.get_data hid

/-- In every reachable state of a pool that may reallocate and started with at least one block, the
working list read forward and backward is exactly the blocks in use, in allocation order and in its
reverse, and `working_num_` is their number. Every allowed operation succeeds. An allocation returns
an id that is not in use, and it, a release or a growth leaves the data under the ids in use as it
was, at whatever address the blocks then stand. -/
theorem working_list_sound {initSize : Nat} (hpos : 1 ≤ initSize)
    (h : ReachableFrom initSize true s) :
    (∀ fuel, s.pool.workingNum < fuel →
      walk s.pool.heap.ptrNext s.pool.workingListTail fuel s.pool.workingListHead =
          some (s.inUse.map s.pool.block) ∧
        walk s.pool.heap.ptrPrev s.pool.workingListHead fuel s.pool.workingListTail =
          some (s.inUse.map s.pool.block).reverse) ∧
      (s.inUse.map s.pool.block).map s.pool.heap.id = s.inUse ∧ s.inUse.Nodup ∧
      s.inUse.length = s.pool.workingNum ∧
      (∀ newBuf, (s.pool.workingNum ≥ s.pool.size →
          s.pool.size * 2 < 2 ^ 32 ∧ MallocFresh s.pool newBuf (s.pool.size * 2)) →
        ∃ id s', exec s (.alloc newBuf) = .ok (some id, s') ∧ id ∉ s.inUse ∧
          s'.inUse = s.inUse ++ [id]) ∧
      ∀ op, Allowed s op → ∃ result s', exec s op = .ok (result, s') ∧
        (∀ id ∈ s.inUse, ¬ op.Writes id → ∃ bytes, getData s.pool id = .ok bytes ∧
          getData s'.pool id = .ok bytes) ∧
        ∀ id bytes, op = .setData id bytes → getData s'.pool id = .ok bytes := by
  obtain ⟨hinv, hrealloc, hsize⟩ := h.inv
  refine ⟨fun fuel hfuel => hinv.walks hfuel, hinv.ids, ?_, ?_, ?_, ?_⟩
  · obtain ⟨idle, hrep⟩ := hinv
    exact hrep.sound.nodup_busy
  · obtain ⟨idle, hrep⟩ := hinv
    exact hrep.consistent.working_eq.symm
  · intro newBuf hfull
    have hsafe : SafeAlloc s.pool := by
      rcases Nat.lt_or_ge s.pool.workingNum s.pool.size with hidle | hworking
      · exact Or.inl hidle
      · exact Or.inr ⟨Nat.lt_of_lt_of_le hpos hsize, (hfull hworking).1⟩
    obtain ⟨result, s', hexec, houtcome⟩ :=
      hinv.exec_alloc ⟨hsafe, fun hworking => (hfull hworking).2⟩
    rcases houtcome.returned newBuf rfl with ⟨id, rfl, hnew, hinUse⟩ | ⟨hfixed, -⟩
    · exact ⟨id, s', hexec, hnew, hinUse⟩
    · rw [hrealloc] at hfixed
      cases hfixed
  · intro op hallowed
    obtain ⟨result, s', hexec, houtcome⟩ := hinv.step hallowed
    have hread : ∀ id ∈ s.inUse, getData s'.pool id = .ok (s'.pool.bytes id) :=
      fun id hid => houtcome.inv.get_data ((hinv.in_use_lt hid).trans_le houtcome.size_le)
    refine ⟨result, s', hexec, ?_, ?_⟩
    · intro id hid hnot
      refine ⟨s.pool.bytes id, hinv.get_data (hinv.in_use_lt hid), ?_⟩
      rw [hread id hid, houtcome.kept id hid hnot]
    · rintro id bytes rfl
      rw [hread id hallowed, houtcome.written id bytes rfl]

/-- A memory in which only the two sentinels of a pool stand, at addresses 16 and 64. -/
def sentinelHeap : BlockHeap where
  ptrPrev := fun _ => 0
  ptrNext := fun _ => 0
  id := fun _ => 0
  data := fun _ => []
  live := fun a => a = 16 ∨ a = 64

/-- A pool of `initSize` blocks of four bytes at address 1024. -/
def smallStart (initSize : Nat) (enableRealloc : Bool) : State :=
  ⟨create sentinelHeap 1024 16 64 4 initSize enableRealloc, []⟩

/-- The small pools are constructed as the source constructs a pool. -/
theorem small_start_constructed {initSize : Nat} {enableRealloc : Bool}
    (hfresh : sentinelHeap.Fresh 1024 4 initSize ∧ initSize < 2 ^ 32) :
    Constructed initSize enableRealloc (smallStart initSize enableRealloc) :=
  ⟨sentinelHeap, 1024, 16, 64, 4, by decide, by decide, by decide, hfresh.1, hfresh.2, rfl⟩

/-- The pool of one block doubles to address 4096 while its block holds the byte 7. -/
def doubledRun : Option State :=
  machine.run (smallStart 1 true) [.alloc 0, .setData 0 [7], .alloc 4096]

/-- The theorem at the doubled pool, with the list it shows there. -/
theorem working_list_sound_doubled :
    ∃ s, doubledRun = some s ∧ s.inUse = [0, 1] ∧ s.pool.workingNum = 2 ∧
      walk s.pool.heap.ptrNext s.pool.workingListTail 3 s.pool.workingListHead =
        some (s.inUse.map s.pool.block) := by
  have hsome : doubledRun.isSome = true := by decide +kernel
  obtain ⟨s, hs⟩ := Option.isSome_iff_exists.mp hsome
  have hvalues : doubledRun.map (fun s => (s.inUse, s.pool.workingNum)) = some ([0, 1], 2) := by
    decide +kernel
  rw [hs, Option.map_some, Option.some.injEq, Prod.mk.injEq] at hvalues
  have hreach : ReachableFrom 1 true s :=
    ⟨_, small_start_constructed (by decide), Machine.steps_of_run hs⟩
  refine ⟨s, hs, hvalues.1, hvalues.2, ?_⟩
  exact ((working_list_sound (Nat.le_refl 1) hreach).1 3 (by rw [hvalues.2]; decide)).1

end ListMemoryPool

end HakunaMatata
