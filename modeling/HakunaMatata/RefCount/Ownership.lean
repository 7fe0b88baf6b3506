import Mathlib.Data.Fintype.Card
import HakunaMatata.Base.Blocks
import HakunaMatata.Base.Machine

/-!
# Shared ownership, `ref_count.h`

A `RefCount` handle has a pointer to an object and a pointer to a counter, which all handles of the
object share. `Counts given refs heap` says that the counters in the heap are those that belong to
`refs` handles each, and that the objects without a handle are gone; `retain` and `release` change
one entry of `refs`. The handles that exist give the actual `refs`, which is what `Owned` says, and
every operation keeps it. Read `refCount_owns` first.
-/

namespace HakunaMatata.RefCount

open Base

/-- The address of a handle, in units of the alignment of its two pointers. -/
abbrev Address := Fin (2 ^ 61)

/-- `RefCount`. -/
structure Handle where
  this : Address
  used : Option Nat
  obj : Option Nat
  deriving DecidableEq, Repr

/-- The counters, and the objects, of which only whether they exist matters here: their destructor
does not use handles. -/
structure Heap where
  counters : Blocks (BitVec 64)
  objects : Blocks Unit

/-- `++*used_`, if there is a counter. -/
def retain (used : Option Nat) (heap : Heap) : Except Fault Heap :=
  used.elim (pure heap) fun c => do
    let count ← heap.counters.get c
    let counters ← heap.counters.put c (count + 1)
    pure { heap with counters := counters }

/-- `delete obj_`, which does nothing for a null pointer. -/
def deleteObj (obj : Option Nat) (heap : Heap) : Except Fault Heap :=
  obj.elim (pure heap) fun o => do
    let objects ← heap.objects.free o
    pure { heap with objects := objects }

/-- `if (used_ != nullptr && --*used_ == 0)`, and the two deletions. -/
def release (used obj : Option Nat) (heap : Heap) : Except Fault Heap :=
  used.elim (pure heap) fun c => do
    let count ← heap.counters.get c
    let counters ← heap.counters.put c (count - 1)
    if count - 1 = 0 then do
      let counters ← counters.free c
      deleteObj obj { heap with counters := counters }
    else pure { heap with counters := counters }

/-- The handles that exist, the heap, and the objects given to a constructor so far, each with its
counter. -/
structure State where
  handles : List Handle
  heap : Heap
  given : List (Nat × Nat)

/-- No handle and no object exists. -/
def State.init : State :=
  ⟨[], ⟨Blocks.empty, Blocks.empty⟩, []⟩

/-- What a program does with handles. -/
inductive Op where
  | newObject
  | construct (this : Address)
  | ofPointer (this : Address) (obj : Option Nat)
  | copy (this ref : Address)
  | assign (this ref : Address)
  | destroy (this : Address)
  deriving DecidableEq, Repr

/-- The handle at an address. -/
def State.handle (s : State) (this : Address) : Except Fault Handle :=
  (s.handles.find? fun h => h.this = this).elim (.error .outOfBounds) .ok

/-- There is a handle at the address. -/
def State.exists (s : State) (this : Address) : Bool :=
  s.handles.any fun h => h.this = this

/-- The operations. -/
def exec (s : State) : Op → Except Fault State
  | .newObject =>
    pure { s with heap := { s.heap with objects := s.heap.objects.alloc () } }
  | .construct this =>
    pure { s with handles := ⟨this, none, none⟩ :: s.handles }
  | .ofPointer this none =>
    pure { s with handles := ⟨this, none, none⟩ :: s.handles }
  | .ofPointer this (some o) =>
    pure
      { handles := ⟨this, some s.heap.counters.size, some o⟩ :: s.handles
        heap := { s.heap with counters := s.heap.counters.alloc 1 }
        given := (o, s.heap.counters.size) :: s.given }
  | .copy this ref => do
    let other ← s.handle ref
    let heap ← retain other.used s.heap
    pure { s with handles := ⟨this, other.used, other.obj⟩ :: s.handles, heap := heap }
  | .assign this ref => do
    let other ← s.handle ref
    let own ← s.handle this
    let heap ← retain other.used s.heap
    let heap ← release own.used own.obj heap
    pure
      { s with
        handles := ⟨this, other.used, other.obj⟩ :: s.handles.erase own
        heap := heap }
  | .destroy this => do
    let own ← s.handle this
    let heap ← release own.used own.obj s.heap
    pure { s with handles := s.handles.erase own, heap := heap }

/-- A handle is constructed where there is none, the others exist, and a raw pointer is that of an
object not given to a constructor before. -/
def Allowed (s : State) : Op → Prop
  | .newObject => True
  | .construct this => s.exists this = false
  | .ofPointer this obj => s.exists this = false ∧
      obj.all (fun o => o < s.heap.objects.size && s.given.all fun pair => pair.1 ≠ o) = true
  | .copy this ref => s.exists this = false ∧ s.exists ref = true
  | .assign this ref => s.exists this = true ∧ s.exists ref = true
  | .destroy this => s.exists this = true

instance (s : State) : (op : Op) → Decidable (Allowed s op)
  | .newObject => inferInstanceAs (Decidable True)
  | .construct _ => inferInstanceAs (Decidable (_ = _))
  | .ofPointer _ _ => inferInstanceAs (Decidable (_ ∧ _))
  | .copy _ _ => inferInstanceAs (Decidable (_ ∧ _))
  | .assign _ _ => inferInstanceAs (Decidable (_ ∧ _))
  | .destroy _ => inferInstanceAs (Decidable (_ = _))

/-- Programs that use handles. -/
def machine : Machine State Op Unit where
  Allowed := Allowed
  exec s op := do
    let s' ← exec s op
    pure ((), s')

instance (s : State) (op : Op) : Decidable (machine.Allowed s op) :=
  inferInstanceAs (Decidable (Allowed s op))

/-! ## Counters -/

/-- One more handle of a counter. -/
def bump (refs : Nat → Nat) (used : Option Nat) (c : Nat) : Nat :=
  refs c + if used = some c then 1 else 0

/-- One handle less. -/
def drop (refs : Nat → Nat) (used : Option Nat) (c : Nat) : Nat :=
  refs c - if used = some c then 1 else 0

/-- The object `o` and its counter `c` exist as long as there are handles. -/
structure Tracked (refs : Nat → Nat) (heap : Heap) (o c : Nat) : Prop where
  counter_lt : c < heap.counters.size
  object_lt : o < heap.objects.size
  counter_eq : 0 < refs c → ∃ count, heap.counters.lookup c = some count ∧ count.toNat = refs c
  object_eq : 0 < refs c → heap.objects.lookup o = some ()
  counter_gone : refs c = 0 → heap.counters.lookup c = none
  object_gone : refs c = 0 → heap.objects.lookup o = none

/-- The heap belongs to a number of handles for each counter. -/
structure Counts (given : List (Nat × Nat)) (refs : Nat → Nat) (heap : Heap) : Prop where
  tracked : ∀ o c, (o, c) ∈ given → Tracked refs heap o c
  injective : ∀ o c o' c', (o, c) ∈ given → (o', c') ∈ given → (o = o' ↔ c = c')
  raw : ∀ o < heap.objects.size, (∀ c, (o, c) ∉ given) → heap.objects.lookup o = some ()

section Counters

variable {given : List (Nat × Nat)} {refs refs' : Nat → Nat} {heap : Heap} {o c : Nat}

theorem Tracked.congr {heap' : Heap} (h : Tracked refs heap o c) (hrefs : refs' c = refs c)
    (hcounters : heap.counters.size ≤ heap'.counters.size)
    (hcounter : heap'.counters.lookup c = heap.counters.lookup c)
    (hobjects : heap'.objects.size = heap.objects.size)
    (hobject : heap'.objects.lookup o = heap.objects.lookup o) : Tracked refs' heap' o c := by
  constructor
  · exact Nat.lt_of_lt_of_le h.counter_lt hcounters
  · rw [hobjects]; exact h.object_lt
  · rw [hrefs, hcounter]; exact h.counter_eq
  · rw [hrefs, hobject]; exact h.object_eq
  · rw [hrefs, hcounter]; exact h.counter_gone
  · rw [hrefs, hobject]; exact h.object_gone

theorem Counts.step {heap' : Heap} (h : Counts given refs heap) (hmem : (o, c) ∈ given)
    (hnew : Tracked refs' heap' o c) (hrefs : ∀ c' ≠ c, refs' c' = refs c')
    (hcounters : heap'.counters.size = heap.counters.size)
    (hcounter : ∀ c' ≠ c, heap'.counters.lookup c' = heap.counters.lookup c')
    (hobjects : heap'.objects.size = heap.objects.size)
    (hobject : ∀ o' ≠ o, heap'.objects.lookup o' = heap.objects.lookup o') :
    Counts given refs' heap' := by
  refine ⟨fun o' c' hmem' => ?_, h.injective, fun o' ho' hraw => ?_⟩
  · rcases eq_or_ne c' c with rfl | hne
    · obtain rfl := (h.injective o' c' o c' hmem' hmem).mpr rfl
      exact hnew
    · have hne' : o' ≠ o := fun heq => hne ((h.injective o' c' o c hmem' hmem).mp heq)
      exact (h.tracked o' c' hmem').congr (hrefs c' hne) hcounters.ge (hcounter c' hne) hobjects
        (hobject o' hne')
  · rw [hobjects] at ho'
    rw [hobject o' fun heq => hraw c (heq ▸ hmem)]
    exact h.raw o' ho' hraw

theorem Counts.retain (h : Counts given refs heap) (hmem : (o, c) ∈ given) (hpos : 0 < refs c)
    (hlt : refs c + 1 < 2 ^ 64) :
    ∃ heap', retain (some c) heap = .ok heap' ∧ Counts given (bump refs (some c)) heap' := by
  have htracked := h.tracked o c hmem
  obtain ⟨count, hcount, heq⟩ := htracked.counter_eq hpos
  obtain ⟨counters, hput, hsize, hlookup⟩ := Blocks.put_eq_ok hcount (count + 1)
  simp only [RefCount.retain, Option.elim_some, Blocks.get_eq_ok hcount, ok_bind, hput]
  refine ⟨_, rfl, ?_⟩
  have hbump : bump refs (some c) c = refs c + 1 := by simp [bump]
  have hnew : Tracked (bump refs (some c)) { heap with counters := counters } o c := by
    refine ⟨hsize ▸ htracked.counter_lt, htracked.object_lt, fun _ => ?_, fun _ => ?_, ?_, ?_⟩
    · refine ⟨count + 1, by rw [hlookup, if_pos rfl], ?_⟩
      rw [hbump, BitVec.toNat_add, heq]
      exact Nat.mod_eq_of_lt hlt
    · exact htracked.object_eq hpos
    · intro hzero; omega
    · intro hzero; omega
  refine h.step hmem hnew (fun c' hne => ?_) hsize (fun c' hne => ?_) rfl fun _ _ => rfl
  · simp [bump, hne.symm]
  · rw [hlookup, if_neg hne]

/-- One handle less; the last one takes the counter and the object with it. -/
theorem Counts.release (h : Counts given refs heap) (hmem : (o, c) ∈ given) (hpos : 0 < refs c) :
    ∃ heap', release (some c) (some o) heap = .ok heap' ∧
      Counts given (drop refs (some c)) heap' := by
  have htracked := h.tracked o c hmem
  obtain ⟨count, hcount, heq⟩ := htracked.counter_eq hpos
  obtain ⟨counters, hput, hsize, hlookup⟩ := Blocks.put_eq_ok hcount (count - 1)
  have hvalue : (count - 1).toNat = refs c - 1 := by
    rw [← heq]
    have hlt := count.isLt
    rw [BitVec.toNat_sub_of_le (by rw [BitVec.le_def]; simp; omega)]
    simp
  have hdrop : drop refs (some c) c = refs c - 1 := by simp [drop]
  have hother : ∀ c' ≠ c, drop refs (some c) c' = refs c' := fun c' hne => by
    simp [drop, hne.symm]
  have hself : counters.lookup c = some (count - 1) := by rw [hlookup, if_pos rfl]
  simp only [RefCount.release, Option.elim_some, Blocks.get_eq_ok hcount, ok_bind, hput]
  by_cases hlast : count - 1 = 0
  · have hzero : refs c - 1 = 0 := by rw [← hvalue, hlast]; rfl
    obtain ⟨freed, hfree, hfreedSize, hfreed⟩ := Blocks.free_eq_ok hself
    obtain ⟨objects, hobj, hobjSize, hobjLookup⟩ := Blocks.free_eq_ok (htracked.object_eq hpos)
    rw [if_pos hlast, hfree, ok_bind]
    refine ⟨_, by simp only [deleteObj, Option.elim_some, hobj, ok_bind]; rfl, ?_⟩
    refine h.step hmem ⟨?_, ?_, ?_, ?_, ?_, ?_⟩ hother (hfreedSize.trans hsize) ?_ hobjSize ?_
    · exact (hfreedSize.trans hsize) ▸ htracked.counter_lt
    · exact hobjSize ▸ htracked.object_lt
    · intro hlive; omega
    · intro hlive; omega
    · intro _; exact (hfreed c).trans (if_pos rfl)
    · intro _; exact (hobjLookup o).trans (if_pos rfl)
    · intro c' hne
      show freed.lookup c' = _
      rw [hfreed, if_neg hne, hlookup, if_neg hne]
    · intro o' hne
      exact (hobjLookup o').trans (if_neg hne)
  · have hmore : refs c - 1 ≠ 0 := fun hzero =>
      hlast (BitVec.eq_of_toNat_eq (by rw [hvalue, hzero]; rfl))
    rw [if_neg hlast]
    refine ⟨_, rfl, h.step hmem ⟨?_, htracked.object_lt, ?_, ?_, ?_, ?_⟩ hother hsize ?_ rfl
      fun _ _ => rfl⟩
    · exact hsize ▸ htracked.counter_lt
    · intro _; exact ⟨_, hself, by rw [hvalue, hdrop]⟩
    · intro _; exact htracked.object_eq hpos
    · intro hzero; omega
    · intro hzero; omega
    · intro c' hne
      exact (hlookup c').trans (if_neg hne)

end Counters

/-! ## Handles -/

/-- How many handles have this counter. -/
def refs (handles : List Handle) (c : Nat) : Nat :=
  handles.countP fun h => h.used = some c

/-- A handle is empty, or it has an object that was given to a constructor and its counter. -/
def Refers (given : List (Nat × Nat)) (h : Handle) : Prop :=
  (h.used = none ∧ h.obj = none) ∨ ∃ o c, (o, c) ∈ given ∧ h.used = some c ∧ h.obj = some o

theorem Refers.mono {given given' : List (Nat × Nat)} {h : Handle} (hrefers : Refers given h)
    (hgiven : ∀ pair, pair ∈ given → pair ∈ given') : Refers given' h := by
  rcases hrefers with hnull | ⟨o, c, hpair, hfields⟩
  · exact Or.inl hnull
  · exact Or.inr ⟨o, c, hgiven _ hpair, hfields⟩

/-- The handles are at different addresses, and refer to what was given. -/
structure Placed (given : List (Nat × Nat)) (handles : List Handle) : Prop where
  addresses : (handles.map Handle.this).Nodup
  refers : ∀ h ∈ handles, Refers given h

/-- The counters count the handles. -/
structure Owned (s : State) : Prop extends Placed s.given s.handles where
  counts : Counts s.given (refs s.handles) s.heap

section Handles

variable {s : State} {h own : Handle} {handles : List Handle} {this : Address} {c : Nat}

theorem refs_cons : refs (h :: handles) = bump (refs handles) h.used := by
  funext c
  simp [refs, bump, List.countP_cons]

theorem refs_pos (hmem : h ∈ handles) (hused : h.used = some c) : 0 < refs handles c :=
  List.countP_pos_iff.mpr ⟨h, hmem, by simpa using hused⟩

theorem refs_erase (hmem : h ∈ handles) : refs (handles.erase h) = drop (refs handles) h.used := by
  funext c
  simp [refs, drop, List.countP_erase, hmem]

theorem drop_bump (hmem : own ∈ handles) (used : Option Nat) :
    drop (bump (refs handles) used) own.used = bump (drop (refs handles) own.used) used := by
  funext c
  show refs handles c + (if used = some c then 1 else 0) - (if own.used = some c then 1 else 0) =
    refs handles c - (if own.used = some c then 1 else 0) + (if used = some c then 1 else 0)
  by_cases hused : own.used = some c
  · have hpos := refs_pos hmem hused
    rw [if_pos hused]
    omega
  · rw [if_neg hused, Nat.sub_zero, Nat.sub_zero]

theorem exists_handle (hexists : s.exists this = true) :
    ∃ h, s.handle this = .ok h ∧ h ∈ s.handles ∧ h.this = this := by
  have hsome : (s.handles.find? fun h => h.this = this).isSome := by
    rw [List.find?_isSome]
    simpa [State.exists] using hexists
  obtain ⟨h, hh⟩ := Option.isSome_iff_exists.mp hsome
  refine ⟨h, by rw [State.handle, hh]; rfl, List.mem_of_find?_eq_some hh, ?_⟩
  simpa using List.find?_some hh

theorem not_mem_of_exists (hexists : s.exists this = false) :
    this ∉ s.handles.map Handle.this := by
  simpa [State.exists] using hexists

theorem Owned.refs_lt (hs : Owned s) (c : Nat) : refs s.handles c + 1 < 2 ^ 64 := by
  have hcount : refs s.handles c ≤ s.handles.length := List.countP_le_length
  have hlength := hs.addresses.length_le_card
  rw [List.length_map, Fintype.card_fin] at hlength
  omega

theorem Owned.retain (hs : Owned s) (hmem : h ∈ s.handles) :
    ∃ heap, retain h.used s.heap = .ok heap ∧
      Counts s.given (bump (refs s.handles) h.used) heap := by
  rcases hs.refers h hmem with ⟨hused, _⟩ | ⟨o, c, hgiven, hused, _⟩
  · rw [hused]
    refine ⟨s.heap, rfl, ?_⟩
    have hsame : bump (refs s.handles) none = refs s.handles := by
      funext c
      simp [bump]
    rw [hsame]
    exact hs.counts
  · rw [hused]
    exact hs.counts.retain hgiven (refs_pos hmem hused) (hs.refs_lt c)

theorem Counts.releaseHandle {given : List (Nat × Nat)} {count : Nat → Nat} {heap : Heap}
    (hcounts : Counts given count heap) (hrefers : Refers given h)
    (hpos : ∀ c, h.used = some c → 0 < count c) :
    ∃ heap', RefCount.release h.used h.obj heap = .ok heap' ∧
      Counts given (drop count h.used) heap' := by
  rcases hrefers with ⟨hused, _⟩ | ⟨o, c, hgiven, hused, hobj⟩
  · rw [hused]
    refine ⟨heap, rfl, ?_⟩
    have hsame : drop count none = count := by
      funext c
      simp [drop]
    rw [hsame]
    exact hcounts
  · rw [hused, hobj]
    exact hcounts.release hgiven (hpos c hused)

end Handles

/-! ## Operations -/

section Operations

variable {s : State} {this ref : Address} {h : Handle}

theorem Placed.cons {given : List (Nat × Nat)} {handles : List Handle} (hs : Placed given handles)
    (haddress : h.this ∉ handles.map Handle.this) (hrefers : Refers given h) :
    Placed given (h :: handles) := by
  refine ⟨List.nodup_cons.mpr ⟨haddress, hs.addresses⟩, fun other hother => ?_⟩
  rcases List.mem_cons.mp hother with rfl | hother
  · exact hrefers
  · exact hs.refers other hother

theorem Placed.erase {given : List (Nat × Nat)} {handles : List Handle} (hs : Placed given handles)
    (h : Handle) : Placed given (handles.erase h) :=
  ⟨hs.addresses.sublist (List.erase_sublist.map _),
    fun other hother => hs.refers other (List.mem_of_mem_erase hother)⟩

theorem Placed.not_mem_erase {given : List (Nat × Nat)} {handles : List Handle}
    (hs : Placed given handles) (hmem : h ∈ handles) :
    h.this ∉ (handles.erase h).map Handle.this := by
  intro hthis
  obtain ⟨other, hother, hsame⟩ := List.mem_map.mp hthis
  obtain rfl := List.inj_on_of_nodup_map hs.addresses (List.mem_of_mem_erase hother) hmem hsame
  exact (List.Nodup.of_map _ hs.addresses).not_mem_erase hother

theorem Owned.newObject (hs : Owned s) :
    Owned { s with heap := { s.heap with objects := s.heap.objects.alloc () } } := by
  refine ⟨hs.toPlaced, fun o c hmem => ?_, hs.counts.injective, fun o ho hraw => ?_⟩
  · have htracked := hs.counts.tracked o c hmem
    have hsame : (s.heap.objects.alloc ()).lookup o = s.heap.objects.lookup o := by
      rw [Blocks.lookup_alloc, if_neg (Nat.ne_of_lt htracked.object_lt)]
    refine ⟨htracked.counter_lt, ?_, htracked.counter_eq, ?_, htracked.counter_gone, ?_⟩
    · exact Nat.lt_of_lt_of_eq (Nat.lt_succ_of_lt htracked.object_lt) Blocks.size_alloc.symm
    · rw [hsame]
      exact htracked.object_eq
    · rw [hsame]
      exact htracked.object_gone
  · rw [Blocks.lookup_alloc]
    split
    · rfl
    · rename_i hne
      rw [Blocks.size_alloc] at ho
      exact hs.counts.raw o (by omega) hraw

theorem Owned.null (hs : Owned s) (haddress : s.exists this = false) :
    Owned { s with handles := ⟨this, none, none⟩ :: s.handles } := by
  refine ⟨hs.toPlaced.cons (not_mem_of_exists haddress) (Or.inl ⟨rfl, rfl⟩), ?_⟩
  have hsame : bump (refs s.handles) none = refs s.handles := by
    funext c
    simp [bump]
  rw [refs_cons, hsame]
  exact hs.counts

theorem Owned.refs_size (hs : Owned s) : refs s.handles s.heap.counters.size = 0 := by
  refine List.countP_eq_zero.mpr fun h hh hused => ?_
  rw [decide_eq_true_iff] at hused
  rcases hs.refers h hh with ⟨hnull, _⟩ | ⟨o, c, hmem, hc, _⟩
  · rw [hnull] at hused
    cases hused
  · have hlt := (hs.counts.tracked o c hmem).counter_lt
    rw [hc, Option.some.injEq] at hused
    omega

theorem Owned.ofPointer (hs : Owned s) {o : Nat} (haddress : s.exists this = false)
    (hobject : o < s.heap.objects.size) (hfresh : ∀ c, (o, c) ∉ s.given) :
    Owned ⟨⟨this, some s.heap.counters.size, some o⟩ :: s.handles,
      { s.heap with counters := s.heap.counters.alloc 1 },
      (o, s.heap.counters.size) :: s.given⟩ := by
  have hplaced : Placed ((o, s.heap.counters.size) :: s.given) s.handles :=
    ⟨hs.addresses, fun h hh => (hs.refers h hh).mono fun _ => List.mem_cons_of_mem _⟩
  refine ⟨hplaced.cons (not_mem_of_exists haddress)
    (Or.inr ⟨o, _, List.mem_cons_self, rfl, rfl⟩), ?_⟩
  rw [refs_cons]
  refine ⟨fun o' c' hmem => ?_, ?_, ?_⟩
  · rcases List.mem_cons.mp hmem with heq | hmem
    · -- the new counter is one, for the new handle
      cases heq
      have hone : bump (refs s.handles) (some s.heap.counters.size) s.heap.counters.size = 1 := by
        simp [bump, hs.refs_size]
      refine ⟨Nat.lt_of_lt_of_eq (Nat.lt_succ_self _) Blocks.size_alloc.symm, hobject, ?_, ?_, ?_,
        ?_⟩
      · exact fun _ => ⟨1, by rw [Blocks.lookup_alloc, if_pos rfl], hone.symm⟩
      · exact fun _ => hs.counts.raw o hobject hfresh
      · intro hzero
        rw [hone] at hzero
        cases hzero
      · intro hzero
        rw [hone] at hzero
        cases hzero
    · have htracked := hs.counts.tracked o' c' hmem
      have hne : c' ≠ s.heap.counters.size := Nat.ne_of_lt htracked.counter_lt
      refine htracked.congr (by simp [bump, hne.symm]) ?_ ?_ rfl rfl
      · exact Nat.le_trans (Nat.le_succ _) Blocks.size_alloc.ge
      · rw [Blocks.lookup_alloc, if_neg hne]
  · intro o₁ c₁ o₂ c₂ h₁ h₂
    rcases List.mem_cons.mp h₁ with heq₁ | h₁ <;> rcases List.mem_cons.mp h₂ with heq₂ | h₂
    · cases heq₁
      cases heq₂
      exact ⟨fun _ => rfl, fun _ => rfl⟩
    · cases heq₁
      have hlt := (hs.counts.tracked o₂ c₂ h₂).counter_lt
      exact ⟨fun heq => absurd (heq ▸ h₂) (hfresh c₂), fun heq => by omega⟩
    · cases heq₂
      have hlt := (hs.counts.tracked o₁ c₁ h₁).counter_lt
      exact ⟨fun heq => absurd (heq ▸ h₁) (hfresh c₁), fun heq => by omega⟩
    · exact hs.counts.injective o₁ c₁ o₂ c₂ h₁ h₂
  · exact fun o' ho' hraw => hs.counts.raw o' ho' fun c hmem => hraw c (List.mem_cons_of_mem _ hmem)

theorem Owned.copy (hs : Owned s) (haddress : s.exists this = false)
    (href : s.exists ref = true) : ∃ s', exec s (.copy this ref) = .ok s' ∧ Owned s' := by
  obtain ⟨other, hother, hmem, _⟩ := exists_handle href
  obtain ⟨heap, hheap, hcounts⟩ := hs.retain hmem
  refine ⟨_, by simp only [exec, hother, ok_bind, hheap]; rfl, ?_⟩
  exact ⟨hs.toPlaced.cons (not_mem_of_exists haddress) (hs.refers other hmem),
    refs_cons ▸ hcounts⟩

theorem Owned.destroy (hs : Owned s) (hthis : s.exists this = true) :
    ∃ s', exec s (.destroy this) = .ok s' ∧ Owned s' := by
  obtain ⟨own, hown, hmem, _⟩ := exists_handle hthis
  obtain ⟨heap, hheap, hcounts⟩ :=
    hs.counts.releaseHandle (hs.refers own hmem) fun c hused => refs_pos hmem hused
  exact ⟨_, by simp only [exec, hown, ok_bind, hheap]; rfl, hs.toPlaced.erase own,
    refs_erase hmem ▸ hcounts⟩

/-- An assignment, also of a handle to itself or to another handle of the same object. -/
theorem Owned.assign (hs : Owned s) (hthis : s.exists this = true) (href : s.exists ref = true) :
    ∃ s', exec s (.assign this ref) = .ok s' ∧ Owned s' := by
  obtain ⟨other, hother, hmem, _⟩ := exists_handle href
  obtain ⟨own, hown, hmemOwn, rfl⟩ := exists_handle hthis
  obtain ⟨heap, hheap, hcounts⟩ := hs.retain hmem
  have hpos : ∀ c, own.used = some c → 0 < bump (refs s.handles) other.used c := fun c hused =>
    Nat.lt_of_lt_of_le (refs_pos hmemOwn hused) (Nat.le_add_right _ _)
  obtain ⟨heap', hheap', hcounts'⟩ := hcounts.releaseHandle (hs.refers own hmemOwn) hpos
  refine ⟨_, by simp only [exec, hother, hown, ok_bind, hheap, hheap']; rfl, ?_⟩
  refine ⟨(hs.toPlaced.erase own).cons (hs.toPlaced.not_mem_erase hmemOwn)
    (hs.refers other hmem), ?_⟩
  rw [refs_cons, refs_erase hmemOwn, ← drop_bump hmemOwn]
  exact hcounts'

/-- Every operation that is allowed succeeds, and the counters count the handles afterwards. -/
theorem Owned.exec {op : Op} (hs : Owned s) (hop : Allowed s op) :
    ∃ s', exec s op = .ok s' ∧ Owned s' := by
  cases op with
  | newObject => exact ⟨_, rfl, hs.newObject⟩
  | construct this => exact ⟨_, rfl, hs.null hop⟩
  | ofPointer this obj =>
    obtain ⟨haddress, hobj⟩ := hop
    cases obj with
    | none => exact ⟨_, rfl, hs.null haddress⟩
    | some o =>
      simp only [Option.all_some, Bool.and_eq_true, decide_eq_true_eq, List.all_eq_true] at hobj
      exact ⟨_, rfl, hs.ofPointer haddress hobj.1 fun c hmem => hobj.2 _ hmem rfl⟩
  | copy this ref => exact hs.copy hop.1 hop.2
  | assign this ref => exact hs.assign hop.1 hop.2
  | destroy this => exact hs.destroy hop

theorem given_subset {s' : State} {op : Op} (h : exec s op = .ok s') : s.given ⊆ s'.given := by
  cases op with
  | newObject => cases h; exact List.Subset.refl _
  | construct this => cases h; exact List.Subset.refl _
  | ofPointer this obj =>
    cases obj with
    | none => cases h; exact List.Subset.refl _
    | some o => cases h; exact List.subset_cons_self _ _
  | copy this ref =>
    obtain ⟨_, _, h⟩ := bind_eq_ok.mp h
    obtain ⟨_, _, h⟩ := bind_eq_ok.mp h
    cases h
    exact List.Subset.refl _
  | assign this ref =>
    obtain ⟨_, _, h⟩ := bind_eq_ok.mp h
    obtain ⟨_, _, h⟩ := bind_eq_ok.mp h
    obtain ⟨_, _, h⟩ := bind_eq_ok.mp h
    obtain ⟨_, _, h⟩ := bind_eq_ok.mp h
    cases h
    exact List.Subset.refl _
  | destroy this =>
    obtain ⟨_, _, h⟩ := bind_eq_ok.mp h
    obtain ⟨_, _, h⟩ := bind_eq_ok.mp h
    cases h
    exact List.Subset.refl _

end Operations

/-! ## Whole programs -/

/-- How many handles refer to this object. -/
def handlesOf (handles : List Handle) (o : Nat) : Nat :=
  handles.countP fun h => h.obj = some o

/-- An object with handles exists, and its counter is their number; an object without handles was
deleted once, and its counter too. -/
structure Exact (s : State) (o c : Nat) : Prop where
  counter_eq : 0 < handlesOf s.handles o →
    ∃ count, s.heap.counters.lookup c = some count ∧ count.toNat = handlesOf s.handles o
  object_exists : 0 < handlesOf s.handles o → s.heap.objects.lookup o = some ()
  not_deleted : 0 < handlesOf s.handles o →
    s.heap.objects.freed.count o = 0 ∧ s.heap.counters.freed.count c = 0
  deleted : handlesOf s.handles o = 0 →
    s.heap.objects.freed.count o = 1 ∧ s.heap.counters.freed.count c = 1

section Programs

variable {s : State} {o c : Nat}

theorem Owned.handlesOf_eq (hs : Owned s) (hmem : (o, c) ∈ s.given) :
    handlesOf s.handles o = refs s.handles c := by
  refine List.countP_congr fun h hh => ?_
  rw [decide_eq_true_iff, decide_eq_true_iff]
  rcases hs.refers h hh with ⟨hused, hobj⟩ | ⟨o', c', hmem', hused, hobj⟩
  · rw [hused, hobj]
    exact ⟨nofun, nofun⟩
  · rw [hused, hobj, Option.some.injEq, Option.some.injEq]
    exact hs.counts.injective o' c' o c hmem' hmem

theorem Owned.exact (hs : Owned s) (hmem : (o, c) ∈ s.given) : Exact s o c := by
  have htracked := hs.counts.tracked o c hmem
  have heq := hs.handlesOf_eq hmem
  constructor
  · rw [heq]
    exact htracked.counter_eq
  · rw [heq]
    exact htracked.object_eq
  · rw [heq]
    intro hpos
    obtain ⟨count, hcount, _⟩ := htracked.counter_eq hpos
    exact ⟨List.count_eq_zero.mpr (Blocks.not_mem_freed (htracked.object_eq hpos)),
      List.count_eq_zero.mpr (Blocks.not_mem_freed hcount)⟩
  · rw [heq]
    intro hzero
    have hobject := Blocks.mem_freed_iff.mpr ⟨htracked.object_lt, htracked.object_gone hzero⟩
    have hcounter := Blocks.mem_freed_iff.mpr ⟨htracked.counter_lt, htracked.counter_gone hzero⟩
    exact ⟨List.count_eq_one_of_mem (Blocks.nodup _) hobject,
      List.count_eq_one_of_mem (Blocks.nodup _) hcounter⟩

/-- The deleted objects and counters are those without a handle. -/
theorem Exact.mem_freed (h : Exact s o c) :
    (o ∈ s.heap.objects.freed ↔ handlesOf s.handles o = 0) ∧
      (c ∈ s.heap.counters.freed ↔ handlesOf s.handles o = 0) := by
  rcases Nat.eq_zero_or_pos (handlesOf s.handles o) with hzero | hpos
  · obtain ⟨hobject, hcounter⟩ := h.deleted hzero
    exact ⟨⟨fun _ => hzero, fun _ => List.count_pos_iff.mp (by omega)⟩,
      ⟨fun _ => hzero, fun _ => List.count_pos_iff.mp (by omega)⟩⟩
  · obtain ⟨hobject, hcounter⟩ := h.not_deleted hpos
    exact ⟨⟨fun hmem => absurd hmem (List.count_eq_zero.mp hobject), fun hzero => by omega⟩,
      ⟨fun hmem => absurd hmem (List.count_eq_zero.mp hcounter), fun hzero => by omega⟩⟩

theorem owned_init : Owned State.init :=
  ⟨⟨List.nodup_nil, fun _ h => absurd h List.not_mem_nil⟩, fun _ _ h => absurd h List.not_mem_nil,
    fun _ _ _ _ h => absurd h List.not_mem_nil, fun _ h => absurd h (Nat.not_lt_zero _)⟩

theorem Owned.machine_exec {op : Op} (hs : Owned s) (hop : machine.Allowed s op) :
    ∃ s', machine.exec s op = .ok ((), s') ∧ Owned s' ∧ s.given ⊆ s'.given := by
  obtain ⟨s', hs', howned⟩ := hs.exec hop
  refine ⟨s', ?_, howned, given_subset hs'⟩
  show (do let s' ← RefCount.exec s op; pure ((), s')) = Except.ok ((), s')
  rw [hs', ok_bind]
  rfl

theorem owned_of_steps (hrun : machine.Steps State.init s) : Owned s := by
  refine Machine.invariant Owned (fun s op hs hop => ?_) owned_init hrun
  obtain ⟨s', hs', howned, _⟩ := hs.machine_exec hop
  exact ⟨(), s', hs', howned⟩

/-- At every point of every program, the counters are exact, and every operation succeeds: it does
not touch what was deleted. It deletes an object and its counter exactly if it takes away the last
handle. -/
theorem refCount_owns (hrun : machine.Steps State.init s) :
    (∀ o c, (o, c) ∈ s.given → Exact s o c) ∧
    ∀ op, machine.Allowed s op → ∃ s', machine.exec s op = .ok ((), s') ∧
      ∀ o c, (o, c) ∈ s.given →
        (o ∉ s.heap.objects.freed ∧ o ∈ s'.heap.objects.freed ↔
          0 < handlesOf s.handles o ∧ handlesOf s'.handles o = 0) ∧
        (c ∉ s.heap.counters.freed ∧ c ∈ s'.heap.counters.freed ↔
          0 < handlesOf s.handles o ∧ handlesOf s'.handles o = 0) := by
  have hs := owned_of_steps hrun
  refine ⟨fun o c hmem => hs.exact hmem, fun op hop => ?_⟩
  obtain ⟨s', hs', howned, hgiven⟩ := hs.machine_exec hop
  refine ⟨s', hs', fun o c hmem => ?_⟩
  have hbefore := (hs.exact hmem).mem_freed
  have hafter := (howned.exact (hgiven hmem)).mem_freed
  rw [hbefore.1, hbefore.2, hafter.1, hafter.2, Nat.pos_iff_ne_zero]
  exact ⟨Iff.rfl, Iff.rfl⟩

/-- `main` of `run_test_ref_count.cpp`: the handles `r1`, `r2` and `r3` are at the addresses 1 to 3,
temporaries and the parameter of `process` behind them. -/
def testMain : List Op :=
  [.newObject, .ofPointer 1 (some 0), .copy 2 1, .construct 3, .assign 3 2, .assign 3 1,
    .construct 4, .assign 1 4, .destroy 4,
    .newObject, .ofPointer 4 (some 1), .assign 1 4, .destroy 4, .assign 3 1,
    .copy 5 3, .copy 6 5, .assign 2 6, .destroy 6, .destroy 5,
    .destroy 3, .destroy 2, .destroy 1]

theorem testMain_owns : ∃ s, machine.run State.init testMain = some s ∧
    s.heap.objects.freed = [1, 0] ∧ ∀ o c, (o, c) ∈ s.given → Exact s o c := by
  have hrun : (machine.run State.init testMain).map (fun s => s.heap.objects.freed) =
      some [1, 0] := by decide +kernel
  obtain ⟨s, hs, hfreed⟩ := Option.map_eq_some_iff.mp hrun
  exact ⟨s, hs, hfreed, (refCount_owns (Machine.steps_of_run hs)).1⟩

end Programs

end HakunaMatata.RefCount
