import HakunaMatata.Base.Memory

/-!
# Blocks that are allocated and freed

A heap of blocks with identity: an allocation gives a block that did not exist before, so that a
pointer to a freed block stays invalid. Every access is checked, and a freed block cannot be read,
written or freed again. The blocks that were freed are listed, each once.
-/

namespace HakunaMatata.Base

/-- The contents of the allocated blocks, by number, and the numbers of those that were freed. -/
structure Blocks (α : Type*) where
  cells : List (Option α)
  freed : List Nat
  nodup : freed.Nodup
  mem_freed : ∀ i, i ∈ freed ↔ cells[i]? = some none

namespace Blocks

variable {α : Type*} {b b' : Blocks α} {a : α} {i j : Nat}

/-- No block was allocated yet. -/
def empty : Blocks α where
  cells := []
  freed := []
  nodup := List.nodup_nil
  mem_freed _ := ⟨fun h => (List.not_mem_nil h).elim, nofun⟩

/-- The number of the blocks allocated so far, which is the number of the next one. -/
def size (b : Blocks α) : Nat := b.cells.length

/-- The contents of a block that was not freed. -/
def lookup (b : Blocks α) (i : Nat) : Option α := b.cells[i]?.join

theorem lookup_eq_some : b.lookup i = some a ↔ b.cells[i]? = some (some a) :=
  Option.join_eq_some_iff

theorem lt_size (h : b.lookup i = some a) : i < b.size :=
  (List.getElem?_eq_some_iff.mp (lookup_eq_some.mp h)).1

theorem not_mem_freed (h : b.lookup i = some a) : i ∉ b.freed := by
  intro hfreed
  rw [b.mem_freed, lookup_eq_some.mp h] at hfreed
  cases hfreed

theorem mem_freed_iff : i ∈ b.freed ↔ i < b.size ∧ b.lookup i = none := by
  rw [b.mem_freed]
  constructor
  · intro h
    exact ⟨(List.getElem?_eq_some_iff.mp h).1, by rw [lookup, h]; rfl⟩
  · rintro ⟨hi, hnone⟩
    cases hcell : b.cells[i]? with
    | none => exact absurd (List.getElem?_eq_none_iff.mp hcell) (Nat.not_le_of_lt hi)
    | some cell =>
      rw [lookup, hcell] at hnone
      exact congrArg some hnone

theorem lookup_of_size_le (h : b.size ≤ i) : b.lookup i = none := by
  rw [lookup, List.getElem?_eq_none_iff.mpr h]
  rfl

/-! ## Allocation -/

theorem getElem?_alloc (b : Blocks α) (a : α) :
    (b.cells ++ [some a])[i]? = some none ↔ b.cells[i]? = some none := by
  rcases Nat.lt_or_ge i b.cells.length with hlt | hge
  · rw [List.getElem?_append_left hlt]
  · rw [List.getElem?_append_right hge, List.getElem?_eq_none_iff.mpr hge,
      List.getElem?_singleton]
    split <;> simp

/-- Allocate a block; its number is the `size` before. -/
def alloc (b : Blocks α) (a : α) : Blocks α where
  cells := b.cells ++ [some a]
  freed := b.freed
  nodup := b.nodup
  mem_freed _ := (b.mem_freed _).trans (getElem?_alloc b a).symm

@[simp] theorem size_alloc : (b.alloc a).size = b.size + 1 :=
  List.length_append

theorem lookup_alloc : (b.alloc a).lookup i = if i = b.size then some a else b.lookup i := by
  unfold lookup alloc size
  rcases Nat.lt_trichotomy i b.cells.length with hlt | rfl | hgt
  · rw [if_neg (Nat.ne_of_lt hlt), List.getElem?_append_left hlt]
  · rw [if_pos rfl, List.getElem?_concat_length]
    rfl
  · rw [if_neg (Nat.ne_of_gt hgt), List.getElem?_eq_none_iff.mpr (Nat.le_of_lt hgt),
      List.getElem?_eq_none_iff.mpr (by rw [List.length_append]; exact hgt)]

/-! ## Access -/

/-- Read a block. -/
def get (b : Blocks α) (i : Nat) : Except Fault α :=
  (b.lookup i).elim (.error .outOfBounds) .ok

theorem get_eq_ok (h : b.lookup i = some a) : b.get i = .ok a := by
  rw [get, h]
  rfl

theorem join_set (h : b.lookup i = some a) (cell : Option α) (j : Nat) :
    (b.cells.set i cell)[j]?.join = if j = i then cell else b.lookup j := by
  rcases eq_or_ne j i with rfl | hne
  · rw [if_pos rfl, List.getElem?_set_self (lt_size h)]
    rfl
  · rw [if_neg hne, List.getElem?_set_ne hne.symm, lookup]

theorem getElem?_put (h : (b.lookup i).isSome) (a : α) :
    (b.cells.set i (some a))[j]? = some none ↔ b.cells[j]? = some none := by
  obtain ⟨old, hold⟩ := Option.isSome_iff_exists.mp h
  rcases eq_or_ne j i with rfl | hne
  · rw [List.getElem?_set_self (lt_size hold), lookup_eq_some.mp hold]
    simp
  · rw [List.getElem?_set_ne hne.symm]

/-- Write a block. -/
def put (b : Blocks α) (i : Nat) (a : α) : Except Fault (Blocks α) :=
  if h : (b.lookup i).isSome then
    .ok
      { cells := b.cells.set i (some a)
        freed := b.freed
        nodup := b.nodup
        mem_freed := fun _ => (b.mem_freed _).trans (getElem?_put h a).symm }
  else .error .outOfBounds

theorem put_eq_ok {old : α} (h : b.lookup i = some old) (a : α) :
    ∃ b', b.put i a = .ok b' ∧ b'.size = b.size ∧
      ∀ j, b'.lookup j = if j = i then some a else b.lookup j := by
  exact ⟨_, dif_pos (by rw [h]; rfl), List.length_set, join_set h _⟩

theorem nodup_free (h : (b.lookup i).isSome) : (i :: b.freed).Nodup := by
  obtain ⟨a, ha⟩ := Option.isSome_iff_exists.mp h
  exact List.nodup_cons.mpr ⟨not_mem_freed ha, b.nodup⟩

theorem mem_free (h : (b.lookup i).isSome) (j : Nat) :
    j ∈ i :: b.freed ↔ (b.cells.set i none)[j]? = some none := by
  obtain ⟨a, ha⟩ := Option.isSome_iff_exists.mp h
  rw [List.mem_cons, b.mem_freed]
  rcases eq_or_ne j i with rfl | hne
  · simp [List.getElem?_set_self (lt_size ha)]
  · simp [List.getElem?_set_ne hne.symm, hne]

/-- Free a block. -/
def free (b : Blocks α) (i : Nat) : Except Fault (Blocks α) :=
  if h : (b.lookup i).isSome then
    .ok
      { cells := b.cells.set i none
        freed := i :: b.freed
        nodup := nodup_free h
        mem_freed := mem_free h }
  else .error .outOfBounds

theorem free_eq_ok (h : b.lookup i = some a) :
    ∃ b', b.free i = .ok b' ∧ b'.size = b.size ∧
      ∀ j, b'.lookup j = if j = i then none else b.lookup j := by
  exact ⟨_, dif_pos (by rw [h]; rfl), List.length_set, join_set h _⟩

end Blocks

end HakunaMatata.Base
