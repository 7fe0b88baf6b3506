import Mathlib.Data.List.Rotate
import Mathlib.Data.Nat.ModEq

/-!
# Rings of reusable slots

A `SlotRing` is a fixed array of slots with two wrapping indices. `alloc` takes the value under
`allocIndex`, `put` writes a value back under `freeIndex`, and `used` counts the values
taken and not yet put back. A taken slot keeps a stale copy of its value until it is
refilled. `idle` reads the values that may still be taken, in the order in which they will
be. Read `SlotRing.idle_alloc` and `SlotRing.idle_put` first: on a well-formed ring `idle` is a
first-in first-out queue. `SlotRing.idle_relayout` moves the ring to a larger array.
-/

namespace HakunaMatata.Base

/-- The slot after `index` in an array of `length` slots, written as an increment with a test. -/
def advance (index length : Nat) : Nat :=
  if index + 1 = length then 0 else index + 1

theorem advance_lt {index length : Nat} (h : index < length) : advance index length < length := by
  unfold advance
  split <;> omega

theorem advance_eq_mod {index length : Nat} (h : index < length) :
    advance index length = (index + 1) % length := by
  unfold advance
  split
  · rename_i heq
    rw [heq, Nat.mod_self]
  · rw [Nat.mod_eq_of_lt (by omega)]

/-- Slots of an array with the index of the next value to take, the index of the next slot to
refill, and the number of values currently taken. -/
structure SlotRing (α : Type*) where
  cells : List α
  allocIndex : Nat
  freeIndex : Nat
  used : Nat

namespace SlotRing

variable {α : Type*}

/-- Take the value under `allocIndex`; `none` when that index is outside the array. -/
def alloc (r : SlotRing α) : Option (α × SlotRing α) :=
  r.cells[r.allocIndex]?.map fun x =>
    (x, { r with allocIndex := advance r.allocIndex r.cells.length, used := r.used + 1 })

/-- Write a value back under `freeIndex`. -/
def put (r : SlotRing α) (x : α) : SlotRing α :=
  { r with
    cells := r.cells.set r.freeIndex x
    freeIndex := advance r.freeIndex r.cells.length
    used := r.used - 1 }

/-- The `count` slots read cyclically from `start`. -/
def window (cells : List α) (start count : Nat) : List α :=
  (cells.rotate start).take count

/-- The values that may still be taken, read cyclically from `allocIndex`. -/
def idle (r : SlotRing α) : List α :=
  window r.cells r.allocIndex (r.cells.length - r.used)

/-- The slots of taken values, read cyclically from `freeIndex`. -/
def stale (r : SlotRing α) : List α :=
  window r.cells r.freeIndex r.used

/-- Both indices are inside the array, and the refill index stands right after the idle slots. -/
structure WF (r : SlotRing α) : Prop where
  alloc_lt : r.allocIndex < r.cells.length
  free_lt : r.freeIndex < r.cells.length
  used_le : r.used ≤ r.cells.length
  aligned : r.freeIndex = (r.allocIndex + (r.cells.length - r.used)) % r.cells.length

/-! ## Windows -/

theorem length_window {cells : List α} {start count : Nat} (h : count ≤ cells.length) :
    (window cells start count).length = count := by
  simp [window, h]

theorem getElem?_window {cells : List α} {start count k : Nat} (hk : k < count)
    (hcount : count ≤ cells.length) :
    (window cells start count)[k]? = cells[(k + start) % cells.length]? := by
  rw [window, List.getElem?_take_of_lt hk, List.getElem?_rotate (by omega)]

/-- A window starts with the slot under `start` and continues from the next slot. -/
theorem window_succ {cells : List α} {start count : Nat} (hstart : start < cells.length)
    (hcount : count + 1 ≤ cells.length) :
    window cells start (count + 1) =
      cells[start] :: window cells (advance start cells.length) count := by
  have hrotate : cells.rotate start = cells[start] :: (cells.rotate start).tail := by
    have hhead := List.head?_rotate hstart
    rw [List.getElem?_eq_getElem hstart] at hhead
    exact List.eq_cons_of_mem_head? hhead
  have hnext : cells.rotate (advance start cells.length) =
      (cells.rotate start).tail ++ [cells[start]] := by
    rw [advance_eq_mod hstart, List.rotate_mod, ← List.rotate_rotate, hrotate]
    simp
  have hlength : (cells.rotate start).tail.length = cells.length - 1 := by simp
  rw [window, window, hnext, List.take_append_of_le_length (by omega)]
  nth_rewrite 1 [hrotate]
  simp

theorem window_length {cells : List α} {start : Nat} (hstart : start ≤ cells.length) :
    window cells start cells.length = cells.drop start ++ cells.take start := by
  rw [window, List.rotate_eq_drop_append_take hstart, List.take_of_length_le]
  simp
  omega

theorem window_eq_slice {cells : List α} {start count : Nat}
    (h : start + count ≤ cells.length) :
    window cells start count = (cells.drop start).take count := by
  rw [window, List.rotate_eq_drop_append_take (by omega), List.take_append_of_le_length]
  simp
  omega

/-- A window that passes the end of the array is the end of the array followed by its start. -/
theorem window_eq_wrap {cells : List α} {start count : Nat} (hstart : start ≤ cells.length)
    (hwrap : cells.length ≤ start + count) (hcount : count ≤ cells.length) :
    window cells start count =
      cells.drop start ++ cells.take (start + count - cells.length) := by
  rw [window, List.rotate_eq_drop_append_take hstart, List.take_append, List.take_take,
    List.take_of_length_le (by simp; omega), List.length_drop]
  congr 2
  omega

theorem offset_ne {length start j k : Nat} (hj : j < length) (hk : k < length) (hne : j ≠ k) :
    (j + start) % length ≠ (k + start) % length := by
  intro heq
  have hmod : j % length = k % length := Nat.ModEq.add_right_cancel' start heq
  rw [Nat.mod_eq_of_lt hj, Nat.mod_eq_of_lt hk] at hmod
  exact hne hmod

/-- Writing right after a window appends the written value to it. -/
theorem window_set_next {cells : List α} {start count : Nat} {x : α}
    (hcount : count < cells.length) :
    window (cells.set ((start + count) % cells.length) x) start (count + 1) =
      window cells start count ++ [x] := by
  have hslot : (start + count) % cells.length < cells.length := Nat.mod_lt _ (by omega)
  apply List.ext_getElem?
  intro k
  have hlength : (window cells start count).length = count := length_window hcount.le
  rcases Nat.lt_trichotomy k count with hk | rfl | hk
  · rw [getElem?_window (by omega) (by rw [List.length_set]; omega), List.length_set,
      List.getElem?_append_left (by omega), getElem?_window hk hcount.le,
      List.getElem?_set_ne]
    rw [Nat.add_comm start count]
    exact (offset_ne (by omega) hcount (by omega)).symm
  · rw [getElem?_window (by omega) (by rw [List.length_set]; omega), List.length_set,
      List.getElem?_append_right (by omega), hlength, Nat.add_comm k start,
      List.getElem?_set_self hslot]
    simp
  · rw [List.getElem?_eq_none, List.getElem?_eq_none]
    · simp only [List.length_append, hlength, List.length_singleton]
      omega
    · rw [length_window (by rw [List.length_set]; omega)]
      omega

/-! ## The queue of idle values -/

/-- The indices of a well-formed ring determine which branch an index comparison takes. -/
theorem WF.aligned_cases {r : SlotRing α} (h : r.WF) :
    r.allocIndex + (r.cells.length - r.used) < r.cells.length ∧
        r.freeIndex = r.allocIndex + (r.cells.length - r.used) ∨
      r.cells.length ≤ r.allocIndex + (r.cells.length - r.used) ∧
        r.freeIndex + r.used = r.allocIndex := by
  have halloc := h.alloc_lt
  have hused := h.used_le
  have haligned := h.aligned
  by_cases hlt : r.allocIndex + (r.cells.length - r.used) < r.cells.length
  · rw [Nat.mod_eq_of_lt hlt] at haligned
    exact Or.inl ⟨hlt, haligned⟩
  · rw [Nat.mod_eq_sub_mod (by omega), Nat.mod_eq_of_lt (by omega)] at haligned
    exact Or.inr ⟨by omega, by omega⟩

theorem length_idle (r : SlotRing α) : r.idle.length = r.cells.length - r.used :=
  length_window (Nat.sub_le _ _)

/-- Taking a value removes the front of the idle queue and keeps the ring well formed. -/
theorem WF.alloc {r : SlotRing α} (h : r.WF) (hused : r.used < r.cells.length) :
    ∃ x r', r.alloc = some (x, r') ∧ r'.WF ∧ r.idle = x :: r'.idle ∧
      r'.cells = r.cells ∧ r'.used = r.used + 1 := by
  have halloc := h.alloc_lt
  refine ⟨r.cells[r.allocIndex],
    { r with allocIndex := advance r.allocIndex r.cells.length, used := r.used + 1 },
    ?_, ?_, ?_, rfl, rfl⟩
  · simp [SlotRing.alloc, List.getElem?_eq_getElem halloc]
  · refine ⟨advance_lt halloc, h.free_lt, hused, ?_⟩
    show r.freeIndex = (advance r.allocIndex r.cells.length +
      (r.cells.length - (r.used + 1))) % r.cells.length
    rw [h.aligned, advance_eq_mod halloc, Nat.mod_add_mod]
    congr 1
    omega
  · have hcount : r.cells.length - r.used = (r.cells.length - (r.used + 1)) + 1 := by omega
    rw [idle, hcount, window_succ halloc (by omega)]
    rfl

/-- Putting a value back appends it to the idle queue and keeps the ring well formed. -/
theorem WF.put {r : SlotRing α} (h : r.WF) (hused : 0 < r.used) (x : α) :
    (r.put x).WF ∧ (r.put x).idle = r.idle ++ [x] := by
  have hle := h.used_le
  have hcount : r.cells.length - (r.used - 1) = (r.cells.length - r.used) + 1 := by omega
  refine ⟨⟨?_, ?_, ?_, ?_⟩, ?_⟩
  · simpa [SlotRing.put] using h.alloc_lt
  · simpa [SlotRing.put] using advance_lt h.free_lt
  · simp [SlotRing.put]
    omega
  · simp only [SlotRing.put, List.length_set]
    rw [advance_eq_mod h.free_lt, h.aligned, Nat.mod_add_mod, hcount, Nat.add_assoc]
  · simp only [idle, SlotRing.put, List.length_set]
    rw [h.aligned, hcount, window_set_next (by omega)]

/-! ## Moving to a larger array -/

/-- The ring laid out again from slot zero: first the slots of taken values, then the idle
values, then fresh ones. -/
def relayout (r : SlotRing α) (fresh : List α) : SlotRing α where
  cells := r.stale ++ r.idle ++ fresh
  allocIndex := r.used
  freeIndex := 0
  used := r.used

/-- A new layout has room for every old slot and every fresh value. -/
theorem WF.length_relayout {r : SlotRing α} (h : r.WF) (fresh : List α) :
    (r.relayout fresh).cells.length = r.cells.length + fresh.length := by
  have hused := h.used_le
  have hstale : r.stale.length = r.used := length_window hused
  simp only [relayout, List.length_append, hstale, length_idle]
  omega

/-- A new layout that is not full is well formed, and its idle queue is the old one followed by
the fresh values. -/
theorem WF.relayout {r : SlotRing α} (h : r.WF) {fresh : List α}
    (hroom : r.used < r.cells.length + fresh.length) :
    (r.relayout fresh).WF ∧ (r.relayout fresh).idle = r.idle ++ fresh := by
  have hlength := h.length_relayout fresh
  have hstale : r.stale.length = r.used := length_window h.used_le
  refine ⟨⟨?_, ?_, ?_, ?_⟩, ?_⟩
  · rw [hlength]
    exact hroom
  · rw [hlength]
    exact Nat.lt_of_le_of_lt (Nat.zero_le _) hroom
  · rw [hlength]
    exact hroom.le
  · show 0 = (r.used + _) % _
    rw [hlength, show r.used + (r.cells.length + fresh.length - (r.relayout fresh).used) =
      r.cells.length + fresh.length by simp only [SlotRing.relayout]; omega, Nat.mod_self]
  · have hcells : (r.relayout fresh).cells = r.stale ++ (r.idle ++ fresh) :=
      List.append_assoc _ _ _
    rw [idle, hlength, hcells]
    show window _ r.used (_ - r.used) = _
    rw [window_eq_slice (by rw [← hcells, hlength]; omega), ← hstale, List.drop_left,
      List.take_of_length_le]
    have hle := h.used_le
    rw [List.length_append, length_idle]
    omega

end SlotRing

end HakunaMatata.Base
