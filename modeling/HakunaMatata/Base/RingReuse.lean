import HakunaMatata.Base.Ring
import Mathlib.Data.List.Perm.Subperm
import Mathlib.Logic.Relation

/-!
# Rings whose refill index is misplaced

A ring is well formed only when `freeIndex` stands right after the idle slots. When it
stands earlier, a taker that keeps taking one value and putting it back overwrites the
values in front of it, until every slot holds one of the few values that stood between the
two indices. Taking as many values as the ring still counts as idle then repeats one:
`misplaced_reuse`. A program over such a ring hands out a value that is already held.
-/

namespace HakunaMatata.Base.SlotRing

variable {α : Type*} [DecidableEq α]

/-- One use of a ring by a holder of values: take a value while the ring counts one as idle, or
put a held value back. -/
inductive Use : SlotRing α × List α → SlotRing α × List α → Prop where
  | alloc {r r' : SlotRing α} {held : List α} {x : α} :
      r.used < r.cells.length → r.alloc = some (x, r') → Use (r, held) (r', held ++ [x])
  | put {r : SlotRing α} {held : List α} {x : α} :
      x ∈ held → Use (r, held) (r.put x, held.erase x)

/-- A finite sequence of uses. -/
abbrev Uses : SlotRing α × List α → SlotRing α × List α → Prop := Relation.ReflTransGen Use

/-- No sequence of uses takes a value that is held. -/
def NeverReuses (start : SlotRing α × List α) : Prop :=
  ∀ r held x r', Uses start (r, held) → r.used < r.cells.length → r.alloc = some (x, r') →
    x ∉ held

/-- The property carries over to every later state. -/
theorem NeverReuses.uses {start later : SlotRing α × List α} (h : NeverReuses start)
    (huses : Uses start later) : NeverReuses later :=
  fun r held x r' hlater => h r held x r' (huses.trans hlater)

variable {r : SlotRing α} {held : List α}

/-- Taking the value under `allocIndex` and putting it back copies it to `freeIndex` and moves both
indices. -/
theorem NeverReuses.take_and_put (h : NeverReuses (r, held))
    (hlt : r.allocIndex < r.cells.length) (hused : r.used < r.cells.length) :
    Uses (r, held)
      (⟨r.cells.set r.freeIndex r.cells[r.allocIndex], advance r.allocIndex r.cells.length,
        advance r.freeIndex r.cells.length, r.used⟩, held) := by
  have halloc : r.alloc = some (r.cells[r.allocIndex],
      { r with allocIndex := advance r.allocIndex r.cells.length, used := r.used + 1 }) := by
    simp [SlotRing.alloc, List.getElem?_eq_getElem hlt]
  have hnew : r.cells[r.allocIndex] ∉ held := h _ _ _ _ .refl hused halloc
  have hput := Use.put (r := { r with
      allocIndex := advance r.allocIndex r.cells.length, used := r.used + 1 })
    (show r.cells[r.allocIndex] ∈ held ++ [r.cells[r.allocIndex]] by simp)
  rw [List.erase_append_right _ hnew, List.erase_cons_head, List.append_nil] at hput
  exact .tail (.single (.alloc hused halloc)) hput

/-- After `k` rounds of taking and putting back, the slots up to the refill index hold only values
that stood between the two indices at the start. -/
theorem NeverReuses.rounds (h : NeverReuses (r, held)) {gap : Nat} (hgap : 0 < gap)
    (hlt : r.allocIndex < r.cells.length) (hused : r.used < r.cells.length)
    (hfree : r.freeIndex = (r.allocIndex + gap) % r.cells.length)
    (k : Nat) (hk : gap + k ≤ r.cells.length) :
    ∃ r', Uses (r, held) (r', held) ∧ r'.used = r.used ∧ r'.cells.length = r.cells.length ∧
      r'.allocIndex = (r.allocIndex + k) % r.cells.length ∧
      r'.freeIndex = (r.allocIndex + (gap + k)) % r.cells.length ∧
      ∀ j < gap + k, ∃ v ∈ window r.cells r.allocIndex gap,
        r'.cells[(j + r.allocIndex) % r.cells.length]? = some v := by
  have hpos : 0 < r.cells.length := Nat.lt_of_le_of_lt (Nat.zero_le _) hlt
  induction k with
  | zero =>
    refine ⟨r, .refl, rfl, rfl, ?_, by simpa using hfree, ?_⟩
    · rw [Nat.add_zero, Nat.mod_eq_of_lt hlt]
    · intro j hj
      rw [Nat.add_zero] at hj
      have hslot : (window r.cells r.allocIndex gap)[j]? = _ := getElem?_window hj (by omega)
      have hwindow : (window r.cells r.allocIndex gap).length = gap := length_window (by omega)
      refine ⟨(window r.cells r.allocIndex gap)[j], List.getElem_mem _, ?_⟩
      rw [← hslot, List.getElem?_eq_getElem]
  | succ k ih =>
    obtain ⟨r', huses, hused', hlength, halloc, hfree', hslots⟩ := ih (by omega)
    have hlt' : r'.allocIndex < r'.cells.length := by
      rw [halloc, hlength]
      exact Nat.mod_lt _ hpos
    have hfreeLt : r'.freeIndex < r'.cells.length := by
      rw [hfree', hlength]
      exact Nat.mod_lt _ hpos
    obtain ⟨v, hv, hslot⟩ := hslots k (by omega)
    have hvalue : r'.cells[r'.allocIndex] = v := by
      have hat : r'.cells[r'.allocIndex]? = some v := by
        rw [halloc, Nat.add_comm r.allocIndex k]
        exact hslot
      exact (List.getElem?_eq_some_iff.mp hat).2
    have hround := (h.uses huses).take_and_put hlt' (by omega)
    refine ⟨_, huses.trans hround, hused', by simpa using hlength, ?_, ?_, ?_⟩
    · show advance r'.allocIndex r'.cells.length = _
      rw [advance_eq_mod hlt', halloc, hlength, Nat.mod_add_mod, Nat.add_assoc]
    · show advance r'.freeIndex r'.cells.length = _
      rw [advance_eq_mod hfreeLt, hfree', hlength, Nat.mod_add_mod, Nat.add_assoc,
        Nat.add_assoc]
    · intro j hj
      show ∃ v ∈ _, (r'.cells.set r'.freeIndex r'.cells[r'.allocIndex])[_]? = some v
      by_cases hlast : j = gap + k
      · refine ⟨v, hv, ?_⟩
        rw [hlast, hvalue, hfree', Nat.add_comm r.allocIndex, List.getElem?_set_self]
        rw [hlength]
        exact Nat.mod_lt _ hpos
      · obtain ⟨w, hw, hold⟩ := hslots j (by omega)
        refine ⟨w, hw, ?_⟩
        rw [hfree', Nat.add_comm r.allocIndex, List.getElem?_set_ne, hold]
        exact offset_ne (by omega) (by omega) (Ne.symm hlast)

/-- Taking `m` values in a row takes distinct ones. -/
theorem NeverReuses.drain (h : NeverReuses (r, held)) (hlt : r.allocIndex < r.cells.length)
    (m : Nat) (hm : r.used + m ≤ r.cells.length) :
    ∃ r' taken, Uses (r, held) (r', held ++ taken) ∧ r'.cells = r.cells ∧
      r'.used = r.used + m ∧ r'.allocIndex < r.cells.length ∧ taken.length = m ∧ taken.Nodup ∧
      taken ⊆ r.cells := by
  induction m with
  | zero => exact ⟨r, [], by simpa using .refl, rfl, rfl, hlt, rfl, List.nodup_nil, by simp⟩
  | succ m ih =>
    obtain ⟨r', taken, huses, hcells, hused, hlt', hlength, hnodup, hsub⟩ := ih (by omega)
    have hlt'' : r'.allocIndex < r'.cells.length := hcells ▸ hlt'
    have hroom : r'.used < r'.cells.length := by
      rw [hused, hcells]
      omega
    have halloc : r'.alloc = some (r'.cells[r'.allocIndex],
        { r' with
          allocIndex := advance r'.allocIndex r'.cells.length, used := r'.used + 1 }) := by
      simp [SlotRing.alloc, List.getElem?_eq_getElem hlt'']
    have hnew := h _ _ _ _ huses hroom halloc
    refine ⟨{ r' with
      allocIndex := advance r'.allocIndex r'.cells.length, used := r'.used + 1 },
      taken ++ [r'.cells[r'.allocIndex]], ?_, hcells, ?_, ?_, ?_, ?_, ?_⟩
    · rw [← List.append_assoc]
      exact .tail huses (.alloc hroom halloc)
    · show r'.used + 1 = _
      omega
    · exact hcells ▸ advance_lt hlt''
    · simp [hlength]
    · refine List.nodup_append.mpr ⟨hnodup, by simp, ?_⟩
      rintro a ha b hb rfl
      rw [List.mem_singleton.mp hb] at ha
      exact hnew (List.mem_append_right _ ha)
    · intro x hx
      rcases List.mem_append.mp hx with hx | hx
      · exact hsub hx
      · rw [List.mem_singleton.mp hx, ← hcells]
        exact List.getElem_mem hlt''

/-- A ring whose refill index stands before the end of the idle slots reuses a held value. -/
theorem misplaced_reuse {gap : Nat} (hgap : 0 < gap) (hlt : r.allocIndex < r.cells.length)
    (hfree : r.freeIndex = (r.allocIndex + gap) % r.cells.length)
    (hroom : gap + r.used < r.cells.length) : ¬ NeverReuses (r, held) := by
  intro h
  have hpos : 0 < r.cells.length := Nat.lt_of_le_of_lt (Nat.zero_le _) hlt
  obtain ⟨r', huses, hused, hlength, halloc, -, hslots⟩ :=
    h.rounds hgap hlt (by omega) hfree (r.cells.length - gap) (by omega)
  have hcells : r'.cells ⊆ window r.cells r.allocIndex gap := by
    intro x hx
    obtain ⟨i, hi, rfl⟩ := List.getElem_of_mem hx
    rw [hlength] at hi
    obtain ⟨v, hv, hslot⟩ := hslots ((i + (r.cells.length - r.allocIndex)) % r.cells.length)
      (by have hmod := Nat.mod_lt (i + (r.cells.length - r.allocIndex)) hpos; omega)
    rw [Nat.mod_add_mod, show i + (r.cells.length - r.allocIndex) + r.allocIndex =
      i + r.cells.length by omega, Nat.add_mod_right, Nat.mod_eq_of_lt hi] at hslot
    rw [(List.getElem?_eq_some_iff.mp hslot).2]
    exact hv
  obtain ⟨_, taken, -, -, -, -, hcount, hnodup, hsub⟩ :=
    (h.uses huses).drain (by rw [halloc, hlength]; exact Nat.mod_lt _ hpos) (gap + 1) (by omega)
  have hle := (List.subperm_of_subset hnodup (List.Subset.trans hsub hcells)).length_le
  rw [hcount, length_window (by omega)] at hle
  omega

end HakunaMatata.Base.SlotRing
