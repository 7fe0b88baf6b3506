import Mathlib.Data.List.Basic

/-!
# A list cut into batches

`Batches n rows batches` says that the batches are the rows in order, that none is empty or longer
than `n`, and that all but the last one are full. The number of batches follows
(`Batches.length_eq`).
-/

namespace HakunaMatata.Base

variable {α : Type} {n : Nat} {rows batch : List α} {batches : List (List α)}

/-- The rows are cut into batches of `n`. -/
structure Batches (n : Nat) (rows : List α) (batches : List (List α)) : Prop where
  flatten : batches.flatten = rows
  nonempty : ∀ batch ∈ batches, 1 ≤ batch.length
  bounded : ∀ batch ∈ batches, batch.length ≤ n
  full : ∀ batch ∈ batches.dropLast, batch.length = n

theorem Batches.nil : Batches n ([] : List α) [] :=
  ⟨rfl, nofun, nofun, nofun⟩

theorem Batches.singleton (hne : 1 ≤ batch.length) (hle : batch.length ≤ n) :
    Batches n batch [batch] := by
  refine ⟨List.append_nil batch, ?_, ?_, nofun⟩
  · rintro _ (_ | ⟨_, ⟨⟩⟩)
    exact hne
  · rintro _ (_ | ⟨_, ⟨⟩⟩)
    exact hle

theorem Batches.cons (h : Batches n rows batches) (hn : 1 ≤ n) (hfull : batch.length = n) :
    Batches n (batch ++ rows) (batch :: batches) := by
  refine ⟨congrArg (batch ++ ·) h.flatten, ?_, ?_, ?_⟩
  · rintro _ (_ | ⟨_, hmem⟩)
    · exact hfull ▸ hn
    · exact h.nonempty _ hmem
  · rintro _ (_ | ⟨_, hmem⟩)
    · exact Nat.le_of_eq hfull
    · exact h.bounded _ hmem
  · cases batches with
    | nil => exact nofun
    | cons next rest =>
      rw [List.dropLast_cons_cons]
      rintro _ (_ | ⟨_, hmem⟩)
      · exact hfull
      · exact h.full _ hmem

/-- There are as many batches as the number of rows divided by `n`, rounded up. -/
theorem Batches.length_eq (h : Batches n rows batches) (hn : 1 ≤ n) :
    batches.length = (rows.length + n - 1) / n := by
  induction batches generalizing rows with
  | nil =>
    obtain rfl := h.flatten
    exact (Nat.div_eq_of_lt (by simp only [List.flatten_nil, List.length_nil]; omega)).symm
  | cons batch rest ih =>
    obtain rfl := h.flatten
    cases rest with
    | nil =>
      have hne := h.nonempty batch (.head _)
      have hle := h.bounded batch (.head _)
      simp only [List.flatten_cons, List.flatten_nil, List.append_nil, List.length_cons,
        List.length_nil]
      exact (Nat.div_eq_of_lt_le (by omega) (by omega)).symm
    | cons next rest =>
      have hfull : batch.length = n := h.full batch (.head _)
      have hrest : Batches n (next :: rest).flatten (next :: rest) :=
        ⟨rfl, fun b hb => h.nonempty b (.tail _ hb), fun b hb => h.bounded b (.tail _ hb),
          fun b hb => h.full b (.tail _ hb)⟩
      have hrows : (batch :: next :: rest).flatten.length =
          n + (next :: rest).flatten.length := by
        rw [List.flatten_cons, List.length_append, hfull]
      have hsum : (batch :: next :: rest).flatten.length + n - 1 =
          n + ((next :: rest).flatten.length + n - 1) := by
        omega
      rw [List.length_cons, ih hrest, hsum, Nat.add_div_left _ hn]

end HakunaMatata.Base
