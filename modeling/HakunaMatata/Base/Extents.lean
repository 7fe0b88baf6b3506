import Mathlib.Data.Finset.Card
import Mathlib.Order.Interval.Finset.Nat

/-!
# Ranges of bytes

An `Extent` is a range of addresses. Extents that are apart from each other and lie inside buffers
take no more bytes than the buffers have (`totalSize_le_of_inside`), however they are distributed
over the buffers. `tiles` are extents of one size that follow one another.
-/

namespace HakunaMatata.Base

/-- The bytes from an address on. -/
structure Extent where
  start : Nat
  size : Nat
  deriving DecidableEq, Repr

namespace Extent

/-- Every byte of the extent is one of the other. -/
def Inside (e f : Extent) : Prop :=
  f.start ≤ e.start ∧ e.start + e.size ≤ f.start + f.size

/-- One ends before the other starts. -/
def Apart (e f : Extent) : Prop :=
  e.start + e.size ≤ f.start ∨ f.start + f.size ≤ e.start

instance (e f : Extent) : Decidable (e.Inside f) :=
  inferInstanceAs (Decidable (_ ∧ _))

instance (e f : Extent) : Decidable (e.Apart f) :=
  inferInstanceAs (Decidable (_ ∨ _))

/-- The addresses of the bytes. -/
def bytes (e : Extent) : Finset Nat :=
  Finset.Ico e.start (e.start + e.size)

/-- The number of bytes of all extents. -/
def totalSize : List Extent → Nat
  | [] => 0
  | e :: extents => e.size + totalSize extents

/-- The addresses of the bytes of all extents. -/
def covered : List Extent → Finset Nat
  | [] => ∅
  | e :: extents => e.bytes ∪ covered extents

variable {e f : Extent} {extents buffers : List Extent}

theorem card_bytes (e : Extent) : e.bytes.card = e.size := by
  rw [bytes, Nat.card_Ico, Nat.add_sub_cancel_left]

theorem Apart.of_inside {f' : Extent} (h : f.Apart f') {e' : Extent} (he : e.Inside f)
    (he' : e'.Inside f') : e.Apart e' := by
  unfold Apart Inside at *
  omega

theorem Apart.disjoint (h : e.Apart f) : Disjoint e.bytes f.bytes := by
  rw [Finset.disjoint_left]
  intro address he hf
  rw [bytes, Finset.mem_Ico] at he hf
  unfold Apart at h
  omega

theorem Inside.bytes_subset (h : e.Inside f) : e.bytes ⊆ f.bytes :=
  Finset.Ico_subset_Ico h.1 h.2

theorem mem_covered {address : Nat} :
    address ∈ covered extents ↔ ∃ e ∈ extents, address ∈ e.bytes := by
  induction extents with
  | nil => simp [covered]
  | cons e extents ih => simp [covered, ih]

theorem card_covered_le (extents : List Extent) : (covered extents).card ≤ totalSize extents := by
  induction extents with
  | nil => exact Nat.le_refl 0
  | cons e extents ih =>
    calc (e.bytes ∪ covered extents).card
        ≤ e.bytes.card + (covered extents).card := Finset.card_union_le _ _
      _ ≤ e.size + totalSize extents := by
        rw [card_bytes]
        exact Nat.add_le_add_left ih e.size

theorem card_covered (h : extents.Pairwise Apart) :
    (covered extents).card = totalSize extents := by
  induction extents with
  | nil => rfl
  | cons e extents ih =>
    obtain ⟨hfirst, hrest⟩ := List.pairwise_cons.mp h
    have hdisjoint : Disjoint e.bytes (covered extents) := by
      rw [Finset.disjoint_left]
      intro address he hcovered
      obtain ⟨f, hf, hmem⟩ := mem_covered.mp hcovered
      exact Finset.disjoint_left.mp (hfirst f hf).disjoint he hmem
    rw [covered, Finset.card_union_of_disjoint hdisjoint, card_bytes, ih hrest]
    rfl

/-- Extents that are apart take no more bytes than the buffers in which they lie. -/
theorem totalSize_le_of_inside (h : extents.Pairwise Apart)
    (hinside : ∀ e ∈ extents, ∃ f ∈ buffers, e.Inside f) :
    totalSize extents ≤ totalSize buffers := by
  have hsubset : covered extents ⊆ covered buffers := by
    intro address haddress
    obtain ⟨e, he, hmem⟩ := mem_covered.mp haddress
    obtain ⟨f, hf, hef⟩ := hinside e he
    exact mem_covered.mpr ⟨f, hf, hef.bytes_subset hmem⟩
  calc totalSize extents = (covered extents).card := (card_covered h).symm
    _ ≤ (covered buffers).card := Finset.card_le_card hsubset
    _ ≤ totalSize buffers := card_covered_le buffers

theorem totalSize_append (extents extents' : List Extent) :
    totalSize (extents ++ extents') = totalSize extents + totalSize extents' := by
  induction extents with
  | nil => rw [List.nil_append, totalSize, Nat.zero_add]
  | cons e extents ih => rw [List.cons_append, totalSize, totalSize, ih, Nat.add_assoc]

/-! ## Extents of one size -/

/-- This many extents of one size, one behind the other. -/
def tiles (start size count : Nat) : List Extent :=
  (List.range count).map fun i => ⟨start + i * size, size⟩

theorem tiles_pairwise (start size count : Nat) : (tiles start size count).Pairwise Apart := by
  rw [tiles, List.pairwise_map]
  refine List.pairwise_lt_range.imp fun {i j} hlt => Or.inl ?_
  have hmul : (i + 1) * size ≤ j * size := Nat.mul_le_mul_right size hlt
  rw [Nat.succ_mul] at hmul
  show start + i * size + size ≤ start + j * size
  omega

theorem inside_of_mem_tiles {start size count : Nat} (h : e ∈ tiles start size count) :
    e.Inside ⟨start, size * count⟩ := by
  obtain ⟨i, hi, rfl⟩ := List.mem_map.mp h
  have hmul : (i + 1) * size ≤ count * size :=
    Nat.mul_le_mul_right size (List.mem_range.mp hi)
  rw [Nat.succ_mul, Nat.mul_comm count size] at hmul
  constructor
  · exact Nat.le_add_right start _
  · show start + i * size + size ≤ start + size * count
    omega

theorem totalSize_of_size {size : Nat} (h : ∀ e ∈ extents, e.size = size) :
    totalSize extents = extents.length * size := by
  induction extents with
  | nil => rw [totalSize, List.length_nil, Nat.zero_mul]
  | cons e extents ih =>
    rw [totalSize, h e List.mem_cons_self,
      ih fun f hf => h f (List.mem_cons_of_mem e hf), List.length_cons, Nat.succ_mul,
      Nat.add_comm]

end Extent

end HakunaMatata.Base
