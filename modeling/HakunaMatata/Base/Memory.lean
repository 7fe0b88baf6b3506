import Mathlib.Algebra.Group.Int.Defs
import Mathlib.Algebra.Group.Nat.Defs
import Mathlib.Data.List.Basic
import Mathlib.Logic.Function.Basic

/-!
# Checked arrays, field maps and 32-bit words

Array reads, writes and copies that fail with a `Fault` when they leave the array, and the
reduction of unsigned and signed arithmetic to 32 bits. Fresh memory has arbitrary contents
(`uninit`), so a proof about a program that fills it cannot rely on an initial value. A memory
of records is one map per field, and a loop over the records writes the map at one address
after the other (`writeEach`).
-/

namespace HakunaMatata.Base

/-- What stops a run: a failed assertion, an access outside an object, or a loop that does not
end. -/
inductive Fault where
  | assertion
  | outOfBounds
  | diverged
  deriving DecidableEq, Repr

theorem ok_bind.{u, v} {ε : Type u} {α β : Type v} (a : α) (f : α → Except ε β) :
    ((.ok a : Except ε α) >>= f) = f a := rfl

theorem bind_eq_ok.{u, v} {ε : Type u} {α β : Type v} {x : Except ε α} {f : α → Except ε β}
    {b : β} : (x >>= f) = .ok b ↔ ∃ a, x = .ok a ∧ f a = .ok b := by
  cases x with
  | error e => simp [bind, Except.bind]
  | ok a => simp [bind, Except.bind]

/-- A property of the value of a result, if there is one. -/
instance decidableOfOk {ε α : Type*} (result : Except ε α) (P : α → Prop) [DecidablePred P] :
    Decidable (∀ value, result = .ok value → P value) :=
  match result with
  | .ok value => decidable_of_iff (P value) (by simp)
  | .error _ => .isTrue (by simp)

theorem mapM_eq_ok.{u, v, w} {ε : Type u} {α : Type w} {β : Type v} {f : α → Except ε β} {g : α → β}
    {items : List α} (h : ∀ a ∈ items, f a = .ok (g a)) : items.mapM f = .ok (items.map g) := by
  induction items with
  | nil => rfl
  | cons a items ih =>
    rw [List.mapM_cons, h a List.mem_cons_self, ok_bind,
      ih fun b hb => h b (List.mem_cons_of_mem a hb), ok_bind]
    rfl

/-- The value of an unsigned 32-bit result. -/
def u32 (n : Nat) : Nat := n % 2 ^ 32

theorem u32_of_lt {n : Nat} (h : n < 2 ^ 32) : u32 n = n := Nat.mod_eq_of_lt h

theorem u32_pred {n : Nat} (hpos : 0 < n) (h : n < 2 ^ 32) : u32 (n + (2 ^ 32 - 1)) = n - 1 := by
  unfold u32
  omega

/-- The value of a signed 32-bit result. -/
@[irreducible] def i32 (n : Int) : Int := (2 ^ 31 + n) % 2 ^ 32 - 2 ^ 31

theorem i32_of_lt {n : Int} (hlow : -2 ^ 31 ≤ n) (hhigh : n < 2 ^ 31) : i32 n = n := by
  unfold i32
  omega

theorem i32_bounds (n : Int) : -2 ^ 31 ≤ i32 n ∧ i32 n < 2 ^ 31 := by
  unfold i32
  omega

/-- The signed 64-bit result of an operation, with wraparound. -/
@[irreducible] def i64 (n : Int) : Int := (2 ^ 63 + n) % 2 ^ 64 - 2 ^ 63

theorem i32_of_ge {n : Int} (hlow : 2 ^ 31 ≤ n) (hhigh : n < 2 ^ 31 + 2 ^ 32) :
    i32 n = n - 2 ^ 32 := by
  unfold i32
  omega

theorem i32_of_lt_neg {n : Int} (hlow : -2 ^ 31 - 2 ^ 32 ≤ n) (hhigh : n < -2 ^ 31) :
    i32 n = n + 2 ^ 32 := by
  unfold i32
  omega

variable {α : Type*}

/-- Contents of freshly allocated memory for `n` entries. -/
def uninit (junk : Nat → α) (n : Nat) : List α :=
  (List.range n).map junk

@[simp] theorem length_uninit (junk : Nat → α) (n : Nat) : (uninit junk n).length = n := by
  simp [uninit]

/-- Read one entry. -/
def load (array : List α) (index : Nat) : Except Fault α :=
  match array[index]? with
  | some x => .ok x
  | none => .error .outOfBounds

/-- Write one entry. -/
def store (array : List α) (index : Nat) (x : α) : Except Fault (List α) :=
  if index < array.length then .ok (array.set index x) else .error .outOfBounds

/-- Copy `count` entries of `source`, from `start` on, over `target` at `offset`. -/
def memcpy (target : List α) (offset : Nat) (source : List α) (start count : Nat) :
    Except Fault (List α) :=
  if start + count ≤ source.length ∧ offset + count ≤ target.length then
    .ok (target.take offset ++ (source.drop start).take count ++ target.drop (offset + count))
  else .error .outOfBounds

theorem load_of_lt {array : List α} {index : Nat} (h : index < array.length) :
    load array index = .ok array[index] := by
  simp [load, List.getElem?_eq_getElem h]

theorem store_of_lt {array : List α} {index : Nat} (h : index < array.length) (x : α) :
    store array index x = .ok (array.set index x) := by
  simp [store, h]

/-- Copying right after a filled prefix extends the prefix. -/
theorem memcpy_append (filled : List α) {rest source : List α} {start count : Nat}
    (hsource : start + count ≤ source.length) (htarget : count ≤ rest.length) :
    memcpy (filled ++ rest) filled.length source start count =
      .ok ((filled ++ (source.drop start).take count) ++ rest.drop count) := by
  have hbound : filled.length + count ≤ (filled ++ rest).length := by
    simpa using htarget
  rw [memcpy, if_pos ⟨hsource, hbound⟩, List.take_left, List.drop_length_add_append]

theorem memcpy_start {target source : List α} {count : Nat} (hsource : source.length = count)
    (htarget : count ≤ target.length) :
    memcpy target 0 source 0 count = .ok (source ++ target.drop count) := by
  have hbounds : 0 + count ≤ source.length ∧ 0 + count ≤ target.length := by omega
  rw [memcpy, if_pos hbounds, List.take_zero, List.nil_append, List.drop_zero,
    List.take_of_length_le (Nat.le_of_eq hsource), Nat.zero_add]

/-! ## Field maps -/

section FieldMap

variable {ι ν γ : Type*} [DecidableEq ν]

/-- Write `value i` at `addr i` for each item, in order. -/
def writeEach (addr : ι → ν) (value : ι → γ) (items : List ι) (field : ν → γ) : ν → γ :=
  items.foldl (fun field i => Function.update field (addr i) (value i)) field

/-- An address that no item has is not written. -/
theorem writeEach_of_ne {addr : ι → ν} {value : ι → γ} {items : List ι} {field : ν → γ} {a : ν}
    (h : ∀ i ∈ items, addr i ≠ a) : writeEach addr value items field a = field a := by
  induction items generalizing field with
  | nil => rfl
  | cons i items ih =>
    show writeEach addr value items (Function.update field (addr i) (value i)) a = field a
    rw [ih fun j hj => h j (by simp [hj]), Function.update_of_ne (h i (by simp)).symm]

theorem writeEach_of_mem {addr : ι → ν} {value : ι → γ} {items : List ι} {field : ν → γ} {i : ι}
    (hi : i ∈ items) (h : ∀ j ∈ items, addr j = addr i → j = i) :
    writeEach addr value items field (addr i) = value i := by
  induction items generalizing field with
  | nil => simp at hi
  | cons j items ih =>
    show writeEach addr value items (Function.update field (addr j) (value j)) (addr i) = value i
    by_cases hmem : i ∈ items
    · exact ih hmem fun k hk => h k (by simp [hk])
    · obtain rfl : i = j := by simpa [hmem] using hi
      rw [writeEach_of_ne, Function.update_self]
      intro k hk heq
      exact hmem (h k (by simp [hk]) heq ▸ hk)

end FieldMap

end HakunaMatata.Base
