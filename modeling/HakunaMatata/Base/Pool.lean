import Mathlib.Data.List.Nodup
import Mathlib.Data.List.Perm.Basic

/-!
# Pools of reusable blocks

What a block pool is for, without a representation: `idle` is the queue of blocks that may
be handed out and `busy` the blocks handed out, in the order of their allocation. A pool is
`Sound` for a list of created blocks when every created block is in exactly one of the two.
The three operations keep that, so `alloc` never hands out a busy block.
-/

namespace HakunaMatata.Base

/-- The idle blocks in the order they will be handed out, and the busy blocks in the order they
were. -/
structure Pool (α : Type*) where
  idle : List α
  busy : List α

namespace Pool

variable {α : Type*}

/-- Hand out the first idle block. -/
def alloc (p : Pool α) : Option (α × Pool α) :=
  match p.idle with
  | [] => none
  | x :: idle => some (x, ⟨idle, p.busy ++ [x]⟩)

/-- Take a busy block back. -/
def free [DecidableEq α] (p : Pool α) (x : α) : Pool α :=
  ⟨p.idle ++ [x], p.busy.erase x⟩

/-- Add new idle blocks. -/
def grow (p : Pool α) (fresh : List α) : Pool α :=
  ⟨p.idle ++ fresh, p.busy⟩

/-- Every created block is idle or busy, once. -/
structure Sound (p : Pool α) (created : List α) : Prop where
  perm : (p.idle ++ p.busy).Perm created
  nodup : created.Nodup

variable {p : Pool α} {created : List α}

theorem Sound.nodup_blocks (h : p.Sound created) : (p.idle ++ p.busy).Nodup :=
  h.perm.nodup_iff.mpr h.nodup

theorem Sound.nodup_idle (h : p.Sound created) : p.idle.Nodup :=
  (List.nodup_append.mp h.nodup_blocks).1

theorem Sound.nodup_busy (h : p.Sound created) : p.busy.Nodup :=
  (List.nodup_append.mp h.nodup_blocks).2.1

theorem Sound.idle_not_busy (h : p.Sound created) {x : α} (hx : x ∈ p.idle) : x ∉ p.busy :=
  fun hbusy => (List.nodup_append.mp h.nodup_blocks).2.2 x hx x hbusy rfl

/-- Handing out a block keeps the pool sound, and the block was not busy. -/
theorem Sound.alloc {x : α} {p' : Pool α} (h : p.Sound created) (halloc : p.alloc = some (x, p')) :
    p'.Sound created ∧ x ∉ p.busy := by
  cases hidle : p.idle with
  | nil => simp [Pool.alloc, hidle] at halloc
  | cons y idle =>
    simp only [Pool.alloc, hidle, Option.some.injEq, Prod.mk.injEq] at halloc
    obtain ⟨rfl, rfl⟩ := halloc
    have hperm : (idle ++ (p.busy ++ [y])).Perm (p.idle ++ p.busy) := by
      rw [hidle, ← List.append_assoc]
      exact List.perm_append_singleton y (idle ++ p.busy)
    exact ⟨⟨hperm.trans h.perm, h.nodup⟩, h.idle_not_busy (by simp [hidle])⟩

theorem Sound.free [DecidableEq α] {x : α} (h : p.Sound created) (hx : x ∈ p.busy) :
    (p.free x).Sound created := by
  refine ⟨List.Perm.trans ?_ h.perm, h.nodup⟩
  have hbusy : ([x] ++ p.busy.erase x).Perm p.busy := (List.perm_cons_erase hx).symm
  show (p.idle ++ [x] ++ p.busy.erase x).Perm (p.idle ++ p.busy)
  rw [List.append_assoc]
  exact hbusy.append_left p.idle

theorem Sound.grow {fresh : List α} (h : p.Sound created) (hfresh : (created ++ fresh).Nodup) :
    (p.grow fresh).Sound (created ++ fresh) := by
  refine ⟨List.Perm.trans ?_ (h.perm.append_right fresh), hfresh⟩
  show (p.idle ++ fresh ++ p.busy).Perm (p.idle ++ p.busy ++ fresh)
  rw [List.append_assoc, List.append_assoc]
  exact List.perm_append_comm.append_left p.idle

theorem Sound.grow_range {p : Pool Nat} {n m : Nat} (h : p.Sound (List.range n)) (hle : n ≤ m) :
    (p.grow (List.range' n (m - n))).Sound (List.range m) := by
  have hrange : List.range n ++ List.range' n (m - n) = List.range m := by
    have hsplit := @List.range'_append_1 0 n (m - n)
    rw [Nat.zero_add, Nat.add_sub_cancel' hle] at hsplit
    rw [List.range_eq_range', List.range_eq_range', hsplit]
  rw [← hrange]
  refine h.grow ?_
  rw [hrange]
  exact List.nodup_range

end Pool

end HakunaMatata.Base
