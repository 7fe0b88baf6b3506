import HakunaMatata.Base.Memory
import Mathlib.Logic.Relation

/-!
# Machines of guarded operations

A `Machine` runs operations on a state. `exec` is what the program does and may fault, and
`Allowed` is what the caller has to keep before an operation. `Machine.Steps` are the runs of
allowed operations. `Machine.invariant` is the rule for properties of every reachable state,
and `Machine.run` evaluates a given run, so that a concrete state can be shown reachable.

For a step function without a precondition, `Throughout` says that a property holds in every
state of a run and `Along` that every step of it meets a condition. A run ends at a fault.
`Throughout.along_congr` turns an equivalence of two conditions on one step, in the states that a
run reaches, into their equivalence on the run, and `throughout_iff_along_of_inv` turns the exact
condition under which a step keeps an invariant into the exact condition on runs.
-/

namespace HakunaMatata.Base

/-- Operations `ο` on states `σ` with results `ρ`. -/
structure Machine (σ ο ρ : Type*) where
  Allowed : σ → ο → Prop
  exec : σ → ο → Except Fault (ρ × σ)

namespace Machine

variable {σ ο ρ : Type*} {m : Machine σ ο ρ} {s s' : σ}

/-- One allowed operation. -/
def Step (m : Machine σ ο ρ) (s s' : σ) : Prop :=
  ∃ op result, m.Allowed s op ∧ m.exec s op = .ok (result, s')

/-- A finite run of allowed operations. -/
abbrev Steps (m : Machine σ ο ρ) : σ → σ → Prop := Relation.ReflTransGen m.Step

theorem invariant (Inv : σ → Prop)
    (hstep : ∀ s op, Inv s → m.Allowed s op → ∃ result s', m.exec s op = .ok (result, s') ∧ Inv s')
    (h : Inv s) (hsteps : m.Steps s s') : Inv s' := by
  induction hsteps with
  | refl => exact h
  | tail _ hlast ih =>
    obtain ⟨op, result, hallowed, hexec⟩ := hlast
    obtain ⟨_, _, hexec', hinv⟩ := hstep _ op ih hallowed
    rw [hexec] at hexec'
    cases hexec'
    exact hinv

/-- Run a list of operations, checking that each one is allowed. -/
def run (m : Machine σ ο ρ) [∀ s op, Decidable (m.Allowed s op)] : σ → List ο → Option σ
  | s, [] => some s
  | s, op :: ops =>
    if m.Allowed s op then
      match m.exec s op with
      | .ok (_, s') => m.run s' ops
      | .error _ => none
    else none

theorem steps_of_run [∀ s op, Decidable (m.Allowed s op)] {ops : List ο}
    (h : m.run s ops = some s') : m.Steps s s' := by
  induction ops generalizing s with
  | nil =>
    cases h
    exact .refl
  | cons op ops ih =>
    unfold run at h
    split at h
    · rename_i hallowed
      split at h
      · rename_i result next hexec
        exact .head ⟨op, result, hallowed, hexec⟩ (ih h)
      · cases h
    · cases h

end Machine

section Runs

variable {σ ο : Type*} {step : σ → ο → Except Fault σ} {Inv Q : σ → Prop} {P P' : σ → ο → Prop}
  {s : σ}

/-- The property holds in every state of the run, the first and the last included. -/
def Throughout (step : σ → ο → Except Fault σ) (Q : σ → Prop) : σ → List ο → Prop
  | s, [] => Q s
  | s, op :: ops => Q s ∧ ∀ s', step s op = .ok s' → Throughout step Q s' ops

/-- Every step of the run meets the condition. -/
def Along (step : σ → ο → Except Fault σ) (P : σ → ο → Prop) : σ → List ο → Prop
  | _, [] => True
  | s, op :: ops => P s op ∧ ∀ s', step s op = .ok s' → Along step P s' ops

instance decidableAlong [∀ s op, Decidable (P s op)] : ∀ s ops, Decidable (Along step P s ops)
  | _, [] => .isTrue trivial
  | _, _ :: ops =>
    have := fun s => decidableAlong s ops
    inferInstanceAs (Decidable (_ ∧ ∀ _, _ → _))

theorem Throughout.head {ops : List ο} (h : Throughout step Q s ops) : Q s := by
  cases ops with
  | nil => exact h
  | cons op ops => exact h.1

theorem Throughout.last {ops : List ο} {s' : σ} (h : Throughout step Q s ops)
    (hrun : ops.foldlM step s = .ok s') : Q s' := by
  induction ops generalizing s with
  | nil =>
    cases hrun
    exact h
  | cons op ops ih =>
    rw [List.foldlM_cons] at hrun
    obtain ⟨next, hnext, hrest⟩ := bind_eq_ok.mp hrun
    exact ih (h.2 next hnext) hrest

/-- A run does not fail if no step fails where the invariant holds, and every step keeps it. -/
theorem exists_foldlM (hstep : ∀ s op, Inv s → ∃ s', step s op = .ok s' ∧ Inv s') (h : Inv s)
    (ops : List ο) : ∃ s', ops.foldlM step s = .ok s' ∧ Inv s' := by
  induction ops generalizing s with
  | nil => exact ⟨s, rfl, h⟩
  | cons op ops ih =>
    obtain ⟨next, hnext, hinv⟩ := hstep s op h
    obtain ⟨s', hrun, hlast⟩ := ih hinv
    exact ⟨s', by rw [List.foldlM_cons, hnext, ok_bind, hrun], hlast⟩

theorem throughout_of_step (hstep : ∀ s op s', Inv s → step s op = .ok s' → Inv s') (h : Inv s)
    (ops : List ο) : Throughout step Inv s ops := by
  induction ops generalizing s with
  | nil => exact h
  | cons op ops ih => exact ⟨h, fun s' hs' => ih (hstep s op s' h hs')⟩

theorem Throughout.mono {ops : List ο} (h : Throughout step Inv s ops) (hQ : ∀ s, Inv s → Q s) :
    Throughout step Q s ops := by
  induction ops generalizing s with
  | nil => exact hQ s h
  | cons op ops ih => exact ⟨hQ s h.1, fun s' hs' => ih (h.2 s' hs')⟩

theorem Throughout.along_congr {ops : List ο} (h : Throughout step Inv s ops)
    (hP : ∀ s op, Inv s → (P s op ↔ P' s op)) : Along step P s ops ↔ Along step P' s ops := by
  induction ops generalizing s with
  | nil => exact Iff.rfl
  | cons op ops ih =>
    exact and_congr (hP s op h.1) (forall₂_congr fun s' hs' => ih (h.2 s' hs'))

theorem Throughout.along {ops : List ο} (h : Throughout step Inv s ops)
    (hP : ∀ s op, Inv s → P s op) : Along step P s ops := by
  induction ops generalizing s with
  | nil => trivial
  | cons op ops ih => exact ⟨hP s op h.1, fun s' hs' => ih (h.2 s' hs')⟩

theorem along_and {ops : List ο} :
    Along step (fun s op => P s op ∧ P' s op) s ops ↔ Along step P s ops ∧ Along step P' s ops := by
  induction ops generalizing s with
  | nil => exact ⟨fun _ => ⟨trivial, trivial⟩, fun _ => trivial⟩
  | cons op ops ih =>
    constructor
    · rintro ⟨⟨hP, hP'⟩, hrest⟩
      exact ⟨⟨hP, fun s' hs' => (ih.1 (hrest s' hs')).1⟩,
        ⟨hP', fun s' hs' => (ih.1 (hrest s' hs')).2⟩⟩
    · rintro ⟨⟨hP, hrest⟩, ⟨hP', hrest'⟩⟩
      exact ⟨⟨hP, hP'⟩, fun s' hs' => ih.2 ⟨hrest s' hs', hrest' s' hs'⟩⟩

theorem Along.congr {C : σ → ο → Prop} {ops : List ο} (h : Along step C s ops)
    (hP : ∀ s op, C s op → (P s op ↔ P' s op)) : Along step P s ops ↔ Along step P' s ops := by
  induction ops generalizing s with
  | nil => exact Iff.rfl
  | cons op ops ih =>
    exact and_congr (hP s op h.1) (forall₂_congr fun s' hs' => ih (h.2 s' hs'))

/-- If a property holds after a step exactly if the step meets a condition, and steps that meet the
condition keep an invariant that implies the property, the property holds throughout a run exactly
if every step meets the condition. -/
theorem throughout_iff_along_of_inv {ops : List ο}
    (hstep : ∀ s op s', Inv s → step s op = .ok s' → (Q s' ↔ P s op))
    (hkeep : ∀ s op s', Inv s → step s op = .ok s' → P s op → Inv s')
    (hfault : ∀ s op fault, Inv s → step s op = .error fault → P s op)
    (hQ : ∀ s, Inv s → Q s) (h : Inv s) :
    Throughout step Q s ops ↔ Along step P s ops := by
  induction ops generalizing s with
  | nil => exact ⟨fun _ => trivial, fun _ => hQ s h⟩
  | cons op ops ih =>
    cases hop : step s op with
    | error fault =>
      have hnone : ∀ s', step s op ≠ .ok s' := by simp [hop]
      exact ⟨fun _ => ⟨hfault s op fault h hop, fun s' hs' => absurd hs' (hnone s')⟩,
        fun _ => ⟨hQ s h, fun s' hs' => absurd hs' (hnone s')⟩⟩
    | ok next =>
      constructor
      · rintro ⟨_, hrest⟩
        have hmeets : P s op := (hstep s op next h hop).1 (hrest next hop).head
        exact ⟨hmeets, fun s' hs' => (ih (hkeep s op s' h hs' hmeets)).1 (hrest s' hs')⟩
      · rintro ⟨hmeets, hrest⟩
        exact ⟨hQ s h, fun s' hs' => (ih (hkeep s op s' h hs' hmeets)).2 (hrest s' hs')⟩

/-- Conditions that agree wherever an invariant holds agree on a run, if the steps that meet them
keep the invariant. -/
theorem along_congr_of_kept {ops : List ο} (hP : ∀ s op, Inv s → (P s op ↔ P' s op))
    (hkeep : ∀ s op s', Inv s → step s op = .ok s' → P s op → Inv s') (h : Inv s) :
    Along step P s ops ↔ Along step P' s ops := by
  induction ops generalizing s with
  | nil => exact Iff.rfl
  | cons op ops ih =>
    refine (and_congr_right fun hmeets => ?_).trans (and_congr_left' (hP s op h))
    exact forall₂_congr fun s' hs' => ih (hkeep s op s' h hs' hmeets)

end Runs

end HakunaMatata.Base
