import Mathlib.Data.Nat.Init
import Mathlib.Tactic.ByContra

/-!
# Threads under a schedule

Threads that share a state, and an infinite schedule that says which of them goes next. An operation
that cannot be made when it is scheduled leaves the state as it is, so that every interleaving is a
schedule. `Fair` is strong fairness: a thread that is ready again and again goes again and again.
Read `Fair.ensures` first, the rule from which what happens in the end is derived.
-/

namespace HakunaMatata.Base

/-- Threads `τ` with operations `ο`. A thread may have operations that it makes only if something
outside goes wrong, so that being ready is not the same as having an operation. -/
structure Threads (σ ο τ : Type*) where
  step : σ → ο → Option σ
  thread : ο → τ
  Ready : σ → τ → Prop

namespace Threads

variable {σ ο τ : Type*} (T : Threads σ ο τ) (init : σ) (ops : Nat → ο)

/-- The state after the first operations of the schedule. -/
def stateAt : Nat → σ
  | 0 => init
  | n + 1 => (T.step (stateAt n) (ops n)).getD (stateAt n)

/-- The thread makes an operation. -/
def Moves (t : τ) (n : Nat) : Prop :=
  T.thread (ops n) = t ∧ ∃ s', T.step (T.stateAt init ops n) (ops n) = some s'

/-- A thread that is ready infinitely often makes infinitely many operations. -/
def Fair : Prop :=
  ∀ t, (∀ n, ∃ m, n ≤ m ∧ T.Ready (T.stateAt init ops m) t) →
    ∀ n, ∃ m, n ≤ m ∧ T.Moves init ops t m

theorem stateAt_succ_cases (n : Nat) :
    T.stateAt init ops (n + 1) = T.stateAt init ops n ∨
      T.step (T.stateAt init ops n) (ops n) = some (T.stateAt init ops (n + 1)) := by
  rw [stateAt.eq_2]
  cases T.step (T.stateAt init ops n) (ops n) with
  | none => exact .inl rfl
  | some s' => exact .inr rfl

variable {T init ops} {P Q : σ → Prop} {n m : Nat} {t : τ}

theorem stateAt_succ {s' : σ} (h : T.step (T.stateAt init ops n) (ops n) = some s') :
    T.stateAt init ops (n + 1) = s' := by
  rw [stateAt, h]
  rfl

/-- What every operation keeps holds from the first state on in which it holds. -/
theorem stays (hstep : ∀ s op s', P s → T.step s op = some s' → P s')
    (h : P (T.stateAt init ops n)) (hle : n ≤ m) : P (T.stateAt init ops m) := by
  induction m, hle using Nat.le_induction with
  | base => exact h
  | succ m _ ih =>
    rcases T.stateAt_succ_cases init ops m with hsame | hmove
    · rw [hsame]
      exact ih
    · exact hstep _ _ _ ih hmove

/-- If nothing happens any more and no thread is ready, the schedule is fair. -/
theorem fair_of_quiet (hsame : ∀ m, n ≤ m → T.stateAt init ops m = T.stateAt init ops n)
    (hready : ∀ t, ¬ T.Ready (T.stateAt init ops n) t) : T.Fair init ops := by
  intro t hoften
  obtain ⟨m, hle, hm⟩ := hoften n
  rw [hsame m hle] at hm
  exact absurd hm (hready t)

section Lists

variable {ops : List ο} {idle : ο}

/-- The states of a schedule that makes the operations of a list, as folds: the folds are what can
be computed. -/
theorem stateAt_getD (hle : n ≤ ops.length) : T.stateAt init (ops.getD · idle) n =
    (ops.take n).foldl (fun s op => (T.step s op).getD s) init := by
  induction n with
  | zero => rfl
  | succ n ih =>
    have hop : ops.getD n idle = ops[n] := by
      rw [List.getD_eq_getElem?_getD, List.getElem?_eq_getElem hle]
      rfl
    rw [List.take_succ_eq_append_getElem hle, List.foldl_append, ← ih (Nat.le_of_lt hle),
      Threads.stateAt, hop]
    rfl

/-- If nothing can be done behind the list, the schedule stays where it is. -/
theorem stateAt_idle (hidle : T.step (T.stateAt init (ops.getD · idle) ops.length) idle = none)
    (hle : ops.length ≤ n) :
    T.stateAt init (ops.getD · idle) n = T.stateAt init (ops.getD · idle) ops.length := by
  induction n, hle using Nat.le_induction with
  | base => rfl
  | succ n hle ih =>
    have hop : ops.getD n idle = idle := by
      rw [List.getD_eq_getElem?_getD, List.getElem?_eq_none hle]
      rfl
    rw [Threads.stateAt, hop, ih, hidle]
    rfl

end Lists

/-- If `P` lasts until `Q`, a move of the thread ends it, and the thread is ready again and again
while it lasts, then `Q` is reached. -/
theorem Fair.ensures (hfair : T.Fair init ops) (t : τ)
    (hstep : ∀ m, n ≤ m → P (T.stateAt init ops m) →
      T.step (T.stateAt init ops m) (ops m) = some (T.stateAt init ops (m + 1)) →
      P (T.stateAt init ops (m + 1)) ∨ Q (T.stateAt init ops (m + 1)))
    (hmove : ∀ m, n ≤ m → P (T.stateAt init ops m) → T.thread (ops m) = t →
      T.step (T.stateAt init ops m) (ops m) = some (T.stateAt init ops (m + 1)) →
      Q (T.stateAt init ops (m + 1)))
    (hready : ∀ m, n ≤ m → P (T.stateAt init ops m) →
      ∃ k, m ≤ k ∧ (T.Ready (T.stateAt init ops k) t ∨ Q (T.stateAt init ops k)))
    (h : P (T.stateAt init ops n)) : ∃ m, n ≤ m ∧ Q (T.stateAt init ops m) := by
  by_contra hnever
  push Not at hnever
  have hlasts : ∀ m, n ≤ m → P (T.stateAt init ops m) := by
    intro m hle
    induction m, hle using Nat.le_induction with
    | base => exact h
    | succ m hle ih =>
      rcases T.stateAt_succ_cases init ops m with hsame | hnext
      · rw [hsame]
        exact ih
      · exact (hstep m hle ih hnext).resolve_right (hnever (m + 1) (Nat.le_succ_of_le hle))
  have hoften : ∀ k, ∃ m, k ≤ m ∧ T.Ready (T.stateAt init ops m) t := by
    intro k
    have hle := Nat.le_max_left n k
    obtain ⟨m, hm, hready⟩ := hready _ hle (hlasts _ hle)
    refine ⟨m, Nat.le_trans (Nat.le_max_right n k) hm, ?_⟩
    exact hready.resolve_right (hnever m (Nat.le_trans hle hm))
  obtain ⟨m, hle, hthread, s', hs'⟩ := hfair t hoften n
  rw [← stateAt_succ hs'] at hs'
  exact hnever (m + 1) (Nat.le_succ_of_le hle) (hmove m hle (hlasts m hle) hthread hs')

/-- If `P` leads to `Q` or to `P` with a smaller measure, it leads to `Q`. -/
theorem leads_of_measure (f : σ → Nat)
    (hless : ∀ n, P (T.stateAt init ops n) → ∃ m, n ≤ m ∧ (Q (T.stateAt init ops m) ∨
      P (T.stateAt init ops m) ∧ f (T.stateAt init ops m) < f (T.stateAt init ops n)))
    (h : P (T.stateAt init ops n)) : ∃ m, n ≤ m ∧ Q (T.stateAt init ops m) := by
  induction hk : f (T.stateAt init ops n) using Nat.strong_induction_on generalizing n with
  | _ k ih =>
    obtain ⟨m, hle, hQ | ⟨hP, hlt⟩⟩ := hless n h
    · exact ⟨m, hle, hQ⟩
    · obtain ⟨l, hml, hQ⟩ := ih _ (hk ▸ hlt) hP rfl
      exact ⟨l, Nat.le_trans hle hml, hQ⟩

end Threads

end HakunaMatata.Base
