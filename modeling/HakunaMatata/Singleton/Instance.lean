import HakunaMatata.Base.Blocks
import HakunaMatata.Base.Machine
import Mathlib.Data.Fintype.Defs
import Mathlib.Logic.Function.Basic

/-!
# The singleton template, `singleton.h`

`Instance` checks the pointer, takes the lock, checks the pointer again, constructs the object and
registers `Destroy` to be called at exit. Any threads call it at any time, and their steps are
interleaved in any way; a step is one access to the pointer, to the lock or to the heap. The
accesses to the pointer are taken to be atomic and in the order of the program, and `atexit` and the
calls of the lock to succeed. A constructor may throw, and then the lock is released by the
destructor of `ScopedLock`. The objects are blocks of a checked heap that hold the arguments they
were constructed with.
-/

namespace HakunaMatata.Singleton

open Base

/-- Where a thread is in `Instance`. -/
inductive Phase (α : Type) where
  | idle
  | check (args : α)
  | lock (args : α)
  | recheck (args : α)
  | construct (args : α)
  | assign (object : Nat)
  | register
  | unlock
  | unwind
  | deref
  deriving DecidableEq, Repr

/-- The thread is at the lock. -/
def Phase.waits {α : Type} : Phase α → Bool
  | .lock _ => true
  | _ => false

/-- The thread is about to construct the object. -/
def Phase.constructs {α : Type} : Phase α → Bool
  | .construct _ => true
  | _ => false

/-- The shared variables and the threads. `handlers` counts the functions registered with `atexit`,
and `returned` are the references that calls returned since the last exit. -/
structure State (τ α : Type) where
  phase : τ → Phase α
  singleton : Option Nat
  mutex : Option τ
  heap : Blocks α
  handlers : Nat
  returned : List Nat

/-- A thread calls `Instance`, goes on with its call, or its constructor throws; or the program
exits. -/
inductive Op (τ α : Type) where
  | call (t : τ) (args : α)
  | run (t : τ)
  | throw (t : τ)
  | exit

section Steps

variable {τ α : Type} [DecidableEq τ]

/-- Nothing was called yet. -/
def State.start : State τ α where
  phase _ := .idle
  singleton := none
  mutex := none
  heap := .empty
  handlers := 0
  returned := []

def State.goto (s : State τ α) (t : τ) (phase : Phase α) : State τ α :=
  { s with phase := Function.update s.phase t phase }

/-- The next step of a thread in `Instance`. -/
def State.run (s : State τ α) (t : τ) : Except Fault (State τ α) :=
  match s.phase t with
  | .idle => .ok s
  | .check args => .ok (s.goto t (if s.singleton = none then .lock args else .deref))
  | .lock args => .ok ({ s with mutex := some t }.goto t (.recheck args))
  | .recheck args => .ok (s.goto t (if s.singleton = none then .construct args else .unlock))
  | .construct args => .ok ({ s with heap := s.heap.alloc args }.goto t (.assign s.heap.size))
  | .assign object => .ok ({ s with singleton := some object }.goto t .register)
  | .register => .ok ({ s with handlers := s.handlers + 1 }.goto t .unlock)
  | .unlock => .ok ({ s with mutex := none }.goto t .deref)
  | .unwind => .ok ({ s with mutex := none }.goto t .idle)
  | .deref =>
    match s.singleton with
    | none => .error .assertion
    | some object => do
      let _ ← s.heap.get object
      return { s with returned := s.returned ++ [object] }.goto t .idle

/-- `Destroy`. -/
def State.destroy (s : State τ α) : Except Fault (State τ α) :=
  match s.singleton with
  | none => .ok s
  | some object => do
    let heap ← s.heap.free object
    return { s with heap := heap, singleton := none }

/-- The functions that were registered are called. -/
def State.destroyAll : Nat → State τ α → Except Fault (State τ α)
  | 0, s => .ok s
  | count + 1, s => do
    let s ← s.destroy
    State.destroyAll count s

/-- An operation. -/
def State.exec (s : State τ α) : Op τ α → Except Fault (Unit × State τ α)
  | .call t args => .ok ((), s.goto t (.check args))
  | .run t => do
    let s ← s.run t
    return ((), s)
  | .throw t => .ok ((), s.goto t .unwind)
  | .exit => do
    let s ← State.destroyAll s.handlers s
    return ((), { s with handlers := 0, returned := [] })

/-- When an operation can be made. A thread waits for the lock, only a constructor throws, and the
program exits when no thread is in `Instance`. -/
def State.Allowed (s : State τ α) : Op τ α → Prop
  | .call t _ => s.phase t = .idle
  | .run t => s.phase t ≠ .idle ∧ ((s.phase t).waits = true → s.mutex = none)
  | .throw t => (s.phase t).constructs = true
  | .exit => ∀ t, s.phase t = .idle

/-- The singleton with its threads. -/
def machine (τ α : Type) [DecidableEq τ] : Machine (State τ α) (Op τ α) Unit where
  Allowed := State.Allowed
  exec := State.exec

instance [Fintype τ] [DecidableEq α] (s : State τ α) (op : Op τ α) :
    Decidable ((machine τ α).Allowed s op) :=
  match op with
  | .call t _ => inferInstanceAs (Decidable (s.phase t = .idle))
  | .run t => inferInstanceAs (Decidable (s.phase t ≠ .idle ∧ (_ → _)))
  | .throw t => inferInstanceAs (Decidable ((s.phase t).constructs = true))
  | .exit => inferInstanceAs (Decidable (∀ t, s.phase t = .idle))

end Steps

/-! ## The invariant -/

/-- The thread has the lock. -/
def Phase.inside {α : Type} : Phase α → Bool
  | .recheck _ | .construct _ | .assign _ | .register | .unlock | .unwind => true
  | _ => false

/-- The thread has an object that the pointer does not refer to, or `Destroy` to register. -/
def Phase.pending {α : Type} : Phase α → Bool
  | .assign _ | .register => true
  | _ => false

/-- What a thread knows about the pointer. -/
def Phase.Knows {α : Type} (singleton : Option Nat) (heap : Blocks α) (handlers : Nat) :
    Phase α → Prop
  | .construct _ => singleton = none
  | .assign object => singleton = none ∧ ∃ args, heap.lookup object = some args
  | .register => (∃ object, singleton = some object) ∧ handlers = 0
  | .unlock | .deref => ∃ object, singleton = some object
  | _ => True

/-- What holds in every state. -/
structure Inv {τ α : Type} (s : State τ α) : Prop where
  /-- The owner of the lock is the thread that is inside. -/
  owner : ∀ t, (s.phase t).inside = true ↔ s.mutex = some t
  knows : ∀ t, (s.phase t).Knows s.singleton s.heap s.handlers
  /-- An object is the one that the pointer refers to, or it is about to be. -/
  live : ∀ object args, s.heap.lookup object = some args →
    s.singleton = some object ∨ ∃ t, s.phase t = .assign object
  valid : ∀ object, s.singleton = some object → ∃ args, s.heap.lookup object = some args
  /-- `Destroy` is registered once for an object. -/
  unregistered : s.singleton = none → s.handlers = 0
  registered : ∀ object, s.singleton = some object →
    s.handlers = 1 ∨ ∃ t, s.phase t = .register
  returned : ∀ object ∈ s.returned, s.singleton = some object

section Preservation

variable {τ α : Type} {s : State τ α} {t : τ}

theorem inv_start : Inv (State.start : State τ α) where
  owner t := ⟨fun h => absurd h Bool.false_ne_true, nofun⟩
  knows _ := trivial
  live object _ h := by
    rw [State.start, Blocks.lookup_of_size_le (Nat.zero_le object)] at h
    cases h
  valid _ := nofun
  unregistered _ := rfl
  registered _ := nofun
  returned _ h := absurd h List.not_mem_nil

theorem Inv.alone (h : Inv s) (hinside : (s.phase t).inside = true) {u : τ} (hne : u ≠ t) :
    (s.phase u).inside = false := by
  rw [Bool.eq_false_iff]
  intro hu
  have heq := (h.owner t).mp hinside
  rw [(h.owner u).mp hu] at heq
  exact hne (Option.some.inj heq)

theorem Inv.inside_unique (h : Inv s) {u : τ} (ht : (s.phase t).inside = true)
    (hu : (s.phase u).inside = true) : t = u := by
  by_contra hne
  have houtside := h.alone ht (Ne.symm hne)
  rw [hu] at houtside
  cases houtside

theorem Inv.unique (h : Inv s) {i j : Nat} {args args' : α} (hi : s.heap.lookup i = some args)
    (hj : s.heap.lookup j = some args') : i = j := by
  have hnone : ∀ {u object}, s.phase u = .assign object → s.singleton = none := by
    intro u object hu
    have hknows := h.knows u
    rw [hu] at hknows
    exact hknows.1
  rcases h.live i args hi with hi' | ⟨t, ht⟩
  · rcases h.live j args' hj with hj' | ⟨u, hu⟩
    · exact Option.some.inj (hi'.symm.trans hj')
    · cases (hnone hu).symm.trans hi'
  · rcases h.live j args' hj with hj' | ⟨u, hu⟩
    · cases (hnone ht).symm.trans hj'
    · have hsame : t = u := h.inside_unique (by rw [ht]; rfl) (by rw [hu]; rfl)
      subst hsame
      cases ht.symm.trans hu
      rfl

/-- No thread waits for ever: while a call is under way some thread can go on. -/
theorem Inv.progress (h : Inv s) (hbusy : s.phase t ≠ .idle) : ∃ u, s.Allowed (.run u) := by
  cases hmutex : s.mutex with
  | none => exact ⟨t, hbusy, fun _ => hmutex⟩
  | some u =>
    have hinside := (h.owner u).mpr hmutex
    cases hphase : s.phase u with
    | idle => rw [hphase] at hinside; cases hinside
    | lock args => rw [hphase] at hinside; cases hinside
    | _ =>
      refine ⟨u, by rw [hphase]; nofun, fun hwaits => ?_⟩
      rw [hphase] at hwaits
      cases hwaits

theorem Inv.exit (h : Inv s) (hidle : ∀ t, s.phase t = .idle) :
    ∃ s', State.destroyAll s.handlers s = .ok s' ∧
      Inv { s' with handlers := 0, returned := [] } ∧ s'.heap.size = s.heap.size ∧
      ∀ object, s'.heap.lookup object = none := by
  -- no thread has an object of its own
  have hother : ∀ object, s.singleton ≠ some object → s.heap.lookup object = none := by
    intro object hne
    cases hobject : s.heap.lookup object with
    | none => rfl
    | some args =>
      refine absurd ((h.live object args hobject).resolve_right fun ⟨u, hu⟩ => ?_) hne
      cases (hidle u).symm.trans hu
  cases hsingleton : s.singleton with
  | none =>
    have hempty : ∀ object, s.heap.lookup object = none := fun object =>
      hother object (by rw [hsingleton]; nofun)
    refine ⟨s, by rw [h.unregistered hsingleton]; rfl, ?_, rfl, hempty⟩
    refine { h with
      knows := fun u => ?_
      unregistered := fun _ => rfl
      registered := fun object hobject => ?_
      returned := fun _ hmem => absurd hmem List.not_mem_nil }
    · show (s.phase u).Knows s.singleton s.heap 0
      rw [hidle u]
      trivial
    · cases hsingleton.symm.trans hobject
  | some object =>
    obtain ⟨args, hargs⟩ := h.valid object hsingleton
    obtain ⟨heap, hfree, hsize, hlookup⟩ := Blocks.free_eq_ok hargs
    have hone : s.handlers = 1 := by
      refine (h.registered object hsingleton).resolve_right fun ⟨u, hu⟩ => ?_
      cases (hidle u).symm.trans hu
    have hempty : ∀ other, heap.lookup other = none := by
      intro other
      rw [hlookup]
      split
      · rfl
      · rename_i hne
        exact hother other fun heq => hne (Option.some.inj (hsingleton.symm.trans heq)).symm
    refine ⟨{ s with heap := heap, singleton := none }, ?_, ?_, hsize, hempty⟩
    · refine (congrArg (State.destroyAll · s) hone).trans ?_
      simp only [State.destroyAll, State.destroy, hsingleton, hfree, ok_bind]
      rfl
    · refine ⟨h.owner, fun u => ?_, fun other args' hlive => ?_, nofun, fun _ => rfl, nofun,
        fun _ hmem => absurd hmem List.not_mem_nil⟩
      · show (s.phase u).Knows none heap 0
        rw [hidle u]
        trivial
      · cases (hempty other).symm.trans hlive

variable [DecidableEq τ]

/-- The owner of the lock does not change if a thread stays inside or outside. -/
theorem Inv.owner_of_same (h : Inv s) {phase : Phase α}
    (hinside : phase.inside = (s.phase t).inside) (u : τ) :
    (Function.update s.phase t phase u).inside = true ↔ s.mutex = some u := by
  rcases eq_or_ne u t with rfl | hne
  · rw [Function.update_self, hinside]
    exact h.owner u
  · rw [Function.update_of_ne hne]
    exact h.owner u

theorem knows_update {phase : Phase α} {singleton : Option Nat} {heap : Blocks α} {handlers : Nat}
    (hknows : phase.Knows singleton heap handlers)
    (hother : ∀ u, u ≠ t → (s.phase u).Knows singleton heap handlers) (u : τ) :
    (Function.update s.phase t phase u).Knows singleton heap handlers := by
  rcases eq_or_ne u t with rfl | hne
  · rw [Function.update_self]
    exact hknows
  · rw [Function.update_of_ne hne]
    exact hother u hne

theorem stays_update {phase place : Phase α} (h : ∃ u, s.phase u = place)
    (hne : s.phase t ≠ place) : ∃ u, Function.update s.phase t phase u = place := by
  obtain ⟨u, hu⟩ := h
  have hother : u ≠ t := fun heq => hne (heq ▸ hu)
  exact ⟨u, (Function.update_of_ne hother _ _).trans hu⟩

theorem Inv.move (h : Inv s) (mutex : Option τ) {phase : Phase α}
    (howner : ∀ u, (Function.update s.phase t phase u).inside = true ↔ mutex = some u)
    (hknows : phase.Knows s.singleton s.heap s.handlers)
    (hpending : (s.phase t).pending = false) :
    Inv ({ s with mutex := mutex }.goto t phase) where
  owner := howner
  knows := knows_update hknows fun u _ => h.knows u
  live object args hlive := (h.live object args hlive).imp_right fun hu =>
    stays_update hu fun heq => by rw [heq] at hpending; cases hpending
  valid := h.valid
  unregistered := h.unregistered
  registered object hobject := (h.registered object hobject).imp_right fun hu =>
    stays_update hu fun heq => by rw [heq] at hpending; cases hpending
  returned := h.returned

theorem Inv.goto (h : Inv s) {phase : Phase α} (hinside : phase.inside = (s.phase t).inside)
    (hknows : phase.Knows s.singleton s.heap s.handlers)
    (hpending : (s.phase t).pending = false) : Inv (s.goto t phase) :=
  h.move s.mutex (h.owner_of_same hinside) hknows hpending

theorem Inv.lock (h : Inv s) {args : α} (hphase : s.phase t = .lock args) (hfree : s.mutex = none) :
    Inv ({ s with mutex := some t }.goto t (.recheck args)) := by
  refine h.move _ (fun u => ?_) trivial (by rw [hphase]; rfl)
  rcases eq_or_ne u t with rfl | hne
  · rw [Function.update_self]
    exact ⟨fun _ => rfl, fun _ => rfl⟩
  · rw [Function.update_of_ne hne, h.owner u, hfree]
    exact ⟨nofun, fun heq => absurd (Option.some.inj heq).symm hne⟩

theorem Inv.unlock (h : Inv s) {phase : Phase α} (hinside : (s.phase t).inside = true)
    (houtside : phase.inside = false) (hknows : phase.Knows s.singleton s.heap s.handlers)
    (hpending : (s.phase t).pending = false) : Inv ({ s with mutex := none }.goto t phase) := by
  refine h.move none (fun u => ?_) hknows hpending
  rcases eq_or_ne u t with rfl | hne
  · rw [Function.update_self, houtside]
    exact ⟨nofun, nofun⟩
  · rw [Function.update_of_ne hne, h.alone hinside hne]
    exact ⟨nofun, nofun⟩

theorem Inv.construct (h : Inv s) {args : α} (hphase : s.phase t = .construct args) :
    Inv ({ s with heap := s.heap.alloc args }.goto t (.assign s.heap.size)) := by
  have hinside : (s.phase t).inside = true := by rw [hphase]; rfl
  have hnone : s.singleton = none := by
    have hknows := h.knows t
    rwa [hphase] at hknows
  have hknown : Phase.Knows s.singleton (s.heap.alloc args) s.handlers (.assign s.heap.size) :=
    ⟨hnone, args, by rw [Blocks.lookup_alloc, if_pos rfl]⟩
  refine ⟨h.owner_of_same (by rw [hphase]; rfl), knows_update hknown fun u hne => ?_,
    fun object args' hlive => ?_, fun object hobject => ?_, h.unregistered,
    fun object hobject => ?_, h.returned⟩
  · -- the others are outside, and know nothing about the heap
    have hknows := h.knows u
    have houtside := h.alone hinside hne
    cases hu : s.phase u with
    | assign object => rw [hu] at houtside; cases houtside
    | _ => rw [hu] at hknows; exact hknows
  · change (s.heap.alloc args).lookup object = some args' at hlive
    rw [Blocks.lookup_alloc] at hlive
    split at hlive
    · subst object
      exact .inr ⟨t, Function.update_self ..⟩
    · exact (h.live object args' hlive).imp_right fun hu =>
        stays_update hu fun heq => by cases hphase.symm.trans heq
  · cases hnone.symm.trans hobject
  · cases hnone.symm.trans hobject

theorem Inv.assign (h : Inv s) {object : Nat} (hphase : s.phase t = .assign object) :
    Inv ({ s with singleton := some object }.goto t .register) := by
  have hinside : (s.phase t).inside = true := by rw [hphase]; rfl
  have hknown := h.knows t
  rw [hphase] at hknown
  have hnone := hknown.1
  have hregister : Phase.Knows (some object) s.heap s.handlers .register :=
    ⟨⟨object, rfl⟩, h.unregistered hnone⟩
  refine ⟨h.owner_of_same (by rw [hphase]; rfl), knows_update hregister fun u hne => ?_,
    fun other args hlive => ?_, fun other hother => ?_, nofun, fun other hother => ?_,
    fun other hother => ?_⟩
  · have houtside := h.alone hinside hne
    cases hu : s.phase u with
    | construct args => rw [hu] at houtside; cases houtside
    | assign other => rw [hu] at houtside; cases houtside
    | register => rw [hu] at houtside; cases houtside
    | unlock => exact ⟨object, rfl⟩
    | deref => exact ⟨object, rfl⟩
    | _ => trivial
  · -- the object that was under construction is the only one
    refine .inl ?_
    rcases h.live other args hlive with hsome | ⟨u, hu⟩
    · cases hnone.symm.trans hsome
    · have hsame : u = t := h.inside_unique (by rw [hu]; rfl) hinside
      subst hsame
      cases hphase.symm.trans hu
      rfl
  · cases hother
    exact hknown.2
  · exact .inr ⟨t, Function.update_self ..⟩
  · cases hnone.symm.trans (h.returned other hother)

theorem Inv.register (h : Inv s) (hphase : s.phase t = .register) :
    Inv ({ s with handlers := s.handlers + 1 }.goto t .unlock) := by
  have hinside : (s.phase t).inside = true := by rw [hphase]; rfl
  obtain ⟨⟨object, hobject⟩, hzero⟩ : (∃ object, s.singleton = some object) ∧ s.handlers = 0 := by
    have hknows := h.knows t
    rwa [hphase] at hknows
  have hunlock : Phase.Knows s.singleton s.heap (s.handlers + 1) .unlock := ⟨object, hobject⟩
  refine ⟨h.owner_of_same (by rw [hphase]; rfl), knows_update hunlock fun u hne => ?_,
    fun other args hlive => ?_, h.valid, fun hnone => ?_,
    fun _ _ => .inl (congrArg (· + 1) hzero), h.returned⟩
  · have hknows := h.knows u
    have houtside := h.alone hinside hne
    cases hu : s.phase u with
    | register => rw [hu] at houtside; cases houtside
    | _ => rw [hu] at hknows; exact hknows
  · exact (h.live other args hlive).imp_right fun hu =>
      stays_update hu fun heq => by cases hphase.symm.trans heq
  · cases hobject.symm.trans hnone

theorem Inv.run (h : Inv s) (hallowed : s.Allowed (.run t)) :
    ∃ s', s.run t = .ok s' ∧ Inv s' := by
  unfold State.run
  have hknows := h.knows t
  cases hphase : s.phase t with
  | idle => exact absurd hphase hallowed.1
  | check args =>
    refine ⟨_, rfl, h.goto ?_ ?_ (by rw [hphase]; rfl)⟩
    · rw [hphase]
      split <;> rfl
    · cases hsingleton : s.singleton with
      | none => trivial
      | some object => exact ⟨object, rfl⟩
  | lock args => exact ⟨_, rfl, h.lock hphase (hallowed.2 (by rw [hphase]; rfl))⟩
  | recheck args =>
    refine ⟨_, rfl, h.goto ?_ ?_ (by rw [hphase]; rfl)⟩
    · rw [hphase]
      split <;> rfl
    · cases hsingleton : s.singleton with
      | none => exact rfl
      | some object => exact ⟨object, rfl⟩
  | construct args => exact ⟨_, rfl, h.construct hphase⟩
  | assign object => exact ⟨_, rfl, h.assign hphase⟩
  | register => exact ⟨_, rfl, h.register hphase⟩
  | unlock =>
    rw [hphase] at hknows
    exact ⟨_, rfl, h.unlock (by rw [hphase]; rfl) rfl hknows (by rw [hphase]; rfl)⟩
  | unwind =>
    exact ⟨_, rfl, h.unlock (by rw [hphase]; rfl) rfl trivial (by rw [hphase]; rfl)⟩
  | deref =>
    rw [hphase] at hknows
    obtain ⟨object, hobject⟩ := hknows
    obtain ⟨args, hargs⟩ := h.valid object hobject
    have hgoto : Inv (s.goto t .idle) :=
      h.goto (by rw [hphase]; rfl) trivial (by rw [hphase]; rfl)
    refine ⟨{ s with returned := s.returned ++ [object] }.goto t .idle, ?_, ?_⟩
    · simp only [hobject, Blocks.get_eq_ok hargs]
      rfl
    · refine { hgoto with returned := fun other hother => ?_ }
      rcases List.mem_append.mp hother with hold | hnew
      · exact h.returned other hold
      · rw [List.mem_singleton.mp hnew]
        exact hobject

theorem Inv.exec (h : Inv s) {op : Op τ α} (hallowed : s.Allowed op) :
    ∃ result s', s.exec op = .ok (result, s') ∧ Inv s' := by
  cases op with
  | call t args =>
    have hphase : s.phase t = .idle := hallowed
    exact ⟨(), _, rfl, h.goto (by rw [hphase]; rfl) trivial (by rw [hphase]; rfl)⟩
  | run t =>
    obtain ⟨s', hrun, hinv⟩ := h.run hallowed
    exact ⟨(), s', by rw [State.exec, hrun]; rfl, hinv⟩
  | throw t =>
    have hconstructs : (s.phase t).constructs = true := hallowed
    cases hphase : s.phase t with
    | construct args =>
      exact ⟨(), _, rfl, h.goto (by rw [hphase]; rfl) trivial (by rw [hphase]; rfl)⟩
    | _ => rw [hphase] at hconstructs; cases hconstructs
  | exit =>
    obtain ⟨s', hdestroy, hinv, _⟩ := h.exit hallowed
    exact ⟨(), _, by rw [State.exec, hdestroy]; rfl, hinv⟩

end Preservation

/-- For any threads and every interleaving of their calls, with constructors that may throw and
exits in between, every state that is reached is sound: no step fails, so that no call returns a
null or a dangling reference and nothing is deleted twice. There is at most one object at a time,
and all the references returned since the last exit are to it. One thread at most is inside the
lock, and some thread can go on while a call is under way. An exit deletes every object that was
ever constructed. -/
theorem instance_once {τ α : Type} [DecidableEq τ] {s : State τ α}
    (h : (machine τ α).Steps .start s) :
    (∀ op, s.Allowed op → ∃ result s', s.exec op = .ok (result, s')) ∧
      (∀ object ∈ s.returned, s.singleton = some object ∧
        ∃ args, s.heap.lookup object = some args) ∧
      (∀ i j args args', s.heap.lookup i = some args → s.heap.lookup j = some args' → i = j) ∧
      (∀ t u, (s.phase t).inside = true → (s.phase u).inside = true → t = u) ∧
      (∀ t, s.phase t ≠ .idle → ∃ u, s.Allowed (.run u)) ∧
      (s.Allowed .exit → ∃ result s', s.exec .exit = .ok (result, s') ∧
        ∀ object < s.heap.size, object ∈ s'.heap.freed) := by
  have hinv : Inv s := Machine.invariant Inv (fun _ _ hs hop => hs.exec hop) inv_start h
  refine ⟨fun op hop => ?_, fun object hobject => ?_, fun i j args args' hi hj => ?_,
    fun t u ht hu => ?_, fun t ht => hinv.progress ht, fun hidle => ?_⟩
  · obtain ⟨result, s', hexec, _⟩ := hinv.exec hop
    exact ⟨result, s', hexec⟩
  · have hsingleton := hinv.returned object hobject
    exact ⟨hsingleton, hinv.valid object hsingleton⟩
  · exact hinv.unique hi hj
  · exact hinv.inside_unique ht hu
  · obtain ⟨s', hdestroy, _, hsize, hempty⟩ := hinv.exit hidle
    refine ⟨(), _, by rw [State.exec, hdestroy]; rfl, fun object hobject => ?_⟩
    exact Blocks.mem_freed_iff.mpr ⟨hsize ▸ hobject, hempty object⟩

/-- Two threads call `Instance` at once and both find a null pointer. The first one constructs the
object, the second one finds it after it got the lock. -/
def racingOps : List (Op Bool Nat) :=
  [.call false 1, .call true 2, .run false, .run true, .run false, .run false, .run false,
    .run false, .run false, .run false, .run true, .run true, .run true, .run true, .run false]

/-- The run of the two threads. -/
def racingRun : Option (State Bool Nat) :=
  (machine Bool Nat).run .start racingOps

/-- Both threads get the same object. -/
theorem instance_once_racing :
    ∃ s, racingRun = some s ∧ s.returned = [0, 0] ∧
      ∀ i j args args', s.heap.lookup i = some args → s.heap.lookup j = some args' → i = j := by
  have hsome : racingRun.isSome = true := by decide +kernel
  obtain ⟨s, hs⟩ := Option.isSome_iff_exists.mp hsome
  have hvalues : racingRun.map (fun s => s.returned) = some [0, 0] := by decide +kernel
  rw [hs, Option.map_some, Option.some.injEq] at hvalues
  exact ⟨s, hs, hvalues, (instance_once (Machine.steps_of_run hs)).2.2.1⟩

end HakunaMatata.Singleton
