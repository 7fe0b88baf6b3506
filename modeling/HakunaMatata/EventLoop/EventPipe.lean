import Mathlib.Algebra.BigOperators.Group.Finset.Basic
import Mathlib.Data.Fintype.Basic
import HakunaMatata.Base.Memory
import HakunaMatata.Base.Threads

/-!
# The event pipe of `event_pipe.c`

Any number of threads call `event_pipe_wakeup` and `event_pipe_clearup`. Each call is a sequence of
operations: to take the mutex, system calls on the pipe, to release the mutex and to return. Any
system call may be interrupted, and any write may find the pipe full. `Books` carries the
bookkeeping through every interleaving: what calls have returned, what calls that have not returned
yet will return, and what is in the pipe. The mutex is needed for the count of one call to fit its
`int`: nobody writes while it is reading.
-/

namespace HakunaMatata.EventLoop.EventPipe

open Base

/-- `sizeof(uint64_t)`. -/
def wordSize : Nat := 8

/-- `sizeof(buf)` in `event_pipe_readall`. -/
def bufSize : Nat := 128 * wordSize

/-- The error of a system call. -/
inductive Errno where
  | eintr
  | eagain
  | other
  deriving DecidableEq, Repr

/-- The result of `read` or `write`. -/
inductive SysResult where
  | bytes (n : Nat)
  | error (errno : Errno)
  deriving DecidableEq, Repr

/-- Where a thread is in its call, with the variables that matter from there on: `nleft` and `cnt`
of the loops, and then what the loops returned. -/
inductive Phase where
  | idle
  | wakeLock
  | writing (nleft : Nat)
  | wakeUnlock (n : Int)
  | wakeReturn (n : Int)
  | clearLock
  | reading (cnt : Int)
  | clearUnlock (n : Int)
  | clearReturn (n : Int)
  deriving DecidableEq, Repr

/-- An iteration of `event_pipe_writen`, with what `write` returned. -/
def eventPipeWriten (nleft : Nat) : SysResult → Phase
  | .error .eintr => .writing nleft
  | .error _ => .wakeUnlock (-1)
  | .bytes n => if nleft - n > 0 then .writing (nleft - n) else .wakeUnlock wordSize

/-- An iteration of `event_pipe_readall`, with what `read` returned. -/
def eventPipeReadall (cnt : Int) : SysResult → Phase
  | .error .eagain => .clearUnlock cnt
  | .error .eintr => .reading cnt
  | .error .other => .clearUnlock (-1)
  | .bytes n =>
    if n = 0 then .clearUnlock (-1)
    else if n < bufSize then .clearUnlock (i32 (cnt + (n / wordSize : Nat)))
    else .reading (i32 (cnt + (n / wordSize : Nat)))

/-- The result of `event_pipe_wakeup`. -/
def wakeupResult (n : Int) : Int :=
  if n = wordSize then 0 else -1

/-- The bytes in the pipe after a `write` of `nleft` bytes with this result, if it can have it: a
write is atomic, and it can fail if it is interrupted or finds the pipe full. -/
def pipeWrite (capacity pipe nleft : Nat) : SysResult → Option Nat
  | .error .eintr => some pipe
  | .error .eagain => some pipe
  | .error .other => none
  | .bytes n => if n = nleft ∧ pipe + nleft ≤ capacity then some (pipe + nleft) else none

/-- The bytes in the pipe after a `read` with this result, if it can have it: a read takes what is
there and fits the buffer, and it can fail if it is interrupted or the pipe is empty. -/
def pipeRead (pipe : Nat) : SysResult → Option Nat
  | .error .eintr => some pipe
  | .error .eagain => if pipe = 0 then some pipe else none
  | .error .other => none
  | .bytes n => if pipe ≠ 0 ∧ n = min pipe bufSize then some (pipe - n) else none

/-- The event pipe, where each thread is, and what the calls have returned: `cleared` is the sum of
the non-negative results of `event_pipe_clearup`, and `woken` the number of calls of
`event_pipe_wakeup` that returned 0. -/
structure State (τ : Type*) where
  mtx : Option τ
  pipe : Nat
  phase : τ → Phase
  cleared : Int
  woken : Nat

/-- An operation: a thread calls one of the functions, or goes on. The result is that of the system
call, if it makes one. -/
inductive Op (τ : Type*) where
  | wakeup (t : τ)
  | clearup (t : τ)
  | go (t : τ) (result : SysResult)
  deriving DecidableEq, Repr

section Step

variable {τ : Type*} [DecidableEq τ] (capacity : Nat)

/-- After `event_pipe_init`. -/
def State.init : State τ where
  mtx := none
  pipe := 0
  phase _ := .idle
  cleared := 0
  woken := 0

/-- A thread gets to another place. -/
def State.goto (s : State τ) (t : τ) (phase : Phase) : State τ :=
  { s with phase := Function.update s.phase t phase }

@[simp] theorem State.goto_self (s : State τ) (t : τ) (phase : Phase) :
    (s.goto t phase).phase t = phase :=
  Function.update_self ..

theorem State.goto_other (s : State τ) {t u : τ} (phase : Phase) (h : u ≠ t) :
    (s.goto t phase).phase u = s.phase u :=
  Function.update_of_ne h ..

@[simp] theorem State.goto_pipe (s : State τ) (t : τ) (phase : Phase) :
    (s.goto t phase).pipe = s.pipe := rfl

@[simp] theorem State.goto_cleared (s : State τ) (t : τ) (phase : Phase) :
    (s.goto t phase).cleared = s.cleared := rfl

@[simp] theorem State.goto_woken (s : State τ) (t : τ) (phase : Phase) :
    (s.goto t phase).woken = s.woken := rfl

/-- A thread that is in a call goes on. -/
def advance (s : State τ) (t : τ) (result : SysResult) : Option (State τ) :=
  match s.phase t with
  | .idle => none
  | .wakeLock =>
    if s.mtx = none then some { s.goto t (.writing wordSize) with mtx := some t } else none
  | .writing nleft => (pipeWrite capacity s.pipe nleft result).map fun pipe =>
    { s.goto t (eventPipeWriten nleft result) with pipe := pipe }
  | .wakeUnlock n => some { s.goto t (.wakeReturn n) with mtx := none }
  | .wakeReturn n => some { s.goto t .idle with
      woken := if wakeupResult n = 0 then s.woken + 1 else s.woken }
  | .clearLock => if s.mtx = none then some { s.goto t (.reading 0) with mtx := some t } else none
  | .reading cnt => (pipeRead s.pipe result).map fun pipe =>
    { s.goto t (eventPipeReadall cnt result) with pipe := pipe }
  | .clearUnlock n => some { s.goto t (.clearReturn n) with mtx := none }
  | .clearReturn n => some { s.goto t .idle with
      cleared := if 0 ≤ n then s.cleared + n else s.cleared }

/-- An operation, if it can be made. -/
def step (s : State τ) : Op τ → Option (State τ)
  | .wakeup t => if s.phase t = .idle then some (s.goto t .wakeLock) else none
  | .clearup t => if s.phase t = .idle then some (s.goto t .clearLock) else none
  | .go t result => advance capacity s t result

/-- The threads of the event pipe. A thread is ready if it can go on. -/
def threads : Threads (State τ) (Op τ) τ where
  step := step capacity
  thread
    | .wakeup t => t
    | .clearup t => t
    | .go t _ => t
  Ready s t := ∃ result s', advance capacity s t result = some s'

end Step

/-! ## What an operation does -/

section Moves

variable {τ : Type*} [DecidableEq τ] {capacity : Nat} {s s' : State τ}

/-- How a thread goes on, with where it comes from and what it finds. -/
inductive Moves (capacity : Nat) (s : State τ) (t : τ) : State τ → Prop
  | wakeLock : s.phase t = .wakeLock → s.mtx = none →
      Moves capacity s t { s.goto t (.writing wordSize) with mtx := some t }
  | write {nleft pipe : Nat} {result : SysResult} : s.phase t = .writing nleft →
      pipeWrite capacity s.pipe nleft result = some pipe →
      Moves capacity s t { s.goto t (eventPipeWriten nleft result) with pipe := pipe }
  | wakeUnlock {n : Int} : s.phase t = .wakeUnlock n →
      Moves capacity s t { s.goto t (.wakeReturn n) with mtx := none }
  | wakeReturn {n : Int} : s.phase t = .wakeReturn n →
      Moves capacity s t { s.goto t .idle with
        woken := if wakeupResult n = 0 then s.woken + 1 else s.woken }
  | clearLock : s.phase t = .clearLock → s.mtx = none →
      Moves capacity s t { s.goto t (.reading 0) with mtx := some t }
  | read {cnt : Int} {pipe : Nat} {result : SysResult} : s.phase t = .reading cnt →
      pipeRead s.pipe result = some pipe →
      Moves capacity s t { s.goto t (eventPipeReadall cnt result) with pipe := pipe }
  | clearUnlock {n : Int} : s.phase t = .clearUnlock n →
      Moves capacity s t { s.goto t (.clearReturn n) with mtx := none }
  | clearReturn {n : Int} : s.phase t = .clearReturn n →
      Moves capacity s t { s.goto t .idle with
        cleared := if 0 ≤ n then s.cleared + n else s.cleared }

theorem moves_of_advance {t : τ} {result : SysResult} (h : advance capacity s t result = some s') :
    Moves capacity s t s' := by
  unfold advance at h
  cases hphase : s.phase t with
  | idle => simp [hphase] at h
  | wakeLock =>
    simp only [hphase, Option.ite_none_right_eq_some, Option.some.injEq] at h
    obtain ⟨hmtx, rfl⟩ := h
    exact .wakeLock hphase hmtx
  | writing nleft =>
    simp only [hphase, Option.map_eq_some_iff] at h
    obtain ⟨pipe, hpipe, rfl⟩ := h
    exact .write hphase hpipe
  | wakeUnlock n =>
    simp only [hphase, Option.some.injEq] at h
    exact h ▸ .wakeUnlock hphase
  | wakeReturn n =>
    simp only [hphase, Option.some.injEq] at h
    exact h ▸ .wakeReturn hphase
  | clearLock =>
    simp only [hphase, Option.ite_none_right_eq_some, Option.some.injEq] at h
    obtain ⟨hmtx, rfl⟩ := h
    exact .clearLock hphase hmtx
  | reading cnt =>
    simp only [hphase, Option.map_eq_some_iff] at h
    obtain ⟨pipe, hpipe, rfl⟩ := h
    exact .read hphase hpipe
  | clearUnlock n =>
    simp only [hphase, Option.some.injEq] at h
    exact h ▸ .clearUnlock hphase
  | clearReturn n =>
    simp only [hphase, Option.some.injEq] at h
    exact h ▸ .clearReturn hphase

/-- An operation is a call of one of the functions, or a thread goes on. -/
theorem step_cases {op : Op τ} (h : step capacity s op = some s') :
    (∃ t, op = .wakeup t ∧ s.phase t = .idle ∧ s' = s.goto t .wakeLock) ∨
    (∃ t, op = .clearup t ∧ s.phase t = .idle ∧ s' = s.goto t .clearLock) ∨
    ∃ t, Moves capacity s t s' := by
  cases op with
  | wakeup t =>
    simp only [step, Option.ite_none_right_eq_some, Option.some.injEq] at h
    exact .inl ⟨t, rfl, h.1, h.2.symm⟩
  | clearup t =>
    simp only [step, Option.ite_none_right_eq_some, Option.some.injEq] at h
    exact .inr (.inl ⟨t, rfl, h.1, h.2.symm⟩)
  | go t result => exact .inr (.inr ⟨t, moves_of_advance h⟩)

end Moves

/-! ## The books -/

/-- The thread holds the mutex. -/
def Phase.critical : Phase → Bool
  | .writing _ => true
  | .wakeUnlock _ => true
  | .reading _ => true
  | .clearUnlock _ => true
  | _ => false

/-- What the variables of a call hold, with so many bytes in the pipe. -/
def Phase.Holds (capacity pipe : Nat) : Phase → Prop
  | .writing nleft => nleft = wordSize
  | .wakeUnlock n => n = wordSize ∨ n = -1
  | .wakeReturn n => n = wordSize ∨ n = -1
  | .reading cnt => 0 ≤ cnt ∧ wordSize * cnt + pipe ≤ capacity
  | .clearUnlock n => 0 ≤ n
  | .clearReturn n => 0 ≤ n
  | _ => True

/-- The wakeups that a call of `event_pipe_wakeup` has written and not returned. -/
def Phase.posted : Phase → Int
  | .wakeUnlock n => if wakeupResult n = 0 then 1 else 0
  | .wakeReturn n => if wakeupResult n = 0 then 1 else 0
  | _ => 0

/-- The wakeups that a call of `event_pipe_clearup` has read and not returned. -/
def Phase.counted : Phase → Int
  | .reading cnt => cnt
  | .clearUnlock n => n
  | .clearReturn n => n
  | _ => 0

section Books

variable {τ : Type*} [DecidableEq τ] [Fintype τ] {capacity : Nat} {s s' : State τ} {t : τ}

/-- The invariant of the event pipe. -/
structure Books (capacity : Nat) (s : State τ) : Prop where
  held : ∀ t, (s.phase t).critical = true → s.mtx = some t
  phases : ∀ t, (s.phase t).Holds capacity s.pipe
  fits : s.pipe ≤ capacity
  aligned : wordSize ∣ s.pipe
  balance : s.cleared + ∑ t, (s.phase t).counted + (s.pipe / wordSize : Nat) =
    s.woken + ∑ t, (s.phase t).posted

omit [DecidableEq τ] in
theorem books_init (capacity : Nat) : Books capacity (.init : State τ) where
  held _ h := by cases h
  phases _ := trivial
  fits := Nat.zero_le _
  aligned := Nat.dvd_zero _
  balance := by simp [State.init, Phase.counted, Phase.posted]

/-- A sum over the threads after one of them got to another place. -/
theorem sum_goto (s : State τ) (t : τ) (phase : Phase) (f : Phase → Int) :
    ∑ u, f ((s.goto t phase).phase u) = ∑ u, f (s.phase u) - f (s.phase t) + f phase := by
  have hbefore := Finset.add_sum_erase Finset.univ (fun u => f (s.phase u)) (Finset.mem_univ t)
  have hafter := Finset.add_sum_erase Finset.univ (fun u => f ((s.goto t phase).phase u))
    (Finset.mem_univ t)
  have hrest : ∑ u ∈ Finset.univ.erase t, f ((s.goto t phase).phase u) =
      ∑ u ∈ Finset.univ.erase t, f (s.phase u) := by
    refine Finset.sum_congr rfl fun u hu => ?_
    rw [s.goto_other phase (Finset.ne_of_mem_erase hu)]
  simp only [State.goto_self] at hafter
  omega

/-- What a thread without the mutex holds does not depend on the pipe. -/
theorem Phase.Holds.of_not_critical {phase : Phase} {pipe pipe' : Nat}
    (h : phase.Holds capacity pipe) (hcritical : phase.critical = false) :
    phase.Holds capacity pipe' := by
  cases phase with
  | reading cnt => cases hcritical
  | _ => exact h

omit [DecidableEq τ] in
theorem Books.alone (h : Books capacity s) (hcritical : (s.phase t).critical = true) {u : τ}
    (hne : u ≠ t) : (s.phase u).critical = false := by
  by_contra hother
  have hmtx := h.held u (Bool.of_not_eq_false hother)
  rw [h.held t hcritical, Option.some.injEq] at hmtx
  exact hne hmtx.symm

/-- A thread that gets to another place keeps the books, if what it changes there is balanced and
the mutex covers it. -/
theorem Books.move (h : Books capacity s) {phase : Phase} {mtx : Option τ} {pipe : Nat}
    {cleared : Int} {woken : Nat} (hholds : phase.Holds capacity pipe)
    (hself : phase.critical = true → mtx = some t)
    (hothers : ∀ u, u ≠ t → (s.phase u).critical = true → mtx = some u)
    (hpipe : pipe = s.pipe ∨ (s.phase t).critical = true) (hfits : pipe ≤ capacity)
    (haligned : wordSize ∣ pipe)
    (hbalance : cleared - s.cleared + (phase.counted - (s.phase t).counted) +
      ((pipe / wordSize : Nat) - (s.pipe / wordSize : Nat)) =
        woken - s.woken + (phase.posted - (s.phase t).posted)) :
    Books capacity ⟨mtx, pipe, (s.goto t phase).phase, cleared, woken⟩ := by
  refine ⟨fun u hu => ?_, fun u => ?_, hfits, haligned, ?_⟩
  · by_cases hne : u = t
    · subst hne
      simp only [State.goto_self] at hu
      exact hself hu
    · simp only [s.goto_other phase hne] at hu
      exact hothers u hne hu
  · by_cases hne : u = t
    · subst hne
      simpa only [State.goto_self] using hholds
    · simp only [s.goto_other phase hne]
      rcases hpipe with rfl | hcritical
      · exact h.phases u
      · exact (h.phases u).of_not_critical (h.alone hcritical hne)
  · have hbefore := h.balance
    simp only [sum_goto]
    omega

theorem writen_spec {pipe pipe' : Nat} {result : SysResult} (hfits : pipe ≤ capacity)
    (haligned : wordSize ∣ pipe) (hwrite : pipeWrite capacity pipe wordSize result = some pipe') :
    let phase := eventPipeWriten wordSize result
    phase.Holds capacity pipe' ∧ phase.critical = true ∧ phase.counted = 0 ∧
      (pipe' / wordSize : Nat) = (pipe / wordSize : Nat) + phase.posted ∧
      wordSize ∣ pipe' ∧ pipe' ≤ capacity := by
  cases result with
  | error errno =>
    cases errno with
    | eintr =>
      cases hwrite
      exact ⟨rfl, rfl, rfl, by simp [eventPipeWriten, Phase.posted], haligned, hfits⟩
    | eagain =>
      cases hwrite
      exact ⟨.inr rfl, rfl, rfl, by simp [eventPipeWriten, Phase.posted, wakeupResult],
        haligned, hfits⟩
    | other => cases hwrite
  | bytes n =>
    simp only [pipeWrite, Option.ite_none_right_eq_some, Option.some.injEq] at hwrite
    obtain ⟨⟨rfl, hroom⟩, rfl⟩ := hwrite
    refine ⟨.inl rfl, rfl, rfl, ?_, Nat.dvd_add haligned (Nat.dvd_refl _), hroom⟩
    have hposted : (eventPipeWriten wordSize (.bytes wordSize)).posted = 1 := rfl
    rw [hposted]
    unfold wordSize
    omega

/-- An iteration of `event_pipe_readall`: the words that were read are counted, and the loop ends
when the pipe is empty. -/
theorem readall_spec (hcapacity : capacity < 2 ^ 34) {cnt : Int} {pipe pipe' : Nat}
    {result : SysResult} (haligned : wordSize ∣ pipe) (hcnt : 0 ≤ cnt)
    (hfits : wordSize * cnt + pipe ≤ capacity) (hread : pipeRead pipe result = some pipe') :
    let phase := eventPipeReadall cnt result
    phase.Holds capacity pipe' ∧ phase.critical = true ∧ phase.posted = 0 ∧
      phase.counted + (pipe' / wordSize : Nat) = cnt + (pipe / wordSize : Nat) ∧
      wordSize ∣ pipe' ∧ pipe' ≤ pipe ∧ ((∃ cnt', phase = .reading cnt') ∨ pipe' = 0) := by
  cases result with
  | error errno =>
    cases errno with
    | eintr =>
      cases hread
      exact ⟨⟨hcnt, hfits⟩, rfl, rfl, rfl, haligned, Nat.le_refl _, .inl ⟨cnt, rfl⟩⟩
    | eagain =>
      simp only [pipeRead, Option.ite_none_right_eq_some, Option.some.injEq] at hread
      obtain ⟨rfl, rfl⟩ := hread
      exact ⟨hcnt, rfl, rfl, rfl, haligned, Nat.le_refl _, .inr rfl⟩
    | other => cases hread
  | bytes n =>
    simp only [pipeRead, Option.ite_none_right_eq_some, Option.some.injEq] at hread
    obtain ⟨⟨hpipe, hn⟩, rfl⟩ := hread
    have hn' : n = min pipe 1024 := hn
    have hwords : 8 ∣ pipe := haligned
    have hfits' : 8 * cnt + pipe ≤ capacity := hfits
    have hfew : i32 (cnt + (n / 8 : Nat)) = cnt + (n / 8 : Nat) :=
      i32_of_lt (by omega) (by omega)
    have hint : i32 (cnt + (n / wordSize : Nat)) = cnt + (n / 8 : Nat) := hfew
    have hrest : 8 ∣ pipe - n := by omega
    have hcount : cnt + (n / 8 : Nat) + ((pipe - n) / 8 : Nat) = cnt + (pipe / 8 : Nat) := by
      omega
    unfold eventPipeReadall
    simp only [hint]
    rw [if_neg (by omega)]
    split_ifs with hshort
    · have hshort' : n < 1024 := hshort
      refine ⟨?_, rfl, rfl, hcount, hrest, Nat.sub_le _ _, .inr (by omega)⟩
      show (0 : Int) ≤ cnt + (n / 8 : Nat)
      omega
    · refine ⟨⟨by omega, ?_⟩, rfl, rfl, hcount, hrest, Nat.sub_le _ _, .inl ⟨_, rfl⟩⟩
      show 8 * (cnt + (n / 8 : Nat)) + (pipe - n : Nat) ≤ (capacity : Int)
      omega

theorem Books.moves (hcapacity : capacity < 2 ^ 34) (h : Books capacity s)
    (hmoves : Moves capacity s t s') : Books capacity s' := by
  have hholds := h.phases t
  have hnobody : s.mtx = none → ∀ u, u ≠ t → (s.phase u).critical = true → some t = some u := by
    intro hmtx u _ hcritical
    have hheld := h.held u hcritical
    rw [hmtx] at hheld
    cases hheld
  have hothers : (s.phase t).critical = true →
      ∀ u, u ≠ t → (s.phase u).critical = true → none = some u := by
    intro hcritical u hne hu
    rw [h.alone hcritical hne] at hu
    cases hu
  cases hmoves with
  | wakeLock hphase hmtx =>
    exact h.move rfl (fun _ => rfl) (hnobody hmtx) (.inl rfl) h.fits h.aligned
      (by simp [hphase, Phase.counted, Phase.posted])
  | write hphase hwrite =>
    rw [hphase] at hholds
    obtain rfl : _ = wordSize := hholds
    obtain ⟨hnext, hcritical, hcounted, hposted, haligned, hfits⟩ :=
      writen_spec h.fits h.aligned hwrite
    refine h.move hnext (fun _ => h.held t (by rw [hphase]; rfl)) (fun u _ => h.held u)
      (.inr (by rw [hphase]; rfl)) hfits haligned ?_
    have hbefore : (s.phase t).counted = 0 ∧ (s.phase t).posted = 0 := by
      rw [hphase]
      exact ⟨rfl, rfl⟩
    simp only [State.goto_cleared, State.goto_woken]
    omega
  | wakeUnlock hphase =>
    rw [hphase] at hholds
    exact h.move hholds nofun (hothers (by rw [hphase]; rfl)) (.inl rfl) h.fits h.aligned
      (by simp [hphase, Phase.counted, Phase.posted])
  | wakeReturn hphase =>
    refine h.move trivial nofun (fun u _ => h.held u) (.inl rfl) h.fits h.aligned ?_
    simp only [hphase, Phase.counted, Phase.posted, State.goto_cleared, State.goto_pipe]
    split_ifs
    · omega
    · omega
  | clearLock hphase hmtx =>
    have hnone : (wordSize : Int) * 0 + s.pipe ≤ capacity := by
      have hfits := h.fits
      omega
    exact h.move ⟨Int.le_refl 0, hnone⟩ (fun _ => rfl) (hnobody hmtx) (.inl rfl) h.fits
      h.aligned (by simp [hphase, Phase.counted, Phase.posted])
  | read hphase hread =>
    rename_i cnt pipe result
    rw [hphase] at hholds
    obtain ⟨hnext, hcritical, hposted, hcounted, haligned, hle, _⟩ :=
      readall_spec hcapacity h.aligned hholds.1 hholds.2 hread
    have hfits := h.fits
    refine h.move hnext (fun _ => h.held t (by rw [hphase]; rfl)) (fun u _ => h.held u)
      (.inr (by rw [hphase]; rfl)) (by omega) haligned ?_
    have hbefore : (s.phase t).counted = cnt ∧ (s.phase t).posted = 0 := by
      rw [hphase]
      exact ⟨rfl, rfl⟩
    simp only [State.goto_cleared, State.goto_woken]
    omega
  | clearUnlock hphase =>
    rw [hphase] at hholds
    exact h.move hholds nofun (hothers (by rw [hphase]; rfl)) (.inl rfl) h.fits h.aligned
      (by simp [hphase, Phase.counted, Phase.posted])
  | clearReturn hphase =>
    rw [hphase] at hholds
    refine h.move trivial nofun (fun u _ => h.held u) (.inl rfl) h.fits h.aligned ?_
    rw [if_pos (show (0 : Int) ≤ _ from hholds)]
    simp only [hphase, Phase.counted, Phase.posted, State.goto_woken, State.goto_pipe]
    omega

theorem Books.step (hcapacity : capacity < 2 ^ 34) (h : Books capacity s) {op : Op τ}
    (hstep : step capacity s op = some s') : Books capacity s' := by
  rcases step_cases hstep with ⟨t, _, hphase, rfl⟩ | ⟨t, _, hphase, rfl⟩ | ⟨t, hmoves⟩
  · exact h.move trivial nofun (fun u _ => h.held u) (.inl rfl) h.fits h.aligned
      (by simp [hphase, Phase.counted, Phase.posted])
  · exact h.move trivial nofun (fun u _ => h.held u) (.inl rfl) h.fits h.aligned
      (by simp [hphase, Phase.counted, Phase.posted])
  · exact h.moves hcapacity hmoves

/-! ## Clearing up without wakeups -/

/-- The thread is in a call of `event_pipe_wakeup`. -/
def Phase.waking : Phase → Bool
  | .wakeLock => true
  | .writing _ => true
  | .wakeUnlock _ => true
  | .wakeReturn _ => true
  | _ => false

/-- The thread is done with reading. -/
def Phase.doneReading : Phase → Bool
  | .idle => true
  | .clearUnlock _ => true
  | .clearReturn _ => true
  | _ => false

theorem readall_waking (cnt : Int) (result : SysResult) :
    (eventPipeReadall cnt result).waking = false := by
  unfold eventPipeReadall
  split
  · rfl
  · rfl
  · rfl
  · split_ifs <;> rfl

/-- No thread wakes up the pipe, and it is empty once the thread `t` is done with reading. -/
structure Quiet (s : State τ) (t : τ) : Prop where
  calm : ∀ u, (s.phase u).waking = false
  empty : (s.phase t).doneReading = true → s.pipe = 0

omit [Fintype τ] in
/-- A thread that gets to another place keeps the pipe quiet, if it does not start to wake it up and
the pipe is empty when `t` is done. -/
theorem Quiet.move (h : Quiet s t) {u : τ} {phase : Phase} {mtx : Option τ} {pipe : Nat}
    {cleared : Int} {woken : Nat} (hcalm : phase.waking = false)
    (hpipe : pipe ≤ s.pipe)
    (hdone : phase.doneReading = true → (s.phase u).doneReading = true ∨ pipe = 0) :
    Quiet ⟨mtx, pipe, (s.goto u phase).phase, cleared, woken⟩ t := by
  refine ⟨fun v => ?_, fun hempty => ?_⟩
  · by_cases hne : v = u
    · subst hne
      simpa only [State.goto_self] using hcalm
    · simpa only [s.goto_other phase hne] using h.calm v
  · by_cases hne : t = u
    · subst hne
      simp only [State.goto_self] at hempty
      rcases hdone hempty with hbefore | hzero
      · have hzero := h.empty hbefore
        show pipe = 0
        omega
      · exact hzero
    · simp only [s.goto_other phase hne] at hempty
      have hzero := h.empty hempty
      show pipe = 0
      omega

theorem Quiet.step (hcapacity : capacity < 2 ^ 34) (hbooks : Books capacity s) (h : Quiet s t)
    {op : Op τ} (hop : ∀ u, op ≠ .wakeup u) (hstep : step capacity s op = some s') :
    Quiet s' t := by
  rcases step_cases hstep with ⟨u, rfl, _⟩ | ⟨u, _, _, rfl⟩ | ⟨u, hmoves⟩
  · exact absurd rfl (hop u)
  · exact h.move rfl (Nat.le_refl _) nofun
  have hcalm := h.calm u
  have hholds := hbooks.phases u
  cases hmoves with
  | wakeLock hphase _ | write hphase _ | wakeUnlock hphase | wakeReturn hphase =>
    rw [hphase] at hcalm
    cases hcalm
  | clearLock hphase _ => exact h.move rfl (Nat.le_refl _) nofun
  | read hphase hread =>
    rw [hphase] at hholds
    obtain ⟨_, _, _, _, _, hle, hends⟩ :=
      readall_spec hcapacity hbooks.aligned hholds.1 hholds.2 hread
    refine h.move (readall_waking _ _) hle fun hdone => .inr ?_
    rcases hends with ⟨cnt, hreading⟩ | hzero
    · rw [hreading] at hdone
      cases hdone
    · exact hzero
  | clearUnlock hphase => exact h.move rfl (Nat.le_refl _) fun _ => .inl (by rw [hphase]; rfl)
  | clearReturn hphase => exact h.move rfl (Nat.le_refl _) fun _ => .inl (by rw [hphase]; rfl)

/-! ## Every interleaving -/

variable (capacity) in
/-- The state after the first operations of a schedule. -/
def stateAt (ops : Nat → Op τ) (n : Nat) : State τ :=
  (threads capacity).stateAt .init ops n

theorem books_stateAt (hcapacity : capacity < 2 ^ 34) (ops : Nat → Op τ) (n : Nat) :
    Books capacity (stateAt capacity ops n) :=
  Threads.stays (fun _ _ _ h hstep => h.step hcapacity hstep)
    (show Books capacity (stateAt capacity ops 0) from books_init capacity) (Nat.zero_le n)

theorem quiet_stateAt (hcapacity : capacity < 2 ^ 34) (ops : Nat → Op τ) {n m : Nat} (hle : n ≤ m)
    (hops : ∀ k, n ≤ k → k < m → ∀ u, ops k ≠ .wakeup u)
    (h : Quiet (stateAt capacity ops n) t) : Quiet (stateAt capacity ops m) t := by
  induction m, hle using Nat.le_induction with
  | base => exact h
  | succ m hle ih =>
    have hbefore := ih fun k hnk hkm => hops k hnk (Nat.lt_succ_of_lt hkm)
    rcases (threads capacity).stateAt_succ_cases .init ops m with hsame | hstep
    · rw [stateAt, hsame]
      exact hbefore
    · exact hbefore.step hcapacity (books_stateAt hcapacity ops m)
        (hops m hle (Nat.lt_succ_self m)) hstep

/-- For every schedule of any number of threads: whenever no call is going on, the non-negative
results of `event_pipe_clearup` and an eighth of the bytes in the pipe add up to the number of calls
of `event_pipe_wakeup` that returned 0. A call of `event_pipe_clearup` during which there is no
call of `event_pipe_wakeup` leaves the pipe empty. -/
theorem counts_wakeups (hcapacity : capacity < 2 ^ 34) (ops : Nat → Op τ) :
    (∀ n, (∀ t, (stateAt capacity ops n).phase t = .idle) →
      wordSize ∣ (stateAt capacity ops n).pipe ∧
        (stateAt capacity ops n).cleared + ((stateAt capacity ops n).pipe / wordSize : Nat) =
          (stateAt capacity ops n).woken) ∧
    ∀ t n m, n ≤ m → (stateAt capacity ops n).phase t = .clearLock →
      (∀ u, ((stateAt capacity ops n).phase u).waking = false) →
      (∀ k, n ≤ k → k < m → ∀ u, ops k ≠ .wakeup u) →
      (stateAt capacity ops m).phase t = .idle → (stateAt capacity ops m).pipe = 0 := by
  constructor
  · intro n hidle
    have hbooks := books_stateAt hcapacity ops n
    have hbalance := hbooks.balance
    simp only [hidle, Phase.counted, Phase.posted, Finset.sum_const_zero, add_zero] at hbalance
    exact ⟨hbooks.aligned, hbalance⟩
  · intro t n m hle hcall hcalm hops hreturned
    have hstart : Quiet (stateAt capacity ops n) t :=
      ⟨hcalm, fun hdone => by rw [hcall] at hdone; cases hdone⟩
    have hquiet := quiet_stateAt hcapacity ops hle hops hstart
    exact hquiet.empty (by rw [hreturned]; rfl)

end Books

/-- Two threads wake up the pipe, the second one after an interrupted write, a third write finds
the pipe full, and the first thread clears it up. -/
def threeWakeups : List (Op (Fin 2)) :=
  [.wakeup 0, .wakeup 1, .go 0 (.bytes 0), .go 0 (.bytes 8), .go 0 (.bytes 0), .go 1 (.bytes 0),
    .go 1 (.error .eintr), .go 0 (.bytes 0), .go 1 (.bytes 8), .go 1 (.bytes 0), .go 1 (.bytes 0),
    .wakeup 1, .go 1 (.bytes 0), .go 1 (.error .eagain), .go 1 (.bytes 0), .go 1 (.bytes 0),
    .clearup 0, .go 0 (.bytes 0), .go 0 (.error .eintr), .go 0 (.bytes 16), .go 0 (.bytes 0),
    .go 0 (.bytes 0)]

/-- The schedule of these operations. -/
def threeWakeupsAt (n : Nat) : Op (Fin 2) :=
  threeWakeups.getD n (.go 0 (.bytes 0))

/-- Before the clearup two wakeups are in the pipe, and after it the pipe is empty. -/
theorem counts_wakeups_three :
    (stateAt 65536 threeWakeupsAt 16).cleared + ((stateAt 65536 threeWakeupsAt 16).pipe / 8 : Nat) =
        (stateAt 65536 threeWakeupsAt 16).woken ∧
      (stateAt 65536 threeWakeupsAt 16).woken = 2 ∧
      (stateAt 65536 threeWakeupsAt 22).pipe = 0 := by
  have hcounts := counts_wakeups (show 65536 < 2 ^ 34 by decide) threeWakeupsAt
  refine ⟨(hcounts.1 16 (by decide)).2, by decide, ?_⟩
  exact hcounts.2 0 17 22 (by decide) (by decide) (by decide) (by decide) (by decide +kernel)

end HakunaMatata.EventLoop.EventPipe
