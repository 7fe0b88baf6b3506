import Mathlib.Algebra.BigOperators.Fin
import HakunaMatata.Base.Threads

/-!
# The producers and the consumer of `use_select_eventfd.c`

Sixteen producers put messages into a queue under a mutex and write to the eventfd of an event loop,
whose wakeup callback takes the messages out until it has 512. `main` runs the loop, joins the
producers, and takes out what is left. Each thread is where it is in its code, and one operation is
one step of a thread: a lock, an unlock, a call of the queue or of the eventfd. The mutex is not
recursive. The list of contexts of the loop is empty, and its timeout is not set.

The lists `enqueued` and `received` and the number `failures` are not in the source: they say which
messages the queue took, which were taken out, and how often it took none.
-/

namespace HakunaMatata.EventLoop

open Base

/-- `PRODUCER_NUM`. -/
def producerNum : Nat := 16

/-- `message_t`. -/
structure Message where
  threadIdx : Fin producerNum
  msgIdx : Nat
  deriving DecidableEq, Repr

/-- Where a producer is in `producer_routine`: at the sleep, at the lock, between the lock and the
call of the queue, before the unlock, before the wakeup, at the test of `completed`. -/
inductive Phase where
  | notCreated
  | sleeping
  | atLock
  | locked
  | enqueued
  | unlocked
  | checking
  | finished
  deriving DecidableEq, Repr

/-- A producer, with its local `msg_idx` and with `cnt` of its `thread_args_t`. -/
structure Producer where
  phase : Phase
  msgIdx : Nat
  cnt : Nat
  deriving DecidableEq, Repr

/-- Where `main` is: at the creation of a producer, in `select`, in `on_wakeup` at the lock, in its
loop or before the unlock, then behind the loop. -/
inductive MainPhase where
  | creating (i : Nat)
  | selecting
  | atLock
  | receiving
  | unlocking
  | completing
  | joining (i : Nat)
  | exhausting
  | printed
  deriving DecidableEq, Repr

/-- The threads. -/
inductive Thread where
  | main
  | producer (p : Fin producerNum)
  deriving DecidableEq, Repr

/-- What the threads share. A write to the eventfd makes it `readable`. -/
structure State where
  producers : Fin producerNum → Producer
  main : MainPhase
  mutex : Option Thread
  queue : List Message
  readable : Bool
  exit : Bool
  completed : Bool
  cnt : Nat
  totalSend : Nat
  enqueued : List Message
  received : List Message
  failures : Nat

/-- Before the first producer is created. -/
def State.init : State where
  producers := fun _ => ⟨.notCreated, 0, 0⟩
  main := .creating 0
  mutex := none
  queue := []
  readable := false
  exit := false
  completed := false
  cnt := 0
  totalSend := 0
  enqueued := []
  received := []
  failures := 0

namespace State

/-- Write to a producer. -/
def setProducer (s : State) (p : Fin producerNum) (producer : Producer) : State :=
  { s with producers := Function.update s.producers p producer }

/-- The producer goes on to another place. -/
def goto (s : State) (p : Fin producerNum) (phase : Phase) : State :=
  s.setProducer p { s.producers p with phase := phase }

end State

/-! ## `producer_routine` -/

/-- The allocation of a message, which counts it. -/
def prepare (s : State) (p : Fin producerNum) : State :=
  s.setProducer p
    { s.producers p with phase := .atLock, msgIdx := (s.producers p).msgIdx + 1 }

/-- `muggle_mutex_lock`. -/
def lock (s : State) (p : Fin producerNum) : State :=
  { s.goto p .locked with mutex := some (.producer p) }

/-- `muggle_queue_enqueue`. -/
def enqueue (s : State) (p : Fin producerNum) : State :=
  { s.goto p .enqueued with
    queue := s.queue ++ [⟨p, (s.producers p).msgIdx⟩]
    enqueued := s.enqueued ++ [⟨p, (s.producers p).msgIdx⟩] }

/-- `muggle_queue_enqueue` returns `NULL`: `continue` goes to the test of the loop. -/
def enqueueFails (s : State) (p : Fin producerNum) : State :=
  { s.goto p .checking with failures := s.failures + 1 }

/-- `muggle_mutex_unlock`. -/
def unlock (s : State) (p : Fin producerNum) : State :=
  { s.goto p .unlocked with mutex := none }

/-- `evloop_wakeup`. -/
def wakeup (s : State) (p : Fin producerNum) : State :=
  { s.goto p .checking with readable := true }

/-- The test of the loop, and the assignment behind it. -/
def check (s : State) (p : Fin producerNum) : State :=
  if s.completed then
    s.setProducer p { s.producers p with phase := .finished, cnt := (s.producers p).msgIdx }
  else s.goto p .sleeping

/-- `producer_routine`. The flag says whether a call of the queue fails. -/
def producerStep (s : State) (p : Fin producerNum) (fails : Bool) : Option State :=
  match (s.producers p).phase with
  | .notCreated => none
  | .sleeping => some (prepare s p)
  | .atLock => if s.mutex = none then some (lock s p) else none
  | .locked => some (if fails then enqueueFails s p else enqueue s p)
  | .enqueued => some (unlock s p)
  | .unlocked => some (wakeup s p)
  | .checking => some (check s p)
  | .finished => none

/-! ## `main`, `evloop_run` and `on_wakeup` -/

/-- `muggle_thread_create`. -/
def create (s : State) (i : Nat) : State :=
  if h : i < producerNum then
    { s.setProducer ⟨i, h⟩ ⟨.sleeping, 0, 0⟩ with main := .creating (i + 1) }
  else { s with main := .selecting }

/-- `select`, and the read of the eventfd. A failed call leaves the loop. -/
def select (s : State) (fails : Bool) : Option State :=
  if fails then some { s with exit := true, main := .completing }
  else if s.readable then some { s with readable := false, main := .atLock }
  else none

/-- `muggle_queue_dequeue` with the count, in `on_wakeup` and at the end of `main`. -/
def dequeue (s : State) : State :=
  { s with
    queue := s.queue.tail
    cnt := s.cnt + 1
    received := s.received ++ s.queue.head?.toList }

/-- A round of the loop of `on_wakeup`. -/
def receive (s : State) : State :=
  if s.queue = [] then { s with main := .unlocking }
  else if s.cnt + 1 ≥ 512 then { dequeue s with exit := true, main := .unlocking }
  else dequeue s

/-- `muggle_thread_join`, with the sum. -/
def join (s : State) (i : Nat) : Option State :=
  if h : i < producerNum then
    if (s.producers ⟨i, h⟩).phase = .finished then
      some { s with
        totalSend := s.totalSend + (s.producers ⟨i, h⟩).cnt
        main := .joining (i + 1) }
    else none
  else some { s with main := .exhausting }

/-- A round of the last loop. -/
def exhaust (s : State) : State :=
  if s.queue = [] then { s with main := .printed } else dequeue s

/-- `main`. The flag says whether a call of `select` fails. -/
def mainStep (s : State) (fails : Bool) : Option State :=
  match s.main with
  | .creating i => some (create s i)
  | .selecting => select s fails
  | .atLock =>
    if s.mutex = none then some { s with mutex := some .main, main := .receiving } else none
  | .receiving => some (receive s)
  | .unlocking =>
    some { s with mutex := none, main := if s.exit then .completing else .selecting }
  | .completing => some { s with completed := true, main := .joining 0 }
  | .joining i => join s i
  | .exhausting => some (exhaust s)
  | .printed => none

/-- A step of a thread. -/
inductive Op where
  | main (fails : Bool)
  | producer (p : Fin producerNum) (fails : Bool)
  deriving DecidableEq, Repr

/-- The thread that makes the step. -/
def Op.thread : Op → Thread
  | .main _ => .main
  | .producer p _ => .producer p

/-- The step. -/
def step (s : State) : Op → Option State
  | .main fails => mainStep s fails
  | .producer p fails => producerStep s p fails

/-- The step of a thread in which no call fails. -/
def Thread.op : Thread → Op
  | .main => .main false
  | .producer p => .producer p false

/-- The process. A thread is ready if it does not wait: `select` is not expected to fail. -/
def process : Threads State Op Thread where
  step := step
  thread := Op.thread
  Ready s t := (step s t.op).isSome = true

/-! ## The steps -/

section Steps

variable {s s' : State} {p q : Fin producerNum} {fails : Bool}

@[simp] theorem setProducer_same (producer : Producer) :
    (s.setProducer p producer).producers p = producer := by
  simp [State.setProducer]

theorem setProducer_other (producer : Producer) (h : q ≠ p) :
    (s.setProducer p producer).producers q = s.producers q := by
  simp [State.setProducer, h]

/-- The steps of a producer. -/
inductive ProducerMoves (s : State) (p : Fin producerNum) : State → Prop
  | prepare (hphase : (s.producers p).phase = .sleeping) : ProducerMoves s p (prepare s p)
  | lock (hphase : (s.producers p).phase = .atLock) (hfree : s.mutex = none) :
      ProducerMoves s p (lock s p)
  | enqueueFails (hphase : (s.producers p).phase = .locked) : ProducerMoves s p (enqueueFails s p)
  | enqueue (hphase : (s.producers p).phase = .locked) : ProducerMoves s p (enqueue s p)
  | unlock (hphase : (s.producers p).phase = .enqueued) : ProducerMoves s p (unlock s p)
  | wakeup (hphase : (s.producers p).phase = .unlocked) : ProducerMoves s p (wakeup s p)
  | check (hphase : (s.producers p).phase = .checking) : ProducerMoves s p (check s p)

theorem producerMoves_of_step (h : producerStep s p fails = some s') : ProducerMoves s p s' := by
  unfold producerStep at h
  split at h
  · cases h
  · cases h
    exact .prepare ‹_›
  · obtain ⟨hfree, hs'⟩ := Option.ite_none_right_eq_some.mp h
    cases hs'
    exact .lock ‹_› hfree
  · cases h
    split
    · exact .enqueueFails ‹_›
    · exact .enqueue ‹_›
  · cases h
    exact .unlock ‹_›
  · cases h
    exact .wakeup ‹_›
  · cases h
    exact .check ‹_›
  · cases h

/-- The steps of `main`. -/
inductive MainMoves (s : State) : State → Prop
  | create (i : Nat) (hi : i < producerNum) (hmain : s.main = .creating i) :
      MainMoves s { s.setProducer ⟨i, hi⟩ ⟨.sleeping, 0, 0⟩ with main := .creating (i + 1) }
  | created (i : Nat) (hi : producerNum ≤ i) (hmain : s.main = .creating i) :
      MainMoves s { s with main := .selecting }
  | selectFails (hmain : s.main = .selecting) :
      MainMoves s { s with exit := true, main := .completing }
  | wake (hmain : s.main = .selecting) : MainMoves s { s with readable := false, main := .atLock }
  | lock (hmain : s.main = .atLock) (hfree : s.mutex = none) :
      MainMoves s { s with mutex := some .main, main := .receiving }
  | receive (hmain : s.main = .receiving) : MainMoves s (receive s)
  | unlock (hmain : s.main = .unlocking) :
      MainMoves s { s with mutex := none, main := if s.exit then .completing else .selecting }
  | complete (hmain : s.main = .completing) :
      MainMoves s { s with completed := true, main := .joining 0 }
  | join (i : Nat) (hi : i < producerNum) (hmain : s.main = .joining i)
      (hfinished : (s.producers ⟨i, hi⟩).phase = .finished) :
      MainMoves s { s with
        totalSend := s.totalSend + (s.producers ⟨i, hi⟩).cnt
        main := .joining (i + 1) }
  | joined (i : Nat) (hi : producerNum ≤ i) (hmain : s.main = .joining i) :
      MainMoves s { s with main := .exhausting }
  | exhaust (hmain : s.main = .exhausting) : MainMoves s (exhaust s)

theorem mainMoves_of_create {i : Nat} (hmain : s.main = .creating i) :
    MainMoves s (create s i) := by
  unfold create
  split
  · exact .create i ‹_› hmain
  · exact .created i (Nat.le_of_not_lt ‹_›) hmain

theorem mainMoves_of_select (hmain : s.main = .selecting) (h : select s fails = some s') :
    MainMoves s s' := by
  unfold select at h
  split at h
  · cases h
    exact .selectFails hmain
  · obtain ⟨_, hs'⟩ := Option.ite_none_right_eq_some.mp h
    cases hs'
    exact .wake hmain

theorem mainMoves_of_join {i : Nat} (hmain : s.main = .joining i) (h : join s i = some s') :
    MainMoves s s' := by
  unfold join at h
  split at h
  · obtain ⟨hfinished, hs'⟩ := Option.ite_none_right_eq_some.mp h
    cases hs'
    exact .join i ‹_› hmain hfinished
  · cases h
    exact .joined i (Nat.le_of_not_lt ‹_›) hmain

theorem mainMoves_of_step (h : mainStep s fails = some s') : MainMoves s s' := by
  unfold mainStep at h
  split at h
  · cases h
    exact mainMoves_of_create ‹_›
  · exact mainMoves_of_select ‹_› h
  · obtain ⟨hfree, hs'⟩ := Option.ite_none_right_eq_some.mp h
    cases hs'
    exact .lock ‹_› hfree
  · cases h
    exact .receive ‹_›
  · cases h
    exact .unlock ‹_›
  · cases h
    exact .complete ‹_›
  · exact mainMoves_of_join ‹_› h
  · cases h
    exact .exhaust ‹_›
  · cases h

/-- What a step of a producer leaves alone. -/
structure Frame (s : State) (p : Fin producerNum) (s' : State) : Prop where
  main : s'.main = s.main
  completed : s'.completed = s.completed
  totalSend : s'.totalSend = s.totalSend
  cnt : s'.cnt = s.cnt
  received : s'.received = s.received
  other : ∀ q, q ≠ p → s'.producers q = s.producers q

theorem Frame.forall_producers {P : Producer → Prop} (h : Frame s p s') (hp : P (s'.producers p))
    (hall : ∀ q, P (s.producers q)) (q : Fin producerNum) : P (s'.producers q) := by
  rcases eq_or_ne q p with rfl | hne
  · exact hp
  · rw [h.other q hne]
    exact hall q

theorem ProducerMoves.frame (h : ProducerMoves s p s') : Frame s p s' := by
  cases h with
  | check _ =>
    unfold EventLoop.check
    split <;> exact ⟨rfl, rfl, rfl, rfl, rfl, fun q hq => setProducer_other _ hq⟩
  | _ => exact ⟨rfl, rfl, rfl, rfl, rfl, fun q hq => setProducer_other _ hq⟩

theorem ProducerMoves.phase (h : ProducerMoves s p s') :
    (s.producers p).phase ≠ .notCreated ∧ (s.producers p).phase ≠ .finished ∧
      (s'.producers p).phase ≠ .notCreated ∧
      ((s'.producers p).phase = .finished →
        s.completed = true ∧ (s'.producers p).cnt = (s'.producers p).msgIdx) := by
  cases h with
  | check hphase =>
    unfold EventLoop.check
    split <;> simp_all [State.goto]
  | prepare hphase => simp [hphase, EventLoop.prepare]
  | lock hphase _ => simp [hphase, EventLoop.lock, State.goto]
  | enqueueFails hphase => simp [hphase, EventLoop.enqueueFails, State.goto]
  | enqueue hphase => simp [hphase, EventLoop.enqueue, State.goto]
  | unlock hphase => simp [hphase, EventLoop.unlock, State.goto]
  | wakeup hphase => simp [hphase, EventLoop.wakeup, State.goto]

end Steps

end HakunaMatata.EventLoop
