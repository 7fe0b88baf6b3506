import HakunaMatata.EventLoop.Progress

/-!
# The loop of `evloop_epoll.c`

`use_epoll_eventfd.c` has the producers, the callback and `main` of `use_select_eventfd.c`, but its
loop waits in `epoll_wait`, and the eventfd is registered with `EPOLLIN | EPOLLET`. So `epoll_wait`
does not return because the eventfd is readable; it returns because there was a write to it since
it was last reported. The report and the read of the eventfd are two steps, between which producers
can write. Every step is one of the loop with `select`, or leaves the state that both have alone, so
that what is known of the messages carries over (`EdgeInv`). What is new is that no write to the
eventfd is missed: read `leaves_epollWait` first. The calls that can fail are `enqueue` and
`epoll_wait`; the writes to the eventfd and the reads from it are taken to succeed.
-/

namespace HakunaMatata.EventLoop

open Base

/-- The state of the threads, whether there was a write to the eventfd since it was last reported,
and whether `evloop_run` is between `epoll_wait` and the read of the eventfd. -/
structure Epoll where
  base : State
  edge : Bool
  reported : Bool

/-- Before the first producer is created. -/
def Epoll.init : Epoll := ⟨.init, false, false⟩

/-- `epoll_wait`. A failed call leaves the loop. -/
def epollWait (e : Epoll) (fails : Bool) : Option Epoll :=
  if fails then some { e with base := { e.base with exit := true, main := .completing } }
  else if e.edge && e.base.readable then some { e with edge := false, reported := true }
  else none

/-- The read of the eventfd. If there is nothing to read, `evloop_run` writes a message to the log
and calls the callback just as well. -/
def readEventfd (e : Epoll) : Epoll :=
  { e with base := { e.base with readable := false, main := .atLock }, reported := false }

/-- `main`. The flag says whether a call of `epoll_wait` fails. -/
def Epoll.mainStep (e : Epoll) (fails : Bool) : Option Epoll :=
  if e.base.main = .selecting then
    if e.reported then some (readEventfd e) else epollWait e fails
  else (EventLoop.mainStep e.base fails).map fun s => { e with base := s }

/-- `producer_routine`. Its write to the eventfd is an edge, also if the eventfd is readable. -/
def Epoll.producerStep (e : Epoll) (p : Fin producerNum) (fails : Bool) : Option Epoll :=
  (EventLoop.producerStep e.base p fails).map fun s =>
    { e with base := s, edge := e.edge || (e.base.producers p).phase = .unlocked }

/-- The step. -/
def Epoll.step (e : Epoll) : Op → Option Epoll
  | .main fails => e.mainStep fails
  | .producer p fails => e.producerStep p fails

/-- The process. -/
def epollProcess : Threads Epoll Op Thread where
  step := Epoll.step
  thread := Op.thread
  Ready e t := (e.step t.op).isSome = true

/-- The state after the first steps of the schedule. -/
abbrev epollAfter (ops : Nat → Op) (n : Nat) : Epoll :=
  epollProcess.stateAt Epoll.init ops n

/-! ## The steps -/

section Steps

variable {s s' : State} {e e' : Epoll} {p q : Fin producerNum} {op : Op} {fails : Bool}

/-- The steps of the threads. -/
inductive EpollMoves (e : Epoll) : Op → Epoll → Prop
  | producer (p : Fin producerNum) (fails : Bool) (s : State)
      (hstep : EventLoop.producerStep e.base p fails = some s) :
      EpollMoves e (.producer p fails)
        { e with base := s, edge := e.edge || (e.base.producers p).phase = .unlocked }
  | fails (hmain : e.base.main = .selecting) (hreported : e.reported = false) :
      EpollMoves e (.main true) { e with base := { e.base with exit := true, main := .completing } }
  | report (hmain : e.base.main = .selecting) (hreported : e.reported = false)
      (hedge : e.edge = true) (hreadable : e.base.readable = true) :
      EpollMoves e (.main false) { e with edge := false, reported := true }
  | read (fails : Bool) (hmain : e.base.main = .selecting) (hreported : e.reported = true) :
      EpollMoves e (.main fails) (readEventfd e)
  | main (fails : Bool) (s : State) (hmain : e.base.main ≠ .selecting)
      (hstep : EventLoop.mainStep e.base fails = some s) :
      EpollMoves e (.main fails) { e with base := s }

theorem epollMoves_of_step (h : e.step op = some e') : EpollMoves e op e' := by
  cases op with
  | producer p fails =>
    obtain ⟨s, hs, rfl⟩ := Option.map_eq_some_iff.mp h
    exact .producer p fails s hs
  | main fails =>
    change e.mainStep fails = some e' at h
    unfold Epoll.mainStep at h
    split at h
    · rename_i hmain
      split at h
      · cases h
        exact .read fails hmain ‹_›
      · have hreported : e.reported = false := Bool.eq_false_iff.mpr ‹_›
        unfold epollWait at h
        split at h
        · rename_i hfails
          cases h
          subst hfails
          exact .fails hmain hreported
        · rename_i hfails
          obtain ⟨hboth, he'⟩ := Option.ite_none_right_eq_some.mp h
          cases he'
          obtain ⟨hedge, hreadable⟩ := Bool.and_eq_true_iff.mp hboth
          rw [Bool.eq_false_iff.mpr hfails]
          exact .report hmain hreported hedge hreadable
    · obtain ⟨s, hs, rfl⟩ := Option.map_eq_some_iff.mp h
      exact .main fails s ‹_› hs

/-! ## No write is missed -/

/-- The producer is between its call of the queue and its write to the eventfd. -/
def State.announcing (s : State) (p : Fin producerNum) : Prop :=
  (s.producers p).phase = .enqueued ∨ (s.producers p).phase = .unlocked

/-- `main` is not in the callback and the loop goes on. -/
def State.idle (s : State) : Prop :=
  (∃ i, s.main = .creating i) ∨ s.main = .selecting ∨ s.main = .unlocking ∧ s.exit = false

/-- The messages that nobody is about to take out were announced, or will be. -/
def Announced (s : State) : Prop :=
  s.idle → s.queue ≠ [] → s.readable = true ∨ ∃ p, s.announcing p

/-- A producer that is not between the queue and the eventfd changes neither of them. -/
theorem ProducerMoves.announced (h : ProducerMoves s p s') :
    s'.announcing p ∨ s'.readable = true ∨
      ¬ s.announcing p ∧ s'.queue = s.queue ∧ s'.readable = s.readable := by
  cases h with
  | prepare hphase | lock hphase _ | enqueueFails hphase =>
    exact .inr (.inr ⟨by simp [State.announcing, hphase], rfl, rfl⟩)
  | enqueue hphase =>
    exact .inl (.inl (by simp [EventLoop.enqueue, State.goto]))
  | unlock hphase =>
    exact .inl (.inr (by simp [EventLoop.unlock, State.goto]))
  | wakeup hphase => exact .inr (.inl rfl)
  | check hphase =>
    refine .inr (.inr ⟨by simp [State.announcing, hphase], ?_⟩)
    unfold EventLoop.check
    split <;> exact ⟨rfl, rfl⟩

theorem ProducerMoves.loop (h : ProducerMoves s p s') :
    s'.exit = s.exit ∧ (s'.readable = s.readable ∨
      (s.producers p).phase = .unlocked ∧ s'.readable = true) := by
  cases h with
  | wakeup hphase => exact ⟨rfl, .inr ⟨hphase, rfl⟩⟩
  | check hphase =>
    unfold EventLoop.check
    split <;> exact ⟨rfl, .inl rfl⟩
  | _ => exact ⟨rfl, .inl rfl⟩

theorem Announced.producer (h : Announced s) (hmoves : ProducerMoves s p s') : Announced s' := by
  intro hidle hqueue
  have hframe := hmoves.frame
  rcases hmoves.announced with hp | hreadable | ⟨hnot, hsame, hreadable⟩
  · exact .inr ⟨p, hp⟩
  · exact .inl hreadable
  · have hidle' : s.idle := by
      unfold State.idle at hidle ⊢
      rw [hframe.main, hmoves.loop.1] at hidle
      exact hidle
    rcases h hidle' (hsame ▸ hqueue) with hold | ⟨q, hq⟩
    · exact .inl (hreadable.trans hold)
    · -- it is not the producer that moved
      have hne : q ≠ p := fun heq => hnot (heq ▸ hq)
      refine .inr ⟨q, ?_⟩
      unfold State.announcing
      rw [hframe.other q hne]
      exact hq

theorem Announced.receive (hmain : s.main = .receiving) : Announced (receive s) := by
  intro hidle hqueue
  unfold EventLoop.receive at hidle hqueue
  split at hidle
  · rename_i hempty
    rw [if_pos hempty] at hqueue
    exact absurd hempty hqueue
  · -- after a message, `main` is in its loop or the loop has its exit flag
    split at hidle <;> simp [State.idle, dequeue, hmain] at hidle

theorem Announced.main (h : Announced s) (hinv : Inv s) (hmoves : MainMoves s s') :
    Announced s' := by
  cases hmoves with
  | create i hi hmain =>
    intro _ hqueue
    rcases h (.inl ⟨i, hmain⟩) hqueue with hreadable | ⟨q, hq⟩
    · exact .inl hreadable
    · have hne : q ≠ ⟨i, hi⟩ := by
        intro heq
        have hnot := hinv.joins.notCreated hi hmain
        rw [← heq] at hnot
        simp [State.announcing, hnot] at hq
      refine .inr ⟨q, ?_⟩
      unfold State.announcing
      rw [show ({ s.setProducer ⟨i, hi⟩ ⟨.sleeping, 0, 0⟩ with
        main := .creating (i + 1) } : State).producers q = s.producers q
        from setProducer_other _ hne]
      exact hq
  | created i hi hmain => exact fun _ hqueue => h (.inl ⟨i, hmain⟩) hqueue
  | receive hmain => exact Announced.receive hmain
  | unlock hmain =>
    intro hidle hqueue
    cases hexit : s.exit with
    | true => simp [State.idle, hexit] at hidle
    | false => exact h (.inr (.inr ⟨hmain, hexit⟩)) hqueue
  | exhaust hmain =>
    intro hidle
    unfold EventLoop.exhaust at hidle
    split at hidle <;> simp [State.idle, dequeue, hmain] at hidle
  | _ =>
    intro hidle
    simp [State.idle] at hidle

theorem MainMoves.readable_eq (h : MainMoves s s') (hmain : s.main ≠ .selecting) :
    s'.readable = s.readable := by
  cases h with
  | wake hwake => exact absurd hwake hmain
  | receive _ =>
    unfold EventLoop.receive
    split
    · rfl
    · split <;> rfl
  | exhaust _ =>
    unfold EventLoop.exhaust
    split <;> rfl
  | _ => rfl

/-- What holds in every state that the threads reach. -/
structure EdgeInv (e : Epoll) : Prop where
  base : Inv e.base
  announced : Announced e.base
  edge : e.base.readable = true → e.edge = true ∨ e.reported = true
  reported : e.reported = true → e.base.main = .selecting ∧ e.base.readable = true

theorem edgeInv_init : EdgeInv Epoll.init where
  base := inv_init
  announced := fun _ hqueue => absurd rfl hqueue
  edge := nofun
  reported := nofun

theorem EdgeInv.producer (h : EdgeInv e) (hs : EventLoop.producerStep e.base p fails = some s) :
    EdgeInv { e with base := s, edge := e.edge || (e.base.producers p).phase = .unlocked } := by
  have hmoves := producerMoves_of_step hs
  have hbase : EventLoop.step e.base (.producer p fails) = some s := hs
  refine ⟨h.base.step hbase, h.announced.producer hmoves, ?_, ?_⟩
  · intro hreadable
    rcases hmoves.loop.2 with hsame | ⟨hphase, _⟩
    · rcases h.edge (hsame ▸ hreadable) with hedge | hreported
      · left
        simp [hedge]
      · exact .inr hreported
    · left
      simp [hphase]
  · intro hreported
    obtain ⟨hmain, hreadable⟩ := h.reported hreported
    refine ⟨hmoves.frame.main.trans hmain, ?_⟩
    rcases hmoves.loop.2 with hsame | ⟨_, htrue⟩
    · exact hsame.trans hreadable
    · exact htrue

theorem EdgeInv.main (h : EdgeInv e) (hmain : e.base.main ≠ .selecting)
    (hs : EventLoop.mainStep e.base fails = some s) : EdgeInv { e with base := s } := by
  have hmoves := mainMoves_of_step hs
  have hbase : EventLoop.step e.base (.main fails) = some s := hs
  refine ⟨h.base.step hbase, h.announced.main h.base hmoves, ?_, ?_⟩
  · intro hreadable
    exact h.edge ((hmoves.readable_eq hmain).symm.trans hreadable)
  · intro hreported
    exact absurd (h.reported hreported).1 hmain

theorem EdgeInv.step (h : EdgeInv e) (hs : e.step op = some e') : EdgeInv e' := by
  cases epollMoves_of_step hs with
  | producer p fails s hbase => exact h.producer hbase
  | main fails s hmain hbase => exact h.main hmain hbase
  | fails hmain hreported =>
    have hbase : EventLoop.step e.base (.main true) =
        some { e.base with exit := true, main := .completing } := by
      rw [EventLoop.step, mainStep, hmain]
      rfl
    refine ⟨h.base.step hbase, fun hidle => ?_, h.edge, fun htrue => ?_⟩
    · simp [State.idle] at hidle
    · cases hreported.symm.trans htrue
  | report hmain hreported hedge hreadable =>
    exact ⟨h.base, h.announced, fun _ => .inr rfl, fun _ => ⟨hmain, hreadable⟩⟩
  | read fails hmain hreported =>
    -- the eventfd was readable when it was reported, and only `main` reads it
    have hbase : EventLoop.step e.base (.main false) =
        some { e.base with readable := false, main := .atLock } := by
      rw [EventLoop.step, mainStep, hmain]
      simp [select, (h.reported hreported).2]
    refine ⟨h.base.step hbase, fun hidle => ?_, fun htrue => ?_, fun htrue => ?_⟩
    · simp [State.idle, readEventfd] at hidle
    · cases htrue
    · cases htrue

theorem edgeInv_after (ops : Nat → Op) (n : Nat) : EdgeInv (epollAfter ops n) :=
  Threads.stays (T := epollProcess) (n := 0) (fun _ _ _ h hs => h.step hs) edgeInv_init
    (Nat.zero_le n)

end Steps

/-! ## Fair runs -/

section Runs

variable {e e' : Epoll} {op : Op} {ops : Nat → Op} {n m : Nat} {p : Fin producerNum}

/-- `main` is in `epoll_wait` and there is something in the queue. -/
structure Waits (e : Epoll) : Prop where
  main : e.base.main = .selecting
  reported : e.reported = false
  queue : e.base.queue ≠ []

/-- `epoll_wait` returned. -/
def Returned (e : Epoll) : Prop :=
  e.base.main ≠ .selecting ∨ e.reported = true

/-- At some time from `n` on, `epoll_wait` has returned, or `main` still waits and there is `Q`. -/
def WaitsUntil (ops : Nat → Op) (n : Nat) (Q : Epoll → Prop) : Prop :=
  ∃ m, n ≤ m ∧ (Returned (epollAfter ops m) ∨ Waits (epollAfter ops m) ∧ Q (epollAfter ops m))

theorem queue_ne_nil_of_producer {s s' : State} (h : ProducerMoves s p s') (hne : s.queue ≠ []) :
    s'.queue ≠ [] := by
  cases h with
  | enqueue hphase => simp [EventLoop.enqueue]
  | check hphase =>
    unfold EventLoop.check
    split <;> exact hne
  | _ => exact hne

/-- While `main` waits, only the producers move, until `epoll_wait` returns. -/
theorem Waits.step (h : Waits e) (hs : e.step op = some e') :
    Returned e' ∨ Waits e' ∧ ∃ p, op.thread = .producer p ∧ ProducerMoves e.base p e'.base ∧
      e'.edge = (e.edge || (e.base.producers p).phase = .unlocked) := by
  cases epollMoves_of_step hs with
  | producer p fails s hbase =>
    have hmoves := producerMoves_of_step hbase
    exact .inr ⟨⟨hmoves.frame.main.trans h.main, h.reported,
      queue_ne_nil_of_producer hmoves h.queue⟩, p, rfl, hmoves, rfl⟩
  | fails => exact .inl (.inl nofun)
  | report => exact .inl (.inr rfl)
  | read fails hmain hreported => cases h.reported.symm.trans hreported
  | main fails s hmain _ => exact absurd h.main hmain

theorem Waits.of_thread_main (h : Waits e) (hthread : op.thread = .main)
    (hs : e.step op = some e') : Returned e' := by
  rcases h.step hs with hreturned | ⟨_, p, hp, _⟩
  · exact hreturned
  · cases hthread.symm.trans hp

theorem ready_of_producer (h : (e.base.producers p).phase.free = true) :
    epollProcess.Ready e (.producer p) := by
  have hready := ready_of_free h
  show (e.producerStep p false).isSome = true
  rw [Epoll.producerStep, Option.isSome_map]
  exact hready

/-- A producer behind its call of the queue gets on while `main` waits. -/
theorem announces_of_fair (hfair : epollProcess.Fair Epoll.init ops) (phase : Phase)
    {Q : Epoll → Prop} (hfree : phase.free = true)
    (hnext : ∀ e e' : Epoll, ProducerMoves e.base p e'.base → (e.base.producers p).phase = phase →
      e'.edge = (e.edge || (e.base.producers p).phase = .unlocked) → Q e')
    (hwaits : Waits (epollAfter ops n)) (h : ((epollAfter ops n).base.producers p).phase = phase) :
    WaitsUntil ops n Q := by
  refine hfair.ensures (P := fun e => Waits e ∧ (e.base.producers p).phase = phase)
    (Q := fun e => Returned e ∨ Waits e ∧ Q e) (.producer p) ?_ ?_ ?_ ⟨hwaits, h⟩
  · rintro m _ ⟨hm, hphase⟩ hs
    rcases hm.step hs with hreturned | ⟨hm', q, hq, hmoves, hedge⟩
    · exact .inr (.inl hreturned)
    rcases eq_or_ne p q with rfl | hne
    · exact .inr (.inr ⟨hm', hnext _ _ hmoves hphase hedge⟩)
    · exact .inl ⟨hm', (congrArg Producer.phase (hmoves.frame.other p hne)).trans hphase⟩
  · rintro m _ ⟨hm, hphase⟩ hthread hs
    rcases hm.step hs with hreturned | ⟨hm', q, hq, hmoves, hedge⟩
    · exact .inl hreturned
    · cases hthread.symm.trans hq
      exact .inr ⟨hm', hnext _ _ hmoves hphase hedge⟩
  · rintro m _ ⟨_, hphase⟩
    exact ⟨m, Nat.le_refl m, .inl (ready_of_producer (hphase ▸ hfree))⟩

/-- The eventfd is readable and was written to since it was last reported. -/
def Pending (e : Epoll) : Prop :=
  e.edge = true ∧ e.base.readable = true

theorem pending_of_unlocked (hfair : epollProcess.Fair Epoll.init ops)
    (hwaits : Waits (epollAfter ops n))
    (h : ((epollAfter ops n).base.producers p).phase = .unlocked) :
    WaitsUntil ops n Pending := by
  refine announces_of_fair hfair .unlocked rfl ?_ hwaits h
  intro e e' hmoves hphase hedge
  refine ⟨by simp [hedge, hphase], ?_⟩
  generalize e'.base = s' at hmoves
  cases hmoves with
  | wakeup => rfl
  | _ => simp_all

theorem unlocked_of_enqueued (hfair : epollProcess.Fair Epoll.init ops)
    (hwaits : Waits (epollAfter ops n))
    (h : ((epollAfter ops n).base.producers p).phase = .enqueued) :
    WaitsUntil ops n fun e => (e.base.producers p).phase = .unlocked := by
  refine announces_of_fair hfair .enqueued rfl ?_ hwaits h
  intro e e' hmoves hphase _
  generalize e'.base = s' at hmoves ⊢
  cases hmoves with
  | unlock => simp [EventLoop.unlock, State.goto]
  | _ => simp_all

/-- While `main` waits with something in the queue, an edge is pending in the end. -/
theorem pending_of_waits (hfair : epollProcess.Fair Epoll.init ops)
    (h : Waits (epollAfter ops n)) : WaitsUntil ops n Pending := by
  have hinv := edgeInv_after ops n
  rcases hinv.announced (.inr (.inl h.main)) h.queue with hreadable | ⟨p, hp | hp⟩
  · rcases hinv.edge hreadable with hedge | hreported
    · exact ⟨n, Nat.le_refl n, .inr ⟨h, hedge, hreadable⟩⟩
    · exact ⟨n, Nat.le_refl n, .inl (.inr hreported)⟩
  · obtain ⟨m, hle, hreturned | ⟨hm, hphase⟩⟩ := unlocked_of_enqueued hfair h hp
    · exact ⟨m, hle, .inl hreturned⟩
    · obtain ⟨k, hmk, hk⟩ := pending_of_unlocked hfair hm hphase
      exact ⟨k, Nat.le_trans hle hmk, hk⟩
  · exact pending_of_unlocked hfair h hp

theorem ready_of_pending (hwaits : Waits e) (h : Pending e) : epollProcess.Ready e .main := by
  show (e.mainStep false).isSome = true
  simp [Epoll.mainStep, epollWait, hwaits.main, hwaits.reported, h.1, h.2]

theorem returned_of_waits (hfair : epollProcess.Fair Epoll.init ops)
    (h : Waits (epollAfter ops n)) : ∃ m, n ≤ m ∧ Returned (epollAfter ops m) := by
  refine hfair.ensures (P := Waits) (Q := Returned) .main ?_ ?_ ?_ h
  · intro m _ hm hs
    rcases hm.step hs with hreturned | ⟨hm', _⟩
    · exact .inr hreturned
    · exact .inl hm'
  · intro m _ hm hthread hs
    exact hm.of_thread_main hthread hs
  · intro m _ hm
    obtain ⟨k, hle, hreturned | ⟨hk, hpending⟩⟩ := pending_of_waits hfair hm
    · exact ⟨k, hle, .inr hreturned⟩
    · exact ⟨k, hle, .inl (ready_of_pending hk hpending)⟩

/-- After the report, `main` reads the eventfd, whatever the producers do. -/
theorem EdgeInv.step_of_reported (h : EdgeInv e) (hreported : e.reported = true)
    (hs : e.step op = some e') :
    e'.base.main ≠ .selecting ∨ e'.reported = true ∧ op.thread ≠ .main := by
  cases epollMoves_of_step hs with
  | producer p fails s _ => exact .inr ⟨hreported, nofun⟩
  | fails _ hnot => cases hnot.symm.trans hreported
  | report _ hnot => cases hnot.symm.trans hreported
  | read => exact .inl nofun
  | main fails s hmain _ => exact absurd (h.reported hreported).1 hmain

theorem reads_of_reported (hfair : epollProcess.Fair Epoll.init ops)
    (h : (epollAfter ops n).reported = true) :
    ∃ m, n ≤ m ∧ (epollAfter ops m).base.main ≠ .selecting := by
  refine hfair.ensures (P := fun e => e.reported = true)
    (Q := fun e => e.base.main ≠ .selecting) .main ?_ ?_ ?_ h
  · intro m _ hm hs
    rcases (edgeInv_after ops m).step_of_reported hm hs with hmain | ⟨hm', _⟩
    · exact .inr hmain
    · exact .inl hm'
  · intro m _ hm hthread hs
    exact ((edgeInv_after ops m).step_of_reported hm hs).resolve_right fun h => h.2 hthread
  · intro m _ hm
    refine ⟨m, Nat.le_refl m, .inl ?_⟩
    show ((epollAfter ops m).mainStep false).isSome = true
    simp [Epoll.mainStep, ((edgeInv_after ops m).reported hm).1, hm]

theorem leaves_epollWait (hfair : epollProcess.Fair Epoll.init ops)
    (hmain : (epollAfter ops n).base.main = .selecting)
    (hqueue : (epollAfter ops n).base.queue ≠ []) :
    ∃ m, n ≤ m ∧ (epollAfter ops m).base.main ≠ .selecting := by
  cases hreported : (epollAfter ops n).reported with
  | true => exact reads_of_reported hfair hreported
  | false =>
    obtain ⟨m, hle, hm | hm⟩ := returned_of_waits hfair ⟨hmain, hreported, hqueue⟩
    · exact ⟨m, hle, hm⟩
    · obtain ⟨k, hmk, hk⟩ := reads_of_reported hfair hm
      exact ⟨k, Nat.le_trans hle hmk, hk⟩

/-- No message is left behind by the edge-triggered loop, whichever calls of `enqueue` and
`epoll_wait` fail. -/
theorem epoll_wakes (ops : Nat → Op) :
    -- the eventfd can be read when it was reported
    (∀ n, (epollAfter ops n).reported = true → (epollAfter ops n).base.readable = true) ∧
    -- what `main` prints is right exactly if no call of the queue failed
    (∀ n, (epollAfter ops n).base.main = .printed →
      (Settled (epollAfter ops n).base ↔ (epollAfter ops n).base.failures = 0)) ∧
    -- `main` does not stay in `epoll_wait` while there is a message in the queue
    (epollProcess.Fair Epoll.init ops → ∀ n, (epollAfter ops n).base.main = .selecting →
      (epollAfter ops n).base.queue ≠ [] →
      ∃ m, n ≤ m ∧ (epollAfter ops m).base.main ≠ .selecting) :=
  ⟨fun n hreported => ((edgeInv_after ops n).reported hreported).2,
    fun n hprinted => (edgeInv_after ops n).base.settled_iff hprinted,
    fun hfair _ hmain hqueue => leaves_epollWait hfair hmain hqueue⟩

end Runs

/-- The first producer puts a message into the queue while `main` waits, and `main` receives it.
Then `epoll_wait` fails, and every other producer sends its first message before it ends. -/
def allReported : List Op :=
  List.replicate 17 (.main false) ++ List.replicate 5 (.producer firstProducer false) ++
    List.replicate 6 (.main false) ++ [.main true, .main false, .producer firstProducer false] ++
    ((List.finRange producerNum).drop 1).flatMap
      (fun p => List.replicate 6 (.producer p false)) ++
    List.replicate 33 (.main false)

theorem epollAfter_schedule {ops : List Op} {n : Nat} (hle : n ≤ ops.length) :
    epollAfter (schedule ops) n =
      (ops.take n).foldl (fun e op => (e.step op).getD e) Epoll.init :=
  Threads.stateAt_getD hle

theorem epollFair_of_printed {ops : List Op}
    (hmain : (epollAfter (schedule ops) ops.length).base.main = .printed)
    (hfinished : ∀ p, ((epollAfter (schedule ops) ops.length).base.producers p).phase = .finished) :
    epollProcess.Fair Epoll.init (schedule ops) := by
  have hready : ∀ t, ¬ epollProcess.Ready (epollAfter (schedule ops) ops.length) t := by
    intro t
    cases t with
    | main =>
      show ¬ (Epoll.mainStep _ false).isSome = true
      simp [Epoll.mainStep, mainStep, hmain]
    | producer p =>
      show ¬ (Epoll.producerStep _ p false).isSome = true
      simp [Epoll.producerStep, producerStep, hfinished]
  refine Threads.fair_of_quiet (n := ops.length) (fun m hle => ?_) hready
  exact Threads.stateAt_idle (Option.not_isSome_iff_eq_none.mp (hready .main)) hle

theorem allReported_fair : epollProcess.Fair Epoll.init (schedule allReported) := by
  have hend : (epollAfter (schedule allReported) allReported.length).base.main = .printed ∧
      ∀ p, ((epollAfter (schedule allReported) allReported.length).base.producers p).phase =
        .finished := by
    rw [epollAfter_schedule (Nat.le_refl _)]
    decide +kernel
  exact epollFair_of_printed hend.1 hend.2

theorem epoll_wakes_allReported :
    epollProcess.Fair Epoll.init (schedule allReported) ∧
    (epollAfter (schedule allReported) 20).base.main = .selecting ∧
    (epollAfter (schedule allReported) 20).base.queue ≠ [] ∧
    ∃ m, 20 ≤ m ∧ (epollAfter (schedule allReported) m).base.main ≠ .selecting := by
  have hwaits : (epollAfter (schedule allReported) 20).base.main = .selecting ∧
      (epollAfter (schedule allReported) 20).base.queue ≠ [] := by
    rw [epollAfter_schedule (by decide +kernel)]
    decide +kernel
  exact ⟨allReported_fair, hwaits.1, hwaits.2,
    (epoll_wakes (schedule allReported)).2.2 allReported_fair 20 hwaits.1 hwaits.2⟩

end HakunaMatata.EventLoop
