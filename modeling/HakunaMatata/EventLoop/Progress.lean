import HakunaMatata.EventLoop.Mutex

/-!
# What becomes of the messages

Fair runs of the producers and the consumer. Without failures, whoever holds the mutex gives it
back, so that a producer that waits for it gets it in the end. After a failure, the mutex is held
forever: either a producer waits for it forever, or all of them end, and `main` prints totals that
differ. The main theorem is `losesNothing_iff`.
-/

namespace HakunaMatata.EventLoop

open Base

/-- The state after the first steps of the schedule. -/
abbrev after (ops : Nat → Op) (n : Nat) : State :=
  process.stateAt State.init ops n

/-- No producer waits for the mutex forever, and what `main` prints is right. -/
structure LosesNothing (ops : Nat → Op) : Prop where
  released : ∀ p n, ((after ops n).producers p).phase = .atLock →
    ∃ m, n ≤ m ∧ ((after ops m).producers p).phase ≠ .atLock
  settled : ∀ n, (after ops n).main = .printed → Settled (after ops n)

section Runs

variable {s s' : State} {op : Op} {ops : Nat → Op} {n m : Nat} {p : Fin producerNum} {t : Thread}

theorem inv_after (ops : Nat → Op) (n : Nat) : Inv (after ops n) :=
  Threads.stays (T := process) (n := 0) (fun _ _ _ h hs' => h.step hs') inv_init (Nat.zero_le n)

theorem stays_after {P : State → Prop}
    (hstep : ∀ s op s', Inv s → P s → EventLoop.step s op = some s' → P s')
    (h : P (after ops n)) (hle : n ≤ m) : P (after ops m) :=
  (Threads.stays (T := process) (P := fun s => Inv s ∧ P s)
    (fun s op s' hs hs' => ⟨hs.1.step hs', hstep s op s' hs.1 hs.2 hs'⟩)
    ⟨inv_after ops n, h⟩ hle).2

/-! ## The mutex is given back -/

/-- How far the holder is from the unlock. -/
def State.left (s : State) : Thread → Nat
  | .main => s.queue.length + if s.main = .receiving then 1 else 0
  | .producer p => if (s.producers p).phase = .locked then 1 else 0

theorem left_of_producer (hmoves : ProducerMoves s p s')
    (hinside : s.inside (.producer p) = true) (hzero : s'.failures = 0) :
    s'.mutex = none ∨ s'.mutex = s.mutex ∧ s'.left (.producer p) < s.left (.producer p) := by
  cases hmoves with
  | enqueueFails hphase => cases hzero
  | enqueue hphase =>
    right
    refine ⟨rfl, ?_⟩
    simp [State.left, hphase, EventLoop.enqueue, State.goto]
  | unlock hphase => exact .inl rfl
  | _ => simp_all [State.inside]

theorem left_of_main (hmoves : MainMoves s s') (hinside : s.inside .main = true) :
    s'.mutex = none ∨ s'.mutex = s.mutex ∧ s'.left .main < s.left .main := by
  cases hmoves with
  | receive hmain =>
    right
    unfold EventLoop.receive
    split
    · rename_i hqueue
      exact ⟨rfl, by simp [State.left, hmain, hqueue]⟩
    · rename_i hqueue
      have hlength := List.length_pos_of_ne_nil hqueue
      split
      · refine ⟨rfl, ?_⟩
        simp only [State.left, dequeue, hmain, List.length_tail, reduceCtorEq, if_true, if_false]
        omega
      · refine ⟨rfl, ?_⟩
        simp only [State.left, dequeue, hmain, List.length_tail, if_true]
        omega
  | unlock hmain => exact .inl rfl
  | _ => simp_all [State.inside]

theorem queue_of_outside (hmoves : ProducerMoves s p s')
    (houtside : s.inside (.producer p) = false) : s'.queue = s.queue := by
  cases hmoves with
  | enqueue hphase => simp [State.inside, hphase] at houtside
  | check hphase =>
    unfold EventLoop.check
    split <;> rfl
  | _ => rfl

theorem Inv.left_of_other (h : Inv s) (hs' : EventLoop.step s op = some s')
    (hmutex : s.mutex = some t) (hthread : op.thread ≠ t) :
    s'.mutex = some t ∧ s'.left t = s.left t := by
  have houtside : s.inside op.thread = false := by
    by_contra hinside
    have hself := h.locks.mutex_of_inside _ (Bool.eq_true_of_not_eq_false hinside)
    exact hthread (Option.some.inj (hself.symm.trans hmutex))
  have hmutex' : s'.mutex = some t := by
    cases h.mutexMoves hs' with
    | keeps hsame _ _ => exact hsame.trans hmutex
    | locks hfree _ _ _ _ => cases hfree.symm.trans hmutex
    | unlocks hinside _ _ _ _ => cases houtside.symm.trans hinside
    | leaks _ _ hinside _ _ _ _ => cases houtside.symm.trans hinside
  refine ⟨hmutex', ?_⟩
  cases t with
  | producer p => rw [State.left, State.left, h.other hs' hthread (h.held p hmutex)]
  | main =>
    cases op with
    | main fails => exact absurd rfl hthread
    | producer q fails =>
      have hmoves := producerMoves_of_step hs'
      rw [State.left, State.left, queue_of_outside hmoves houtside, hmoves.frame.main]

theorem Inv.left_of_step (h : Inv s) (hs' : EventLoop.step s op = some s') (hzero : s.failures = 0)
    (hzero' : s'.failures = 0) (hmutex : s.mutex = some t) :
    s'.mutex = none ∨ s'.mutex = some t ∧ s'.left t ≤ s.left t ∧
      (op.thread = t → s'.left t < s.left t) := by
  by_cases hthread : op.thread = t
  · have hinside := h.locks.inside_of_mutex hzero t hmutex
    have hleft : s'.mutex = none ∨ s'.mutex = s.mutex ∧ s'.left t < s.left t := by
      subst hthread
      cases op with
      | main fails => exact left_of_main (mainMoves_of_step hs') hinside
      | producer p fails => exact left_of_producer (producerMoves_of_step hs') hinside hzero'
    rcases hleft with hfree | ⟨hsame, hlt⟩
    · exact .inl hfree
    · exact .inr ⟨hsame.trans hmutex, Nat.le_of_lt hlt, fun _ => hlt⟩
  · obtain ⟨hsame, hleft⟩ := h.left_of_other hs' hmutex hthread
    exact .inr ⟨hsame, Nat.le_of_eq hleft, fun heq => absurd heq hthread⟩

/-- The places in which a producer does not wait. -/
def Phase.free : Phase → Bool
  | .notCreated => false
  | .atLock => false
  | .finished => false
  | _ => true

theorem ready_of_free (h : (s.producers p).phase.free = true) :
    process.Ready s (.producer p) := by
  show (producerStep s p false).isSome = true
  unfold producerStep
  cases hphase : (s.producers p).phase with
  | notCreated | atLock | finished =>
    rw [hphase] at h
    cases h
  | _ => rfl

theorem ready_of_inside (h : s.inside t = true) : process.Ready s t := by
  cases t with
  | main =>
    simp only [State.inside, Bool.or_eq_true, decide_eq_true_eq] at h
    rcases h with hmain | hmain
    all_goals
      show (mainStep s false).isSome = true
      rw [mainStep, hmain]
      rfl
  | producer p =>
    refine ready_of_free ?_
    simp only [State.inside, Bool.or_eq_true, decide_eq_true_eq] at h
    rcases h with hphase | hphase
    all_goals
      rw [hphase]
      rfl

theorem released_of_fair (hfair : process.Fair State.init ops)
    (hzero : ∀ n, (after ops n).failures = 0) (n : Nat) :
    ∃ m, n ≤ m ∧ (after ops m).mutex = none := by
  cases hmutex : (after ops n).mutex with
  | none => exact ⟨n, Nat.le_refl n, hmutex⟩
  | some t =>
    refine Threads.leads_of_measure (P := fun s : State => s.mutex = some t)
      (Q := fun s : State => s.mutex = none) (fun s => s.left t)
      (fun n hn => ?_) hmutex
    -- the holder moves in the end, and until then nobody else changes its distance
    refine hfair.ensures
      (P := fun s : State => s.mutex = some t ∧ s.left t ≤ (after ops n).left t)
      (Q := fun s : State => s.mutex = none ∨
        s.mutex = some t ∧ s.left t < (after ops n).left t) t ?_ ?_ ?_ ⟨hn, Nat.le_refl _⟩
    · rintro m _ ⟨hm, hle⟩ hs'
      rcases (inv_after ops m).left_of_step hs' (hzero m) (hzero (m + 1)) hm with
        hfree | ⟨hheld, hleft, _⟩
      · exact .inr (.inl hfree)
      · exact .inl ⟨hheld, Nat.le_trans hleft hle⟩
    · rintro m _ ⟨hm, hle⟩ hthread hs'
      rcases (inv_after ops m).left_of_step hs' (hzero m) (hzero (m + 1)) hm with
        hfree | ⟨hheld, _, hleft⟩
      · exact .inl hfree
      · exact .inr ⟨hheld, Nat.lt_of_lt_of_le (hleft hthread) hle⟩
    · rintro m _ ⟨hm, _⟩
      have hinside := (inv_after ops m).locks.inside_of_mutex (hzero m) t hm
      exact ⟨m, Nat.le_refl m, .inl (ready_of_inside hinside)⟩

/-! ## The steps of a producer -/

theorem producerMoves_of_thread (hs' : EventLoop.step s op = some s')
    (hthread : op.thread = .producer p) : ProducerMoves s p s' := by
  cases op with
  | main fails => cases hthread
  | producer q fails =>
    cases hthread
    exact producerMoves_of_step hs'

theorem ProducerMoves.next (h : ProducerMoves s p s') :
    ((s.producers p).phase = .sleeping → (s'.producers p).phase = .atLock) ∧
    ((s.producers p).phase = .atLock → (s'.producers p).phase = .locked) ∧
    ((s.producers p).phase = .unlocked → (s'.producers p).phase = .checking) ∧
    ((s.producers p).phase = .checking →
      (s'.producers p).phase = .finished ∨ (s'.producers p).phase = .sleeping) := by
  cases h with
  | prepare hphase => simp [hphase, EventLoop.prepare]
  | lock hphase _ => simp [hphase, EventLoop.lock, State.goto]
  | enqueueFails hphase => simp [hphase]
  | enqueue hphase => simp [hphase]
  | unlock hphase => simp [hphase]
  | wakeup hphase => simp [hphase, EventLoop.wakeup, State.goto]
  | check hphase =>
    unfold EventLoop.check
    split <;> simp [hphase, State.goto]

theorem leads_of_phase (hfair : process.Fair State.init ops) {phase : Phase} {Q : Phase → Prop}
    (hfree : phase.free = true)
    (hnext : ∀ s s', ProducerMoves s p s' → (s.producers p).phase = phase →
      Q (s'.producers p).phase)
    (h : ((after ops n).producers p).phase = phase) :
    ∃ m, n ≤ m ∧ Q ((after ops m).producers p).phase := by
  refine hfair.ensures (P := fun s : State => (s.producers p).phase = phase)
    (Q := fun s : State => Q (s.producers p).phase) (.producer p) ?_ ?_ ?_ h
  · intro m _ hm hs'
    by_cases hthread : (ops m).thread = .producer p
    · exact .inr (hnext _ _ (producerMoves_of_thread hs' hthread) hm)
    · have hcreated : ((after ops m).producers p).phase ≠ .notCreated := fun hnot => by
        have hphase : phase = .notCreated := hm.symm.trans hnot
        rw [hphase] at hfree
        cases hfree
      have hsame := (inv_after ops m).other hs' hthread hcreated
      exact .inl ((congrArg Producer.phase hsame).trans hm)
  · intro m _ hm hthread hs'
    exact hnext _ _ (producerMoves_of_thread hs' hthread) hm
  · intro m _ hm
    exact ⟨m, Nat.le_refl m, .inl (ready_of_free (hm ▸ hfree))⟩

theorem locks_of_fair (hfair : process.Fair State.init ops)
    (hzero : ∀ n, (after ops n).failures = 0)
    (h : ((after ops n).producers p).phase = .atLock) :
    ∃ m, n ≤ m ∧ ((after ops m).producers p).phase ≠ .atLock := by
  refine hfair.ensures (P := fun s : State => (s.producers p).phase = .atLock)
    (Q := fun s : State => (s.producers p).phase ≠ .atLock) (.producer p) ?_ ?_ ?_ h
  · intro m _ _ _
    exact Decidable.em _
  · intro m _ hm hthread hs'
    have hlocked := (producerMoves_of_thread hs' hthread).next.2.1 hm
    show ((after ops (m + 1)).producers p).phase ≠ .atLock
    rw [hlocked]
    nofun
  · intro m _ _
    obtain ⟨k, hle, hfree⟩ := released_of_fair hfair hzero m
    refine ⟨k, hle, ?_⟩
    by_cases hphase : ((after ops k).producers p).phase = .atLock
    · left
      show (producerStep _ p false).isSome = true
      rw [producerStep, hphase]
      simp [hfree]
    · exact .inr hphase

/-! ## After a failure -/

theorem Inv.failures_le (h : Inv s) (hs' : EventLoop.step s op = some s') :
    s.failures ≤ s'.failures := by
  cases h.mutexMoves hs' with
  | keeps _ _ hsame => exact Nat.le_of_eq hsame.symm
  | locks _ _ _ _ hsame => exact Nat.le_of_eq hsame.symm
  | unlocks _ _ _ _ hsame => exact Nat.le_of_eq hsame.symm
  | leaks _ _ _ _ _ _ hsucc => exact Nat.le_trans (Nat.le_succ _) (Nat.le_of_eq hsucc.symm)

theorem failures_after (h : (after ops n).failures ≠ 0) (hle : n ≤ m) :
    (after ops m).failures ≠ 0 := by
  refine stays_after (P := fun s => s.failures ≠ 0) (fun s op s' hinv hfailures hs' => ?_) h hle
  have hle := hinv.failures_le hs'
  omega

/-- The mutex is not free after a failure, and nobody is inside. -/
theorem Inv.outside_of_failure (h : Inv s) (hfailures : s.failures ≠ 0) :
    s.mutex ≠ none ∧ ∀ t, s.inside t = false := by
  obtain ⟨p, hp, houtside⟩ := h.locks.leaked hfailures
  refine ⟨by rw [hp]; nofun, fun t => ?_⟩
  by_contra hinside
  have hinside := Bool.eq_true_of_not_eq_false hinside
  cases (h.locks.mutex_of_inside t hinside).symm.trans hp
  cases houtside.symm.trans hinside

theorem atLock_after (hfailures : (after ops n).failures ≠ 0)
    (h : ((after ops n).producers p).phase = .atLock) (hle : n ≤ m) :
    ((after ops m).producers p).phase = .atLock := by
  refine (stays_after (P := fun s => s.failures ≠ 0 ∧ (s.producers p).phase = .atLock)
    (fun s op s' hinv hs hs' => ?_) ⟨hfailures, h⟩ hle).2
  obtain ⟨hfailures, hphase⟩ := hs
  have hle := hinv.failures_le hs'
  refine ⟨by omega, ?_⟩
  by_cases hthread : op.thread = .producer p
  · have hlocked := (producerMoves_of_thread hs' hthread).next.2.1 hphase
    have hinside : s'.inside (.producer p) = true := by
      rw [State.inside, hlocked]
      rfl
    cases ((hinv.step hs').outside_of_failure (by omega)).2 (.producer p) |>.symm.trans hinside
  · rw [hinv.other hs' hthread (by simp [hphase])]
    exact hphase

/-- After a failure, if no producer waits forever, a producer that was created ends. -/
theorem finishes_after (hfair : process.Fair State.init ops)
    (hreleased : ∀ p n, ((after ops n).producers p).phase = .atLock →
      ∃ m, n ≤ m ∧ ((after ops m).producers p).phase ≠ .atLock)
    (hfailures : (after ops n).failures ≠ 0)
    (hcreated : ((after ops n).producers p).phase ≠ .notCreated) :
    ∃ m, n ≤ m ∧ ((after ops m).producers p).phase = .finished := by
  have hnotAtLock : ∀ m, n ≤ m → ((after ops m).producers p).phase ≠ .atLock := by
    intro m hle hphase
    obtain ⟨k, hk, hnot⟩ := hreleased p m hphase
    exact hnot (atLock_after (failures_after hfailures hle) hphase hk)
  have hnotSleeping : ∀ m, n ≤ m → ((after ops m).producers p).phase ≠ .sleeping := by
    intro m hle hphase
    obtain ⟨k, hk, hatLock⟩ := leads_of_phase hfair (Q := fun phase => phase = .atLock) rfl
      (fun _ _ hmoves => hmoves.next.1) hphase
    exact hnotAtLock k (Nat.le_trans hle hk) hatLock
  have hchecking : ∀ m, n ≤ m → ((after ops m).producers p).phase = .checking →
      ∃ k, n ≤ k ∧ ((after ops k).producers p).phase = .finished := by
    intro m hle hphase
    obtain ⟨k, hk, hfinished | hsleeping⟩ := leads_of_phase hfair
      (Q := fun phase => phase = .finished ∨ phase = .sleeping) rfl
      (fun _ _ hmoves => hmoves.next.2.2.2) hphase
    · exact ⟨k, Nat.le_trans hle hk, hfinished⟩
    · exact absurd hsleeping (hnotSleeping k (Nat.le_trans hle hk))
  have houtside := ((inv_after ops n).outside_of_failure hfailures).2 (.producer p)
  cases hphase : ((after ops n).producers p).phase with
  | notCreated => exact absurd hphase hcreated
  | sleeping => exact absurd hphase (hnotSleeping n (Nat.le_refl n))
  | atLock => exact absurd hphase (hnotAtLock n (Nat.le_refl n))
  | locked => simp [State.inside, hphase] at houtside
  | enqueued => simp [State.inside, hphase] at houtside
  | unlocked =>
    obtain ⟨k, hk, hnext⟩ := leads_of_phase hfair (Q := fun phase => phase = .checking) rfl
      (fun _ _ hmoves => hmoves.next.2.2.1) hphase
    exact hchecking k hk hnext
  | checking => exact hchecking n (Nat.le_refl n) hphase
  | finished => exact ⟨n, Nat.le_refl n, hphase⟩

theorem finished_after (h : ((after ops n).producers p).phase = .finished) (hle : n ≤ m) :
    ((after ops m).producers p).phase = .finished := by
  refine stays_after (P := fun s => (s.producers p).phase = .finished)
    (fun s op s' hinv hphase hs' => ?_) h hle
  have hthread : op.thread ≠ .producer p := fun hthread =>
    (producerMoves_of_thread hs' hthread).phase.2.1 hphase
  rw [hinv.other hs' hthread (by simp [hphase])]
  exact hphase

/-! ## The end of `main` -/

/-- How far `main` is from the end, once the producers have ended. -/
def State.toPrint (s : State) : Nat :=
  match s.main with
  | .joining i => producerNum - i + s.queue.length + 2
  | .exhausting => s.queue.length + 1
  | _ => 0

/-- `main` has told the producers to end, and they have ended. -/
def State.over (s : State) : Prop :=
  s.main.ended = true ∧ ∀ p, (s.producers p).phase = .finished

theorem ended_of_finished (h : ((after ops n).producers p).phase = .finished) :
    (after ops n).main.ended = true := by
  have hjoins := (inv_after ops n).joins
  rw [← hjoins.completed]
  exact (hjoins.finished p h).1

theorem created_of_ended {phase : MainPhase} (h : phase.ended = true) :
    phase.created = producerNum := by
  cases phase with
  | creating i => cases h
  | _ => rfl

theorem ready_of_over (h : s.over) (hmain : s.main ≠ .printed) : process.Ready s .main := by
  show (mainStep s false).isSome = true
  unfold mainStep
  cases hphase : s.main with
  | joining i =>
    show (join s i).isSome = true
    unfold join
    split
    · rw [if_pos (h.2 _)]
      rfl
    · rfl
  | exhausting => rfl
  | printed => exact absurd hphase hmain
  | _ =>
    have hended := h.1
    rw [hphase] at hended
    cases hended

theorem over_of_main (h : s.over) (hmoves : MainMoves s s') : s'.over ∧ s'.toPrint < s.toPrint := by
  obtain ⟨hended, hfinished⟩ := h
  cases hmoves with
  | join i hi hmain _ =>
    refine ⟨⟨rfl, hfinished⟩, ?_⟩
    simp only [State.toPrint, hmain]
    omega
  | joined i hi hmain =>
    refine ⟨⟨rfl, hfinished⟩, ?_⟩
    simp only [State.toPrint, hmain]
    omega
  | exhaust hmain =>
    unfold EventLoop.exhaust
    split
    · refine ⟨⟨rfl, hfinished⟩, ?_⟩
      simp only [State.toPrint, hmain]
      omega
    · rename_i hqueue
      have hlength := List.length_pos_of_ne_nil hqueue
      refine ⟨⟨hended, hfinished⟩, ?_⟩
      simp only [State.toPrint, dequeue, hmain, List.length_tail]
      omega
  | create i hi hmain | created i hi hmain | selectFails hmain | wake hmain | lock hmain _
  | receive hmain | unlock hmain | complete hmain =>
    rw [hmain] at hended
    cases hended

/-- Once the producers have ended, every step is one of `main`, and it comes closer to the end. -/
theorem over_of_step (h : s.over) (hs' : EventLoop.step s op = some s') :
    s'.over ∧ s'.toPrint < s.toPrint := by
  cases op with
  | main fails => exact over_of_main h (mainMoves_of_step hs')
  | producer p fails => exact absurd (h.2 p) (producerMoves_of_step hs').phase.2.1

theorem printed_of_over (hfair : process.Fair State.init ops) (h : (after ops n).over) :
    ∃ m, n ≤ m ∧ (after ops m).main = .printed := by
  refine Threads.leads_of_measure (P := State.over) (Q := fun s : State => s.main = .printed)
    State.toPrint (fun n hn => ?_) h
  by_cases hprinted : (after ops n).main = .printed
  · exact ⟨n, Nat.le_refl n, .inl hprinted⟩
  -- the state stays as it is until `main` moves
  refine hfair.ensures (P := fun s : State => s = after ops n)
    (Q := fun s : State => s.main = .printed ∨ s.over ∧ s.toPrint < (after ops n).toPrint)
    .main ?_ ?_ ?_ rfl
  · intro m _ hm hs'
    rw [hm] at hs'
    exact .inr (.inr (over_of_step hn hs'))
  · intro m _ hm _ hs'
    rw [hm] at hs'
    exact .inr (over_of_step hn hs')
  · intro m _ hm
    refine ⟨m, Nat.le_refl m, .inl ?_⟩
    rw [hm]
    exact ready_of_over hn hprinted

/-- If no producer waits forever although a call of the queue failed, `main` prints. -/
theorem printed_of_failure (hfair : process.Fair State.init ops)
    (hreleased : ∀ p n, ((after ops n).producers p).phase = .atLock →
      ∃ m, n ≤ m ∧ ((after ops m).producers p).phase ≠ .atLock)
    (hfailures : (after ops n).failures ≠ 0) :
    ∃ m, n ≤ m ∧ (after ops m).main = .printed := by
  -- the producer that failed ends, so that `main` is at the joins, and all producers were created
  obtain ⟨p, hp, _⟩ := (inv_after ops n).locks.leaked hfailures
  obtain ⟨k, hk, hfinished⟩ :=
    finishes_after hfair hreleased hfailures ((inv_after ops n).held p hp)
  have hended : (after ops k).main.ended = true := ended_of_finished hfinished
  have hcreated : ∀ q, ((after ops k).producers q).phase ≠ .notCreated := by
    intro q hq
    rw [(inv_after ops k).joins.created, created_of_ended hended] at hq
    exact Nat.not_le_of_lt q.isLt hq
  have hall := fun q =>
    finishes_after hfair hreleased (failures_after hfailures hk) (hcreated q)
  choose last hlast hlastFinished using hall
  have hle : ∀ q, last q ≤ Finset.univ.sup last := fun q => Finset.le_sup (Finset.mem_univ q)
  have hover : ∀ q, ((after ops (Finset.univ.sup last)).producers q).phase = .finished := fun q =>
    finished_after (hlastFinished q) (hle q)
  obtain ⟨m, hm, hprinted⟩ := printed_of_over hfair ⟨ended_of_finished (hover p), hover⟩
  exact ⟨m, Nat.le_trans hk (Nat.le_trans (hlast p) (Nat.le_trans (hle p) hm)), hprinted⟩

/-! ## The main theorem -/

theorem settled_after (hzero : ∀ n, (after ops n).failures = 0) (n : Nat)
    (hprinted : (after ops n).main = .printed) : Settled (after ops n) :=
  ((inv_after ops n).settled_iff hprinted).mpr (hzero n)

/-- In every interleaving without failures, what `main` prints is right. A fair interleaving loses
nothing exactly if no call of the queue fails in it. -/
theorem losesNothing_iff (ops : Nat → Op) :
    ((∀ n, (after ops n).failures = 0) →
      ∀ n, (after ops n).main = .printed → Settled (after ops n)) ∧
    (process.Fair State.init ops → (LosesNothing ops ↔ ∀ n, (after ops n).failures = 0)) := by
  refine ⟨settled_after, fun hfair => ⟨fun h n => ?_, fun hzero => ⟨?_, settled_after hzero⟩⟩⟩
  · by_contra hfailures
    obtain ⟨m, hle, hprinted⟩ := printed_of_failure hfair h.released hfailures
    have hzero := ((inv_after ops m).settled_iff hprinted).mp (h.settled m hprinted)
    exact failures_after hfailures hle hzero
  · exact fun p n hphase => locks_of_fair hfair hzero hphase

end Runs

/-! ## Two interleavings -/

/-- The schedule that makes these steps, and nothing afterwards. -/
def schedule (ops : List Op) (n : Nat) : Op := ops.getD n (.main false)

/-- The first producer. -/
def firstProducer : Fin producerNum := ⟨0, by decide⟩

section Schedules

variable {s : State} {ops : List Op}

theorem after_length (hmain : ¬ process.Ready (after (schedule ops) ops.length) .main) (n : Nat)
    (h : ops.length ≤ n) : after (schedule ops) n = after (schedule ops) ops.length :=
  Threads.stateAt_idle (Option.not_isSome_iff_eq_none.mp hmain) h

/-- The state behind the steps, as a fold: the fold is what can be computed. -/
theorem after_schedule (ops : List Op) : after (schedule ops) ops.length =
    ops.foldl (fun s op => (process.step s op).getD s) State.init := by
  have hstate : after (schedule ops) ops.length =
      (ops.take ops.length).foldl (fun s op => (process.step s op).getD s) State.init :=
    Threads.stateAt_getD (Nat.le_refl _)
  rwa [List.take_length] at hstate

theorem fair_schedule (h : ∀ t, ¬ process.Ready (after (schedule ops) ops.length) t) :
    process.Fair State.init (schedule ops) :=
  Threads.fair_of_quiet (after_length (h .main)) h

theorem not_ready_of_printed (hmain : s.main = .printed)
    (hfinished : ∀ p, (s.producers p).phase = .finished) (t : Thread) : ¬ process.Ready s t := by
  cases t with
  | main =>
    show ¬ (mainStep s false).isSome = true
    simp [mainStep, hmain]
  | producer p =>
    show ¬ (producerStep s p false).isSome = true
    simp [producerStep, hfinished]

/-- The first producer sends a message that the consumer receives. Then `select` fails, and every
other producer sends its first message before it ends. -/
def allSent : List Op :=
  List.replicate 17 (.main false) ++ List.replicate 5 (.producer firstProducer false) ++
    List.replicate 5 (.main false) ++ [.main true, .main false, .producer firstProducer false] ++
    ((List.finRange producerNum).drop 1).flatMap
      (fun p => List.replicate 6 (.producer p false)) ++
    List.replicate 33 (.main false)

theorem allSent_end : (after (schedule allSent) allSent.length).main = .printed ∧
    (∀ p, ((after (schedule allSent) allSent.length).producers p).phase = .finished) ∧
    (after (schedule allSent) allSent.length).failures = 0 := by
  rw [after_schedule]
  decide +kernel

theorem allSent_losesNothing :
    process.Fair State.init (schedule allSent) ∧ LosesNothing (schedule allSent) := by
  obtain ⟨hmain, hfinished, hzero⟩ := allSent_end
  have hready := not_ready_of_printed hmain hfinished
  have hfair := fair_schedule hready
  refine ⟨hfair, ((losesNothing_iff _).2 hfair).mpr fun n => ?_⟩
  by_contra hfailures
  have hlater := failures_after hfailures (Nat.le_max_left n allSent.length)
  rw [after_length (hready .main) _ (Nat.le_max_right n allSent.length)] at hlater
  exact hlater hzero

/-- The producers are created and go to the lock. The first one gets it, its message is not taken,
and it comes back to the lock. -/
def firstFails : List Op :=
  List.replicate 17 (.main false) ++ (List.finRange producerNum).map (.producer · false) ++
    [.producer firstProducer false, .producer firstProducer true, .producer firstProducer false,
      .producer firstProducer false]

/-- All threads wait. -/
def State.deadlocked (s : State) : Prop :=
  (∀ p, (s.producers p).phase = .atLock) ∧ s.mutex = some (.producer firstProducer) ∧
    s.main = .selecting ∧ s.readable = false

instance (s : State) : Decidable s.deadlocked :=
  inferInstanceAs (Decidable (_ ∧ _))

theorem firstFails_deadlocked :
    (after (schedule firstFails) firstFails.length).deadlocked := by
  rw [after_schedule]
  decide +kernel

theorem not_ready_of_deadlocked (h : s.deadlocked) (t : Thread) : ¬ process.Ready s t := by
  obtain ⟨hphase, hmutex, hmain, hreadable⟩ := h
  cases t with
  | main =>
    show ¬ (mainStep s false).isSome = true
    simp [mainStep, hmain, select, hreadable]
  | producer p =>
    show ¬ (producerStep s p false).isSome = true
    simp [producerStep, hphase, hmutex]

/-- The other producers wait forever, in a fair interleaving. -/
theorem firstFails_not_losesNothing :
    process.Fair State.init (schedule firstFails) ∧ ¬ LosesNothing (schedule firstFails) := by
  have hready := not_ready_of_deadlocked firstFails_deadlocked
  refine ⟨fair_schedule hready, fun h => ?_⟩
  have hphase := firstFails_deadlocked.1 ⟨1, by decide⟩
  obtain ⟨m, hle, hnot⟩ := h.released ⟨1, by decide⟩ _ hphase
  rw [after_length (hready .main) m hle] at hnot
  exact hnot hphase

end Schedules

end HakunaMatata.EventLoop
