import HakunaMatata.EventLoop.Messages

/-!
# The mutex of the queue

Every step locks, unlocks or keeps the mutex, or leaks it: a producer whose message the queue does
not take goes on without an unlock. `Inv` puts together what holds in every state that the threads
reach. Read `Inv.settled_iff` first: what `main` prints is right exactly if no call of the queue
failed.
-/

namespace HakunaMatata.EventLoop

/-! ## The mutex -/

/-- The thread is between a lock and an unlock. -/
def State.inside (s : State) : Thread → Bool
  | .main => s.main = .receiving || s.main = .unlocking
  | .producer p => (s.producers p).phase = .locked || (s.producers p).phase = .enqueued

/-- What a step of a thread does to the mutex. -/
inductive MutexMoves (s : State) (t : Thread) (s' : State) : Prop
  | keeps (hmutex : s'.mutex = s.mutex) (hinside : ∀ u, s'.inside u = s.inside u)
      (hfailures : s'.failures = s.failures)
  | locks (hfree : s.mutex = none) (hmutex : s'.mutex = some t) (hinside : s'.inside t = true)
      (hother : ∀ u, u ≠ t → s'.inside u = s.inside u) (hfailures : s'.failures = s.failures)
  | unlocks (hinside : s.inside t = true) (hmutex : s'.mutex = none)
      (houtside : s'.inside t = false)
      (hother : ∀ u, u ≠ t → s'.inside u = s.inside u) (hfailures : s'.failures = s.failures)
  | leaks (p : Fin producerNum) (ht : t = .producer p) (hinside : s.inside t = true)
      (hmutex : s'.mutex = s.mutex) (houtside : s'.inside t = false)
      (hother : ∀ u, u ≠ t → s'.inside u = s.inside u) (hfailures : s'.failures = s.failures + 1)

section Mutex

variable {s s' : State} {p q : Fin producerNum} {t : Thread}

theorem Frame.inside (h : Frame s p s') (t : Thread) (ht : t ≠ .producer p) :
    s'.inside t = s.inside t := by
  cases t with
  | main => rw [State.inside, State.inside, h.main]
  | producer q =>
    have hq : q ≠ p := fun heq => ht (congrArg Thread.producer heq)
    rw [State.inside, State.inside, h.other q hq]

theorem Frame.keeps (h : Frame s p s') (hmutex : s'.mutex = s.mutex)
    (hinside : s'.inside (.producer p) = s.inside (.producer p))
    (hfailures : s'.failures = s.failures) : MutexMoves s (.producer p) s' := by
  refine .keeps hmutex (fun u => ?_) hfailures
  rcases eq_or_ne u (.producer p) with rfl | hne
  · exact hinside
  · exact h.inside u hne

theorem ProducerMoves.mutexMoves (h : ProducerMoves s p s') : MutexMoves s (.producer p) s' := by
  have hframe := h.frame
  cases h with
  | prepare hphase =>
    refine hframe.keeps rfl ?_ rfl
    simp [State.inside, EventLoop.prepare, hphase]
  | lock hphase hfree =>
    refine .locks hfree rfl ?_ hframe.inside rfl
    simp [State.inside, EventLoop.lock, State.goto]
  | enqueueFails hphase =>
    refine .leaks p rfl ?_ rfl ?_ hframe.inside rfl
    · simp [State.inside, hphase]
    · simp [State.inside, EventLoop.enqueueFails, State.goto]
  | enqueue hphase =>
    refine hframe.keeps rfl ?_ rfl
    simp [State.inside, EventLoop.enqueue, State.goto, hphase]
  | unlock hphase =>
    refine .unlocks ?_ rfl ?_ hframe.inside rfl
    · simp [State.inside, hphase]
    · simp [State.inside, EventLoop.unlock, State.goto]
  | wakeup hphase =>
    refine hframe.keeps rfl ?_ rfl
    simp [State.inside, EventLoop.wakeup, State.goto, hphase]
  | check hphase =>
    unfold EventLoop.check at hframe ⊢
    split at hframe <;> rename_i hcompleted
    · rw [if_pos hcompleted]
      refine hframe.keeps rfl ?_ rfl
      simp [State.inside, hphase]
    · rw [if_neg hcompleted]
      refine hframe.keeps rfl ?_ rfl
      simp [State.inside, State.goto, hphase]

theorem inside_of_main (hproducers : s'.producers = s.producers) (t : Thread) (ht : t ≠ .main) :
    s'.inside t = s.inside t := by
  cases t with
  | main => exact absurd rfl ht
  | producer q => rw [State.inside, State.inside, hproducers]

theorem keeps_of_main (hproducers : s'.producers = s.producers) (hmutex : s'.mutex = s.mutex)
    (hinside : s'.inside .main = s.inside .main) (hfailures : s'.failures = s.failures) :
    MutexMoves s .main s' := by
  refine .keeps hmutex (fun u => ?_) hfailures
  rcases eq_or_ne u .main with rfl | hne
  · exact hinside
  · exact inside_of_main hproducers u hne

theorem MainMoves.mutexMoves (hjoins : Joins s) (h : MainMoves s s') : MutexMoves s .main s' := by
  cases h with
  | create i hi hmain =>
    have hphase := hjoins.notCreated hi hmain
    refine .keeps rfl (fun u => ?_) rfl
    cases u with
    | main => simp [State.inside, hmain]
    | producer q =>
      rcases eq_or_ne q ⟨i, hi⟩ with rfl | hne
      · simp [State.inside, hphase]
      · simp only [State.inside, setProducer_other _ hne]
  | lock hmain hfree => exact .locks hfree rfl rfl (inside_of_main rfl) rfl
  | unlock hmain =>
    refine .unlocks ?_ rfl ?_ (inside_of_main rfl) rfl
    · simp [State.inside, hmain]
    · simp only [State.inside]
      split <;> rfl
  | receive hmain =>
    unfold EventLoop.receive
    split
    · exact keeps_of_main rfl rfl (by simp [State.inside, hmain]) rfl
    split
    · exact keeps_of_main rfl rfl (by simp [State.inside, hmain]) rfl
    · exact keeps_of_main rfl rfl rfl rfl
  | exhaust hmain =>
    unfold EventLoop.exhaust
    split
    · exact keeps_of_main rfl rfl (by simp [State.inside, hmain]) rfl
    · exact keeps_of_main rfl rfl rfl rfl
  | created i hi hmain | selectFails hmain | wake hmain | complete hmain | join i hi hmain _
  | joined i hi hmain => exact keeps_of_main rfl rfl (by simp [State.inside, hmain]) rfl

end Mutex

/-- Who is inside holds the mutex, and without failures nobody else does. After a failure it is held
by a producer that is not inside. -/
structure Locks (s : State) : Prop where
  mutex_of_inside : ∀ t, s.inside t = true → s.mutex = some t
  inside_of_mutex : s.failures = 0 → ∀ t, s.mutex = some t → s.inside t = true
  leaked : s.failures ≠ 0 → ∃ p, s.mutex = some (.producer p) ∧ s.inside (.producer p) = false

theorem locks_init : Locks State.init where
  mutex_of_inside t := by cases t <;> simp [State.init, State.inside]
  inside_of_mutex _ t := nofun
  leaked h := absurd rfl h

theorem Locks.moves {s s' : State} {t : Thread} (h : Locks s) (hmoves : MutexMoves s t s') :
    Locks s' := by
  cases hmoves with
  | keeps hmutex hinside hfailures =>
    refine ⟨fun u hu => ?_, fun hzero u hu => ?_, fun hne => ?_⟩
    · rw [hinside] at hu
      rw [hmutex]
      exact h.mutex_of_inside u hu
    · rw [hfailures] at hzero
      rw [hmutex] at hu
      rw [hinside]
      exact h.inside_of_mutex hzero u hu
    · rw [hfailures] at hne
      simp only [hmutex, hinside]
      exact h.leaked hne
  | locks hfree hmutex hinside hother hfailures =>
    -- nobody is inside if the mutex is free, and nothing was leaked
    have hout : ∀ u, s.inside u ≠ true := fun u hu => by
      cases hfree.symm.trans (h.mutex_of_inside u hu)
    have hzero : s.failures = 0 := by
      by_contra hne
      obtain ⟨p, hp, _⟩ := h.leaked hne
      cases hfree.symm.trans hp
    refine ⟨fun u hu => ?_, fun _ u hu => ?_, fun hne => ?_⟩
    · rcases eq_or_ne u t with rfl | hne
      · exact hmutex
      · rw [hother u hne] at hu
        exact absurd hu (hout u)
    · cases hmutex.symm.trans hu
      exact hinside
    · exact absurd (hfailures.trans hzero) hne
  | unlocks hinside hmutex houtside hother hfailures =>
    have hmutex' := h.mutex_of_inside t hinside
    refine ⟨fun u hu => ?_, fun _ u hu => ?_, fun hne => ?_⟩
    · rcases eq_or_ne u t with rfl | hne
      · cases houtside.symm.trans hu
      · rw [hother u hne] at hu
        cases hmutex'.symm.trans (h.mutex_of_inside u hu)
        exact absurd rfl hne
    · cases hmutex.symm.trans hu
    · rw [hfailures] at hne
      obtain ⟨p, hp, hout⟩ := h.leaked hne
      cases hmutex'.symm.trans hp
      cases hout.symm.trans hinside
  | leaks p ht hinside hmutex houtside hother hfailures =>
    subst ht
    have hmutex' := hmutex.trans (h.mutex_of_inside _ hinside)
    refine ⟨fun u hu => ?_, fun hzero => ?_, fun _ => ⟨p, hmutex', houtside⟩⟩
    · rcases eq_or_ne u (.producer p) with rfl | hne
      · exact hmutex'
      · rw [hother u hne] at hu
        rw [hmutex]
        exact h.mutex_of_inside u hu
    · omega

/-! ## Runs -/

/-- What holds in every state that the threads reach. -/
structure Inv (s : State) : Prop where
  joins : Joins s
  counts : Counts s
  locks : Locks s
  held : ∀ p, s.mutex = some (.producer p) → (s.producers p).phase ≠ .notCreated

section Inv

variable {s s' : State} {op : Op} {p : Fin producerNum}

theorem inv_init : Inv State.init := ⟨joins_init, counts_init, locks_init, nofun⟩

theorem Inv.mutexMoves (h : Inv s) (hs' : step s op = some s') : MutexMoves s op.thread s' := by
  cases op with
  | main fails => exact (mainMoves_of_step hs').mutexMoves h.joins
  | producer p fails => exact (producerMoves_of_step hs').mutexMoves

theorem Inv.other (h : Inv s) (hs' : step s op = some s') (hthread : op.thread ≠ .producer p)
    (hcreated : (s.producers p).phase ≠ .notCreated) : s'.producers p = s.producers p := by
  cases op with
  | producer q fails =>
    refine (producerMoves_of_step hs').frame.other p fun heq => hthread ?_
    rw [heq]
    rfl
  | main fails =>
    cases mainMoves_of_step hs' with
    | create i hi hmain =>
      refine setProducer_other _ fun heq => hcreated ?_
      rw [heq]
      exact h.joins.notCreated hi hmain
    | receive hmain =>
      unfold EventLoop.receive
      split
      · rfl
      split <;> rfl
    | exhaust hmain =>
      unfold EventLoop.exhaust
      split <;> rfl
    | _ => rfl

theorem Inv.created_stays (h : Inv s) (hs' : step s op = some s')
    (hcreated : (s.producers p).phase ≠ .notCreated) : (s'.producers p).phase ≠ .notCreated := by
  by_cases hthread : op.thread = .producer p
  · cases op with
    | main fails => cases hthread
    | producer q fails =>
      cases hthread
      exact (producerMoves_of_step hs').phase.2.2.1
  · rw [h.other hs' hthread hcreated]
    exact hcreated

theorem not_inside_of_notCreated (h : (s.producers p).phase = .notCreated) :
    s.inside (.producer p) = false := by
  rw [State.inside, h]
  rfl

theorem Inv.step (h : Inv s) (hs' : step s op = some s') : Inv s' := by
  have hmutex := h.mutexMoves hs'
  have hlocks := h.locks.moves hmutex
  have hheld : ∀ p, s'.mutex = some (.producer p) → (s'.producers p).phase ≠ .notCreated := by
    intro p hp
    cases hmutex with
    | keeps hsame _ _ => exact h.created_stays hs' (h.held p (hsame ▸ hp))
    | locks _ hlocked hinside _ _ =>
      intro hnot
      rw [Option.some.inj (hlocked.symm.trans hp), not_inside_of_notCreated hnot] at hinside
      cases hinside
    | unlocks _ hfree _ _ _ => cases hfree.symm.trans hp
    | leaks _ _ _ hsame _ _ _ => exact h.created_stays hs' (h.held p (hsame ▸ hp))
  cases op with
  | main fails =>
    have hmoves := mainMoves_of_step hs'
    exact ⟨h.joins.main hmoves, h.counts.main h.joins hmoves, hlocks, hheld⟩
  | producer p fails =>
    have hmoves := producerMoves_of_step hs'
    exact ⟨h.joins.producer hmoves, h.counts.producer hmoves, hlocks, hheld⟩

end Inv

/-- The number of messages that the producers report is the number of the messages received, and
each message of the queue was received once. -/
structure Settled (s : State) : Prop where
  total : s.totalSend = s.cnt
  received : s.received = s.enqueued
  nodup : s.received.Nodup

/-- At the end, the producers report the messages that were received and the failures. -/
theorem Inv.total_of_printed {s : State} (h : Inv s) (hprinted : s.main = .printed) :
    s.totalSend = s.cnt + s.failures ∧ s.received = s.enqueued := by
  have hlog := h.counts.log
  rw [h.joins.drained hprinted, List.append_nil] at hlog
  have hfinished : ∀ p, (s.producers p).phase = .finished := fun p =>
    h.joins.joined p (by rw [hprinted]; exact p.isLt)
  have htotal := h.joins.total
  have hsettled : ∀ p : Fin producerNum,
      (if p.val < s.main.joined then (s.producers p).cnt else 0) = (s.producers p).settled := by
    intro p
    have hlt : p.val < s.main.joined := by
      rw [hprinted]
      exact p.isLt
    rw [if_pos hlt, (h.joins.finished p (hfinished p)).2, Producer.settled, hfinished p]
    rfl
  rw [Finset.sum_congr rfl fun p _ => hsettled p, h.counts.sent, hlog, ← h.counts.cnt] at htotal
  exact ⟨htotal, hlog.symm⟩

theorem Inv.settled_iff {s : State} (h : Inv s) (hprinted : s.main = .printed) :
    Settled s ↔ s.failures = 0 := by
  obtain ⟨htotal, hreceived⟩ := h.total_of_printed hprinted
  constructor
  · intro hsettled
    have heq := hsettled.total
    omega
  · intro hzero
    exact ⟨by omega, hreceived, hreceived ▸ h.counts.nodup⟩

end HakunaMatata.EventLoop
