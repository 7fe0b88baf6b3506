import HakunaMatata.EventLoop.Producers

/-!
# The messages of the producers

What `main` knows of the producers while it creates and joins them, and which messages have gone
through the queue. `Joins` and `Counts` are kept by every step of every thread.
-/

namespace HakunaMatata.EventLoop

/-! ## Creation and joining -/

/-- The number of producers that were created. -/
def MainPhase.created : MainPhase → Nat
  | .creating i => i
  | _ => producerNum

/-- The number of producers that were joined. -/
def MainPhase.joined : MainPhase → Nat
  | .joining i => i
  | .exhausting => producerNum
  | .printed => producerNum
  | _ => 0

/-- The producers were told to end. -/
def MainPhase.ended : MainPhase → Bool
  | .joining _ => true
  | .exhausting => true
  | .printed => true
  | _ => false

/-- The producers that exist, that have finished and that were joined. -/
structure Joins (s : State) : Prop where
  created : ∀ p, (s.producers p).phase = .notCreated ↔ s.main.created ≤ p.val
  finished : ∀ p, (s.producers p).phase = .finished →
    s.completed = true ∧ (s.producers p).cnt = (s.producers p).msgIdx
  joined : ∀ p, p.val < s.main.joined → (s.producers p).phase = .finished
  completed : s.completed = s.main.ended
  total : s.totalSend = ∑ p, if p.val < s.main.joined then (s.producers p).cnt else 0
  drained : s.main = .printed → s.queue = []

section Joins

variable {s s' : State} {p q : Fin producerNum}

theorem joins_init : Joins State.init where
  created _ := by simp [State.init, MainPhase.created]
  finished _ := by simp [State.init]
  joined _ := by simp [State.init, MainPhase.joined]
  completed := rfl
  total := by simp [State.init, MainPhase.joined]
  drained := by simp [State.init]

theorem Joins.producer (h : Joins s) (hmoves : ProducerMoves s p s') : Joins s' := by
  obtain ⟨hcreated, hnotFinished, hcreated', hfinished'⟩ := hmoves.phase
  have hframe := hmoves.frame
  have hjoined : ∀ q, q.val < s.main.joined → q ≠ p := by
    rintro q hq rfl
    exact hnotFinished (h.joined q hq)
  constructor
  · intro q
    rw [hframe.main, ← h.created q]
    rcases eq_or_ne q p with rfl | hne
    · exact iff_of_false hcreated' hcreated
    · rw [hframe.other q hne]
  · rw [hframe.completed]
    exact hframe.forall_producers
      (P := fun x => x.phase = .finished → s.completed = true ∧ x.cnt = x.msgIdx) hfinished'
      h.finished
  · intro q hq
    rw [hframe.main] at hq
    rw [hframe.other q (hjoined q hq)]
    exact h.joined q hq
  · rw [hframe.completed, hframe.main]
    exact h.completed
  · rw [hframe.totalSend, hframe.main, h.total]
    refine Finset.sum_congr rfl fun q _ => ?_
    split
    · rw [hframe.other q (hjoined q ‹_›)]
    · rfl
  · intro hprinted
    rw [hframe.main] at hprinted
    -- a producer that moves has not finished, but all were joined
    have hlast : p.val < s.main.joined := by
      rw [hprinted]
      exact p.isLt
    exact absurd (h.joined p hlast) hnotFinished

theorem Joins.notCreated (h : Joins s) {i : Nat} (hi : i < producerNum)
    (hmain : s.main = .creating i) : (s.producers ⟨i, hi⟩).phase = .notCreated := by
  rw [h.created, hmain]
  exact Nat.le_refl i

/-- A step of `main` other than the creation and the join of a producer. -/
theorem Joins.of_main (h : Joins s) (hproducers : s'.producers = s.producers)
    (htotal : s'.totalSend = s.totalSend) (hcreated : s'.main.created = s.main.created)
    (hjoined : s'.main.joined = s.main.joined) (hcompleted : s'.completed = s'.main.ended)
    (hkept : s.completed = true → s'.completed = true)
    (hdrained : s'.main = .printed → s'.queue = []) : Joins s' := by
  constructor
  · rw [hproducers, hcreated]
    exact h.created
  · rw [hproducers]
    exact fun p hp => ⟨hkept (h.finished p hp).1, (h.finished p hp).2⟩
  · rw [hproducers, hjoined]
    exact h.joined
  · exact hcompleted
  · rw [hproducers, htotal, hjoined]
    exact h.total
  · exact hdrained

theorem Joins.create (h : Joins s) {i : Nat} (hi : i < producerNum) (hmain : s.main = .creating i) :
    Joins { s.setProducer ⟨i, hi⟩ ⟨.sleeping, 0, 0⟩ with main := .creating (i + 1) } := by
  constructor
  · intro q
    have hq := h.created q
    rw [hmain] at hq
    rcases eq_or_ne q ⟨i, hi⟩ with rfl | hne
    · simp [MainPhase.created]
    · have hval : q.val ≠ i := fun heq => hne (Fin.ext heq)
      rw [setProducer_other _ hne, hq]
      simp only [MainPhase.created]
      omega
  · intro q
    have hfinished := h.finished q
    rcases eq_or_ne q ⟨i, hi⟩ with rfl | hne
    · simp
    · rw [setProducer_other _ hne]
      exact hfinished
  · intro q hq
    exact absurd hq (Nat.not_lt_zero _)
  · have hcompleted := h.completed
    rw [hmain] at hcompleted
    exact hcompleted
  · have htotal := h.total
    rw [hmain] at htotal
    simpa [MainPhase.joined, State.setProducer] using htotal
  · intro hprinted
    cases hprinted

theorem Joins.join (h : Joins s) {i : Nat} (hi : i < producerNum) (hmain : s.main = .joining i)
    (hfinished : (s.producers ⟨i, hi⟩).phase = .finished) :
    Joins { s with
      totalSend := s.totalSend + (s.producers ⟨i, hi⟩).cnt
      main := .joining (i + 1) } := by
  constructor
  · have hcreated := h.created
    rw [hmain] at hcreated
    exact hcreated
  · exact h.finished
  · intro q hq
    rcases Nat.lt_succ_iff_lt_or_eq.mp hq with hlt | heq
    · exact h.joined q (by rw [hmain]; exact hlt)
    · have hq' : q = ⟨i, hi⟩ := Fin.ext heq
      rw [hq']
      exact hfinished
  · have hcompleted := h.completed
    rw [hmain] at hcompleted
    exact hcompleted
  · have hsplit : ∀ q : Fin producerNum,
        (if q.val < i + 1 then (s.producers q).cnt else 0) =
          (if q.val < i then (s.producers q).cnt else 0) +
            if q = ⟨i, hi⟩ then (s.producers q).cnt else 0 := by
      intro q
      rcases eq_or_ne q ⟨i, hi⟩ with rfl | hne
      · simp
      · have hval : q.val ≠ i := fun heq => hne (Fin.ext heq)
        have hlt : q.val < i + 1 ↔ q.val < i := by omega
        simp [hne, hlt]
    have hsum : (∑ q : Fin producerNum, if q.val < i + 1 then (s.producers q).cnt else 0) =
        (∑ q : Fin producerNum, if q.val < i then (s.producers q).cnt else 0) +
          (s.producers ⟨i, hi⟩).cnt := by
      rw [Finset.sum_congr rfl fun q _ => hsplit q, Finset.sum_add_distrib, Finset.sum_ite_eq',
        if_pos (Finset.mem_univ _)]
    have htotal := h.total
    rw [hmain] at htotal
    exact (congrArg (· + (s.producers ⟨i, hi⟩).cnt) htotal).trans hsum.symm
  · intro hprinted
    cases hprinted

theorem Joins.main (h : Joins s) (hmoves : MainMoves s s') : Joins s' := by
  have hcompleted := h.completed
  cases hmoves with
  | create i hi hmain => exact h.create hi hmain
  | created i hi hmain =>
    rw [hmain] at hcompleted
    refine ⟨fun q => ?_, h.finished, nofun, hcompleted, ?_, nofun⟩
    · rw [h.created q, hmain]
      have hq := q.isLt
      simp only [MainPhase.created]
      omega
    · have htotal := h.total
      rw [hmain] at htotal
      exact htotal
  | selectFails hmain | wake hmain | lock hmain _ =>
    rw [hmain] at hcompleted
    exact h.of_main rfl rfl (by rw [hmain]; rfl) (by rw [hmain]; rfl) hcompleted id nofun
  | receive hmain =>
    rw [hmain] at hcompleted
    unfold EventLoop.receive
    split
    · exact h.of_main rfl rfl (by rw [hmain]; rfl) (by rw [hmain]; rfl) hcompleted id nofun
    split
    · exact h.of_main rfl rfl (by rw [hmain]; rfl) (by rw [hmain]; rfl) hcompleted id nofun
    · refine h.of_main rfl rfl rfl rfl h.completed id fun hprinted => ?_
      cases hmain.symm.trans hprinted
  | unlock hmain =>
    rw [hmain] at hcompleted
    cases hexit : s.exit
    · exact h.of_main rfl rfl (by rw [hmain]; rfl) (by rw [hmain]; rfl) hcompleted id nofun
    · exact h.of_main rfl rfl (by rw [hmain]; rfl) (by rw [hmain]; rfl) hcompleted id nofun
  | complete hmain =>
    exact h.of_main rfl rfl (by rw [hmain]; rfl) (by rw [hmain]; rfl) rfl (fun _ => rfl) nofun
  | join i hi hmain hfinished => exact h.join hi hmain hfinished
  | joined i hi hmain =>
    rw [hmain] at hcompleted
    have hall : ∀ q : Fin producerNum, q.val < i := fun q => Nat.lt_of_lt_of_le q.isLt hi
    refine ⟨fun q => ?_, h.finished, fun q _ => ?_, hcompleted, ?_, nofun⟩
    · rw [h.created q, hmain]
      rfl
    · exact h.joined q (by rw [hmain]; exact hall q)
    · have htotal := h.total
      rw [hmain] at htotal
      simp only [MainPhase.joined, hall, if_true, Fin.is_lt] at htotal ⊢
      exact htotal
  | exhaust hmain =>
    rw [hmain] at hcompleted
    unfold EventLoop.exhaust
    split
    · exact h.of_main rfl rfl (by rw [hmain]; rfl) (by rw [hmain]; rfl) hcompleted id fun _ => ‹_›
    · refine h.of_main rfl rfl rfl rfl h.completed id fun hprinted => ?_
      cases hmain.symm.trans hprinted

end Joins

/-! ## The messages -/

/-- A message that was counted and is not yet given to the queue. -/
def Phase.pending : Phase → Nat
  | .atLock => 1
  | .locked => 1
  | _ => 0

/-- The number of the messages that were given to the queue. -/
def Producer.settled (producer : Producer) : Nat :=
  producer.msgIdx - producer.phase.pending

/-- What the queue took is what was taken out and what it holds. The producers have given it what it
took and what it did not take. -/
structure Counts (s : State) : Prop where
  log : s.enqueued = s.received ++ s.queue
  cnt : s.cnt = s.received.length
  idle : ∀ p, (s.producers p).phase = .notCreated → (s.producers p).msgIdx = 0
  pending_le : ∀ p, (s.producers p).phase.pending ≤ (s.producers p).msgIdx
  sent : ∑ p, (s.producers p).settled = s.enqueued.length + s.failures
  fresh : ∀ m ∈ s.enqueued, m.msgIdx ≤ (s.producers m.threadIdx).settled
  nodup : s.enqueued.Nodup

section Counts

variable {s s' : State} {p q : Fin producerNum}

theorem counts_init : Counts State.init where
  log := rfl
  cnt := rfl
  idle _ _ := rfl
  pending_le _ := Nat.zero_le _
  sent := by simp [State.init, Producer.settled]
  fresh := nofun
  nodup := List.nodup_nil

theorem sum_settled_succ (hother : ∀ q, q ≠ p → s'.producers q = s.producers q)
    (hp : (s'.producers p).settled = (s.producers p).settled + 1) :
    ∑ q, (s'.producers q).settled = ∑ q, (s.producers q).settled + 1 := by
  have hrest : ∑ q ∈ Finset.univ.erase p, (s'.producers q).settled =
      ∑ q ∈ Finset.univ.erase p, (s.producers q).settled :=
    Finset.sum_congr rfl fun q hq => by rw [hother q (Finset.ne_of_mem_erase hq)]
  have hbefore := Finset.add_sum_erase Finset.univ (fun q => (s.producers q).settled)
    (Finset.mem_univ p)
  have hafter := Finset.add_sum_erase Finset.univ (fun q => (s'.producers q).settled)
    (Finset.mem_univ p)
  omega

theorem Counts.quiet (h : Counts s) (hframe : Frame s p s') (hqueue : s'.queue = s.queue)
    (henqueued : s'.enqueued = s.enqueued) (hfailures : s'.failures = s.failures)
    (hphase : (s'.producers p).phase ≠ .notCreated)
    (hpending : (s'.producers p).phase.pending ≤ (s'.producers p).msgIdx)
    (hsettled : (s'.producers p).settled = (s.producers p).settled) : Counts s' := by
  have hall : ∀ q, (s'.producers q).settled = (s.producers q).settled := by
    intro q
    rcases eq_or_ne q p with rfl | hne
    · exact hsettled
    · rw [hframe.other q hne]
  constructor
  · rw [henqueued, hframe.received, hqueue]
    exact h.log
  · rw [hframe.cnt, hframe.received]
    exact h.cnt
  · exact hframe.forall_producers (P := fun x => x.phase = .notCreated → x.msgIdx = 0)
      (fun hnot => absurd hnot hphase) h.idle
  · exact hframe.forall_producers (P := fun x => x.phase.pending ≤ x.msgIdx) hpending h.pending_le
  · rw [Finset.sum_congr rfl fun q _ => hall q, henqueued, hfailures]
    exact h.sent
  · intro m hm
    rw [henqueued] at hm
    rw [hall]
    exact h.fresh m hm
  · rw [henqueued]
    exact h.nodup

theorem Counts.settles (h : Counts s) (hframe : Frame s p s')
    (hphase : (s.producers p).phase = .locked) (taken : Option Message)
    (hmsgIdx : (s'.producers p).msgIdx = (s.producers p).msgIdx)
    (hphase' : (s'.producers p).phase ≠ .notCreated ∧ (s'.producers p).phase.pending = 0)
    (hqueue : s'.queue = s.queue ++ taken.toList)
    (henqueued : s'.enqueued = s.enqueued ++ taken.toList)
    (hfailures : taken.toList.length + s'.failures = s.failures + 1)
    (htaken : ∀ m ∈ taken.toList, m = ⟨p, (s.producers p).msgIdx⟩) : Counts s' := by
  have hpositive : 1 ≤ (s.producers p).msgIdx := by
    have hle := h.pending_le p
    rw [hphase] at hle
    exact hle
  have hbefore : (s.producers p).settled = (s.producers p).msgIdx - 1 := by
    rw [Producer.settled, hphase]
    rfl
  have hafter : (s'.producers p).settled = (s.producers p).msgIdx := by
    rw [Producer.settled, hphase'.2, hmsgIdx]
    rfl
  constructor
  · rw [henqueued, hframe.received, hqueue, h.log, List.append_assoc]
  · rw [hframe.cnt, hframe.received]
    exact h.cnt
  · exact hframe.forall_producers (P := fun x => x.phase = .notCreated → x.msgIdx = 0)
      (fun hnot => absurd hnot hphase'.1) h.idle
  · refine hframe.forall_producers (P := fun x => x.phase.pending ≤ x.msgIdx) ?_ h.pending_le
    rw [hphase'.2]
    exact Nat.zero_le _
  · have hsum := sum_settled_succ hframe.other (by omega)
    have hsent := h.sent
    rw [henqueued, List.length_append]
    omega
  · intro m hm
    rw [henqueued, List.mem_append] at hm
    rcases hm with hold | hnew
    · have hm := h.fresh m hold
      rcases eq_or_ne m.threadIdx p with heq | hne
      · rw [heq] at hm ⊢
        omega
      · rw [hframe.other _ hne]
        exact hm
    · rw [htaken m hnew]
      exact Nat.le_of_eq hafter.symm
  · rw [henqueued]
    refine List.nodup_append.mpr ⟨h.nodup, by cases taken <;> simp, fun m hold new hnew heq => ?_⟩
    have hm := h.fresh m hold
    rw [heq, htaken new hnew] at hm
    dsimp only at hm
    omega

theorem Counts.producer (h : Counts s) (hmoves : ProducerMoves s p s') : Counts s' := by
  have hframe := hmoves.frame
  have hphase' := hmoves.phase.2.2.1
  have hpending := h.pending_le p
  cases hmoves with
  | prepare hphase =>
    refine h.quiet hframe rfl rfl rfl hphase' ?_ ?_
    · simp [EventLoop.prepare, Phase.pending]
    · simp [EventLoop.prepare, Producer.settled, hphase, Phase.pending]
  | lock hphase _ =>
    rw [hphase] at hpending
    refine h.quiet hframe rfl rfl rfl hphase' ?_ ?_
    · simpa [EventLoop.lock, State.goto, Phase.pending] using hpending
    · simp [EventLoop.lock, State.goto, Producer.settled, hphase, Phase.pending]
  | enqueueFails hphase =>
    refine h.settles hframe hphase none ?_ ⟨hphase', ?_⟩ ?_ ?_ ?_
      fun _ hm => absurd hm List.not_mem_nil
    all_goals simp [EventLoop.enqueueFails, State.goto, State.setProducer, Phase.pending]
  | enqueue hphase =>
    refine h.settles hframe hphase (some ⟨p, (s.producers p).msgIdx⟩) ?_ ⟨hphase', ?_⟩ ?_ ?_ ?_ ?_
    all_goals
      simp [EventLoop.enqueue, State.goto, State.setProducer, Phase.pending, Nat.add_comm]
  | unlock hphase =>
    refine h.quiet hframe rfl rfl rfl hphase' ?_ ?_
    · simp [EventLoop.unlock, State.goto, Phase.pending]
    · simp [EventLoop.unlock, State.goto, Producer.settled, hphase, Phase.pending]
  | wakeup hphase =>
    refine h.quiet hframe rfl rfl rfl hphase' ?_ ?_
    · simp [EventLoop.wakeup, State.goto, Phase.pending]
    · simp [EventLoop.wakeup, State.goto, Producer.settled, hphase, Phase.pending]
  | check hphase =>
    unfold EventLoop.check at hframe hphase' ⊢
    split at hframe <;> rename_i hcompleted
    · simp only [hcompleted, if_true] at hphase' ⊢
      refine h.quiet hframe rfl rfl rfl hphase' ?_ ?_
      · simp [Phase.pending]
      · simp [Producer.settled, hphase, Phase.pending]
    · simp only [hcompleted] at hphase' ⊢
      refine h.quiet hframe rfl rfl rfl hphase' ?_ ?_
      · simp [State.goto, Phase.pending]
      · simp [State.goto, Producer.settled, hphase, Phase.pending]

/-- A step of `main` that neither creates a producer nor takes out a message. -/
theorem Counts.of_main (h : Counts s) (hproducers : s'.producers = s.producers)
    (hqueue : s'.queue = s.queue) (hcnt : s'.cnt = s.cnt) (hreceived : s'.received = s.received)
    (henqueued : s'.enqueued = s.enqueued) (hfailures : s'.failures = s.failures) :
    Counts s' := by
  constructor
  · rw [henqueued, hreceived, hqueue]
    exact h.log
  · rw [hcnt, hreceived]
    exact h.cnt
  · rw [hproducers]
    exact h.idle
  · rw [hproducers]
    exact h.pending_le
  · rw [hproducers, henqueued, hfailures]
    exact h.sent
  · rw [hproducers, henqueued]
    exact h.fresh
  · rw [henqueued]
    exact h.nodup

theorem Counts.dequeue (h : Counts s) (hqueue : s.queue ≠ []) : Counts (dequeue s) := by
  obtain ⟨m, rest, hrest⟩ := List.exists_cons_of_ne_nil hqueue
  refine ⟨?_, ?_, h.idle, h.pending_le, h.sent, h.fresh, h.nodup⟩
  · simp [EventLoop.dequeue, h.log, hrest]
  · simp [EventLoop.dequeue, h.cnt, hrest]

theorem Counts.create (h : Counts s) (hphase : (s.producers p).phase = .notCreated) :
    Counts (s.setProducer p ⟨.sleeping, 0, 0⟩) := by
  have hframe : Frame s p (s.setProducer p ⟨.sleeping, 0, 0⟩) :=
    ⟨rfl, rfl, rfl, rfl, rfl, fun q hq => setProducer_other _ hq⟩
  refine h.quiet hframe rfl rfl rfl ?_ ?_ ?_
  · simp
  · simp [Phase.pending]
  · simp [Producer.settled, h.idle p hphase]

theorem Counts.main (h : Counts s) (hjoins : Joins s) (hmoves : MainMoves s s') : Counts s' := by
  cases hmoves with
  | create i hi hmain =>
    exact (h.create (hjoins.notCreated hi hmain)).of_main rfl rfl rfl rfl rfl rfl
  | receive hmain =>
    unfold EventLoop.receive
    split
    · exact h.of_main rfl rfl rfl rfl rfl rfl
    · have hdequeue := h.dequeue ‹_›
      split
      · exact hdequeue.of_main rfl rfl rfl rfl rfl rfl
      · exact hdequeue
  | exhaust hmain =>
    unfold EventLoop.exhaust
    split
    · exact h.of_main rfl rfl rfl rfl rfl rfl
    · exact h.dequeue ‹_›
  | _ => exact h.of_main rfl rfl rfl rfl rfl rfl

end Counts

end HakunaMatata.EventLoop
