import HakunaMatata.Base.Machine

/-!
# The reconnect timers of a peer, `peer.c`

A peer that reconnects starts a timer when its connection is lost, and connects again when the
timer expires. `events.reconn.ev` is the timer to free when the peer is connected, when the
reconnect is switched off and when the peer is freed. `peerStartReconn` stores a new timer there
without a look at the old one, and an expired timer stays allocated. So the second failure in a row
loses the first timer, and a lost timer still refers to the peer when that is freed.
`reconnect_timers_iff` says that this is the only way to lose one.
-/

namespace HakunaMatata.Libevent.Reconnect

open Base

/-- A timer that is allocated for the peer. It is pending from `event_add` on until it expires. -/
structure Timer where
  id : Nat
  delay : UInt16
  pending : Bool
  deriving DecidableEq, Repr

/-- The part of `struct Peer` that the reconnect uses: the flag `PEER_AUTO_RECONNECT` and
`events.reconn`. -/
structure Peer where
  autoReconnect : Bool
  ev : Option Nat
  interval : UInt16
  maxIncrease : UInt16
  deriving DecidableEq, Repr

/-- The peer, whether it has been freed, the timers that are allocated, and the next address. -/
structure State where
  peer : Peer
  freed : Bool
  timers : List Timer
  fresh : Nat
  deriving DecidableEq, Repr

/-- The timers that are allocated. -/
def State.ids (s : State) : List Nat :=
  s.timers.map Timer.id

/-- What happens when a timer is started: there is no event base, `event_new` or `event_add` fails,
or the timer runs. -/
inductive Started where
  | noBase
  | notNew
  | notAdded
  | added
  deriving DecidableEq, Repr

/-- `event_free`. -/
def eventFree (s : State) (id : Nat) : Except Fault State :=
  if id ∈ s.ids then .ok { s with timers := s.timers.filter (·.id ≠ id) }
  else .error .outOfBounds

/-- `peerStartReconn`, without what it does to the socket. -/
def peerStartReconn (s : State) : Started → State
  | .noBase => s
  | .notNew => s
  | .notAdded => { s with fresh := s.fresh + 1 } -- allocated, and freed at once
  | .added =>
    { s with
      peer := { s.peer with ev := some s.fresh }
      timers := s.timers ++ [⟨s.fresh, s.peer.interval, true⟩]
      fresh := s.fresh + 1 }

/-- `peerStopReconn`. -/
def peerStopReconn (s : State) : Except Fault State :=
  s.peer.ev.elim (.ok s) fun id => do
    let s ← eventFree s id
    return { s with peer := { s.peer with ev := none } }

/-- The arguments of `peerSetReconn`. -/
structure SetReconn where
  intervalSec : UInt16
  maxIncre : UInt16
  deriving DecidableEq, Repr

/-- `peerSetReconn`. Without an interval it frees the timer as `peerStopReconn` does. -/
def peerSetReconn (s : State) (call : SetReconn) : Except Fault State := do
  let s ←
    if 0 < call.intervalSec then .ok { s with peer := { s.peer with autoReconnect := true } }
    else peerStopReconn { s with peer := { s.peer with autoReconnect := false } }
  return { s with
    peer := { s.peer with interval := call.intervalSec, maxIncrease := call.maxIncre } }

/-- `peerFree`. -/
def peerFree (s : State) : Except Fault State := do
  let s ← peerSetReconn s ⟨0, 0⟩
  return { s with freed := true }

/-- The events of a `bufferevent`. -/
structure Events where
  connected : Bool
  error : Bool
  eof : Bool
  deriving DecidableEq, Repr

/-- The first part of `eventcb`, with the calls of `peerSetReconn` that `func_event` makes. -/
def notify (s : State) (events : Events) (calls : List SetReconn) : Except Fault State := do
  let s ← if events.connected then peerStopReconn s else .ok s
  calls.foldlM peerSetReconn s

/-- `eventcb`. -/
def eventcb (s : State) (events : Events) (calls : List SetReconn) (started : Started) :
    Except Fault State := do
  let s ← notify s events calls
  if events.error || events.eof then
    if s.peer.autoReconnect then return peerStartReconn s started
    else peerFree s
  else return s

/-- A pending timer expires, and `reconncb` connects the peer that the timer refers to. -/
def expire (s : State) (id : Nat) : Except Fault State :=
  if s.timers.any fun timer => timer.id = id && timer.pending then
    if s.freed then .error .outOfBounds
    else .ok { s with timers := s.timers.map fun timer =>
      if timer.id = id then { timer with pending := false } else timer }
  else .ok s

/-- What can happen to a peer. -/
inductive Op where
  | event (events : Events) (calls : List SetReconn) (started : Started)
  | expire (id : Nat)
  | setReconn (call : SetReconn)
  | free
  deriving DecidableEq, Repr

/-- One operation. The callbacks and the functions of a peer that is freed use its memory. -/
def step (s : State) : Op → Except Fault State
  | .event events calls started =>
    if s.freed then .error .outOfBounds else eventcb s events calls started
  | .expire id => expire s id
  | .setReconn call => if s.freed then .error .outOfBounds else peerSetReconn s call
  | .free => if s.freed then .error .outOfBounds else peerFree s

/-- A peer after `peerConnectTo`: all fields are zero. -/
def State.start : State where
  peer := ⟨false, none, 0, 0⟩
  freed := false
  timers := []
  fresh := 0

/-! ## The timer that is stored -/

/-- The timer that is stored in the peer is allocated, and no other one. After `peerFree` none
is. -/
def Tidy (s : State) : Prop :=
  s.ids = if s.freed then [] else s.peer.ev.toList

/-- The connection is lost, and libevent starts the timer that it is asked for. -/
def Op.Loses : Op → Prop
  | .event events _ started => (events.error || events.eof) = true ∧ started = .added
  | .expire _ => False
  | .setReconn _ => False
  | .free => False

/-- The peer is connected, or the reconnect is switched off by a `peerSetReconn` with interval 0,
which `peerFree` calls too. -/
def Op.Clears : Op → Prop
  | .event events calls _ => events.connected = true ∨ ∃ call ∈ calls, call.intervalSec = 0
  | .expire _ => False
  | .setReconn call => call.intervalSec = 0
  | .free => True

/-- The connection is lost while a timer is stored, and nothing frees that one before. -/
def Restarts (s : State) (op : Op) : Prop :=
  s.freed = false ∧ s.peer.ev ≠ none ∧ op.Loses ∧ ¬ op.Clears

/-! ## What an operation does with the stored timer -/

/-- The timer that is stored in a peer that is not freed is the only one. -/
structure Kept (s : State) : Prop where
  alive : s.freed = false
  ids_eq : s.ids = s.peer.ev.toList

/-- A timer is stored only in a peer that reconnects. -/
def Armed (s : State) : Prop :=
  s.peer.ev ≠ none → s.peer.autoReconnect = true

/-- The peer is freed, and no timer is left. -/
structure Gone (s : State) : Prop where
  freed : s.freed = true
  ids_eq : s.ids = []

/-- The stored timer is kept unless it is cleared. -/
structure Turns (cleared : Prop) (s s' : State) : Prop where
  kept : Kept s'
  stored_iff : s'.peer.ev ≠ none ↔ s.peer.ev ≠ none ∧ ¬ cleared
  armed : Armed s → Armed s'

/-- What an operation leads to that loses no timer: the peer is freed, or a timer is stored if it
was started, or if it was stored and is not cleared. -/
def Leaves (s : State) (op : Op) (s' : State) : Prop :=
  Gone s' ∨ Kept s' ∧ Armed s' ∧ (s'.peer.ev ≠ none ↔ op.Loses ∨ s.peer.ev ≠ none ∧ ¬ op.Clears)

section Steps

variable {s s' next : State} {op : Op} {started : Started} {cleared cleared' : Prop}

theorem Kept.tidy (h : Kept s) : Tidy s := by
  rw [Tidy, h.alive]
  exact h.ids_eq

theorem Gone.tidy (h : Gone s) : Tidy s := by
  rw [Tidy, h.freed]
  exact h.ids_eq

theorem Turns.trans (h : Turns cleared s next) (h' : Turns cleared' next s') :
    Turns (cleared ∨ cleared') s s' where
  kept := h'.kept
  stored_iff := by rw [h'.stored_iff, h.stored_iff, and_assoc, not_or]
  armed := h'.armed ∘ h.armed

theorem Kept.turns (h : Kept s') (hnone : s'.peer.ev = none) (hcleared : cleared) :
    Turns cleared s s' where
  kept := h
  stored_iff := by simp [hnone, hcleared]
  armed _ hne := absurd hnone hne

theorem Kept.peerStopReconn (h : Kept s) :
    ∃ s', peerStopReconn s = .ok s' ∧ Kept s' ∧ s'.peer.ev = none := by
  have hids := h.ids_eq
  cases hev : s.peer.ev with
  | none => exact ⟨s, by rw [Reconnect.peerStopReconn, hev]; rfl, h, hev⟩
  | some id =>
    rw [hev, Option.toList_some] at hids
    have hfree : eventFree s id = .ok { s with timers := s.timers.filter (·.id ≠ id) } :=
      if_pos (hids ▸ List.mem_singleton_self id)
    obtain ⟨timer, htimers, hid⟩ := List.map_eq_singleton_iff.1 hids
    refine ⟨{ s with
      timers := s.timers.filter (·.id ≠ id), peer := { s.peer with ev := none } }, ?_, ?_, rfl⟩
    · rw [Reconnect.peerStopReconn, hev, Option.elim_some, hfree]
      rfl
    · refine ⟨h.alive, ?_⟩
      simp [State.ids, htimers, hid]

/-- Switching the reconnect on or off keeps the stored timer the only one. -/
theorem Kept.peerSetReconn (h : Kept s) (call : SetReconn) :
    ∃ s', peerSetReconn s call = .ok s' ∧ Turns (call.intervalSec = 0) s s' := by
  unfold Reconnect.peerSetReconn
  by_cases hzero : call.intervalSec = 0
  · have hoff : Kept { s with peer := { s.peer with autoReconnect := false } } :=
      ⟨h.alive, h.ids_eq⟩
    obtain ⟨s', hstop, hkept, hnone⟩ := hoff.peerStopReconn
    rw [if_neg (by simp [hzero]), hstop, ok_bind]
    exact ⟨_, rfl, Kept.turns ⟨hkept.alive, hkept.ids_eq⟩ hnone hzero⟩
  · rw [if_pos (UInt16.pos_iff_ne_zero.2 hzero), ok_bind]
    exact ⟨_, rfl, ⟨h.alive, h.ids_eq⟩, by simp [hzero], fun _ _ => rfl⟩

theorem Kept.peerFree (h : Kept s) : ∃ s', peerFree s = .ok s' ∧ Gone s' := by
  obtain ⟨s', hset, hturns⟩ := h.peerSetReconn ⟨0, 0⟩
  have hnone : s'.peer.ev = none := by simpa using hturns.stored_iff
  refine ⟨{ s' with freed := true }, ?_, rfl, ?_⟩
  · rw [Reconnect.peerFree, hset]
    rfl
  · show s'.ids = []
    rw [hturns.kept.ids_eq, hnone, Option.toList_none]

theorem Kept.foldlM_peerSetReconn (h : Kept s) (calls : List SetReconn) :
    ∃ s', calls.foldlM Reconnect.peerSetReconn s = .ok s' ∧
      Turns (∃ call ∈ calls, call.intervalSec = 0) s s' := by
  induction calls generalizing s with
  | nil => exact ⟨s, rfl, h, by simp, id⟩
  | cons call calls ih =>
    obtain ⟨next, hnext, hturns⟩ := h.peerSetReconn call
    obtain ⟨s', hs', hturns'⟩ := ih hturns.kept
    refine ⟨s', ?_, by simpa using hturns.trans hturns'⟩
    rw [List.foldlM_cons, hnext, ok_bind, hs']

theorem Kept.notify (h : Kept s) (events : Events) (calls : List SetReconn) (started : Started) :
    ∃ s', notify s events calls = .ok s' ∧ Turns (Op.event events calls started).Clears s s' := by
  unfold Reconnect.notify
  cases hconnected : events.connected with
  | false =>
    obtain ⟨s', hs', hturns⟩ := h.foldlM_peerSetReconn calls
    exact ⟨s', hs', by simpa [Op.Clears, hconnected] using hturns⟩
  | true =>
    obtain ⟨next, hnext, hkept, hnone⟩ := h.peerStopReconn
    obtain ⟨s', hs', hturns⟩ := hkept.foldlM_peerSetReconn calls
    refine ⟨s', ?_, ?_⟩
    · rw [if_pos rfl, hnext, ok_bind]
      exact hs'
    · simpa [Op.Clears, hconnected] using (hkept.turns hnone trivial).trans hturns

/-- Starting a timer loses the one that is stored, if there is one. -/
theorem Kept.peerStartReconn (h : Kept s) (started : Started)
    (hauto : s.peer.autoReconnect = true) :
    (started = .added ∧ s.peer.ev ≠ none → ¬ Tidy (peerStartReconn s started)) ∧
    (¬ (started = .added ∧ s.peer.ev ≠ none) → Kept (peerStartReconn s started)) ∧
    Armed (peerStartReconn s started) ∧
    ((peerStartReconn s started).peer.ev ≠ none ↔ started = .added ∨ s.peer.ev ≠ none) := by
  cases started with
  | added =>
    have hids : (Reconnect.peerStartReconn s .added).ids = s.peer.ev.toList ++ [s.fresh] := by
      rw [← h.ids_eq]
      simp [Reconnect.peerStartReconn, State.ids]
    refine ⟨fun hstored => ?_, fun hnone => ⟨h.alive, ?_⟩, fun _ => hauto, ?_⟩
    · obtain ⟨id, hev⟩ := Option.ne_none_iff_exists'.1 hstored.2
      rw [Tidy, hids]
      simp [Reconnect.peerStartReconn, h.alive, hev]
    · have hev : s.peer.ev = none := by simpa using hnone
      rw [hids, hev]
      rfl
    · simp [Reconnect.peerStartReconn]
  | _ => exact ⟨fun hadded => by simp at hadded, fun _ => ⟨h.alive, h.ids_eq⟩, fun _ => hauto,
      by simp [Reconnect.peerStartReconn]⟩

theorem Kept.eventcb (h : Kept s) (harmed : Armed s) (events : Events) (calls : List SetReconn)
    (started : Started) :
    ∃ s', eventcb s events calls started = .ok s' ∧
      (Restarts s (.event events calls started) → ¬ Tidy s') ∧
      (¬ Restarts s (.event events calls started) → Leaves s (.event events calls started) s') := by
  obtain ⟨next, hnext, hturns⟩ := h.notify events calls started
  have hrestarts : Restarts s (.event events calls started) ↔
      (events.error || events.eof) = true ∧ started = .added ∧ next.peer.ev ≠ none := by
    rw [hturns.stored_iff]
    simp only [Restarts, h.alive, Op.Loses]
    tauto
  rw [hrestarts, Reconnect.eventcb, hnext, ok_bind]
  by_cases hlost : (events.error || events.eof) = true
  · rw [if_pos hlost]
    by_cases hauto : next.peer.autoReconnect = true
    · obtain ⟨hloses, hkept, harmed', hstored⟩ := hturns.kept.peerStartReconn started hauto
      refine ⟨_, if_pos hauto, fun hr => hloses hr.2, fun hr => .inr ⟨hkept ?_, harmed', ?_⟩⟩
      · simpa [hlost] using hr
      · rw [hstored, hturns.stored_iff]
        simp [Op.Loses, hlost]
    · obtain ⟨s', hs', hgone⟩ := hturns.kept.peerFree
      rw [if_neg hauto]
      exact ⟨s', hs', fun hr => absurd (hturns.armed harmed hr.2.2) hauto, fun _ => .inl hgone⟩
  · rw [if_neg hlost]
    refine ⟨next, rfl, fun hr => absurd hr.1 hlost,
      fun _ => .inr ⟨hturns.kept, hturns.armed harmed, ?_⟩⟩
    simpa [Op.Loses, hlost] using hturns.stored_iff

theorem expire_of_alive (halive : s.freed = false) (id : Nat) :
    ∃ s', expire s id = .ok s' ∧ s'.ids = s.ids ∧ s'.peer = s.peer ∧ s'.freed = false := by
  unfold Reconnect.expire
  split
  · rw [if_neg (by simp [halive])]
    refine ⟨_, rfl, ?_, rfl, halive⟩
    have hids : ∀ timer : Timer,
        (if timer.id = id then { timer with pending := false } else timer).id = timer.id := by
      intro timer
      split <;> rfl
    simp [State.ids, Function.comp_def, hids]
  · exact ⟨s, rfl, rfl, rfl, halive⟩

/-- An operation loses a timer exactly if it starts one while another one is stored. -/
theorem Kept.step (h : Kept s) (harmed : Armed s) (op : Op) :
    ∃ s', step s op = .ok s' ∧ (Restarts s op → ¬ Tidy s') ∧
      (¬ Restarts s op → Leaves s op s') := by
  cases op with
  | event events calls started =>
    simpa [Reconnect.step, h.alive] using h.eventcb harmed events calls started
  | expire id =>
    obtain ⟨s', hs', hids, hpeer, halive⟩ := expire_of_alive h.alive id
    refine ⟨s', hs', fun hr => hr.2.2.1.elim, fun _ => .inr ⟨⟨halive, ?_⟩, ?_, ?_⟩⟩
    · rw [hids, hpeer, h.ids_eq]
    · rwa [Armed, hpeer]
    · simp [hpeer, Op.Loses, Op.Clears]
  | setReconn call =>
    obtain ⟨s', hs', hturns⟩ := h.peerSetReconn call
    refine ⟨s', by simpa [Reconnect.step, h.alive] using hs', fun hr => hr.2.2.1.elim,
      fun _ => .inr ⟨hturns.kept, hturns.armed harmed, ?_⟩⟩
    simpa [Op.Loses, Op.Clears] using hturns.stored_iff
  | free =>
    obtain ⟨s', hs', hgone⟩ := h.peerFree
    exact ⟨s', by simpa [Reconnect.step, h.alive] using hs', fun hr => hr.2.2.1.elim,
      fun _ => .inl hgone⟩

theorem Gone.step (h : Gone s) (hstep : step s op = .ok s') : s' = s ∧ ¬ op.Loses := by
  have htimers : s.timers = [] := List.map_eq_nil_iff.1 h.ids_eq
  cases op with
  | expire id =>
    cases (show expire s id = .ok s by simp [expire, htimers]).symm.trans hstep
    exact ⟨rfl, False.elim⟩
  | _ => simp [Reconnect.step, h.freed] at hstep

/-- The peer is freed, or its stored timer is the only one. -/
def Sound (s : State) : Prop :=
  Gone s ∨ Kept s ∧ Armed s

theorem Sound.step (h : Sound s) (hstep : step s op = .ok s') :
    (Tidy s' ↔ ¬ Restarts s op) ∧ (¬ Restarts s op → Sound s') := by
  rcases h with hgone | ⟨hkept, harmed⟩
  · obtain ⟨rfl, hkeeps⟩ := hgone.step hstep
    exact ⟨iff_of_true hgone.tidy fun hr => hkeeps hr.2.2.1, fun _ => .inl hgone⟩
  · obtain ⟨next, hnext, hloses, hleaves⟩ := hkept.step harmed op
    cases hnext.symm.trans hstep
    refine ⟨⟨fun htidy hr => hloses hr htidy, fun hr => ?_⟩, fun hr => ?_⟩
    · exact (hleaves hr).elim Gone.tidy fun h => h.1.tidy
    · exact (hleaves hr).imp_right fun h => ⟨h.1, h.2.1⟩

end Steps

/-- Before each loss of the connection, or with it, the peer is connected or the reconnect is
switched off. -/
def Guarded (ops : List Op) : Prop :=
  ∀ between second after, ops = between ++ second :: after → second.Loses →
    ∃ op ∈ between ++ [second], op.Clears

/-- Between two losses of the connection, or with the second one, the peer is connected or the
reconnect is switched off. -/
def Separated (ops : List Op) : Prop :=
  ∀ before first between second after, ops = before ++ first :: (between ++ second :: after) →
    first.Loses → second.Loses → ∃ op ∈ between ++ [second], op.Clears

section Separation

variable {op : Op} {ops : List Op}

theorem guarded_cons :
    Guarded (op :: ops) ↔ (op.Loses → op.Clears) ∧ (op.Clears ∨ Guarded ops) := by
  constructor
  · intro h
    refine ⟨fun hloses => by simpa using h [] op ops rfl hloses, ?_⟩
    refine or_iff_not_imp_left.2 fun hkeeps between second after hops hloses => ?_
    obtain ⟨clearing, hmem, hclears⟩ := h (op :: between) second after (by simp [hops]) hloses
    rcases List.mem_cons.1 hmem with rfl | hmem
    · exact absurd hclears hkeeps
    · exact ⟨clearing, hmem, hclears⟩
  · rintro ⟨hself, hrest⟩ between second after hops hloses
    cases between with
    | nil =>
      cases hops
      exact ⟨op, by simp, hself hloses⟩
    | cons head between =>
      cases hops
      rcases hrest with hclears | hguarded
      · exact ⟨op, by simp, hclears⟩
      · obtain ⟨clearing, hmem, hclears⟩ := hguarded between second after rfl hloses
        exact ⟨clearing, List.mem_cons_of_mem _ hmem, hclears⟩

theorem separated_cons :
    Separated (op :: ops) ↔ Separated ops ∧ (op.Loses → Guarded ops) := by
  constructor
  · intro h
    refine ⟨fun before first between second after hops => ?_,
      fun hloses between second after hops =>
        h [] op between second after (by simp [hops]) hloses⟩
    exact h (op :: before) first between second after (by simp [hops])
  · rintro ⟨hrest, hguarded⟩ before first between second after hops hfirst
    cases before with
    | nil =>
      cases hops
      exact hguarded hfirst between second after rfl
    | cons head before =>
      cases hops
      exact hrest before first between second after rfl hfirst

theorem Gone.guarded {s s' : State} (h : Gone s)
    (hrun : ops.foldlM Reconnect.step s = .ok s') : Guarded ops := by
  induction ops with
  | nil => simp [Guarded]
  | cons op ops ih =>
    obtain ⟨next, hnext, hrest⟩ := bind_eq_ok.mp hrun
    obtain ⟨rfl, hkeeps⟩ := h.step hnext
    exact guarded_cons.2 ⟨fun hloses => absurd hloses hkeeps, .inr (ih hrest)⟩

/-- In a run without a fault no timer is started while another one is stored exactly if the losses
of the connection are separated, the first one also from the timer that is stored at the start. -/
theorem along_iff_separated {s s' : State} (h : Sound s) (hrun : ops.foldlM step s = .ok s') :
    Along step (fun s op => ¬ Restarts s op) s ops ↔
      Separated ops ∧ (s.freed = false ∧ s.peer.ev ≠ none → Guarded ops) := by
  induction ops generalizing s with
  | nil => simp [Along, Separated, Guarded]
  | cons op ops ih =>
    obtain ⟨next, hnext, hrest⟩ := bind_eq_ok.mp hrun
    have halong : Along step (fun s op => ¬ Restarts s op) s (op :: ops) ↔
        ¬ Restarts s op ∧ Along step (fun s op => ¬ Restarts s op) next ops := by
      simp [Along, hnext]
    rw [halong, separated_cons, guarded_cons]
    by_cases hr : Restarts s op
    · -- the loss is not separated from the stored timer
      obtain ⟨halive, hstored, hloses, hkeeps⟩ := hr
      simp [Restarts, halive, hstored, hloses, hkeeps]
    rw [ih ((h.step hnext).2 hr) hrest, and_iff_right hr]
    rcases h with hgone | ⟨hkept, harmed⟩
    · obtain ⟨rfl, hkeeps⟩ := hgone.step hnext
      simp [hgone.freed, hkeeps]
    · obtain ⟨_, hs', _, hleaves⟩ := hkept.step harmed op
      cases hs'.symm.trans hnext
      have hclears : s.peer.ev ≠ none → op.Loses → op.Clears := by
        simpa [Restarts, hkept.alive] using hr
      rcases hleaves hr with hgone | ⟨hkept', _, hstored⟩
      · have hguarded := hgone.guarded hrest
        simpa [hgone.freed, hguarded] using fun _ _ => hclears
      · rw [hstored, hkept'.alive, hkept.alive]
        grind

end Separation

/-- For every run of events, expirations, calls of `peerSetReconn` and a `peerFree`, whatever
libevent answers: at every point the only timer that is allocated is the one that is stored in the
peer, and none is after `peerFree`, exactly if no timer is started while another one is stored. If
the peer is not used after it is freed, that is exactly if between two losses of the connection, or
with the second one, the peer is connected or the reconnect is switched off. -/
theorem reconnect_timers_iff (ops : List Op) :
    (Throughout step Tidy .start ops ↔ Along step (fun s op => ¬ Restarts s op) .start ops) ∧
    ∀ s, ops.foldlM step .start = .ok s →
      (Throughout step Tidy .start ops ↔ Separated ops) := by
  have hstart : Sound .start := .inr ⟨⟨rfl, rfl⟩, fun hne => absurd rfl hne⟩
  have hiff : Throughout step Tidy .start ops ↔
      Along step (fun s op => ¬ Restarts s op) .start ops := by
    refine throughout_iff_along_of_inv (fun s op s' (h : Sound s) hs' => (h.step hs').1)
      (fun s op s' h hs' => (h.step hs').2) ?_ ?_ hstart
    · rintro s op fault (hgone | ⟨hkept, harmed⟩) hfault hr
      · exact absurd (hr.1.symm.trans hgone.freed) Bool.false_ne_true
      · obtain ⟨s', hs', _⟩ := hkept.step harmed op
        cases hs'.symm.trans hfault
    · exact fun s h => h.elim Gone.tidy fun h => h.1.tidy
  refine ⟨hiff, fun s hrun => ?_⟩
  rw [hiff, along_iff_separated hstart hrun]
  simp [State.start]

/-- The connection is lost. -/
def lost : Op :=
  .event ⟨false, true, false⟩ [] .added

/-- The connection is lost, and so is the next one that the timer makes. Both timers are allocated
then, and the first one is left when the peer is freed. -/
theorem second_failure_loses_timer :
    (∃ s, [.setReconn ⟨3, 0⟩, lost, .expire 0, lost].foldlM step .start = .ok s ∧
      s.ids = [0, 1] ∧ s.peer.ev = some 1) ∧
    ∃ s, [.setReconn ⟨3, 0⟩, lost, .expire 0, lost, .free].foldlM step .start = .ok s ∧
      s.freed = true ∧ s.ids = [0] :=
  ⟨⟨_, rfl, rfl, rfl⟩, ⟨_, rfl, rfl, rfl⟩⟩

end HakunaMatata.Libevent.Reconnect
