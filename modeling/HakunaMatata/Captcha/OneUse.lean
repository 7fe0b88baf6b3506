import Mathlib.Logic.Function.Basic
import HakunaMatata.Base.Machine

/-!
# Verifying a captcha, `captcha_rest_handle.go`

`Load` stores the value of a captcha under its session, and `Verify` gets the stored value, compares
it and deletes it. Any number of requests run at the same time, and each access to Redis is one
step. A value is recognised by the number of the `Set` that has stored it. Between the `Get` and the
`Del` of a request that has found its value, another one can find the same value.
`oneUse_iff_along` says that this is the only way to use a captcha twice.
-/

namespace HakunaMatata.Captcha

open Base

/-- A value in Redis, and the number of the `Set` that has stored it. -/
structure Stored where
  value : String
  set : Nat
  deriving DecidableEq, Repr

/-- How far a `Verify` request is. -/
inductive Phase where
  | started
  | compared
  | deleted
  | answered
  deriving DecidableEq, Repr

/-- A `Verify` request: the message, how far it is, and when it was started and answered. `matched`
is the `Set` whose value was equal to the value of the message, and `getSets` the number of `Set`s
before the `Get`. -/
structure Request where
  session : String
  value : String
  phase : Phase
  started : Nat
  getSets : Nat
  matched : Option Nat
  answeredAt : Nat
  deriving DecidableEq, Repr

/-- `MessageResponseHeader`. -/
structure Response where
  errCode : Int
  errMessage : String
  deriving DecidableEq, Repr

/-- The response of a request that has compared the values. -/
def Request.response (r : Request) : Response :=
  if r.matched.isSome then ⟨0, ""⟩ else ⟨-1, "failed verify captcha"⟩

/-- Redis, the number of `Set`s so far, the `Verify` requests, and the number of steps so far. -/
structure State where
  store : String → Option Stored
  sets : Nat
  requests : Nat → Option Request
  clock : Nat

/-- Nothing is stored, and no request was made. -/
def State.init : State := ⟨fun _ => none, 0, fun _ => none, 0⟩

/-- The steps of requests, and the expiry of a key. The other steps of `Load` do not touch Redis. -/
inductive Op where
  | load (session uuid : String) (digits : List Nat)
  | start (i : Nat) (session value : String)
  | get (i : Nat)
  | del (i : Nat)
  | answer (i : Nat)
  | expire (session : String)
  deriving DecidableEq, Repr

/-- The text that `SaveCaptchaVal` stores. -/
def digitsText (digits : List Nat) : String :=
  digits.foldl (fun s digit => s ++ toString digit) ""

/-- The session of a `Load` request. -/
def sessionID (session uuid : String) : String :=
  if session = "" then uuid else session

/-- The `Set` whose value is equal to that of the message, if the `Get` finds one. -/
def compare (s : State) (r : Request) : Option Nat :=
  (s.store r.session).elim none fun stored =>
    if stored.value = r.value then some stored.set else none

/-- A step of a request that is in this phase. -/
def advance (s : State) (i : Nat) (phase : Phase) (next : Request → State) : Except Fault State :=
  (s.requests i).elim (.error .assertion) fun r =>
    if r.phase = phase then .ok (next r) else .error .assertion

/-- The steps. -/
def step (s : State) : Op → Except Fault State
  | .load session uuid digits =>
    .ok
      { s with
        store := Function.update s.store (sessionID session uuid)
          (some ⟨digitsText digits, s.sets⟩)
        sets := s.sets + 1
        clock := s.clock + 1 }
  | .start i session value =>
    if s.requests i = none then
      .ok
        { s with
          requests := Function.update s.requests i
            (some ⟨session, value, .started, s.clock, 0, none, 0⟩)
          clock := s.clock + 1 }
    else .error .assertion
  | .get i =>
    advance s i .started fun r =>
      { s with
        requests := Function.update s.requests i
          (some { r with phase := .compared, getSets := s.sets, matched := compare s r })
        clock := s.clock + 1 }
  | .del i =>
    advance s i .compared fun r =>
      { s with
        store := Function.update s.store r.session none
        requests := Function.update s.requests i (some { r with phase := .deleted })
        clock := s.clock + 1 }
  | .answer i =>
    advance s i .deleted fun r =>
      { s with
        requests := Function.update s.requests i
          (some { r with phase := .answered, answeredAt := s.clock })
        clock := s.clock + 1 }
  | .expire session =>
    .ok
      { s with
        store := Function.update s.store session none
        clock := s.clock + 1 }

/-! ## One use -/

/-- Every stored value is matched by at most one request. -/
def Once (s : State) : Prop :=
  ∀ i j r r' n, s.requests i = some r → s.requests j = some r' → r.matched = some n →
    r'.matched = some n → i = j

/-- A request that starts after the first one was answered matches only a value that was stored
after the `Get` of the first one. -/
def Renewed (r r' : Request) : Prop :=
  r.phase = .answered → r'.session = r.session → r.answeredAt < r'.started →
    ∀ n, r'.matched = some n → r.getSets ≤ n

/-- A captcha is used once. -/
def OneUse (s : State) : Prop :=
  Once s ∧ ∀ i j r r', s.requests i = some r → s.requests j = some r' → Renewed r r'

/-- The step is a `Get` that finds the value of its message, while another request has found the
same value and not deleted it yet. -/
def Overlaps (s : State) (op : Op) : Prop :=
  ∃ i r j r' n, op = .get i ∧ s.requests i = some r ∧ r.phase = .started ∧
    compare s r = some n ∧ s.requests j = some r' ∧ r'.phase = .compared ∧ r'.matched = some n

/-! ## The invariant -/

/-- What holds for one request. -/
structure Fits (s : State) (r : Request) : Prop where
  matched_lt : ∀ n, r.matched = some n → n < s.sets
  get_le : r.getSets ≤ s.sets
  started_le : r.started ≤ s.clock
  unmatched : r.phase = .started → r.matched = none
  pending : ∀ x stored, s.store x = some stored → r.matched = some stored.set →
    r.session = x ∧ r.phase = .compared
  renewed : (r.phase = .deleted ∨ r.phase = .answered) → ∀ stored,
    s.store r.session = some stored → r.getSets ≤ stored.set

/-- What holds in every state in which each value was matched by at most one request. -/
structure Sound (s : State) : Prop where
  stored_lt : ∀ x stored, s.store x = some stored → stored.set < s.sets
  stored_inj : ∀ x y stored stored', s.store x = some stored → s.store y = some stored' →
    stored.set = stored'.set → x = y
  fits : ∀ i r, s.requests i = some r → Fits s r
  oneUse : OneUse s

section Invariant

variable {s s' : State} {i : Nat} {r r' : Request}

theorem update_eq_some {α β : Type} [DecidableEq α] {f : α → Option β} {a x : α} {b : Option β}
    {y : β} (h : Function.update f a b x = some y) :
    (x = a ∧ b = some y) ∨ (x ≠ a ∧ f x = some y) := by
  rw [Function.update_apply] at h
  split at h
  · rename_i hx
    exact Or.inl ⟨hx, h⟩
  · rename_i hx
    exact Or.inr ⟨hx, h⟩

theorem Sound.tick (h : Sound s) : Sound { s with clock := s.clock + 1 } := by
  refine ⟨h.stored_lt, h.stored_inj, fun i r hr => ?_, h.oneUse⟩
  have hfits := h.fits i r hr
  exact ⟨hfits.matched_lt, hfits.get_le, Nat.le_succ_of_le hfits.started_le, hfits.unmatched,
    hfits.pending, hfits.renewed⟩

theorem Sound.remove (h : Sound s) (session : String) :
    Sound { s with store := Function.update s.store session none } := by
  have hsub : ∀ x stored, Function.update s.store session none x = some stored →
      s.store x = some stored := fun x stored hx => by
    rcases update_eq_some hx with ⟨_, hnone⟩ | ⟨_, hx⟩
    · cases hnone
    · exact hx
  refine ⟨fun x stored hx => h.stored_lt x stored (hsub x stored hx),
    fun x y stored stored' hx hy => h.stored_inj x y stored stored' (hsub _ _ hx) (hsub _ _ hy),
    fun i r hr => ?_, h.oneUse⟩
  have hfits := h.fits i r hr
  exact ⟨hfits.matched_lt, hfits.get_le, hfits.started_le, hfits.unmatched,
    fun x stored hx => hfits.pending x stored (hsub x stored hx),
    fun hphase stored hx => hfits.renewed hphase stored (hsub _ _ hx)⟩

theorem Sound.set (h : Sound s) (session value : String) :
    Sound { s with
      store := Function.update s.store session (some ⟨value, s.sets⟩), sets := s.sets + 1 } := by
  refine ⟨fun x stored hx => ?_, fun x y stored stored' hx hy heq => ?_, fun i r hr => ?_, h.oneUse⟩
  · rcases update_eq_some hx with ⟨_, hnew⟩ | ⟨_, hx⟩
    · cases hnew
      exact Nat.lt_succ_self _
    · exact Nat.lt_succ_of_lt (h.stored_lt x stored hx)
  · rcases update_eq_some hx with ⟨hself, hnew⟩ | ⟨_, hold⟩ <;>
      rcases update_eq_some hy with ⟨hself', hnew'⟩ | ⟨_, hold'⟩
    · exact hself.trans hself'.symm
    · cases hnew
      exact absurd (h.stored_lt y stored' hold') (Nat.not_lt_of_le (Nat.le_of_eq heq))
    · cases hnew'
      exact absurd (h.stored_lt x stored hold) (Nat.not_lt_of_le (Nat.le_of_eq heq.symm))
    · exact h.stored_inj x y stored stored' hold hold' heq
  · have hfits := h.fits i r hr
    refine ⟨fun n hn => Nat.lt_succ_of_lt (hfits.matched_lt n hn), Nat.le_succ_of_le hfits.get_le,
      hfits.started_le, hfits.unmatched, fun x stored hx hmatched => ?_,
      fun hphase stored hx => ?_⟩
    · rcases update_eq_some hx with ⟨_, hnew⟩ | ⟨_, hx⟩
      · cases hnew
        exact absurd (hfits.matched_lt _ hmatched) (Nat.lt_irrefl _)
      · exact hfits.pending x stored hx hmatched
    · rcases update_eq_some hx with ⟨_, hnew⟩ | ⟨_, hx⟩
      · cases hnew
        exact hfits.get_le
      · exact hfits.renewed hphase stored hx

theorem Sound.update (h : Sound s) (hfits : Fits s r')
    (honce : ∀ j other n, j ≠ i → s.requests j = some other → other.matched = some n →
      r'.matched ≠ some n)
    (hself : Renewed r' r')
    (hothers : ∀ j other, j ≠ i → s.requests j = some other →
      Renewed other r' ∧ Renewed r' other) :
    Sound { s with requests := Function.update s.requests i (some r') } := by
  refine ⟨h.stored_lt, h.stored_inj, fun j other hj => ?_, fun j k a b n hj hk ha hb => ?_,
    fun j k a b hj hk => ?_⟩
  · rcases update_eq_some hj with ⟨_, hnew⟩ | ⟨_, hj⟩
    · cases hnew
      exact ⟨hfits.1, hfits.2, hfits.3, hfits.4, hfits.5, hfits.6⟩
    · have hold := h.fits j other hj
      exact ⟨hold.1, hold.2, hold.3, hold.4, hold.5, hold.6⟩
  · rcases update_eq_some hj with ⟨heq, hnew⟩ | ⟨hne, hold⟩ <;>
      rcases update_eq_some hk with ⟨heq', hnew'⟩ | ⟨hne', hold'⟩
    · exact heq.trans heq'.symm
    · cases hnew
      exact absurd ha (honce k b n hne' hold' hb)
    · cases hnew'
      exact absurd hb (honce j a n hne hold ha)
    · exact h.oneUse.1 j k a b n hold hold' ha hb
  · rcases update_eq_some hj with ⟨_, hnew⟩ | ⟨hne, hold⟩ <;>
      rcases update_eq_some hk with ⟨_, hnew'⟩ | ⟨hne', hold'⟩
    · cases hnew
      cases hnew'
      exact hself
    · cases hnew
      exact (hothers k b hne' hold').2
    · cases hnew'
      exact (hothers j a hne hold).1
    · exact h.oneUse.2 j k a b hold hold'

theorem renewed_of_phase (hphase : r.phase ≠ .answered) : Renewed r r' :=
  fun hanswered => absurd hanswered hphase

theorem Sound.start (h : Sound s) (i : Nat) (session value : String) :
    Sound { s with
      requests := Function.update s.requests i
        (some ⟨session, value, .started, s.clock, 0, none, 0⟩) } := by
  refine h.update ⟨nofun, Nat.zero_le _, Nat.le_refl _, fun _ => rfl, nofun, ?_⟩
    (fun _ _ _ _ _ _ => nofun) (renewed_of_phase nofun)
    fun _ _ _ _ => ⟨fun _ _ _ _ => nofun, renewed_of_phase nofun⟩
  rintro (hphase | hphase) <;> cases hphase

theorem compare_eq_some {n : Nat} (h : compare s r = some n) :
    ∃ stored, s.store r.session = some stored ∧ stored.value = r.value ∧ stored.set = n := by
  unfold compare at h
  cases hstored : s.store r.session with
  | none =>
    rw [hstored] at h
    cases h
  | some stored =>
    rw [hstored, Option.elim_some] at h
    split at h
    · rename_i hvalue
      exact ⟨stored, rfl, hvalue, Option.some.inj h⟩
    · cases h

theorem Sound.get (h : Sound s) (hr : s.requests i = some r) (hphase : r.phase = .started)
    (hno : ¬ Overlaps s (.get i)) :
    Sound { s with
      requests := Function.update s.requests i
        (some { r with phase := .compared, getSets := s.sets, matched := compare s r }) } := by
  have hfits := h.fits i r hr
  refine h.update
    ⟨fun n hn => ?_, Nat.le_refl _, hfits.started_le, nofun, fun x stored hx hn => ?_, ?_⟩
    (fun j other n hj hother hmatched hn => ?_) (renewed_of_phase nofun)
    fun j other _ hother => ⟨fun hanswered hsession _ n hn => ?_, renewed_of_phase nofun⟩
  · obtain ⟨stored, hstored, _, rfl⟩ := compare_eq_some hn
    exact h.stored_lt _ stored hstored
  · obtain ⟨stored', hstored', _, heq⟩ := compare_eq_some hn
    exact ⟨h.stored_inj _ _ stored' stored hstored' hx heq, rfl⟩
  · rintro (hphase | hphase) <;> cases hphase
  · obtain ⟨stored, hstored, _, rfl⟩ := compare_eq_some hn
    have hpending := (h.fits j other hother).pending _ stored hstored hmatched
    exact hno ⟨i, r, j, other, _, rfl, hr, hphase, hn, hother, hpending.2, hmatched⟩
  · obtain ⟨stored, hstored, _, rfl⟩ := compare_eq_some hn
    refine (h.fits j other hother).renewed (Or.inr hanswered) stored ?_
    rw [← hsession]
    exact hstored

theorem Sound.del (h : Sound s) (hr : s.requests i = some r) :
    Sound { s with
      store := Function.update s.store r.session none
      requests := Function.update s.requests i (some { r with phase := .deleted }) } := by
  have hfits := h.fits i r hr
  have hremoved := h.remove r.session
  refine hremoved.update
    ⟨hfits.matched_lt, hfits.get_le, hfits.started_le, nofun, fun x stored hx hn => ?_,
      fun _ stored hx => ?_⟩
    (fun j other n hj hother hmatched hn => ?_) (renewed_of_phase nofun)
    fun j other _ hother => ⟨?_, renewed_of_phase nofun⟩
  · rcases update_eq_some hx with ⟨_, hnone⟩ | ⟨hne, hold⟩
    · cases hnone
    · exact absurd (hfits.pending x stored hold hn).1.symm hne
  · rcases update_eq_some hx with ⟨_, hnone⟩ | ⟨hne, _⟩
    · cases hnone
    · exact absurd rfl hne
  · exact hj (h.oneUse.1 j i other r n hother hr hmatched hn)
  · exact h.oneUse.2 j i other r hother hr

theorem Sound.answer (h : Sound s) (hr : s.requests i = some r) (hphase : r.phase = .deleted) :
    Sound { s with
      requests := Function.update s.requests i
        (some { r with phase := .answered, answeredAt := s.clock }) } := by
  have hfits := h.fits i r hr
  refine h.update
    ⟨hfits.matched_lt, hfits.get_le, hfits.started_le, nofun, fun x stored hx hn => ?_,
      fun _ => hfits.renewed (Or.inl hphase)⟩
    (fun j other n hj hother hmatched hn => ?_) (fun _ _ hlt => ?_)
    fun j other _ hother => ⟨h.oneUse.2 j i other r hother hr, fun _ _ hlt => ?_⟩
  · have hcompared := (hfits.pending x stored hx hn).2
    rw [hphase] at hcompared
    cases hcompared
  · exact hj (h.oneUse.1 j i other r n hother hr hmatched hn)
  · exact absurd hfits.started_le (Nat.not_le_of_lt hlt)
  · exact absurd (h.fits j other hother).started_le (Nat.not_le_of_lt hlt)

end Invariant

/-! ## Runs -/

section Runs

variable {s s' : State} {op : Op} {i : Nat}

theorem advance_eq_ok {phase : Phase} {next : Request → State}
    (h : advance s i phase next = .ok s') :
    ∃ r, s.requests i = some r ∧ r.phase = phase ∧ s' = next r := by
  unfold advance at h
  cases hr : s.requests i with
  | none =>
    rw [hr] at h
    cases h
  | some r =>
    rw [hr, Option.elim_some] at h
    split at h
    · rename_i hphase
      cases h
      exact ⟨r, rfl, hphase, rfl⟩
    · cases h

theorem Sound.step (h : Sound s) (hstep : step s op = .ok s') (hno : ¬ Overlaps s op) :
    Sound s' := by
  cases op with
  | load session uuid digits =>
    cases hstep
    exact (h.set _ _).tick
  | start i session value =>
    simp only [Captcha.step] at hstep
    split at hstep
    · cases hstep
      exact (h.start i session value).tick
    · cases hstep
  | get i =>
    obtain ⟨r, hr, hphase, rfl⟩ := advance_eq_ok hstep
    exact (h.get hr hphase hno).tick
  | del i =>
    obtain ⟨r, hr, _, rfl⟩ := advance_eq_ok hstep
    exact (h.del hr).tick
  | answer i =>
    obtain ⟨r, hr, hphase, rfl⟩ := advance_eq_ok hstep
    exact (h.answer hr hphase).tick
  | expire session =>
    cases hstep
    exact (h.remove session).tick

theorem not_oneUse_of_overlaps (hstep : step s op = .ok s') (hoverlaps : Overlaps s op) :
    ¬ OneUse s' := by
  obtain ⟨i, r, j, r', n, rfl, hr, hphase, hn, hr', hphase', hn'⟩ := hoverlaps
  obtain ⟨_, hr₁, _, rfl⟩ := advance_eq_ok hstep
  obtain rfl := Option.some.inj (hr.symm.trans hr₁)
  have hne : j ≠ i := by
    rintro rfl
    rw [hr] at hr'
    cases hr'
    rw [hphase] at hphase'
    cases hphase'
  intro hone
  refine hne (hone.1 j i r' { r with phase := .compared, getSets := s.sets, matched := compare s r }
    n ?_ ?_ hn' hn)
  · exact (Function.update_of_ne hne _ _).trans hr'
  · exact Function.update_self _ _ _

theorem sound_init : Sound State.init :=
  ⟨nofun, nofun, nofun, nofun, nofun⟩

/-- A captcha is used once in every state of a run exactly if no `Get` finds a value while another
request has found it and not deleted it yet. -/
theorem oneUse_iff_along (ops : List Op) :
    Throughout step OneUse State.init ops ↔
      Along step (fun s op => ¬ Overlaps s op) State.init ops := by
  refine throughout_iff_along_of_inv (fun s op s' (h : Sound s) hstep => ?_)
    (fun s op s' h hstep hno => h.step hstep hno) (fun s op fault h hstep => ?_)
    (fun _ h => h.oneUse) sound_init
  · exact ⟨fun hone hoverlaps => not_oneUse_of_overlaps hstep hoverlaps hone,
      fun hno => (h.step hstep hno).oneUse⟩
  · rintro ⟨i, r, _, _, _, rfl, hr, hphase, _⟩
    simp [Captcha.step, advance, hr, hphase] at hstep

/-- Two requests with the right value, whose accesses to Redis alternate. -/
def twoRequests : List Op :=
  [.load "alice" "" [1, 2, 3, 4, 5, 6], .start 0 "alice" "123456", .start 1 "alice" "123456",
    .get 0, .get 1, .del 0, .del 1, .answer 0, .answer 1]

/-- Both are answered with success, for one value. -/
theorem twoRequests_not_oneUse :
    (∃ s r r', twoRequests.foldlM step State.init = .ok s ∧ s.requests 0 = some r ∧
      s.requests 1 = some r' ∧ r.phase = .answered ∧ r'.phase = .answered ∧
      r.response = ⟨0, ""⟩ ∧ r'.response = ⟨0, ""⟩ ∧ r.matched = r'.matched) ∧
    ¬ Throughout step OneUse State.init twoRequests := by
  refine ⟨⟨_, _, _, rfl, rfl, rfl, rfl, rfl, rfl, rfl, rfl⟩, fun h => ?_⟩
  have hone := (h.last rfl).1 0 1 _ _ 0 rfl rfl rfl rfl
  exact absurd hone Nat.zero_ne_one

end Runs

end HakunaMatata.Captcha
