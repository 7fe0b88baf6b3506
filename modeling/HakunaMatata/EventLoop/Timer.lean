import HakunaMatata.Base.Machine

/-!
# The timers of `evloop_select.c` and `evloop_epoll.c`

`evloop_handle_timer` subtracts the seconds and the nanoseconds of two wall-clock times separately,
rounds the nanoseconds towards zero and converts the sum to `int`. If the nanoseconds went back, the
sum can be one more than the elapsed milliseconds; and from `2 ^ 31` milliseconds on only its low
bits are left, which is the case at the first call, as `last_ts` starts in 1970. `fires_iff` is the
exact condition for the callback to be invoked when it is due.
-/

namespace HakunaMatata.EventLoop.Timer

open Base

/-- `struct timespec`, a time since 1970. -/
structure Timespec where
  tvSec : Nat
  tvNsec : Nat
  sec_lt : tvSec < 2 ^ 63
  nsec_lt : tvNsec < 10 ^ 9
  deriving DecidableEq

/-- The zeroed time. -/
def Timespec.zero : Timespec where
  tvSec := 0
  tvNsec := 0
  sec_lt := by decide
  nsec_lt := by decide

/-- The fields of `ev_loop_t` that the timer uses. `timerCb` says whether there is a callback. -/
structure EvLoop where
  timerCb : Bool
  timeout : Int
  lastTs : Timespec
  deriving DecidableEq

/-- `evloop_init`, which is the same for these fields in both files. -/
def evloopInit : EvLoop where
  timerCb := false
  timeout := -1
  lastTs := .zero

/-- `evloop_set_timer`. -/
def evloopSetTimer (evloop : EvLoop) (timeout : Int) : EvLoop :=
  { evloop with timeout := timeout }

/-- `evloop_set_cb_timer`. -/
def evloopSetCbTimer (evloop : EvLoop) : EvLoop :=
  { evloop with timerCb := true }

/-- The argument of the conversion in `interval_ms`, over the integers. -/
def splitMs (last curr : Timespec) : Int :=
  ((curr.tvSec : Int) - last.tvSec) * 1000 + ((curr.tvNsec : Int) - last.tvNsec).tdiv 1000000

/-- `interval_ms`, with the wraparound of the 64-bit operations and of the conversion. -/
def intervalMs (last curr : Timespec) : Int :=
  i32 (i64 (i64 (i64 ((curr.tvSec : Int) - last.tvSec) * 1000) +
    ((curr.tvNsec : Int) - last.tvNsec).tdiv 1000000))

/-- `evloop_handle_timer` at this time: whether it invoked the callback, and the loop after it. -/
def handleTimer (evloop : EvLoop) (curr : Timespec) : Bool × EvLoop :=
  if evloop.timerCb = false then (false, evloop)
  else if intervalMs evloop.lastTs curr ≥ evloop.timeout then
    (true, { evloop with lastTs := curr })
  else (false, evloop)

/-- The two event loops. -/
inductive Backend where
  | select
  | epoll
  deriving DecidableEq, Repr

/-- `evloop_handle_timer` of `evloop_select.c` and of `evloop_epoll.c`. -/
def evloopHandleTimer : Backend → EvLoop → Timespec → Bool × EvLoop
  | .select => handleTimer
  | .epoll => handleTimer

/-! ## What the timer is for -/

/-- The nanoseconds since 1970. -/
def Timespec.nanos (ts : Timespec) : Nat :=
  ts.tvSec * 10 ^ 9 + ts.tvNsec

theorem Timespec.nanos_zero : Timespec.zero.nanos = 0 := by decide

/-- The whole milliseconds between two times. -/
def elapsedMs (last curr : Timespec) : Nat :=
  (curr.nanos - last.nanos) / 10 ^ 6

/-- A loop, and the times at which its callback was invoked, the last one first. -/
structure Watched where
  evloop : EvLoop
  invoked : List Timespec

/-- The last invocation, or 1970. -/
def Watched.last (watched : Watched) : Timespec :=
  watched.invoked.headD .zero

/-- The loop with a callback and a timeout. -/
def Watched.start (timeout : Int) : Watched where
  evloop := evloopSetCbTimer (evloopSetTimer evloopInit timeout)
  invoked := []

/-- A call of `evloop_handle_timer`. -/
def Watched.call (backend : Backend) (watched : Watched) (curr : Timespec) :
    Except Fault Watched :=
  let result := evloopHandleTimer backend watched.evloop curr
  .ok ⟨result.2, if result.1 then curr :: watched.invoked else watched.invoked⟩

/-- The callback is invoked exactly if it is due. -/
def FiresWhenDue (backend : Backend) (timeout : Int) (watched : Watched) (curr : Timespec) : Prop :=
  (evloopHandleTimer backend watched.evloop curr).1 = true ↔
    timeout ≤ elapsedMs watched.last curr

instance (backend : Backend) (timeout : Int) (watched : Watched) (curr : Timespec) :
    Decidable (FiresWhenDue backend timeout watched curr) :=
  inferInstanceAs (Decidable (_ ↔ _))

/-- The sum reaches the timeout only with the elapsed milliseconds, and if it does not fit an
`int`, what is left of it reaches the timeout. -/
def Converts (timeout : Int) (watched : Watched) (curr : Timespec) : Prop :=
  (splitMs watched.last curr = timeout → elapsedMs watched.last curr = timeout) ∧
    (2 ^ 31 ≤ splitMs watched.last curr → timeout ≤ i32 (splitMs watched.last curr))

instance (timeout : Int) (watched : Watched) (curr : Timespec) :
    Decidable (Converts timeout watched curr) :=
  inferInstanceAs (Decidable (_ ∧ _))

/-! ## One call -/

/-- The 64-bit operations do not matter for the low 32 bits. -/
theorem intervalMs_eq (last curr : Timespec) : intervalMs last curr = i32 (splitMs last curr) := by
  unfold intervalMs splitMs i32 i64
  generalize ((curr.tvNsec : Int) - last.tvNsec).tdiv 1000000 = ms
  omega

/-- Rounding towards zero is at most one more than rounding down. -/
theorem splitMs_cases {last curr : Timespec} (h : last.nanos ≤ curr.nanos) :
    splitMs last curr = elapsedMs last curr ∨ splitMs last curr = elapsedMs last curr + 1 := by
  have hlast := last.nsec_lt
  have hcurr := curr.nsec_lt
  unfold splitMs elapsedMs
  unfold Timespec.nanos at h ⊢
  rcases Nat.le_total last.tvNsec curr.tvNsec with hle | hle
  · rw [Int.tdiv_eq_ediv_of_nonneg (by omega)]
    omega
  · have hneg : ((curr.tvNsec : Int) - last.tvNsec).tdiv 1000000 =
        -(((last.tvNsec : Int) - curr.tvNsec) / 1000000) := by
      rw [← Int.neg_sub, Int.neg_tdiv, Int.tdiv_eq_ediv_of_nonneg (by omega)]
    rw [hneg]
    omega

/-- What a call finds: the timer is set, `last_ts` is the last invocation, and the clock did not go
back since then. -/
structure Ready (timeout : Int) (watched : Watched) (curr : Timespec) : Prop where
  timerCb : watched.evloop.timerCb = true
  timeout : watched.evloop.timeout = timeout
  lastTs : watched.evloop.lastTs = watched.last
  clock : watched.last.nanos ≤ curr.nanos

theorem evloopHandleTimer_eq (backend : Backend) : evloopHandleTimer backend = handleTimer := by
  cases backend with
  | select => rfl
  | epoll => rfl

/-- The callback is invoked exactly if the low bits of the sum reach the timeout. -/
theorem handleTimer_fires {timeout : Int} {watched : Watched} {curr : Timespec}
    (h : Ready timeout watched curr) (backend : Backend) :
    (evloopHandleTimer backend watched.evloop curr).1 = true ↔
      timeout ≤ i32 (splitMs watched.last curr) := by
  rw [evloopHandleTimer_eq, handleTimer, h.timerCb, if_neg Bool.noConfusion, h.lastTs, h.timeout,
    intervalMs_eq]
  split_ifs with hdue
  · exact iff_of_true rfl hdue
  · exact iff_of_false (by simp) hdue

/-- One call invokes the callback when it is due, exactly if the sum converts. -/
theorem firesWhenDue_iff {timeout : Int} (hpos : 0 < timeout) (hint : timeout < 2 ^ 31)
    {watched : Watched} {curr : Timespec} (h : Ready timeout watched curr) (backend : Backend) :
    FiresWhenDue backend timeout watched curr ↔ Converts timeout watched curr := by
  have hsplit := splitMs_cases h.clock
  unfold FiresWhenDue Converts
  rw [handleTimer_fires h]
  by_cases hfits : splitMs watched.last curr < 2 ^ 31
  · rw [i32_of_lt (by omega) hfits]
    omega
  · omega

/-! ## Runs -/

theorem call_cases (backend : Backend) (watched : Watched) (curr : Timespec) :
    watched.call backend curr =
        .ok ⟨{ watched.evloop with lastTs := curr }, curr :: watched.invoked⟩ ∨
      watched.call backend curr = .ok watched := by
  unfold Watched.call
  rw [evloopHandleTimer_eq, handleTimer]
  split_ifs
  · exact .inr rfl
  · exact .inl rfl
  · exact .inr rfl

theorem along_ready (backend : Backend) {timeout : Int} {times : List Timespec} {watched : Watched}
    (htimerCb : watched.evloop.timerCb = true) (htimeout : watched.evloop.timeout = timeout)
    (hlastTs : watched.evloop.lastTs = watched.last)
    (hlast : ∀ curr ∈ times, watched.last.nanos ≤ curr.nanos)
    (hclock : times.Pairwise fun curr next => curr.nanos ≤ next.nanos) :
    Along (Watched.call backend) (Ready timeout) watched times := by
  induction times generalizing watched with
  | nil => trivial
  | cons curr times ih =>
    obtain ⟨hnext, hrest⟩ := List.pairwise_cons.1 hclock
    refine ⟨⟨htimerCb, htimeout, hlastTs, hlast curr List.mem_cons_self⟩,
      fun watched' hcall => ?_⟩
    rcases call_cases backend watched curr with hfired | hwaits
    · rw [hfired] at hcall
      cases hcall
      exact ih htimerCb htimeout rfl hnext hrest
    · rw [hwaits] at hcall
      cases hcall
      exact ih htimerCb htimeout hlastTs
        (fun later hlater => hlast later (List.mem_cons_of_mem _ hlater)) hrest

/-- For both event loops, every timeout and every sequence of times that does not decrease: each
call invokes the callback exactly if the timeout has passed since the last invocation, or since
1970, exactly if at each call the sum converts. -/
theorem fires_iff (backend : Backend) {timeout : Int} (hpos : 0 < timeout) (hint : timeout < 2 ^ 31)
    {times : List Timespec} (hclock : times.Pairwise fun curr next => curr.nanos ≤ next.nanos) :
    Along (Watched.call backend) (FiresWhenDue backend timeout) (.start timeout) times ↔
      Along (Watched.call backend) (Converts timeout) (.start timeout) times := by
  have hzero : (Watched.start timeout).last.nanos = 0 := Timespec.nanos_zero
  have hready : Along (Watched.call backend) (Ready timeout) (.start timeout) times :=
    along_ready backend rfl rfl rfl (fun curr _ => by rw [hzero]; exact Nat.zero_le _) hclock
  exact hready.congr fun _ _ h => firesWhenDue_iff hpos hint h backend

/-- Three times of a clock that started in 1970. -/
def firstSeconds : List Timespec :=
  [⟨1, 0, by decide, by decide⟩, ⟨1, 500000000, by decide, by decide⟩,
    ⟨2, 0, by decide, by decide⟩]

/-- With a timeout of one second, the first and the third of them invoke the callback. -/
theorem fires_iff_firstSeconds :
    Along (Watched.call .select) (FiresWhenDue .select 1000) (.start 1000) firstSeconds := by
  refine (fires_iff .select (by decide) (by decide) (by decide)).2 ?_
  refine ⟨by decide +kernel, fun _ hfirst => ?_⟩
  cases hfirst
  refine ⟨by decide +kernel, fun _ hsecond => ?_⟩
  cases hsecond
  exact ⟨by decide +kernel, fun _ _ => trivial⟩

/-- The sixth of November 2026, 1794000000 seconds since 1970. -/
def november : Timespec :=
  ⟨1794000000, 0, by decide, by decide⟩

/-- Two times that are 500 nanoseconds less than a second apart. -/
def almostSecond : List Timespec :=
  [⟨1000, 900000000, by decide, by decide⟩, ⟨1001, 899999500, by decide, by decide⟩]

/-- A loop with a timeout of one second that makes its first call in November 2026 does not invoke
the callback, and the second of the other two times invokes it too early. -/
theorem timer_not_when_due :
    (∀ backend, ¬ FiresWhenDue backend 1000 (.start 1000) november) ∧
    ¬ Along (Watched.call .select) (FiresWhenDue .select 1000) (.start 1000) almostSecond := by
  refine ⟨fun backend => ?_, fun h => ?_⟩
  · rw [FiresWhenDue, evloopHandleTimer_eq]
    decide +kernel
  · exact absurd (h.2 _ rfl).1 (by decide +kernel)

end HakunaMatata.EventLoop.Timer
