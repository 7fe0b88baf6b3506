import HakunaMatata.Base.Words

/-!
# Gathered writes to a stream socket

A vector names some bytes of an object, and `writev` offers the bytes of a list of vectors to a
socket, which accepts a part of them or answers with an error. What the socket answers to each call
is a schedule; `Delivering` is a schedule that goes on accepting. A loop that writes until all
is accepted has no bound on its number of rounds that does not depend on the schedule, so its
executions are runs with fuel, and `Ends` says that enough of it gives the result.
-/

namespace HakunaMatata.Base

/-! ## Runs with fuel -/

section Fuel

variable {α β : Type}

/-- With enough fuel the run has this result. -/
def Ends (run : Nat → Except Fault α) (result : α) : Prop :=
  ∃ bound, ∀ fuel, bound ≤ fuel → run fuel = .ok result

theorem Ends.of_eq {run : Nat → Except Fault α} {a : α} (h : ∀ fuel, run fuel = .ok a) :
    Ends run a :=
  ⟨0, fun fuel _ => h fuel⟩

theorem Ends.unique {run : Nat → Except Fault α} {a a' : α} (h : Ends run a) (h' : Ends run a') :
    a' = a := by
  obtain ⟨bound, h⟩ := h
  obtain ⟨bound', h'⟩ := h'
  have heq := h (max bound bound') (Nat.le_max_left ..)
  rw [h' (max bound bound') (Nat.le_max_right ..)] at heq
  exact Except.ok.inj heq

theorem Ends.bind {run : Nat → Except Fault α} {next : Nat → α → Except Fault β} {a : α} {b : β}
    (hrun : Ends run a) (hnext : Ends (fun fuel => next fuel a) b) :
    Ends (fun fuel => run fuel >>= next fuel) b := by
  obtain ⟨bound, hrun⟩ := hrun
  obtain ⟨bound', hnext⟩ := hnext
  refine ⟨max bound bound', fun fuel hfuel => ?_⟩
  show (run fuel >>= next fuel) = .ok b
  rw [hrun fuel (by omega), ok_bind]
  exact hnext fuel (by omega)

/-- A loop that spends one unit of fuel on a round. -/
theorem Ends.of_round {run rest : Nat → Except Fault α} {a : α}
    (hround : ∀ fuel, run (fuel + 1) = rest fuel) (hrest : Ends rest a) : Ends run a := by
  obtain ⟨bound, hrest⟩ := hrest
  refine ⟨bound + 1, fun fuel hfuel => ?_⟩
  obtain ⟨rounds, rfl⟩ : ∃ rounds, fuel = rounds + 1 := ⟨fuel - 1, by omega⟩
  rw [hround]
  exact hrest rounds (by omega)

end Fuel

/-! ## Vectors -/

/-- A vector: `len` bytes of an object, from `start` on. -/
structure Iovec where
  object : List UInt8
  start : Nat
  len : Nat
  deriving DecidableEq, Repr

namespace Iovec

variable (v : Iovec)

/-- The bytes the vector names lie in its object. -/
def Inside : Prop :=
  v.start + v.len ≤ v.object.length

/-- The bytes the vector names. -/
def bytes : List UInt8 :=
  (v.object.drop v.start).take v.len

variable {v}

theorem length_bytes (h : v.Inside) : v.bytes.length = v.len := by
  unfold Inside at h
  rw [bytes, List.length_take, List.length_drop]
  omega

end Iovec

/-- The bytes of a list of vectors, one vector after the other. -/
def contents (iov : List Iovec) : List UInt8 :=
  iov.flatMap Iovec.bytes

@[simp] theorem contents_cons (v : Iovec) (iov : List Iovec) :
    contents (v :: iov) = v.bytes ++ contents iov :=
  rfl

@[simp] theorem contents_append (iov iov' : List Iovec) :
    contents (iov ++ iov') = contents iov ++ contents iov' :=
  List.flatMap_append

/-- Read the bytes of a list of vectors. -/
def gather (iov : List Iovec) : Except Fault (List UInt8) := do
  let parts ← iov.mapM fun v => bytesAt v.object v.start v.len
  pure parts.flatten

theorem gather_of_inside {iov : List Iovec} (h : ∀ v ∈ iov, v.Inside) :
    gather iov = .ok (contents iov) := by
  have hparts : iov.mapM (fun v => bytesAt v.object v.start v.len) =
      .ok (iov.map Iovec.bytes) :=
    mapM_eq_ok fun v hv => bytesAt_of_le (h v hv)
  rw [gather, hparts, ok_bind, contents, List.flatMap_def]
  rfl

/-! ## Parts of one size -/

theorem flatMap_batches {α : Type} (items : List α) (size count : Nat) :
    (List.range count).flatMap (fun i => (items.drop (i * size)).take size) =
      items.take (count * size) := by
  induction count with
  | zero => rw [Nat.zero_mul, List.take_zero, List.range_zero, List.flatMap_nil]
  | succ count ih =>
    rw [List.range_succ, List.flatMap_append, ih, List.flatMap_singleton, Nat.succ_mul,
      List.take_add]

theorem flatMap_flatMap_batches {α β : Type} (f : α → List β) (items : List α)
    (size count : Nat) :
    (List.range count).flatMap (fun i => ((items.drop (i * size)).take size).flatMap f) =
      (items.take (count * size)).flatMap f := by
  rw [← flatMap_batches, List.flatMap_assoc]

/-! ## Sockets -/

/-- What a socket answers to a write: it accepts some of the bytes, or reports an error after which
the write may be repeated, or another error. -/
inductive Answer where
  | accept (more : Nat)
  | retry
  | fail
  deriving DecidableEq, Repr

/-- A socket: the bytes it has accepted, and the number of calls of `writev` so far. -/
structure Socket where
  sent : List UInt8
  calls : Nat
  deriving DecidableEq, Repr

/-- What a call of `writev` leaves: the return value, whether the error may be retried, and the
socket. -/
structure Written where
  count : Int
  retry : Bool
  socket : Socket
  deriving DecidableEq, Repr

/-- `writev`. A socket that accepts takes at least one of the bytes it is offered, and no more than
all of them. -/
def writev (schedule : Nat → Answer) (socket : Socket) (iov : List Iovec) :
    Except Fault Written := do
  let offered ← gather iov
  match schedule socket.calls with
  | .accept more =>
    let count := min (more + 1) offered.length
    pure ⟨count, false, ⟨socket.sent ++ offered.take count, socket.calls + 1⟩⟩
  | .retry => pure ⟨-1, true, ⟨socket.sent, socket.calls + 1⟩⟩
  | .fail => pure ⟨-1, false, ⟨socket.sent, socket.calls + 1⟩⟩

section Writev

variable {schedule : Nat → Answer} {iov : List Iovec} {socket : Socket}

theorem writev_accept (hinside : ∀ v ∈ iov, v.Inside) {more : Nat}
    (h : schedule socket.calls = .accept more) {count : Nat}
    (hcount : count = min (more + 1) (contents iov).length) :
    writev schedule socket iov =
      .ok ⟨count, false, ⟨socket.sent ++ (contents iov).take count, socket.calls + 1⟩⟩ := by
  subst hcount
  simp only [writev, gather_of_inside hinside, ok_bind, h]
  rfl

theorem writev_retry (hinside : ∀ v ∈ iov, v.Inside) (h : schedule socket.calls = .retry) :
    writev schedule socket iov = .ok ⟨-1, true, ⟨socket.sent, socket.calls + 1⟩⟩ := by
  simp only [writev, gather_of_inside hinside, ok_bind, h]
  rfl

theorem writev_fail (hinside : ∀ v ∈ iov, v.Inside) (h : schedule socket.calls = .fail) :
    writev schedule socket iov = .ok ⟨-1, false, ⟨socket.sent, socket.calls + 1⟩⟩ := by
  simp only [writev, gather_of_inside hinside, ok_bind, h]
  rfl

end Writev

/-- A schedule with errors that may be retried only, and with an accepted call after each
call. -/
structure Delivering (schedule : Nat → Answer) : Prop where
  ne_fail : ∀ call, schedule call ≠ .fail
  accepts : ∀ call, ∃ waits more, schedule (call + waits) = .accept more

/-- What holds at the accepted calls, and at a call that is retried if it holds at the next one,
holds at every call. -/
theorem Delivering.induction {schedule : Nat → Answer} (hschedule : Delivering schedule)
    {motive : Nat → Prop}
    (accept : ∀ call more, schedule call = .accept more → motive call)
    (retry : ∀ call, schedule call = .retry → motive (call + 1) → motive call) (call : Nat) :
    motive call := by
  obtain ⟨waits, more, hmore⟩ := hschedule.accepts call
  -- by the number of calls until the accepted one
  induction waits generalizing call with
  | zero => exact accept call more hmore
  | succ waits ih =>
    cases hcall : schedule call with
    | accept more => exact accept call more hcall
    | retry =>
      refine retry call hcall (ih (call + 1) ?_)
      rwa [Nat.add_assoc, Nat.add_comm 1]
    | fail => exact absurd hcall (hschedule.ne_fail call)

end HakunaMatata.Base
