import HakunaMatata.Base.Framing
import HakunaMatata.Base.Gather
import Mathlib.Data.List.Induction

/-!
# The tunnel of an IO thread, `peer_io_thread.cpp`

Other threads write tasks to the tunnel of an IO thread, and `tunnelcb` takes them out when bytes
arrive. A task is a C struct in one of two sizes, and its first byte tells which. `tunnelcb` goes on
until a task is not complete. It cannot tell that from a task that has failed, since both make the
function for the task return a negative number, so it also stops behind a task that has failed, and
the complete tasks behind that one wait for the next arrival. `tunnel_delivers_iff` says that the
tunnel delivers every task in time exactly if each task that fails is the last one that its arrival
completes. The sizes are those of a 64-bit host.
-/

namespace HakunaMatata.Libevent.Tunnel

open Base

/-- `sizeof(struct PeerIOThread_CheckTimeout)`. -/
def checkTimeoutSize : Nat := 24

/-- `sizeof(struct PeerIOThread_AddSocket)`. -/
def addSocketSize : Nat := 184

/-- `TUNNEL_ADD_TIME`. -/
def tunnelAddTime : UInt8 := 0

/-- `TUNNEL_ADD_SOCKET`. -/
def tunnelAddSocket : UInt8 := 1

/-- What a task meets while it is handled: whether `event_new`, `event_add` and `peerConnectIn`
succeed, the time, and the timeouts that the IO thread has then. -/
structure Work where
  eventNew : Bool
  eventAdd : Bool
  connectIn : Bool
  now : BitVec 64
  inTimeoutSec : UInt16
  outTimeoutSec : UInt16
  deriving DecidableEq, Repr

/-- `struct timeval`. -/
structure TimeVal where
  tvSec : BitVec 64
  tvUsec : BitVec 64
  deriving DecidableEq, Repr

/-- What a task sets in the peer that it adds. `initialized` says that `init_cb` was called. -/
structure IoPeer where
  fd : BitVec 32
  remoteSs : List UInt8
  remoteSsLen : BitVec 32
  readCb : BitVec 64
  writeCb : BitVec 64
  eventCb : BitVec 64
  lastRead : BitVec 64
  lastWrite : BitVec 64
  inTimeout : UInt16
  outTimeout : UInt16
  initialized : Bool
  deriving DecidableEq, Repr

/-- The IO thread: the input of its tunnel, the tasks that were taken out of it, the interval of
the event that checks for timeouts, and the peers. -/
structure IoThread where
  input : List UInt8
  taken : List (List UInt8)
  timeoutEv : Option TimeVal
  peers : List IoPeer
  deriving DecidableEq, Repr

/-- What the function for a task returns, and the thread after it. -/
structure Done where
  ret : Int
  thread : IoThread
  deriving DecidableEq, Repr

/-- `evbuffer_remove`. -/
def IoThread.remove (thread : IoThread) (size : Nat) : IoThread :=
  { thread with
    input := thread.input.drop size
    taken := thread.taken ++ [thread.input.take size] }

section Callback

variable (endian : Endian)

/-- A field of a struct. -/
def field (width : Nat) (task : List UInt8) (offset : Nat) : Except Fault (BitVec (8 * width)) := do
  let word ← bytesAt task offset width
  return BitVec.ofNat (8 * width) (loadWord endian word)

/-- `tunnelcb_timetask`. -/
def tunnelcbTimetask (work : Work) (thread : IoThread) : Except Fault Done :=
  if checkTimeoutSize ≤ thread.input.length then do
    let task := thread.input.take checkTimeoutSize
    let tvSec ← field endian 8 task 8
    let tvUsec ← field endian 8 task 16
    let thread := { thread.remove checkTimeoutSize with timeoutEv := none }
    if 0 < tvSec.toInt || 0 < tvUsec.toInt then
      if !work.eventNew then return ⟨-2, thread⟩
      else if !work.eventAdd then return ⟨-3, thread⟩
      else return ⟨0, { thread with timeoutEv := some ⟨tvSec, tvUsec⟩ }⟩
    else return ⟨0, thread⟩
  else return ⟨-1, thread⟩

/-- `tunnelcb_addsocktask`. -/
def tunnelcbAddsocktask (work : Work) (thread : IoThread) : Except Fault Done :=
  if addSocketSize ≤ thread.input.length then do
    let task := thread.input.take addSocketSize
    let fd ← field endian 4 task 4
    let remoteSs ← bytesAt task 8 128
    let remoteSsLen ← field endian 4 task 136
    let readCb ← field endian 8 task 144
    let writeCb ← field endian 8 task 152
    let eventCb ← field endian 8 task 160
    let initCb ← field endian 8 task 168
    let thread := thread.remove addSocketSize
    if !work.connectIn then return ⟨-1, thread⟩
    else
      let peer : IoPeer :=
        ⟨fd, remoteSs, remoteSsLen, readCb, writeCb, eventCb, work.now, work.now,
          work.inTimeoutSec, work.outTimeoutSec, initCb ≠ 0⟩
      return ⟨0, { thread with peers := thread.peers ++ [peer] }⟩
  else return ⟨-1, thread⟩

/-- The `switch` of `tunnelcb`. An unknown type is left in the input. -/
def tunnelTask (work : Work) (thread : IoThread) : Except Fault Done :=
  if thread.input.headD 0 = tunnelAddTime then tunnelcbTimetask endian work thread
  else if thread.input.headD 0 = tunnelAddSocket then tunnelcbAddsocktask endian work thread
  else return ⟨0, thread⟩

/-- `tunnelcb`. `work n` is what the task meets before which `n` tasks were taken. The fuel bounds
the iterations; the source has no bound. -/
def tunnelcb (work : Nat → Work) : Nat → IoThread → Except Fault IoThread
  | 0, _ => .error .diverged
  | fuel + 1, thread =>
    if thread.input.length < 1 then .ok thread
    else do
      let done ← tunnelTask endian (work thread.taken.length) thread
      if done.ret ≠ 0 then return done.thread else tunnelcb work fuel done.thread

/-- Bytes arrive, and the callback runs once. -/
def arrive (work : Nat → Work) (fuel : Nat) (thread : IoThread) (chunk : List UInt8) :
    Except Fault IoThread :=
  tunnelcb endian work fuel { thread with input := thread.input ++ chunk }

end Callback

/-! ## Tasks that are written -/

/-- A call of `peerIOThreadSetTimeout`, with the bytes that pad the struct, or of
`peerIOThreadAddSocket`, with the struct of the caller. -/
inductive Write where
  | setTimeout (checkIntervalSec : BitVec 64) (padding : { bytes : List UInt8 // bytes.length = 7 })
  | addSocket (task : { bytes : List UInt8 // bytes.length = addSocketSize })

/-- `peerIOThreadSetTimeout`: the bytes that it writes. -/
def peerIOThreadSetTimeout (endian : Endian) (checkIntervalSec : BitVec 64)
    (padding : List UInt8) : List UInt8 :=
  tunnelAddTime :: padding ++ storeWord endian 8 checkIntervalSec.toNat ++ storeWord endian 8 0

/-- `peerIOThreadAddSocket`: the bytes that it writes. -/
def peerIOThreadAddSocket (task : List UInt8) : List UInt8 :=
  task.set 0 tunnelAddSocket

/-- The bytes of a task. -/
def Write.bytes (endian : Endian) : Write → List UInt8
  | .setTimeout checkIntervalSec padding =>
    peerIOThreadSetTimeout endian checkIntervalSec padding.1
  | .addSocket task => peerIOThreadAddSocket task.1

/-- The size of a task. -/
def Write.size : Write → Nat
  | .setTimeout _ _ => checkTimeoutSize
  | .addSocket _ => addSocketSize

/-- The type of a task. -/
def Write.type : Write → UInt8
  | .setTimeout _ _ => tunnelAddTime
  | .addSocket _ => tunnelAddSocket

/-- The work for a task fails. Without an interval there is nothing to do that can fail. -/
def Write.fails (work : Work) : Write → Bool
  | .setTimeout checkIntervalSec _ =>
    0 < checkIntervalSec.toInt && !(work.eventNew && work.eventAdd)
  | .addSocket _ => !work.connectIn

/-- The stream of some tasks. -/
def stream (endian : Endian) (writes : List Write) : List UInt8 :=
  (writes.map (·.bytes endian)).flatten

section Tasks

variable {endian : Endian} {work : Work} {thread : IoThread} {rest : List UInt8}

@[simp] theorem Write.length_bytes (endian : Endian) (w : Write) :
    (w.bytes endian).length = w.size := by
  cases w with
  | setTimeout sec padding =>
    simp [Write.bytes, peerIOThreadSetTimeout, Write.size, checkTimeoutSize, padding.2]
  | addSocket task => simp [Write.bytes, peerIOThreadAddSocket, Write.size, task.2]

theorem Write.size_pos (w : Write) : 0 < w.size := by
  cases w with
  | setTimeout _ _ => exact Nat.succ_pos _
  | addSocket _ => exact Nat.succ_pos _

theorem Write.bytes_eq_cons (endian : Endian) (w : Write) :
    ∃ bytes, w.bytes endian = w.type :: bytes := by
  cases w with
  | setTimeout sec padding => exact ⟨_, rfl⟩
  | addSocket task =>
    obtain ⟨bytes, hlen⟩ := task
    cases bytes with
    | nil => cases hlen
    | cons b bytes => exact ⟨bytes, rfl⟩

theorem field_of_le {width offset : Nat} {task : List UInt8} (h : offset + width ≤ task.length) :
    ∃ v, field endian width task offset = .ok v := by
  rw [field, bytesAt_of_le h]
  exact ⟨_, rfl⟩

theorem field_append (endian : Endian) {front : List UInt8} {offset : Nat}
    (hfront : front.length = offset) (v : BitVec 64) (rest : List UInt8) :
    field endian 8 (front ++ (storeWord endian 8 v.toNat ++ rest)) offset = .ok v := by
  have hlt : v.toNat < 256 ^ 8 := v.isLt
  rw [field, bytesAt_append hfront (length_storeWord ..), ok_bind, loadWord_storeWord endian hlt]
  show Except.ok (BitVec.ofNat 64 v.toNat) = .ok v
  rw [BitVec.ofNat_toNat, BitVec.setWidth_eq]

theorem remove_append {bytes : List UInt8} {size : Nat} (hinput : thread.input = bytes ++ rest)
    (hlen : bytes.length = size) :
    thread.remove size = { thread with input := rest, taken := thread.taken ++ [bytes] } := by
  subst hlen
  rw [IoThread.remove, hinput, List.drop_left, List.take_left]

/-- What the function for a complete task does: it takes the task out, and tells whether the work
has failed. -/
def Handles (endian : Endian) (work : Work) (thread : IoThread) (w : Write) (rest : List UInt8)
    (result : Except Fault Done) : Prop :=
  ∃ done, result = .ok done ∧ done.thread.input = rest ∧
    done.thread.taken = thread.taken ++ [w.bytes endian] ∧ (done.ret ≠ 0 ↔ w.fails work = true)

theorem handles_timetask {sec : BitVec 64} {padding : { bytes : List UInt8 // bytes.length = 7 }}
    (hinput : thread.input = (Write.setTimeout sec padding).bytes endian ++ rest) :
    Handles endian work thread (.setTimeout sec padding) rest
      (tunnelcbTimetask endian work thread) := by
  have hlen : ((Write.setTimeout sec padding).bytes endian).length = checkTimeoutSize :=
    Write.length_bytes endian _
  have htake : thread.input.take checkTimeoutSize =
      (Write.setTimeout sec padding).bytes endian := by
    rw [hinput, ← hlen, List.take_left]
  have hhead : (tunnelAddTime :: padding.1).length = 8 := by rw [List.length_cons, padding.2]
  have hsec : field endian 8 ((Write.setTimeout sec padding).bytes endian) 8 = .ok sec := by
    rw [Write.bytes, peerIOThreadSetTimeout, List.append_assoc]
    exact field_append endian hhead sec _
  have husec : field endian 8 ((Write.setTimeout sec padding).bytes endian) 16 = .ok 0 := by
    have hfront : (tunnelAddTime :: padding.1 ++ storeWord endian 8 sec.toNat).length = 16 := by
      rw [List.length_append, hhead, length_storeWord]
    have hread := field_append endian hfront 0 []
    rw [List.append_nil] at hread
    exact hread
  have hcomplete : checkTimeoutSize ≤ thread.input.length := by
    rw [hinput, List.length_append, hlen]
    exact Nat.le_add_right ..
  simp only [tunnelcbTimetask, if_pos hcomplete, htake, hsec, husec, ok_bind,
    remove_append hinput hlen, Handles, Write.fails]
  cases decide (0 < sec.toInt) <;> cases work.eventNew <;> cases work.eventAdd <;>
    simp [pure, Except.pure]

theorem handles_addsocktask {task : { bytes : List UInt8 // bytes.length = addSocketSize }}
    (hinput : thread.input = (Write.addSocket task).bytes endian ++ rest) :
    Handles endian work thread (.addSocket task) rest
      (tunnelcbAddsocktask endian work thread) := by
  have hlen : ((Write.addSocket task).bytes endian).length = addSocketSize :=
    Write.length_bytes endian _
  have htake : thread.input.take addSocketSize = (Write.addSocket task).bytes endian := by
    rw [hinput, ← hlen, List.take_left]
  have hfield : ∀ width offset, offset + width ≤ addSocketSize →
      ∃ v, field endian width ((Write.addSocket task).bytes endian) offset = .ok v :=
    fun _ _ hle => field_of_le (hlen ▸ hle)
  obtain ⟨fd, hfd⟩ := hfield 4 4 (by decide)
  have hremote := bytesAt_of_le (show 8 + 128 ≤ ((Write.addSocket task).bytes endian).length by
    rw [hlen]
    decide)
  obtain ⟨remoteSsLen, hremoteLen⟩ := hfield 4 136 (by decide)
  obtain ⟨readCb, hread⟩ := hfield 8 144 (by decide)
  obtain ⟨writeCb, hwrite⟩ := hfield 8 152 (by decide)
  obtain ⟨eventCb, hevent⟩ := hfield 8 160 (by decide)
  obtain ⟨initCb, hinit⟩ := hfield 8 168 (by decide)
  have hcomplete : addSocketSize ≤ thread.input.length := by
    rw [hinput, List.length_append, hlen]
    exact Nat.le_add_right ..
  simp only [tunnelcbAddsocktask, if_pos hcomplete, htake, hfd, hremote, hremoteLen, hread, hwrite,
    hevent, hinit, ok_bind, remove_append hinput hlen, Handles, Write.fails]
  cases work.connectIn <;> simp [pure, Except.pure]

theorem handles_tunnelTask (work : Work) {w : Write}
    (hinput : thread.input = w.bytes endian ++ rest) :
    Handles endian work thread w rest (tunnelTask endian work thread) := by
  obtain ⟨bytes, hbytes⟩ := w.bytes_eq_cons endian
  have htype : thread.input.headD 0 = w.type := by rw [hinput, hbytes]; rfl
  rw [tunnelTask, htype]
  cases w with
  | setTimeout sec padding => exact handles_timetask hinput
  | addSocket task => exact handles_addsocktask hinput

theorem tunnelTask_of_part {w : Write} (hpart : thread.input <+: w.bytes endian)
    (hlt : thread.input.length < w.size) (hne : thread.input ≠ []) :
    tunnelTask endian work thread = .ok ⟨-1, thread⟩ := by
  obtain ⟨bytes, hbytes⟩ := w.bytes_eq_cons endian
  obtain ⟨b, part, hinput⟩ := List.exists_cons_of_ne_nil hne
  have htype : thread.input.headD 0 = w.type := by
    rw [hinput, hbytes] at hpart
    rw [hinput]
    exact (List.cons_prefix_cons.1 hpart).1
  rw [tunnelTask, htype]
  cases w with
  | setTimeout sec padding => exact if_neg (Nat.not_le_of_lt hlt)
  | addSocket task => exact if_neg (Nat.not_le_of_lt hlt)

end Tasks

/-! ## One run of the callback -/

/-- The tasks that one run of the callback takes, of those that are complete: up to the first one
that fails. Before them `n` tasks were taken. -/
def handled (work : Nat → Work) : Nat → List Write → List Write
  | _, [] => []
  | n, w :: ready => w :: if w.fails (work n) then [] else handled work (n + 1) ready

/-- Nothing, or a proper part of the next task. -/
def Part (endian : Endian) (next : List Write) (part : List UInt8) : Prop :=
  part = [] ∨ ∃ w more, next = w :: more ∧ part <+: w.bytes endian ∧ part.length < w.size

section Runs

variable {endian : Endian} {work : Nat → Work} {thread : IoThread} {ready next : List Write}
  {part : List UInt8}

theorem stream_cons (endian : Endian) (w : Write) (writes : List Write) :
    stream endian (w :: writes) = w.bytes endian ++ stream endian writes :=
  rfl

theorem stream_append (endian : Endian) (writes writes' : List Write) :
    stream endian (writes ++ writes') = stream endian writes ++ stream endian writes' := by
  rw [stream, List.map_append, List.flatten_append]
  rfl

theorem prefix_handled (work : Nat → Work) (n : Nat) (ready : List Write) :
    handled work n ready <+: ready := by
  induction ready generalizing n with
  | nil => exact List.prefix_rfl
  | cons w ready ih =>
    rw [handled, List.prefix_cons_inj]
    split
    · exact List.nil_prefix
    · exact ih (n + 1)

/-- All tasks are taken exactly if none of them fails but possibly the last one. -/
theorem handled_eq_iff (work : Nat → Work) (n : Nat) (ready : List Write) :
    handled work n ready = ready ↔
      ∀ i w, i + 1 < ready.length → ready[i]? = some w → w.fails (work (n + i)) = false := by
  induction ready generalizing n with
  | nil => simp [handled]
  | cons w ready ih =>
    rw [handled, List.cons_inj_right]
    cases ready with
    | nil => simp [handled]
    | cons w' ready =>
      cases hfails : w.fails (work n) with
      | true =>
        refine iff_of_false (by simp) fun hall => ?_
        exact Bool.false_ne_true ((hall 0 w (by simp) rfl).symm.trans hfails)
      | false =>
        rw [if_neg Bool.false_ne_true, ih (n + 1)]
        constructor
        · intro hall i v hi hv
          cases i with
          | zero =>
            cases hv
            exact hfails
          | succ i =>
            rw [show n + (i + 1) = n + 1 + i by omega]
            exact hall i v (Nat.lt_of_succ_lt_succ hi) hv
        · intro hall i v hi hv
          rw [show n + 1 + i = n + (i + 1) by omega]
          exact hall (i + 1) v (Nat.succ_lt_succ hi) hv

theorem tunnelcb_of_part (hpart : Part endian next thread.input) :
    Ends (fun fuel => tunnelcb endian work fuel thread) thread := by
  have hwait : ∀ fuel, tunnelcb endian work (fuel + 1) thread = .ok thread := by
    intro fuel
    rw [tunnelcb]
    by_cases hne : thread.input = []
    · rw [hne]
      rfl
    · rcases hpart with hnil | ⟨w, more, _, hpart, hlt⟩
      · exact absurd hnil hne
      · rw [if_neg (by simpa using hne), tunnelTask_of_part hpart hlt hne, ok_bind]
        rfl
  exact Ends.of_round hwait (Ends.of_eq fun _ => rfl)

/-- The callback takes the tasks that are complete, up to the first one that fails. -/
theorem tunnelcb_of_ready (hpart : Part endian next part)
    (hinput : thread.input = stream endian ready ++ part) :
    ∃ thread', Ends (fun fuel => tunnelcb endian work fuel thread) thread' ∧
      thread'.taken = thread.taken ++
        (handled work thread.taken.length ready).map (·.bytes endian) ∧
      thread'.input =
        stream endian (ready.drop (handled work thread.taken.length ready).length) ++ part := by
  induction ready generalizing thread with
  | nil =>
    have hinput : thread.input = part := hinput
    exact ⟨thread, tunnelcb_of_part (hinput ▸ hpart), (List.append_nil _).symm, hinput⟩
  | cons w ready ih =>
    rw [stream_cons, List.append_assoc] at hinput
    obtain ⟨done, hdone, hrest, htaken, hret⟩ :=
      handles_tunnelTask (work thread.taken.length) hinput
    have hround : ∀ fuel, tunnelcb endian work (fuel + 1) thread =
        if done.ret ≠ 0 then .ok done.thread else tunnelcb endian work fuel done.thread := by
      intro fuel
      have hsome : ¬ thread.input.length < 1 := by
        have := w.size_pos
        rw [hinput, List.length_append, w.length_bytes]
        omega
      rw [tunnelcb, if_neg hsome, hdone, ok_bind]
      rfl
    rw [handled]
    cases hfails : w.fails (work thread.taken.length) with
    | true =>
      refine ⟨done.thread, Ends.of_round hround ?_, htaken, hrest⟩
      exact Ends.of_eq fun _ => if_pos (hret.2 hfails)
    | false =>
      have hlen : done.thread.taken.length = thread.taken.length + 1 := by
        rw [htaken, List.length_append, List.length_singleton]
      obtain ⟨thread', hends, htaken', hinput'⟩ := ih hrest
      rw [hlen] at htaken' hinput'
      refine ⟨thread', Ends.of_round hround ?_, ?_, hinput'⟩
      · have hzero : ¬ done.ret ≠ 0 := by simp [hret, hfails]
        simpa only [if_neg hzero] using hends
      · rw [htaken', htaken, List.append_assoc]
        rfl

/-- What arrives is some tasks that are complete and a part of the next one, and the callback takes
the complete ones up to the first one that fails. -/
theorem arrive_of_stream (work : Nat → Work) {chunk after : List UInt8}
    (hstream : thread.input ++ (chunk ++ after) = stream endian next) :
    ∃ ready next' part thread', next = ready ++ next' ∧ Part endian next' part ∧
      part ++ after = stream endian next' ∧
      thread.input ++ chunk = stream endian ready ++ part ∧
      Ends (fun fuel => arrive endian work fuel thread chunk) thread' ∧
      thread'.taken = thread.taken ++
        (handled work thread.taken.length ready).map (·.bytes endian) ∧
      thread'.input =
        stream endian (ready.drop (handled work thread.taken.length ready).length) ++ part := by
  rw [← List.append_assoc] at hstream
  obtain ⟨ready, next', part, rfl, harrived, hpart⟩ := prefix_flatten ⟨after, hstream⟩
  have hpart : Part endian next' part := by
    rcases hpart with ⟨_, hnil⟩ | ⟨w, more, hmore, hprefix, hlt⟩
    · exact .inl hnil
    · exact .inr ⟨w, more, hmore, hprefix, by rwa [← w.length_bytes endian]⟩
  have hrest : part ++ after = stream endian next' := by
    rw [harrived, stream_append, List.append_assoc] at hstream
    exact List.append_cancel_left hstream
  have hready : ({ thread with input := thread.input ++ chunk } : IoThread).input =
      stream endian ready ++ part := harrived
  obtain ⟨thread', hends, htaken, hinput⟩ := tunnelcb_of_ready hpart hready
  exact ⟨ready, next', part, thread', rfl, hpart, hrest, harrived, hends, htaken, hinput⟩

end Runs

/-! ## Arrivals -/

/-- The IO thread before the first task. -/
def IoThread.start : IoThread where
  input := []
  taken := []
  timeoutEv := none
  peers := []

/-- The chunks arrive one after the other. -/
def run (endian : Endian) (work : Nat → Work) (fuel : Nat) (chunks : List (List UInt8)) :
    Except Fault IoThread :=
  chunks.foldlM (arrive endian work fuel) .start

/-- The first tasks were taken out, each once and in order, and what is left in the input is not a
complete task. -/
def Delivered (endian : Endian) (work : Nat → Work) (writes : List Write)
    (chunks : List (List UInt8)) : Prop :=
  ∃ done next thread, writes = done ++ next ∧
    Ends (fun fuel => run endian work fuel chunks) thread ∧
    thread.taken = done.map (·.bytes endian) ∧ Part endian next thread.input

/-- Some tasks, and a cut of their stream into the chunks that arrive. -/
structure Arrivals (endian : Endian) where
  writes : List Write
  chunks : List (List UInt8)
  flatten_eq : chunks.flatten = stream endian writes

/-- After each arrival all complete tasks were taken out. -/
def Delivers (endian : Endian) (work : Nat → Work) (arrivals : Arrivals endian) : Prop :=
  ∀ before after, arrivals.chunks = before ++ after →
    Delivered endian work arrivals.writes before

/-- The number of tasks that are complete in so many bytes of their stream. -/
def complete : List Write → Nat → Nat
  | [], _ => 0
  | w :: writes, arrived =>
    if arrived < w.size then 0 else complete writes (arrived - w.size) + 1

/-- Each task that fails is the last one that an arrival completes. -/
def FailuresLast {endian : Endian} (work : Nat → Work) (arrivals : Arrivals endian) : Prop :=
  ∀ before chunk after, arrivals.chunks = before ++ chunk :: after →
    ∀ i w, complete arrivals.writes before.flatten.length ≤ i →
      i + 1 < complete arrivals.writes (before ++ [chunk]).flatten.length →
      arrivals.writes[i]? = some w → w.fails (work i) = false

section Arrivals

variable {endian : Endian} {work : Nat → Work} {writes done next : List Write}
  {thread : IoThread} {part : List UInt8}

theorem ends_run_concat {before : List (List UInt8)} {chunk : List UInt8} {thread' : IoThread}
    (hrun : Ends (fun fuel => run endian work fuel before) thread)
    (harrive : Ends (fun fuel => arrive endian work fuel thread chunk) thread') :
    Ends (fun fuel => run endian work fuel (before ++ [chunk])) thread' := by
  have hconcat : ∀ fuel, run endian work fuel (before ++ [chunk]) =
      run endian work fuel before >>= fun thread => arrive endian work fuel thread chunk := by
    intro fuel
    simp [run, List.foldlM_append]
  simp only [hconcat]
  exact hrun.bind harrive

/-- No task is lost, taken twice or taken out of order, whatever fails: the tasks that were taken
and the input make up what has arrived. -/
theorem run_in_order (work : Nat → Work) {before : List (List UInt8)} {after : List UInt8}
    (hstream : before.flatten ++ after = stream endian writes) :
    ∃ done next thread, writes = done ++ next ∧
      Ends (fun fuel => run endian work fuel before) thread ∧
      thread.taken = done.map (·.bytes endian) ∧ thread.input ++ after = stream endian next := by
  induction before using List.reverseRecOn generalizing after with
  | nil => exact ⟨[], writes, .start, rfl, Ends.of_eq fun _ => rfl, rfl, hstream⟩
  | append_singleton before chunk ih =>
    rw [List.flatten_concat, List.append_assoc] at hstream
    obtain ⟨done, next, thread, rfl, hrun, htaken, hinput⟩ := ih hstream
    obtain ⟨ready, next', part, thread', rfl, _, hrest, _, harrive, htaken', hinput'⟩ :=
      arrive_of_stream work hinput
    have hhandled := List.prefix_iff_eq_append.1 (prefix_handled work thread.taken.length ready)
    refine ⟨done ++ handled work thread.taken.length ready,
      ready.drop (handled work thread.taken.length ready).length ++ next', thread', ?_,
      ends_run_concat hrun harrive, ?_, ?_⟩
    · rw [List.append_assoc, ← List.append_assoc (handled ..), hhandled]
    · rw [htaken', htaken, List.map_append]
    · rw [hinput', List.append_assoc, hrest, stream_append]

theorem complete_append (hpart : Part endian next part) :
    complete (done ++ next) (stream endian done ++ part).length = done.length := by
  induction done with
  | nil =>
    rcases hpart with rfl | ⟨w, more, rfl, _, hlt⟩
    · cases next with
      | nil => rfl
      | cons w more => exact if_pos w.size_pos
    · exact if_pos hlt
  | cons w done ih =>
    rw [stream_cons, List.append_assoc, List.length_append, w.length_bytes, List.cons_append,
      complete, if_neg (by omega), Nat.add_sub_cancel_left, ih, List.length_cons]

theorem Part.eq_nil {ready : List Write} (h : Part endian (ready ++ next)
    (stream endian ready ++ part)) : ready = [] := by
  cases ready with
  | nil => rfl
  | cons w ready =>
    have hpos := w.size_pos
    have hlen := w.length_bytes endian
    rw [stream_cons, List.append_assoc] at h
    rcases h with hnil | ⟨w', more, hnext, _, hlt⟩
    · rw [(List.append_eq_nil_iff.1 hnil).1, List.length_nil] at hlen
      omega
    · cases hnext
      rw [List.length_append] at hlt
      omega

theorem Delivered.arrived {before : List (List UInt8)} {after : List UInt8}
    (h : Delivered endian work writes before)
    (hstream : before.flatten ++ after = stream endian writes) :
    ∃ done next thread, writes = done ++ next ∧
      Ends (fun fuel => run endian work fuel before) thread ∧
      thread.taken = done.map (·.bytes endian) ∧ Part endian next thread.input ∧
      thread.input ++ after = stream endian next ∧
      before.flatten = stream endian done ++ thread.input := by
  obtain ⟨done, next, thread, hwrites, hrun, htaken, hpart⟩ := h
  obtain ⟨done', next', thread', hwrites', hrun', htaken', hinput⟩ := run_in_order work hstream
  obtain rfl := hrun.unique hrun'
  have hlen : done.length = done'.length := by
    have hmap := congrArg List.length (htaken.symm.trans htaken')
    rwa [List.length_map, List.length_map] at hmap
  obtain ⟨rfl, rfl⟩ := List.append_inj (hwrites.symm.trans hwrites') hlen
  refine ⟨done, next, thread', hwrites, hrun, htaken, hpart, hinput, ?_⟩
  rw [hwrites, stream_append, ← hinput, ← List.append_assoc] at hstream
  exact List.append_cancel_right hstream

/-- The positions of some tasks in a longer sequence. -/
theorem fails_shift_iff {ready : List Write} :
    (∀ i w, i + 1 < ready.length → ready[i]? = some w → w.fails (work (done.length + i)) = false) ↔
    ∀ i w, done.length ≤ i → i + 1 < (done ++ ready).length →
      (done ++ (ready ++ next))[i]? = some w → w.fails (work i) = false := by
  constructor
  · intro hall i w hle hlt hw
    rw [List.length_append] at hlt
    rw [List.getElem?_append_right hle, List.getElem?_append_left (by omega)] at hw
    have hfails := hall (i - done.length) w (by omega) hw
    rwa [Nat.add_sub_cancel' hle] at hfails
  · intro hall i w hlt hw
    refine hall (done.length + i) w (Nat.le_add_right ..) ?_ ?_
    · rw [List.length_append]
      omega
    · rw [List.getElem?_append_right (Nat.le_add_right ..), Nat.add_sub_cancel_left,
        List.getElem?_append_left (by omega)]
      exact hw

/-- An arrival is delivered exactly if none of the tasks that it completes fails but possibly the
last one. -/
theorem Delivered.concat_iff {before : List (List UInt8)} {chunk after : List UInt8}
    (h : Delivered endian work writes before)
    (hstream : before.flatten ++ (chunk ++ after) = stream endian writes) :
    Delivered endian work writes (before ++ [chunk]) ↔
      ∀ i w, complete writes before.flatten.length ≤ i →
        i + 1 < complete writes (before ++ [chunk]).flatten.length →
        writes[i]? = some w → w.fails (work i) = false := by
  obtain ⟨done, next, thread, rfl, hrun, htaken, hpart, hinput, hbefore⟩ := h.arrived hstream
  obtain ⟨ready, next', part, thread', rfl, hpart', _, harrived, harrive, htaken', hinput'⟩ :=
    arrive_of_stream work hinput
  have hlen : thread.taken.length = done.length := by rw [htaken, List.length_map]
  rw [hlen] at htaken' hinput'
  have hcount : complete (done ++ (ready ++ next')) before.flatten.length = done.length := by
    rw [hbefore]
    exact complete_append hpart
  have hcount' : complete (done ++ (ready ++ next')) (before ++ [chunk]).flatten.length =
      (done ++ ready).length := by
    have hflatten : (before ++ [chunk]).flatten = stream endian (done ++ ready) ++ part := by
      rw [List.flatten_concat, hbefore, List.append_assoc, harrived, stream_append,
        List.append_assoc]
    rw [hflatten, ← List.append_assoc]
    exact complete_append hpart'
  rw [hcount, hcount', ← fails_shift_iff, ← handled_eq_iff]
  have hends := ends_run_concat hrun harrive
  have htaken' : thread'.taken = (done ++ handled work done.length ready).map (·.bytes endian) := by
    rw [htaken', htaken, List.map_append]
  constructor
  · rintro ⟨done'', next'', thread'', hwrites, hends'', htaken'', hleft⟩
    obtain rfl := hends.unique hends''
    have hprefix := prefix_handled work done.length ready
    have hsplit := List.prefix_iff_eq_append.1 hprefix
    -- what was taken ends in front of the tasks that are left
    have hnext : next'' = ready.drop (handled work done.length ready).length ++ next' := by
      have hsame : (done ++ handled work done.length ready).length = done''.length := by
        have hmap := congrArg List.length (htaken'.symm.trans htaken'')
        rwa [List.length_map, List.length_map] at hmap
      rw [← hsplit, List.append_assoc, ← List.append_assoc done] at hwrites
      exact (List.append_inj hwrites hsame).2.symm
    rw [hinput', hnext] at hleft
    rw [hleft.eq_nil, List.append_nil] at hsplit
    exact hsplit
  · intro hall
    refine ⟨done ++ ready, next', thread', (List.append_assoc ..).symm, hends, ?_, ?_⟩
    · rw [htaken', hall]
    · rw [hinput', hall, List.drop_length]
      exact hpart'

end Arrivals

/-- For all tasks, every way in which their bytes arrive and every pattern of failures: after each
arrival each complete task was taken out once and in order and none is left in the input, exactly
if each task that fails is the last one that its arrival completes. -/
theorem tunnel_delivers_iff (endian : Endian) (work : Nat → Work) (arrivals : Arrivals endian) :
    Delivers endian work arrivals ↔ FailuresLast work arrivals := by
  have hstream : ∀ before chunk after, arrivals.chunks = before ++ chunk :: after →
      before.flatten ++ (chunk ++ after.flatten) = stream endian arrivals.writes := by
    intro before chunk after hsplit
    rw [← arrivals.flatten_eq, hsplit, List.flatten_append, List.flatten_cons]
  constructor
  · intro h before chunk after hsplit
    refine ((h before (chunk :: after) hsplit).concat_iff (hstream _ _ _ hsplit)).1 ?_
    exact h (before ++ [chunk]) after (by rw [hsplit, List.append_assoc, List.singleton_append])
  · intro h before
    -- by the last arrival
    induction before using List.reverseRecOn with
    | nil =>
      intro _ _
      exact ⟨[], arrivals.writes, .start, rfl, Ends.of_eq fun _ => rfl, rfl, .inl rfl⟩
    | append_singleton before chunk ih =>
      intro after hsplit
      rw [List.append_assoc, List.singleton_append] at hsplit
      exact ((ih _ hsplit).concat_iff (hstream _ _ _ hsplit)).2 (h before chunk after hsplit)

/-- Work for which `event_new` fails. -/
def noEvent : Work :=
  ⟨false, true, true, 0, 0, 0⟩

/-- A task that sets the interval to one second. -/
def oneSecond : Write :=
  .setTimeout 1 ⟨List.replicate 7 0, List.length_replicate⟩

/-- A task that adds a socket. -/
def zeroSocket : Write :=
  .addSocket ⟨List.replicate addSocketSize 0, List.length_replicate⟩

/-- Two tasks arrive together and the first one fails. The callback returns with the second one
complete in the input. -/
theorem task_left_behind_failure :
    ∃ thread, Ends (fun fuel => run .little (fun _ => noEvent) fuel
        [stream .little [oneSecond, zeroSocket]]) thread ∧
      thread.taken = [oneSecond.bytes .little] ∧ thread.input = zeroSocket.bytes .little := by
  have hstart : Ends (fun fuel => run .little (fun _ => noEvent) fuel []) .start :=
    Ends.of_eq fun _ => rfl
  have hready : IoThread.start.input ++ stream .little [oneSecond, zeroSocket] =
      stream .little [oneSecond, zeroSocket] ++ [] := (List.append_nil _).symm
  have hpart : Part .little [] [] := .inl rfl
  obtain ⟨thread, hends, htaken, hinput⟩ : ∃ thread, Ends (fun fuel => arrive .little
      (fun _ => noEvent) fuel .start (stream .little [oneSecond, zeroSocket])) thread ∧
      thread.taken = _ ∧ thread.input = _ := tunnelcb_of_ready hpart hready
  refine ⟨thread, ends_run_concat hstart hends, htaken, hinput.trans ?_⟩
  exact (List.append_nil _).trans (List.append_nil _)

end HakunaMatata.Libevent.Tunnel
