import HakunaMatata.Base.LinkedList
import HakunaMatata.Base.Transaction
import HakunaMatata.CodecBytes.Model

/-!
# The chain of codecs, `dispatcher.cpp` and `codec.cpp`

A dispatcher has a list of codecs that are linked by `prev_` and `next_`. A message that is sent
goes from the head along `next_` to the socket, and a unit that the last codec has received goes
from there along `prev_` to the callbacks: a codec transforms the data and calls the dispatcher
again for the codec behind it. `codec_chain` says that both ways go through the codecs in the order
in which they were appended, once each.

The codecs are a parameter. The members `prev_` and `next_` are functions on codecs, and what
happens is recorded in order.
-/

namespace HakunaMatata.CodecChain

open Base

/-- The transformations that the codecs make before they pass the data on. -/
structure Codecs (ι : Type) where
  encode : ι → List UInt8 → List UInt8
  decode : ι → List UInt8 → List UInt8

/-- The members `total_msg_` and `callbacks_` of `Dispatcher`. -/
structure Registry (κ : Type) where
  totalMsg : Nat
  callbacks : List (Option κ)

/-- `Dispatcher`, with the members `prev_` and `next_` of the codecs. -/
structure Dispatcher (ι κ : Type) where
  registry : Registry κ
  codecListHead : Option ι
  codecListTail : Option ι
  prev : ι → Option ι
  next : ι → Option ι

/-- The socket context of a session: what `Write` returns for some bytes. -/
structure Session where
  ctx : Option (List UInt8 → Int)

/-- What happens to data: a codec transforms it, the socket writes it, or the end of the chain
looks for its callback and calls it. -/
inductive Event (ι κ : Type) where
  | encode (codec : ι) (data : List UInt8)
  | write (data : List UInt8)
  | decode (codec : ι) (data : List UInt8)
  | lookup (data : List UInt8)
  | callback (func : κ) (data : List UInt8)
  deriving DecidableEq, Repr

/-- A method, with the record of what has happened. -/
abbrev Run (ι κ : Type) := EStateM Fault (List (Event ι κ))

/-! ## The dispatcher -/

section Dispatcher

variable {ι κ : Type}

/-- Record some events. -/
def emit (events : List (Event ι κ)) : Run ι κ Unit := fun log =>
  .ok () (log ++ events)

/-- `Dispatcher::Dispatcher`, with the callbacks that are registered, and codecs in memory. -/
def Dispatcher.new (registry : Registry κ) (prev next : ι → Option ι) : Dispatcher ι κ :=
  ⟨registry, none, none, prev, next⟩

/-- `Codec::append`. -/
def append [DecidableEq ι] (d : Dispatcher ι κ) (this codec : ι) : Dispatcher ι κ :=
  { d with
    next := Function.update d.next this (some codec)
    prev := Function.update d.prev codec (some this) }

/-- `Dispatcher::appendCodec`. -/
def appendCodec [DecidableEq ι] (d : Dispatcher ι κ) (codec : ι) : Dispatcher ι κ :=
  match d.codecListTail with
  | none => { d with codecListHead := some codec, codecListTail := some codec }
  | some tail => { append d tail codec with codecListTail := some codec }

/-- A dispatcher to which codecs have been appended. -/
def Dispatcher.withCodecs [DecidableEq ι] (registry : Registry κ) (prev next : ι → Option ι)
    (codecs : List ι) : Dispatcher ι κ :=
  codecs.foldl appendCodec (.new registry prev next)

/-- The calls from codec to codec: each one records the data that it is given, and passes the
transformed data to the codec that its link names. -/
def along (link : ι → Option ι) (transform : ι → List UInt8 → List UInt8)
    (event : ι → List UInt8 → Event ι κ) (finish : List UInt8 → Run ι κ Bool) :
    Nat → Option ι → List UInt8 → Run ι κ Bool
  | _, none, data => finish data
  | 0, some _, _ => throw .diverged
  | fuel + 1, some codec, data => do
    emit [event codec data]
    along link transform event finish fuel (link codec) (transform codec data)

/-- The end of `Dispatcher::encode`. -/
def write (session : Session) (data : List UInt8) : Run ι κ Bool :=
  session.ctx.elim (throw .assertion) fun written => do
    emit [.write data]
    pure (written data = i32 data.length)

/-- `Dispatcher::encode`. -/
def encode (d : Dispatcher ι κ) (codecs : Codecs ι) (session : Session) :
    Nat → Option ι → List UInt8 → Run ι κ Bool :=
  along d.next codecs.encode .encode (write session)

/-- `callbacks_[hdr->msg_id]`, if the id is below `total_msg_`. -/
def callbackOf (endian : Endian) (registry : Registry κ) (data : List UInt8) :
    Except Fault (Option κ) := do
  let msgId ← bytesAt data 8 4
  if loadWord endian msgId < registry.totalMsg then
    load registry.callbacks (loadWord endian msgId)
  else pure none

/-- The end of `Dispatcher::decode`. -/
def lookup (registry : Registry κ) (endian : Endian) (session : Session)
    (data : List UInt8) : Run ι κ Bool :=
  session.ctx.elim (throw .assertion) fun _ => do
    emit [.lookup data]
    match callbackOf endian registry data with
    | .ok (some func) => do
      emit [.callback func data]
      pure true
    | .ok none => pure true
    | .error fault => throw fault

/-- `Dispatcher::decode`. -/
def decode (d : Dispatcher ι κ) (codecs : Codecs ι) (endian : Endian) (session : Session) :
    Nat → Option ι → List UInt8 → Run ι κ Bool :=
  along d.prev codecs.decode .decode (lookup d.registry endian session)

/-- Handle units one after the other, until one is refused. -/
def handleEach (handle : List UInt8 → Run ι κ Bool) : List (List UInt8) → Run ι κ Bool
  | [] => pure true
  | unit :: units => do
    let ret ← handle unit
    if ret then handleEach handle units else pure false

/-- `Dispatcher::recvMessage`. The last codec is called without data: it takes units off the socket
and delivers them to its predecessor. Without a codec, the message id is read at a null pointer. -/
def recvMessage (d : Dispatcher ι κ) (codecs : Codecs ι) (endian : Endian) (session : Session)
    (fuel : Nat) (units : List (List UInt8)) : Run ι κ Bool :=
  d.codecListTail.elim (throw .outOfBounds) fun codec =>
    handleEach (fun unit => do
      emit [.decode codec unit]
      decode d codecs endian session fuel (d.prev codec) (codecs.decode codec unit)) units

/-- `Dispatcher::sendMessage`. -/
def sendMessage (d : Dispatcher ι κ) (codecs : Codecs ι) (session : Session) (fuel : Nat)
    (data : List UInt8) : Run ι κ Bool :=
  encode d codecs session fuel d.codecListHead data

end Dispatcher

/-! ## The links -/

section Links

variable {ι κ : Type} {d : Dispatcher ι κ} {codecs : List ι} {codec : ι}

/-- The codecs of the dispatcher in order: `next_` leads through them from the head, and `prev_`
from the tail. -/
structure Chain (d : Dispatcher ι κ) (codecs : List ι) : Prop where
  nodup : codecs.Nodup
  tail : d.codecListTail = codecs.getLast?
  next : Leads d.next d.codecListHead codecs
  prev : Leads d.prev d.codecListTail codecs.reverse

theorem chain_new (registry : Registry κ) (prev next : ι → Option ι) :
    Chain (Dispatcher.new registry prev next) [] :=
  ⟨List.nodup_nil, rfl, rfl, rfl⟩

theorem Chain.appendCodec [DecidableEq ι] (h : Chain d codecs) (hcodec : codec ∉ codecs)
    (hprev : d.prev codec = none) (hnext : d.next codec = none) :
    Chain (appendCodec d codec) (codecs ++ [codec]) := by
  have hnodup : (codecs ++ [codec]).Nodup := by
    rw [← List.concat_eq_append]
    exact h.nodup.concat hcodec
  have hlast : (codecs ++ [codec]).getLast? = some codec := List.getLast?_concat
  have htail := h.tail
  have hback := h.prev
  unfold CodecChain.appendCodec
  split
  · rename_i hnone
    rw [hnone] at htail
    obtain rfl := List.getLast?_eq_none_iff.mp htail.symm
    exact ⟨hnodup, rfl, ⟨rfl, hnext⟩, ⟨rfl, hprev⟩⟩
  · rename_i last hsome
    rw [hsome] at htail hback
    refine ⟨hnodup, hlast.symm, h.next.concat htail.symm h.nodup hcodec hnext, ?_⟩
    rw [List.reverse_append, List.reverse_singleton]
    refine ⟨rfl, ?_⟩
    show Leads (Function.update d.prev codec (some last))
      (Function.update d.prev codec (some last) codec) codecs.reverse
    rw [Function.update_self]
    refine hback.congr fun other hmem => Function.update_of_ne ?_ _ _
    rintro rfl
    exact hcodec (List.mem_reverse.mp hmem)

theorem appendCodec_links [DecidableEq ι] (h : Chain d codecs) (codec : ι) {other : ι}
    (hother : other ∉ codecs ++ [codec]) :
    (appendCodec d codec).prev other = d.prev other ∧
      (appendCodec d codec).next other = d.next other := by
  have htail := h.tail
  rw [List.mem_append, List.mem_singleton, not_or] at hother
  unfold appendCodec
  split
  · exact ⟨rfl, rfl⟩
  · rename_i last hsome
    rw [hsome] at htail
    refine ⟨Function.update_of_ne hother.2 _ _, Function.update_of_ne ?_ _ _⟩
    rintro rfl
    exact hother.1 (List.mem_of_getLast? htail.symm)

theorem Chain.foldl [DecidableEq ι] (h : Chain d codecs) (more : List ι)
    (hnodup : (codecs ++ more).Nodup)
    (hlinks : ∀ codec ∈ more, d.prev codec = none ∧ d.next codec = none) :
    Chain (more.foldl CodecChain.appendCodec d) (codecs ++ more) := by
  induction more generalizing d codecs with
  | nil =>
    rw [List.append_nil]
    exact h
  | cons codec more ih =>
    rw [List.append_cons] at hnodup ⊢
    have hdisjoint := List.disjoint_of_nodup_append hnodup
    have hfirst : codec ∉ codecs := fun hmem =>
      List.disjoint_of_nodup_append hnodup.of_append_left hmem (.head _)
    obtain ⟨hprev, hnext⟩ := hlinks codec (.head _)
    -- the codecs that are still to come keep their null pointers
    refine ih (h.appendCodec hfirst hprev hnext) hnodup fun other hmem => ?_
    obtain ⟨hprev', hnext'⟩ := appendCodec_links h codec fun hold => hdisjoint hold hmem
    rw [hprev', hnext']
    exact hlinks other (.tail _ hmem)

theorem appendCodec_registry [DecidableEq ι] (d : Dispatcher ι κ) (codec : ι) :
    (appendCodec d codec).registry = d.registry := by
  unfold appendCodec
  split <;> rfl

theorem withCodecs_registry [DecidableEq ι] (registry : Registry κ) (prev next : ι → Option ι)
    (codecs : List ι) : (Dispatcher.withCodecs registry prev next codecs).registry = registry := by
  have hkept : ∀ d : Dispatcher ι κ,
      (codecs.foldl CodecChain.appendCodec d).registry = d.registry := by
    induction codecs with
    | nil => exact fun d => rfl
    | cons codec codecs ih => exact fun d => (ih _).trans (appendCodec_registry d codec)
  exact hkept _

end Links

/-! ## The way through the codecs -/

section Way

variable {ι κ : Type}

/-- The codecs, each with the data that it is given. -/
def given (transform : ι → List UInt8 → List UInt8) :
    List ι → List UInt8 → List (ι × List UInt8)
  | [], _ => []
  | codec :: codecs, data => (codec, data) :: given transform codecs (transform codec data)

/-- The data behind the last codec. -/
def through (transform : ι → List UInt8 → List UInt8) (codecs : List ι) (data : List UInt8) :
    List UInt8 :=
  codecs.foldl (fun data codec => transform codec data) data

theorem emit_bind_emit {α : Type} (events events' : List (Event ι κ)) (rest : Run ι κ α) :
    (do emit events; emit events'; rest) = (do emit (events ++ events'); rest) := by
  funext log
  show rest (log ++ events ++ events') = rest (log ++ (events ++ events'))
  rw [List.append_assoc]

theorem emit_nil_bind {α : Type} (rest : Run ι κ α) : (do emit []; rest) = rest := by
  funext log
  show rest (log ++ []) = rest log
  rw [List.append_nil]

variable {link : ι → Option ι} {transform : ι → List UInt8 → List UInt8}
  {event : ι → List UInt8 → Event ι κ} {finish : List UInt8 → Run ι κ Bool} {start : Option ι}
  {codecs : List ι}

/-- The calls go through the codecs to which the links lead. -/
theorem along_eq (h : Leads link start codecs) {fuel : Nat} (hfuel : codecs.length ≤ fuel)
    (data : List UInt8) :
    along link transform event finish fuel start data = (do
      emit ((given transform codecs data).map fun call => event call.1 call.2)
      finish (through transform codecs data)) := by
  induction codecs generalizing start fuel data with
  | nil =>
    obtain rfl : start = none := h
    rw [along, given, List.map_nil, emit_nil_bind]
    rfl
  | cons codec codecs ih =>
    obtain ⟨rfl, hrest⟩ := h
    obtain ⟨fuel, rfl⟩ : ∃ rest, fuel = rest + 1 :=
      ⟨fuel - 1, by rw [List.length_cons] at hfuel; omega⟩
    rw [along, ih hrest (Nat.le_of_succ_le_succ hfuel), emit_bind_emit, given, List.map_cons]
    rfl

/-- The way back undoes what each codec has done on the way there. -/
theorem through_reverse {inverse : ι → List UInt8 → List UInt8} (codecs : List ι)
    (data : List UInt8) (h : ∀ call ∈ given transform codecs data,
      inverse call.1 (transform call.1 call.2) = call.2) :
    through inverse codecs.reverse (through transform codecs data) = data := by
  induction codecs generalizing data with
  | nil => rfl
  | cons codec codecs ih =>
    have hrest := ih (transform codec data) fun call hcall => h call (.tail _ hcall)
    have hfirst := h (codec, data) (.head _)
    rw [List.reverse_cons, through, List.foldl_append]
    show inverse codec (through inverse codecs.reverse
      (through transform codecs (transform codec data))) = data
    rw [hrest]
    exact hfirst

end Way

section Messages

variable {ι κ : Type} {d : Dispatcher ι κ} {codecs : List ι} {fuel : Nat}

/-- The calls of `encode` on the way to the socket. -/
def encodes (transforms : Codecs ι) (codecs : List ι) (data : List UInt8) : List (Event ι κ) :=
  (given transforms.encode codecs data).map fun call => .encode call.1 call.2

/-- The calls of `decode` on the way from the socket. -/
def decodes (transforms : Codecs ι) (codecs : List ι) (unit : List UInt8) : List (Event ι κ) :=
  (given transforms.decode codecs.reverse unit).map fun call => .decode call.1 call.2

/-- What is left behind the lookup: the callback that was found has been called. -/
def looked (log : List (Event ι κ)) (data : List UInt8) :
    Except Fault (Option κ) → EStateM.Result Fault (List (Event ι κ)) Bool
  | .ok none => .ok true (log ++ [.lookup data])
  | .ok (some func) => .ok true (log ++ [.lookup data, .callback func data])
  | .error fault => .error fault (log ++ [.lookup data])

theorem sendMessage_eq (h : Chain d codecs) (transforms : Codecs ι) (session : Session)
    (hfuel : codecs.length ≤ fuel) (data : List UInt8) :
    sendMessage d transforms session fuel data = (do
      emit (encodes transforms codecs data)
      write session (through transforms.encode codecs data)) :=
  along_eq h.next hfuel data

/-- Every unit goes through the codecs, the last one first, to the lookup of its callback. -/
theorem recvMessage_eq (h : Chain d codecs) (hne : codecs ≠ []) (transforms : Codecs ι)
    (endian : Endian) (session : Session) (hfuel : codecs.length ≤ fuel)
    (units : List (List UInt8)) :
    recvMessage d transforms endian session fuel units =
      handleEach (fun unit => do
        emit (decodes transforms codecs unit)
        lookup d.registry endian session (through transforms.decode codecs.reverse unit))
        units := by
  -- the last codec takes the units off the socket, and the others are on their way from there
  obtain ⟨last, rest, hreverse⟩ := List.exists_cons_of_ne_nil (List.reverse_ne_nil_iff.mpr hne)
  have hprev := h.prev
  rw [hreverse] at hprev
  obtain ⟨htail, hrest⟩ := hprev
  have hlength : rest.length ≤ fuel := by
    have hcount : (last :: rest).length = codecs.length := by
      rw [← hreverse, List.length_reverse]
    rw [List.length_cons] at hcount
    omega
  unfold decodes
  rw [recvMessage, htail, Option.elim_some, hreverse]
  congr 1
  funext unit
  rw [decode, along_eq hrest hlength, emit_bind_emit, given, List.map_cons]
  rfl

theorem emit_write (session : Session) (events log : List (Event ι κ)) (data : List UInt8) :
    (do emit events
        write session data : Run ι κ Bool) log =
      session.ctx.elim (.error .assertion (log ++ events)) fun written =>
        .ok (written data = i32 data.length) (log ++ events ++ [.write data]) := by
  unfold write
  cases session.ctx <;> rfl

/-- The log of a lookup behind some events. -/
theorem emit_lookup (registry : Registry κ) (endian : Endian) (session : Session)
    (events log : List (Event ι κ)) (data : List UInt8) :
    (do emit events
        lookup registry endian session data : Run ι κ Bool) log =
      session.ctx.elim (.error .assertion (log ++ events)) fun _ =>
        looked (log ++ events) data (callbackOf endian registry data) := by
  unfold lookup
  cases session.ctx with
  | none => rfl
  | some written =>
    rw [Option.elim_some, Option.elim_some]
    cases callbackOf endian registry data with
    | error fault => rfl
    | ok func =>
      cases func with
      | none => rfl
      | some func =>
        show EStateM.Result.ok true (log ++ events ++ [.lookup data] ++
          [.callback func data]) = _
        rw [List.append_assoc _ [_]]
        rfl

theorem handleEach_singleton (handle : List UInt8 → Run ι κ Bool) (unit : List UInt8) :
    handleEach handle [unit] = handle unit := by
  funext log
  rw [handleEach]
  cases hunit : handle unit log with
  | error fault rest => rw [bind_of_error hunit]
  | ok ret rest =>
    rw [bind_of_ok hunit]
    cases ret <;> rfl

/-- Codecs that are appended to a dispatcher make up a chain. A message passes them once each in
the order in which they were appended, and is then written to the socket once: the log and the
result are those of these calls. Every unit that is received passes them once each in the opposite
order, and then its callback is looked up and called; the units come one after the other, until one
is refused. If on the data that it is given each codec decodes what it has encoded, the callback of
a message gets the bytes that were to be sent. -/
theorem codec_chain [DecidableEq ι] (transforms : Codecs ι) (endian : Endian) (session : Session)
    (registry : Registry κ) (prev next : ι → Option ι) (codecs : List ι)
    (hnodup : codecs.Nodup) (hlinks : ∀ codec ∈ codecs, prev codec = none ∧ next codec = none)
    (fuel : Nat) (hfuel : codecs.length ≤ fuel) :
    (∀ data log,
      sendMessage (.withCodecs registry prev next codecs) transforms session fuel data log =
        session.ctx.elim (.error .assertion (log ++ encodes transforms codecs data)) fun written =>
          .ok (written (through transforms.encode codecs data) =
              i32 (through transforms.encode codecs data).length)
            (log ++ encodes transforms codecs data ++
              [.write (through transforms.encode codecs data)])) ∧
    (codecs ≠ [] →
      (∀ unit log,
        recvMessage (.withCodecs registry prev next codecs) transforms endian session fuel
            [unit] log =
          session.ctx.elim (.error .assertion (log ++ decodes transforms codecs unit)) fun _ =>
            looked (log ++ decodes transforms codecs unit)
              (through transforms.decode codecs.reverse unit)
              (callbackOf endian registry (through transforms.decode codecs.reverse unit))) ∧
      ∀ unit units,
        recvMessage (.withCodecs registry prev next codecs) transforms endian session fuel
            (unit :: units) = (do
          let ret ← recvMessage (.withCodecs registry prev next codecs) transforms endian session
            fuel [unit]
          if ret then
            recvMessage (.withCodecs registry prev next codecs) transforms endian session fuel units
          else pure false)) ∧
    (codecs ≠ [] → session.ctx ≠ none → ∀ data func,
      (∀ call ∈ given transforms.encode codecs data,
        transforms.decode call.1 (transforms.encode call.1 call.2) = call.2) →
      callbackOf endian registry data = .ok (some func) → ∀ log,
      recvMessage (.withCodecs registry prev next codecs) transforms endian session fuel
          [through transforms.encode codecs data] log =
        .ok true (log ++ decodes transforms codecs (through transforms.encode codecs data) ++
          [.lookup data, .callback func data])) := by
  have hchain : Chain (.withCodecs registry prev next codecs) codecs :=
    (chain_new registry prev next).foldl codecs hnodup hlinks
  have hrecv := fun hne units => recvMessage_eq hchain hne transforms endian session hfuel units
  rw [withCodecs_registry] at hrecv
  refine ⟨fun data log => ?_, fun hne => ⟨fun unit log => ?_, fun unit units => ?_⟩, ?_⟩
  · rw [sendMessage_eq hchain transforms session hfuel, emit_write]
  · rw [hrecv hne, handleEach_singleton, emit_lookup]
  · rw [hrecv hne, hrecv hne, hrecv hne, handleEach_singleton, handleEach]
  · intro hne hctx data func hinverse hcallback log
    obtain ⟨written, hwritten⟩ := Option.ne_none_iff_exists'.mp hctx
    rw [hrecv hne, handleEach_singleton, emit_lookup, through_reverse codecs data hinverse,
      hcallback, hwritten]
    rfl

end Messages

/-- Two codecs: one turns the data around, and the other one adds one to every byte. -/
def turnAndAdd : Codecs Bool where
  encode codec data := if codec then data.map (· + 1) else data.reverse
  decode codec data := if codec then data.map (· - 1) else data.reverse

/-- A message with id one. -/
def firstMessage : List UInt8 :=
  [0x44, 0x45, 0x4D, 0x4F, 1, 1, 0, 0, 1, 0, 0, 0, 2, 0, 0, 0, 7, 8]

/-- The message is written behind both codecs, and its callback gets it back. -/
theorem codec_chain_firstMessage :
    [false, true].Nodup ∧
      sendMessage (.withCodecs ⟨2, [none, some ()]⟩ (fun _ => none) (fun _ => none) [false, true])
          turnAndAdd ⟨some fun data => data.length⟩ 2 firstMessage [] =
        .ok true [.encode false firstMessage, .encode true firstMessage.reverse,
          .write (firstMessage.reverse.map (· + 1))] ∧
      recvMessage (.withCodecs ⟨2, [none, some ()]⟩ (fun _ => none) (fun _ => none) [false, true])
          turnAndAdd .little ⟨some fun data => data.length⟩ 2
          [through turnAndAdd.encode [false, true] firstMessage] [] =
        .ok true [.decode true (firstMessage.reverse.map (· + 1)),
          .decode false firstMessage.reverse, .lookup firstMessage, .callback () firstMessage] := by
  have hchain := codec_chain turnAndAdd .little ⟨some fun data => data.length⟩
    ⟨2, [none, some ()]⟩ (fun _ => none) (fun _ => none) [false, true] (by decide)
    (fun _ _ => ⟨rfl, rfl⟩) 2 (Nat.le_refl 2)
  have hwritten : i32 18 = 18 := i32_of_lt (by decide) (by decide)
  refine ⟨by decide, (hchain.1 firstMessage []).trans ?_, ?_⟩
  · exact congrArg (EStateM.Result.ok · _) (decide_eq_true hwritten.symm)
  · exact hchain.2.2 (by decide) nofun firstMessage () (by decide) rfl []

end HakunaMatata.CodecChain
