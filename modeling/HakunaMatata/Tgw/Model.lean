import HakunaMatata.Base.Memory
import HakunaMatata.Base.Words

/-!
# The TGW handlers of the packet analyser, `tgw_handle.c`

`handleTgw` appends the data of a TCP segment to the byte buffer of its session and then prints
a line for each frame at the front of the buffer. A frame that is contiguous in the buffer is
swapped to host order in place and skipped; otherwise it is copied out first.
`handleTgwImmediate` expects that a segment is one frame and swaps it in the packet. The host is
little-endian. The byte buffer and the macro that swaps the bytes of a word belong to another
library: they are parameters, and `IdealFifo` states what the buffer is documented to do.
-/

namespace HakunaMatata.Tgw

open Base

/-- `sizeof(tgw_hdr_t)`. -/
def hdrSize : Nat := 8

/-- `sizeof(tgw_tail_t)`. -/
def tailSize : Nat := 4

/-- `tgw_hdr_t`. -/
structure Hdr where
  msgType : Nat
  bodyLength : Nat
  deriving DecidableEq, Repr

/-- The header that stands at the front of these bytes. -/
def Hdr.read (bytes : List UInt8) : Hdr where
  msgType := loadWord .little (bytes.take 4)
  bodyLength := loadWord .little ((bytes.drop 4).take 4)

/-- The bytes of a header in memory. -/
def Hdr.write (hdr : Hdr) : List UInt8 :=
  storeWord .little 4 hdr.msgType ++ storeWord .little 4 hdr.bodyLength

/-- `MUGGLE_ENDIAN_SWAP_32` of both fields. -/
def Hdr.swap (swap32 : ByteSwap 4) (hdr : Hdr) : Hdr where
  msgType := swap32.swap hdr.msgType
  bodyLength := swap32.swap hdr.bodyLength

/-- The text that is printed for a frame. -/
def Hdr.line (hdr : Hdr) : String :=
  "  - TGW|MsgType=" ++ toString hdr.msgType ++ ";BodyLength=" ++ toString hdr.bodyLength ++ "\n"

/-- `pfpa_context_t`: the texts printed to `fp`, the warnings, and the number of the packet. -/
structure Context where
  totalPack : Nat
  fp : List String
  log : List String
  deriving DecidableEq, Repr

/-- `fprintf` to `fp`. -/
def Context.print (ctx : Context) (text : String) : Context :=
  { ctx with fp := ctx.fp ++ [text] }

/-- `LOG_WARNING`. -/
def Context.warn (ctx : Context) (text : String) : Context :=
  { ctx with log := ctx.log ++ [text] }

/-- `handle_tgw_immediate`: the context and the packet data afterwards. -/
def handleTgwImmediate (swap32 : ByteSwap 4) (ctx : Context) (data : List UInt8) :
    Context × List UInt8 :=
  if data.length < hdrSize then
    (ctx.warn ("[" ++ toString ctx.totalPack ++ "] datalen < sizeof(tgw_hdr_t)"), data)
  else
    let hdr := (Hdr.read data).swap swap32
    let data := hdr.write ++ data.drop hdrSize
    if data.length = hdrSize + hdr.bodyLength + tailSize then (ctx.print hdr.line, data)
    else (ctx.warn ("[" ++ toString ctx.totalPack ++ "] datalen is incorrect"), data)

/-- The operations of `muggle_bytes_buffer_t` that are used. The pointer that `readerFc` returns
is given by the contiguous bytes from it on, and `overwrite` writes through it. The counts are
`int`. -/
structure BytesBuffer (β : Type*) where
  writable : β → Int
  write : List UInt8 → β → β
  readable : β → Int
  fetch : Nat → β → List UInt8
  readerFc : Int → β → Option (List UInt8)
  overwrite : List UInt8 → β → β
  readerMove : Int → β → β
  read : Int → β → List UInt8 × β

/-- The buffer is a first-in first-out queue of at most `capacity` bytes. Whether bytes at its
front are contiguous is up to the buffer. A move by zero or a negative amount is ignored. -/
structure IdealFifo {β : Type*} (buffer : BytesBuffer β) (content : β → List UInt8)
    (capacity : Nat) : Prop where
  writable : ∀ b, buffer.writable b = capacity - (content b).length
  write : ∀ bytes b, bytes.length ≤ buffer.writable b →
    content (buffer.write bytes b) = content b ++ bytes
  readable : ∀ b, buffer.readable b = (content b).length
  fetch : ∀ count b, count ≤ (content b).length → buffer.fetch count b = (content b).take count
  readerFc : ∀ (count : Int) b bytes, count ≤ (content b).length →
    buffer.readerFc count b = some bytes → bytes <+: content b ∧ count ≤ bytes.length
  overwrite : ∀ bytes b, bytes.length ≤ (content b).length →
    content (buffer.overwrite bytes b) = bytes ++ (content b).drop bytes.length
  readerMove : ∀ (count : Int) b, count ≤ (content b).length →
    content (buffer.readerMove count b) = (content b).drop count.toNat
  read : ∀ (count : Int) b, count ≤ (content b).length →
    (buffer.read count b).1 = (content b).take count.toNat ∧
      content (buffer.read count b).2 = (content b).drop count.toNat

/-- A buffer that is a list of bytes, of which the first `contiguous` lie next to each other. -/
def listBuffer (capacity contiguous : Nat) : BytesBuffer (List UInt8) where
  writable b := capacity - b.length
  write bytes b := b ++ bytes
  readable b := b.length
  fetch count b := b.take count
  readerFc count b := if count ≤ contiguous then some (b.take contiguous) else none
  overwrite bytes b := bytes ++ b.drop bytes.length
  readerMove count b := b.drop count.toNat
  read count b := (b.take count.toNat, b.drop count.toNat)

/-- A list of bytes is an ideal buffer, wherever it is broken. -/
theorem listBuffer_ideal (capacity contiguous : Nat) :
    IdealFifo (listBuffer capacity contiguous) id capacity where
  writable _ := rfl
  write _ _ _ := rfl
  readable _ := rfl
  fetch _ _ _ := rfl
  readerFc count b bytes hcount h := by
    simp only [listBuffer] at h
    split at h
    · cases h
      refine ⟨List.take_prefix .., ?_⟩
      rw [List.length_take]
      simp only [id] at hcount
      omega
    · cases h
  overwrite _ _ _ := rfl
  readerMove _ _ _ := rfl
  read _ _ _ := ⟨rfl, rfl⟩

/-- What the handler changes: the context, and the byte buffer of the session. -/
structure State (β : Type*) where
  ctx : Context
  buf : β

/-- The outcome of one iteration of the loop. -/
inductive Iteration (β : Type*) where
  | exit (state : State β)
  | again (state : State β)
  | fault (fault : Fault)

section Handle

variable {β : Type*} (swap32 : ByteSwap 4) (buffer : BytesBuffer β)

/-- `total_len`, a sum of sizes that is converted to `int`. -/
def totalLen (hdr : Hdr) : Int :=
  i32 (hdrSize + hdr.bodyLength + tailSize)

/-- One iteration of the loop. The header is accessed behind the copied or the contiguous bytes if
there are fewer than it has. -/
def handleStep (state : State β) : Iteration β :=
  if buffer.readable state.buf < hdrSize then .exit state
  else
    let tmphdr := (Hdr.read (buffer.fetch hdrSize state.buf)).swap swap32
    let total := totalLen tmphdr
    if buffer.readable state.buf < total then
      .exit { state with ctx := state.ctx.warn ("ignore total len: " ++ toString total) }
    else
      match buffer.readerFc total state.buf with
      | none =>
        -- discontinuous memory
        let taken := buffer.read total state.buf
        if taken.1.length < hdrSize then .fault .outOfBounds
        else .again ⟨state.ctx.print ((Hdr.read taken.1).swap swap32).line, taken.2⟩
      | some bytes =>
        if bytes.length < hdrSize then .fault .outOfBounds
        else
          let hdr := (Hdr.read bytes).swap swap32
          let buf := buffer.overwrite hdr.write state.buf
          .again ⟨state.ctx.print hdr.line, buffer.readerMove total buf⟩

/-- The loop. The fuel bounds its iterations; the source has no bound. -/
def handleLoop : Nat → State β → Except Fault (State β)
  | 0, _ => .error .diverged
  | fuel + 1, state =>
    match handleStep swap32 buffer state with
    | .exit state => .ok state
    | .again state => handleLoop fuel state
    | .fault fault => .error fault

/-- `handle_tgw`. Data that does not fit the buffer is dropped. -/
def handleTgw (fuel : Nat) (data : List UInt8) (state : State β) : Except Fault (State β) :=
  if i32 data.length ≤ buffer.writable state.buf then
    handleLoop swap32 buffer fuel { state with buf := buffer.write data state.buf }
  else handleLoop swap32 buffer fuel state

/-- `handle_tgw` is called once for each segment. -/
def handleSegments (fuel : Nat) : List (List UInt8) → State β → Except Fault (State β)
  | [], state => .ok state
  | data :: segments, state => do
    let state ← handleTgw swap32 buffer fuel data state
    handleSegments fuel segments state

end Handle

/-- `handle_tgw_immediate` is called once for each segment. -/
def handleSegmentsImmediate (swap32 : ByteSwap 4) (ctx : Context) (segments : List (List UInt8)) :
    Context :=
  segments.foldl (fun ctx data => (handleTgwImmediate swap32 ctx data).1) ctx

end HakunaMatata.Tgw
