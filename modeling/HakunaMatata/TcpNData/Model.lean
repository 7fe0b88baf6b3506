import Mathlib.Logic.Function.Iterate
import HakunaMatata.Base.Gather

/-!
# Five ways to send `n` records over TCP

The client of the example sends `n` records of 320 bytes that are not contiguous in memory:
record by record (`methodWrite`), with gathered writes of at most 1024 records (`methodWritev`), as
one copy (`methodBigWrite`), or as a copy cut into segments of the maximum segment size, sent one
by one (`methodAssembleWrite`) or gathered (`methodAssembleWritev`). `blockWritev` repeats a
gathered write until the socket has accepted everything: after a partial write it skips
the vectors that are done and moves the first of the others.

`muggle_socket_block_write` belongs to the socket library and is taken to send exactly its bytes.
The batch indices are natural numbers: they stay below the number of vectors, which the sizes in
bytes keep inside an `int`; the sizes are converted as in the source.
-/

namespace HakunaMatata.TcpNData

open Base

/-- `sizeof(data_t)`. -/
def sizeofData : Nat := 320

/-- `max_iovcnt`. -/
def maxIovcnt : Nat := 1024

/-- `MUGGLE_EVENT_ERROR`. -/
def eventError : Int := -1

/-- `data_t`. -/
structure Data where
  buf : List UInt8
  length_buf : buf.length = sizeofData

/-- What a sender works on: the socket, and the numbers in the error lines of the log. -/
structure Session where
  socket : Socket
  errors : List Int
  deriving DecidableEq, Repr

namespace Session

variable (session : Session)

/-- Keep the socket of a write, and log its return value if it is not the expected one. -/
def check (expected : Int) (written : Int × Socket) : Session where
  socket := written.2
  errors := if written.1 = expected then session.errors else session.errors ++ [written.1]

end Session

/-- `muggle_socket_block_write`. -/
def blockWrite (socket : Socket) (object : List UInt8) (start : Nat) (nbytes : Int) :
    Except Fault (Int × Socket) := do
  let bytes ← bytesAt object start nbytes.toNat
  pure (nbytes, ⟨socket.sent ++ bytes, socket.calls⟩)

/-- A blocking write and the check of its return value. -/
def sendBytes (object : List UInt8) (start : Nat) (nbytes : Int) (session : Session) :
    Except Fault Session := do
  let written ← blockWrite session.socket object start nbytes
  pure (session.check nbytes written)

/-- `method_write`. -/
def methodWrite (pDatas : List Data) (session : Session) : Except Fault Session :=
  pDatas.foldlM (fun session data => sendBytes data.buf 0 sizeofData session) session

/-! ## Gathered writes -/

/-- The vectors from `iov + offset` on after the socket accepted some bytes of them: the ones that
are done are left out, and the first of the others starts behind the accepted bytes. -/
def skipSent : Int → List Iovec → List Iovec
  | _, [] => []
  | remainSendBytes, v :: iov =>
    if remainSendBytes < i32 v.len then
      ⟨v.object, v.start + remainSendBytes.toNat, (i32 v.len - remainSendBytes).toNat⟩ :: iov
    else skipSent (remainSendBytes - i32 v.len) iov

/-- The loop of `block_writev`. -/
def blockWritevLoop (schedule : Nat → Answer) (totalBytes : Int) :
    Nat → List Iovec → Int → Socket → Except Fault (Int × Socket)
  | 0, _, _, _ => .error .diverged
  | fuel + 1, iov, totalSndBytes, socket => do
    let written ← writev schedule socket iov
    if 0 < written.count then
      let totalSndBytes := i32 (totalSndBytes + written.count)
      if totalSndBytes = totalBytes then pure (totalBytes, written.socket)
      else
        blockWritevLoop schedule totalBytes fuel (skipSent written.count iov) totalSndBytes
          written.socket
    else if written.count = eventError then
      if written.retry then
        blockWritevLoop schedule totalBytes fuel iov totalSndBytes written.socket
      else pure (eventError, written.socket)
    else pure (0, written.socket)

/-- `block_writev`. -/
def blockWritev (schedule : Nat → Answer) (fuel : Nat) (iov : List Iovec) (len : Nat)
    (socket : Socket) : Except Fault (Int × Socket) :=
  blockWritevLoop schedule (i32 len) fuel iov 0 socket

/-- A call of `block_writev` and the check of its return value. -/
def sendVectors (schedule : Nat → Answer) (fuel : Nat) (iov : List Iovec) (len : Nat)
    (session : Session) : Except Fault Session := do
  let written ← blockWritev schedule fuel iov len session.socket
  pure (session.check (i32 len) written)

/-- `iovcnt` vectors from `iov + i * max_iovcnt` on. -/
def batch (iov : List Iovec) (i iovcnt : Nat) : List Iovec :=
  (iov.drop (i * maxIovcnt)).take iovcnt

/-- `method_writev`. -/
def methodWritev (schedule : Nat → Answer) (fuel : Nat) (pDatas : List Data)
    (session : Session) : Except Fault Session := do
  let iov := pDatas.map fun data => (⟨data.buf, 0, sizeofData⟩ : Iovec)
  let nBatch := pDatas.length / maxIovcnt
  let batchRemain := pDatas.length % maxIovcnt
  let session ← (List.range nBatch).foldlM
    (fun session i =>
      sendVectors schedule fuel (batch iov i maxIovcnt) (maxIovcnt * sizeofData) session) session
  if 0 < batchRemain then
    sendVectors schedule fuel (batch iov nBatch batchRemain) (batchRemain * sizeofData) session
  else pure session

/-! ## Assembled records -/

/-- The value of `session_data->total_data_nbytes` in an `int`. -/
def nbytesOf (pDatas : List Data) : Int :=
  i32 (sizeofData * pDatas.length : Nat)

/-- Copy the records from index `i` on to their places in `datas`. -/
def copyDatas : List UInt8 → Nat → List Data → Except Fault (List UInt8)
  | datas, _, [] => .ok datas
  | datas, i, data :: pDatas => do
    let datas ← storeAt datas (sizeofData * i) data.buf
    copyDatas datas (i + 1) pDatas

/-- The contiguous copy of the records, in memory with arbitrary initial contents. -/
def assemble (junk : Nat → UInt8) (pDatas : List Data) : Except Fault (List UInt8) :=
  copyDatas (uninit junk (nbytesOf pDatas).toNat) 0 pDatas

/-- `method_big_write`. -/
def methodBigWrite (junk : Nat → UInt8) (pDatas : List Data) (session : Session) :
    Except Fault Session := do
  let datas ← assemble junk pDatas
  sendBytes datas 0 (nbytesOf pDatas) session

/-- The next segment has `mss` bytes, or all that remain. -/
def curNbytes (mss remain : Int) : Int :=
  if mss < remain then mss else remain

/-- The loop of `method_assemble_write`. -/
def assembleWriteLoop (mss : Int) (datas : List UInt8) :
    Nat → Nat → Int → Session → Except Fault Session
  | 0, _, _, _ => .error .diverged
  | fuel + 1, p, remainBytes, session => do
    let cur := curNbytes mss remainBytes
    let session ← sendBytes datas p cur session
    if 0 < remainBytes - cur then
      assembleWriteLoop mss datas fuel (p + cur.toNat) (remainBytes - cur) session
    else pure session

/-- `method_assemble_write`, with the maximum segment size the socket reports. -/
def methodAssembleWrite (mss : Int) (junk : Nat → UInt8) (fuel : Nat) (pDatas : List Data)
    (session : Session) : Except Fault Session := do
  let datas ← assemble junk pDatas
  assembleWriteLoop mss datas fuel 0 (nbytesOf pDatas) session

/-- The segments that are cut so far, with the address and the number of the bytes behind them. -/
structure Segments where
  iov : List Iovec
  p : Nat
  remain : Int

/-- Cut the next segment. -/
def Segments.cut (mss : Int) (datas : List UInt8) (segments : Segments) : Segments :=
  let cur := curNbytes mss segments.remain
  ⟨segments.iov ++ [⟨datas, segments.p, cur.toNat⟩], segments.p + cur.toNat,
    segments.remain - cur⟩

/-- The number of parts of a size, with a last part for the rest. -/
def partCount (total size : Int) : Int :=
  if 0 < total.tmod size then total.tdiv size + 1 else total.tdiv size

/-- `batch_iov_t`. -/
structure BatchIov where
  iov : List Iovec
  iovcnt : Nat
  nbytes : Int

/-- Entry `i` of `batch_iov`: its vectors are counted up to `max_iovcnt`, or to the last one. -/
def batchIov (iov : List Iovec) (i : Nat) : BatchIov :=
  (batch iov i maxIovcnt).foldl (fun b v => ⟨b.iov, b.iovcnt + 1, i32 (b.nbytes + v.len)⟩)
    ⟨iov.drop (i * maxIovcnt), 0, 0⟩

/-- `method_assemble_writev`, with the maximum segment size the socket reports. -/
def methodAssembleWritev (schedule : Nat → Answer) (mss : Int) (junk : Nat → UInt8) (fuel : Nat)
    (pDatas : List Data) (session : Session) : Except Fault Session := do
  let nbytes := nbytesOf pDatas
  let datas ← assemble junk pDatas
  -- a division by zero stops the program
  if mss = 0 then throw .assertion
  let nIov := (partCount nbytes mss).toNat
  let segments := (Segments.cut mss datas)^[nIov] ⟨[], 0, nbytes⟩
  let errors :=
    if segments.remain = 0 then session.errors else session.errors ++ [segments.remain]
  let nBatch := (partCount nIov maxIovcnt).toNat
  (List.range nBatch).foldlM
    (fun session i =>
      let b := batchIov segments.iov i
      sendVectors schedule fuel (b.iov.take b.iovcnt) b.nbytes.toNat session)
    ⟨session.socket, errors⟩

end HakunaMatata.TcpNData
