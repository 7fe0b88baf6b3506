import Mathlib.Data.List.Basic

/-!
# Buffered reading from an `io.Reader`

`IoReader` is a reader that delivers a stream of bytes in pieces of any size and then fails, with
the promises of the `io.Reader` contract as fields: it may return nothing now and then, and it may
report the failure together with the last bytes or later. `Reader` is a `bufio.Reader` over it,
which keeps the bytes that it has read ahead and an error that it has not reported yet. Read
`Serves` first: it says which bytes a buffered reader still has to deliver. `peek_spec` and
`read_spec` say what its operations do with them.
-/

namespace HakunaMatata.Base.Bufio

/-- An error value of a Go program. -/
inductive GoError where
  | eof
  | noProgress
  | bufferFull
  | text (message : String)
  deriving DecidableEq, Repr

/-- What a read returns, and the reader after it. -/
structure ReadResult (σ : Type*) where
  bytes : List UInt8
  err : Option GoError
  next : σ

/-- `maxConsecutiveEmptyReads`. -/
def maxEmptyReads : Nat := 100

/-- An `io.Reader` with states of type `σ`. It delivers the bytes `remaining` and then fails with
`failure`. A read that has room and returns neither bytes nor an error makes it less `idle`.
`closing` records how many bytes came together with the failure, if any did. -/
structure IoReader (σ : Type*) where
  read : σ → Nat → ReadResult σ
  remaining : σ → List UInt8
  idle : σ → Nat
  closing : σ → Option Nat
  failure : GoError
  length_le : ∀ s room, (read s room).bytes.length ≤ room
  delivers : ∀ s room, remaining s = (read s room).bytes ++ remaining (read s room).next
  fails : ∀ s room e, (read s room).err = some e →
    e = failure ∧ remaining (read s room).next = []
  idles : ∀ s room, 0 < room → (read s room).bytes = [] → (read s room).err = none →
    idle (read s room).next < idle s
  idle_lt : ∀ s, idle s < maxEmptyReads
  closes : ∀ s room, closing (read s room).next =
    if (read s room).err.isSome ∧ (read s room).bytes ≠ [] then some (read s room).bytes.length
    else closing s

/-- A reader over a list of bytes that returns at most `chunk + 1` of them at a time. An eager one
reports the end together with the last bytes, any other one when it is called again. The second
part of the state is the record of the bytes that came with the end. -/
def listReader (chunk : Nat) (eager : Bool) : IoReader (List UInt8 × Option Nat) where
  read s room :=
    let bytes := s.1.take (min room (chunk + 1))
    let rest := s.1.drop (min room (chunk + 1))
    let ends := if eager then rest = [] else s.1 = []
    ⟨bytes, if ends then some .eof else none,
      (rest, if ends ∧ bytes ≠ [] then some bytes.length else s.2)⟩
  remaining s := s.1
  idle _ := 0
  closing s := s.2
  failure := .eof
  length_le s room := by
    simp only [List.length_take]
    omega
  delivers s room := (List.take_append_drop _ _).symm
  fails s room e he := by
    cases eager <;> simp_all
  idles s room hpos hnil hnone := by
    have hs : s.1 = [] := by
      rcases List.take_eq_nil_iff.mp hnil with hzero | hs
      · omega
      · exact hs
    cases eager <;> simp [hs] at hnone
  idle_lt _ := Nat.succ_pos 99
  closes s room := by
    cases eager <;> simp

/-- A reader over a list of bytes that returns at most `chunk + 1` of them at a time, and never
together with the end. -/
def supplyReader (chunk : Nat) : IoReader (List UInt8) where
  read s room :=
    ⟨s.take (min room (chunk + 1)), if s = [] then some .eof else none,
      s.drop (min room (chunk + 1))⟩
  remaining s := s
  idle _ := 0
  closing _ := none
  failure := .eof
  length_le s room := by
    simp only [List.length_take]
    omega
  delivers s room := (List.take_append_drop _ _).symm
  fails s room e he := by simp_all
  idles s room hpos hnil hnone := by
    rcases List.take_eq_nil_iff.mp hnil with hzero | hs
    · omega
    · simp [hs] at hnone
  idle_lt _ := Nat.succ_pos 99
  closes s room := by
    by_cases hs : s = []
    · simp [hs]
    · simp [hs]

/-- A `bufio.Reader`: the bytes that were read ahead, the error that was not reported yet, and the
reader underneath. -/
structure Reader (σ : Type*) where
  buf : List UInt8
  err : Option GoError
  rd : σ

section Operations

variable {σ : Type*} (r : IoReader σ) (size : Nat)

/-- The loop of `fill`: read until there is something new or an error, but not for ever. -/
def fillLoop : Nat → Reader σ → Reader σ
  | 0, b => { b with err := some .noProgress }
  | count + 1, b =>
    let result := r.read b.rd (size - b.buf.length)
    let b := { b with buf := b.buf ++ result.bytes, rd := result.next }
    if result.err.isSome then { b with err := result.err }
    else if result.bytes ≠ [] then b
    else fillLoop count b

/-- `fill`. -/
def fill (b : Reader σ) : Reader σ :=
  fillLoop r size maxEmptyReads b

/-- The loop of `Peek`. Each iteration adds a byte or ends the loop, so that `n` of them are
enough. -/
def fillUntil (n : Nat) : Nat → Reader σ → Reader σ
  | 0, b => b
  | fuel + 1, b =>
    if b.buf.length < n ∧ b.buf.length < size ∧ b.err.isNone then
      fillUntil n fuel (fill r size b)
    else b

/-- `Peek`: the next `n` bytes, which stay in the buffer. -/
def peek (n : Nat) (b : Reader σ) : ReadResult (Reader σ) :=
  let b := fillUntil r size n n b
  if size < n then ⟨b.buf, some .bufferFull, b⟩
  else if b.buf.length < n then ⟨b.buf, b.err.or (some .bufferFull), { b with err := none }⟩
  else ⟨b.buf.take n, none, b⟩

/-- `Discard`, for bytes that are in the buffer. -/
def discard (n : Nat) (b : Reader σ) : Reader σ :=
  { b with buf := b.buf.drop n }

/-- `Read` into a slice of length `room`, with at most one read of the reader underneath. An empty
slice and an empty buffer report the stored error; a large slice is filled without the buffer. -/
def read (room : Nat) (b : Reader σ) : ReadResult (Reader σ) :=
  if room = 0 then
    if b.buf ≠ [] then ⟨[], none, b⟩ else ⟨[], b.err, { b with err := none }⟩
  else if b.buf ≠ [] then ⟨b.buf.take room, none, { b with buf := b.buf.drop room }⟩
  else if b.err.isSome then ⟨[], b.err, { b with err := none }⟩
  else if size ≤ room then
    let result := r.read b.rd room
    ⟨result.bytes, result.err, { b with rd := result.next }⟩
  else
    let result := r.read b.rd size
    if result.bytes = [] then ⟨[], result.err, { b with rd := result.next }⟩
    else ⟨result.bytes.take room, none, ⟨result.bytes.drop room, result.err, result.next⟩⟩

end Operations

variable {σ : Type*} {r : IoReader σ} {size : Nat} {b : Reader σ} {stream : List UInt8}

/-- The buffered reader still has to deliver `stream`: the buffer, and then what the reader
underneath holds. A stored error is the failure of that reader at its end, and it came together
with bytes. -/
structure Serves (r : IoReader σ) (size : Nat) (b : Reader σ) (stream : List UInt8) : Prop where
  content : b.buf ++ r.remaining b.rd = stream
  fits : b.buf.length ≤ size
  ended : ∀ e, b.err = some e → e = r.failure ∧ r.remaining b.rd = []
  closed : b.err.isSome ↔ (r.closing b.rd).isSome

/-- A buffered reader without a stored error, over a reader that did not fail yet. -/
theorem serves_start (r : IoReader σ) (size : Nat) {s : σ} (hclosing : r.closing s = none) :
    Serves r size ⟨[], none, s⟩ (r.remaining s) where
  content := rfl
  fits := Nat.zero_le _
  ended := by
    intro e he
    cases he
  closed := by simp [hclosing]

theorem Serves.length_eq (h : Serves r size b stream) :
    stream.length = b.buf.length + (r.remaining b.rd).length := by
  rw [← h.content, List.length_append]

/-- A read of a reader that still holds bytes reports an error only together with all of them. -/
theorem all_of_error {s : σ} {room : Nat} {e : GoError} (h : (r.read s room).err = some e) :
    (r.read s room).bytes = r.remaining s := by
  have hdelivers := r.delivers s room
  rw [(r.fails s room e h).2, List.append_nil] at hdelivers
  exact hdelivers.symm

/-- A read of a reader that still holds bytes, behind a buffer without a stored error: what comes
is appended to the buffer and the error is stored. -/
theorem Serves.filled (h : Serves r size b stream) (herr : b.err = none)
    (hroom : b.buf.length ≤ size) (hmore : r.remaining b.rd ≠ []) :
    Serves r size ⟨b.buf ++ (r.read b.rd (size - b.buf.length)).bytes,
      (r.read b.rd (size - b.buf.length)).err, (r.read b.rd (size - b.buf.length)).next⟩
        stream := by
  have hlength := r.length_le b.rd (size - b.buf.length)
  have hcloses := r.closes b.rd (size - b.buf.length)
  refine ⟨?_, ?_, fun e he => r.fails _ _ e he, ?_⟩
  · rw [List.append_assoc, ← r.delivers, h.content]
  · rw [List.length_append]
    omega
  · cases hresult : (r.read b.rd (size - b.buf.length)).err with
    | none =>
      rw [hresult] at hcloses
      have hclosed := h.closed
      rw [herr] at hclosed
      simpa [hcloses] using hclosed
    | some e =>
      have hall := all_of_error hresult
      rw [hresult, hall] at hcloses
      simp [hcloses, hmore]

/-- An iteration of `fill`, when no error is stored: the loop goes on only if the read returned
nothing at all. -/
theorem fillLoop_succ (herr : b.err = none) (count : Nat) :
    fillLoop r size (count + 1) b =
      if (r.read b.rd (size - b.buf.length)).err.isSome ∨
          (r.read b.rd (size - b.buf.length)).bytes ≠ [] then
        ⟨b.buf ++ (r.read b.rd (size - b.buf.length)).bytes,
          (r.read b.rd (size - b.buf.length)).err, (r.read b.rd (size - b.buf.length)).next⟩
      else fillLoop r size count
        ⟨b.buf ++ (r.read b.rd (size - b.buf.length)).bytes, none,
          (r.read b.rd (size - b.buf.length)).next⟩ := by
  rw [fillLoop]
  cases hresult : (r.read b.rd (size - b.buf.length)).err with
  | none => simp [herr]
  | some e => simp

/-- Filling the buffer from a reader that still holds bytes brings at least one. If the failure
comes with them, they are all that was left. -/
theorem fillLoop_spec (h : Serves r size b stream) (herr : b.err = none)
    (hroom : b.buf.length < size) (hmore : r.remaining b.rd ≠ []) {count : Nat}
    (hcount : r.idle b.rd < count) :
    Serves r size (fillLoop r size count b) stream ∧
      b.buf.length < (fillLoop r size count b).buf.length ∧
      (r.closing (fillLoop r size count b).rd = r.closing b.rd ∨
        r.closing (fillLoop r size count b).rd = some (stream.length - b.buf.length)) := by
  induction count generalizing b with
  | zero => omega
  | succ count ih =>
    have hfilled := h.filled herr (Nat.le_of_lt hroom) hmore
    have hcloses := r.closes b.rd (size - b.buf.length)
    have hdelivers := r.delivers b.rd (size - b.buf.length)
    rw [fillLoop_succ herr]
    by_cases hbytes : (r.read b.rd (size - b.buf.length)).bytes = []
    · have hnone : (r.read b.rd (size - b.buf.length)).err = none := by
        -- an error would have come with all the remaining bytes
        by_contra hsome
        obtain ⟨e, he⟩ := Option.ne_none_iff_exists'.mp hsome
        exact hmore (all_of_error he ▸ hbytes)
      have hidle := r.idles _ _ (by omega) hbytes hnone
      rw [hnone, hbytes, List.append_nil] at hfilled
      rw [hbytes, List.nil_append] at hdelivers
      rw [hnone, hbytes, List.append_nil]
      rw [hnone, if_neg (by simp)] at hcloses
      simp only [Option.isSome_none, Bool.false_eq_true, ne_eq, not_true_eq_false, or_self,
        if_false]
      have hrest := ih hfilled rfl hroom (by rw [← hdelivers]; exact hmore) (by
        show r.idle (r.read b.rd (size - b.buf.length)).next < count
        omega)
      rwa [hcloses] at hrest
    · rw [if_pos (Or.inr hbytes)]
      have hpos := List.length_pos_of_ne_nil hbytes
      refine ⟨hfilled, by simpa using hpos, ?_⟩
      show r.closing (r.read b.rd (size - b.buf.length)).next = _ ∨
        r.closing (r.read b.rd (size - b.buf.length)).next = _
      cases hresult : (r.read b.rd (size - b.buf.length)).err with
      | none => exact Or.inl (by rw [hcloses, hresult, if_neg (by simp)])
      | some e =>
        right
        rw [hcloses, hresult, if_pos ⟨rfl, hbytes⟩, all_of_error hresult, h.length_eq,
          Nat.add_sub_cancel_left]

theorem fillLoop_end (herr : b.err = none) (hroom : b.buf.length < size)
    (hend : r.remaining b.rd = []) {count : Nat} (hcount : r.idle b.rd < count) :
    ∃ s, fillLoop r size count b = ⟨b.buf, some r.failure, s⟩ ∧ r.closing s = r.closing b.rd := by
  induction count generalizing b with
  | zero => omega
  | succ count ih =>
    have hdelivers := r.delivers b.rd (size - b.buf.length)
    have hcloses := r.closes b.rd (size - b.buf.length)
    rw [hend] at hdelivers
    obtain ⟨hbytes, hnext⟩ := List.append_eq_nil_iff.mp hdelivers.symm
    rw [if_neg (by simp [hbytes])] at hcloses
    rw [fillLoop_succ herr, hbytes, List.append_nil]
    cases hresult : (r.read b.rd (size - b.buf.length)).err with
    | some e =>
      obtain ⟨rfl, _⟩ := r.fails _ _ _ hresult
      exact ⟨_, by simp, hcloses⟩
    | none =>
      have hidle := r.idles _ _ (by omega) hbytes hresult
      simp only [Option.isSome_none, Bool.false_eq_true, ne_eq, not_true_eq_false, or_self,
        if_false]
      obtain ⟨s, hs, hclosing⟩ := ih (b := ⟨b.buf, none, _⟩) rfl hroom hnext (by
        show r.idle (r.read b.rd (size - b.buf.length)).next < count
        omega)
      exact ⟨s, hs, hclosing.trans hcloses⟩

/-- An empty buffer with a stored error has nothing left to deliver. -/
theorem Serves.length_of_err (h : Serves r size b stream) (herr : b.err.isNone = false) :
    stream.length = b.buf.length := by
  cases he : b.err with
  | none => simp [he] at herr
  | some e => rw [h.length_eq, (h.ended e he).2, List.length_nil, Nat.add_zero]

/-- The loop of `Peek` ends with `n` bytes in the buffer, if the stream has them. If the failure
came on the way, the bytes that came with it reach back before the `n`-th. -/
theorem fillUntil_spec {n : Nat} (h : Serves r size b stream) (hsize : n ≤ size)
    (hn : n ≤ stream.length) {fuel : Nat} (hfuel : n ≤ b.buf.length + fuel) :
    Serves r size (fillUntil r size n fuel b) stream ∧
      n ≤ (fillUntil r size n fuel b).buf.length ∧
      (r.closing (fillUntil r size n fuel b).rd = r.closing b.rd ∨
        ∃ count, r.closing (fillUntil r size n fuel b).rd = some count ∧
          stream.length < n + count) := by
  induction fuel generalizing b with
  | zero => exact ⟨h, hfuel, Or.inl rfl⟩
  | succ fuel ih =>
    have hlength := h.length_eq
    rw [fillUntil]
    by_cases hshort : b.buf.length < n ∧ b.buf.length < size ∧ b.err.isNone
    · obtain ⟨hlt, hroom, hnone⟩ := hshort
      have hmore : r.remaining b.rd ≠ [] := by
        intro hnil
        rw [hnil, List.length_nil] at hlength
        omega
      obtain ⟨hserves, hgrows, hclosing⟩ :=
        fillLoop_spec h (Option.isNone_iff_eq_none.mp hnone) hroom hmore (r.idle_lt b.rd)
      rw [if_pos ⟨hlt, hroom, hnone⟩]
      obtain ⟨hserves', hle, hclosing'⟩ := ih (b := fill r size b) hserves (by
        show n ≤ (fillLoop r size maxEmptyReads b).buf.length + fuel
        omega)
      refine ⟨hserves', hle, ?_⟩
      rcases hclosing' with hkept | hlater
      · rcases hclosing with hsame | hall
        · exact Or.inl (hkept.trans hsame)
        · exact Or.inr ⟨_, hkept.trans hall, by omega⟩
      · exact Or.inr hlater
    · rw [if_neg hshort]
      refine ⟨h, ?_, Or.inl rfl⟩
      by_contra hlt
      have herr : b.err.isNone = false := by
        rw [← Bool.not_eq_true]
        intro hnone
        exact hshort ⟨by omega, by omega, hnone⟩
      have hend := h.length_of_err herr
      omega

/-- `Peek` returns the next `n` bytes, if the stream has them. -/
theorem peek_spec {n : Nat} (h : Serves r size b stream) (hsize : n ≤ size)
    (hn : n ≤ stream.length) :
    ∃ b', peek r size n b = ⟨stream.take n, none, b'⟩ ∧ Serves r size b' stream ∧
      n ≤ b'.buf.length ∧
      (r.closing b'.rd = r.closing b.rd ∨
        ∃ count, r.closing b'.rd = some count ∧ stream.length < n + count) := by
  obtain ⟨hserves, hle, hclosing⟩ := fillUntil_spec h hsize hn (Nat.le_add_left n _)
  refine ⟨fillUntil r size n n b, ?_, hserves, hle, hclosing⟩
  unfold peek
  rw [if_neg (Nat.not_lt.mpr hsize), if_neg (Nat.not_lt.mpr hle), ← hserves.content,
    List.take_append_of_le_length hle]

/-- `Peek` reports the failure at the end of the stream. -/
theorem peek_end {n : Nat} (h : Serves r size b []) (hsize : n ≤ size) (hn : 0 < n) :
    ∃ b', peek r size n b = ⟨[], some r.failure, b'⟩ ∧ r.closing b'.rd = r.closing b.rd := by
  obtain ⟨hbuf, hend⟩ := List.append_eq_nil_iff.mp h.content
  obtain ⟨m, rfl⟩ : ∃ m, n = m + 1 := ⟨n - 1, by omega⟩
  have hstored : ∃ s, fillUntil r size (m + 1) (m + 1) b = ⟨[], some r.failure, s⟩ ∧
      r.closing s = r.closing b.rd := by
    have hroom : b.buf.length < size := by rw [hbuf, List.length_nil]; omega
    have hlt : b.buf.length < m + 1 := by rw [hbuf, List.length_nil]; omega
    rw [fillUntil]
    cases herr : b.err with
    | some e =>
      obtain ⟨rfl, _⟩ := h.ended e herr
      refine ⟨b.rd, ?_, rfl⟩
      rw [if_neg (by simp), ← hbuf, ← herr]
    | none =>
      obtain ⟨s, hs, hclosing⟩ := fillLoop_end herr hroom hend (r.idle_lt b.rd)
      rw [hbuf] at hs
      refine ⟨s, ?_, hclosing⟩
      rw [if_pos ⟨hlt, hroom, rfl⟩]
      show fillUntil r size (m + 1) m (fillLoop r size maxEmptyReads b) = _
      rw [hs]
      cases m with
      | zero => rfl
      | succ m => rw [fillUntil, if_neg (by simp)]
  obtain ⟨s, hs, hclosing⟩ := hstored
  refine ⟨⟨[], none, s⟩, ?_, hclosing⟩
  unfold peek
  rw [hs, if_neg (Nat.not_lt.mpr hsize)]
  exact if_pos hn

theorem Serves.discard (h : Serves r size b stream) (n : Nat) :
    Serves r size (discard n b) (b.buf.drop n ++ r.remaining b.rd) where
  content := rfl
  fits := Nat.le_trans (by simp [Bufio.discard]) h.fits
  ended := h.ended
  closed := h.closed

theorem Serves.eq_take_append (h : Serves r size b stream) (n : Nat) :
    stream = b.buf.take n ++ (b.buf.drop n ++ r.remaining b.rd) := by
  rw [← List.append_assoc, List.take_append_drop, h.content]

/-- `Read` into an empty slice reports the stored error exactly if the stream is at its end. -/
theorem read_zero (h : Serves r size b stream) :
    (read r size 0 b = ⟨[], none, b⟩ ∧ (stream = [] → r.closing b.rd = none)) ∨
    (∃ b', read r size 0 b = ⟨[], some r.failure, b'⟩ ∧ stream = [] ∧
      b'.rd = b.rd ∧ (r.closing b.rd).isSome) := by
  unfold read
  rw [if_pos rfl]
  by_cases hbuf : b.buf = []
  · rw [if_neg (by simp [hbuf])]
    cases herr : b.err with
    | none =>
      left
      have hclosed := h.closed
      rw [herr] at hclosed
      exact ⟨by rw [← herr], fun _ => by simpa using hclosed⟩
    | some e =>
      obtain ⟨rfl, hend⟩ := h.ended e herr
      have hclosed := h.closed
      rw [herr] at hclosed
      refine Or.inr ⟨_, rfl, ?_, rfl, hclosed.mp rfl⟩
      rw [← h.content, hbuf, hend, List.nil_append]
  · rw [if_pos hbuf]
    refine Or.inl ⟨rfl, fun hnil => ?_⟩
    rw [← h.content] at hnil
    exact absurd (List.append_eq_nil_iff.mp hnil).1 hbuf

/-- A read past an empty buffer that returns nothing leaves the stream as it is. -/
theorem Serves.read_on (h : Serves r size b stream) (hbuf : b.buf = []) (herr : b.err = none)
    {room : Nat} (hnone : (r.read b.rd room).err = none) :
    Serves r size { b with rd := (r.read b.rd room).next }
        (r.remaining (r.read b.rd room).next) ∧
      stream = (r.read b.rd room).bytes ++ r.remaining (r.read b.rd room).next ∧
      r.closing (r.read b.rd room).next = r.closing b.rd := by
  have hcloses : r.closing (r.read b.rd room).next = r.closing b.rd := by
    rw [r.closes, hnone, if_neg (by simp)]
  refine ⟨⟨by simp [hbuf], h.fits, ?_, ?_⟩, ?_, hcloses⟩
  · intro e he
    simp [herr] at he
  · show b.err.isSome ↔ (r.closing (r.read b.rd room).next).isSome
    rw [hcloses]
    exact h.closed
  · rw [← h.content, hbuf, List.nil_append, ← r.delivers]

/-- `Read` returns a part of the stream. The failure can only have come with the rest of the stream,
into the buffer. -/
def ReadsPart (r : IoReader σ) (size : Nat) (b : Reader σ) (stream : List UInt8) (room : Nat) :
    Prop :=
  ∃ bytes rest b', read r size room b = ⟨bytes, none, b'⟩ ∧ bytes.length ≤ room ∧
    stream = bytes ++ rest ∧ Serves r size b' rest ∧
    (bytes = [] → r.idle b'.rd < r.idle b.rd) ∧
    (r.closing b'.rd = r.closing b.rd ∨ r.closing b'.rd = some stream.length ∧ room < size)

/-- `Read` returns the failure together with the rest of the stream, because the slice was larger
than the buffer. -/
def ReadsAll (r : IoReader σ) (size : Nat) (b : Reader σ) (stream : List UInt8) (room : Nat) :
    Prop :=
  ∃ b', read r size room b = ⟨stream, some r.failure, b'⟩ ∧ room = stream.length ∧
    size ≤ room ∧ r.closing b'.rd = some room

section Read

variable {room : Nat}

theorem take_ne_nil {bytes : List UInt8} (hpos : 0 < room) (h : bytes ≠ []) :
    bytes.take room ≠ [] := by
  intro hnil
  rcases List.take_eq_nil_iff.mp hnil with hzero | hnil
  · omega
  · exact h hnil

theorem read_of_buf (h : Serves r size b stream) (hpos : 0 < room) (hbuf : b.buf ≠ []) :
    ReadsPart r size b stream room := by
  have hread : read r size room b = ⟨b.buf.take room, none, discard room b⟩ := by
    unfold read
    rw [if_neg (Nat.pos_iff_ne_zero.mp hpos), if_pos hbuf]
    rfl
  exact ⟨_, _, _, hread, List.length_take_le _ _, h.eq_take_append room, h.discard room,
    fun hnil => absurd hnil (take_ne_nil hpos hbuf), Or.inl rfl⟩

/-- `Read` into a slice that is filled without the buffer. -/
theorem read_unbuffered (h : Serves r size b stream) (hpos : 0 < room)
    (hroom : room ≤ stream.length) (hbuf : b.buf = []) (herr : b.err = none)
    (hlarge : size ≤ room) :
    ReadsPart r size b stream room ∨ ReadsAll r size b stream room := by
  have hread : read r size room b = ⟨(r.read b.rd room).bytes, (r.read b.rd room).err,
      { b with rd := (r.read b.rd room).next }⟩ := by
    unfold read
    rw [if_neg (Nat.pos_iff_ne_zero.mp hpos), if_neg (by simp [hbuf]), if_neg (by simp [herr]),
      if_pos hlarge]
  have hstream : r.remaining b.rd = stream := by rw [← h.content, hbuf, List.nil_append]
  cases hresult : (r.read b.rd room).err with
  | none =>
    obtain ⟨hserves, hsplit, hcloses⟩ := h.read_on hbuf herr hresult
    rw [hresult] at hread
    exact Or.inl ⟨_, _, _, hread, r.length_le b.rd room, hsplit, hserves,
      fun hnil => r.idles _ _ hpos hnil hresult, Or.inl hcloses⟩
  | some e =>
    obtain ⟨rfl, _⟩ := r.fails _ _ _ hresult
    have hall : (r.read b.rd room).bytes = stream := (all_of_error hresult).trans hstream
    have hle := r.length_le b.rd room
    have hcloses := r.closes b.rd room
    have hne : stream ≠ [] := List.ne_nil_of_length_pos (Nat.lt_of_lt_of_le hpos hroom)
    rw [hall] at hle
    have hlength : room = stream.length := Nat.le_antisymm hroom hle
    rw [hresult, hall, if_pos ⟨rfl, hne⟩, ← hlength] at hcloses
    rw [hresult, hall] at hread
    exact Or.inr ⟨_, hread, hlength, hlarge, hcloses⟩

/-- `Read` after the buffer was filled again, with one read of the reader underneath. -/
theorem read_refilled (h : Serves r size b stream) (hpos : 0 < room)
    (hmore : r.remaining b.rd ≠ []) (hbuf : b.buf = []) (herr : b.err = none)
    (hsmall : room < size) : ReadsPart r size b stream room := by
  have hread : read r size room b =
      if (r.read b.rd size).bytes = [] then
        ⟨[], (r.read b.rd size).err, { b with rd := (r.read b.rd size).next }⟩
      else ⟨(r.read b.rd size).bytes.take room, none, ⟨(r.read b.rd size).bytes.drop room,
        (r.read b.rd size).err, (r.read b.rd size).next⟩⟩ := by
    unfold read
    rw [if_neg (Nat.pos_iff_ne_zero.mp hpos), if_neg (by simp [hbuf]), if_neg (by simp [herr]),
      if_neg (Nat.not_le.mpr hsmall)]
  by_cases hbytes : (r.read b.rd size).bytes = []
  · have hresult : (r.read b.rd size).err = none := by
      by_contra hsome
      obtain ⟨e, he⟩ := Option.ne_none_iff_exists'.mp hsome
      exact hmore (all_of_error he ▸ hbytes)
    obtain ⟨hserves, hsplit, hcloses⟩ := h.read_on hbuf herr hresult
    rw [if_pos hbytes, hresult] at hread
    rw [hbytes] at hsplit
    exact ⟨[], _, _, hread, Nat.zero_le _, hsplit, hserves,
      fun _ => r.idles _ _ (by omega) hbytes hresult, Or.inl hcloses⟩
  · have hfilled := h.filled herr h.fits hmore
    rw [hbuf] at hfilled
    simp only [List.length_nil, Nat.sub_zero, List.nil_append] at hfilled
    rw [if_neg hbytes] at hread
    refine ⟨_, _, _, hread, List.length_take_le _ _, hfilled.eq_take_append room,
      hfilled.discard room, fun hnil => absurd hnil (take_ne_nil hpos hbytes), ?_⟩
    show r.closing (r.read b.rd size).next = _ ∨ r.closing (r.read b.rd size).next = _ ∧ _
    rw [r.closes]
    cases hresult : (r.read b.rd size).err with
    | none => exact Or.inl (if_neg (by simp))
    | some e =>
      have hall : (r.read b.rd size).bytes = stream := by
        rw [all_of_error hresult, ← h.content, hbuf, List.nil_append]
      rw [hall] at hbytes ⊢
      exact Or.inr ⟨if_pos ⟨rfl, hbytes⟩, hsmall⟩

/-- `Read` into a slice for which the stream has enough bytes. -/
theorem read_spec (h : Serves r size b stream) (hpos : 0 < room) (hroom : room ≤ stream.length) :
    ReadsPart r size b stream room ∨ ReadsAll r size b stream room := by
  by_cases hbuf : b.buf = []
  · have hmore : r.remaining b.rd ≠ [] := by
      intro hnil
      rw [h.length_eq, hbuf, hnil, List.length_nil] at hroom
      omega
    have herr : b.err = none := by
      by_contra hsome
      obtain ⟨e, he⟩ := Option.ne_none_iff_exists'.mp hsome
      exact hmore (h.ended e he).2
    by_cases hlarge : size ≤ room
    · exact read_unbuffered h hpos hroom hbuf herr hlarge
    · exact Or.inl (read_refilled h hpos hmore hbuf herr (Nat.lt_of_not_le hlarge))
  · exact Or.inl (read_of_buf h hpos hbuf)

end Read

/-! ## Reading on after the failure

A program may drop a failure that was reported to it and read on. `Holds` is what is left of
`Serves` then: it does not say whether the failure was reported. -/

/-- The bytes that a buffered reader still has. A stored error is the failure of the reader
underneath at its end. -/
structure Holds (r : IoReader σ) (b : Reader σ) (stream : List UInt8) : Prop where
  content : b.buf ++ r.remaining b.rd = stream
  ended : ∀ e, b.err = some e → e = r.failure ∧ r.remaining b.rd = []

theorem Serves.holds (h : Serves r size b stream) : Holds r b stream :=
  ⟨h.content, h.ended⟩

theorem Holds.fillLoop (h : Holds r b stream) (herr : b.err = none) (hroom : b.buf.length < size)
    {count : Nat} (hcount : r.idle b.rd < count) : Holds r (fillLoop r size count b) stream := by
  induction count generalizing b with
  | zero => omega
  | succ count ih =>
    have hcontent : (b.buf ++ (r.read b.rd (size - b.buf.length)).bytes) ++
        r.remaining (r.read b.rd (size - b.buf.length)).next = stream := by
      rw [List.append_assoc, ← r.delivers, h.content]
    rw [fillLoop_succ herr]
    split_ifs with hends
    · exact ⟨hcontent, fun e he => r.fails _ _ e he⟩
    · obtain ⟨hnone, hnil⟩ := not_or.1 hends
      rw [Option.not_isSome_iff_eq_none] at hnone
      rw [ne_eq, not_not] at hnil
      have hidle := r.idles b.rd _ (by omega) hnil hnone
      rw [hnil, List.append_nil] at hcontent
      rw [hnil, List.append_nil]
      refine ih ⟨hcontent, fun e he => by cases he⟩ rfl hroom ?_
      show r.idle (r.read b.rd (size - b.buf.length)).next < count
      omega

theorem Holds.fillUntil (h : Holds r b stream) (n fuel : Nat) :
    Holds r (fillUntil r size n fuel b) stream := by
  induction fuel generalizing b with
  | zero => exact h
  | succ fuel ih =>
    rw [Bufio.fillUntil]
    split_ifs with hshort
    · exact ih (h.fillLoop (Option.isNone_iff_eq_none.1 hshort.2.2) hshort.2.1 (r.idle_lt b.rd))
    · exact h

/-- `Peek` returns the next bytes, which stay, or an error. -/
theorem Holds.peek {n : Nat} (h : Holds r b stream) (hsize : n ≤ size) :
    (∃ bytes e b', peek r size n b = ⟨bytes, some e, b'⟩) ∨
    (n ≤ stream.length ∧ ∃ b', peek r size n b = ⟨stream.take n, none, b'⟩ ∧ Holds r b' stream ∧
      n ≤ b'.buf.length) := by
  have hfilled : Holds r (Bufio.fillUntil r size n n b) stream := h.fillUntil n n
  unfold Bufio.peek
  simp only [if_neg (Nat.not_lt.2 hsize)]
  split_ifs with hshort
  · left
    cases herr : (Bufio.fillUntil r size n n b).err with
    | none => exact ⟨_, .bufferFull, _, rfl⟩
    | some e => exact ⟨_, e, _, rfl⟩
  · right
    have hle := Nat.not_lt.1 hshort
    refine ⟨?_, _, ?_, hfilled, hle⟩
    · rw [← hfilled.content, List.length_append]
      omega
    · rw [← hfilled.content, List.take_append_of_le_length hle]

theorem Holds.discard {n : Nat} (h : Holds r b stream) (hn : n ≤ b.buf.length) :
    Holds r (discard n b) (stream.drop n) where
  content := by
    rw [← h.content, List.drop_append_of_le_length hn]
    rfl
  ended := h.ended

/-- What `Read` returned into a slice of length `room`: some of the bytes, and perhaps the failure
at the end of them. If the slice is not empty, it returned a byte or the failure, or it made the
reader underneath less idle. -/
structure Returns (r : IoReader σ) (b : Reader σ) (stream : List UInt8) (room : Nat)
    (result : ReadResult (Reader σ)) (rest : List UInt8) : Prop where
  length_le : result.bytes.length ≤ room
  split : stream = result.bytes ++ rest
  holds : Holds r result.next rest
  failure : ∀ e, result.err = some e → e = r.failure ∧ rest = []
  idle : 0 < room → result.bytes = [] → result.err = none → r.idle result.next.rd < r.idle b.rd

/-- `Read` reports the stored error, if there is one, and forgets it. -/
theorem Holds.returns_err (h : Holds r b stream) (hbuf : b.buf = []) {room : Nat}
    (herr : room = 0 ∨ b.err.isSome) :
    Returns r b stream room ⟨[], b.err, { b with err := none }⟩ stream where
  length_le := Nat.zero_le room
  split := rfl
  holds := ⟨h.content, nofun⟩
  failure e he := by
    obtain ⟨hfailure, hend⟩ := h.ended e he
    refine ⟨hfailure, ?_⟩
    rw [← h.content, hbuf, hend]
    rfl
  idle hpos _ hnone := by
    rcases herr with hzero | hsome
    · omega
    · rw [show b.err = none from hnone] at hsome
      cases hsome

/-- A read of the reader underneath, when the buffer is empty and no error is stored. -/
theorem Holds.returns_rd (h : Holds r b stream) (hbuf : b.buf = []) (herr : b.err = none)
    {room limit : Nat} (hlimit : 0 < limit) (hle : (r.read b.rd limit).bytes.length ≤ room) :
    Returns r b stream room
      ⟨(r.read b.rd limit).bytes, (r.read b.rd limit).err,
        { b with rd := (r.read b.rd limit).next }⟩
      (r.remaining (r.read b.rd limit).next) where
  length_le := hle
  split := by rw [← r.delivers, ← h.content, hbuf, List.nil_append]
  holds := ⟨by rw [hbuf, List.nil_append], fun e he => by rw [herr] at he; cases he⟩
  failure e he := r.fails _ _ e he
  idle _ := r.idles b.rd limit hlimit

theorem Holds.returns_buf (h : Holds r b stream) (hbuf : b.buf ≠ []) (room : Nat)
    (b' : Reader σ) :
    Returns r b' stream room ⟨b.buf.take room, none, { b with buf := b.buf.drop room }⟩
      (b.buf.drop room ++ r.remaining b.rd) where
  length_le := List.length_take_le _ _
  split := by rw [← List.append_assoc, List.take_append_drop, h.content]
  holds := ⟨rfl, h.ended⟩
  failure := nofun
  idle hpos htake := absurd htake (take_ne_nil hpos hbuf)

theorem Holds.read (h : Holds r b stream) (hsize : 0 < size) (room : Nat) :
    ∃ rest, Returns r b stream room (read r size room b) rest := by
  unfold Bufio.read
  by_cases hbuf : b.buf = []
  · rw [if_neg (not_not.2 hbuf), if_neg (not_not.2 hbuf)]
    by_cases hzero : room = 0
    · rw [if_pos hzero]
      exact ⟨_, h.returns_err hbuf (.inl hzero)⟩
    rw [if_neg hzero]
    by_cases hstored : b.err.isSome
    · rw [if_pos hstored]
      exact ⟨_, h.returns_err hbuf (.inr hstored)⟩
    have herr : b.err = none := Option.not_isSome_iff_eq_none.1 hstored
    rw [if_neg hstored]
    by_cases hlarge : size ≤ room
    · rw [if_pos hlarge]
      exact ⟨_, h.returns_rd hbuf herr (by omega) (r.length_le b.rd room)⟩
    rw [if_neg hlarge]
    by_cases hnil : (r.read b.rd size).bytes = []
    · have hreturns : Returns r b stream room _ _ :=
        h.returns_rd hbuf herr hsize (by rw [hnil]; exact Nat.zero_le _)
      rw [hnil] at hreturns
      exact ⟨_, by simpa only [hnil, if_true] using hreturns⟩
    · have hfilled : Holds r ⟨(r.read b.rd size).bytes, (r.read b.rd size).err,
          (r.read b.rd size).next⟩ stream := by
        refine ⟨?_, fun e he => r.fails _ _ e he⟩
        rw [← r.delivers, ← h.content, hbuf, List.nil_append]
      exact ⟨_, by simpa only [hnil, if_false] using hfilled.returns_buf hnil room b⟩
  · have hbuffered := h.returns_buf hbuf room b
    by_cases hzero : room = 0
    · subst hzero
      rw [if_pos rfl, if_pos hbuf]
      exact ⟨_, hbuffered⟩
    · rw [if_neg hzero, if_pos hbuf]
      exact ⟨_, hbuffered⟩

end HakunaMatata.Base.Bufio
