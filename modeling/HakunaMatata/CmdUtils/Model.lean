import HakunaMatata.Base.CStrings
import HakunaMatata.Base.Words

/-!
# The command line parser, `cmd_utils.c`

`parseCmdLine` copies the command line and cuts the copy in place: it overwrites the character
behind the command and behind each option with a NUL, and it collects the positions at which the
command and the options start. Where an option ends is found by `parseOption`, from the type that
the caller's classifier answers for the option's name. Pointers are positions in the copy, and a
position outside the copy, or one before its start, is a `Fault`. The classifier is asked at most
once for each option, so that its answers are a function of the number of the option and of the
characters of its name.
-/

namespace HakunaMatata.CmdUtils

open Base

def nul : UInt8 := 0

def blank : UInt8 := 32

def quote : UInt8 := 34

def dash : UInt8 := 45

def equals : UInt8 := 61

/-- `MG_MAX_CMD_OPTION_NUM`. -/
def maxOptions : Nat := 64

/-- `MG_OT_Null`. -/
def otNull : Int8 := 0

/-- `MG_OT_FollowOne`. -/
def otFollowOne : Int8 := 2

/-- `MG_OT_FollowArbitrary`. -/
def otFollowArbitrary : Int8 := 3

/-- A character between words. -/
def isBlank (c : UInt8) : Bool :=
  c == blank

/-- A character of a word. -/
def inWord (c : UInt8) : Bool :=
  c != nul && c != blank

/-- A character of a quoted text. -/
def inQuotes (c : UInt8) : Bool :=
  c != nul && c != quote

/-- A character that the arguments of an option may contain. -/
def inArguments (c : UInt8) : Bool :=
  c != nul && c != dash

/-- A `char*` that is returned. -/
inductive Pointer where
  | null
  | addr (p : Nat)
  deriving DecidableEq, Repr

/-- `--p`. -/
def stepBack (p : Nat) : Except Fault Nat :=
  if p = 0 then .error .outOfBounds else .ok (p - 1)

/-- What the loop that looks for `="..."` finds in the name: nothing, no end, or the end. -/
inductive Quoted where
  | absent
  | unclosed
  | closed (p : Nat)
  deriving DecidableEq, Repr

/-- The end of a quoted text that starts at `p`. -/
def closeQuotes (buf : List UInt8) (p : Nat) : Except Fault Quoted := do
  let p ← scan inQuotes buf p
  let c ← load buf p
  pure (if c = nul then .unclosed else .closed p)

/-- The loop that looks for `="..."` up to the last character of the name. -/
def detectQuoted (buf : List UInt8) (stop : Nat) : Nat → Nat → Except Fault Quoted
  | 0, _ => .error .diverged
  | fuel + 1, p => do
    if p = stop then pure .absent
    else
      let c ← load buf p
      if c = equals then
        let c ← load buf (p + 1)
        if c = quote then closeQuotes buf (p + 2) else pure .absent
      else detectQuoted buf stop fuel (p + 1)

/-- The `switch` over the type of an option, with its last character. -/
def followOption (buf : List UInt8) (optionType : Int8) (stop : Nat) : Except Fault Pointer :=
  if optionType = otNull then pure .null
  else if optionType = otFollowOne then do
    let p ← scan isBlank buf (stop + 1)
    let p ← scan inWord buf p
    let p ← stepBack p
    pure (.addr p)
  else if optionType = otFollowArbitrary then do
    let p ← scan inArguments buf stop
    let c ← load buf p
    let p ← if c = dash then stepBack p else pure p
    let p ← stepBack p
    pure (.addr p)
  else pure (.addr stop)

/-- `CmdUtils_ParseOption`, for an option whose name is from `start` to `stop`. -/
def parseOption (classify : List UInt8 → Int8) (buf : List UInt8) (start stop : Nat) :
    Except Fault Pointer := do
  if stop < start then pure .null
  else
    let c ← load buf start
    if c = equals then pure .null
    else
      -- the loop moves on by one character up to `stop`
      let quoted ← detectQuoted buf stop (stop + 1 - start) start
      match quoted with
      | .closed p => pure (.addr p)
      | .unclosed => pure .null
      | .absent => do
        let name ← bytesAt buf start (stop + 1 - start)
        followOption buf (classify name) stop

/-- The variables of the loop: the copy, the pointer that reads it, `p_command` and the part of
`options` that is filled. -/
structure State where
  buf : List UInt8
  p : Nat
  command : Option Nat
  options : List Nat
  deriving DecidableEq, Repr

/-- `options`, the array. -/
def State.optionArray (s : State) : List (Option Nat) :=
  s.options.map some ++ List.replicate (maxOptions - s.options.length) none

/-- How an iteration ends: with the next one, or with a result of the function. -/
inductive Next where
  | again (s : State)
  | stop (result : Bool) (s : State)
  deriving DecidableEq, Repr

/-- The branch for the command, which is from `q` to before `p`. -/
def readCommand (s : State) (q p : Nat) : Except Fault Next := do
  let c ← load s.buf p
  if c = blank then
    let buf ← store s.buf p nul
    pure (.again { s with buf := buf, p := p + 1, command := some q })
  else if c = nul then pure (.again { s with p := p, command := some q })
  -- the inner `while (1)` does not move
  else .error .diverged

/-- `options[option_count++] = q`. -/
def record (s : State) (q : Nat) : Except Fault State :=
  if s.options.length < maxOptions then .ok { s with options := s.options ++ [q] }
  else .error .outOfBounds

/-- What follows the parse of an option at the end of the line. -/
def endOption (s : State) (q : Nat) : Pointer → Next
  | .null => .stop false s
  | .addr pEnd => if pEnd < q then .stop false s else .stop true s

/-- What follows the parse of an option whose name ends at the blank at `p`. -/
def cutOption (s : State) (p : Nat) : Pointer → Except Fault Next
  | .null => do
    let buf ← store s.buf p nul
    pure (.stop false { s with buf := buf })
  | .addr pEnd => do
    let c ← load s.buf (pEnd + 1)
    if c = nul then pure (.stop true s)
    else
      let buf ← store s.buf (pEnd + 1) nul
      pure (.again { s with buf := buf, p := pEnd + 2 })

/-- The branch for an option, whose name is from `q` to before `p`. -/
def readOption (classify : Nat → List UInt8 → Int8) (s : State) (q p : Nat) :
    Except Fault Next := do
  if s.options.length = maxOptions - 1 then pure (.stop false s)
  else
    let recorded ← record s q
    let c ← load recorded.buf p
    let pointer ← parseOption (classify s.options.length) recorded.buf q (p - 1)
    if c = nul then pure (endOption recorded q pointer) else cutOption recorded p pointer

/-- One iteration of the loop. -/
def iteration (classify : Nat → List UInt8 → Int8) (s : State) : Except Fault Next := do
  let q ← scan isBlank s.buf s.p
  let p ← scan inWord s.buf q
  if p = q then pure (.stop true s)
  else if s.command = none then readCommand s q p
  else readOption classify s q p

/-- The result of the function, and the variables when it ends. -/
structure Outcome where
  result : Bool
  state : State
  deriving DecidableEq, Repr

/-- The loop, for at most as many iterations as the first argument says. -/
def parseLoop (classify : Nat → List UInt8 → Int8) : Nat → State → Except Fault Outcome
  | 0, _ => .error .diverged
  | limit + 1, s => do
    let next ← iteration classify s
    match next with
    | .again s' => parseLoop classify limit s'
    | .stop result s' => pure ⟨result, s'⟩

/-- The variables before the loop: `strlen` characters and a NUL are copied. -/
def start (line : CString) : State :=
  ⟨line.bytes, 0, none, []⟩

/-- `CmdUtils_ParseCmdLine`, up to the call of the callback with the variables of the outcome, if
the result is true. -/
def parseCmdLine (classify : Nat → List UInt8 → Int8) (limit : Nat) (line : CString) :
    Except Fault Outcome :=
  parseLoop classify limit (start line)

end HakunaMatata.CmdUtils
