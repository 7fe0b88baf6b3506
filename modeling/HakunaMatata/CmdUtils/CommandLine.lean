import HakunaMatata.CmdUtils.Model

/-!
# Command lines in the documented formats

A command line is a command and options, with one blank or more between them. An option is a name
that starts with a dash, followed by a quoted text, `-xxx="text"`, or by any number of arguments.
The characters are kept together with a mark on those at which the name of an option starts.
`Lossless` is what a parse is to give, in terms of the positions of the characters, and `Clean` the
condition under which it does.
-/

namespace HakunaMatata.CmdUtils

open Base

/-- Characters other than NUL and blank, at least one. -/
structure Word where
  chars : List UInt8
  nonempty : chars ≠ []
  inWord : ∀ c ∈ chars, inWord c = true

/-- The name of an option, `-xxx` or `--yyy`. -/
structure OptionName where
  rest : List UInt8
  nonempty : rest ≠ []
  inWord : ∀ c ∈ rest, CmdUtils.inWord c = true
  no_equals : equals ∉ rest

def OptionName.chars (name : OptionName) : List UInt8 :=
  dash :: name.rest

/-- An argument, with `gap + 1` blanks before it. -/
structure Argument where
  gap : Nat
  word : Word

/-- What follows the name of an option. -/
inductive Form where
  | quoted (content : List UInt8) (inQuotes : ∀ c ∈ content, inQuotes c = true)
  | plain (arguments : List Argument)

/-- An option, with `gap + 1` blanks before it. -/
structure Item where
  gap : Nat
  name : OptionName
  form : Form

structure CommandLine where
  lead : Nat
  command : Word
  items : List Item
  trail : Nat

/-! ## The text -/

def blanks (n : Nat) : List UInt8 :=
  List.replicate n blank

/-- A character, and whether the name of an option starts with it. -/
abbrev Letter := UInt8 × Bool

/-- Characters at which no option starts. -/
def unmarked (chars : List UInt8) : List Letter :=
  chars.map (·, false)

def text (letters : List Letter) : List UInt8 :=
  letters.map Prod.fst

def Argument.chars (argument : Argument) : List UInt8 :=
  blanks (argument.gap + 1) ++ argument.word.chars

def Form.chars : Form → List UInt8
  | .quoted content _ => equals :: quote :: (content ++ [quote])
  | .plain arguments => arguments.flatMap Argument.chars

/-- An option without the blanks before it. -/
def Item.body (item : Item) : List Letter :=
  (dash, true) :: unmarked (item.name.rest ++ item.form.chars)

/-- Options with the blanks before them, and the blanks at the end of the line. -/
def itemLetters (items : List Item) (trail : Nat) : List Letter :=
  items.flatMap (fun item => unmarked (blanks (item.gap + 1)) ++ item.body) ++
    unmarked (blanks trail)

def CommandLine.letters (line : CommandLine) : List Letter :=
  unmarked (blanks line.lead ++ line.command.chars) ++ itemLetters line.items line.trail

def CommandLine.text (line : CommandLine) : List UInt8 :=
  CmdUtils.text line.letters

/-! ## What is to be passed to the callback -/

/-- The non-blank characters of a text that stands at a position, each with its own. -/
def solidFrom (start : Nat) (chars : List UInt8) : List (UInt8 × Nat) :=
  (chars.zipIdx start).filter fun entry => entry.1 != blank

/-- The non-blank characters of the strings at these positions. -/
def covered (buf : List UInt8) (starts : List Nat) : List (UInt8 × Nat) :=
  starts.flatMap fun start => solidFrom start (stringAt buf start)

/-- The command and the options contain every non-blank character of the line once and in order,
and every option starts at the name of an option. -/
structure Lossless (line : CommandLine) (s : State) : Prop where
  complete : ∃ command, s.command = some command ∧
    covered s.buf (command :: s.options) = solidFrom 0 line.text
  names : ∀ start ∈ s.options, ∃ c, line.letters[start]? = some (c, true)

/-! ## When nothing is lost -/

/-- The option is one word. -/
def Item.OneWord (item : Item) : Prop :=
  blank ∉ item.form.chars

/-- The options of a line from the `n`th one on are cut where they end. `trail` is the number of
blanks at the end of the line. -/
inductive Clean (classify : Nat → List UInt8 → Int8) (trail : Nat) : Nat → List Item → Prop where
  | nil (n) : Clean classify trail n []
  | quoted (n item rest content inQuotes) :
      item.form = .quoted content inQuotes →
      Clean classify trail (n + 1) rest → Clean classify trail n (item :: rest)
  /-- An option without arguments. -/
  | single (n item rest) :
      item.form = .plain [] →
      classify n item.name.chars ≠ otFollowOne → classify n item.name.chars ≠ otFollowArbitrary →
      Clean classify trail (n + 1) rest → Clean classify trail n (item :: rest)
  | followOne (n item rest argument) :
      item.form = .plain [argument] → classify n item.name.chars = otFollowOne →
      Clean classify trail (n + 1) rest → Clean classify trail n (item :: rest)
  /-- An option that misses its argument takes the next option for it. -/
  | takesNext (n item next rest) :
      item.form = .plain [] → classify n item.name.chars = otFollowOne → next.OneWord →
      Clean classify trail (n + 1) rest → Clean classify trail n (item :: next :: rest)
  | missesLast (n item) :
      item.form = .plain [] → classify n item.name.chars = otFollowOne →
      Clean classify trail n [item]
  | followArbitrary (n item rest arguments) :
      item.form = .plain arguments → classify n item.name.chars = otFollowArbitrary →
      dash ∉ item.form.chars → item.name.rest.getLast? ≠ some dash →
      Clean classify trail (n + 1) rest → Clean classify trail n (item :: rest)
  /-- A name with a dash at the end of the line is not cut. -/
  | endsLine (n item) :
      item.form = .plain [] → classify n item.name.chars = otFollowArbitrary → trail = 0 →
      Clean classify trail n [item]

end HakunaMatata.CmdUtils
