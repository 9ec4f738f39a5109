import PosixAcl.Text.Utf8

/-!
# Escape sequences

A terminal takes some parts of a text as instructions and does not show them. An escape character
begins a sequence, whose second character says of what kind it is and where it ends. Other control
characters are not shown either, apart from those that only move on in the text. A machine reads one
character at a time and knows the part of a sequence in which it stands.
-/

namespace PosixAcl.Escapes

/-- Where the reader stands. -/
inductive State where
  /-- Outside of sequences. -/
  | outside
  /-- Right after an escape character. -/
  | escape
  /-- Between an escape character and the final character of a short sequence. -/
  | short
  /-- In a control sequence, which ends with its first letter. -/
  | control
  /-- At the beginning of a string for the device. -/
  | device
  /-- In the parameters of a string for the device. -/
  | deviceParameters
  /-- After the parameters of a string for the device. -/
  | deviceIntermediate
  /-- In a string up to its terminator. -/
  | string
  /-- In a command for the operating system, which ends with a bell. -/
  | command
deriving DecidableEq, Repr

/-- Whether a character lies between two others, which count as well. -/
def isWithin (c low high : Char) : Bool :=
  low ≤ c && c ≤ high

/-- Whether a character only moves on in the text: to the next stop, line or page, or back to the
start of the line. -/
def isLayout (c : Char) : Bool :=
  c = '\t' || c = '\n' || c = '\x0C' || c = '\r'

/-- Whether a character is printed. Of those in ASCII the control characters are not. -/
def isPrinted (c : Char) : Bool :=
  ' ' ≤ c && c ≠ '\x7F'

/-- The byte that ends a string, also inside a longer character. -/
def terminator : UInt8 := 0x9C

/-- Whether a character is shown where the reader stands. Layout breaks off an unfinished sequence,
but it does not break off a string or a command. -/
def shows : State → Char → Bool
  | .outside, c => isPrinted c || isLayout c
  | .escape, c | .short, c | .control, c => isLayout c
  | .device, _ | .deviceParameters, _ | .deviceIntermediate, _ | .string, _ | .command, _ => false

/-- What the character after an escape character begins. -/
def begun (c : Char) : State :=
  if isWithin c ' ' '/' then .short
  else if isWithin c '0' '~' then
    match c with
    | '[' => .control
    | ']' => .command
    | 'P' => .device
    | 'X' | '^' | '_' => .string
    | _ => .outside
  else .escape

/-- Where the reader stands after a character that is not shown and that does not itself begin or
cancel a sequence. -/
def inside (c : Char) : State → State
  | .outside => .outside
  | .escape => begun c
  | .short => if isWithin c '0' '~' then .outside else .short
  | .control => if isWithin c '@' '~' then .outside else .control
  | .device =>
    if isWithin c ' ' '/' then .deviceIntermediate
    else if isWithin c '0' '?' then .deviceParameters
    else if isWithin c '@' '~' then .string
    else .device
  | .deviceParameters =>
    if isWithin c ' ' '/' then .deviceIntermediate
    else if isWithin c '<' '~' then .string
    else .deviceParameters
  | .deviceIntermediate => if isWithin c '0' '~' then .string else .deviceIntermediate
  | .string => if terminator ∈ Utf8.encodeChar c then .outside else .string
  | .command => if c = '\x07' then .outside else .command

/-- Where the reader stands after a character. An escape character begins a sequence anywhere, and
two control characters cancel any sequence. -/
def next (state : State) (c : Char) : State :=
  if c = '\x1B' then .escape
  else if c = '\x18' || c = '\x1A' || shows state c then .outside
  else inside c state

/-- What is shown of the rest of a text from a state on. -/
def visibleFrom : State → Text → Text
  | _, [] => []
  | state, c :: rest =>
    if shows state c then c :: visibleFrom (next state c) rest
    else visibleFrom (next state c) rest

/-- What is shown of a text. -/
def visible (text : Text) : Text :=
  visibleFrom .outside text

end PosixAcl.Escapes
