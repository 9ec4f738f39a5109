import PosixAcl.Text.Escapes

/-!
# Command lines

The two tools and how their command lines are cut into flags and operands. Arguments are byte
strings. Flags come first: words after two dashes, or clusters of letters after one dash. The first
argument of any other form is an operand, and so is everything after it. Two dashes alone end the
flags and are dropped. Each flag may occur once. The first fault in reading order is reported.
-/

namespace PosixAcl

/-- The tools. -/
inductive Tool where
  /-- Shows access control lists. -/
  | getfacl
  /-- Changes access control lists. -/
  | setfacl
deriving DecidableEq, Repr

/-- The flags of the tools. -/
inductive Flag where
  /-- Show the help text. -/
  | help
  /-- Go through a whole tree. -/
  | recursive
  /-- Keep the base entries only. -/
  | keepBase
  /-- Drop the default entries. -/
  | dropDefault
  /-- Merge entries. -/
  | merge
  /-- Remove entries. -/
  | remove
  /-- Replace the whole list. -/
  | replace
deriving DecidableEq, Repr

/-- The flags that a tool knows. -/
def Tool.flags : Tool → List Flag
  | .getfacl => [.help, .recursive]
  | .setfacl => [.help, .recursive, .keepBase, .dropDefault, .merge, .remove, .replace]

namespace Flag

/-- The letter of a flag in a cluster. -/
def letter? : Flag → Option Char
  | .help => some 'h'
  | .recursive => some 'R'
  | .keepBase => some 'b'
  | .dropDefault => some 'k'
  | .merge => some 'm'
  | .remove => some 'x'
  | .replace => none

/-- The word of a flag after two dashes. -/
def word? : Flag → Option Text
  | .help => some ['h', 'e', 'l', 'p']
  | .replace => some ['s', 'e', 't']
  | _ => none

/-- How a flag is shown: by its word if it has one, and otherwise by its letter. -/
def text (flag : Flag) : Text :=
  match flag.word?, flag.letter? with
  | some word, _ => '-' :: '-' :: word
  | none, some letter => ['-', letter]
  | none, none => []

end Flag

/-- What is wrong with the flags of a command line. -/
inductive ArgumentError where
  /-- A flag that the tool does not know, as it was written. -/
  | unknownFlag (written : Text)
  /-- A value for a flag that takes none. -/
  | unexpectedValue (flag : Flag) (value : Text)
  /-- A flag that occurs twice. -/
  | repeatedFlag (flag : Flag)
deriving DecidableEq, Repr

/-- The text that reports the error. What was written is repeated without escape sequences. -/
def ArgumentError.message : ArgumentError → Text
  | .unknownFlag written =>
    "unexpected argument '".toList ++ Escapes.visible written ++ "' found".toList
  | .unexpectedValue flag value =>
    "unexpected value '".toList ++ Escapes.visible value ++ "' for '".toList ++ flag.text ++
      "' found; no more were expected".toList
  | .repeatedFlag flag =>
    "the argument '".toList ++ flag.text ++ "' cannot be used multiple times".toList

/-- A command line in parts. -/
structure Arguments where
  /-- The flags in reading order. -/
  flags : List Flag
  /-- The operands. -/
  operands : List Bytes
deriving DecidableEq, Repr

namespace Arguments

/-- The byte that begins a flag. -/
def dash : UInt8 := 0x2D

/-- The byte between the word of a flag and a value. -/
def equalsSign : UInt8 := 0x3D

/-- What one argument is, as long as flags are read. -/
inductive Token where
  /-- The end of the flags. -/
  | endOfFlags
  /-- A word after two dashes, up to the first equals sign, and what follows that sign. -/
  | word (name : Bytes) (value : Option Bytes)
  /-- Letters after one dash, with nothing for a malformed byte sequence. -/
  | cluster (letters : List (Option Char))
  /-- An operand. -/
  | operand
deriving DecidableEq, Repr

/-- The name before the first equals sign, and the value after it. -/
def splitValue (bytes : Bytes) : Bytes × Option Bytes :=
  match bytes.dropWhile (· ≠ equalsSign) with
  | [] => (bytes, none)
  | _ :: value => (bytes.takeWhile (· ≠ equalsSign), some value)

/-- What an argument is, as long as flags are read. A dash alone is an operand. -/
def Token.ofBytes : Bytes → Token
  | [] => .operand
  | [_] => .operand
  | first :: second :: rest =>
    if first ≠ dash then .operand
    else if second ≠ dash then .cluster (Utf8.scan (second :: rest))
    else if rest.isEmpty then .endOfFlags
    else .word (splitValue rest).1 (splitValue rest).2

/-- Adds a flag to those that were read before. -/
def addFlag (seen : List Flag) (flag : Flag) : Except ArgumentError (List Flag) :=
  if flag ∈ seen then .error (.repeatedFlag flag) else .ok (seen ++ [flag])

/-- Reads a word after two dashes. -/
def readWord (tool : Tool) (seen : List Flag) (name : Bytes) (value : Option Bytes) :
    Except ArgumentError (List Flag) :=
  match tool.flags.find? fun flag => flag.word?.map Utf8.encode = some name with
  | none => .error (.unknownFlag ('-' :: '-' :: Utf8.decodeLossy name))
  | some flag =>
    match value with
    | some value => .error (.unexpectedValue flag (Utf8.decodeLossy value))
    | none => addFlag seen flag

/-- Reads the letters after one dash. What follows a malformed byte sequence is reported together
with it. -/
def readCluster (tool : Tool) (seen : List Flag) :
    List (Option Char) → Except ArgumentError (List Flag)
  | [] => .ok seen
  | none :: rest => .error (.unknownFlag ('-' :: Utf8.replaceMalformed (none :: rest)))
  | some letter :: rest =>
    match tool.flags.find? fun flag => flag.letter? = some letter with
    | none => .error (.unknownFlag ['-', letter])
    | some flag =>
      match addFlag seen flag with
      | .error error => .error error
      | .ok seen => readCluster tool seen rest

/-- Reads arguments after the flags that were read before. -/
def readAfter (tool : Tool) (seen : List Flag) : List Bytes → Except ArgumentError Arguments
  | [] => .ok ⟨seen, []⟩
  | argument :: rest =>
    match Token.ofBytes argument with
    | .endOfFlags => .ok ⟨seen, rest⟩
    | .operand => .ok ⟨seen, argument :: rest⟩
    | .word name value =>
      match readWord tool seen name value with
      | .error error => .error error
      | .ok seen => readAfter tool seen rest
    | .cluster letters =>
      match readCluster tool seen letters with
      | .error error => .error error
      | .ok seen => readAfter tool seen rest

/-- Reads a command line without the name of the program. -/
def read (tool : Tool) (arguments : List Bytes) : Except ArgumentError Arguments :=
  readAfter tool [] arguments

end Arguments

end PosixAcl
