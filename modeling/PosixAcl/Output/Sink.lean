import PosixAcl.Output.Basic

/-!
# Diagnostics

A message sink writes messages to an output. Each one begins with the name of the program and ends
with a newline, unless the line mode says that it does not.
-/

namespace PosixAcl

/-- Whether a message ends with a newline. -/
inductive LineMode where
  /-- A newline follows the message. -/
  | withNewline
  /-- Nothing follows the message. -/
  | withoutNewline
deriving DecidableEq, Repr

namespace LineMode

/-- The mode of diagnostics when nothing else is asked for. -/
instance : Inhabited LineMode := ⟨.withNewline⟩

/-- Whether the mode appends a newline. -/
def appendsNewline (mode : LineMode) : Bool :=
  mode = .withNewline

/-- The mode that appends a newline or not. -/
def ofBool (appendsNewline : Bool) : LineMode :=
  if appendsNewline then .withNewline else .withoutNewline

end LineMode

/-- An output for the messages of a program. -/
structure MessageSink where
  /-- Where messages go. -/
  output : Output
  /-- The name of the program. -/
  program : Text
  /-- The line mode of messages for which no other mode is asked for. -/
  lineMode : LineMode := .withNewline
deriving DecidableEq, Repr

namespace MessageSink

/-- The pieces that make up a message. -/
def pieces (program message : Text) (mode : LineMode) : List Text :=
  [program, [':', ' '], message] ++ if mode.appendsNewline then [['\n']] else []

/-- Writes a message in the given line mode. -/
def writeWithMode (sink : MessageSink) (message : Text) (mode : LineMode) :
    Except SystemError Unit × MessageSink :=
  let (result, output) := sink.output.writeTexts (pieces sink.program message mode)
  (result, { sink with output })

/-- Writes a message in the sink's own line mode. -/
def write (sink : MessageSink) (message : Text) : Except SystemError Unit × MessageSink :=
  sink.writeWithMode message sink.lineMode

end MessageSink

end PosixAcl
