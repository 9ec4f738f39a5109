import PosixAcl.Output.Sink
import PosixAcl.Proofs.Text.Utf8

/-!
# Outputs without a limit

An output without a capacity keeps everything. A message sink on such an output
adds one line for each message.
-/

namespace PosixAcl

namespace Output

variable {out : Output}

/-- An output without a limit keeps what is written. -/
theorem write_of_unlimited (h : out.capacity = none) (bytes : Bytes) :
    out.write bytes = (.ok (), { out with kept := out.kept ++ bytes }) := by
  simp [write, fitting, h]

/-- An output without a limit keeps all pieces. -/
theorem writeAll_of_unlimited (h : out.capacity = none) (pieces : List Bytes) :
    out.writeAll pieces = (.ok (), { out with kept := out.kept ++ pieces.flatten }) := by
  induction pieces generalizing out with
  | nil => simp [writeAll]
  | cons piece rest ih =>
    have hfirst : ({ out with kept := out.kept ++ piece } : Output).capacity = none := h
    simp only [writeAll, write_of_unlimited h, ih hfirst, List.flatten_cons, List.append_assoc]

/-- An output without a limit keeps all texts. -/
theorem writeTexts_of_unlimited (h : out.capacity = none) (texts : List Text) :
    out.writeTexts texts =
      (.ok (), { out with kept := out.kept ++ Utf8.encode texts.flatten }) := by
  rw [writeTexts, writeAll_of_unlimited h, Utf8.encode_flatten]

end Output

namespace MessageSink

/-- The line that a message of a program makes. -/
def line (program message : Text) : Text :=
  program ++ [':', ' '] ++ message ++ ['\n']

/-- A sink on an output without a limit adds a line for the message. -/
theorem write_of_unlimited {sink : MessageSink} (h : sink.output.capacity = none)
    (hmode : sink.lineMode = .withNewline) (message : Text) :
    sink.write message = (.ok (), { sink with
      output := { sink.output with
        kept := sink.output.kept ++ Utf8.encode (line sink.program message) } }) := by
  simp [write, writeWithMode, Output.writeTexts_of_unlimited h, hmode, pieces,
    LineMode.appendsNewline, line]

end MessageSink

end PosixAcl
