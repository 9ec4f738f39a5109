import PosixAcl.Namespace.Basic
import PosixAcl.Tool.Run

/-!
# The program

The first argument names a tool, and the rest is its command line. The tool works on a new
namespace, which holds only its root directory.
-/

namespace PosixAcl

/-- The tool with the given name. -/
def Tool.ofName? (name : String) : Option Tool :=
  [Tool.getfacl, Tool.setfacl].find? fun tool => tool.program = name.toList

/-- Writes what an output has kept to a stream. -/
def Output.copyTo (out : Output) (stream : IO.FS.Stream) : IO Unit := do
  stream.write (ByteArray.mk out.kept.toArray)
  stream.flush

end PosixAcl

open PosixAcl in
/-- Runs the named tool and returns its exit code. -/
def main (arguments : List String) : IO UInt32 := do
  match arguments.head?.bind Tool.ofName? with
  | none =>
    (← IO.getStderr).putStrLn "the first argument has to be oc-getfacl or oc-setfacl"
    return UInt32.ofNat ExitCode.usage.value
  | some tool =>
    let vector := arguments.map fun argument => argument.toUTF8.toList
    let (code, session) :=
      tool.run Namespace.backend vector (Session.start tool Namespace.initial {} {})
    session.stdout.copyTo (← IO.getStdout)
    session.stderr.output.copyTo (← IO.getStderr)
    return UInt32.ofNat code.value
