import PosixAcl.Entry.Reader
import PosixAcl.Tool.Arguments
import PosixAcl.Tool.ExitCode
import PosixAcl.Walk

/-!
# Failures of a run

What can go wrong when a tool runs: its command line is wrong, its specification cannot be read,
the store or a walk fails, or an output cannot be written.
-/

namespace PosixAcl

/-- The operands of the tools. -/
inductive Operand where
  /-- The path of a file. -/
  | path
  /-- A specification of entries. -/
  | spec
deriving DecidableEq, Repr

/-- How an operand is shown. -/
def Operand.text : Operand → Text
  | .path => "<path>".toList
  | .spec => "<acl_spec>".toList

/-- What is wrong with a command line. -/
inductive UsageError where
  /-- An operand is missing. -/
  | missingOperand (operand : Operand)
  /-- There are more operands than one path. -/
  | tooManyArguments
  /-- Flags for different changes are combined. -/
  | conflictingFlags
  /-- No flag says what to change. -/
  | missingOperation
  /-- An operand is not well-formed text. -/
  | malformedText (operand : Operand)
  /-- The flags cannot be read. -/
  | arguments (error : ArgumentError)
deriving DecidableEq, Repr

/-- The first line of a text. A carriage return right before the newline does not belong to it. -/
def firstLine : Text → Text
  | [] => []
  | '\n' :: _ => []
  | '\r' :: '\n' :: _ => []
  | c :: rest => c :: firstLine rest

/-- The text that reports the error. -/
def UsageError.message : UsageError → Text
  | .missingOperand operand => operand.text ++ " is missing".toList
  | .tooManyArguments => "Too many arguments".toList
  | .conflictingFlags => "Specified flags contains both remove and modify flags".toList
  | .missingOperation => "one of -b, -k, -m, -x or --set is required".toList
  | .malformedText operand => operand.text ++ " is not valid UTF-8".toList
  | .arguments error => firstLine error.message

/-- A failure of a run. -/
inductive ToolError where
  /-- The command line is wrong. -/
  | usage (error : UsageError)
  /-- The specification cannot be read. -/
  | spec (error : SpecError)
  /-- The store fails on a path. -/
  | store (error : StoreError)
  /-- The walk fails on a path. -/
  | walk (error : WalkError)
  /-- An output cannot be written. -/
  | output (error : SystemError)
deriving DecidableEq, Repr

namespace ToolError

/-- The text that reports the failure. -/
def message : ToolError → Text
  | .usage error => error.message
  | .spec error => error.message
  | .store error => error.message
  | .walk error => error.message
  | .output error => "failed to write output: ".toList ++ error.message

/-- The exit code of a run that ends with the failure. -/
def exitCode : ToolError → ExitCode
  | .usage _ | .spec _ => .usage
  | .store error => .ofStoreError error
  | .walk error => .ofStoreError error.storeError
  | .output _ => .failure

end ToolError

end PosixAcl
