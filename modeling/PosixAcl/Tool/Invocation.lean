import PosixAcl.Acl.Change
import PosixAcl.Store.Path
import PosixAcl.Tool.Error

/-!
# Invocations

A command line that has been checked says which path a tool is to work on, whether it goes through
the tree below, and what it does to each path. Everything is checked before any store is touched.
-/

namespace PosixAcl

/-- What a tool is to do to a path, or to every path of a tree. -/
structure Invocation (Action : Type) where
  /-- Whether to go through the tree below the path. -/
  recursive : Bool
  /-- What to do to each path. -/
  action : Action
  /-- The path. -/
  path : Path
deriving DecidableEq, Repr

namespace Invocation

/-- The path in a list of operands that should hold nothing else. -/
def singlePath : List Bytes → Except UsageError Path
  | [] => .error (.missingOperand .path)
  | [path] => .ok ⟨path⟩
  | _ => .error .tooManyArguments

/-- What the tool that shows lists is to do. -/
def ofQuery (arguments : Arguments) : Except ToolError (Invocation Unit) :=
  match singlePath arguments.operands with
  | .error error => .error (.usage error)
  | .ok path => .ok ⟨arguments.flags.contains .recursive, (), path⟩

/-- Whether flags for different changes are combined. -/
def conflicting (flags : List Flag) : Bool :=
  let strips := flags.contains .keepBase || flags.contains .dropDefault
  let edits := flags.contains .merge || flags.contains .remove
  (flags.contains .keepBase && flags.contains .dropDefault) ||
    (flags.contains .merge && flags.contains .remove) ||
    (strips && edits) || (flags.contains .replace && (strips || edits))

/-- Whether the flags ask for a change that takes a specification. -/
def takesSpec (flags : List Flag) : Bool :=
  flags.contains .merge || flags.contains .remove || flags.contains .replace

/-- Takes the entries of a specification from the operands, if the flags ask for one. A path has to
follow it. -/
def takeEntries (flags : List Flag) (operands : List Bytes) :
    Except ToolError (List Entry × List Bytes) :=
  if takesSpec flags then
    match operands with
    | spec :: path :: rest =>
      match Utf8.decode? spec with
      | none => .error (.usage (.malformedText .spec))
      | some text =>
        match readSpec text with
        | .error error => .error (.spec error)
        | .ok entries => .ok (entries, path :: rest)
    | _ => .error (.usage (.missingOperand .spec))
  else .ok ([], operands)

/-- The change that the flags ask for. -/
def change? (flags : List Flag) (entries : List Entry) : Option Change :=
  if flags.contains .keepBase then some .keepBase
  else if flags.contains .dropDefault then some .dropDefault
  else if flags.contains .merge then some (.merge entries)
  else if flags.contains .remove then some (.remove entries)
  else if flags.contains .replace then some (.replace entries)
  else none

/-- What the tool that changes lists is to do. The flags are checked first, then the specification,
then the path, and last that there is a change at all. -/
def ofChange (arguments : Arguments) : Except ToolError (Invocation Change) :=
  if conflicting arguments.flags then .error (.usage .conflictingFlags)
  else
    match takeEntries arguments.flags arguments.operands with
    | .error error => .error error
    | .ok (entries, operands) =>
      match singlePath operands with
      | .error error => .error (.usage error)
      | .ok path =>
        match change? arguments.flags entries with
        | none => .error (.usage .missingOperation)
        | some change => .ok ⟨arguments.flags.contains .recursive, change, path⟩

end Invocation

end PosixAcl
