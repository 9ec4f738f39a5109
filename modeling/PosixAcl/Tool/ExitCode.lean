import PosixAcl.Store.Error

/-!
# Exit codes

How a run ended, as the number that the process returns.
-/

namespace PosixAcl

/-- The ways in which a run ends. -/
inductive ExitCode where
  /-- Every path was processed. -/
  | success
  /-- The command line or its specification is wrong. -/
  | usage
  /-- The path does not exist. -/
  | notFound
  /-- The store cannot do what was asked. -/
  | unsupported
  /-- Reading, changing or writing failed. -/
  | failure
  /-- Some paths of a tree failed. -/
  | incomplete
deriving DecidableEq, Repr

namespace ExitCode

/-- The number that the process returns. -/
def value : ExitCode → Nat
  | .success => 0
  | .usage => 1
  | .notFound => 3
  | .unsupported => 4
  | .failure => 11
  | .incomplete => 23

/-- What the code means. -/
def description : ExitCode → Text
  | .success => "success".toList
  | .usage => "syntax or usage error".toList
  | .notFound => "errors selecting input/output files, dirs".toList
  | .unsupported => "requested action not supported".toList
  | .failure => "error in file IO".toList
  | .incomplete => "some files could not be processed".toList

/-- The text that reports the code. -/
def message (code : ExitCode) : Text :=
  code.description ++ " (code ".toList ++ Nat.toDigits 10 code.value ++ [')']

/-- The code for the failure of a store on a single path. -/
def ofStoreError (error : StoreError) : ExitCode :=
  match error.cause with
  | .notFound => .notFound
  | .unsupported _ => .unsupported
  | .permissionDenied | .notADirectory | .invalidAcl _ | .system _ => .failure

/-- The number that a process can return in the place of any integer: the nearest one from 0 to
255. -/
def clamp (status : Int) : Nat :=
  min status.toNat 255

end ExitCode

end PosixAcl
