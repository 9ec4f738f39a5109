import PosixAcl.Acl.Change
import PosixAcl.Store.Path

/-!
# Failures of a store

A failure of the operating system has a kind and a text. A failure of a store names the path that
it concerns and its cause, which is one that the store knows, or else a failure of the system.
-/

namespace PosixAcl

/-- A failure of the operating system. -/
inductive SystemError where
  | notFound
  | permissionDenied
  | notADirectory
  | unsupported
  | alreadyExists
  | brokenPipe
  | timedOut
  | interrupted
  | invalidInput
  | wouldBlock
  | isADirectory
  | readOnlyFilesystem
  | storageFull
  | unexpectedEof
  /-- More symbolic links on a path than the system follows. -/
  | tooManyLinks
  /-- A path or a name that is longer than the system allows. -/
  | nameTooLong
  /-- A zero byte in a path. -/
  | zeroByteInPath
  /-- A failure of no particular kind, with its own text. -/
  | other (text : Text)
deriving DecidableEq, Repr

/-- The text that reports the failure. -/
def SystemError.message : SystemError → Text
  | .notFound => "entity not found".toList
  | .permissionDenied => "permission denied".toList
  | .notADirectory => "not a directory".toList
  | .unsupported => "unsupported".toList
  | .alreadyExists => "entity already exists".toList
  | .brokenPipe => "broken pipe".toList
  | .timedOut => "timed out".toList
  | .interrupted => "operation interrupted".toList
  | .invalidInput => "invalid input parameter".toList
  | .wouldBlock => "operation would block".toList
  | .isADirectory => "is a directory".toList
  | .readOnlyFilesystem => "read-only filesystem or storage medium".toList
  | .storageFull => "no storage space".toList
  | .unexpectedEof => "unexpected end of file".toList
  | .tooManyLinks => "Too many levels of symbolic links (os error 40)".toList
  | .nameTooLong => "File name too long (os error 36)".toList
  | .zeroByteInPath => "file name contained an unexpected NUL byte".toList
  | .other text => text

/-- Something that a store cannot do. -/
inductive Unsupported where
  /-- The operation as a whole. -/
  | operation
  /-- Keeping default entries. -/
  | defaultEntries
  /-- Keeping entries besides the base entries. -/
  | extendedEntries
deriving DecidableEq, Repr

/-- The text that says what cannot be done. -/
def Unsupported.message : Unsupported → Text
  | .operation => "Operation not supported".toList
  | .defaultEntries => "default ACLs require the posix-acl feature".toList
  | .extendedEntries => "extended ACL entries require the posix-acl feature".toList

/-- Why a store fails. -/
inductive StoreError.Cause where
  /-- There is no such file. -/
  | notFound
  /-- The file may not be read or changed. -/
  | permissionDenied
  /-- The file is not a directory. -/
  | notADirectory
  /-- The access control list would break a rule. -/
  | invalidAcl (rule : AclError)
  /-- The store cannot do what was asked. -/
  | unsupported (feature : Unsupported)
  /-- Any other failure of the system. -/
  | system (error : SystemError)
deriving DecidableEq, Repr

/-- A failure of a store at one path. -/
structure StoreError where
  /-- The path that the failure concerns. -/
  path : Path
  /-- Why the store fails. -/
  cause : StoreError.Cause
deriving DecidableEq, Repr

namespace StoreError

/-- The text of a cause. -/
def Cause.message : Cause → Text
  | .notFound => "No such file or directory".toList
  | .permissionDenied => "Permission denied".toList
  | .notADirectory => "Is not a directory".toList
  | .invalidAcl rule => rule.message
  | .unsupported feature => feature.message
  | .system error => error.message

/-- The text that reports the failure. -/
def message (error : StoreError) : Text :=
  "`".toList ++ error.path.text ++ "': ".toList ++ error.cause.message

/-- The failure of a store for which a failure of the system at a path stands. -/
def ofSystem (path : Path) : SystemError → StoreError
  | .notFound => ⟨path, .notFound⟩
  | .permissionDenied => ⟨path, .permissionDenied⟩
  | .notADirectory => ⟨path, .notADirectory⟩
  | .unsupported => ⟨path, .unsupported .operation⟩
  | error => ⟨path, .system error⟩

/-- Whether the failure is that there is no such file. -/
def isNotFound (error : StoreError) : Bool :=
  error.cause = .notFound

/-- Whether there is a further failure behind this one: a broken rule, or one of the system. -/
def hasSource (error : StoreError) : Bool :=
  match error.cause with
  | .invalidAcl _ | .system _ => true
  | _ => false

end StoreError

end PosixAcl
