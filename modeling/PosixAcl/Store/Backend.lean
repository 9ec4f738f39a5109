import PosixAcl.Acl.Status
import PosixAcl.Store.Error

/-!
# Calls to a store

A store of files is used through four calls: the type of a file, the children of a directory, the
status of a file, and a change of its access control list. A backend answers calls in a state of
its own. Two backends are made from others: one also notes the calls, and one makes chosen calls
fail.
-/

namespace PosixAcl

/-- What a walk has to know about a file. -/
structure FileStatus where
  /-- The path of the file. -/
  path : Path
  /-- Whether it is a directory that can be listed. -/
  directory : Bool
deriving DecidableEq, Repr

/-- A call to a store. -/
inductive Call where
  /-- The type of a file. -/
  | fileStatus (path : Path)
  /-- The children of a directory, in order. -/
  | children (path : Path)
  /-- Ownership and access control list of a file. -/
  | aclStatus (path : Path)
  /-- A change of the access control list of a file. -/
  | change (path : Path) (what : Change)
deriving DecidableEq, Repr

/-- The kinds of call. -/
inductive CallKind where
  | fileStatus
  | children
  | aclStatus
  | keepBase
  | dropDefault
  | merge
  | remove
  | replace
deriving DecidableEq, Repr

/-- The kind of the call that makes a change. -/
def Change.callKind : Change → CallKind
  | .keepBase => .keepBase
  | .dropDefault => .dropDefault
  | .merge _ => .merge
  | .remove _ => .remove
  | .replace _ => .replace

namespace Call

/-- What a successful call answers. -/
def Reply : Call → Type
  | .fileStatus _ => FileStatus
  | .children _ => List FileStatus
  | .aclStatus _ => AclStatus
  | .change _ _ => Unit

/-- The path that a call is about. -/
def path : Call → Path
  | .fileStatus p | .children p | .aclStatus p | .change p _ => p

/-- The kind of a call. -/
def kind : Call → CallKind
  | .fileStatus _ => .fileStatus
  | .children _ => .children
  | .aclStatus _ => .aclStatus
  | .change _ what => what.callKind

end Call

/-- A store with states of type `σ`. -/
structure Backend (σ : Type) where
  /-- Answers a call in a state, and gives the next state. -/
  perform : (call : Call) → σ → Except StoreError call.Reply × σ
  /-- The number of steps that are enough for a walk in a state. -/
  walkBound : σ → Nat

/-- A failure that is planted for one kind of call on one path. -/
structure Fault where
  /-- The kind of call that fails. -/
  kind : CallKind
  /-- The path, in the spelling with which the call is made. -/
  path : Path
  /-- The failure of the system behind it. -/
  error : SystemError
deriving DecidableEq, Repr

/-- Whether a planted failure concerns a call. -/
def Fault.hits (fault : Fault) (call : Call) : Bool :=
  fault.kind = call.kind && fault.path = call.path

namespace Backend

variable {σ : Type}

/-- The backend whose calls fail where a failure is planted for them, the first one that concerns
the call. Such a call does not reach the store. -/
def withFaults (faults : List Fault) (backend : Backend σ) : Backend σ where
  perform call s :=
    match faults.find? (·.hits call) with
    | some fault => (.error (.ofSystem call.path fault.error), s)
    | none => backend.perform call s
  walkBound := backend.walkBound

/-- The backend that also notes every call in the order in which they are made. -/
def logged (backend : Backend σ) : Backend (σ × List Call) where
  perform call s :=
    let (reply, store) := backend.perform call s.1
    (reply, store, s.2 ++ [call])
  walkBound s := backend.walkBound s.1

end Backend

end PosixAcl
