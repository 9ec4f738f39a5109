import PosixAcl.Acl.Table
import PosixAcl.Store.Path

/-!
# The status of a file

What a store reports about one file, and the listing that shows it: a header with the path, the
owner and the group, a line of flags if the sticky bit is set, and one line for each entry.
-/

namespace PosixAcl

/-- Ownership, sticky bit and access control list of a file. -/
structure AclStatus where
  /-- The name of the owner. -/
  owner : Text
  /-- The name of the owning group. -/
  group : Text
  /-- Whether the sticky bit is set. -/
  sticky : Bool
  /-- The entries in the order in which they are stored. -/
  acl : Acl
deriving DecidableEq, Repr

namespace AclStatus

/-- Whether an access entry for the others grants the right to execute. -/
def otherCanExecute (status : AclStatus) : Bool :=
  status.acl.any fun e =>
    e.kind = .other && e.scope = .access && e.permission.implies .executeOnly

/-- The flags of a file, of which only the sticky bit is shown. The letter is small where the
others can execute. -/
def flags (status : AclStatus) : Text :=
  ['-', '-', if status.otherCanExecute then 't' else 'T']

/-- The lines that show a file. -/
def lines (status : AclStatus) (path : Path) : List Text :=
  ["# file: ".toList ++ path.text, "# owner: ".toList ++ status.owner,
      "# group: ".toList ++ status.group] ++
    (if status.sticky then ["# flags: ".toList ++ status.flags] else []) ++
    status.acl.map Entry.text

end AclStatus

end PosixAcl
