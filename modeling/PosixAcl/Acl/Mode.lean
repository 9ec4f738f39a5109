import PosixAcl.Acl.Table

/-!
# Permission bits

The lowest nine bits of a file mode hold the permissions of the owner, of the owning group and of
the others. They correspond to an access control list with just these three entries.
-/

namespace PosixAcl

/-- The bit of a file mode that keeps the files in a directory from being removed by others. -/
def stickyBit : Nat := 0o1000

/-- Whether the sticky bit is set in a mode. -/
def isSticky (mode : Nat) : Bool :=
  mode / stickyBit % 2 == 1

namespace Acl

/-- The list with the three entries of a mode. Higher bits of the mode do not matter. -/
def ofMode (mode : Nat) : Acl :=
  [{ kind := .user, permission := .ofOctal (mode / 64) },
    { kind := .group, permission := .ofOctal (mode / 8) },
    { kind := .other, permission := .ofOctal mode }]

/-- The octal digit of the last entry of a kind. -/
def lastDigit? (acl : Acl) (kind : Kind) : Option Nat :=
  (acl.reverse.find? (·.kind = kind)).map (·.permission.toOctal)

/-- The permission bits of a list that has base entries only, at least one of each kind. Of several
entries of a kind the last one counts. -/
def permissionBits? (acl : Acl) : Option Nat :=
  if acl.all Entry.isBase then
    match acl.lastDigit? .user, acl.lastDigit? .group, acl.lastDigit? .other with
    | some user, some group, some other => some (64 * user + 8 * group + other)
    | _, _, _ => none
  else none

end Acl

end PosixAcl
