import PosixAcl.Host.Basic
import PosixAcl.Store.Backend

/-!
# A host as a store

On a host an access control list is no more than the permission bits. It is read from them, and a
change can be stored only if its result has the three base entries and nothing else. The other mode
bits stay as they are.

Symbolic links count as files that are no directories, so no walk goes through one. The status of a
file and its changes concern what a link leads to.
-/

namespace PosixAcl

/-- The name of the user or the group with the given number. Where none is known, or an empty one,
it is the number itself. -/
def accountName (accounts : List (Nat × Bytes)) (id : Nat) : Text :=
  match accounts.find? (·.1 = id) with
  | none => Nat.toDigits 10 id
  | some (_, name) => if name.isEmpty then Nat.toDigits 10 id else Utf8.decodeLossy name

namespace Host

/-- The twelve mode bits with other permission bits. -/
def withPermissionBits (mode bits : Nat) : Nat :=
  mode / 512 % 8 * 512 + bits

/-- The mode that stores a list in the place of the permission bits, if it can be stored. -/
def storedMode (mode : Nat) (acl : Acl) : Except Unsupported Nat :=
  if acl.hasDefault then .error .defaultEntries
  else
    match acl.permissionBits? with
    | none => .error .extendedEntries
    | some bits => .ok (withPermissionBits mode bits)

/-- Whether a file is a directory. -/
def isDirectory (inode : Inode) : Bool :=
  inode.kind = .directory

/-- The type of a file, where links are not followed. -/
def fileStatus (host : Host) (path : Path) : Except StoreError FileStatus :=
  match host.locate false path with
  | .error error => .error (.ofSystem path error)
  | .ok (_, inode) => .ok ⟨path, isDirectory inode⟩

/-- The children of a directory, in the order of their names. -/
def children (host : Host) (path : Path) : Except StoreError (List FileStatus) :=
  match host.locate true path with
  | .error error => .error (.ofSystem path error)
  | .ok (names, inode) =>
    if isDirectory inode then
      .ok ((host.inodes.childrenOf names).map fun entry =>
        ⟨path.child (entry.1.getLast?.getD []), isDirectory entry.2⟩)
    else .error ⟨path, .notADirectory⟩

/-- Ownership and permissions of a file. -/
def aclStatus (host : Host) (path : Path) : Except StoreError AclStatus :=
  match host.locate true path with
  | .error error => .error (.ofSystem path error)
  | .ok (_, inode) =>
    .ok ⟨accountName host.users inode.uid, accountName host.groups inode.gid, isSticky inode.mode,
      .ofMode inode.mode⟩

/-- The mode bits of a file. -/
def mode? (host : Host) (path : Path) : Option Nat :=
  match host.locate true path with
  | .error _ => none
  | .ok (_, inode) => some (inode.mode % 4096)

/-- Changes the permissions of a file. -/
def change (host : Host) (path : Path) (change : Change) : Except StoreError Host :=
  match host.locate true path with
  | .error error => .error (.ofSystem path error)
  | .ok (names, inode) =>
    match change.apply (.ofMode inode.mode) with
    | .error rule => .error ⟨path, .invalidAcl rule⟩
    | .ok acl =>
      if !isDirectory inode && acl.hasDefault then
        .error ⟨path, .invalidAcl .defaultAclOnFile⟩
      else
        match storedMode inode.mode acl with
        | .error feature => .error ⟨path, .unsupported feature⟩
        | .ok mode => .ok { host with inodes := host.inodes.set names { inode with mode } }

/-- A host as a store. A walk meets every file at most once, and a listing that fails once. -/
def backend : Backend Host where
  perform call host :=
    match call with
    | .fileStatus path => (host.fileStatus path, host)
    | .children path => (host.children path, host)
    | .aclStatus path => (host.aclStatus path, host)
    | .change path change =>
      match host.change path change with
      | .error error => (.error error, host)
      | .ok changed => (.ok (), changed)
  walkBound host := 2 * host.inodes.length

end Host

end PosixAcl
