import PosixAcl.Acl.Mode
import PosixAcl.Store.Error
import PosixAcl.Store.Tree

/-!
# A host's files

A host holds directories, regular files and symbolic links under one root, each with a mode and
numeric owners. A path is resolved name by name from the root or from the working directory.
Symbolic links on the way are replaced by their targets, up to a fixed number of them. A link in
the last place is followed or not, as the caller wants.

Whoever resolves paths here is the superuser, so permissions never stand in the way.
-/

namespace PosixAcl

/-- The kinds of file on a host. -/
inductive FileKind where
  /-- A directory. -/
  | directory
  /-- A regular file. -/
  | regular
  /-- A symbolic link to another path. -/
  | link (target : Path)
deriving DecidableEq, Repr

/-- One file on a host. -/
structure Inode where
  /-- The kind of the file. -/
  kind : FileKind
  /-- The twelve mode bits. -/
  mode : Nat
  /-- The number of the owner. -/
  uid : Nat
  /-- The number of the owning group. -/
  gid : Nat
deriving DecidableEq, Repr

/-- The files of a host, the directory in which relative paths begin, and the accounts to which
files belong. -/
structure Host where
  /-- The files, under their names from the root. No name leads through a link. -/
  inodes : Tree Inode
  /-- The names of the working directory. -/
  workingDirectory : List Name
  /-- The names of the users that are known, under their numbers. -/
  users : List (Nat × Bytes)
  /-- The names of the groups that are known, under their numbers. -/
  groups : List (Nat × Bytes)
deriving DecidableEq, Repr

/-- The names that lead along a path. A slash at the end demands a directory, as a last component
`.` does. -/
def Path.components (p : Path) : List Name :=
  (fields slash p.bytes).filter (!·.isEmpty) ++
    if p.bytes.getLast? = some slash then [dot] else []

namespace Host

/-- The number of symbolic links that are followed for one path. -/
def maxLinks : Nat := 40

/-- The number of bytes that a path has to stay below. -/
def pathLimit : Nat := 4096

/-- The greatest number of bytes of a name. -/
def maxNameLength : Nat := 255

/-- A directory of the superuser that everybody may read. -/
def rootInode : Inode := ⟨.directory, 0o755, 0, 0⟩

/-- The name of the superuser and of its group. -/
def rootName : Bytes := [0x72, 0x6F, 0x6F, 0x74]

/-- A host with an empty working directory below its root, where only the superuser and its group
have names. -/
def initial : Host where
  inodes := [([], rootInode), ([[0x77, 0x6F, 0x72, 0x6B]], rootInode)]
  workingDirectory := [[0x77, 0x6F, 0x72, 0x6B]]
  users := [(0, rootName)]
  groups := [(0, rootName)]

/-- The kind of the file under the given names. -/
def kindAt (host : Host) (names : List Name) : Option FileKind :=
  (host.inodes.get? names).map Inode.kind

/-- Goes from a directory along some names, and gives the names from the root of the file that is
reached. Each name is looked up in a directory. A link in the last place is itself what is reached,
unless `followLast` is set. Any other link is handed on with the directory that holds it, its
target and the names that are left. -/
def descend (host : Host) (followLast : Bool)
    (onLink : List Name → Path → List Name → Except SystemError (List Name)) :
    List Name → List Name → Except SystemError (List Name)
  | current, [] => .ok current
  | current, name :: rest =>
    match host.kindAt current with
    | some .directory =>
      if name = dot then descend host followLast onLink current rest
      else if name = dotDot then descend host followLast onLink current.dropLast rest
      else if maxNameLength < name.length then .error .nameTooLong
      else
        let found := current ++ [name]
        match host.kindAt found with
        | none => .error .notFound
        | some (.link target) =>
          if rest.isEmpty && !followLast then .ok found else onLink current target rest
        | some _ => descend host followLast onLink found rest
    | _ => .error .notADirectory

/-- Goes along some names and follows at most the given number of links. A link leads on from the
root if its target is absolute, and otherwise from the directory that holds it. -/
def resolve (host : Host) (followLast : Bool) :
    Nat → List Name → List Name → Except SystemError (List Name)
  | 0 => descend host followLast fun _ _ _ => .error .tooManyLinks
  | links + 1 =>
    descend host followLast fun current target rest =>
      resolve host followLast links (if target.isAbsolute then [] else current)
        (target.components ++ rest)

/-- The file at a path, and the names that lead to it from the root without any link. -/
def locate (host : Host) (followLast : Bool) (path : Path) :
    Except SystemError (List Name × Inode) :=
  if path.bytes.contains 0 then .error .zeroByteInPath
  else if path.bytes.isEmpty then .error .notFound
  else if pathLimit ≤ path.bytes.length then .error .nameTooLong
  else
    match host.resolve followLast maxLinks
        (if path.isAbsolute then [] else host.workingDirectory) path.components with
    | .error error => .error error
    | .ok names =>
      match host.inodes.get? names with
      | none => .error .notFound
      | some inode => .ok (names, inode)

/-- Adds a file at a path whose last name is free in an existing directory. A slash at the end of
the path does not matter. -/
def add (host : Host) (path : Path) (inode : Inode) : Except SystemError Host :=
  let names := (fields slash path.bytes).filter (!·.isEmpty)
  match names.getLast? with
  | none => .error .alreadyExists
  | some name =>
    match host.resolve true maxLinks (if path.isAbsolute then [] else host.workingDirectory)
        names.dropLast with
    | .error error => .error error
    | .ok directory =>
      if host.kindAt directory ≠ some .directory then .error .notADirectory
      else if name = dot ∨ name = dotDot then .error .alreadyExists
      else if maxNameLength < name.length then .error .nameTooLong
      else
        match host.kindAt (directory ++ [name]) with
        | some _ => .error .alreadyExists
        | none => .ok { host with inodes := host.inodes.insert (directory ++ [name]) inode }

end Host

end PosixAcl
