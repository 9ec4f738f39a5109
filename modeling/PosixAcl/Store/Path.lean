import PosixAcl.Text.Utf8

/-!
# Paths

A path is a byte string as somebody spelled it. Its location is what is left of the spelling when
empty components and the component `.` are dropped: whether it starts at the root, and the names
that lead on from there. The component `..` is kept as a name. Locations are ordered name by name,
where `..` comes before every other name and other names are ordered by their bytes.
-/

namespace PosixAcl

/-- The byte that separates the components of a path. -/
def slash : UInt8 := 0x2F

/-- The name of one file in a directory. -/
abbrev Name := Bytes

/-- The component that stands for the directory itself. -/
def dot : Name := [0x2E]

/-- The component that names the parent of a directory. -/
def dotDot : Name := [0x2E, 0x2E]

/-- A path as it was spelled. -/
structure Path where
  /-- The bytes of the spelling. -/
  bytes : Bytes
deriving DecidableEq, Repr

namespace Path

/-- The text that shows a path. -/
def text (p : Path) : Text :=
  Utf8.decodeLossy p.bytes

/-- Whether a path starts at the root. -/
def isAbsolute (p : Path) : Bool :=
  p.bytes.head? = some slash

/-- The path of a file in a directory with the given path. A slash is put in between unless the
directory's path is empty or ends with one. -/
def child (directory : Path) (name : Name) : Path :=
  match directory.bytes.getLast? with
  | none => ⟨name⟩
  | some last =>
    if last = slash then ⟨directory.bytes ++ name⟩ else ⟨directory.bytes ++ slash :: name⟩

end Path

/-- A path without the accidents of its spelling. -/
structure Location where
  /-- Whether it starts at the root. -/
  absolute : Bool
  /-- The names that lead to it. -/
  names : List Name
deriving DecidableEq, Repr

namespace Location

/-- The location with no name, seen from the root. -/
def root : Location := ⟨true, []⟩

/-- The plain spelling of a location. -/
def path (l : Location) : Path :=
  ⟨(if l.absolute then [slash] else []) ++ joinFields slash l.names⟩

/-- The location without its last name. A location without names has no parent. -/
def parent? (l : Location) : Option Location :=
  if l.names.isEmpty then none else some { l with names := l.names.dropLast }

end Location

/-- The location of a path. -/
def Path.location (p : Path) : Location where
  absolute := p.isAbsolute
  names := (fields slash p.bytes).filter fun name => !name.isEmpty && name ≠ dot

/-- The numbers by which names are ordered lexicographically. -/
def Name.order (name : Name) : List Nat :=
  if name = dotDot then [0] else 1 :: name.map (·.toNat)

end PosixAcl
