import PosixAcl.Text.Fields

/-!
# Permissions

A permission is a set of the three rights to read, to write and to execute. It is written with
three characters and also as an octal digit.
-/

namespace PosixAcl

/-- A set of rights on a file. -/
structure Permission where
  /-- The right to read. -/
  read : Bool
  /-- The right to write. -/
  write : Bool
  /-- The right to execute a file or to search a directory. -/
  execute : Bool
deriving DecidableEq, Repr

namespace Permission

/-- The permission without any right. -/
def empty : Permission := ⟨false, false, false⟩

/-- The right to execute alone. -/
def executeOnly : Permission := ⟨false, false, true⟩

/-- The permission of an octal digit, in which reading counts four, writing two and executing one.
All but the lowest three bits of the number are ignored. -/
def ofOctal (digit : Nat) : Permission :=
  ⟨digit / 4 % 2 == 1, digit / 2 % 2 == 1, digit % 2 == 1⟩

/-- The octal digit of a permission. -/
def toOctal (p : Permission) : Nat :=
  4 * p.read.toNat + 2 * p.write.toNat + p.execute.toNat

/-- The three characters of a permission, with a dash in the place of a missing right. -/
def symbol (p : Permission) : Text :=
  [if p.read then 'r' else '-', if p.write then 'w' else '-', if p.execute then 'x' else '-']

/-- Reads one character of a symbol: the letter of a right, or a dash. -/
def right? (letter c : Char) : Option Bool :=
  if c = letter then some true else if c = '-' then some false else none

/-- The permission with the given symbol. Letters are lower case and in the order of `symbol`. -/
def ofSymbol? : Text → Option Permission
  | [r, w, x] =>
    match right? 'r' r, right? 'w' w, right? 'x' x with
    | some read, some write, some execute => some ⟨read, write, execute⟩
    | _, _, _ => none
  | _ => none

/-- Whether a permission has every right of another one. -/
def implies (p q : Permission) : Bool :=
  (p.read || !q.read) && (p.write || !q.write) && (p.execute || !q.execute)

/-- The rights that are in at least one of two permissions. -/
def union (p q : Permission) : Permission :=
  ⟨p.read || q.read, p.write || q.write, p.execute || q.execute⟩

/-- Permissions are ordered by their octal digits. -/
instance : Ord Permission := ⟨compareOn toOctal⟩

/-- The octal digit determines the permission. -/
theorem ofOctal_toOctal (p : Permission) : ofOctal p.toOctal = p := by
  rcases p with ⟨_ | _, _ | _, _ | _⟩ <;> rfl

/-- The symbol of a permission reads back as that permission. -/
theorem ofSymbol?_symbol (p : Permission) : ofSymbol? p.symbol = some p := by
  rcases p with ⟨_ | _, _ | _, _ | _⟩ <;> rfl

end Permission

end PosixAcl
