import PosixAcl.Store.Path

/-!
# Trees of files as ordered maps

The files of a tree, each under the list of names that leads to it from the root. The map is a list
in ascending order of these lists. Names are compared one after the other, so a file comes before
everything below it.
-/

namespace PosixAcl

/-- The files of a tree under the names that lead to them, in ascending order. -/
abbrev Tree (α : Type) := List (List Name × α)

/-- The numbers by which lists of names are ordered lexicographically. -/
def namesOrder (names : List Name) : List (List Nat) :=
  names.map Name.order

namespace Tree

variable {α : Type}

/-- The file under the given names. -/
def get? (tree : Tree α) (names : List Name) : Option α :=
  (List.find? (·.1 = names) tree).map (·.2)

/-- Adds a file in its place. -/
def insert (names : List Name) (file : α) : Tree α → Tree α
  | [] => [(names, file)]
  | entry :: rest =>
    if namesOrder entry.1 < namesOrder names then entry :: insert names file rest
    else (names, file) :: entry :: rest

/-- Puts something else in the place of the file under the given names. -/
def set (tree : Tree α) (names : List Name) (file : α) : Tree α :=
  tree.map fun entry => if entry.1 = names then (names, file) else entry

/-- The files whose names are those of a directory and one more. -/
def childrenOf (tree : Tree α) (directory : List Name) : Tree α :=
  tree.filter fun entry => !entry.1.isEmpty && entry.1.dropLast = directory

end Tree

end PosixAcl
