import PosixAcl.Permission

/-!
# Entries of an access control list

An entry grants a permission to a subject. The subject is a kind with a name, where the empty name
stands for the owner of the file or for its group, and it counts either for access to the file
itself or as a default for the files that will be made in a directory.
-/

namespace PosixAcl

/-- The kinds of subject, in the order in which entries are listed. -/
inductive Kind where
  /-- The owner, or a named user. -/
  | user
  /-- The owning group, or a named group. -/
  | group
  /-- The upper bound of what named users and all groups are granted. -/
  | mask
  /-- Everybody else. -/
  | other
deriving DecidableEq, Repr

namespace Kind

/-- All kinds, in order. -/
def all : List Kind := [.user, .group, .mask, .other]

/-- The kinds that correspond to the permission bits of a file. -/
def base : List Kind := [.user, .group, .other]

/-- The lower case name of a kind. -/
def name : Kind → Text
  | .user => ['u', 's', 'e', 'r']
  | .group => ['g', 'r', 'o', 'u', 'p']
  | .mask => ['m', 'a', 's', 'k']
  | .other => ['o', 't', 'h', 'e', 'r']

/-- The kind with the given name, in which the case of ASCII letters does not matter. -/
def ofName? (s : Text) : Option Kind :=
  all.find? fun kind => kind.name = s.map Char.toLower

/-- The place of a kind in the order of entries. -/
def rank : Kind → Nat
  | .user => 0
  | .group => 1
  | .mask => 2
  | .other => 3

end Kind

/-- What an entry governs. -/
inductive Scope where
  /-- Access to the file itself. -/
  | access
  /-- The access that files made in the directory start with. -/
  | default
deriving DecidableEq, Repr

namespace Scope

/-- Both scopes, in the order in which entries are listed. -/
def all : List Scope := [.access, .default]

/-- The word that marks an entry of the default scope. -/
def defaultToken : Text := ['d', 'e', 'f', 'a', 'u', 'l', 't']

/-- The name of a scope. -/
def name : Scope → Text
  | .access => ['a', 'c', 'c', 'e', 's', 's']
  | .default => defaultToken

/-- The place of a scope in the order of entries. -/
def rank : Scope → Nat
  | .access => 0
  | .default => 1

end Scope

/-- What identifies an entry within a list: everything but its permission. -/
structure Key where
  /-- What the entry governs. -/
  scope : Scope
  /-- The kind of its subject. -/
  kind : Kind
  /-- The name of its subject, empty for the owner, the owning group, the mask and the others. -/
  name : Text
deriving DecidableEq, Repr

/-- The numbers by which keys are ordered lexicographically: scope, kind and the code points of the
name. A name ends with a zero, below every character, so that a name comes before its
extensions. -/
def Key.order (key : Key) : List Nat :=
  key.scope.rank :: key.kind.rank :: (key.name.map (·.toNat + 1) ++ [0])

/-- Keys are ordered by scope, kind and name. -/
instance : Ord Key := ⟨compareOn Key.order⟩

/-- One entry of an access control list. -/
structure Entry where
  /-- What the entry governs. -/
  scope : Scope := .access
  /-- The kind of its subject. -/
  kind : Kind
  /-- The name of its subject, empty for the unnamed entry of its kind. -/
  name : Text := []
  /-- The rights that it grants. -/
  permission : Permission := .empty
deriving DecidableEq, Repr

namespace Entry

/-- What identifies the entry within a list. -/
def key (e : Entry) : Key := ⟨e.scope, e.kind, e.name⟩

/-- Whether the entry is the unnamed one of its kind. -/
def isUnnamed (e : Entry) : Bool := e.name.isEmpty

/-- Whether the entry is one of the three that correspond to the permission bits of the file. -/
def isBase (e : Entry) : Bool :=
  e.scope = .access && e.isUnnamed && e.kind ≠ .mask

/-- The entry moved to another scope. -/
def withScope (e : Entry) (scope : Scope) : Entry := { e with scope }

/-- The numbers by which entries are ordered lexicographically: those of the key, then the
permission. -/
def order (e : Entry) : List Nat :=
  e.key.order ++ [e.permission.toOctal]

/-- Entries are ordered by scope, kind, name and permission. -/
instance : Ord Entry := ⟨compareOn Entry.order⟩

/-- The written form of an entry: its kind, name and permission between colons, after the word for
the default scope if it belongs to that scope. -/
def text (e : Entry) : Text :=
  match e.scope with
  | .access => joinFields ':' [e.kind.name, e.name, e.permission.symbol]
  | .default => joinFields ':' [Scope.defaultToken, e.kind.name, e.name, e.permission.symbol]

end Entry

end PosixAcl
