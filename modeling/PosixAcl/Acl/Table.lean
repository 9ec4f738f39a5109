import PosixAcl.Entry.Basic

/-!
# Access control lists as tables

A list of entries is also a table from keys to permissions. Read as a table, a later entry with
the same key wins. The operations below that build a list keep it in the order of its keys, with
one entry for each key.
-/

namespace PosixAcl

/-- An access control list: entries in the order in which they are stored. -/
abbrev Acl := List Entry

namespace Acl

/-- Puts an entry before the first entry that is not below it. -/
def insertSorted (e : Entry) : Acl → Acl
  | [] => [e]
  | f :: rest => if f.order < e.order then f :: insertSorted e rest else e :: f :: rest

/-- The entries of a list in order, repeated ones included. -/
def sort (acl : Acl) : Acl :=
  acl.foldr insertSorted []

/-- The permission that a list gives to a key. -/
def get? (acl : Acl) (key : Key) : Option Permission :=
  (acl.reverse.find? (·.key = key)).map (·.permission)

/-- Whether a list has an entry with the given key. -/
def hasKey (acl : Acl) (key : Key) : Bool :=
  acl.any (·.key = key)

/-- Whether a list has an entry of the given scope. -/
def hasScope (acl : Acl) (scope : Scope) : Bool :=
  acl.any (·.scope = scope)

/-- Whether a list has an entry of the default scope. -/
def hasDefault (acl : Acl) : Bool :=
  acl.hasScope .default

/-- Puts an entry in its place in a list that is in the order of its keys. It replaces the entry
with the same key. -/
def insert (e : Entry) : Acl → Acl
  | [] => [e]
  | f :: rest =>
    if f.key = e.key then e :: rest
    else if f.key.order < e.key.order then f :: insert e rest
    else e :: f :: rest

/-- Puts several entries in their places, the first one first. -/
def insertAll (acl : Acl) (entries : List Entry) : Acl :=
  entries.foldl (fun table e => table.insert e) acl

/-- The table of a list: one entry for each key, in order. -/
def ofEntries (entries : List Entry) : Acl :=
  insertAll [] entries

/-- The list without the entries whose keys occur in another list. -/
def eraseAll (acl : Acl) (entries : List Entry) : Acl :=
  acl.filter fun e => !entries.any (·.key = e.key)

end Acl

end PosixAcl
