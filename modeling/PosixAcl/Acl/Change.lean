import PosixAcl.Acl.Table

/-!
# Changes of an access control list

Five changes turn a stored list into a new one: keeping the base entries only, dropping the default
entries, merging entries in, removing entries, and replacing the whole list. The last three take a
list of entries, and they complete and check their result:

* where there are default entries, a missing unnamed default entry is copied from the access entry
  of its kind;
* in each scope that the change touched, and for which no mask was given, the mask becomes the
  union of what the mask bounds, if the scope has named entries or a mask;
* masks and entries for the others have no name, no scope has more than `maxEntries` entries, and
  each scope in use has its three unnamed base entries.

Every result is in the order of entries.
-/

namespace PosixAcl

/-- The greatest number of entries in one scope. -/
def maxEntries : Nat := 32

/-- Why a change is refused. -/
inductive AclError where
  /-- The given entry repeats the key of an earlier one. -/
  | duplicateEntry (entry : Entry)
  /-- A mask or an entry for the others has a name. -/
  | namedEntryNotAllowed (entry : Entry)
  /-- A scope has too many entries. -/
  | tooManyEntries (scope : Scope) (count : Nat)
  /-- A scope lacks one of its three base entries. -/
  | missingBaseEntries (scope : Scope)
  /-- Something other than a directory would get default entries. -/
  | defaultAclOnFile
deriving DecidableEq, Repr

/-- The text that reports the error. -/
def AclError.message : AclError → Text
  | .duplicateEntry e =>
    "Invalid ACL: multiple entries with same scope, type and name: ".toList ++ e.text
  | .namedEntryNotAllowed e =>
    "Invalid ACL: this entry type must not have a name: ".toList ++ e.text
  | .tooManyEntries scope count =>
    "Invalid ACL: ".toList ++ scope.name ++ " ACL has ".toList ++ Nat.toDigits 10 count ++
      " entries, which exceeds maximum of ".toList ++ Nat.toDigits 10 maxEntries
  | .missingBaseEntries scope =>
    "Invalid ACL: the user, group and other entries are required in the ".toList ++ scope.name ++
      " ACL".toList
  | .defaultAclOnFile => "Invalid ACL: only directories may have a default ACL".toList

namespace Acl

/-- The base entries of a list. -/
def keepBase (acl : Acl) : Acl :=
  sort (acl.filter Entry.isBase)

/-- The access entries of a list. -/
def dropDefault (acl : Acl) : Acl :=
  sort (acl.filter (·.scope = .access))

/-- The first entry whose key occurs before it, where `seen` holds the keys of what came before. -/
def firstRepeatedAfter (seen : List Key) : List Entry → Option Entry
  | [] => none
  | e :: rest => if e.key ∈ seen then some e else firstRepeatedAfter (e.key :: seen) rest

/-- The first entry of a list that repeats the key of an earlier one. -/
def firstRepeated? (entries : List Entry) : Option Entry :=
  firstRepeatedAfter [] entries

/-- The default entries that a list lacks although it has default entries: copies of the unnamed
access entries of the base kinds. -/
def missingDefaults (acl : Acl) : List Entry :=
  if acl.hasDefault then
    Kind.base.filterMap fun kind =>
      if acl.hasKey ⟨.default, kind, []⟩ then none
      else
        (acl.get? ⟨.access, kind, []⟩).map fun permission =>
          { scope := .default, kind, permission }
  else []

/-- Whether an entry is one of those for which a scope needs a mask: a named user or group. -/
def isNamedSubject (e : Entry) : Bool :=
  (e.kind = .user || e.kind = .group) && !e.isUnnamed

/-- Whether a mask bounds an entry: it does so for all groups and for named users. -/
def isMasked (e : Entry) : Bool :=
  e.kind = .group || (e.kind = .user && !e.isUnnamed)

/-- The union of the permissions that the mask of a scope bounds. -/
def groupClass (acl : Acl) (scope : Scope) : Permission :=
  (acl.filter fun e => e.scope = scope && isMasked e).foldl
    (fun union e => union.union e.permission) .empty

/-- Whether a scope has a mask or an entry that needs one. -/
def usesMask (acl : Acl) (scope : Scope) : Bool :=
  (acl.any fun e => e.scope = scope && isNamedSubject e) || acl.hasKey ⟨scope, .mask, []⟩

/-- Recalculates the mask of a scope, if the scope uses one. -/
def refreshMask (acl : Acl) (scope : Scope) : Acl :=
  if acl.usesMask scope then
    acl.insert { scope, kind := .mask, permission := acl.groupClass scope }
  else acl

/-- Whether an entry has a name although its kind does not allow one. -/
def isMisnamed (e : Entry) : Bool :=
  !e.isUnnamed && (e.kind = .mask || e.kind = .other)

/-- The number of entries in a scope. -/
def count (acl : Acl) (scope : Scope) : Nat :=
  acl.countP (·.scope = scope)

/-- Whether a scope has its three unnamed base entries. -/
def hasBase (acl : Acl) (scope : Scope) : Bool :=
  Kind.base.all fun kind => acl.hasKey ⟨scope, kind, []⟩

/-- What is wrong with one scope of a list. The default scope may be empty. -/
def scopeError? (acl : Acl) (scope : Scope) : Option AclError :=
  if scope = .default ∧ acl.count scope = 0 then none
  else if maxEntries < acl.count scope then some (.tooManyEntries scope (acl.count scope))
  else if acl.hasBase scope then none
  else some (.missingBaseEntries scope)

/-- What is wrong with a list: its first misnamed entry, or else the first scope at fault. -/
def error? (acl : Acl) : Option AclError :=
  match acl.find? isMisnamed with
  | some e => some (.namedEntryNotAllowed e)
  | none => Scope.all.findSome? acl.scopeError?

/-- The list with the missing default entries and with fresh masks in the scopes that changed,
except where a mask was given. -/
def completed (acl : Acl) (changed given : Scope → Bool) : Acl :=
  let copies := acl.missingDefaults
  let stale scope := (changed scope || (scope = .default && !copies.isEmpty)) && !given scope
  Scope.all.foldl (fun table scope => if stale scope then table.refreshMask scope else table)
    (acl.insertAll copies)

/-- Completes a list and checks it. -/
def complete (acl : Acl) (changed given : Scope → Bool) : Except AclError Acl :=
  let result := acl.completed changed given
  match result.error? with
  | some error => .error error
  | none => .ok result

/-- Whether a list of entries gives a mask for a scope, under any name. -/
def givesMask (entries : List Entry) (scope : Scope) : Bool :=
  entries.any fun e => e.scope = scope && e.kind = .mask

/-- Merges entries into a list. They replace the entries with the same keys. A scope changes when
an entry is new in it or has another permission. -/
def merge (acl : Acl) (entries : List Entry) : Except AclError Acl :=
  match firstRepeated? entries with
  | some e => .error (.duplicateEntry e)
  | none =>
    let table := ofEntries acl
    complete (table.insertAll entries)
      (fun scope => entries.any fun e =>
        e.scope = scope && table.get? e.key ≠ some e.permission)
      (givesMask entries)

/-- Removes the entries whose keys occur in another list. A scope changes when one of its entries is
removed. -/
def remove (acl : Acl) (entries : List Entry) : Except AclError Acl :=
  let table := ofEntries acl
  complete (table.eraseAll entries)
    (fun scope => entries.any fun e => e.scope = scope && table.hasKey e.key)
    (fun _ => false)

/-- The list with the given entries only. Both scopes count as changed. -/
def replace (entries : List Entry) : Except AclError Acl :=
  match firstRepeated? entries with
  | some e => .error (.duplicateEntry e)
  | none => complete (ofEntries entries) (fun _ => true) (givesMask entries)

end Acl

/-- A change of an access control list. -/
inductive Change where
  /-- Keep the base entries only. -/
  | keepBase
  /-- Drop the default entries. -/
  | dropDefault
  /-- Merge entries in. -/
  | merge (entries : List Entry)
  /-- Remove the entries with the keys of these. -/
  | remove (entries : List Entry)
  /-- Replace the whole list. -/
  | replace (entries : List Entry)
deriving DecidableEq, Repr

/-- The list that a change makes of a stored list. -/
def Change.apply : Change → Acl → Except AclError Acl
  | .keepBase, acl => .ok acl.keepBase
  | .dropDefault, acl => .ok acl.dropDefault
  | .merge entries, acl => acl.merge entries
  | .remove entries, acl => acl.remove entries
  | .replace entries, _ => Acl.replace entries

end PosixAcl
