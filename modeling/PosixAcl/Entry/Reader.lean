import PosixAcl.Entry.Basic
import PosixAcl.Text.Blank

/-!
# Reading entries

An entry is written as three fields between colons, or as four fields of which the first is the
word `default`. A specification is a list of entries between commas. White space around an entry is
ignored, and so are empty places between commas, but at least one entry must remain.
-/

namespace PosixAcl

/-- What is wrong with a written entry. -/
inductive SpecFault where
  /-- It has the wrong number of fields or an unknown scope, or there is no entry at all. -/
  | malformed
  /-- Its kind is not known. -/
  | unknownKind
  /-- Its permission is not the symbol of one. -/
  | unknownPermission
deriving DecidableEq, Repr

/-- A specification that cannot be read. -/
structure SpecError where
  /-- What is wrong. -/
  fault : SpecFault
  /-- The entry that is wrong, or the whole specification if it has no entry. -/
  fragment : Text
deriving DecidableEq, Repr

/-- The text that reports the error. -/
def SpecError.message (error : SpecError) : Text :=
  match error.fault with
  | .malformed => "Invalid <aclSpec> : ".toList ++ error.fragment
  | .unknownKind => "Invalid type of acl in <aclSpec> :".toList ++ error.fragment
  | .unknownPermission => "Invalid permission in <aclSpec> : ".toList ++ error.fragment

namespace Entry

/-- The entry with the given scope and the written kind, name and permission. The kind is looked at
before the permission. -/
def ofFields (scope : Scope) (kind name permission : Text) : Except SpecFault Entry :=
  match Kind.ofName? kind with
  | none => .error .unknownKind
  | some kind =>
    match Permission.ofSymbol? permission with
    | none => .error .unknownPermission
    | some permission => .ok { scope, kind, name, permission }

/-- Reads one entry. Nothing is trimmed, and a comma is an ordinary character of a name. -/
def read (s : Text) : Except SpecError Entry :=
  let result :=
    match fields ':' s with
    | [kind, name, permission] => ofFields .access kind name permission
    | [scope, kind, name, permission] =>
      if scope = Scope.defaultToken then ofFields .default kind name permission
      else .error .malformed
    | _ => .error .malformed
  result.mapError fun fault => ⟨fault, s⟩

end Entry

/-- The places of a specification that hold an entry: what stands between commas, trimmed, if
anything is left. -/
def segments (spec : Text) : List Text :=
  ((fields ',' spec).map trim).filter (!·.isEmpty)

/-- Reads a specification. The entries keep their order and are not compared with each other. The
error is that of the first entry that cannot be read. -/
def readSpec (spec : Text) : Except SpecError (List Entry) :=
  match segments spec with
  | [] => .error ⟨.malformed, spec⟩
  | found => found.mapM Entry.read

end PosixAcl
