import PosixAcl.Acl.Mode
import PosixAcl.Store.Backend
import PosixAcl.Store.Tree

/-!
# A tree of files in memory

A namespace holds directories and files with their owners, groups, sticky bits and full access
control lists. It begins with the root directory alone. A file is made in an existing directory and
takes over its default entries. Only the acting user's own files can be changed, unless the acting
user is the superuser or nobody in particular.

Files are found by location, so the spelling of a path does not matter. Only locations that start
at the root are ever stored.
-/

namespace PosixAcl

/-- The user who may change every file. -/
def superuser : Text := ['r', 'o', 'o', 't']

/-- One file or directory of a namespace. -/
structure Node where
  /-- Whether it is a directory. -/
  directory : Bool
  /-- The name of the owner. -/
  owner : Text
  /-- The name of the owning group. -/
  group : Text
  /-- Whether the sticky bit is set. -/
  sticky : Bool
  /-- The access control list. -/
  acl : Acl
deriving DecidableEq, Repr

/-- A tree of files in memory, and who acts on it. -/
structure Namespace where
  /-- The files. -/
  nodes : Tree Node
  /-- The acting user, or nobody in particular. -/
  caller : Option Text
deriving DecidableEq, Repr

namespace Namespace

/-- The root directory of a new namespace. -/
def rootNode : Node where
  directory := true
  owner := superuser
  group := superuser
  sticky := false
  acl := .ofMode 0o755

/-- The namespace with a root directory only, in which everything may be changed. -/
def initial : Namespace := ⟨[([], rootNode)], none⟩

/-- The namespace on which a user acts. -/
def withCaller (ns : Namespace) (user : Text) : Namespace :=
  { ns with caller := some user }

/-- The file at a location. -/
def find? (ns : Namespace) (location : Location) : Option Node :=
  if location.absolute then ns.nodes.get? location.names else none

/-- The list that a new file starts with. The default entries of its directory become its access
entries, and a directory also keeps them as they are. Without them the mode decides. -/
def inheritedAcl (parent : Acl) (directory : Bool) (mode : Nat) : Acl :=
  let inherited := parent.filter (·.scope = .default)
  if inherited.isEmpty then .ofMode mode
  else
    Acl.sort (inherited.map (·.withScope .access) ++ if directory then inherited else [])

/-- Makes a file or a directory. The place must be free, and its parent must be a directory. -/
def create (ns : Namespace) (path : Path) (directory : Bool) (owner group : Text) (mode : Nat) :
    Except StoreError Namespace :=
  let location := path.location
  match ns.find? location with
  | some _ => .error (.ofSystem location.path .alreadyExists)
  | none =>
    match location.parent? with
    | none => .error ⟨location.path, .notFound⟩
    | some parentLocation =>
      match ns.find? parentLocation with
      | none => .error ⟨parentLocation.path, .notFound⟩
      | some parent =>
        if parent.directory then
          let node : Node :=
            { directory, owner, group
              sticky := isSticky mode
              acl := inheritedAcl parent.acl directory mode }
          .ok { ns with nodes := ns.nodes.insert location.names node }
        else .error ⟨parentLocation.path, .notADirectory⟩

/-- Whether the acting user may change a file. -/
def mayChange (ns : Namespace) (node : Node) : Bool :=
  match ns.caller with
  | none => true
  | some user => user = superuser || user = node.owner

/-- Changes the access control list of a file. Default entries are refused on anything but a
directory. -/
def change (ns : Namespace) (path : Path) (change : Change) : Except StoreError Namespace :=
  let location := path.location
  let failure (cause : StoreError.Cause) : Except StoreError Namespace :=
    .error ⟨location.path, cause⟩
  match ns.find? location with
  | none => failure .notFound
  | some node =>
    if ns.mayChange node then
      match change.apply node.acl with
      | .error rule => failure (.invalidAcl rule)
      | .ok acl =>
        if !node.directory && acl.hasDefault then failure (.invalidAcl .defaultAclOnFile)
        else .ok { ns with nodes := ns.nodes.set location.names { node with acl } }
    else failure .permissionDenied

/-- The type of a file. -/
def fileStatus (ns : Namespace) (path : Path) : Except StoreError FileStatus :=
  let location := path.location
  match ns.find? location with
  | none => .error ⟨location.path, .notFound⟩
  | some node => .ok ⟨location.path, node.directory⟩

/-- The children of a directory, in order. -/
def children (ns : Namespace) (path : Path) : Except StoreError (List FileStatus) :=
  let location := path.location
  match ns.find? location with
  | none => .error ⟨location.path, .notFound⟩
  | some node =>
    if node.directory then
      .ok ((ns.nodes.childrenOf location.names).map fun entry =>
        ⟨(Location.mk true entry.1).path, entry.2.directory⟩)
    else .error ⟨location.path, .notADirectory⟩

/-- Ownership and access control list of a file. -/
def aclStatus (ns : Namespace) (path : Path) : Except StoreError AclStatus :=
  let location := path.location
  match ns.find? location with
  | none => .error ⟨location.path, .notFound⟩
  | some node => .ok ⟨node.owner, node.group, node.sticky, node.acl⟩

/-- A namespace as a store. A walk meets every file at most once, and a listing that fails once. -/
def backend : Backend Namespace where
  perform call ns :=
    match call with
    | .fileStatus path => (ns.fileStatus path, ns)
    | .children path => (ns.children path, ns)
    | .aclStatus path => (ns.aclStatus path, ns)
    | .change path change =>
      match ns.change path change with
      | .error error => (.error error, ns)
      | .ok changed => (.ok (), changed)
  walkBound ns := 2 * ns.nodes.length

end Namespace

end PosixAcl
