import PosixAcl.Proofs.Namespace.Reachable

/-!
# The effects of single calls

What a single call does to a namespace, and when it fails. A call that fails does
nothing. A file that is made is the only one that is added, and a change concerns
the list of one file. This holds in every state, reached or not.
-/

namespace PosixAcl.Namespace

variable {ns : Namespace} {path : Path}

/-! ## When calls fail -/

/-- The acting user may change a file, as its owner, as the superuser, or as nobody in
particular. -/
def Allows (ns : Namespace) (node : Node) : Prop :=
  ∀ user, ns.caller = some user → user = superuser ∨ user = node.owner

/-- Why a change of a file is refused. The acting user is asked for first, then the rules of lists,
and at last whether the file can have default entries. -/
inductive EditRefused (ns : Namespace) (what : Change) (node : Node) : StoreError.Cause → Prop where
  /-- The acting user is neither the superuser nor the owner. -/
  | foreign {user : Text} (hcaller : ns.caller = some user) (hroot : user ≠ superuser)
      (howner : user ≠ node.owner) : EditRefused ns what node .permissionDenied
  /-- The change would break a rule. -/
  | rule {rule : AclError} (hallowed : ns.Allows node) (hrule : what.apply node.acl = .error rule) :
      EditRefused ns what node (.invalidAcl rule)
  /-- The change would give default entries to something other than a directory. -/
  | default {acl : Acl} (hallowed : ns.Allows node) (hacl : what.apply node.acl = .ok acl)
      (hfile : node.directory = false) (hdefault : acl.hasDefault = true) :
      EditRefused ns what node (.invalidAcl .defaultAclOnFile)

/-- Why a call for a change fails. The failure names the place of the file. -/
inductive ChangeRefused (ns : Namespace) (path : Path) (what : Change) : StoreError → Prop where
  /-- There is no such file. -/
  | missing (hmissing : ns.find? path.location = none) :
      ChangeRefused ns path what ⟨path.location.path, .notFound⟩
  /-- The change of the file is refused. -/
  | edit {node : Node} {cause : StoreError.Cause} (hfound : ns.find? path.location = some node)
      (hrefused : ns.EditRefused what node cause) :
      ChangeRefused ns path what ⟨path.location.path, cause⟩

/-- Why a file cannot be made. The failure names the place of the file if it is taken or has no
parent, and otherwise that of the parent. -/
inductive CreateRefused (ns : Namespace) (path : Path) : StoreError → Prop where
  /-- There is already a file. -/
  | taken {node : Node} (hfound : ns.find? path.location = some node) :
      CreateRefused ns path ⟨path.location.path, .system .alreadyExists⟩
  /-- No name is left of the path, so there is no parent. -/
  | unnamed (hfree : ns.find? path.location = none) (hnames : path.location.names = []) :
      CreateRefused ns path ⟨path.location.path, .notFound⟩
  /-- There is no parent. -/
  | orphan {up : Location} (hfree : ns.find? path.location = none)
      (hup : path.location.parent? = some up) (hmissing : ns.find? up = none) :
      CreateRefused ns path ⟨up.path, .notFound⟩
  /-- The parent is not a directory. -/
  | notDirectory {up : Location} {parent : Node} (hfree : ns.find? path.location = none)
      (hup : path.location.parent? = some up) (hparent : ns.find? up = some parent)
      (hfile : parent.directory = false) : CreateRefused ns path ⟨up.path, .notADirectory⟩

/-- Whether the acting user may change a file. -/
theorem mayChange_iff {node : Node} : ns.mayChange node = true ↔ ns.Allows node := by
  unfold mayChange Allows
  cases ns.caller with
  | none => simp
  | some user => simp

/-- The acting user may not change a file exactly if it is the file of somebody else. -/
theorem not_allows_iff {node : Node} :
    ¬ ns.Allows node ↔ ∃ user, ns.caller = some user ∧ user ≠ superuser ∧ user ≠ node.owner := by
  simp [Allows]

/-- A change of a file fails exactly for the first reason that applies. -/
theorem edit_eq_error_iff {what : Change} {node : Node} {cause : StoreError.Cause} :
    ns.edit what node = .error cause ↔ ns.EditRefused what node cause := by
  constructor
  · intro h
    unfold edit at h
    by_cases hmay : ns.mayChange node = true
    · have hallowed := mayChange_iff.mp hmay
      rw [if_pos hmay] at h
      cases happly : what.apply node.acl with
      | error rule =>
        simp only [happly] at h
        obtain rfl := Except.error.inj h
        exact .rule hallowed happly
      | ok acl =>
        simp only [happly] at h
        split at h
        · rename_i hrefused
          obtain rfl := Except.error.inj h
          obtain ⟨hfile, hdefault⟩ : node.directory = false ∧ acl.hasDefault = true := by
            simpa using hrefused
          exact .default hallowed happly hfile hdefault
        · cases h
    · rw [if_neg hmay] at h
      obtain rfl := Except.error.inj h
      obtain ⟨user, hcaller, hroot, howner⟩ := not_allows_iff.mp (mt mayChange_iff.mpr hmay)
      exact .foreign hcaller hroot howner
  · intro h
    cases h with
    | foreign hcaller hroot howner =>
      have hforeign := not_allows_iff.mpr ⟨_, hcaller, hroot, howner⟩
      simp [edit, mt mayChange_iff.mp hforeign]
    | rule hallowed hrule => simp [edit, mayChange_iff.mpr hallowed, hrule]
    | default hallowed hacl hfile hdefault =>
      simp [edit, mayChange_iff.mpr hallowed, hacl, hfile, hdefault]

/-- A call for a change fails exactly for the first reason that applies. -/
theorem change_eq_error_iff {what : Change} {error : StoreError} :
    ns.change path what = .error error ↔ ns.ChangeRefused path what error := by
  rw [change_eq]
  constructor
  · intro h
    cases hfind : ns.find? path.location with
    | none =>
      simp only [hfind] at h
      obtain rfl := Except.error.inj h
      exact .missing hfind
    | some node =>
      simp only [hfind] at h
      cases hedit : ns.edit what node with
      | error cause =>
        simp only [hedit] at h
        obtain rfl := Except.error.inj h
        exact .edit hfind (edit_eq_error_iff.mp hedit)
      | ok acl =>
        simp only [hedit] at h
        cases h
  · intro h
    cases h with
    | missing hmissing => simp only [hmissing]
    | edit hfound hrefused => simp only [hfound, edit_eq_error_iff.mpr hrefused]

/-- A file cannot be made exactly for the first reason that applies. -/
theorem create_eq_error_iff {directory : Bool} {owner group : Text} {mode : Nat}
    {error : StoreError} :
    ns.create path directory owner group mode = .error error ↔ ns.CreateRefused path error := by
  constructor
  · intro h
    simp only [create] at h
    cases hfind : ns.find? path.location with
    | some node =>
      simp only [hfind] at h
      obtain rfl := Except.error.inj h
      exact .taken hfind
    | none =>
      simp only [hfind] at h
      cases hup : path.location.parent? with
      | none =>
        simp only [hup] at h
        obtain rfl := Except.error.inj h
        exact .unnamed hfind (by simpa [Location.parent?] using hup)
      | some up =>
        simp only [hup] at h
        cases hparent : ns.find? up with
        | none =>
          simp only [hparent] at h
          obtain rfl := Except.error.inj h
          exact .orphan hfind hup hparent
        | some parent =>
          simp only [hparent] at h
          split at h
          · cases h
          · rename_i hfile
            obtain rfl := Except.error.inj h
            exact .notDirectory hfind hup hparent (by simpa using hfile)
  · intro h
    cases h with
    | taken hfound =>
      simp only [create, hfound]
      rfl
    | unnamed hfree hnames => simp [create, hfree, Location.parent?, hnames]
    | orphan hfree hup hmissing => simp only [create, hfree, hup, hmissing]
    | notDirectory hfree hup hparent hfile => simp [create, hfree, hup, hparent, hfile]

/-! ## What calls do -/

/-- A namespace differs from an earlier one by a file that was added at a location. -/
structure Adds (ns made : Namespace) (location : Location) (node : Node) : Prop where
  /-- There is one more file, under the names of the location. -/
  nodes : made.nodes.Perm ((location.names, node) :: ns.nodes)
  /-- The new file is found at the location, and the others are found as before. -/
  find? : ∀ other, made.find? other = if other = location then some node else ns.find? other
  /-- The acting user is the same. -/
  caller : made.caller = ns.caller

/-- A namespace differs from an earlier one by the list of the file at a location. -/
structure Relists (ns changed : Namespace) (location : Location) (acl : Acl) : Prop where
  /-- There are the same files. -/
  names : changed.nodes.map (·.1) = ns.nodes.map (·.1)
  /-- The file at the location is found with its new list, and the others are found as before. -/
  find? : ∀ other, changed.find? other =
    if other = location then (ns.find? other).map ({ · with acl }) else ns.find? other
  /-- The acting user is the same. -/
  caller : changed.caller = ns.caller

/-- If the files differ under the names of one absolute location only, so does what is found. -/
theorem find?_eq_of_get? {later : Namespace} {location : Location}
    (habsolute : location.absolute = true) {new : Option Node}
    (hget : ∀ names, later.nodes.get? names =
      if names = location.names then new else ns.nodes.get? names) (other : Location) :
    later.find? other = if other = location then new else ns.find? other := by
  obtain ⟨absolute, names⟩ := location
  obtain rfl : absolute = true := habsolute
  obtain ⟨absolute, others⟩ := other
  cases absolute with
  | true => simp [find?, hget]
  | false => simp [find?]

/-- Making a file adds it with the list that it inherits from its directory, and changes no
other. -/
theorem create_adds_inherited {directory : Bool} {owner group : Text} {mode : Nat}
    {made : Namespace} (hok : ns.create path directory owner group mode = .ok made) :
    ∃ up parent, path.location.parent? = some up ∧ ns.find? up = some parent ∧
      parent.directory = true ∧
      Adds ns made path.location
        ⟨directory, owner, group, isSticky mode, inheritedAcl parent.acl directory mode⟩ := by
  obtain ⟨habsolute, hnames, hnew, parent, hparent, hdirectory, rfl⟩ := create_eq_ok hok
  refine ⟨{ path.location with names := path.location.names.dropLast }, parent,
    by simp [Location.parent?, hnames], find?_eq_some_iff.mpr ⟨habsolute, hparent⟩, hdirectory,
    Tree.perm_insert _ _ _, ?_, rfl⟩
  exact find?_eq_of_get? habsolute (Tree.get?_insert hnew _)

/-- Making a file adds it and changes no other. -/
theorem create_adds {directory : Bool} {owner group : Text} {mode : Nat} {made : Namespace}
    (hok : ns.create path directory owner group mode = .ok made) :
    ∃ acl, Adds ns made path.location ⟨directory, owner, group, isSticky mode, acl⟩ := by
  obtain ⟨-, parent, -, -, -, hadds⟩ := create_adds_inherited hok
  exact ⟨inheritedAcl parent.acl directory mode, hadds⟩

/-- Making a file leaves what is found in other places. -/
theorem find?_create_of_ne {directory : Bool} {owner group : Text} {mode : Nat} {made : Namespace}
    (hok : ns.create path directory owner group mode = .ok made) {location : Location}
    (hne : location ≠ path.location) : made.find? location = ns.find? location := by
  obtain ⟨acl, hadds⟩ := create_adds hok
  rw [hadds.find?, if_neg hne]

/-- Making a file leaves all files that are there. -/
theorem find?_create_of_some {directory : Bool} {owner group : Text} {mode : Nat}
    {made : Namespace} (hok : ns.create path directory owner group mode = .ok made)
    {location : Location} {node : Node} (hnode : ns.find? location = some node) :
    made.find? location = some node := by
  rw [find?_create_of_ne hok, hnode]
  rintro rfl
  have htaken : ns.create path directory owner group mode = .error _ :=
    create_eq_error_iff.mpr (.taken hnode)
  rw [hok] at htaken
  cases htaken

/-- A change gives one file another list and changes nothing else. -/
theorem change_relists {what : Change} {changed : Namespace}
    (hok : ns.change path what = .ok changed) :
    ∃ node acl, ns.find? path.location = some node ∧ what.apply node.acl = .ok acl ∧
      Relists ns changed path.location acl := by
  obtain ⟨node, acl, hfind, hedit, rfl⟩ := change_eq_ok_iff.mp hok
  obtain ⟨habsolute, hget⟩ := find?_eq_some_iff.mp hfind
  have hset : ∀ names, (ns.withAcl path.location.names node acl).nodes.get? names =
      if names = path.location.names then some { node with acl } else ns.nodes.get? names := by
    intro names
    rw [withAcl, Tree.get?_set, hget]
    rfl
  refine ⟨node, acl, hfind, (edit_eq_ok_iff.mp hedit).2.1, ?_, fun other => ?_, rfl⟩
  · rw [withAcl, Tree.set, List.map_map]
    refine List.map_congr_left fun entry _ => ?_
    simp only [Function.comp_apply]
    split
    · rename_i hnames
      exact hnames.symm
    · rfl
  · rw [find?_eq_of_get? habsolute hset other]
    split
    · rename_i hother
      rw [hother, hfind]
      rfl
    · rfl

/-- Changing a list leaves what is found in other places. -/
theorem find?_change_of_ne {what : Change} {changed : Namespace}
    (hok : ns.change path what = .ok changed) {location : Location}
    (hne : location ≠ path.location) : changed.find? location = ns.find? location := by
  obtain ⟨node, acl, -, -, hrelists⟩ := change_relists hok
  rw [hrelists.find?, if_neg hne]

/-- A call that fails or only asks does nothing. -/
theorem perform_eq_self {call : Call}
    (h : (∀ path what, call ≠ .change path what) ∨
      ∃ error, (backend.perform call ns).1 = .error error) :
    (backend.perform call ns).2 = ns := by
  cases call with
  | fileStatus path | children path | aclStatus path => rfl
  | change path what =>
    obtain ⟨error, herror⟩ := h.resolve_left fun hasks => hasks path what rfl
    simp only [backend] at herror ⊢
    cases hchange : ns.change path what with
    | error error => rfl
    | ok changed =>
      rw [hchange] at herror
      cases herror

end PosixAcl.Namespace
