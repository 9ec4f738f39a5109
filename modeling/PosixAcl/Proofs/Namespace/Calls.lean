import PosixAcl.Namespace.Basic
import PosixAcl.Proofs.Store.Location
import PosixAcl.Proofs.Store.Tree

/-!
# Calls to a namespace

What a call does when it succeeds. A file is made at a free place in an existing
directory. A change concerns the list of one file, and whether it succeeds depends
on that file and on the acting user only.
-/

namespace PosixAcl.Namespace

/-- The list that a change gives to one file, or why the change is refused: the acting user may not
make it, it breaks a rule, or it would give default entries to something other than a directory. -/
def edit (ns : Namespace) (change : Change) (node : Node) : Except StoreError.Cause Acl :=
  if ns.mayChange node then
    match change.apply node.acl with
    | .error rule => .error (.invalidAcl rule)
    | .ok acl =>
      if !node.directory && acl.hasDefault then .error (.invalidAcl .defaultAclOnFile) else .ok acl
  else .error .permissionDenied

/-- A change that succeeds on a file gives the list that its rules make of the file's list, and no
default entries to anything but a directory. -/
theorem edit_eq_ok_iff {ns : Namespace} {change : Change} {node : Node} {acl : Acl} :
    ns.edit change node = .ok acl ↔
      ns.mayChange node = true ∧ change.apply node.acl = .ok acl ∧
        (node.directory = true ∨ acl.hasDefault = false) := by
  unfold edit
  by_cases hmay : ns.mayChange node = true
  · rw [if_pos hmay]
    cases happly : change.apply node.acl with
    | error rule => simp
    | ok found =>
      by_cases hrefused : (!node.directory && found.hasDefault) = true
      · simp only [hrefused, if_true, reduceCtorEq, Except.ok.injEq, false_iff]
        rintro ⟨-, rfl, hallowed⟩
        rcases hallowed with hallowed | hallowed <;> simp [hallowed] at hrefused
      · have hallowed : node.directory = true ∨ found.hasDefault = false := by
          by_cases hdirectory : node.directory = true
          · exact Or.inl hdirectory
          · exact Or.inr (by simpa [hdirectory] using hrefused)
        simp only [hrefused, Bool.false_eq_true, if_false, Except.ok.injEq, hmay, true_and]
        constructor
        · rintro rfl
          exact ⟨rfl, hallowed⟩
        · exact fun h => h.1
  · simp [hmay]

/-- A change of a file is refused if the acting user may not make it, if it breaks a rule, or if it
would give default entries to something other than a directory. -/
theorem exists_edit_eq_error_iff {ns : Namespace} {change : Change} {node : Node} :
    (∃ cause, ns.edit change node = .error cause) ↔
      ns.mayChange node = false ∨ (∃ rule, change.apply node.acl = .error rule) ∨
        (node.directory = false ∧
          ∃ acl, change.apply node.acl = .ok acl ∧ acl.hasDefault = true) := by
  unfold edit
  by_cases hmay : ns.mayChange node = true
  · cases happly : change.apply node.acl with
    | error rule => simp [hmay]
    | ok acl =>
      by_cases hrefused : (!node.directory && acl.hasDefault) = true
      · have hboth : node.directory = false ∧ acl.hasDefault = true := by simpa using hrefused
        simp [hmay, hboth]
      · have hallowed : node.directory = false → acl.hasDefault = false := by
          simpa using hrefused
        simp only [hmay, hrefused]
        simpa using hallowed
  · simp [hmay]

/-- The namespace with another list for one file. -/
def withAcl (ns : Namespace) (names : List Name) (node : Node) (acl : Acl) : Namespace :=
  { ns with nodes := ns.nodes.set names { node with acl } }

/-- A change looks the file up, and replaces its list if the change is not refused. -/
theorem change_eq (ns : Namespace) (path : Path) (change : Change) :
    ns.change path change =
      match ns.find? path.location with
      | none => .error ⟨path.location.path, .notFound⟩
      | some node =>
        match ns.edit change node with
        | .error cause => .error ⟨path.location.path, cause⟩
        | .ok acl => .ok (ns.withAcl path.location.names node acl) := by
  unfold Namespace.change
  cases hfind : ns.find? path.location with
  | none => simp only [hfind]
  | some node =>
    simp only [hfind, edit]
    by_cases hmay : ns.mayChange node = true
    · simp only [hmay, if_true]
      cases happly : change.apply node.acl with
      | error rule => rfl
      | ok acl =>
        by_cases hrefused : (!node.directory && acl.hasDefault) = true
        · simp [hrefused]
        · simp [hrefused, withAcl]
    · simp [hmay]

/-- A change that succeeds replaces the list of the file that is found. -/
theorem change_eq_ok_iff {ns changed : Namespace} {path : Path} {change : Change} :
    ns.change path change = .ok changed ↔
      ∃ node acl, ns.find? path.location = some node ∧ ns.edit change node = .ok acl ∧
        changed = ns.withAcl path.location.names node acl := by
  rw [change_eq]
  cases hfind : ns.find? path.location with
  | none => simp
  | some node =>
    cases hedit : ns.edit change node with
    | error cause =>
      simp only [hedit, reduceCtorEq, Option.some.injEq, false_iff]
      rintro ⟨_, acl, rfl, hok, -⟩
      rw [hedit] at hok
      cases hok
    | ok acl =>
      simp only [hedit, Except.ok.injEq, Option.some.injEq]
      constructor
      · rintro rfl
        exact ⟨node, acl, rfl, hedit, rfl⟩
      · rintro ⟨_, found, rfl, hok, rfl⟩
        rw [hedit] at hok
        rw [Except.ok.inj hok]

/-- A file that is found is stored under the names of an absolute location. -/
theorem find?_eq_some_iff {ns : Namespace} {location : Location} {node : Node} :
    ns.find? location = some node ↔
      location.absolute = true ∧ ns.nodes.get? location.names = some node := by
  unfold find?
  by_cases h : location.absolute = true <;> simp [h]

/-- A file that was made stands at a free place in an existing directory. -/
theorem create_eq_ok {ns made : Namespace} {path : Path} {directory : Bool} {owner group : Text}
    {mode : Nat} (h : ns.create path directory owner group mode = .ok made) :
    path.location.absolute = true ∧ path.location.names ≠ [] ∧
      ns.nodes.get? path.location.names = none ∧
      ∃ parent, ns.nodes.get? path.location.names.dropLast = some parent ∧
        parent.directory = true ∧
        made = { ns with
          nodes := ns.nodes.insert path.location.names
            { directory, owner, group
              sticky := isSticky mode
              acl := inheritedAcl parent.acl directory mode } } := by
  simp only [create] at h
  cases hfind : ns.find? path.location with
  | some node => simp [hfind] at h
  | none =>
    simp only [hfind] at h
    by_cases hempty : path.location.names = []
    · simp [Location.parent?, hempty] at h
    · have hparent : path.location.parent? =
          some ⟨path.location.absolute, path.location.names.dropLast⟩ := by
        simp [Location.parent?, hempty]
      simp only [hparent] at h
      cases hup : ns.find? ⟨path.location.absolute, path.location.names.dropLast⟩ with
      | none => simp [hup] at h
      | some parent =>
        obtain ⟨habsolute, hget⟩ := find?_eq_some_iff.mp hup
        have hnone : ns.nodes.get? path.location.names = none := by
          simpa [find?, show path.location.absolute = true from habsolute] using hfind
        simp only [hup] at h
        by_cases hdirectory : parent.directory = true
        · rw [if_pos hdirectory] at h
          exact ⟨habsolute, hempty, hnone, parent, hget, hdirectory, (Except.ok.inj h).symm⟩
        · simp [hdirectory] at h

end PosixAcl.Namespace
