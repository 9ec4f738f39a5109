import PosixAcl.Proofs.Entry.Reader
import PosixAcl.Proofs.Namespace.Reachable

/-!
# Namespaces with legible lists

Names enter a namespace with the entries of a change, and from there they pass from
a directory to the files that are made in it. If all entries that come in can be
written into a specification, so can all lists that are stored.
-/

namespace PosixAcl.Namespace

/-- All lists can be written into a specification. -/
def Legible (ns : Namespace) : Prop :=
  ∀ entry ∈ ns.nodes, ∀ e ∈ entry.2.acl, e.Legible

/-- The entries of a mode are legible. -/
theorem legible_ofMode (mode : Nat) : ∀ e ∈ Acl.ofMode mode, e.Legible := by
  intro e he
  have hname : e.name = [] := by
    have hall : ∀ e ∈ Acl.ofMode mode, e.name = [] := by simp [Acl.ofMode]
    exact hall e he
  exact Entry.legible_of_unnamed hname

/-- The list of the new namespace is legible. -/
theorem legible_initial : initial.Legible := by
  intro entry hentry
  rw [List.mem_singleton.mp hentry]
  exact legible_ofMode _

/-- A new file takes over legible entries from its directory. -/
theorem legible_inheritedAcl {parent : Acl} (h : parent.Ordered)
    (hlegible : ∀ e ∈ parent, e.Legible) (directory : Bool) (mode : Nat) :
    ∀ e ∈ inheritedAcl parent directory mode, e.Legible := by
  intro e he
  rw [inheritedAcl_eq h] at he
  split at he
  · rcases Acl.mem_takenOver_iff.mp he with ⟨f, hf, rfl⟩ | ⟨-, hf⟩
    · exact hlegible f (List.mem_of_mem_filter hf)
    · exact hlegible e (List.mem_of_mem_filter hf)
  · exact legible_ofMode mode e he

variable {ns : Namespace}

/-- Making a file keeps all lists legible. -/
theorem Legible.create (h : ns.Legible) (hns : ns.WellFormed) {path : Path} {directory : Bool}
    {owner group : Text} {mode : Nat} {made : Namespace}
    (hok : ns.create path directory owner group mode = .ok made) : made.Legible := by
  obtain ⟨-, -, -, parent, hparent, -, rfl⟩ := create_eq_ok hok
  have hmem := Tree.mem_of_get? hparent
  intro entry hentry
  rcases Tree.mem_insert_iff.mp hentry with rfl | hentry
  · exact legible_inheritedAcl (hns.acl _ hmem).ordered (h _ hmem) directory mode
  · exact h entry hentry

/-- A change with legible entries keeps all lists legible. -/
theorem Legible.change (h : ns.Legible) (hns : ns.WellFormed) {path : Path} {what : Change}
    (hentries : ∀ e ∈ what.entries, e.Legible) {changed : Namespace}
    (hok : ns.change path what = .ok changed) : changed.Legible := by
  obtain ⟨node, acl, hfind, hedit, rfl⟩ := change_eq_ok_iff.mp hok
  have hmem := Tree.mem_of_get? (find?_eq_some_iff.mp hfind).2
  obtain ⟨-, happly, -⟩ := edit_eq_ok_iff.mp hedit
  intro entry hentry e he
  rcases Tree.mem_set_iff.mp hentry with ⟨rfl, -⟩ | ⟨hentry, -⟩
  · by_cases hname : e.name = []
    · exact Entry.legible_of_unnamed hname
    · rcases (hns.acl _ hmem).ordered.mem_of_mem_apply happly he hname with hold | hnew
      · exact h _ hmem e hold
      · exact hentries e hnew
  · exact h entry hentry e he

end PosixAcl.Namespace
