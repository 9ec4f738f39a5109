import PosixAcl.Proofs.Namespace.Reachable
import PosixAcl.Proofs.Text.Newline

/-!
# Headers of listings

The listing of a file begins with a header, which shows its path, its owner, its group
and the sticky bit. The written entries follow. Path, owner and group have no newline
if none comes in with a file that is made, since changes of lists touch none of them.
However the path of such a file is spelled, it has no newline either.
-/

namespace PosixAcl

/-! ## Flags -/

/-- The right to execute is implied exactly where it is held. -/
theorem Permission.implies_executeOnly (p : Permission) : p.implies .executeOnly = p.execute := by
  simp [implies, executeOnly]

/-- The letter of the flags is decided by the access entry for the others, of which a well-formed
list has just one. -/
theorem AclStatus.otherCanExecute_eq {status : AclStatus} (h : status.acl.WellFormed) :
    ∃ other, status.acl.get? ⟨.access, .other, []⟩ = some other ∧
      status.otherCanExecute = other.execute := by
  have hkey := h.access_base .other (by decide)
  rw [Acl.hasKey_eq_isSome, Option.isSome_iff_exists] at hkey
  obtain ⟨other, hother⟩ := hkey
  refine ⟨other, hother, Bool.eq_iff_iff.mpr ?_⟩
  simp only [otherCanExecute, List.any_eq_true, Bool.and_eq_true, decide_eq_true_eq,
    Permission.implies_executeOnly]
  constructor
  · rintro ⟨e, he, ⟨hkind, hscope⟩, hexecute⟩
    have hget := h.ordered.get?_of_mem he
    rw [Entry.key, hscope, hkind, h.unnamed e he (Or.inr hkind), hother] at hget
    rwa [Option.some.inj hget]
  · intro hexecute
    obtain ⟨e, he, hkey, rfl⟩ := Acl.exists_mem_of_get? hother
    exact ⟨e, he, ⟨congrArg Key.kind hkey, congrArg Key.scope hkey⟩, hexecute⟩

/-! ## Headers -/

/-- The header of a listing: a line for the path, the owner and the group, and one for the flags if
the sticky bit is set. The letter of the flags is small where the others may execute. -/
def Node.header (node : Node) (path : Path) (other : Permission) : List Text :=
  ["# file: ".toList ++ path.text, "# owner: ".toList ++ node.owner,
      "# group: ".toList ++ node.group] ++
    if node.sticky then ["# flags: ".toList ++ ['-', '-', if other.execute then 't' else 'T']]
    else []

/-- A file with a well-formed list is shown with its header, which is decided by the access entry
for the others, and then its entries. -/
theorem Node.exists_lines_eq {node : Node} (h : node.acl.WellFormed) (path : Path) :
    ∃ other, node.acl.get? ⟨.access, .other, []⟩ = some other ∧
      AclStatus.lines ⟨node.owner, node.group, node.sticky, node.acl⟩ path =
        node.header path other ++ node.acl.map Entry.text := by
  let status : AclStatus := ⟨node.owner, node.group, node.sticky, node.acl⟩
  have hacl : status.acl.WellFormed := h
  obtain ⟨other, hother, hletter⟩ := AclStatus.otherCanExecute_eq hacl
  refine ⟨other, hother, ?_⟩
  rw [AclStatus.lines, AclStatus.flags, hletter, Node.header]

/-! ## Headers without newlines -/

/-- A header has no newline if there is none in the path, the owner and the group. -/
theorem Node.newline_not_mem_header {node : Node} {path : Path} (hpath : '\n' ∉ path.text)
    (howner : '\n' ∉ node.owner) (hgroup : '\n' ∉ node.group) (other : Permission) :
    ∀ line ∈ node.header path other, '\n' ∉ line := by
  have hlabelled : ∀ {label value : Text}, '\n' ∉ label → '\n' ∉ value →
      '\n' ∉ label ++ value :=
    fun hlabel hvalue hin => (List.mem_append.mp hin).elim hlabel hvalue
  intro line hline
  rcases List.mem_append.mp hline with hline | hline
  · simp only [List.mem_cons, List.not_mem_nil, or_false] at hline
    rcases hline with rfl | rfl | rfl
    · exact hlabelled (by decide) hpath
    · exact hlabelled (by decide) howner
    · exact hlabelled (by decide) hgroup
  · split at hline
    · rw [List.mem_singleton.mp hline]
      exact hlabelled (by decide) (by split <;> decide)
    · cases hline

/-- A path has a newline exactly if one of the names that lead to it has one. -/
theorem Path.newline_mem_iff {p : Path} :
    newline ∈ p.bytes ↔ ∃ name ∈ p.location.names, newline ∈ name := by
  constructor
  · intro hmem
    rw [← joinFields_fields slash p.bytes] at hmem
    rcases mem_of_mem_joinFields hmem with hslash | ⟨name, hname, hin⟩
    · exact absurd hslash (by decide)
    · -- The components that a location drops have no newline.
      refine ⟨name, List.mem_filter.mpr ⟨hname, ?_⟩, hin⟩
      rw [Bool.and_eq_true, Bool.not_eq_true', decide_eq_true_eq]
      constructor
      · rw [List.isEmpty_eq_false_iff]
        exact List.ne_nil_of_mem hin
      · rintro rfl
        exact absurd hin (by decide)
  · rintro ⟨name, hname, hin⟩
    exact mem_of_mem_field (List.mem_of_mem_filter hname) hin

namespace Namespace

/-- No file has a newline in the names that lead to it, in its owner or in its group. -/
def HasPlainHeaders (ns : Namespace) : Prop :=
  ∀ entry ∈ ns.nodes, (∀ name ∈ entry.1, newline ∉ name) ∧
    '\n' ∉ entry.2.owner ∧ '\n' ∉ entry.2.group

/-- The root directory has no newline there. -/
theorem hasPlainHeaders_initial : initial.HasPlainHeaders := by
  intro entry hentry
  rw [List.mem_singleton.mp hentry]
  exact ⟨by simp, by decide, by decide⟩

variable {ns : Namespace}

/-- Making a file brings in no newline if there is none in its path, its owner and its group. -/
theorem HasPlainHeaders.create (h : ns.HasPlainHeaders) {path : Path} {directory : Bool}
    {owner group : Text} {mode : Nat} {made : Namespace} (hpath : newline ∉ path.bytes)
    (howner : '\n' ∉ owner) (hgroup : '\n' ∉ group)
    (hok : ns.create path directory owner group mode = .ok made) : made.HasPlainHeaders := by
  obtain ⟨-, -, -, parent, -, -, rfl⟩ := create_eq_ok hok
  intro entry hentry
  rcases Tree.mem_insert_iff.mp hentry with rfl | hentry
  · refine ⟨fun name hname hin => ?_, howner, hgroup⟩
    exact hpath (Path.newline_mem_iff.mpr ⟨name, hname, hin⟩)
  · exact h entry hentry

/-- A change of a list touches neither names nor owners nor groups. -/
theorem HasPlainHeaders.change (h : ns.HasPlainHeaders) {path : Path} {what : Change}
    {changed : Namespace} (hok : ns.change path what = .ok changed) :
    changed.HasPlainHeaders := by
  obtain ⟨node, acl, hfind, -, rfl⟩ := change_eq_ok_iff.mp hok
  have hmem := Tree.mem_of_get? (find?_eq_some_iff.mp hfind).2
  intro entry hentry
  rcases Tree.mem_set_iff.mp hentry with ⟨rfl, -⟩ | ⟨hentry, -⟩
  · exact h (path.location.names, node) hmem
  · exact h entry hentry

/-- A file that is found has a header without newlines, whatever the spelling of its path. -/
theorem HasPlainHeaders.not_mem_header (h : ns.HasPlainHeaders) {path : Path} {node : Node}
    (hnode : ns.find? path.location = some node) :
    '\n' ∉ path.text ∧ '\n' ∉ node.owner ∧ '\n' ∉ node.group := by
  obtain ⟨hnames, howner, hgroup⟩ := h _ (Tree.mem_of_get? (find?_eq_some_iff.mp hnode).2)
  refine ⟨Utf8.newline_not_mem_decodeLossy fun hmem => ?_, howner, hgroup⟩
  obtain ⟨name, hname, hin⟩ := Path.newline_mem_iff.mp hmem
  exact hnames name hname hin

end Namespace

end PosixAcl
