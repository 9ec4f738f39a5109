import PosixAcl.Proofs.Namespace.Shape

/-!
# Changing several files

The same change is made to several files, one after the other. Since a change
concerns one file only, the files can be regarded one by one: each gets what the
change alone would give it, and the refusals are those of the single changes.
-/

namespace PosixAcl.Namespace

/-- Makes a change to several files in turn, and collects the failures. -/
def changeEach (change : Change) : List (List Name) → Namespace → Namespace × List StoreError
  | [], ns => (ns, [])
  | names :: rest, ns =>
    match ns.change (Location.mk true names).path change with
    | .error error =>
      let (changed, errors) := changeEach change rest ns
      (changed, error :: errors)
    | .ok changed => changeEach change rest changed

/-- A file after a change, which leaves it as it is if it is refused. -/
def edited (ns : Namespace) (change : Change) (node : Node) : Node :=
  match ns.edit change node with
  | .error _ => node
  | .ok acl => { node with acl }

/-- The failure of a change of one file, if it is refused. -/
def refusal? (ns : Namespace) (change : Change) (entry : List Name × Node) : Option StoreError :=
  match ns.edit change entry.2 with
  | .error cause => some ⟨(Location.mk true entry.1).path, cause⟩
  | .ok _ => none

/-- The namespace after a change of chosen files, each of which stays as it is if its change is
refused. -/
def editedWhere (ns : Namespace) (chosen : List Name → Bool) (change : Change) : Namespace :=
  { ns with nodes := ns.nodes.map fun entry =>
      if chosen entry.1 then (entry.1, ns.edited change entry.2) else entry }

variable {ns : Namespace}

/-- A change of a file in a walkable namespace. -/
theorem change_of_mem (h : Walkable ns.shape) (change : Change) {names : List Name} {node : Node}
    (hmem : (names, node) ∈ ns.nodes) :
    ns.change (Location.mk true names).path change =
      match ns.edit change node with
      | .error cause => .error ⟨(Location.mk true names).path, cause⟩
      | .ok acl => .ok (ns.withAcl names node acl) := by
  obtain ⟨hlocation, hfind⟩ := find?_of_mem h hmem
  have hchange := change_eq ns (Location.mk true names).path change
  rw [hlocation, hfind] at hchange
  exact hchange

/-- A file is refused if the call that changes it fails, and for the same reason. -/
theorem refusal?_eq (h : Walkable ns.shape) (change : Change) {names : List Name} {node : Node}
    (hmem : (names, node) ∈ ns.nodes) :
    ns.refusal? change (names, node) =
      match ns.change (Location.mk true names).path change with
      | .error error => some error
      | .ok _ => none := by
  rw [change_of_mem h change hmem, refusal?]
  cases ns.edit change node <;> rfl

/-- What becomes of a file is what the change of this file alone makes of it. If that fails, the
file stays as it is. -/
theorem exists_edited_eq (h : Walkable ns.shape) (change : Change) {names : List Name} {node : Node}
    (hmem : (names, node) ∈ ns.nodes) :
    ∃ acl, ns.edited change node = { node with acl } ∧
      (∀ changed, ns.change (Location.mk true names).path change = .ok changed →
        changed.find? ⟨true, names⟩ = some { node with acl } ∧
          change.apply node.acl = .ok acl) ∧
      ∀ error, ns.change (Location.mk true names).path change = .error error →
        acl = node.acl := by
  have hordered := ordered_shape_iff.mp h.ordered
  have hchange := change_of_mem h change hmem
  cases hedit : ns.edit change node with
  | error cause =>
    rw [hedit] at hchange
    refine ⟨node.acl, by simp [edited, hedit], fun changed hok => ?_, fun _ _ => rfl⟩
    rw [hchange] at hok
    cases hok
  | ok acl =>
    rw [hedit] at hchange
    refine ⟨acl, by simp [edited, hedit],
      fun changed hok => ⟨?_, (edit_eq_ok_iff.mp hedit).2.1⟩, fun error herror => ?_⟩
    · rw [hchange] at hok
      obtain rfl := Except.ok.inj hok
      refine find?_eq_some_iff.mpr ⟨rfl, (hordered.set _ _).get?_eq_some_iff.mpr ?_⟩
      exact Tree.mem_set_iff.mpr (Or.inl ⟨rfl, node, hmem⟩)
    · rw [hchange] at herror
      cases herror

/-- The change of a file fails if the acting user may not make it, if it breaks a rule, or if it
would give default entries to something other than a directory. -/
theorem exists_change_eq_error_iff (h : Walkable ns.shape) {change : Change} {names : List Name}
    {node : Node} (hmem : (names, node) ∈ ns.nodes) :
    (∃ error, ns.change (Location.mk true names).path change = .error error) ↔
      ns.mayChange node = false ∨ (∃ rule, change.apply node.acl = .error rule) ∨
        (node.directory = false ∧
          ∃ acl, change.apply node.acl = .ok acl ∧ acl.hasDefault = true) := by
  rw [← exists_edit_eq_error_iff, change_of_mem h change hmem]
  cases ns.edit change node <;> simp

/-! ## Files after a change -/

/-- A change keeps the type of a file. -/
theorem directory_edited (ns : Namespace) (change : Change) (node : Node) :
    (ns.edited change node).directory = node.directory := by
  unfold edited
  split <;> rfl

/-- Changing chosen files keeps the shape. -/
theorem shape_editedWhere (ns : Namespace) (chosen : List Name → Bool) (change : Change) :
    (ns.editedWhere chosen change).shape = ns.shape := by
  rw [shape, editedWhere, List.map_map]
  refine List.map_congr_left fun entry _ => ?_
  simp only [Function.comp_apply]
  split
  · rw [directory_edited]
  · rfl

/-- A file after a change of chosen files. -/
theorem mem_editedWhere (chosen : List Name → Bool) (change : Change) {names : List Name}
    {node : Node} (hmem : (names, node) ∈ ns.nodes) :
    (names, if chosen names then ns.edited change node else node) ∈
      (ns.editedWhere chosen change).nodes := by
  refine List.mem_map.mpr ⟨(names, node), hmem, ?_⟩
  split <;> rfl

/-- A change of one file, whether it is refused or not. -/
theorem after_change_of_mem (h : Walkable ns.shape) (change : Change) {names : List Name}
    {node : Node} (hmem : (names, node) ∈ ns.nodes) :
    ns.after (.change (Location.mk true names).path change) =
      ns.editedWhere (fun other => other = names) change := by
  -- The file under these names is the given one.
  have hsame : ∀ entry ∈ ns.nodes, entry.1 = names → entry.2 = node := by
    rintro ⟨other, found⟩ hentry rfl
    exact (ordered_shape_iff.mp h.ordered).eq_of_mem hentry hmem
  simp only [after]
  rw [change_of_mem h change hmem]
  cases hedit : ns.edit change node with
  | error cause =>
    have hedited : ns.edited change node = node := by simp [edited, hedit]
    have hsameAll : ns.nodes.map id = ns.nodes.map fun entry =>
        if decide (entry.1 = names) then (entry.1, ns.edited change entry.2) else entry := by
      refine List.map_congr_left fun entry hentry => ?_
      by_cases hnames : entry.1 = names
      · have hnode := hsame entry hentry hnames
        rw [if_pos (by simp [hnames]), hnode, hedited, ← hnode]
        rfl
      · rw [if_neg (by simp [hnames])]
        rfl
    rw [List.map_id] at hsameAll
    exact congrArg (Namespace.mk · ns.caller) hsameAll
  | ok acl =>
    have hedited : ns.edited change node = { node with acl } := by simp [edited, hedit]
    refine congrArg (Namespace.mk · ns.caller) (List.map_congr_left fun entry hentry => ?_)
    by_cases hnames : entry.1 = names
    · rw [if_pos hnames, if_pos (by simp [hnames]), hsame entry hentry hnames, hedited, hnames]
    · rw [if_neg hnames, if_neg (by simp [hnames])]

/-- Changing chosen files and then other ones changes all of them. -/
theorem editedWhere_editedWhere {chosen other : List Name → Bool} (change : Change)
    (hother : ∀ names, chosen names = true → other names = false) :
    (ns.editedWhere chosen change).editedWhere other change =
      ns.editedWhere (fun names => chosen names || other names) change := by
  -- The acting user is the same, so the other files are changed as before.
  refine congrArg (Namespace.mk · ns.caller) ?_
  rw [editedWhere, List.map_map]
  refine List.map_congr_left fun entry _ => ?_
  simp only [Function.comp_apply]
  by_cases hchosen : chosen entry.1 = true
  · simp [hchosen, hother entry.1 hchosen]
  · simp only [hchosen, Bool.false_eq_true, if_false, Bool.false_or]
    rfl

/-! ## Several files -/

/-- The files are changed in turn, and their failures are noted in this order. -/
theorem changeEach_cons (change : Change) (names : List Name) (rest : List (List Name))
    (ns : Namespace) :
    changeEach change (names :: rest) ns =
      ((changeEach change rest (ns.after (.change (Location.mk true names).path change))).1,
        (match ns.change (Location.mk true names).path change with
          | .error error => [error]
          | .ok _ => []) ++
        (changeEach change rest (ns.after (.change (Location.mk true names).path change))).2) := by
  rw [changeEach]
  simp only [after]
  cases ns.change (Location.mk true names).path change <;> rfl

/-- Changing several different files one after the other changes each of them as if it were the
only one, and fails where a single change would fail. -/
theorem changeEach_eq (h : Walkable ns.shape) (change : Change) {entries : Tree Node}
    (hmem : ∀ entry ∈ entries, entry ∈ ns.nodes) (hnodup : (entries.map (·.1)).Nodup) :
    changeEach change (entries.map (·.1)) ns =
      (ns.editedWhere (fun names => names ∈ entries.map (·.1)) change,
        entries.filterMap (ns.refusal? change)) := by
  -- The files that are still to be changed are those of the first namespace at every step.
  induction entries generalizing ns with
  | nil => simp [changeEach, editedWhere]
  | cons first rest ih =>
    obtain ⟨names, node⟩ := first
    have hfirst := hmem _ List.mem_cons_self
    obtain ⟨hnew, hnodupRest⟩ : names ∉ rest.map (·.1) ∧ (rest.map (·.1)).Nodup :=
      List.nodup_cons.mp hnodup
    have hstay : ∀ entry ∈ rest,
        entry ∈ (ns.editedWhere (fun other => other = names) change).nodes := by
      intro entry hentry
      have hne : entry.1 ≠ names := by
        rintro rfl
        exact hnew (List.mem_map_of_mem hentry)
      have hthere : entry ∈ ns.nodes := hmem entry (List.mem_cons_of_mem _ hentry)
      exact List.mem_map.mpr ⟨entry, hthere, if_neg (by simp [hne])⟩
    have hother : ∀ other, decide (other = names) = true →
        decide (other ∈ rest.map (·.1)) = false := by
      intro other hsame
      rw [decide_eq_true_eq] at hsame
      rw [hsame, decide_eq_false_iff_not]
      exact hnew
    have hchosen : (fun other => decide (other = names) || decide (other ∈ rest.map (·.1))) =
        fun other => decide (other ∈ names :: rest.map (·.1)) := by
      funext other
      rw [Bool.eq_iff_iff]
      simp
    rw [List.map_cons, changeEach_cons, after_change_of_mem h change hfirst,
      ih ((shape_editedWhere ns _ change).symm ▸ h) hstay hnodupRest,
      editedWhere_editedWhere change hother, hchosen]
    refine Prod.ext rfl ?_
    have hrefusal : ns.refusal? change (names, node) =
        match ns.change (Location.mk true names).path change with
        | .error error => some error
        | .ok _ => none := refusal?_eq h change hfirst
    rw [List.filterMap_cons, hrefusal]
    cases ns.change (Location.mk true names).path change <;> rfl

end PosixAcl.Namespace
