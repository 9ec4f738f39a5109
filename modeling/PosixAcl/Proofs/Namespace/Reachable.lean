import PosixAcl.Proofs.Acl.Inheritance
import PosixAcl.Proofs.Namespace.Calls

/-!
# Reachable namespaces

A namespace is reached from the new one by making files, by changing lists, and by
naming another acting user, where each of these may fail. In every namespace that
is reached, files stand in existing directories and all lists are well formed.
-/

namespace PosixAcl.Namespace

/-! ## The lists of new files -/

/-- A new file in a directory with default entries takes them over, and otherwise the mode
decides. -/
theorem inheritedAcl_eq {parent : Acl} (h : parent.Ordered) (directory : Bool) (mode : Nat) :
    inheritedAcl parent directory mode =
      if parent.hasDefault then
        Acl.takenOver (parent.filter (·.scope = .default)) directory
      else .ofMode mode := by
  have hdefault : ∀ e ∈ parent.filter (·.scope = .default), e.scope = .default := by simp
  unfold inheritedAcl
  by_cases hany : parent.hasDefault = true
  · have hne : (parent.filter (·.scope = .default)).isEmpty = false := by
      simpa [Acl.hasDefault, Acl.hasScope] using hany
    simp only [hne, hany, if_true, Bool.false_eq_true, if_false]
    exact ((h.filter _).takenOver hdefault directory).sort_eq
  · have hempty : (parent.filter (·.scope = .default)).isEmpty = true := by
      simpa [Acl.hasDefault, Acl.hasScope] using hany
    simp [hempty, hany]

/-- A new file gets a well-formed list. -/
theorem wellFormed_inheritedAcl {parent : Acl} (h : parent.WellFormed) (directory : Bool)
    (mode : Nat) : (inheritedAcl parent directory mode).WellFormed := by
  rw [inheritedAcl_eq h.ordered]
  split
  · rename_i hany
    exact h.takenOver hany directory
  · exact Acl.wellFormed_ofMode mode

/-- A new file that is not a directory gets no default entries. -/
theorem hasDefault_inheritedAcl {parent : Acl} (h : parent.Ordered) (mode : Nat) :
    (inheritedAcl parent false mode).hasDefault = false := by
  rw [inheritedAcl_eq h, Bool.eq_false_iff]
  intro hany
  obtain ⟨e, he, hscope⟩ := Acl.hasDefault_iff.mp hany
  split at he
  · rcases Acl.mem_takenOver_iff.mp he with ⟨f, -, rfl⟩ | ⟨hdirectory, -⟩
    · cases hscope
    · cases hdirectory
  · have hofMode : ∀ e ∈ Acl.ofMode mode, e.scope = .access := by simp [Acl.ofMode]
    rw [hofMode e he] at hscope
    cases hscope

/-! ## Runs -/

/-- What may happen to a namespace. -/
inductive Event where
  /-- A file or a directory is made. -/
  | create (path : Path) (directory : Bool) (owner group : Text) (mode : Nat)
  /-- Another user acts from now on. -/
  | actAs (user : Text)
  /-- The list of a file is changed. -/
  | change (path : Path) (what : Change)
deriving DecidableEq, Repr

/-- The namespace after an event. Where the event fails, nothing happens. -/
def after (ns : Namespace) : Event → Namespace
  | .create path directory owner group mode =>
    match ns.create path directory owner group mode with
    | .error _ => ns
    | .ok made => made
  | .actAs user => ns.withCaller user
  | .change path what =>
    match ns.change path what with
    | .error _ => ns
    | .ok changed => changed

/-- An event does nothing, or it makes a file, or another user acts, or it changes a list. -/
theorem after_cases (ns : Namespace) (event : Event) :
    ns.after event = ns ∨
      (∃ path directory owner group mode, event = .create path directory owner group mode ∧
        ns.create path directory owner group mode = .ok (ns.after event)) ∨
      (∃ user, event = .actAs user ∧ ns.after event = ns.withCaller user) ∨
      ∃ path what, event = .change path what ∧ ns.change path what = .ok (ns.after event) := by
  cases event with
  | create path directory owner group mode =>
    cases hok : ns.create path directory owner group mode with
    | error error => exact Or.inl (by simp only [after, hok])
    | ok made =>
      exact Or.inr (Or.inl ⟨path, directory, owner, group, mode, rfl, by simp only [after, hok]⟩)
  | actAs user => exact Or.inr (Or.inr (Or.inl ⟨user, rfl, rfl⟩))
  | change path what =>
    cases hok : ns.change path what with
    | error error => exact Or.inl (by simp only [after, hok])
    | ok changed => exact Or.inr (Or.inr (Or.inr ⟨path, what, rfl, by simp only [after, hok]⟩))

/-- The namespace after several events. -/
def afterAll (ns : Namespace) (events : List Event) : Namespace :=
  events.foldl after ns

/-- A namespace to which some events lead from the new one. -/
def Reachable (ns : Namespace) : Prop :=
  ∃ events, initial.afterAll events = ns

/-- What holds of every namespace that is reached. -/
structure WellFormed (ns : Namespace) : Prop where
  /-- The names of the files ascend strictly. -/
  ordered : Tree.Ordered ns.nodes
  /-- There is a root directory. -/
  root : ∃ node, ([], node) ∈ ns.nodes ∧ node.directory = true
  /-- Files stand at normal locations. -/
  normal : ∀ entry ∈ ns.nodes, (Location.mk true entry.1).IsNormal
  /-- Every file but the root is in a directory. -/
  closed : Tree.Closed ns.nodes Node.directory
  /-- All lists are well formed. -/
  acl : ∀ entry ∈ ns.nodes, entry.2.acl.WellFormed
  /-- Only directories have default entries. -/
  noDefault : ∀ entry ∈ ns.nodes, entry.2.directory = false → entry.2.acl.hasDefault = false

/-- The new namespace is well formed. -/
theorem wellFormed_initial : initial.WellFormed where
  ordered := List.pairwise_singleton _ _
  root := ⟨rootNode, List.mem_singleton_self _, rfl⟩
  normal := by simp [initial, Location.IsNormal]
  closed := by simp [initial, Tree.Closed]
  acl := by
    intro entry hentry
    rw [List.mem_singleton.mp hentry]
    exact Acl.wellFormed_ofMode _
  noDefault := by simp [initial, rootNode]

variable {ns : Namespace}

/-- Making a file keeps a namespace well formed. -/
theorem WellFormed.create (h : ns.WellFormed) {path : Path} {directory : Bool}
    {owner group : Text} {mode : Nat} {made : Namespace}
    (hok : ns.create path directory owner group mode = .ok made) : made.WellFormed := by
  obtain ⟨habsolute, hne, hnew, parent, hparent, hdirectory, rfl⟩ := create_eq_ok hok
  have hmemParent := Tree.mem_of_get? hparent
  have hparentAcl := h.acl _ hmemParent
  have hnormal : (Location.mk true path.location.names).IsNormal := path.location_isNormal
  refine ⟨h.ordered.insert hnew _, ?_, fun entry hentry => ?_, fun entry hentry hnames => ?_,
    fun entry hentry => ?_, fun entry hentry hfile => ?_⟩
  · obtain ⟨node, hnode, hroot⟩ := h.root
    exact ⟨node, Tree.mem_insert_iff.mpr (Or.inr hnode), hroot⟩
  · rcases Tree.mem_insert_iff.mp hentry with rfl | hentry
    · exact hnormal
    · exact h.normal entry hentry
  · rcases Tree.mem_insert_iff.mp hentry with rfl | hentry
    · exact ⟨parent, Tree.mem_insert_iff.mpr (Or.inr hmemParent), hdirectory⟩
    · obtain ⟨above, habove, hup⟩ := h.closed entry hentry hnames
      exact ⟨above, Tree.mem_insert_iff.mpr (Or.inr habove), hup⟩
  · rcases Tree.mem_insert_iff.mp hentry with rfl | hentry
    · exact wellFormed_inheritedAcl hparentAcl directory mode
    · exact h.acl entry hentry
  · rcases Tree.mem_insert_iff.mp hentry with rfl | hentry
    · obtain rfl : directory = false := hfile
      exact hasDefault_inheritedAcl hparentAcl.ordered mode
    · exact h.noDefault entry hentry hfile

/-- Replacing the list of one file by a well-formed one keeps a namespace well formed. -/
theorem WellFormed.withAcl (h : ns.WellFormed) {names : List Name} {node : Node}
    (hnode : ns.nodes.get? names = some node) {acl : Acl} (hacl : acl.WellFormed)
    (hdefault : node.directory = true ∨ acl.hasDefault = false) :
    (ns.withAcl names node acl).WellFormed := by
  have hmem := Tree.mem_of_get? hnode
  -- Each file is still there, and still a directory if it was one.
  have hstay : ∀ {other : List Name} {old : Node}, (other, old) ∈ ns.nodes →
      old.directory = true → ∃ found, (other, found) ∈ ns.nodes.set names { node with acl } ∧
        found.directory = true := by
    intro other old hold hdirectory
    by_cases hother : other = names
    · subst hother
      rw [h.ordered.eq_of_mem hold hmem] at hdirectory
      exact ⟨{ node with acl }, Tree.mem_set_iff.mpr (Or.inl ⟨rfl, node, hmem⟩), hdirectory⟩
    · exact ⟨old, Tree.mem_set_iff.mpr (Or.inr ⟨hold, hother⟩), hdirectory⟩
  refine ⟨h.ordered.set names _, ?_, fun entry hentry => ?_, fun entry hentry hnames => ?_,
    fun entry hentry => ?_, fun entry hentry hfile => ?_⟩
  · obtain ⟨root, hroot, hdirectory⟩ := h.root
    exact hstay hroot hdirectory
  · rcases Tree.mem_set_iff.mp hentry with ⟨rfl, -⟩ | ⟨hentry, -⟩
    · exact h.normal (names, node) hmem
    · exact h.normal entry hentry
  · have hup : ∃ parent, (entry.1.dropLast, parent) ∈ ns.nodes ∧ parent.directory = true := by
      rcases Tree.mem_set_iff.mp hentry with ⟨rfl, -⟩ | ⟨hentry, -⟩
      · exact h.closed (names, node) hmem hnames
      · exact h.closed entry hentry hnames
    obtain ⟨parent, hparent, hdirectory⟩ := hup
    exact hstay hparent hdirectory
  · rcases Tree.mem_set_iff.mp hentry with ⟨rfl, -⟩ | ⟨hentry, -⟩
    · exact hacl
    · exact h.acl entry hentry
  · rcases Tree.mem_set_iff.mp hentry with ⟨rfl, -⟩ | ⟨hentry, -⟩
    · rcases hdefault with hdirectory | hnone
      · rw [show node.directory = false from hfile] at hdirectory
        cases hdirectory
      · exact hnone
    · exact h.noDefault entry hentry hfile

/-- The file is found with its other list. -/
theorem WellFormed.find?_withAcl (h : ns.WellFormed) {location : Location} {node : Node}
    (hnode : ns.find? location = some node) (acl : Acl) :
    (ns.withAcl location.names node acl).find? location = some { node with acl } := by
  obtain ⟨habsolute, hget⟩ := find?_eq_some_iff.mp hnode
  exact find?_eq_some_iff.mpr ⟨habsolute, h.ordered.get?_set_self hget _⟩

/-- Other files are found as before. -/
theorem WellFormed.find?_withAcl_of_ne (h : ns.WellFormed) {location other : Location}
    {node : Node} (hnode : ns.find? location = some node) (hne : other ≠ location) (acl : Acl) :
    (ns.withAcl location.names node acl).find? other = ns.find? other := by
  have habsolute := (find?_eq_some_iff.mp hnode).1
  unfold find?
  by_cases hother : other.absolute = true
  · have hnames : other.names ≠ location.names := by
      intro heq
      refine hne ?_
      calc other = ⟨other.absolute, other.names⟩ := rfl
        _ = ⟨location.absolute, location.names⟩ := by rw [hother, habsolute, heq]
        _ = location := rfl
    rw [if_pos hother, if_pos hother]
    exact h.ordered.get?_set_of_ne hnames _
  · rw [if_neg hother, if_neg hother]

/-- Giving a file the list that it has changes nothing. -/
theorem WellFormed.withAcl_self (h : ns.WellFormed) {location : Location} {node : Node}
    (hnode : ns.find? location = some node) : ns.withAcl location.names node node.acl = ns :=
  congrArg (Namespace.mk · ns.caller) (h.ordered.set_self (find?_eq_some_iff.mp hnode).2)

/-- Changing a list keeps a namespace well formed. -/
theorem WellFormed.change (h : ns.WellFormed) {path : Path} {what : Change}
    {changed : Namespace} (hok : ns.change path what = .ok changed) : changed.WellFormed := by
  obtain ⟨node, acl, hfind, hedit, rfl⟩ := change_eq_ok_iff.mp hok
  obtain ⟨-, hget⟩ := find?_eq_some_iff.mp hfind
  obtain ⟨-, happly, hdefault⟩ := edit_eq_ok_iff.mp hedit
  have hold := h.acl _ (Tree.mem_of_get? hget)
  exact h.withAcl hget (hold.apply happly) hdefault

/-- Every event keeps a namespace well formed. -/
theorem WellFormed.after (h : ns.WellFormed) (event : Event) : (ns.after event).WellFormed := by
  rcases ns.after_cases event with hsame | ⟨path, directory, owner, group, mode, -, hok⟩ |
    ⟨user, -, hacts⟩ | ⟨path, what, -, hok⟩
  · rw [hsame]
    exact h
  · exact h.create hok
  · rw [hacts]
    exact ⟨h.ordered, h.root, h.normal, h.closed, h.acl, h.noDefault⟩
  · exact h.change hok

/-- Every sequence of events keeps a namespace well formed. -/
theorem WellFormed.afterAll (h : ns.WellFormed) (events : List Event) :
    (ns.afterAll events).WellFormed := by
  induction events generalizing ns with
  | nil => exact h
  | cons event rest ih => exact ih (h.after event)

/-- A namespace that is reached is well formed. -/
theorem Reachable.wellFormed (h : ns.Reachable) : ns.WellFormed := by
  obtain ⟨events, rfl⟩ := h
  exact wellFormed_initial.afterAll events

/-- A file of a namespace that is reached has a well-formed list. -/
theorem Reachable.wellFormed_acl (h : ns.Reachable) {location : Location} {node : Node}
    (hnode : ns.find? location = some node) : node.acl.WellFormed :=
  h.wellFormed.acl _ (Tree.mem_of_get? (find?_eq_some_iff.mp hnode).2)

/-- After every sequence of events, succeeding or not: there is a root directory. Every file stands
at a normal absolute location, and in a directory unless it is the root. Its entries ascend
strictly, so that no key occurs twice. Masks and entries for the others have no name. No scope has
more than 32 entries. The access scope has its base entries, and so has the default scope unless it
is empty, as it is in everything but directories. A scope with a named user or group has a
mask. -/
theorem invariant_afterAll (events : List Event) :
    (∃ root, (initial.afterAll events).find? .root = some root ∧ root.directory = true) ∧
    ∀ names node, (names, node) ∈ (initial.afterAll events).nodes →
      (Location.mk true names).path.location = ⟨true, names⟩ ∧
      (∀ up, (Location.mk true names).parent? = some up →
        ∃ parent, (initial.afterAll events).find? up = some parent ∧ parent.directory = true) ∧
      node.acl.Pairwise (fun e f => e.key.order < f.key.order) ∧
      (∀ e ∈ node.acl, e.kind = .mask ∨ e.kind = .other → e.name = []) ∧
      (∀ scope, (node.acl.filter (·.scope = scope)).length ≤ 32) ∧
      (∀ kind ∈ [Kind.user, .group, .other],
        ∃ e ∈ node.acl, e.scope = .access ∧ e.kind = kind ∧ e.name = []) ∧
      ((∃ e ∈ node.acl, e.scope = .default) → ∀ kind ∈ [Kind.user, .group, .other],
        ∃ e ∈ node.acl, e.scope = .default ∧ e.kind = kind ∧ e.name = []) ∧
      (node.directory = false → ∀ e ∈ node.acl, e.scope = .access) ∧
      (∀ e ∈ node.acl, (e.kind = .user ∨ e.kind = .group) → e.name ≠ [] →
        ∃ mask ∈ node.acl, mask.scope = e.scope ∧ mask.kind = .mask ∧ mask.name = []) := by
  have h := wellFormed_initial.afterAll events
  have hexists : ∀ {acl : Acl} {scope : Scope} {kind : Kind},
      acl.hasKey ⟨scope, kind, []⟩ = true →
      ∃ e ∈ acl, e.scope = scope ∧ e.kind = kind ∧ e.name = [] := by
    intro acl scope kind hkey
    simpa [Acl.hasKey_iff, Entry.key] using hkey
  have hfound : ∀ {names : List Name} {node : Node}, (names, node) ∈
      (initial.afterAll events).nodes →
      (initial.afterAll events).find? ⟨true, names⟩ = some node :=
    fun hmem => find?_eq_some_iff.mpr ⟨rfl, h.ordered.get?_eq_some_iff.mpr hmem⟩
  refine ⟨?_, fun names node hmem => ?_⟩
  · obtain ⟨root, hroot, hdirectory⟩ := h.root
    exact ⟨root, hfound hroot, hdirectory⟩
  · have hacl := h.acl _ hmem
    refine ⟨(h.normal _ hmem).location_path, ?_, hacl.ordered, hacl.unnamed, fun scope => ?_,
      fun kind hkind => hexists (hacl.access_base kind hkind), fun hany kind hkind => ?_,
      fun hfile e he => ?_, fun e he hkind hname => ?_⟩
    · intro up hup
      by_cases hempty : names = []
      · simp [Location.parent?, hempty] at hup
      · obtain rfl : (⟨true, names.dropLast⟩ : Location) = up := by
          simpa [Location.parent?, hempty] using hup
        obtain ⟨parent, hparent, hdirectory⟩ := h.closed _ hmem hempty
        exact ⟨parent, hfound hparent, hdirectory⟩
    · rw [← List.countP_eq_length_filter]
      exact hacl.count_le scope
    · exact hexists (hacl.default_base (Acl.hasDefault_iff.mpr hany) kind hkind)
    · have hnone := h.noDefault _ hmem hfile
      cases hscope : e.scope with
      | access => rfl
      | default =>
        rw [Acl.hasDefault_iff.mpr ⟨e, he, hscope⟩] at hnone
        cases hnone
    · exact hexists (hacl.masked e he (Acl.isNamedSubject_iff.mpr ⟨hkind, hname⟩))

end PosixAcl.Namespace
