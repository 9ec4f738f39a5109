import PosixAcl.Proofs.Namespace.Reachable

/-!
# The shape of a namespace

What a walk sees of a namespace is where its files stand and which of them are
directories. Changes of lists leave this as it is. So a walk that alternates with
changes meets the same files as one through the namespace before all changes.
-/

namespace PosixAcl.Namespace

/-- Where files stand, and which of them are directories. -/
def shape (ns : Namespace) : Tree Bool :=
  ns.nodes.map fun entry => (entry.1, entry.2.directory)

/-- What a walk has to know about a file of a shape. -/
def statusAt (entry : List Name × Bool) : FileStatus :=
  ⟨(Location.mk true entry.1).path, entry.2⟩

/-- A shape through which a walk can go: in order, with normal locations, and with everything in
directories. -/
structure Walkable (shape : Tree Bool) : Prop where
  /-- The names of the files ascend strictly. -/
  ordered : Tree.Ordered shape
  /-- Files stand at normal locations. -/
  normal : ∀ entry ∈ shape, (Location.mk true entry.1).IsNormal
  /-- Every file but the root is in a directory. -/
  closed : Tree.Closed shape id

variable {ns : Namespace}

/-- A file has its place in the shape. -/
theorem mem_shape_iff {names : List Name} {directory : Bool} :
    (names, directory) ∈ ns.shape ↔
      ∃ node, (names, node) ∈ ns.nodes ∧ node.directory = directory := by
  simp [shape]

/-- The shape is in order exactly if the files are. -/
theorem ordered_shape_iff : Tree.Ordered ns.shape ↔ Tree.Ordered ns.nodes :=
  List.pairwise_map

/-- The shape of a well-formed namespace is walkable. -/
theorem WellFormed.walkable (h : ns.WellFormed) : Walkable ns.shape where
  ordered := ordered_shape_iff.mpr h.ordered
  normal entry hentry := by
    obtain ⟨node, hnode, -⟩ := mem_shape_iff.mp hentry
    exact h.normal _ hnode
  closed entry hentry hne := by
    obtain ⟨node, hnode, -⟩ := mem_shape_iff.mp hentry
    obtain ⟨parent, hparent, hdirectory⟩ := h.closed _ hnode hne
    exact ⟨true, mem_shape_iff.mpr ⟨parent, hparent, hdirectory⟩, rfl⟩

/-- What is below some names in the shape is the shape of what is below them. -/
theorem below_shape (ns : Namespace) (names : List Name) :
    ns.shape.below names =
      (ns.nodes.below names).map fun entry => (entry.1, entry.2.directory) := by
  simp [shape, Tree.below, List.filter_map, Function.comp_def]

/-- The children in the shape are the shape of the children. -/
theorem childrenOf_shape (ns : Namespace) (names : List Name) :
    ns.shape.childrenOf names =
      (ns.nodes.childrenOf names).map fun entry => (entry.1, entry.2.directory) := by
  simp [shape, Tree.childrenOf, List.filter_map, Function.comp_def]

/-- The plain spelling of a place in a walkable shape finds the file there. -/
theorem find?_of_mem (h : Walkable ns.shape) {names : List Name} {node : Node}
    (hmem : (names, node) ∈ ns.nodes) :
    (Location.mk true names).path.location = ⟨true, names⟩ ∧
      ns.find? ⟨true, names⟩ = some node := by
  have hordered := ordered_shape_iff.mp h.ordered
  have hplace := mem_shape_iff.mpr ⟨node, hmem, rfl⟩
  exact ⟨(h.normal _ hplace).location_path,
    find?_eq_some_iff.mpr ⟨rfl, hordered.get?_eq_some_iff.mpr hmem⟩⟩

/-- Listing a directory gives its children in the shape. -/
theorem children_of_mem (h : Walkable ns.shape) {names : List Name}
    (hmem : (names, true) ∈ ns.shape) :
    ns.children (Location.mk true names).path =
      .ok ((ns.shape.childrenOf names).map statusAt) := by
  obtain ⟨node, hnode, hdirectory⟩ := mem_shape_iff.mp hmem
  obtain ⟨hlocation, hfind⟩ := find?_of_mem h hnode
  rw [childrenOf_shape, List.map_map]
  simp only [children, hlocation, hfind, hdirectory, if_true]
  rfl

/-- Changing a list keeps the shape. -/
theorem shape_of_change {path : Path} {change : Change} {changed : Namespace}
    (hwalkable : Walkable ns.shape) (hok : ns.change path change = .ok changed) :
    changed.shape = ns.shape := by
  have hordered := ordered_shape_iff.mp hwalkable.ordered
  obtain ⟨node, acl, hfind, -, rfl⟩ := change_eq_ok_iff.mp hok
  have hnode := Tree.mem_of_get? (find?_eq_some_iff.mp hfind).2
  simp only [shape, withAcl, Tree.set, List.map_map]
  refine List.map_congr_left fun entry hentry => ?_
  simp only [Function.comp_apply]
  split
  · rename_i hnames
    have hthere : (path.location.names, entry.2) ∈ ns.nodes := by rwa [← hnames]
    have hsame : entry.2 = node := hordered.eq_of_mem hthere hnode
    rw [hnames, hsame]
  · rfl

/-! ## What a walk sees -/

/-- The type of a file is seen from the shape. -/
theorem directory_find? (ns : Namespace) (location : Location) :
    (ns.find? location).map Node.directory =
      if location.absolute then Tree.get? ns.shape location.names else none := by
  unfold find?
  split
  · simp [Tree.get?, shape, List.find?_map, Function.comp_def]
  · rfl

/-- Asking for the type of a file gives the same answer in namespaces of one shape. -/
theorem fileStatus_congr {other : Namespace} (hshape : other.shape = ns.shape) (path : Path) :
    other.fileStatus path = ns.fileStatus path := by
  have hview : ∀ ns : Namespace, ns.fileStatus path =
      match (ns.find? path.location).map Node.directory with
      | none => .error ⟨path.location.path, .notFound⟩
      | some directory => .ok ⟨path.location.path, directory⟩ := by
    intro ns
    unfold fileStatus
    cases hfind : ns.find? path.location <;> simp [hfind]
  rw [hview, hview, directory_find?, directory_find?, hshape]

/-- Listing a directory gives the same answer in namespaces of one shape. -/
theorem children_congr {other : Namespace} (hshape : other.shape = ns.shape) (path : Path) :
    other.children path = ns.children path := by
  have hview : ∀ ns : Namespace, ns.children path =
      match (ns.find? path.location).map Node.directory with
      | none => .error ⟨path.location.path, .notFound⟩
      | some true => .ok ((ns.shape.childrenOf path.location.names).map statusAt)
      | some false => .error ⟨path.location.path, .notADirectory⟩ := by
    intro ns
    unfold children
    cases hfind : ns.find? path.location with
    | none => simp [hfind]
    | some node =>
      cases hdirectory : node.directory with
      | true =>
        simp only [hfind, hdirectory, Option.map_some, if_true, childrenOf_shape, List.map_map]
        rfl
      | false => simp [hfind, hdirectory]
  rw [hview, hview, directory_find?, directory_find?, hshape]

end PosixAcl.Namespace
