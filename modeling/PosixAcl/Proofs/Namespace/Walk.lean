import PosixAcl.Proofs.Namespace.Shape
import PosixAcl.Proofs.Tool.Visits
import PosixAcl.Proofs.Walk.Trees

/-!
# Walks through a namespace

No call changes the shape of a namespace, and so none changes its listings. From
a file on, they unfold into the files below it, which stand together in the
namespace. So a walk meets them in the order in which they are stored.
-/

namespace PosixAcl.Namespace

variable {ns : Namespace}

/-! ## Listings -/

/-- A call keeps the shape. -/
theorem shape_perform (h : Walkable ns.shape) (call : Call) :
    (backend.perform call ns).2.shape = ns.shape := by
  cases call with
  | fileStatus path | children path | aclStatus path => rfl
  | change path what =>
    simp only [backend]
    cases hok : ns.change path what with
    | error error => rfl
    | ok changed => exact shape_of_change h hok

/-- Several calls keep the shape. -/
theorem shape_afterCalls (h : Walkable ns.shape) (calls : List Call) :
    (backend.afterCalls calls ns).shape = ns.shape := by
  induction calls generalizing ns with
  | nil => rfl
  | cons call rest ih =>
    have hfirst := shape_perform h call
    exact (ih (hfirst ▸ h)).trans hfirst

/-- The listings of a namespace are the same after any calls. -/
theorem steady (h : Walkable ns.shape) : backend.Steady ns.children ns :=
  fun calls path => children_congr (shape_afterCalls h calls) path

/-! ## Files in pre-order -/

/-- The listings of a namespace are those of its shape. -/
theorem lists_shape (h : Walkable ns.shape) : Walk.Lists ns.children ns.shape id statusAt [] where
  directory_statusAt _ := rfl
  children entry hentry hdirectory := by
    obtain ⟨names, directory⟩ := entry
    obtain rfl : directory = true := hdirectory
    exact Or.inl (children_of_mem h (Tree.mem_below_iff.mp hentry).1)

/-- From a file on, a walk meets what is below it, in the order of the namespace. -/
theorem preOrder_of_mem (h : Walkable ns.shape) {entry : List Name × Bool}
    (hmem : entry ∈ ns.shape) :
    Walk.PreOrder ns.children [statusAt entry] ((ns.shape.below entry.1).map statusAt) :=
  (lists_shape h).preOrder_of_mem h.ordered h.closed
    (Tree.mem_below_iff.mpr ⟨hmem, List.nil_prefix⟩)

/-- From a file on, the listings unfold into the files below it. -/
theorem unfolds (h : Walkable ns.shape) {entry : List Name × Bool} (hmem : entry ∈ ns.shape) :
    backend.Unfolds (statusAt entry) ((ns.shape.below entry.1).map statusAt) ns := by
  refine ⟨ns.children, steady h, preOrder_of_mem h hmem, ?_⟩
  have hfewer : (ns.shape.below entry.1).length ≤ ns.shape.length := List.length_filter_le _ _
  have hbound : backend.walkBound ns = 2 * ns.shape.length := by simp [backend, shape]
  rw [List.length_map, hbound]
  omega

/-- A walk can always list the directories that it meets in a namespace. -/
theorem itemsOf_of_mem (h : Walkable ns.shape) {entry : List Name × Bool}
    (hmem : entry ∈ ns.shape) :
    Walk.itemsOf ns.children (statusAt entry) = [.ok (statusAt entry)] := by
  obtain ⟨names, directory⟩ := entry
  cases directory with
  | true => simp [Walk.itemsOf, statusAt, children_of_mem h hmem]
  | false => simp [Walk.itemsOf, statusAt]

/-- Listing directories does not change a namespace. -/
theorem afterCalls_listCalls (ns : Namespace) (files : List FileStatus) :
    backend.afterCalls (files.flatMap Walk.listCalls) ns = ns := by
  induction files with
  | nil => rfl
  | cons file rest ih =>
    have hfirst : backend.afterCalls (Walk.listCalls file) ns = ns := by
      unfold Walk.listCalls
      split <;> rfl
    rw [List.flatMap_cons, Backend.afterCalls_append, hfirst, ih]

/-- A walk that is not cut off yields the files below its root in the order of the namespace,
without a failure, and does not change the namespace. -/
theorem collect_of_mem (h : Walkable ns.shape) {entry : List Name × Bool} (hmem : entry ∈ ns.shape)
    {steps : Nat} (hsteps : (ns.shape.below entry.1).length ≤ steps) :
    Walk.collect backend steps [.ok (statusAt entry)] ns =
      ((ns.shape.below entry.1).map fun e => .ok (statusAt e), ns) := by
  have hitems : ((ns.shape.below entry.1).map statusAt).flatMap (Walk.itemsOf ns.children) =
      (ns.shape.below entry.1).map fun e => .ok (statusAt e) := by
    rw [List.flatMap_map, ← List.flatMap_pure_eq_map]
    refine List.flatMap_congr fun e he => ?_
    exact itemsOf_of_mem h (Tree.mem_below_iff.mp he).1
  have hcollect := Walk.collect_eq (preOrder_of_mem h hmem) (steady h).listsAs
    (hitems ▸ (List.length_map _).trans_le hsteps)
  rwa [hitems, afterCalls_listCalls] at hcollect

end PosixAcl.Namespace
