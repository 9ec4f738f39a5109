import PosixAcl.Proofs.Store.Tree
import PosixAcl.Proofs.Walk.PreOrder

/-!
# Walks through trees of files

In an ordered and closed tree the files below a directory stand together, in the
order of a depth-first walk. So if the listings of a store are those of such a
tree, a walk meets what is below its root in the order of the tree. A directory
that cannot be listed has nothing below it that the walk could meet.
-/

namespace PosixAcl.Walk

variable {α : Type} {tree : Tree α} {directory : α → Bool} {listing : Listing}
  {statusAt : List Name × α → FileStatus} {root : List Name}

/-- The listings are those of a tree from a root on: a directory has the children that it has in the
tree, or it cannot be listed and has none there. -/
structure Lists (listing : Listing) (tree : Tree α) (directory : α → Bool)
    (statusAt : List Name × α → FileStatus) (root : List Name) : Prop where
  /-- A walk knows which files are directories. -/
  directory_statusAt : ∀ entry, (statusAt entry).directory = directory entry.2
  /-- The children are those in the tree. -/
  children : ∀ entry ∈ tree.below root, directory entry.2 = true →
    listing (statusAt entry).path = .ok ((tree.childrenOf entry.1).map statusAt) ∨
      tree.childrenOf entry.1 = [] ∧ ∃ error, listing (statusAt entry).path = .error error

/-- From several places on, a walk meets what is below each of them, in the order of the tree. -/
theorem Lists.preOrder_below (h : Lists listing tree directory statusAt root)
    (hordered : Tree.Ordered tree) (hclosed : Tree.Closed tree directory) {pending : Tree α}
    (hpending : ∀ entry ∈ pending, entry ∈ tree.below root) :
    PreOrder listing (pending.map statusAt)
      ((pending.flatMap fun entry => tree.below entry.1).map statusAt) := by
  -- What is to be met gets less on the way down, as well as on the way to the next sibling.
  induction hlength : (pending.flatMap fun entry => tree.below entry.1).length
    using Nat.strong_induction_on generalizing pending with
  | _ length ih =>
    cases pending with
    | nil => exact .nil
    | cons entry rest =>
      obtain ⟨names, file⟩ := entry
      have hentry := hpending _ List.mem_cons_self
      obtain ⟨hmem, hroot⟩ := Tree.mem_below_iff.mp hentry
      have hbelow : tree.below names = (names, file) ::
          (tree.childrenOf names).flatMap fun child => tree.below child.1 :=
        hordered.below_eq hclosed hmem
      have hchildren : ∀ child ∈ tree.childrenOf names, child ∈ tree.below root := by
        intro child hchild
        obtain ⟨hchildMem, name, hname⟩ := Tree.mem_childrenOf_iff.mp hchild
        refine Tree.mem_below_iff.mpr ⟨hchildMem, ?_⟩
        rw [hname]
        exact hroot.trans (List.prefix_append _ _)
      have hothers : ∀ other ∈ rest, other ∈ tree.below root :=
        fun other hother => hpending other (List.mem_cons_of_mem _ hother)
      simp only [List.flatMap_cons, hbelow, List.length_append, List.length_cons] at hlength
      have hinner := ih _ (by omega) hchildren rfl
      have hrest := ih _ (by omega) hothers rfl
      rw [List.flatMap_cons, hbelow, List.map_cons, List.map_append, List.map_cons]
      cases hdirectory : directory file with
      | true =>
        have hstatus := (h.directory_statusAt (names, file)).trans hdirectory
        rcases h.children _ hentry hdirectory with hlisted | ⟨hnone, error, hfailed⟩
        · exact .directory hstatus hlisted hinner hrest
        · have hempty : tree.childrenOf names = [] := hnone
          rw [hempty]
          exact .unlisted hstatus hfailed hrest
      | false =>
        have hstatus := (h.directory_statusAt (names, file)).trans hdirectory
        rw [hclosed.childrenOf_eq_nil hordered hmem hdirectory]
        exact .file hstatus hrest

/-- From a file on, a walk meets what is below it, in the order of the tree. -/
theorem Lists.preOrder_of_mem (h : Lists listing tree directory statusAt root)
    (hordered : Tree.Ordered tree) (hclosed : Tree.Closed tree directory) {entry : List Name × α}
    (hmem : entry ∈ tree.below root) :
    PreOrder listing [statusAt entry] ((tree.below entry.1).map statusAt) := by
  have hpending : ∀ other ∈ [entry], other ∈ tree.below root := by
    intro other hother
    rwa [List.mem_singleton.mp hother]
  have hpre := h.preOrder_below hordered hclosed hpending
  rwa [List.flatMap_singleton] at hpre

end PosixAcl.Walk
