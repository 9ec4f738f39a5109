import PosixAcl.Proofs.Namespace.Changes
import PosixAcl.Proofs.Tool.Session

/-!
# Changes of whole trees

A change that goes through a tree lists directories and changes files in turn. In
a namespace it comes to the same as changing all files below the root of the walk
one after the other, in the order of the namespace. So every file is treated as by
a change of this file alone.
-/

namespace PosixAcl

open Namespace

/-- The files to which a walk comes from some places, in the order in which it meets them. -/
def Namespace.reached (shape pending : Tree Bool) : List (List Name) :=
  (pending.flatMap fun entry => shape.below entry.1).map (·.1)

/-- A walk meets a file before everything below it, and goes on with its children. -/
theorem Namespace.reached_cons {shape : Tree Bool} (h : Walkable shape) {entry : List Name × Bool}
    (hmem : entry ∈ shape) (rest : Tree Bool) :
    reached shape (entry :: rest) =
      entry.1 :: reached shape (shape.childrenOf entry.1 ++ rest) := by
  simp [reached, h.ordered.below_eq h.closed hmem]

/-- The next item of a walk through a namespace is the first pending file. Its children are put in
front of the others. -/
theorem Walk.next_namespace {ns : Namespace} (h : Walkable ns.shape) {entry : List Name × Bool}
    (hmem : entry ∈ ns.shape) (rest : Tree Bool) :
    Walk.next backend ((entry :: rest).map fun e => .ok (statusAt e)) ns =
      (some (.ok (statusAt entry),
        (ns.shape.childrenOf entry.1 ++ rest).map fun e => .ok (statusAt e)), ns) := by
  obtain ⟨names, directory⟩ := entry
  cases directory with
  | true =>
    have hlisting : Walk.next backend (((names, true) :: rest).map fun e => .ok (statusAt e)) ns =
        (some (.ok (statusAt (names, true)),
          Walk.contents (ns.children (Location.mk true names).path) ++
            rest.map fun e => .ok (statusAt e)), ns) := rfl
    rw [hlisting, children_of_mem h hmem]
    simp [Walk.contents]
  | false =>
    have hnone := h.closed.childrenOf_eq_nil h.ordered hmem rfl
    simp [Walk.next, hnone, statusAt]

/-- Going through the pending files of a walk changes them and everything below them one after the
other. Each failure is reported, and none ends the walk. -/
theorem Run.visitAll_change (change : Change) {shape : Tree Bool} (hwalkable : Walkable shape)
    {steps : Nat} {pending : Tree Bool} (hpending : ∀ entry ∈ pending, entry ∈ shape)
    (hsteps : (reached shape pending).length ≤ steps) (tally : Tally)
    {session : Session Namespace} (hstore : session.store.shape = shape)
    (hspeaks : session.Speaks) :
    Run.visitAll backend (PathAction.change backend change) steps
        (pending.map fun entry => .ok (statusAt entry)) tally session =
      (.ok ⟨tally.visited + (reached shape pending).length, tally.failures ++
          (changeEach change (reached shape pending) session.store).2.map .ofStoreError⟩,
        { session.saying
            ((changeEach change (reached shape pending) session.store).2.map StoreError.message)
          with store := (changeEach change (reached shape pending) session.store).1 }) := by
  -- Each step takes the first file off what is still to be reached, whatever becomes of it. The
  -- shape stays as it is, so what is reached can be said beforehand.
  induction steps generalizing pending tally session with
  | zero =>
    have hnil : reached shape pending = [] := List.length_eq_zero_iff.mp (by omega)
    cases pending with
    | nil => simp [visitAll, reached, changeEach, Session.saying_nil]
    | cons entry rest =>
      rw [reached_cons hwalkable (hpending entry List.mem_cons_self)] at hnil
      cases hnil
  | succ steps ih =>
    cases pending with
    | nil => simp [visitAll, Walk.next, reached, changeEach, Session.saying_nil]
    | cons entry rest =>
      have hentry := hpending entry List.mem_cons_self
      have hthere : entry ∈ session.store.shape := hstore ▸ hentry
      have hnext := Walk.next_namespace (hstore ▸ hwalkable) hthere rest
      rw [hstore] at hnext
      have hthen : ∀ e ∈ shape.childrenOf entry.1 ++ rest, e ∈ shape := by
        intro e he
        rcases List.mem_append.mp he with he | he
        · exact (Tree.mem_childrenOf_iff.mp he).1
        · exact hpending e (List.mem_cons_of_mem _ he)
      rw [reached_cons hwalkable hentry] at hsteps ⊢
      have hfewer : (reached shape (shape.childrenOf entry.1 ++ rest)).length ≤ steps := by
        simpa using hsteps
      have hcons := changeEach_cons change entry.1
        (reached shape (shape.childrenOf entry.1 ++ rest)) session.store
      rw [visitAll, hnext, hcons]
      cases hchange : session.store.change (Location.mk true entry.1).path change with
      | error error =>
        have haction : PathAction.change backend change (statusAt entry).path session =
            (.error (.store error), session) := PathAction.change_of_error hchange
        have hsame : (session.saying [error.message]).store.shape = shape := hstore
        simp only [visit, haction, hspeaks.report_store, after, hchange]
        rw [ih hthen hfewer _ hsame (hspeaks.saying [error.message])]
        refine Prod.ext ?_ ?_
        · simp [Session.saying, Nat.add_assoc, Nat.add_comm]
        · simp [Session.saying, diagnostics]
      | ok changed =>
        have haction : PathAction.change backend change (statusAt entry).path session =
            (.ok (), { session with store := changed }) := PathAction.change_of_ok hchange
        have hshape : changed.shape = shape := by
          rw [← hstore]
          exact shape_of_change (hstore ▸ hwalkable) hchange
        have hsame : ({ session with store := changed } : Session Namespace).store.shape = shape :=
          hshape
        simp only [visit, haction, after, hchange]
        rw [ih hthen hfewer _ hsame (hspeaks.withStore changed)]
        refine Prod.ext ?_ rfl
        simp [Nat.add_assoc, Nat.add_comm]

/-- The namespace after a change of every file from some names on, where a file stays as it is if
its change is refused. -/
def Namespace.changedBelow (ns : Namespace) (names : List Name) (change : Change) : Namespace :=
  ns.editedWhere (fun other => names <+: other) change

/-- The failures of a change of every file from some names on, in the order of the files. -/
def Namespace.refusedBelow (ns : Namespace) (names : List Name) (change : Change) :
    List StoreError :=
  (ns.nodes.below names).filterMap (ns.refusal? change)

/-- Changing all files from some names on one after the other changes each of them as if it were
the only one. -/
theorem Namespace.changeEach_below {ns : Namespace} (h : Walkable ns.shape) (change : Change)
    (names : List Name) :
    changeEach change ((ns.nodes.below names).map (·.1)) ns =
      (ns.changedBelow names change, ns.refusedBelow names change) := by
  have hordered : Tree.Ordered (ns.nodes.below names) :=
    (ordered_shape_iff.mp h.ordered).filter _
  have hmem : ∀ entry ∈ ns.nodes.below names, entry ∈ ns.nodes :=
    fun entry hentry => (Tree.mem_below_iff.mp hentry).1
  rw [changeEach_eq h change hmem hordered.nodup]
  refine Prod.ext (congrArg (Namespace.mk · ns.caller) ?_) rfl
  refine List.map_congr_left fun entry hentry => ?_
  have hbelow : entry.1 ∈ (ns.nodes.below names).map (·.1) ↔ names <+: entry.1 := by
    constructor
    · intro hin
      obtain ⟨found, hfound, hsame⟩ := List.mem_map.mp hin
      rw [← hsame]
      exact (Tree.mem_below_iff.mp hfound).2
    · intro hprefix
      exact List.mem_map_of_mem (Tree.mem_below_iff.mpr ⟨hentry, hprefix⟩)
  simp only [hbelow]

/-- A change that goes through a tree changes all files from its root on, and reports each
failure. -/
theorem Run.tree_change {session : Session Namespace} (hwalkable : Walkable session.store.shape)
    (hspeaks : session.Speaks) (change : Change) {path : Path} {root : Node}
    (hroot : session.store.find? path.location = some root) :
    Run.tree backend (PathAction.change backend change) path session =
      (.ok (Tally.exitCode ⟨(session.store.nodes.below path.location.names).length,
          (session.store.refusedBelow path.location.names change).map .ofStoreError⟩),
        { session.saying
            ((session.store.refusedBelow path.location.names change).map StoreError.message)
          with store := session.store.changedBelow path.location.names change }) := by
  obtain ⟨habsolute, hget⟩ := find?_eq_some_iff.mp hroot
  have hmem := Tree.mem_of_get? hget
  have hlocation : path.location = ⟨true, path.location.names⟩ := by
    rw [← habsolute]
  have hstart : Walk.start backend path session.store =
      (.ok ([(path.location.names, root.directory)].map fun entry => .ok (statusAt entry)),
        session.store) := by
    simp only [Walk.start, backend, fileStatus, hroot]
    rw [hlocation]
    rfl
  have hpending : ∀ entry ∈ [(path.location.names, root.directory)],
      entry ∈ session.store.shape := by
    intro entry hentry
    rw [List.mem_singleton.mp hentry]
    exact mem_shape_iff.mpr ⟨root, hmem, rfl⟩
  have hreached : reached session.store.shape [(path.location.names, root.directory)] =
      (session.store.nodes.below path.location.names).map (·.1) := by
    simp [reached, below_shape]
  have hsteps : (reached session.store.shape [(path.location.names, root.directory)]).length ≤
      backend.walkBound session.store := by
    have hfewer : (session.store.nodes.below path.location.names).length ≤
        session.store.nodes.length := List.length_filter_le _ _
    rw [hreached, List.length_map]
    show _ ≤ 2 * session.store.nodes.length
    omega
  have hall := Run.visitAll_change change hwalkable hpending hsteps {} rfl hspeaks
  rw [hreached, changeEach_below hwalkable] at hall
  simp only [Run.tree, hstart]
  rw [hall]
  simp

/-- A file after a change from some names on. -/
theorem Namespace.find?_changedBelow {ns : Namespace} (h : Walkable ns.shape) (root : List Name)
    (change : Change) {names : List Name} {node : Node} (hmem : (names, node) ∈ ns.nodes) :
    (ns.changedBelow root change).find? ⟨true, names⟩ =
      some (if root <+: names then ns.edited change node else node) := by
  have hordered := ordered_shape_iff.mp h.ordered
  have hsame : Tree.Ordered (ns.changedBelow root change).nodes := by
    refine hordered.map fun entry => ?_
    split <;> rfl
  have hthere := mem_editedWhere (fun other => root <+: other) change hmem
  simp only [decide_eq_true_eq] at hthere
  exact find?_eq_some_iff.mpr ⟨rfl, hsame.get?_eq_some_iff.mpr hthere⟩

/-- A command line that asks for a change of a whole tree leaves the files of the tree changed, one
line for each failure, and a summary if the run is incomplete. -/
theorem Tool.AsksFor.run_tree {arguments : List Bytes} {edit : Invocation Change}
    (h : Tool.AsksFor arguments edit) (hrecursive : edit.recursive = true)
    {session : Session Namespace} (hwalkable : Walkable session.store.shape)
    (hspeaks : session.Speaks) {root : Node}
    (hroot : session.store.find? edit.path.location = some root) :
    ∃ code, Tool.run .setfacl backend arguments session =
      (code, { session.saying
          ((session.store.refusedBelow edit.path.location.names edit.action).map
              StoreError.message ++ if code = .incomplete then [code.message] else [])
        with store := session.store.changedBelow edit.path.location.names edit.action }) := by
  rw [h.run_eq, Run.edit, Run.invocation, if_pos hrecursive,
    Run.tree_change hwalkable hspeaks edit.action hroot]
  generalize Tally.exitCode _ = code
  refine ⟨code, ?_⟩
  have hend := Run.finish_of_speaks ((hspeaks.saying
    ((session.store.refusedBelow edit.path.location.names edit.action).map
      StoreError.message)).withStore
        (session.store.changedBelow edit.path.location.names edit.action)) code
  refine hend.trans (Prod.ext rfl ?_)
  rw [← Session.saying_saying]
  rfl

/-- The failures of a change from some names on are those of the calls for the single files. -/
theorem Namespace.refusedBelow_eq {ns : Namespace} (h : Walkable ns.shape) (root : List Name)
    (change : Change) :
    ns.refusedBelow root change =
      (ns.nodes.below root).filterMap fun entry =>
        match ns.change (Location.mk true entry.1).path change with
        | .error error => some error
        | .ok _ => none := by
  refine List.filterMap_congr fun entry hentry => ?_
  exact refusal?_eq h change (Tree.mem_below_iff.mp hentry).1

/-- A command line that asks for a change of a whole tree treats each file at or below its root as
the same change of this file alone, whether that succeeds or fails. Nothing else changes: no other
list, and no file's type, owner, group or sticky bit. The diagnostics are those of the failures, in
the order of the paths, and then a summary if the run is incomplete. -/
theorem Tool.run_recursiveChange {ns : Namespace} (hreached : ns.Reachable) (caller : Option Text)
    {arguments : List Bytes} {edit : Invocation Change} (hasks : Tool.AsksFor arguments edit)
    (hrecursive : edit.recursive = true) {root : Node}
    (hroot : ns.find? edit.path.location = some root) (stdout : Output) {stderr : Output}
    (hstderr : stderr.capacity = none) :
    let start : Namespace := { ns with caller }
    let alone := fun names => start.change (Location.mk true names).path edit.action
    let final := Tool.run .setfacl backend arguments (.start .setfacl start stdout stderr)
    let inTree := fun names => edit.path.location.names <+: names
    final.2.store.caller = caller ∧
    final.2.store.nodes.map (·.1) = ns.nodes.map (·.1) ∧
    (ns.nodes.map (·.1)).Pairwise (fun names other => namesOrder names < namesOrder other) ∧
    (∀ names node, (names, node) ∈ ns.nodes →
      (∃ acl, final.2.store.find? ⟨true, names⟩ = some { node with acl } ∧
        (inTree names → ∀ changed, alone names = .ok changed →
          changed.find? ⟨true, names⟩ = some { node with acl } ∧
            edit.action.apply node.acl = .ok acl) ∧
        (inTree names → ∀ error, alone names = .error error → acl = node.acl) ∧
        (¬ inTree names → acl = node.acl)) ∧
      ((∃ error, alone names = .error error) ↔
        start.mayChange node = false ∨ (∃ rule, edit.action.apply node.acl = .error rule) ∨
          (node.directory = false ∧
            ∃ acl, edit.action.apply node.acl = .ok acl ∧ acl.hasDefault = true))) ∧
    final.2.stderr.output.kept = stderr.kept ++ diagnostics Tool.setfacl.program
      (((ns.nodes.below edit.path.location.names).filterMap fun entry =>
          match alone entry.1 with
          | .error error => some error
          | .ok _ => none).map StoreError.message ++
        if final.1 = .incomplete then [final.1.message] else []) := by
  intro start alone final inTree
  have hwalkable : Walkable start.shape := hreached.wellFormed.walkable
  have hspeaks : (Session.start .setfacl start stdout stderr).Speaks :=
    Session.speaks_start _ _ _ hstderr
  obtain ⟨code, hrun⟩ := hasks.run_tree hrecursive hwalkable hspeaks hroot
  have hcode : final.1 = code := congrArg (·.1) hrun
  have hstore : final.2.store = start.changedBelow edit.path.location.names edit.action :=
    congrArg (·.2.store) hrun
  refine ⟨?_, ?_, List.pairwise_map.mpr hreached.wellFormed.ordered,
    fun names node hmem => ⟨?_, exists_change_eq_error_iff hwalkable hmem⟩, ?_⟩
  · rw [hstore]
    rfl
  · rw [hstore, changedBelow, editedWhere, List.map_map]
    refine List.map_congr_left fun entry _ => ?_
    simp only [Function.comp_apply]
    split <;> rfl
  · have hfound := find?_changedBelow hwalkable edit.path.location.names edit.action hmem
    rw [← hstore] at hfound
    by_cases hin : inTree names
    · obtain ⟨acl, hedited, hok, herror⟩ := exists_edited_eq hwalkable edit.action hmem
      rw [if_pos hin, hedited] at hfound
      exact ⟨acl, hfound, fun _ => hok, fun _ => herror, fun hout => absurd hin hout⟩
    · rw [if_neg hin] at hfound
      exact ⟨node.acl, hfound, fun h => absurd h hin, fun h => absurd h hin, fun _ => rfl⟩
  · rw [hcode, ← refusedBelow_eq hwalkable]
    exact congrArg (·.2.stderr.output.kept) hrun

/-- The user `a` strips the lists from `/d` on. The file `/d/f` belongs to the user `b`, and keeps
its list. -/
theorem Tool.run_recursiveChange_foreign_file :
    let ns : Namespace := ⟨[([], rootNode),
      ([[0x64]], ⟨true, ['a'], ['a'], false, .ofMode 0o755⟩),
      ([[0x64], [0x66]], ⟨false, ['b'], ['a'], false, .ofMode 0o644⟩)], none⟩
    let arguments : List Bytes := [[0x73], [0x2D, 0x52, 0x62], [0x2F, 0x64, 0x2F, 0x2E]]
    let edit : Invocation Change := ⟨true, .keepBase, ⟨[0x2F, 0x64, 0x2F, 0x2E]⟩⟩
    ns.Reachable ∧ Tool.AsksFor arguments edit ∧ edit.recursive = true ∧
      (∃ root, ns.find? edit.path.location = some root) ∧
      (Tool.run .setfacl backend arguments
        (.start .setfacl { ns with caller := some ['a'] } {} {})).2.store.find?
          ⟨true, [[0x64], [0x66]]⟩ = some ⟨false, ['b'], ['a'], false, .ofMode 0o644⟩ := by
  intro ns arguments edit
  have hreached : ns.Reachable :=
    ⟨[.create ⟨[0x2F, 0x64]⟩ true ['a'] ['a'] 0o755,
      .create ⟨[0x2F, 0x64, 0x2F, 0x66]⟩ false ['b'] ['a'] 0o644], by decide +kernel⟩
  have hasks : Tool.AsksFor arguments edit := ⟨_, rfl, rfl, rfl⟩
  have hroot : ns.find? edit.path.location =
      some ⟨true, ['a'], ['a'], false, .ofMode 0o755⟩ := by decide +kernel
  have hunlimited : ({} : Output).capacity = none := rfl
  have hinner : ([[0x64], [0x66]], ⟨false, ['b'], ['a'], false, .ofMode 0o644⟩) ∈ ns.nodes :=
    .tail _ (.tail _ (.head _))
  have hfiles :=
    (Tool.run_recursiveChange hreached (some ['a']) hasks rfl hroot {} hunlimited).2.2.2.1
  obtain ⟨⟨acl, hfound, -, herror, -⟩, -⟩ := hfiles _ _ hinner
  have hacl := herror (by decide) ⟨⟨[0x2F, 0x64, 0x2F, 0x66]⟩, .permissionDenied⟩
    (by decide +kernel)
  rw [hacl] at hfound
  exact ⟨hreached, hasks, rfl, ⟨_, hroot⟩, hfound⟩
end PosixAcl
