import PosixAcl.Proofs.Namespace.Headers
import PosixAcl.Proofs.Namespace.Walk
import PosixAcl.Proofs.Tool.CommandLine

/-!
# Listings of whole trees

In a namespace that is reached a walk meets the files from its root on in the
order in which they are stored, each of them once. Showing the lists of a whole
tree prints a header and the written entries for each of them in this order, and
nothing can fail on the way.
-/

namespace PosixAcl

namespace Namespace

variable {ns : Namespace}

/-- The lines that show the list of a file. -/
def listingLines (entry : List Name × Node) : List Text :=
  AclStatus.lines ⟨entry.2.owner, entry.2.group, entry.2.sticky, entry.2.acl⟩
    (Location.mk true entry.1).path

/-- A path that leads to a file shows the list of the file. -/
theorem attempt_list_of_find? {path : Path} {node : Node}
    (hnode : ns.find? path.location = some node) {met : Outcome Namespace}
    (hstore : met.store = ns) :
    Task.list.attempt backend met path =
      met.print (AclStatus.lines ⟨node.owner, node.group, node.sticky, node.acl⟩ path) := by
  have hreply : backend.perform (Task.list.call path) met.store =
      (.ok ⟨node.owner, node.group, node.sticky, node.acl⟩, met.store) := by
    simp only [Task.list, backend, aclStatus, hstore, hnode]
    rfl
  rw [Task.attempt, hreply]
  rfl

/-- A file shows its list. -/
theorem attempt_list_of_mem (h : Walkable ns.shape) {entry : List Name × Node}
    (hmem : entry ∈ ns.nodes) {met : Outcome Namespace} (hstore : met.store = ns) :
    Task.list.attempt backend met (Location.mk true entry.1).path =
      met.print (listingLines entry) := by
  obtain ⟨hlocation, hfind⟩ := find?_of_mem h hmem
  have hnode : ns.find? (Location.mk true entry.1).path.location = some entry.2 := by
    rw [hlocation, hfind]
  exact attempt_list_of_find? hnode hstore

/-- Dealing with a file shows its list, and lists it without a failure if it is a directory. -/
theorem visit_list_of_mem (h : Walkable ns.shape) {entry : List Name × Node}
    (hmem : entry ∈ ns.nodes) {met : Outcome Namespace} (hstore : met.store = ns) :
    Task.list.visit backend met (statusAt (entry.1, entry.2.directory)) =
      met.print (listingLines entry) := by
  have hattempt := attempt_list_of_mem h hmem hstore
  cases hdirectory : entry.2.directory with
  | false => exact (Task.visit_file rfl).trans hattempt
  | true =>
    have hplace : (entry.1, true) ∈ ns.shape := mem_shape_iff.mpr ⟨entry.2, hmem, hdirectory⟩
    have hsteady : backend.Steady ns.children met.store := by
      rw [hstore]
      exact steady h
    exact (Task.visit_directory hsteady rfl (children_of_mem h hplace)).trans hattempt

/-- Dealing with several files shows their lists in turn, without a failure. -/
theorem visitEach_list (h : Walkable ns.shape) {files : Tree Node}
    (hfiles : ∀ entry ∈ files, entry ∈ ns.nodes) {met : Outcome Namespace}
    (hstore : met.store = ns) :
    Task.list.visitEach backend (files.map fun entry => statusAt (entry.1, entry.2.directory)) met =
      met.print (files.flatMap listingLines) := by
  induction files generalizing met with
  | nil => simp [Task.visitEach, Outcome.print]
  | cons entry rest ih =>
    have hothers : ∀ other ∈ rest, other ∈ ns.nodes :=
      fun other hother => hfiles other (List.mem_cons_of_mem _ hother)
    have hprinted : (met.print (listingLines entry)).store = ns := hstore
    rw [List.map_cons, Task.visitEach_cons,
      visit_list_of_mem h (hfiles _ List.mem_cons_self) hstore, ih hothers hprinted,
      List.flatMap_cons]
    simp [Outcome.print]

end Namespace

open Namespace

/-- The type of a file that is found. -/
theorem Namespace.fileStatus_of_find? {ns : Namespace} {path : Path} {node : Node}
    (hnode : ns.find? path.location = some node) :
    backend.perform (.fileStatus path) ns =
      (.ok (statusAt (path.location.names, node.directory)), ns) := by
  have habsolute := (find?_eq_some_iff.mp hnode).1
  have hlocation : path.location = ⟨true, path.location.names⟩ := by rw [← habsolute]
  have hstatus : ns.fileStatus path = .ok (statusAt (path.location.names, node.directory)) := by
    simp only [fileStatus, hnode]
    rw [hlocation]
    rfl
  exact Prod.ext hstatus rfl

/-- Showing the lists of a whole tree shows them in the order of the namespace, without a failure. -/
theorem Namespace.meets_list {ns : Namespace} (h : Walkable ns.shape) {path : Path} {root : Node}
    (hroot : ns.find? path.location = some root) :
    Task.list.Meets backend true path ns (ns.nodes.below path.location.names).length
      { store := ns, printed := (ns.nodes.below path.location.names).flatMap listingLines } := by
  have hmem := Tree.mem_of_get? (find?_eq_some_iff.mp hroot).2
  have hunfolds := unfolds h (mem_shape_iff.mpr ⟨root, hmem, rfl⟩)
  rw [below_shape, List.map_map] at hunfolds
  have hfiles : ∀ entry ∈ ns.nodes.below path.location.names, entry ∈ ns.nodes :=
    fun entry hentry => (Tree.mem_below_iff.mp hentry).1
  have hstart : (Outcome.store { store := ns }) = ns := rfl
  have hshown : Task.list.visitEach backend
      ((ns.nodes.below path.location.names).map
        (statusAt ∘ fun entry => (entry.1, entry.2.directory))) { store := ns } =
      { store := ns, printed := (ns.nodes.below path.location.names).flatMap listingLines } :=
    visitEach_list h hfiles hstart
  rw [← hshown, ← List.length_map (statusAt ∘ fun entry => (entry.1, entry.2.directory))]
  exact .tree rfl (fileStatus_of_find? hroot) hunfolds

/-- With working outputs, showing the lists of a whole tree prints them in the order of the
namespace. -/
theorem Tool.Requests.run_listTree {arguments : List Bytes} {path : Path}
    (h : Requests arguments .getfacl true path .list) {session : Session Namespace}
    (hwalkable : Walkable session.store.shape) {root : Node}
    (hroot : session.store.find? path.location = some root) (hspeaks : session.Speaks)
    (hstdout : session.stdout.capacity = none) (hflush : session.stdout.flushFails = false) :
    Tool.run .getfacl backend arguments session =
      (.success, { session with
        stdout := { session.stdout with
          kept := session.stdout.kept ++
            Utf8.encode (((session.store.nodes.below path.location.names).flatMap
              listingLines).flatMap (· ++ ['\n'])) } }) := by
  refine (h.run_eq hspeaks hstdout hflush (meets_list hwalkable hroot)).trans (Prod.ext rfl ?_)
  simp [Run.tallyOf, Tally.exitCode, Session.after, Session.saying_nil]

/-- A walk in a namespace that is reached, from a path that leads to a file. It begins, and if it is
not cut off it yields the files from the root on, without a failure and without a change: those that
are stored under the names of the root or under an extension. Their names ascend strictly, so that
each file is met once and before everything below it. From the root directory on all files are met.
With working outputs, showing the lists of the whole tree succeeds, changes nothing and prints one
listing for each of these files in this order: a header, in which the access entry for the others
decides the letter of the flags, and then a line for each entry in the order in which it is
stored. -/
theorem Tool.run_recursiveListing {ns : Namespace} (hreached : ns.Reachable) {path : Path}
    {root : Node} (hroot : ns.find? path.location = some root) :
    let names := path.location.names
    let visited := ns.nodes.filter fun entry => names.isPrefixOf entry.1
    let items : List WalkItem :=
      visited.map fun entry => .ok ⟨(Location.mk true entry.1).path, entry.2.directory⟩
    (∃ pending, Walk.start backend path ns = (.ok pending, ns) ∧
      ∀ steps, visited.length ≤ steps → Walk.collect backend steps pending ns = (items, ns)) ∧
    Walk.items backend path ns = (.ok items, ns) ∧
    (∀ other node, (other, node) ∈ visited ↔
      ns.find? ⟨true, other⟩ = some node ∧ names <+: other) ∧
    (visited.map (·.1)).Pairwise (List.Lex Name.Before) ∧
    (visited.map (·.1)).Pairwise (fun other further => ¬ further <+: other) ∧
    (names = [] → visited = ns.nodes) ∧
    ∃ listings : List (List Text),
      List.Forall₂ (fun (entry : List Name × Node) lines => ∃ other,
        entry.2.acl.get? ⟨.access, .other, []⟩ = some other ∧
          lines = entry.2.header (Location.mk true entry.1).path other ++
            entry.2.acl.map Entry.text) visited listings ∧
      ∀ arguments (stdout stderr : Output), Requests arguments .getfacl true path .list →
        stdout.capacity = none → stdout.flushFails = false → stderr.capacity = none →
        Tool.run .getfacl backend arguments (.start .getfacl ns stdout stderr) =
          (.success, { Session.start .getfacl ns stdout stderr with
            stdout := { stdout with
              kept := stdout.kept ++
                Utf8.encode (listings.flatten.flatMap (· ++ ['\n'])) } }) := by
  intro names visited items
  have hordered := hreached.wellFormed.ordered
  have hwalkable := hreached.wellFormed.walkable
  have hmem := Tree.mem_of_get? (find?_eq_some_iff.mp hroot).2
  have hplace : (names, root.directory) ∈ ns.shape := mem_shape_iff.mpr ⟨root, hmem, rfl⟩
  have hvisited : visited = ns.nodes.below names := rfl
  have hcollect : ∀ steps, visited.length ≤ steps →
      Walk.collect backend steps [.ok (statusAt (names, root.directory))] ns = (items, ns) := by
    intro steps hsteps
    have hbelow : (ns.shape.below names).length ≤ steps → _ := collect_of_mem hwalkable hplace
    rw [below_shape, List.length_map, List.map_map] at hbelow
    exact hbelow hsteps
  have hstart : Walk.start backend path ns =
      (.ok [.ok (statusAt (names, root.directory))], ns) := by
    rw [Walk.start, fileStatus_of_find? hroot]
  have hascending : visited.Pairwise fun entry other =>
      namesOrder entry.1 < namesOrder other.1 := hordered.filter _
  refine ⟨⟨_, hstart, hcollect⟩, ?_, fun other node => ?_, ?_, ?_, fun hnames => ?_,
    visited.map listingLines, ?_,
    fun arguments stdout stderr hrequests hstdout hflush hstderr => ?_⟩
  · have hfewer : visited.length ≤ ns.nodes.length := List.length_filter_le _ _
    have hbound : backend.walkBound ns = 2 * ns.nodes.length := rfl
    have hall := hcollect (backend.walkBound ns) (by omega)
    simp only [Walk.items, hstart, hall]
  · rw [hvisited, Tree.mem_below_iff, find?_eq_some_iff, hordered.get?_eq_some_iff]
    simp
  · exact List.pairwise_map.mpr (hascending.imp namesOrder_lt_iff.mp)
  · exact List.pairwise_map.mpr (hascending.imp not_prefix_of_namesOrder_lt)
  · refine List.filter_eq_self.mpr fun entry _ => ?_
    simp [hnames]
  · rw [List.forall₂_map_right_iff, List.forall₂_same]
    intro entry hentry
    exact Node.exists_lines_eq (hreached.wellFormed.acl _ (List.mem_of_mem_filter hentry)) _
  · have hspeaks : (Session.start .getfacl ns stdout stderr).Speaks :=
      Session.speaks_start _ _ _ hstderr
    rw [← List.flatMap_def]
    exact hrequests.run_listTree hwalkable hroot hspeaks hstdout hflush

/-- The file `/a/b` comes before `/a-b`, although a slash comes after a hyphen, and a file with the
name `..` comes before both. -/
theorem Tool.run_recursiveListing_hyphen :
    let file (path : Bytes) (directory : Bool) : WalkItem := .ok ⟨⟨path⟩, directory⟩
    let ns := initial.afterAll [.create ⟨[0x2F, 0x61, 0x2D, 0x62]⟩ false ['a'] ['a'] 0o644,
      .create ⟨[0x2F, 0x61]⟩ true ['a'] ['a'] 0o755,
      .create ⟨[0x2F, 0x61, 0x2F, 0x62]⟩ false ['a'] ['a'] 0o600,
      .create ⟨[0x2F, 0x2E, 0x2E]⟩ false ['a'] ['a'] 0o600]
    let arguments : List Bytes := [[], [0x2D, 0x52], [0x2F]]
    ns.Reachable ∧ ns.find? (Path.mk [0x2F]).location = some rootNode ∧
      Walk.items backend ⟨[0x2F]⟩ ns =
        (.ok [file [0x2F] true, file [0x2F, 0x2E, 0x2E] false, file [0x2F, 0x61] true,
          file [0x2F, 0x61, 0x2F, 0x62] false, file [0x2F, 0x61, 0x2D, 0x62] false], ns) ∧
      (Tool.run .getfacl backend arguments (.start .getfacl ns {} {})).1 = .success := by
  intro file ns arguments
  have hreached : ns.Reachable := ⟨_, rfl⟩
  have hroot : ns.find? (Path.mk [0x2F]).location = some rootNode := by decide +kernel
  have hrequests : Requests arguments .getfacl true ⟨[0x2F]⟩ .list :=
    @Requests.list _ [.recursive] _ rfl (by decide)
  obtain ⟨-, hitems, -, -, -, -, _, -, hruns⟩ := Tool.run_recursiveListing hreached hroot
  have hrun := hruns arguments {} {} hrequests rfl rfl rfl
  refine ⟨hreached, hroot, hitems.trans (Prod.ext (congrArg Except.ok ?_) rfl),
    congrArg (·.1) hrun⟩
  decide +kernel

end PosixAcl
