import PosixAcl.Proofs.Entry.RoundTrip
import PosixAcl.Proofs.Tool.RecursiveListing
import PosixAcl.Proofs.Tool.Restore

/-!
# Reading listings back

A listing has a header and then one written entry after the other, each ended by a
newline. Every entry that is stored reads back from its written form. Whether the
listing can be taken apart into its entries again depends on their names alone: a
name may hold a newline, and then its entry takes up more than one line.
-/

namespace PosixAcl

open Namespace

/-! ## Lines -/

/-- Below its header a listing has one line for each entry, in order, and each line reads back as
its entry. -/
def ListsLineByLine (listing : Text) (header : List Text) (entries : List Entry) : Prop :=
  ∃ lines, fields '\n' listing = header ++ lines ++ [[]] ∧
    List.Forall₂ (fun line e => Entry.read line = .ok e) lines entries

/-- Cutting at the newlines takes apart what was ended by them, and leaves nothing behind. -/
theorem fields_endedLines (lines : List Text) :
    fields '\n' (lines.flatMap (· ++ ['\n'])) = lines.flatMap (fields '\n') ++ [[]] := by
  induction lines with
  | nil => rfl
  | cons line rest ih =>
    rw [List.flatMap_cons, List.append_assoc, List.singleton_append, fields_append_separator, ih,
      List.flatMap_cons, List.append_assoc]

/-- Lines without a newline are not cut any further. -/
theorem flatMap_fields_of_not_mem {lines : List Text} (h : ∀ line ∈ lines, '\n' ∉ line) :
    lines.flatMap (fields '\n') = lines := by
  induction lines with
  | nil => rfl
  | cons line rest ih =>
    rw [List.flatMap_cons, fields_of_not_mem (h line List.mem_cons_self),
      ih fun other hother => h other (List.mem_cons_of_mem _ hother), List.singleton_append]

/-- Each newline in a line makes one line more. -/
theorem length_flatMap_fields (lines : List Text) :
    (lines.flatMap (fields '\n')).length = lines.length + lines.flatten.count '\n' := by
  induction lines with
  | nil => rfl
  | cons line rest ih =>
    rw [List.flatMap_cons, List.length_append, length_fields, ih, List.length_cons,
      List.flatten_cons, List.count_append]
    omega

/-- A newline in a written entry is in its name. -/
theorem Entry.newline_mem_text_iff {e : Entry} : '\n' ∈ e.text ↔ '\n' ∈ e.name := by
  have hmarker : '\n' ∉ e.scope.marker := by cases e.scope <;> decide
  have hkind : '\n' ∉ e.kind.name := by cases e.kind <;> decide
  have hsymbol : '\n' ∉ e.permission.symbol := by
    rcases e.permission with ⟨_ | _, _ | _, _ | _⟩ <;> decide
  rw [e.text_eq_parts]
  simp [hmarker, hkind, hsymbol]

/-- Where the header has no newline and all entries read back, a listing can be read line by line
exactly if no name has a newline. -/
theorem listsLineByLine_iff {header : List Text} (hheader : ∀ line ∈ header, '\n' ∉ line)
    {entries : List Entry} (hread : ∀ e ∈ entries, Entry.read e.text = .ok e) :
    ListsLineByLine ((header ++ entries.map Entry.text).flatMap (· ++ ['\n'])) header entries ↔
      ∀ e ∈ entries, '\n' ∉ e.name := by
  rw [ListsLineByLine, fields_endedLines, List.flatMap_append, flatMap_fields_of_not_mem hheader]
  constructor
  · rintro ⟨lines, hlines, hentries⟩
    obtain rfl := List.append_cancel_left (List.append_cancel_right hlines)
    -- With a newline in a name there would be more lines than entries.
    have hlength := hentries.length_eq
    rw [length_flatMap_fields, List.length_map, Nat.add_eq_left, List.count_eq_zero] at hlength
    intro e he hname
    refine hlength (List.mem_flatten.mpr ⟨e.text, List.mem_map_of_mem he, ?_⟩)
    exact Entry.newline_mem_text_iff.mpr hname
  · intro hnames
    have hplain : ∀ line ∈ entries.map Entry.text, '\n' ∉ line := by
      intro line hline hmem
      obtain ⟨e, he, rfl⟩ := List.mem_map.mp hline
      exact hnames e he (Entry.newline_mem_text_iff.mp hmem)
    refine ⟨entries.map Entry.text, by rw [flatMap_fields_of_not_mem hplain], ?_⟩
    rw [List.forall₂_map_left_iff, List.forall₂_same]
    exact hread

/-! ## Histories without newlines in headers -/

/-- An event that brings no newline into a header. Whatever the tool is run with, it brings none. -/
def ToolEvent.IsPlain : ToolEvent → Prop
  | .create path _ owner group _ => newline ∉ path.bytes ∧ '\n' ∉ owner ∧ '\n' ∉ group
  | .actAs _ => True
  | .run _ _ _ => True

namespace Namespace

variable {ns : Namespace}

/-- No call for a change brings a newline into a header. -/
theorem keeps_hasPlainHeaders (change : Change) : backend.Keeps change HasPlainHeaders where
  fileStatus _ _ h := h
  children _ _ h := h
  change path ns h := by
    cases hchange : ns.change path change with
    | error error => simpa only [backend, hchange] using h
    | ok changed => simpa only [backend, hchange] using h.change hchange

/-- A plain event keeps headers without newlines. -/
theorem HasPlainHeaders.afterTool (h : ns.HasPlainHeaders) {event : ToolEvent}
    (hplain : event.IsPlain) : (ns.afterTool event).HasPlainHeaders := by
  cases event with
  | create path directory owner group mode =>
    obtain ⟨hpath, howner, hgroup⟩ := hplain
    simp only [Namespace.afterTool, after]
    split
    · exact h
    · rename_i made hok
      exact h.create hpath howner hgroup hok
  | actAs user => exact h
  | run arguments stdout stderr =>
    exact Tool.run_keeps (fun _ edit _ _ => keeps_hasPlainHeaders edit.action) h

/-- Plain events lead to headers without newlines. -/
theorem HasPlainHeaders.foldl_afterTool (h : ns.HasPlainHeaders) {events : List ToolEvent}
    (hplain : ∀ event ∈ events, event.IsPlain) :
    (events.foldl Namespace.afterTool ns).HasPlainHeaders := by
  induction events generalizing ns with
  | nil => exact h
  | cons event rest ih =>
    exact ih (h.afterTool (hplain event List.mem_cons_self))
      fun other hother => hplain other (List.mem_cons_of_mem _ hother)

end Namespace

/-! ## The listing of a file -/

/-- The listing of a file, after any events in which the files that are made have no newline in
their paths, owners and groups, and with working outputs. Showing it succeeds and changes nothing.
It has a header without newlines, and then the written entries in the order in which they are
stored, each of which reads back as its entry. But the listing can be read line by line only if no
name in the list has a newline. -/
theorem Tool.run_listing {events : List ToolEvent} (hplain : ∀ event ∈ events, event.IsPlain)
    {ns : Namespace} (hns : events.foldl afterTool initial = ns) {path : Path} {node : Node}
    (hnode : ns.find? path.location = some node) {arguments : List Bytes}
    (hrequests : Requests arguments .getfacl false path .list) {stdout stderr : Output}
    (hstdout : stdout.capacity = none) (hflush : stdout.flushFails = false)
    (hstderr : stderr.capacity = none) :
    ∃ other listing, node.acl.get? ⟨.access, .other, []⟩ = some other ∧
      listing = (node.header path other ++ node.acl.map Entry.text).flatMap (· ++ ['\n']) ∧
      Tool.run .getfacl backend arguments (.start .getfacl ns stdout stderr) =
        (.success, { Session.start .getfacl ns stdout stderr with
          stdout := { stdout with kept := stdout.kept ++ Utf8.encode listing } }) ∧
      (∀ line ∈ node.header path other, '\n' ∉ line) ∧
      (∀ e ∈ node.acl, Entry.read e.text = .ok e) ∧
      (ListsLineByLine listing (node.header path other) node.acl ↔
        ∀ e ∈ node.acl, '\n' ∉ e.name) := by
  obtain ⟨hwellFormed, hlegible⟩ := ToolReachable.wellFormed_legible ⟨events, hns⟩
  have hmem := Tree.mem_of_get? (find?_eq_some_iff.mp hnode).2
  obtain ⟨other, hother, hlines⟩ := Node.exists_lines_eq (hwellFormed.acl _ hmem) path
  have hheaders : ns.HasPlainHeaders := hns ▸ hasPlainHeaders_initial.foldl_afterTool hplain
  obtain ⟨hpath, howner, hgroup⟩ := hheaders.not_mem_header hnode
  have hheader := Node.newline_not_mem_header hpath howner hgroup other
  have hread : ∀ e ∈ node.acl, Entry.read e.text = .ok e :=
    fun e he => Entry.read_text (hlegible _ hmem e he).1
  have hspeaks : (Session.start .getfacl ns stdout stderr).Speaks :=
    Session.speaks_start _ _ _ hstderr
  have hmeets : Task.list.Meets backend false path ns 1 _ := .single rfl
  rw [attempt_list_of_find? hnode rfl, hlines] at hmeets
  refine ⟨other, _, hother, rfl, ?_, hheader, hread, listsLineByLine_iff hheader hread⟩
  refine (hrequests.run_eq hspeaks hstdout hflush hmeets).trans ?_
  simp [Run.tallyOf, Tally.exitCode, Outcome.print, Session.after, Session.saying_nil,
    Session.start]

/-- The sticky directory `/d` grants the others no right to execute, and its list names a user. The
listing can be read line by line. -/
theorem Tool.run_listing_sticky :
    let spec : Text := ['u', 's', 'e', 'r', ':', 'b', ':', 'r', 'w', 'x']
    let events : List ToolEvent := [.create ⟨[0x2F, 0x64]⟩ true ['a'] ['a'] 0o1754,
      .run [[], [0x2D, 0x6D], Utf8.encode spec, [0x2F, 0x64]] {} {}]
    let ns := events.foldl afterTool initial
    let acl : Acl := [⟨.access, .user, [], ⟨true, true, true⟩⟩,
      ⟨.access, .user, ['b'], ⟨true, true, true⟩⟩, ⟨.access, .group, [], ⟨true, false, true⟩⟩,
      ⟨.access, .mask, [], ⟨true, true, true⟩⟩, ⟨.access, .other, [], ⟨true, false, false⟩⟩]
    ∃ other listing,
      (Tool.run .getfacl backend [[], [0x2F, 0x64]] (.start .getfacl ns {} {})).2.stdout.kept =
        Utf8.encode listing ∧
      ListsLineByLine listing
        (Node.header ⟨true, ['a'], ['a'], true, acl⟩ ⟨[0x2F, 0x64]⟩ other) acl := by
  intro spec events ns acl
  have hplain : ∀ event ∈ events, event.IsPlain := by
    intro event hevent
    simp only [events, List.mem_cons, List.not_mem_nil, or_false] at hevent
    rcases hevent with rfl | rfl
    · exact ⟨by decide, by decide, by decide⟩
    · trivial
  have hnode : ns.find? (Path.mk [0x2F, 0x64]).location =
      some ⟨true, ['a'], ['a'], true, acl⟩ := by decide +kernel
  have hrequests : Requests [[], [0x2F, 0x64]] .getfacl false ⟨[0x2F, 0x64]⟩ .list :=
    @Requests.list _ [] _ rfl (by decide)
  have hunlimited : (Output.mk [] none false).capacity = none := rfl
  have hflush : (Output.mk [] none false).flushFails = false := rfl
  obtain ⟨other, listing, -, -, hrun, -, -, hreads⟩ :=
    Tool.run_listing hplain rfl hnode hrequests hunlimited hflush hunlimited
  exact ⟨other, listing, congrArg (·.2.stdout.kept) hrun, hreads.mpr (by decide)⟩

/-- A name with a newline is accepted in a specification, and stored. The listing shows its entry on
two lines, of which neither is an entry. -/
theorem Tool.run_listing_newline_in_name :
    let spec : Text := ['u', 's', 'e', 'r', ':', 'a', '\n', 'b', ':', 'r', 'w', 'x']
    let ns := [.run [[], [0x2D, 0x6D], Utf8.encode spec, [0x2F]] {} {}].foldl afterTool initial
    let acl : Acl := [⟨.access, .user, [], ⟨true, true, true⟩⟩,
      ⟨.access, .user, ['a', '\n', 'b'], ⟨true, true, true⟩⟩,
      ⟨.access, .group, [], ⟨true, false, true⟩⟩, ⟨.access, .mask, [], ⟨true, true, true⟩⟩,
      ⟨.access, .other, [], ⟨true, false, true⟩⟩]
    let header := ["# file: /".toList, "# owner: root".toList, "# group: root".toList]
    let listing := (header ++ ["user::rwx".toList, "user:a".toList, "b:rwx".toList,
      "group::r-x".toList, "mask::rwx".toList, "other::r-x".toList]).flatMap (· ++ ['\n'])
    ns.find? (Path.mk [0x2F]).location = some { rootNode with acl } ∧
      (Tool.run .getfacl backend [[], [0x2F]] (.start .getfacl ns {} {})).2.stdout.kept =
        Utf8.encode listing ∧
      ¬ ListsLineByLine listing header acl := by
  intro spec ns acl header listing
  refine ⟨by decide +kernel, by decide +kernel, ?_⟩
  rintro ⟨lines, hlines, hentries⟩
  have hcount : (fields '\n' listing).length = 10 := by decide +kernel
  rw [hlines, List.length_append, List.length_append, hentries.length_eq] at hcount
  cases hcount

end PosixAcl
