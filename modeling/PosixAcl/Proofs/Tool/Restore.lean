import PosixAcl.Proofs.Namespace.Legible
import PosixAcl.Proofs.Text.Utf8
import PosixAcl.Proofs.Tool.Arguments
import PosixAcl.Proofs.Tool.Invariants
import PosixAcl.Proofs.Tool.Session

/-!
# Restoring lists

The entries of a stored list, written between commas, can be given back to the tool
to restore the list, or to copy it to another file. This works in every namespace
in which lists were changed with the tool only, since then all of them can be
written into a specification.
-/

namespace PosixAcl

open Namespace

/-! ## Histories -/

/-- The entries that a command line gives are legible. -/
theorem Invocation.legible_of_takeEntries {flags : List Flag} {operands rest : List Bytes}
    {entries : List Entry} (h : Invocation.takeEntries flags operands = .ok (entries, rest)) :
    ∀ e ∈ entries, e.Legible := by
  unfold Invocation.takeEntries at h
  split at h
  · split at h
    · split at h
      · cases h
      · split at h
        · cases h
        · rename_i hread
          obtain ⟨rfl, -⟩ := Prod.mk.inj (Except.ok.inj h)
          exact legible_of_readSpec hread
    · cases h
  · obtain ⟨rfl, -⟩ := Prod.mk.inj (Except.ok.inj h)
    simp

/-- A change puts in the entries that were given for it, if any. -/
theorem Invocation.mem_of_change? {flags : List Flag} {entries : List Entry} {change : Change}
    (h : Invocation.change? flags entries = some change) : ∀ e ∈ change.entries, e ∈ entries := by
  unfold Invocation.change? at h
  intro e he
  by_cases hkeep : flags.contains .keepBase = true
  · rw [if_pos hkeep] at h
    cases h
    cases he
  by_cases hdrop : flags.contains .dropDefault = true
  · rw [if_neg hkeep, if_pos hdrop] at h
    cases h
    cases he
  by_cases hmerge : flags.contains .merge = true
  · rw [if_neg hkeep, if_neg hdrop, if_pos hmerge] at h
    cases h
    exact he
  by_cases hremove : flags.contains .remove = true
  · rw [if_neg hkeep, if_neg hdrop, if_neg hmerge, if_pos hremove] at h
    cases h
    cases he
  rw [if_neg hkeep, if_neg hdrop, if_neg hmerge, if_neg hremove] at h
  split at h
  · cases h
    exact he
  · cases h

/-- Whatever a command line asks to put in is legible. -/
theorem Invocation.legible_of_ofChange {parsed : Arguments} {edit : Invocation Change}
    (h : Invocation.ofChange parsed = .ok edit) : ∀ e ∈ edit.action.entries, e.Legible := by
  unfold Invocation.ofChange at h
  split at h
  · cases h
  · split at h
    · cases h
    · rename_i htake
      split at h
      · cases h
      · split at h
        · cases h
        · rename_i hchange
          obtain rfl := Except.ok.inj h
          intro e he
          exact Invocation.legible_of_takeEntries htake e (Invocation.mem_of_change? hchange e he)

/-- What may happen to a namespace in which lists are changed with the tool only. -/
inductive ToolEvent where
  /-- A file or a directory is made. -/
  | create (path : Path) (directory : Bool) (owner group : Text) (mode : Nat)
  /-- Another user acts from now on. -/
  | actAs (user : Text)
  /-- The tool is run with some arguments and outputs. -/
  | run (arguments : List Bytes) (stdout stderr : Output)
deriving DecidableEq, Repr

namespace Namespace

/-- The namespace after an event, whether or not it succeeds. -/
def afterTool (ns : Namespace) : ToolEvent → Namespace
  | .create path directory owner group mode => ns.after (.create path directory owner group mode)
  | .actAs user => ns.after (.actAs user)
  | .run arguments stdout stderr =>
    (Tool.run .setfacl backend arguments (.start .setfacl ns stdout stderr)).2.store

/-- A namespace to which some events lead from the new one. -/
def ToolReachable (ns : Namespace) : Prop :=
  ∃ events : List ToolEvent, events.foldl afterTool initial = ns

variable {ns : Namespace}

/-- No call for a change with legible entries breaks a well-formed and legible namespace. -/
theorem keeps_legible {change : Change} (hentries : ∀ e ∈ change.entries, e.Legible) :
    backend.Keeps change fun ns => ns.WellFormed ∧ ns.Legible where
  fileStatus _ _ h := h
  children _ _ h := h
  change path ns h := by
    cases hchange : ns.change path change with
    | error error => simpa only [backend, hchange] using h
    | ok changed =>
      simpa only [backend, hchange] using
        And.intro (h.1.change hchange) (h.2.change h.1 hentries hchange)

/-- Every event keeps a namespace well formed and legible. -/
theorem afterTool_keeps (h : ns.WellFormed ∧ ns.Legible) (event : ToolEvent) :
    (ns.afterTool event).WellFormed ∧ (ns.afterTool event).Legible := by
  cases event with
  | create path directory owner group mode =>
    refine ⟨h.1.after (.create path directory owner group mode), ?_⟩
    simp only [afterTool, after]
    split
    · exact h.2
    · rename_i made hok
      exact h.2.create h.1 hok
  | actAs user => exact ⟨h.1.after (.actAs user), h.2⟩
  | run arguments stdout stderr =>
    exact Tool.run_keeps
      (fun _ _ _ hedit => keeps_legible (Invocation.legible_of_ofChange hedit)) h

/-- A namespace that is reached with the tool is well formed and legible. -/
theorem ToolReachable.wellFormed_legible (h : ns.ToolReachable) : ns.WellFormed ∧ ns.Legible := by
  obtain ⟨events, rfl⟩ := h
  have hall : ∀ {start : Namespace}, start.WellFormed ∧ start.Legible →
      (events.foldl afterTool start).WellFormed ∧ (events.foldl afterTool start).Legible := by
    induction events with
    | nil => exact id
    | cons event rest ih => exact fun hstart => ih (afterTool_keeps hstart event)
  exact hall ⟨wellFormed_initial, legible_initial⟩

end Namespace

/-! ## The command line -/

/-- A specification of written entries is an operand. -/
theorem Arguments.Token.ofBytes_texts {acl : Acl} (hne : acl ≠ []) :
    Arguments.Token.ofBytes (Utf8.encode (joinFields ',' (acl.map Entry.text))) = .operand := by
  cases acl with
  | nil => exact absurd rfl hne
  | cons e rest =>
    obtain ⟨first, middle, last, htext, hfirst, -⟩ := e.exists_text_eq
    obtain ⟨tail, hjoined⟩ : ∃ tail,
        joinFields ',' ((e :: rest).map Entry.text) = first :: tail := by
      cases rest with
      | nil => exact ⟨_, htext⟩
      | cons f rest =>
        rw [List.map_cons, joinFields_cons ',' e.text (by simp), htext]
        exact ⟨_, rfl⟩
    obtain ⟨b, hb, hdash⟩ : ∃ b, Utf8.encodeChar first = [b] ∧ b ≠ Arguments.dash := by
      simp only [List.mem_cons, List.not_mem_nil, or_false] at hfirst
      rcases hfirst with rfl | rfl | rfl | rfl | rfl <;> exact ⟨_, rfl, by decide⟩
    have hbytes : Utf8.encode (first :: tail) = b :: Utf8.encode tail := by
      rw [Utf8.encode, List.flatMap_cons, hb]
      rfl
    rw [hjoined, hbytes]
    exact Arguments.ofBytes_operand (Or.inr fun hfirst => hdash (Option.some.inj hfirst))

/-- The command line that gives a file the entries of a list. -/
def restoreArguments (program : Bytes) (acl : Acl) (target : Path) : List Bytes :=
  [program, Utf8.encode ['-', '-', 's', 'e', 't'],
    Utf8.encode (joinFields ',' (acl.map Entry.text)), target.bytes]

/-- It asks for the replacement by just these entries. -/
theorem asksFor_restoreArguments (program : Bytes) {acl : Acl} (hne : acl ≠ [])
    (hlegible : ∀ e ∈ acl, e.Legible) (target : Path) :
    Tool.AsksFor (restoreArguments program acl target) ⟨false, .replace acl, target⟩ := by
  have hword : Arguments.Token.ofBytes (Utf8.encode ['-', '-', 's', 'e', 't']) =
      .word [0x73, 0x65, 0x74] none := by decide
  have hflag : Arguments.readWord .setfacl [] [0x73, 0x65, 0x74] none = .ok [.replace] := by decide
  refine ⟨⟨[.replace], [Utf8.encode (joinFields ',' (acl.map Entry.text)), target.bytes]⟩,
    ?_, rfl, ?_⟩
  · simp only [restoreArguments, List.tail_cons, Arguments.read, Arguments.readAfter, hword, hflag,
      Arguments.Token.ofBytes_texts hne]
  · have htake : Invocation.takeEntries [.replace]
        [Utf8.encode (joinFields ',' (acl.map Entry.text)), target.bytes] =
          .ok (acl, [target.bytes]) := by
      have htakes : Invocation.takesSpec [.replace] = true := rfl
      simp only [Invocation.takeEntries, htakes, if_true, Utf8.decode?_encode,
        readSpec_texts hne hlegible]
    have hfree : Invocation.conflicting [.replace] = false := rfl
    simp only [Invocation.ofChange, hfree, htake, Bool.false_eq_true, if_false,
      Invocation.singlePath]
    rfl

/-- A stored list is given to another file by one command line, unless the other file may not be
changed or cannot have default entries. -/
theorem Namespace.run_restoreArguments {ns : Namespace} (h : ns.WellFormed) (hlegible : ns.Legible)
    {location : Location} {node : Node} (hnode : ns.find? location = some node) {target : Path}
    {other : Node} (hother : ns.find? target.location = some other)
    (hmay : ns.mayChange other = true)
    (hdefault : node.acl.hasDefault = true → other.directory = true) (program : Bytes)
    (stdout stderr : Output) :
    Tool.run .setfacl backend (restoreArguments program node.acl target)
        (.start .setfacl ns stdout stderr) =
      (.success, .start .setfacl (ns.withAcl target.location.names other node.acl)
        stdout stderr) := by
  have hmem := Tree.mem_of_get? (find?_eq_some_iff.mp hnode).2
  have hacl := h.acl _ hmem
  have hne : node.acl ≠ [] := by
    intro hnil
    have hbase := hacl.access_base .user (by decide)
    rw [hnil] at hbase
    cases hbase
  have hallowed : other.directory = true ∨ node.acl.hasDefault = false := by
    cases hany : node.acl.hasDefault with
    | true => exact Or.inl (hdefault hany)
    | false => exact Or.inr rfl
  have hedit : ns.edit (.replace node.acl) other = .ok node.acl :=
    edit_eq_ok_iff.mpr ⟨hmay, hacl.replace_eq, hallowed⟩
  have hchange : ns.change target (.replace node.acl) =
      .ok (ns.withAcl target.location.names other node.acl) :=
    change_eq_ok_iff.mpr ⟨other, node.acl, hother, hedit, rfl⟩
  exact (asksFor_restoreArguments program hne (hlegible _ hmem) target).run_single rfl hchange

/-- Backup and restore. In a namespace that is reached by making files and by running the tool, let
the stored entries of a file be written between commas. Setting them on the file itself succeeds and
changes nothing at all. Setting them on another file, which may have default entries if there are
any, succeeds and leaves that file with just these entries, masks included, and changes nothing
else. -/
theorem Tool.run_restore {ns : Namespace} (hreached : ns.ToolReachable) {source : Path}
    {node : Node} (hnode : ns.find? source.location = some node) (program : Bytes)
    (stdout stderr : Output) :
    let text := joinFields ',' (node.acl.map Entry.text)
    let restore := fun target : Path => Tool.run .setfacl backend
      [program, Utf8.encode ['-', '-', 's', 'e', 't'], Utf8.encode text, target.bytes]
      (.start .setfacl ns stdout stderr)
    (ns.mayChange node = true → restore source = (.success, .start .setfacl ns stdout stderr)) ∧
    ∀ target other, ns.find? target.location = some other → ns.mayChange other = true →
      (node.acl.hasDefault = true → other.directory = true) →
      (restore target).1 = .success ∧
      (restore target).2.store.find? target.location = some { other with acl := node.acl } ∧
      ∀ location, location ≠ target.location →
        (restore target).2.store.find? location = ns.find? location := by
  intro text restore
  obtain ⟨h, hlegible⟩ := hreached.wellFormed_legible
  have hmem := Tree.mem_of_get? (find?_eq_some_iff.mp hnode).2
  refine ⟨fun hmay => ?_, fun target other hother hmay hdefault => ?_⟩
  · -- A file that is not a directory has no default entries, so it can be given its own ones.
    have hdefault : node.acl.hasDefault = true → node.directory = true := by
      intro hany
      cases hdirectory : node.directory with
      | true => rfl
      | false =>
        rw [h.noDefault _ hmem hdirectory] at hany
        cases hany
    have hrun := run_restoreArguments h hlegible hnode hnode hmay hdefault program stdout stderr
    rwa [h.withAcl_self hnode] at hrun
  · have hrun : restore target = _ :=
      run_restoreArguments h hlegible hnode hother hmay hdefault program stdout stderr
    rw [hrun]
    exact ⟨rfl, h.find?_withAcl hother node.acl,
      fun location hne => h.find?_withAcl_of_ne hother hne node.acl⟩

/-- The list of `/d` names a user, and has a mask that is narrower than what the user is granted. It
is given to the root directory as it is. -/
theorem Tool.run_restore_narrow_mask :
    let spec : Text := ['u', 's', 'e', 'r', ':', 'b', ':', 'r', 'w', 'x', ',',
      'm', 'a', 's', 'k', ':', ':', 'r', '-', '-']
    let ns := [.create ⟨[0x2F, 0x64]⟩ true ['a'] ['a'] 0o755,
      .run [[], [0x2D, 0x6D], Utf8.encode spec, [0x2F, 0x64]] {} {}].foldl afterTool initial
    let acl : Acl := [⟨.access, .user, [], ⟨true, true, true⟩⟩,
      ⟨.access, .user, ['b'], ⟨true, true, true⟩⟩, ⟨.access, .group, [], ⟨true, false, true⟩⟩,
      ⟨.access, .mask, [], ⟨true, false, false⟩⟩, ⟨.access, .other, [], ⟨true, false, true⟩⟩]
    let text := joinFields ',' (acl.map Entry.text)
    ns.ToolReachable ∧
      ns.find? (Path.mk [0x2F, 0x64]).location = some ⟨true, ['a'], ['a'], false, acl⟩ ∧
      ns.find? (Path.mk [0x2F]).location = some rootNode ∧ ns.mayChange rootNode = true ∧
      (acl.hasDefault = true → rootNode.directory = true) ∧
      (Tool.run .setfacl backend
        [[], Utf8.encode ['-', '-', 's', 'e', 't'], Utf8.encode text, [0x2F]]
        (.start .setfacl ns {} {})).2.store.find? (Path.mk [0x2F]).location =
          some { rootNode with acl } := by
  intro spec ns acl text
  have hreached : ns.ToolReachable := ⟨_, rfl⟩
  have hnode : ns.find? (Path.mk [0x2F, 0x64]).location =
      some ⟨true, ['a'], ['a'], false, acl⟩ := by decide +kernel
  have hroot : ns.find? (Path.mk [0x2F]).location = some rootNode := by decide +kernel
  have hmay : ns.mayChange rootNode = true := by decide +kernel
  have hdefault : acl.hasDefault = true → rootNode.directory = true := fun _ => rfl
  refine ⟨hreached, hnode, hroot, hmay, hdefault, ?_⟩
  exact ((Tool.run_restore hreached hnode [] {} {}).2 ⟨[0x2F]⟩ rootNode hroot hmay hdefault).2.1
end PosixAcl
