import Mathlib.Data.List.Basic
import PosixAcl.Proofs.Tool.Arguments
import PosixAcl.Proofs.Tool.Visits

/-!
# What command lines ask for

A command line is refused, it asks for help, or it asks for a task. A task that
changes lists is selected by the only flag that selects a change, and the operands
that go with this flag give its path and its entries.
-/

namespace PosixAcl

/-! ## Flags that select a change -/

namespace Flag

/-- Whether a flag selects a change. -/
def isChange : Flag → Bool
  | .help | .recursive => false
  | .keepBase | .dropDefault | .merge | .remove | .replace => true

/-- The change and the path that a flag and the operands select. Merging, removing and replacing take
a specification before the path, whose entries stay in their order. -/
inductive Selects : Flag → List Bytes → Change → Path → Prop where
  | keepBase (path : Bytes) : Selects .keepBase [path] .keepBase ⟨path⟩
  | dropDefault (path : Bytes) : Selects .dropDefault [path] .dropDefault ⟨path⟩
  | merge {spec : Bytes} {text : Text} {entries : List Entry} (path : Bytes)
      (htext : Utf8.decode? spec = some text) (hentries : readSpec text = .ok entries) :
      Selects .merge [spec, path] (.merge entries) ⟨path⟩
  | remove {spec : Bytes} {text : Text} {entries : List Entry} (path : Bytes)
      (htext : Utf8.decode? spec = some text) (hentries : readSpec text = .ok entries) :
      Selects .remove [spec, path] (.remove entries) ⟨path⟩
  | replace {spec : Bytes} {text : Text} {entries : List Entry} (path : Bytes)
      (htext : Utf8.decode? spec = some text) (hentries : readSpec text = .ok entries) :
      Selects .replace [spec, path] (.replace entries) ⟨path⟩

end Flag

namespace Invocation

variable {flags : List Flag} {operands : List Bytes}

/-- Flags for changes are combined exactly if two of them are different. -/
theorem conflicting_eq_false_iff :
    conflicting flags = false ↔
      ∀ flag ∈ flags, ∀ other ∈ flags, flag.isChange = true → other.isChange = true →
        flag = other := by
  constructor
  · intro h flag hflag other hother _ _
    simp only [conflicting, List.contains_eq_mem] at h
    cases flag <;> cases other <;> simp_all [Flag.isChange]
  · intro h
    rw [Bool.eq_false_iff]
    intro hconflict
    simp only [conflicting, List.contains_eq_mem, Bool.or_eq_true, Bool.and_eq_true,
      decide_eq_true_eq] at hconflict
    have hdifferent : ∀ flag other : Flag, flag.isChange = true → other.isChange = true →
        flag ≠ other → flag ∈ flags → other ∈ flags → False :=
      fun flag other hflag hother hne hin hin' => hne (h flag hin other hin' hflag hother)
    grind [Flag.isChange]

/-- Where one flag only selects a change, it is the only flag for a change that occurs. -/
theorem mem_iff_of_filter {flag other : Flag} (hflag : flags.filter Flag.isChange = [flag])
    (hother : other.isChange = true) : other ∈ flags ↔ other = flag := by
  have hmem : other ∈ flags.filter Flag.isChange ↔ other ∈ [flag] := by rw [hflag]
  rwa [List.mem_filter, List.mem_singleton, and_iff_left hother] at hmem

/-- Among flags of which none occurs twice and no two select different changes, one that selects a
change is the only one that does. -/
theorem filter_eq_singleton (hnodup : flags.Nodup) (hfree : conflicting flags = false)
    {flag : Flag} (hmem : flag ∈ flags) (hchange : flag.isChange = true) :
    flags.filter Flag.isChange = [flag] := by
  have hthere : flag ∈ flags.filter Flag.isChange := List.mem_filter.mpr ⟨hmem, hchange⟩
  have hsame : ∀ other ∈ flags.filter Flag.isChange, other = flag := by
    intro other hother
    obtain ⟨hin, hothers⟩ := List.mem_filter.mp hother
    exact conflicting_eq_false_iff.mp hfree other hin flag hmem hothers hchange
  have honce : (flags.filter Flag.isChange).Nodup := hnodup.filter _
  cases hfilter : flags.filter Flag.isChange with
  | nil => simp [hfilter] at hthere
  | cons first rest =>
    rw [hfilter] at hsame honce
    have hrest : rest = [] := by
      rw [List.eq_nil_iff_forall_not_mem]
      intro other hother
      have hfirst := hsame first List.mem_cons_self
      have hlater := hsame other (List.mem_cons_of_mem _ hother)
      exact (List.nodup_cons.mp honce).1 (hfirst.trans hlater.symm ▸ hother)
    rw [hrest, hsame first List.mem_cons_self]

/-- Where there is a change to make, a flag selects it. -/
theorem exists_mem_of_change? {entries : List Entry} {what : Change}
    (h : change? flags entries = some what) : ∃ flag ∈ flags, flag.isChange = true := by
  unfold change? at h
  simp only [List.contains_iff_mem] at h
  split_ifs at h with hkeep hdrop hmerge hremove hreplace
  · exact ⟨_, hkeep, rfl⟩
  · exact ⟨_, hdrop, rfl⟩
  · exact ⟨_, hmerge, rfl⟩
  · exact ⟨_, hremove, rfl⟩
  · exact ⟨_, hreplace, rfl⟩

/-- A single path is the only operand. -/
theorem singlePath_eq_ok_iff {path : Path} :
    singlePath operands = .ok path ↔ operands = [path.bytes] := by
  obtain ⟨bytes⟩ := path
  match operands with
  | [] => simp [singlePath]
  | [operand] => simp [singlePath]
  | _ :: _ :: _ => simp [singlePath]

/-- The entries are those of the specification before the path, if the flags ask for one. -/
theorem takeEntries_eq_ok_iff {entries : List Entry} {path : Bytes} :
    takeEntries flags operands = .ok (entries, [path]) ↔
      if takesSpec flags then
        ∃ spec text, operands = [spec, path] ∧ Utf8.decode? spec = some text ∧
          readSpec text = .ok entries
      else entries = [] ∧ operands = [path] := by
  unfold takeEntries
  split
  · constructor
    · intro h
      split at h
      · split at h
        · cases h
        · rename_i text htext
          split at h
          · cases h
          · rename_i hread
            obtain ⟨rfl, hrest⟩ := Prod.mk.inj (Except.ok.inj h)
            exact ⟨_, text, by rw [hrest], htext, hread⟩
      · cases h
    · rintro ⟨spec, text, rfl, htext, hread⟩
      simp [htext, hread]
  · simp [eq_comm]

/-- What the tool that changes lists is to do is settled step by step. -/
theorem ofChange_eq_ok_iff {edit : Invocation Change} :
    ofChange ⟨flags, operands⟩ = .ok edit ↔
      conflicting flags = false ∧ edit.recursive = flags.contains .recursive ∧
        ∃ entries, takeEntries flags operands = .ok (entries, [edit.path.bytes]) ∧
          change? flags entries = some edit.action := by
  constructor
  · intro h
    unfold ofChange at h
    split at h
    · cases h
    · rename_i hfree
      split at h
      · cases h
      · rename_i entries rest htake
        split at h
        · cases h
        · rename_i path hpath
          split at h
          · cases h
          · rename_i what hchange
            obtain rfl := Except.ok.inj h
            refine ⟨by simpa using hfree, rfl, entries, ?_, hchange⟩
            rw [htake, singlePath_eq_ok_iff.mp hpath]
  · rintro ⟨hfree, hrecursive, entries, htake, hchange⟩
    have hpath : singlePath [edit.path.bytes] = .ok edit.path := singlePath_eq_ok_iff.mpr rfl
    simp only [ofChange, hfree, htake, hpath, hchange, ← hrecursive, Bool.false_eq_true, if_false]

/-- Where one flag only selects a change, however often it occurs, it decides with the operands what
is to be done. -/
theorem ofChange_eq_ok_iff_of_mem {flag : Flag} (hchange : flag.isChange = true)
    (hmem : ∀ other : Flag, other.isChange = true → (other ∈ flags ↔ other = flag))
    {edit : Invocation Change} :
    ofChange ⟨flags, operands⟩ = .ok edit ↔
      edit.recursive = flags.contains .recursive ∧ flag.Selects operands edit.action edit.path := by
  obtain ⟨recursive, what, path⟩ := edit
  have hfree : conflicting flags = false := by
    refine conflicting_eq_false_iff.mpr fun first hfirst second hsecond hchange hchange' => ?_
    rw [(hmem first hchange).mp hfirst, (hmem second hchange').mp hsecond]
  rw [ofChange_eq_ok_iff, and_iff_right hfree]
  refine and_congr_right fun _ => ?_
  simp only [takeEntries_eq_ok_iff, takesSpec, change?, List.contains_iff_mem, Bool.or_eq_true,
    hmem .keepBase rfl, hmem .dropDefault rfl, hmem .merge rfl, hmem .remove rfl,
    hmem .replace rfl]
  cases flag with
  | help | recursive => cases hchange
  | keepBase =>
    simp only [reduceCtorEq, or_self, if_true, if_false, Option.some.injEq]
    constructor
    · rintro ⟨entries, ⟨-, rfl⟩, rfl⟩
      exact .keepBase path.bytes
    · rintro ⟨⟩
      exact ⟨[], ⟨rfl, rfl⟩, rfl⟩
  | dropDefault =>
    simp only [reduceCtorEq, or_self, if_true, if_false, Option.some.injEq]
    constructor
    · rintro ⟨entries, ⟨-, rfl⟩, rfl⟩
      exact .dropDefault path.bytes
    · rintro ⟨⟩
      exact ⟨[], ⟨rfl, rfl⟩, rfl⟩
  | merge =>
    simp only [reduceCtorEq, or_false, if_true, if_false, Option.some.injEq]
    constructor
    · rintro ⟨entries, ⟨spec, text, rfl, htext, hread⟩, rfl⟩
      exact .merge path.bytes htext hread
    · rintro ⟨⟩
      exact ⟨_, ⟨_, _, rfl, ‹_›, ‹_›⟩, rfl⟩
  | remove =>
    simp only [reduceCtorEq, or_false, false_or, if_true, if_false, Option.some.injEq]
    constructor
    · rintro ⟨entries, ⟨spec, text, rfl, htext, hread⟩, rfl⟩
      exact .remove path.bytes htext hread
    · rintro ⟨⟩
      exact ⟨_, ⟨_, _, rfl, ‹_›, ‹_›⟩, rfl⟩
  | replace =>
    simp only [reduceCtorEq, or_self, false_or, if_true, if_false, Option.some.injEq]
    constructor
    · rintro ⟨entries, ⟨spec, text, rfl, htext, hread⟩, rfl⟩
      exact .replace path.bytes htext hread
    · rintro ⟨⟩
      exact ⟨_, ⟨_, _, rfl, ‹_›, ‹_›⟩, rfl⟩

/-- Where one flag only selects a change, it decides with the operands what is to be done. -/
theorem ofChange_eq_ok_iff_of_filter {flag : Flag} (hflag : flags.filter Flag.isChange = [flag])
    {edit : Invocation Change} :
    ofChange ⟨flags, operands⟩ = .ok edit ↔
      edit.recursive = flags.contains .recursive ∧ flag.Selects operands edit.action edit.path :=
  ofChange_eq_ok_iff_of_mem (List.mem_filter.mp (hflag ▸ List.mem_singleton_self flag)).2
    fun _ => mem_iff_of_filter hflag

/-- What the tool that changes lists is to do is selected by the only flag for a change. -/
theorem exists_selects_of_ofChange (hnodup : flags.Nodup) {edit : Invocation Change}
    (h : ofChange ⟨flags, operands⟩ = .ok edit) :
    ∃ flag, flags.filter Flag.isChange = [flag] ∧ edit.recursive = flags.contains .recursive ∧
      flag.Selects operands edit.action edit.path := by
  obtain ⟨hfree, -, entries, -, hchange⟩ := ofChange_eq_ok_iff.mp h
  obtain ⟨flag, hmem, hflag⟩ := exists_mem_of_change? hchange
  have hfilter := filter_eq_singleton hnodup hfree hmem hflag
  exact ⟨flag, hfilter, (ofChange_eq_ok_iff_of_filter hfilter).mp h⟩

end Invocation

/-! ## What a command line asks for -/

namespace Tool

/-- A command line is refused: its flags cannot be read, or they ask for no help and do not fit the
operands, or the specification cannot be read. -/
inductive Refuses (arguments : List Bytes) : Tool → ToolError → Prop where
  | arguments {tool : Tool} {error : ArgumentError}
      (hread : Arguments.read tool arguments.tail = .error error) :
      Refuses arguments tool (.usage (.arguments error))
  | query {parsed : Arguments} {error : ToolError}
      (hread : Arguments.read .getfacl arguments.tail = .ok parsed)
      (hhelp : .help ∉ parsed.flags) (hquery : Invocation.ofQuery parsed = .error error) :
      Refuses arguments .getfacl error
  | change {parsed : Arguments} {error : ToolError}
      (hread : Arguments.read .setfacl arguments.tail = .ok parsed)
      (hhelp : .help ∉ parsed.flags) (hchange : Invocation.ofChange parsed = .error error) :
      Refuses arguments .setfacl error

/-- A command line asks for help. -/
def AsksForHelp (tool : Tool) (arguments : List Bytes) : Prop :=
  ∃ parsed, Arguments.read tool arguments.tail = .ok parsed ∧ .help ∈ parsed.flags

/-- A command line asks for a task on a path, or on the whole tree from there on. The tool that
shows lists takes one operand, the path. For the other one a single flag selects the change. -/
inductive Requests (arguments : List Bytes) : Tool → Bool → Path → Task → Prop where
  | list {flags : List Flag} {path : Bytes}
      (hread : Arguments.read .getfacl arguments.tail = .ok ⟨flags, [path]⟩)
      (hhelp : .help ∉ flags) :
      Requests arguments .getfacl (flags.contains .recursive) ⟨path⟩ .list
  | change {flags : List Flag} {operands : List Bytes} {flag : Flag} {what : Change} {path : Path}
      (hread : Arguments.read .setfacl arguments.tail = .ok ⟨flags, operands⟩)
      (hhelp : .help ∉ flags) (hflag : flags.filter Flag.isChange = [flag])
      (hselects : flag.Selects operands what path) :
      Requests arguments .setfacl (flags.contains .recursive) path (.change what)

/-- Every command line is refused, or asks for help, or asks for a task. -/
theorem refuses_or_asksForHelp_or_requests (tool : Tool) (arguments : List Bytes) :
    (∃ error, Refuses arguments tool error) ∨ tool.AsksForHelp arguments ∨
      ∃ recursive path task, Requests arguments tool recursive path task := by
  cases hread : Arguments.read tool arguments.tail with
  | error error => exact Or.inl ⟨_, .arguments hread⟩
  | ok parsed =>
    by_cases hhelp : .help ∈ parsed.flags
    · exact Or.inr (Or.inl ⟨parsed, hread, hhelp⟩)
    · cases tool with
      | getfacl =>
        cases hquery : Invocation.ofQuery parsed with
        | error error => exact Or.inl ⟨_, .query hread hhelp hquery⟩
        | ok query =>
          obtain ⟨flags, operands⟩ := parsed
          unfold Invocation.ofQuery at hquery
          split at hquery
          · cases hquery
          · rename_i path hpath
            obtain rfl := Invocation.singlePath_eq_ok_iff.mp hpath
            exact Or.inr (Or.inr ⟨_, _, _, .list hread hhelp⟩)
      | setfacl =>
        cases hchange : Invocation.ofChange parsed with
        | error error => exact Or.inl ⟨_, .change hread hhelp hchange⟩
        | ok edit =>
          obtain ⟨flags, operands⟩ := parsed
          obtain ⟨-, -, -, -, hnodup, -⟩ := Arguments.read_eq_ok_iff.mp hread
          obtain ⟨flag, hflag, -, hselects⟩ :=
            Invocation.exists_selects_of_ofChange hnodup hchange
          exact Or.inr (Or.inr ⟨_, _, _, .change hread hhelp hflag hselects⟩)

variable {σ : Type} {backend : Backend σ} {arguments : List Bytes} {tool : Tool}

/-- A command line that is refused is refused without a call. -/
theorem Refuses.run_eq {error : ToolError} (h : Refuses arguments tool error)
    (backend : Backend σ) (session : Session σ) :
    tool.run backend arguments session = Run.refuse tool error session := by
  cases h with
  | arguments hread => simp only [run, hread]
  | query hread hhelp hquery => simp [run, hread, hhelp, hquery]
  | change hread hhelp hchange => simp [run, hread, hhelp, hchange]

/-- A command line that asks for help gets the help text without a call. -/
theorem AsksForHelp.run_eq (h : tool.AsksForHelp arguments) (backend : Backend σ)
    (session : Session σ) : tool.run backend arguments session = Run.help tool session := by
  obtain ⟨parsed, hread, hhelp⟩ := h
  simp [run, hread, hhelp]

/-- A command line that asks for a listing gets it. -/
theorem Requests.run_eq_query {recursive : Bool} {path : Path} {task : Task}
    (h : Requests arguments .getfacl recursive path task) (backend : Backend σ) :
    task = .list ∧ ∀ session : Session σ,
      Tool.run .getfacl backend arguments session =
        Run.query backend ⟨recursive, (), path⟩ session := by
  cases h with
  | @list flags bytes hread hhelp =>
    have hquery : Invocation.ofQuery ⟨flags, [bytes]⟩ =
        .ok ⟨flags.contains .recursive, (), ⟨bytes⟩⟩ := rfl
    refine ⟨rfl, fun session => ?_⟩
    simp only [run, hread, List.contains_iff_mem, hhelp, hquery, if_false]

/-- A command line that asks for a change makes it. -/
theorem Requests.exists_run_eq_edit {recursive : Bool} {path : Path} {task : Task}
    (h : Requests arguments .setfacl recursive path task) (backend : Backend σ) :
    ∃ what, task = .change what ∧ ∀ session : Session σ,
      Tool.run .setfacl backend arguments session =
        Run.edit backend ⟨recursive, what, path⟩ session := by
  cases h with
  | @change flags operands flag what path hread hhelp hflag hselects =>
    have hedit : Invocation.ofChange ⟨flags, operands⟩ =
        .ok ⟨flags.contains .recursive, what, path⟩ :=
      (Invocation.ofChange_eq_ok_iff_of_filter hflag).mpr ⟨rfl, hselects⟩
    refine ⟨what, rfl, fun session => ?_⟩
    simp only [run, hread, List.contains_iff_mem, hhelp, hedit, if_false]

/-- With working outputs, a run for a task comes to what the task comes to. It reports each failure,
and sums up if it is incomplete. -/
theorem Requests.run_eq {recursive : Bool} {path : Path} {task : Task}
    (h : Requests arguments tool recursive path task) {session : Session σ}
    (hspeaks : session.Speaks) (hstdout : session.stdout.capacity = none)
    (hflush : session.stdout.flushFails = false) {visited : Nat} {met : Outcome σ}
    (hmeets : task.Meets backend recursive path session.store visited met) :
    let code := (Run.tallyOf visited met).exitCode
    tool.run backend arguments session =
      (code, (session.after met).saying (if code = .incomplete then [code.message] else [])) := by
  intro code
  rw [← Run.finish_of_speaks (hspeaks.after met)]
  cases tool with
  | getfacl =>
    obtain ⟨rfl, hrun⟩ := h.run_eq_query backend
    have hmet : Run.invocation backend (⟨recursive, (), path⟩ : Invocation Unit)
        (PathAction.list backend) session = _ :=
      Run.invocation_of_meets (PathAction.does_list backend) (PathAction.adds_list backend) hspeaks
        hstdout hmeets
    rw [hrun session, Run.query_of_flush hflush, hmet]
  | setfacl =>
    obtain ⟨what, rfl, hrun⟩ := h.exists_run_eq_edit backend
    have hmet : Run.invocation backend (⟨recursive, what, path⟩ : Invocation Change)
        (PathAction.change backend what) session = _ :=
      Run.invocation_of_meets (PathAction.does_change backend what)
        (PathAction.adds_change backend what) hspeaks hstdout hmeets
    simp only [hrun, Run.edit, hmet]
    rfl

end Tool

end PosixAcl
