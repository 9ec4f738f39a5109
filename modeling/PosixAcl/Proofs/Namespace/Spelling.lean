import PosixAcl.Proofs.Namespace.Locality
import PosixAcl.Proofs.Namespace.Repetition
import PosixAcl.Proofs.Store.Spelling

/-!
# The spelling of paths in calls

However a path is spelled, a call with it finds and makes the same files and reports
the same failures. So a run in which paths are spelled differently leads to the same
namespace. Two paths that are not spellings of one place never lead to one file.
-/

namespace PosixAcl.Namespace

variable {ns later : Namespace} {p q : Path}

/-! ## One place -/

/-- Making a file depends on the location of its path only. -/
theorem create_congr (hlocation : p.location = q.location) (directory : Bool) (owner group : Text)
    (mode : Nat) : ns.create p directory owner group mode = ns.create q directory owner group mode := by
  simp only [create, hlocation]

/-- What is asked about a path depends on its location only, and on the file there. -/
theorem status_congr (hlocation : p.location = q.location)
    (hfind : later.find? q.location = ns.find? q.location) :
    later.fileStatus p = ns.fileStatus q ∧ later.aclStatus p = ns.aclStatus q := by
  simp only [fileStatus, aclStatus, hfind, hlocation, and_self]

/-- Events that differ in the spelling of a path at most. -/
inductive Event.Respells : Event → Event → Prop where
  /-- The same file is made. -/
  | create {p q : Path} (h : p.Respells q) (directory : Bool) (owner group : Text) (mode : Nat) :
      Respells (.create p directory owner group mode) (.create q directory owner group mode)
  /-- The same user acts. -/
  | actAs (user : Text) : Respells (.actAs user) (.actAs user)
  /-- The list of the same file is changed. -/
  | change {p q : Path} (h : p.Respells q) (what : Change) :
      Respells (.change p what) (.change q what)

/-- Events that differ in the spelling of a path at most do the same. -/
theorem after_eq_of_respells {event other : Event} (h : event.Respells other) (ns : Namespace) :
    ns.after event = ns.after other := by
  cases h with
  | create hpath directory owner group mode =>
    simp only [after, create_congr (Path.respells_iff.mp hpath)]
  | actAs user => rfl
  | change hpath what => simp only [after, change_congr (Path.respells_iff.mp hpath)]

/-- Runs that differ in the spelling of paths at most lead to the same namespace. -/
theorem afterAll_eq_of_respells {events others : List Event}
    (h : List.Forall₂ Event.Respells events others) (ns : Namespace) :
    ns.afterAll events = ns.afterAll others := by
  induction h generalizing ns with
  | nil => rfl
  | cons hfirst _ ih =>
    simp only [afterAll, List.foldl_cons, after_eq_of_respells hfirst]
    exact ih _

/-! ## Different places -/

/-- The type of a file is reported under the plain spelling of its path. -/
theorem path_of_fileStatus {status : FileStatus} (hok : ns.fileStatus p = .ok status) :
    status.path = p.normal := by
  unfold fileStatus at hok
  cases hfind : ns.find? p.location with
  | none => simp [hfind] at hok
  | some node =>
    simp only [hfind] at hok
    rw [← Except.ok.inj hok]
    rfl

/-- A refused change is reported under the plain spelling of its path. -/
theorem path_of_change {what : Change} {error : StoreError}
    (herror : ns.change p what = .error error) : error.path = p.normal := by
  cases change_eq_error_iff.mp herror <;> rfl

/-- In every state, reached or not: two paths that are spellings of one place make no difference to
making a file, to a change, to a question or to a listing. The answer is the same, with its failure
and the path that it shows, and so is the next state. Two other paths never lead to one file: the
files that are found there have different paths, and a file that is made or changed at one of them
leaves what is found at the other. The path that is shown is the plain spelling. It is a spelling of
the same place, and it is its own plain spelling. -/
theorem spelling_does_not_matter (ns : Namespace) (p q : Path) :
    (p.Respells q →
      (∀ directory owner group mode,
        ns.create p directory owner group mode = ns.create q directory owner group mode) ∧
      (∀ what, ns.change p what = ns.change q what) ∧
      ns.fileStatus p = ns.fileStatus q ∧ ns.aclStatus p = ns.aclStatus q ∧
      ns.children p = ns.children q) ∧
    (¬ p.Respells q →
      (∀ status other, ns.fileStatus p = .ok status → ns.fileStatus q = .ok other →
        status.path ≠ other.path) ∧
      (∀ directory owner group mode made,
        ns.create p directory owner group mode = .ok made →
          made.fileStatus q = ns.fileStatus q ∧ made.aclStatus q = ns.aclStatus q) ∧
      ∀ what changed, ns.change p what = .ok changed →
        changed.fileStatus q = ns.fileStatus q ∧ changed.aclStatus q = ns.aclStatus q) ∧
    (∀ status, ns.fileStatus p = .ok status → status.path = p.normal) ∧
    (∀ what error, ns.change p what = .error error → error.path = p.normal) ∧
    p.normal.Respells p ∧ p.normal.normal = p.normal := by
  refine ⟨fun hsame => ?_, fun hother => ⟨fun status other hp hq hpath => ?_,
    fun directory owner group mode made hok => ?_, fun what changed hok => ?_⟩,
    fun status hok => path_of_fileStatus hok, fun what error herror => path_of_change herror,
    Path.respells_iff.mpr p.location_normal, congrArg Location.path p.location_normal⟩
  · have hlocation := Path.respells_iff.mp hsame
    obtain ⟨hfile, hacl⟩ : ns.fileStatus p = ns.fileStatus q ∧ ns.aclStatus p = ns.aclStatus q :=
      status_congr hlocation rfl
    refine ⟨create_congr hlocation, fun what => change_congr hlocation, hfile, hacl, ?_⟩
    simp only [children, hlocation]
  · refine hother (Path.respells_iff_normal_eq.mpr ?_)
    rw [← path_of_fileStatus hp, hpath, path_of_fileStatus hq]
  · exact status_congr rfl
      (find?_create_of_ne hok fun heq => hother (Path.respells_iff.mpr heq.symm))
  · exact status_congr rfl
      (find?_change_of_ne hok fun heq => hother (Path.respells_iff.mpr heq.symm))

end PosixAcl.Namespace
