import PosixAcl.Proofs.Namespace.Repetition
import PosixAcl.Proofs.Tool.Invariants

/-!
# Running a command line twice

A run for a change asks for types and listings, and makes the change on one path
after the other. What it did to one path stays settled while it goes on to others,
and what a walk sees stays as it is. So a second run, on the store that the first
one left, gets the same replies to the same calls. It writes the same and ends at
the same place, even where an output cannot be written, and the store stays as it
is.
-/

namespace PosixAcl

variable {σ : Type}

/-! ## Stores in which a change can be repeated -/

namespace Backend

/-- A later state of a store, as a run for a change sees it: the answers to a walk are the same, and
where nothing was left to do for the change, nothing is left to do now, with the same reply. -/
structure Later (backend : Backend σ) (change : Change) (s later : σ) : Prop where
  /-- The types of files are the same. -/
  fileStatus : ∀ path, (backend.perform (.fileStatus path) later).1 =
    (backend.perform (.fileStatus path) s).1
  /-- The listings are the same. -/
  children : ∀ path, (backend.perform (.children path) later).1 =
    (backend.perform (.children path) s).1
  /-- A walk may take as many steps. -/
  walkBound : backend.walkBound later = backend.walkBound s
  /-- What is settled stays settled. -/
  settled : ∀ path reply, backend.perform (.change path change) s = (reply, s) →
    backend.perform (.change path change) later = (reply, later)

/-- What lets a change be repeated in a store whose states have a property. -/
structure Repeats (backend : Backend σ) (change : Change) (P : σ → Prop) : Prop where
  /-- Asking for the type of a file leaves the store as it is. -/
  fileStatus_store : ∀ path s, (backend.perform (.fileStatus path) s).2 = s
  /-- Listing a directory leaves the store as it is. -/
  children_store : ∀ path s, (backend.perform (.children path) s).2 = s
  /-- The change keeps the property. -/
  keeps : ∀ path s, P s → P (backend.perform (.change path change) s).2
  /-- The change leads to a later state. -/
  later : ∀ path s, P s → backend.Later change s (backend.perform (.change path change) s).2
  /-- The change of one path is settled once it was made. -/
  again : ∀ path s, P s → backend.perform (.change path change)
    (backend.perform (.change path change) s).2 = backend.perform (.change path change) s

variable {backend : Backend σ} {change : Change} {P : σ → Prop} {s later last : σ}

theorem Later.refl (backend : Backend σ) (change : Change) (s : σ) : backend.Later change s s :=
  ⟨fun _ => rfl, fun _ => rfl, rfl, fun _ _ hsettled => hsettled⟩

theorem Later.trans (h : backend.Later change s later) (hlast : backend.Later change later last) :
    backend.Later change s last where
  fileStatus path := (hlast.fileStatus path).trans (h.fileStatus path)
  children path := (hlast.children path).trans (h.children path)
  walkBound := hlast.walkBound.trans h.walkBound
  settled path reply hsettled := hlast.settled path reply (h.settled path reply hsettled)

/-- The calls of a run lead to later states with the same property. -/
theorem Repeats.keeps_later (h : backend.Repeats change P) (s : σ) :
    backend.Keeps change fun later => P later ∧ backend.Later change s later where
  fileStatus path later hlater := by rwa [h.fileStatus_store]
  children path later hlater := by rwa [h.children_store]
  change path later hlater :=
    ⟨h.keeps path later hlater.1, hlater.2.trans (h.later path later hlater.1)⟩

/-- The backend whose calls of certain kinds fail on certain paths. Such a call does not reach the
store. -/
def failing (fails : CallKind → Path → Option StoreError) (backend : Backend σ) : Backend σ where
  perform call s :=
    match fails call.kind call.path with
    | some error => (.error error, s)
    | none => backend.perform call s
  walkBound := backend.walkBound

/-- Planted failures are failures of certain kinds of call on certain paths. -/
theorem withFaults_eq_failing (faults : List Fault) (backend : Backend σ) :
    backend.withFaults faults = backend.failing fun kind path =>
      (faults.find? fun fault => fault.kind = kind && fault.path = path).map fun fault =>
        .ofSystem path fault.error := by
  unfold withFaults failing
  congr 1
  funext call s
  have hhits : (fun fault : Fault => decide (fault.kind = call.kind) &&
      decide (fault.path = call.path)) = (·.hits call) := rfl
  simp only [hhits]
  cases faults.find? (·.hits call) <;> rfl

/-- A call either always fails without reaching the store, or always reaches it. -/
theorem perform_failing (fails : CallKind → Path → Option StoreError) (backend : Backend σ)
    (call : Call) :
    (∃ error, ∀ s, (backend.failing fails).perform call s = (.error error, s)) ∨
      ∀ s, (backend.failing fails).perform call s = backend.perform call s := by
  cases hfails : fails call.kind call.path with
  | some error => exact Or.inl ⟨error, fun s => by simp [failing, hfails]⟩
  | none => exact Or.inr fun s => by simp [failing, hfails]

/-- A later state is later where calls fail, too. -/
theorem Later.failing (h : backend.Later change s later)
    (fails : CallKind → Path → Option StoreError) :
    (backend.failing fails).Later change s later where
  fileStatus path := by
    rcases perform_failing fails backend (.fileStatus path) with ⟨error, hfails⟩ | hreaches
    · rw [hfails, hfails]
    · rw [hreaches, hreaches]
      exact h.fileStatus path
  children path := by
    rcases perform_failing fails backend (.children path) with ⟨error, hfails⟩ | hreaches
    · rw [hfails, hfails]
    · rw [hreaches, hreaches]
      exact h.children path
  walkBound := h.walkBound
  settled path reply hsettled := by
    rcases perform_failing fails backend (.change path change) with ⟨error, hfails⟩ | hreaches
    · rw [hfails] at hsettled ⊢
      exact Prod.ext (Prod.ext_iff.mp hsettled).1 rfl
    · rw [hreaches] at hsettled ⊢
      exact h.settled path reply hsettled

/-- A change can be repeated where some of its calls always fail. -/
theorem Repeats.failing (h : backend.Repeats change P)
    (fails : CallKind → Path → Option StoreError) : (backend.failing fails).Repeats change P where
  fileStatus_store path s := by
    rcases perform_failing fails backend (.fileStatus path) with ⟨error, hfails⟩ | hreaches
    · rw [hfails]
    · rw [hreaches, h.fileStatus_store]
  children_store path s := by
    rcases perform_failing fails backend (.children path) with ⟨error, hfails⟩ | hreaches
    · rw [hfails]
    · rw [hreaches, h.children_store]
  keeps path s hs := by
    rcases perform_failing fails backend (.change path change) with ⟨error, hfails⟩ | hreaches
    · rwa [hfails]
    · rw [hreaches]
      exact h.keeps path s hs
  later path s hs := by
    rcases perform_failing fails backend (.change path change) with ⟨error, hfails⟩ | hreaches
    · rw [hfails]
      exact Later.refl _ change s
    · rw [hreaches]
      exact (h.later path s hs).failing fails
  again path s hs := by
    rcases perform_failing fails backend (.change path change) with ⟨error, hfails⟩ | hreaches
    · rw [hfails, hfails]
    · rw [hreaches, hreaches, h.again path s hs]

end Backend

/-! ## Namespaces -/

namespace Namespace

/-- The answer to a call for a change, and the namespace after it. -/
theorem perform_change (ns : Namespace) (path : Path) (change : Change) :
    backend.perform (.change path change) ns =
      match ns.change path change with
      | .error error => (.error error, ns)
      | .ok changed => (.ok (), changed) :=
  rfl

/-- Changing a file of a well-formed namespace leads to a later one. -/
theorem WellFormed.later {ns changed : Namespace} (h : ns.WellFormed) {path : Path}
    {change : Change} (hok : ns.change path change = .ok changed) :
    backend.Later change ns changed where
  fileStatus other := fileStatus_congr (shape_of_change h.walkable hok) other
  children other := children_congr (shape_of_change h.walkable hok) other
  walkBound := by
    have hlength := congrArg List.length (shape_of_change h.walkable hok)
    simp only [shape, List.length_map] at hlength
    exact congrArg (2 * ·) hlength
  settled other reply hsettled := by
    rw [perform_change] at hsettled ⊢
    cases hother : ns.change other change with
    | error error =>
      rw [hother] at hsettled
      rw [h.change_error hother hok]
      exact Prod.ext (Prod.ext_iff.mp hsettled).1 rfl
    | ok same =>
      rw [hother] at hsettled
      obtain ⟨hreply, hsame⟩ := Prod.ext_iff.mp hsettled
      obtain rfl : same = ns := hsame
      rw [h.change_settled hother hok]
      exact Prod.ext hreply rfl

/-- Every change can be repeated in a well-formed namespace. -/
theorem backend_repeats (change : Change) : backend.Repeats change WellFormed where
  fileStatus_store _ _ := rfl
  children_store _ _ := rfl
  keeps path ns h := by
    rw [perform_change]
    cases hchange : ns.change path change with
    | error error => exact h
    | ok changed => exact h.change hchange
  later path ns h := by
    rw [perform_change]
    cases hchange : ns.change path change with
    | error error => exact Backend.Later.refl _ _ _
    | ok changed => exact h.later hchange
  again path ns h := by
    rw [perform_change ns]
    cases hchange : ns.change path change with
    | error error => simp only [perform_change, hchange]
    | ok changed => simp only [perform_change, h.change_change hchange]

end Namespace

/-! ## Runs on another store -/

/-- The same session with another store. -/
def Session.on (session : Session σ) (store : σ) : Session σ :=
  { session with store }

/-- A report does not depend on the store. -/
theorem Session.report_on (session : Session σ) (s : σ) (error : ToolError) :
    (session.on s).report error = ((session.report error).1, (session.report error).2.on s) := by
  have htell : (session.on s).tell error.message =
      ((session.tell error.message).1, (session.tell error.message).2.on s) := rfl
  unfold Session.report
  split
  · rfl
  · rw [htell]
    cases session.tell error.message with
    | mk result told => cases result <;> rfl

/-- The end of a run does not depend on the store. -/
theorem Run.finish_on (outcome : Except SystemError ExitCode) (session : Session σ) (s : σ) :
    Run.finish outcome (session.on s) =
      ((Run.finish outcome session).1, (Run.finish outcome session).2.on s) := by
  unfold Run.finish
  split
  · split <;> rfl
  · rfl

/-- Refusing a command line does not depend on the store. -/
theorem Run.refuse_on (tool : Tool) (error : ToolError) (session : Session σ) (s : σ) :
    Run.refuse tool error (session.on s) =
      ((Run.refuse tool error session).1, (Run.refuse tool error session).2.on s) := by
  have htell : (session.on s).tell error.message =
      ((session.tell error.message).1, (session.tell error.message).2.on s) := rfl
  unfold Run.refuse
  rw [htell]
  cases session.tell error.message with
  | mk result told => cases result <;> rfl

/-- Writing the help text does not depend on the store. -/
theorem Run.help_on (tool : Tool) (session : Session σ) (s : σ) :
    Run.help tool (session.on s) =
      ((Run.help tool session).1, (Run.help tool session).2.on s) := by
  have hstdout : (session.on s).stdout = session.stdout := rfl
  unfold Run.help
  rw [hstdout]
  cases session.stdout.writeTexts [tool.help] with
  | mk result stdout =>
    cases result with
    | error error => exact Run.finish_on _ { session with stdout } s
    | ok =>
      cases hflush : stdout.flush with
      | error error =>
        simp only [hflush]
        exact Run.finish_on _ { session with stdout } s
      | ok =>
        simp only [hflush]
        rfl

/-! ## Runs on the store that a run left -/

section Repeats

variable {backend : Backend σ} {change : Change} {P : σ → Prop} {s : σ} {session : Session σ}

/-- The next step of a walk leaves the store as it is. -/
theorem Backend.Repeats.store_next (h : backend.Repeats change P) (pending : List WalkItem)
    (s : σ) : (Walk.next backend pending s).2 = s := by
  cases pending with
  | nil => rfl
  | cons item rest =>
    cases item with
    | error error => rfl
    | ok status =>
      simp only [Walk.next]
      split
      · exact h.children_store status.path s
      · rfl

/-- The next item of a walk is the same in a later state. -/
theorem Backend.Later.next {later : σ} (h : backend.Later change s later)
    (pending : List WalkItem) :
    (Walk.next backend pending later).1 = (Walk.next backend pending s).1 := by
  cases pending with
  | nil => rfl
  | cons item rest =>
    cases item with
    | error error => rfl
    | ok status =>
      simp only [Walk.next]
      split
      · simp only [h.children status.path]
      · rfl

/-- Making the change on a path once more does the same, and leaves a later store as it is. -/
theorem PathAction.change_on (h : backend.Repeats change P) (path : Path)
    (hstore : P session.store)
    (hlater : backend.Later change (PathAction.change backend change path session).2.store s) :
    PathAction.change backend change path (session.on s) =
      ((PathAction.change backend change path session).1,
        (PathAction.change backend change path session).2.on s) := by
  have hagain := h.again path session.store hstore
  unfold PathAction.change Session.call at hlater ⊢
  cases hcall : backend.perform (.change path change) session.store with
  | mk reply changed =>
    rw [hcall] at hagain hlater
    have hsettled : backend.perform (.change path change) (session.on s).store = (reply, s) := by
      cases reply <;> exact hlater.settled path _ hagain
    rw [hsettled]
    cases reply <;> rfl

/-- Dealing with an item of a walk once more does the same, and leaves a later store as it is. -/
theorem Run.visit_on (h : backend.Repeats change P) (tally : Tally) (hstore : P session.store)
    (item : WalkItem)
    (hlater : backend.Later change
      (Run.visit (PathAction.change backend change) tally session item).2.2.store s) :
    Run.visit (PathAction.change backend change) tally (session.on s) item =
      ((Run.visit (PathAction.change backend change) tally session item).1,
        (Run.visit (PathAction.change backend change) tally session item).2.1,
        (Run.visit (PathAction.change backend change) tally session item).2.2.on s) := by
  cases item with
  | error error => rfl
  | ok status =>
    have haction := PathAction.change_on h status.path hstore hlater
    simp only [Run.visit, haction]

/-- Going through a tree leads to a later state. -/
theorem Run.visitAll_later (h : backend.Repeats change P) (steps : Nat) (pending : List WalkItem)
    (tally : Tally) (hstore : P session.store) :
    backend.Later change session.store
      (Run.visitAll backend (PathAction.change backend change) steps pending tally
        session).2.store :=
  (Run.visitAll_keeps (h.keeps_later session.store).walking
    (PathAction.change_keeps (h.keeps_later session.store)) steps pending tally
    ⟨hstore, Backend.Later.refl _ _ _⟩).2

/-- One step through a tree, where walks leave the store as it is. -/
theorem Run.visitAll_succ (h : backend.Repeats change P) (action : PathAction σ) (steps : Nat)
    (pending : List WalkItem) (tally : Tally) (session : Session σ) :
    Run.visitAll backend action (steps + 1) pending tally session =
      match (Walk.next backend pending session.store).1 with
      | none => (.ok tally, session)
      | some (item, pending) =>
        match visit action tally session item with
        | (tally, .ok (), session) => visitAll backend action steps pending tally session
        | (tally, .error error, session) =>
          match session.report error with
          | (.error failure, session) => (.error failure, session)
          | (.ok code, session) =>
            visitAll backend action steps pending
              { tally with failures := tally.failures ++ [code] } session := by
  have hnext : Walk.next backend pending session.store =
      ((Walk.next backend pending session.store).1, session.store) :=
    Prod.ext rfl (h.store_next pending session.store)
  rw [Run.visitAll, hnext]
  cases (Walk.next backend pending session.store).1 <;> rfl

/-- Going through a tree once more does the same, and leaves a later store as it is. -/
theorem Run.visitAll_on (h : backend.Repeats change P) (steps : Nat) (pending : List WalkItem)
    (tally : Tally) (hstore : P session.store)
    (hlater : backend.Later change
      (Run.visitAll backend (PathAction.change backend change) steps pending tally
        session).2.store s) :
    Run.visitAll backend (PathAction.change backend change) steps pending tally (session.on s) =
      ((Run.visitAll backend (PathAction.change backend change) steps pending tally session).1,
        (Run.visitAll backend (PathAction.change backend change) steps pending tally
          session).2.on s) := by
  -- The store is later than all states on the way, so each step finds its change settled.
  induction steps generalizing pending tally session with
  | zero => rfl
  | succ steps ih =>
    have hview := (Run.visitAll_later h (steps + 1) pending tally hstore).trans hlater
    have hwalk : (Walk.next backend pending (session.on s).store).1 =
        (Walk.next backend pending session.store).1 := hview.next pending
    rw [Run.visitAll_succ h] at hlater ⊢
    rw [Run.visitAll_succ h, hwalk]
    cases hnext : (Walk.next backend pending session.store).1 with
    | none => rfl
    | some found =>
      obtain ⟨item, pending⟩ := found
      have hvisit := Run.visit_on (s := s) h tally hstore item
      have hkept : P _ := (Run.visit_keeps (PathAction.change_keeps (h.keeps_later session.store))
        tally ⟨hstore, Backend.Later.refl _ _ _⟩ item).1
      simp only [hnext] at hlater ⊢
      cases hfound : visit (PathAction.change backend change) tally session item with
      | mk tally outcome =>
        obtain ⟨result, visited⟩ := outcome
        rw [hfound] at hvisit hkept hlater
        cases result with
        | ok =>
          rw [hvisit ((Run.visitAll_later h steps pending tally hkept).trans hlater)]
          exact ih pending tally hkept hlater
        | error error =>
          have hreported := visited.store_report error
          simp only at hlater hvisit ⊢
          cases hreport : visited.report error with
          | mk reply reported =>
            rw [hreport] at hlater hreported
            have hreportOn := visited.report_on s error
            rw [hreport] at hreportOn
            cases reply with
            | error failure =>
              have hend : backend.Later change visited.store s := hreported ▸ hlater
              rw [hvisit hend]
              simp only [hreportOn]
            | ok code =>
              have hreached : P reported.store := hreported ▸ hkept
              have hrest := Run.visitAll_later h steps pending
                { tally with failures := tally.failures ++ [code] } hreached
              have hend : backend.Later change visited.store s :=
                hreported ▸ hrest.trans hlater
              rw [hvisit hend]
              simp only [hreportOn]
              exact ih pending _ hreached hlater

/-- A run through a tree, where asking for the type of its root leaves the store as it is. -/
theorem Run.tree_eq (h : backend.Repeats change P) (action : PathAction σ) (root : Path)
    (session : Session σ) :
    Run.tree backend action root session =
      match (backend.perform (.fileStatus root) session.store).1 with
      | .error error => session.report (.walk (.root error))
      | .ok status =>
        match visitAll backend action (backend.walkBound session.store) [.ok status] {} session with
        | (.ok tally, session) => (.ok tally.exitCode, session)
        | (.error failure, session) => (.error failure, session) := by
  have hstart : backend.perform (.fileStatus root) session.store =
      ((backend.perform (.fileStatus root) session.store).1, session.store) :=
    Prod.ext rfl (h.fileStatus_store root session.store)
  rw [Run.tree, Walk.start, hstart]
  cases (backend.perform (.fileStatus root) session.store).1 <;> rfl

/-- Doing what an invocation asks for leads to a later state. -/
theorem Run.invocation_later (h : backend.Repeats change P) (edit : Invocation Change)
    (hstore : P session.store) :
    backend.Later change session.store
      (Run.invocation backend edit (PathAction.change backend change) session).2.store :=
  (Run.invocation_keeps (h.keeps_later session.store).walking
    (PathAction.change_keeps (h.keeps_later session.store)) edit
    ⟨hstore, Backend.Later.refl _ _ _⟩).2

/-- Doing what an invocation asks for once more does the same, and leaves a later store as it is. -/
theorem Run.invocation_on (h : backend.Repeats change P) (edit : Invocation Change)
    (hstore : P session.store)
    (hlater : backend.Later change
      (Run.invocation backend edit (PathAction.change backend change) session).2.store s) :
    Run.invocation backend edit (PathAction.change backend change) (session.on s) =
      ((Run.invocation backend edit (PathAction.change backend change) session).1,
        (Run.invocation backend edit (PathAction.change backend change) session).2.on s) := by
  have hview := (Run.invocation_later h edit hstore).trans hlater
  unfold Run.invocation at hlater ⊢
  split
  · rename_i hrecursive
    have hstatus : (backend.perform (.fileStatus edit.path) (session.on s).store).1 =
        (backend.perform (.fileStatus edit.path) session.store).1 := hview.fileStatus edit.path
    have hbound : backend.walkBound (session.on s).store = backend.walkBound session.store :=
      hview.walkBound
    rw [if_pos hrecursive, Run.tree_eq h] at hlater
    rw [Run.tree_eq h, Run.tree_eq h, hstatus, hbound]
    cases hreply : (backend.perform (.fileStatus edit.path) session.store).1 with
    | error error => exact session.report_on s _
    | ok status =>
      have hvisit := Run.visitAll_on (s := s) h (backend.walkBound session.store) [.ok status] {}
        hstore
      simp only [hreply] at hlater ⊢
      cases hall : visitAll backend (PathAction.change backend change)
          (backend.walkBound session.store) [.ok status] {} session with
      | mk outcome final =>
        rw [hall] at hvisit hlater
        cases outcome <;> rw [hvisit hlater]
  · rename_i hsingle
    rw [if_neg hsingle] at hlater
    have haction := PathAction.change_on (s := s) h edit.path hstore
    unfold Run.single at hlater ⊢
    cases hchange : PathAction.change backend change edit.path session with
    | mk result changed =>
      rw [hchange] at haction hlater
      cases result with
      | ok => rw [haction hlater]
      | error error =>
        have hend : backend.Later change changed.store s := changed.store_report error ▸ hlater
        rw [haction hend]
        exact changed.report_on s error

end Repeats

/-- Making the change that an invocation asks for, on the store that it left. -/
theorem Run.edit_edit {backend : Backend σ} {P : σ → Prop} {edit : Invocation Change}
    (h : backend.Repeats edit.action P) {session : Session σ} (hstore : P session.store) :
    Run.edit backend edit (session.on (Run.edit backend edit session).2.store) =
      Run.edit backend edit session := by
  have hon := Run.invocation_on h edit hstore (Backend.Later.refl _ _ _)
  rw [Run.edit, Run.edit]
  cases hfirst : Run.invocation backend edit (PathAction.change backend edit.action) session with
  | mk outcome final =>
    rw [hfirst] at hon
    simp only [Run.store_finish, hon]
    rw [Run.finish_on]
    exact Prod.ext rfl (congrArg (Run.finish outcome final).2.on
      (Run.store_finish outcome final).symm)

/-- Running a tool for a change on the store that it left does the same as the first time, and
leaves the store as it is. -/
theorem Tool.run_on {backend : Backend σ} {P : σ → Prop}
    (h : ∀ change, backend.Repeats change P) (arguments : List Bytes) (session : Session σ)
    (hstore : P session.store) :
    Tool.run .setfacl backend arguments
        (session.on (Tool.run .setfacl backend arguments session).2.store) =
      Tool.run .setfacl backend arguments session := by
  have hrefuse : ∀ error, Run.refuse .setfacl error
      (session.on (Run.refuse .setfacl error session).2.store) =
        Run.refuse .setfacl error session := by
    intro error
    rw [Run.refuse_on]
    rfl
  unfold Tool.run
  cases hread : Arguments.read .setfacl arguments.tail with
  | error error => exact hrefuse _
  | ok parsed =>
    simp only
    split
    · rw [Run.help_on]
      rfl
    · cases hedit : Invocation.ofChange parsed with
      | error error => exact hrefuse _
      | ok edit => exact Run.edit_edit (h edit.action) hstore

/-- The same command line, run on a namespace and then on what that run left, does the same both
times: the exit code and both outputs are the same, and the second run leaves the namespace as it
is. This holds for every command line, whoever acts, whatever calls fail, and wherever an output
breaks. -/
theorem Tool.run_run {ns : Namespace} (hreached : ns.Reachable) (caller : Option Text)
    (fails : CallKind → Path → Option StoreError) (arguments : List Bytes)
    (stdout stderr : Output) :
    let run := fun store : Namespace =>
      Tool.run .setfacl (Namespace.backend.failing fails) arguments
        (.start .setfacl store stdout stderr)
    run (run { ns with caller }).2.store = run { ns with caller } := by
  intro run
  have h := hreached.wellFormed
  have hstart : Namespace.WellFormed { ns with caller } :=
    ⟨h.ordered, h.root, h.normal, h.closed, h.acl, h.noDefault⟩
  have hrepeats := fun change => (Namespace.backend_repeats change).failing fails
  exact Tool.run_on hrepeats arguments (.start .setfacl { ns with caller } stdout stderr) hstart

/-- A user is added to the lists from `/` on. The call for `/d` fails, and the diagnostic does not
fit, so both runs end there, with `/` changed and `/d/f` not. -/
theorem Tool.run_run_broken_output :
    let ns : Namespace := ⟨[([], Namespace.rootNode),
      ([[0x64]], ⟨true, ['a'], ['a'], false, .ofMode 0o755⟩),
      ([[0x64], [0x66]], ⟨false, ['a'], ['a'], false, .ofMode 0o644⟩)], none⟩
    let faults : List Fault := [⟨.merge, ⟨[0x2F, 0x64]⟩, .permissionDenied⟩]
    let arguments : List Bytes :=
      [[0x73], [0x2D, 0x52], [0x2D, 0x6D], Utf8.encode "user:a:rwx".toList, [0x2F]]
    let run := fun store : Namespace =>
      Tool.run .setfacl (Namespace.backend.withFaults faults) arguments
        (.start .setfacl store {} { capacity := some 2 })
    ns.Reachable ∧ (run ns).1 = .failure ∧
      (run ns).2.stderr.output.kept = Utf8.encode "oc".toList ∧
      (run ns).2.store.find? .root ≠ some Namespace.rootNode ∧
      (run ns).2.store.find? ⟨true, [[0x64], [0x66]]⟩ =
        some ⟨false, ['a'], ['a'], false, .ofMode 0o644⟩ ∧
      run (run ns).2.store = run ns := by
  intro ns faults arguments run
  have hreached : ns.Reachable :=
    ⟨[.create ⟨[0x2F, 0x64]⟩ true ['a'] ['a'] 0o755,
      .create ⟨[0x2F, 0x64, 0x2F, 0x66]⟩ false ['a'] ['a'] 0o644], by decide +kernel⟩
  have hagain := Tool.run_run hreached none
    (fun kind path => (faults.find? fun fault => fault.kind = kind && fault.path = path).map
      fun fault => .ofSystem path fault.error) arguments {} { capacity := some 2 }
  rw [← Backend.withFaults_eq_failing] at hagain
  exact ⟨hreached, by decide +kernel, by decide +kernel, by decide +kernel, by decide +kernel,
    hagain⟩

end PosixAcl
