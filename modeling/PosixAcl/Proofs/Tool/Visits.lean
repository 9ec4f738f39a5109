import PosixAcl.Proofs.Output.Unlimited
import PosixAcl.Proofs.Tool.Steps

/-!
# Visits with working outputs

A tool makes one call for each path. What a run meets is said here without
outputs: the files are dealt with one after the other, which leads from state to
state, prints lines and meets failures. Where both outputs work, a run comes to
just this, and reports each failure by a line.
-/

namespace PosixAcl

/-- What a tool does to a path: the call that it makes, and the lines that it prints if the call
succeeds. -/
structure Task where
  /-- The call. -/
  call : Path → Call
  /-- The lines that show the reply. -/
  shows : (path : Path) → (call path).Reply → List Text

/-- Listing access control lists. -/
def Task.list : Task where
  call := .aclStatus
  shows path status := AclStatus.lines status path

/-- Changing access control lists, without a word. -/
def Task.change (what : Change) : Task where
  call path := .change path what
  shows _ _ := []

variable {σ : Type}

/-- What a run has come to. -/
structure Outcome (σ : Type) where
  /-- The state of the store. -/
  store : σ
  /-- The lines that were printed. -/
  printed : List Text := []
  /-- The failures, in order. -/
  failures : List ToolError := []

namespace Outcome

/-- The same outcome with another state of the store. -/
def on (met : Outcome σ) (store : σ) : Outcome σ :=
  { met with store }

/-- The outcome with another failure. -/
def fail (met : Outcome σ) (error : ToolError) : Outcome σ :=
  { met with failures := met.failures ++ [error] }

/-- The outcome with more lines. -/
def print (met : Outcome σ) (lines : List Text) : Outcome σ :=
  { met with printed := met.printed ++ lines }

end Outcome

namespace Task

/-- Does a task on one path. -/
def attempt (task : Task) (backend : Backend σ) (met : Outcome σ) (path : Path) : Outcome σ :=
  match backend.perform (task.call path) met.store with
  | (.error error, store) => (met.on store).fail (.store error)
  | (.ok reply, store) => (met.on store).print (task.shows path reply)

/-- Deals with one file. A directory is listed first, but if that fails, the failure follows the
one of the task. -/
def visit (task : Task) (backend : Backend σ) (met : Outcome σ) (file : FileStatus) : Outcome σ :=
  if file.directory then
    match backend.perform (.children file.path) met.store with
    | (.error error, store) =>
      (task.attempt backend (met.on store) file.path).fail (.walk (.listing error))
    | (.ok _, store) => task.attempt backend (met.on store) file.path
  else task.attempt backend met file.path

/-- Deals with several files one after the other. -/
def visitEach (task : Task) (backend : Backend σ) (files : List FileStatus) (met : Outcome σ) :
    Outcome σ :=
  files.foldl (task.visit backend) met

end Task

namespace Task

variable {task : Task} {backend : Backend σ} {listing : Listing} {met : Outcome σ}
  {file : FileStatus}

theorem visitEach_cons (task : Task) (backend : Backend σ) (file : FileStatus)
    (rest : List FileStatus) (met : Outcome σ) :
    task.visitEach backend (file :: rest) met =
      task.visitEach backend rest (task.visit backend met file) :=
  rfl

/-- A file that is not a directory is not listed. -/
theorem visit_file (hfile : file.directory = false) :
    task.visit backend met file = task.attempt backend met file.path := by
  rw [visit, hfile]
  rfl

/-- A directory that cannot be listed has a second failure after that of the task, if any. -/
theorem visit_unlisted (hsteady : backend.Steady listing met.store)
    (hdirectory : file.directory = true) {error : StoreError}
    (hlisting : listing file.path = .error error) :
    task.visit backend met file =
      (task.attempt backend (met.on (backend.perform (.children file.path) met.store).2)
        file.path).fail (.walk (.listing error)) := by
  rw [visit, hdirectory, if_pos rfl, hsteady.listsAs.perform_children, hlisting]

/-- A directory that can be listed has no failure but that of the task. -/
theorem visit_directory (hsteady : backend.Steady listing met.store)
    (hdirectory : file.directory = true) {children : List FileStatus}
    (hlisting : listing file.path = .ok children) :
    task.visit backend met file =
      task.attempt backend (met.on (backend.perform (.children file.path) met.store).2)
        file.path := by
  rw [visit, hdirectory, if_pos rfl, hsteady.listsAs.perform_children, hlisting]

/-- An attempt makes its call, and nothing else happens to the store. -/
theorem store_attempt (task : Task) (backend : Backend σ) (met : Outcome σ) (path : Path) :
    (task.attempt backend met path).store = (backend.perform (task.call path) met.store).2 := by
  unfold attempt
  cases backend.perform (task.call path) met.store with
  | mk reply store => cases reply <;> rfl

/-- The calls that are made for a file: a directory is listed, and then the task is done. -/
def callsFor (task : Task) (file : FileStatus) : List Call :=
  Walk.listCalls file ++ [task.call file.path]

/-- Dealing with a file makes just the calls for it, whichever of them fail. -/
theorem store_visit (task : Task) (backend : Backend σ) (met : Outcome σ) (file : FileStatus) :
    (task.visit backend met file).store = backend.afterCalls (task.callsFor file) met.store := by
  unfold visit callsFor Walk.listCalls
  split
  · cases hreply : backend.perform (.children file.path) met.store with
    | mk reply store =>
      have hstore : backend.afterCalls [.children file.path, task.call file.path] met.store =
          (backend.perform (task.call file.path) store).2 := by
        rw [Backend.afterCalls, List.foldl_cons, hreply]
        rfl
      cases reply with
      | error error => exact (store_attempt task backend _ _).trans hstore.symm
      | ok children => exact (store_attempt task backend _ _).trans hstore.symm
  · exact store_attempt task backend met file.path

/-- Dealing with several files makes the calls for each of them in turn. -/
theorem store_visitEach (task : Task) (backend : Backend σ) (files : List FileStatus)
    (met : Outcome σ) :
    (task.visitEach backend files met).store =
      backend.afterCalls (files.flatMap task.callsFor) met.store := by
  induction files generalizing met with
  | nil => rfl
  | cons file rest ih =>
    rw [visitEach_cons, ih, store_visit, List.flatMap_cons, Backend.afterCalls_append]

end Task

namespace Backend.Steady

variable {backend : Backend σ} {listing : Listing} {met : Outcome σ}

/-- The listings are the same after some files were dealt with. -/
theorem visitEach (h : backend.Steady listing met.store) (task : Task)
    (files : List FileStatus) :
    backend.Steady listing (task.visitEach backend files met).store := by
  rw [task.store_visitEach]
  exact h.afterCalls _

end Backend.Steady

/-- From a state on, the listings unfold from a file into a finite tree. The given files are those
of the tree in pre-order, and a walk may take enough steps to yield them and every failure. -/
def Backend.Unfolds (backend : Backend σ) (root : FileStatus) (files : List FileStatus) (s : σ) :
    Prop :=
  ∃ listing, backend.Steady listing s ∧ Walk.PreOrder listing [root] files ∧
    2 * files.length ≤ backend.walkBound s

/-- A store without a state of its own, whose answers depend on the call only. -/
def Backend.answering (answer : (call : Call) → Except StoreError call.Reply) (walkBound : Nat) :
    Backend Unit where
  perform call s := (answer call, s)
  walkBound _ := walkBound

/-- Where the answers depend on the call only, the listings among them unfold. -/
theorem Backend.answering_unfolds {answer : (call : Call) → Except StoreError call.Reply}
    {root : FileStatus} {files : List FileStatus}
    (hpre : Walk.PreOrder (fun path => answer (.children path)) [root] files) {walkBound : Nat}
    (hbound : 2 * files.length ≤ walkBound) :
    (Backend.answering answer walkBound).Unfolds root files () :=
  ⟨_, fun _ _ => rfl, hpre, hbound⟩

/-- What doing a task on a path, or on the whole tree from there on, comes to in a state of the
store, and the number of paths that are worked on. -/
inductive Task.Meets (task : Task) (backend : Backend σ) (recursive : Bool) (path : Path) (s : σ) :
    Nat → Outcome σ → Prop where
  /-- Without going through a tree there is one attempt. -/
  | single (hsingle : recursive = false) :
      task.Meets backend recursive path s 1 (task.attempt backend { store := s } path)
  /-- Where the root of a tree cannot be inspected, this is the only failure. -/
  | root {error : StoreError} {store : σ} (hrecursive : recursive = true)
      (hroot : backend.perform (.fileStatus path) s = (.error error, store)) :
      task.Meets backend recursive path s 1 (Outcome.fail { store } (.walk (.root error)))
  /-- The files of a tree are dealt with in pre-order. -/
  | tree {status : FileStatus} {files : List FileStatus} {store : σ} (hrecursive : recursive = true)
      (hroot : backend.perform (.fileStatus path) s = (.ok status, store))
      (hunfolds : backend.Unfolds status files store) :
      task.Meets backend recursive path s files.length
        (task.visitEach backend files { store })

/-! ## Sessions after an outcome -/

namespace Output

/-- An output without a limit keeps all lines. -/
theorem writeLines_of_unlimited {out : Output} (h : out.capacity = none) (lines : List Text) :
    out.writeLines lines =
      (.ok (), { out with kept := out.kept ++ Utf8.encode (lines.flatMap (· ++ ['\n'])) }) := by
  have hflat : (lines.flatMap fun line => [line, ['\n']]).flatten =
      lines.flatMap (· ++ ['\n']) := by
    induction lines with
    | nil => rfl
    | cons line rest ih => simp [ih]
  rw [writeLines, writeTexts_of_unlimited h, hflat]

end Output

namespace Session

/-- The session in which an outcome was met: what was printed is written, and each failure is
reported. -/
def after (session : Session σ) (met : Outcome σ) : Session σ where
  store := met.store
  stdout := { session.stdout with
    kept := session.stdout.kept ++ Utf8.encode (met.printed.flatMap (· ++ ['\n'])) }
  stderr := (session.saying (met.failures.map ToolError.message)).stderr

variable {session : Session σ}

/-- At first nothing is printed or reported. -/
theorem after_start (session : Session σ) (store : σ) :
    session.after { store } = { session with store } := by
  simp [after, saying, diagnostics, Utf8.encode]

/-- Another failure after an outcome is another diagnostic. -/
theorem after_saying (session : Session σ) (met : Outcome σ) (error : ToolError) :
    (session.after met).saying [error.message] = session.after (met.fail error) := by
  simp [after, saying, diagnostics, Outcome.fail]

/-- Diagnostics can still be written after an outcome. -/
theorem Speaks.after (h : session.Speaks) (met : Outcome σ) : (session.after met).Speaks :=
  ⟨h.unlimited, h.lines⟩

/-- Where diagnostics can be written, a failure is reported by one of them, and the run goes on,
unless it is the other output that failed. -/
theorem Speaks.report_of_ne (h : session.Speaks) (error : ToolError)
    (herror : ∀ failure, error ≠ .output failure) :
    session.report error = (.ok error.exitCode, session.saying [error.message]) := by
  rw [Session.report, h.tell error.message]
  exact herror

end Session

/-! ## Actions that do a task -/

/-- An action does a task: it makes the call, and prints the reply as long as the output works. -/
def PathAction.Does (action : PathAction σ) (backend : Backend σ) (task : Task) : Prop :=
  ∀ path session, session.stdout.capacity = none →
    action path session =
      match backend.perform (task.call path) session.store with
      | (.error error, store) => (.error (.store error), { session with store })
      | (.ok reply, store) =>
        (.ok (), { session with
          store
          stdout := { session.stdout with
            kept := session.stdout.kept ++
              Utf8.encode ((task.shows path reply).flatMap (· ++ ['\n'])) } })

/-- The action of the tool that shows lists. -/
theorem PathAction.does_list (backend : Backend σ) :
    (PathAction.list backend).Does backend .list := by
  intro path session hstdout
  cases hreply : backend.perform (Task.list.call path) session.store with
  | mk reply store =>
    have hcall : backend.perform (.aclStatus path) session.store = (reply, store) := hreply
    rw [PathAction.list, Session.call, hcall]
    cases reply with
    | error error => rfl
    | ok status =>
      simp only [Output.writeLines_of_unlimited hstdout]
      rfl

/-- The action of the tool that changes lists. -/
theorem PathAction.does_change (backend : Backend σ) (what : Change) :
    (PathAction.change backend what).Does backend (.change what) := by
  intro path session _
  cases hreply : backend.perform ((Task.change what).call path) session.store with
  | mk reply store =>
    have hcall : backend.perform (.change path what) session.store = (reply, store) := hreply
    rw [PathAction.change, Session.call, hcall]
    cases reply with
    | error error => rfl
    | ok reply =>
      refine Prod.ext rfl ?_
      simp only [Task.change, List.flatMap_nil, Utf8.encode, List.append_nil]
      rfl

namespace PathAction.Does

variable {action : PathAction σ} {backend : Backend σ} {task : Task} {session : Session σ}

/-- Acting on a path either succeeds and leads to the session after the attempt, or it fails, and
then only the report is still missing. -/
theorem attempt (h : action.Does backend task) (hstdout : session.stdout.capacity = none)
    (met : Outcome σ) (path : Path) :
    (action path (session.after met) =
        (.ok (), session.after (task.attempt backend met path)) ∧
      (task.attempt backend met path).failures = met.failures) ∨
    ∃ error store, action path (session.after met) =
        (.error (.store error), session.after (met.on store)) ∧
      task.attempt backend met path = (met.on store).fail (.store error) := by
  have haction := h path (session.after met) hstdout
  have hstore : (session.after met).store = met.store := rfl
  rw [hstore] at haction
  unfold Task.attempt
  cases hreply : backend.perform (task.call path) met.store with
  | mk reply store =>
    rw [hreply] at haction
    cases reply with
    | error error => exact Or.inr ⟨error, store, haction, rfl⟩
    | ok reply =>
      refine Or.inl ⟨haction.trans (Prod.ext rfl ?_), rfl⟩
      simp [Session.after, Session.saying, Utf8.encode, Outcome.on, Outcome.print]

end PathAction.Does

namespace Run

variable {action : PathAction σ} {backend : Backend σ} {task : Task} {session : Session σ}
  {listing : Listing} {roots files : List FileStatus}

/-- The tally of what was met on some files. -/
def tallyOf (visited : Nat) (met : Outcome σ) : Tally :=
  ⟨visited, met.failures.map ToolError.exitCode⟩

/-- Acting on one path comes to what the task comes to. -/
theorem single_eq (h : action.Does backend task) (hspeaks : session.Speaks)
    (hstdout : session.stdout.capacity = none) (path : Path) :
    single action path session =
      (.ok (tallyOf 1 (task.attempt backend { store := session.store } path)).exitCode,
        session.after (task.attempt backend { store := session.store } path)) := by
  have hsession : session.after { store := session.store } = session := session.after_start _
  have hacts := h.attempt hstdout { store := session.store } path
  rw [hsession] at hacts
  rcases hacts with ⟨hok, hfailures⟩ | ⟨error, store, herror, hattempt⟩
  · rw [single, hok, tallyOf, hfailures]
    rfl
  · rw [single, herror]
    simp only [(hspeaks.after _).report_of_ne (.store error) (by simp)]
    rw [hattempt, session.after_saying]
    rfl

/-- Settling a file does the task on it. -/
theorem settle_file (h : action.Does backend task) (hspeaks : session.Speaks)
    (hstdout : session.stdout.capacity = none) (met : Outcome σ) (file : FileStatus)
    (visited : Nat) :
    settle action (tallyOf visited met) (session.after met) (.ok file) =
      (.ok (tallyOf (visited + 1) (task.attempt backend met file.path)),
        session.after (task.attempt backend met file.path)) := by
  rcases h.attempt hstdout met file.path with
    ⟨hok, hfailures⟩ | ⟨error, acted, herror, hattempt⟩
  · simp only [settle, visit, hok, tallyOf, hfailures]
  · simp only [settle, visit, herror, (hspeaks.after _).report_of_ne (.store error) (by simp)]
    rw [hattempt, session.after_saying]
    simp [andThen, tallyOf, Outcome.on, Outcome.fail]

/-- Settling the failure to list a directory reports it. -/
theorem settle_failure (hspeaks : session.Speaks) (error : WalkError) (met : Outcome σ)
    (visited : Nat) :
    settle action (tallyOf visited met) (session.after met) (.error error) =
      (.ok (tallyOf visited (met.fail (.walk error))), session.after (met.fail (.walk error))) := by
  simp only [settle, visit, (hspeaks.after _).report_of_ne (.walk error) (by simp)]
  rw [session.after_saying]
  simp [andThen, tallyOf, Outcome.fail]

/-- Settling what a walk yields for a file deals with the file. -/
theorem settleAll_itemsOf (h : action.Does backend task) (hspeaks : session.Speaks)
    (hstdout : session.stdout.capacity = none) {met : Outcome σ}
    (hsteady : backend.Steady listing met.store) (file : FileStatus) (visited : Nat) :
    settleAll action (tallyOf visited met)
        (session.after (met.on (backend.afterCalls (Walk.listCalls file) met.store)))
        (Walk.itemsOf listing file) =
      (.ok (tallyOf (visited + 1) (task.visit backend met file)),
        session.after (task.visit backend met file)) := by
  cases hdirectory : file.directory with
  | false =>
    have hitems : Walk.itemsOf listing file = [.ok file] := by simp [Walk.itemsOf, hdirectory]
    have hcalls : Walk.listCalls file = [] := by simp [Walk.listCalls, hdirectory]
    rw [hitems, hcalls, settleAll_singleton, Task.visit_file hdirectory]
    exact settle_file h hspeaks hstdout met file visited
  | true =>
    have hcalls : Walk.listCalls file = [.children file.path] := by
      simp [Walk.listCalls, hdirectory]
    have hlisted := settle_file h hspeaks hstdout
      (met.on (backend.afterCalls [.children file.path] met.store)) file visited
    cases hlisting : listing file.path with
    | error error =>
      have hitems : Walk.itemsOf listing file = [.ok file, .error (.listing error)] := by
        simp [Walk.itemsOf, hdirectory, hlisting]
      have hfirst : settle action (tallyOf visited met) (session.after
          (met.on (backend.afterCalls [.children file.path] met.store))) (.ok file) = _ := hlisted
      rw [hitems, hcalls, settleAll, Task.visit_unlisted hsteady hdirectory hlisting, hfirst,
        andThen]
      simp only [settleAll_singleton]
      exact settle_failure hspeaks _ _ _
    | ok children =>
      have hitems : Walk.itemsOf listing file = [.ok file] := by
        simp [Walk.itemsOf, hdirectory, hlisting]
      rw [hitems, hcalls, settleAll_singleton, Task.visit_directory hsteady hdirectory hlisting]
      exact hlisted

/-- Settling several files deals with them one after the other. -/
theorem settleFiles_eq (h : action.Does backend task) (hspeaks : session.Speaks)
    (hstdout : session.stdout.capacity = none) {met : Outcome σ}
    (hsteady : backend.Steady listing met.store) (files : List FileStatus) (visited : Nat) :
    settleFiles backend listing action (tallyOf visited met) (session.after met) files =
      (.ok (tallyOf (visited + files.length) (task.visitEach backend files met)),
        session.after (task.visitEach backend files met)) := by
  induction files generalizing met visited with
  | nil => rfl
  | cons file rest ih =>
    have hsettled := settleAll_itemsOf h hspeaks hstdout hsteady file visited
    have hrest := ih (hsteady.visitEach task [file]) (visited + 1)
    have hfirst : settleAll action (tallyOf visited met)
        { session.after met with
          store := backend.afterCalls (Walk.listCalls file) (session.after met).store }
        (Walk.itemsOf listing file) = _ := hsettled
    rw [settleFiles, hfirst, andThen, Task.visitEach_cons, List.length_cons,
      Nat.add_comm rest.length 1, ← Nat.add_assoc]
    exact hrest

/-- A run through a tree whose root cannot be inspected reports just that. -/
theorem tree_of_error (hspeaks : session.Speaks) {root : Path} {error : StoreError} {store : σ}
    (hroot : backend.perform (.fileStatus root) session.store = (.error error, store)) :
    tree backend action root session =
      (.ok (tallyOf 1 (Outcome.fail { store } (.walk (.root error)))).exitCode,
        session.after (Outcome.fail { store } (.walk (.root error)))) := by
  have hsession : session.after { store } = { session with store } := session.after_start store
  simp only [tree, Walk.start, hroot]
  rw [← hsession, (hspeaks.after _).report_of_ne (.walk (.root error)) (by simp),
    session.after_saying]
  rfl

/-- A run through a tree deals with its files in pre-order. -/
theorem tree_of_unfolds (h : action.Does backend task) (hadds : action.Adds backend)
    (hspeaks : session.Speaks) (hstdout : session.stdout.capacity = none)
    {root : Path} {status : FileStatus} {store : σ}
    (hroot : backend.perform (.fileStatus root) session.store = (.ok status, store))
    (hunfolds : backend.Unfolds status files store) :
    tree backend action root session =
      (.ok (tallyOf files.length (task.visitEach backend files { store })).exitCode,
        session.after (task.visitEach backend files { store })) := by
  obtain ⟨listing, hsteady, hpre, hbound⟩ := hunfolds
  have hstart : backend.Steady listing (Outcome.store { store }) := hsteady
  rw [tree_eq_settleFiles hadds hroot hsteady hpre hbound, ← session.after_start store]
  have hsettled := settleFiles_eq h hspeaks hstdout hstart files 0
  rw [Nat.zero_add] at hsettled
  exact congrArg (andThen · summed) hsettled

/-- Doing what an invocation asks for comes to what its task comes to. -/
theorem invocation_of_meets {Action : Type} {asked : Invocation Action}
    (h : action.Does backend task) (hadds : action.Adds backend) (hspeaks : session.Speaks)
    (hstdout : session.stdout.capacity = none) {visited : Nat} {met : Outcome σ}
    (hmeets : task.Meets backend asked.recursive asked.path session.store visited met) :
    invocation backend asked action session =
      (.ok (tallyOf visited met).exitCode, session.after met) := by
  rw [invocation]
  cases hmeets with
  | single hsingle =>
    rw [if_neg (by simp [hsingle])]
    exact single_eq h hspeaks hstdout asked.path
  | root hrecursive hroot =>
    rw [if_pos hrecursive]
    exact tree_of_error hspeaks hroot
  | tree hrecursive hroot hunfolds =>
    rw [if_pos hrecursive]
    exact tree_of_unfolds h hadds hspeaks hstdout hroot hunfolds

end Run

end PosixAcl
