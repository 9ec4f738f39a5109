import PosixAcl.Proofs.Tool.CommandLine
import PosixAcl.Proofs.Tool.Invariants

/-!
# The calls of a run

Which calls a run makes is settled by its command line and by the listings of the
store. Whether a call for a path succeeds does not matter for the later ones. To
see the calls, a run is made on a store that also notes them.
-/

namespace PosixAcl

variable {σ : Type}

/-! ## Stores that note the calls -/

namespace Backend

variable {backend : Backend σ} {listing : Listing} {s : σ}

/-- Calls are answered as before, and they are noted in their order. -/
theorem afterCalls_logged (backend : Backend σ) (calls : List Call) (s : σ) (log : List Call) :
    backend.logged.afterCalls calls (s, log) = (backend.afterCalls calls s, log ++ calls) := by
  induction calls generalizing s log with
  | nil => rw [List.append_nil]; rfl
  | cons call rest ih =>
    have hfirst : backend.logged.afterCalls (call :: rest) (s, log) =
        backend.logged.afterCalls rest ((backend.perform call s).2, log ++ [call]) := rfl
    rw [hfirst, ih, List.append_assoc]
    rfl

/-- Noting the calls does not change the listings. -/
theorem Steady.logged (h : backend.Steady listing s) (log : List Call) :
    backend.logged.Steady listing (s, log) := by
  intro calls path
  rw [afterCalls_logged]
  exact h calls path

/-- Noting the calls does not change the tree that unfolds from a file. -/
theorem Unfolds.logged {root : FileStatus} {files : List FileStatus}
    (h : backend.Unfolds root files s) (log : List Call) :
    backend.logged.Unfolds root files (s, log) := by
  obtain ⟨listing, hsteady, hpre, hbound⟩ := h
  exact ⟨listing, hsteady.logged log, hpre, hbound⟩

end Backend

/-- The outcome on a store that also notes the calls. -/
def Outcome.noting (met : Outcome σ) (log : List Call) : Outcome (σ × List Call) :=
  ⟨(met.store, log), met.printed, met.failures⟩

namespace Task

/-- An attempt comes to the same where the calls are noted. -/
theorem attempt_noting (task : Task) (backend : Backend σ) (met : Outcome σ) (log : List Call)
    (path : Path) :
    task.attempt backend.logged (met.noting log) path =
      (task.attempt backend met path).noting (log ++ [task.call path]) := by
  have hlogged : backend.logged.perform (task.call path) (met.noting log).store =
      ((backend.perform (task.call path) met.store).1,
        (backend.perform (task.call path) met.store).2, log ++ [task.call path]) := rfl
  unfold attempt
  rw [hlogged]
  cases backend.perform (task.call path) met.store with
  | mk reply store => cases reply <;> rfl

/-- Dealing with a file comes to the same where the calls are noted. -/
theorem visit_noting (task : Task) (backend : Backend σ) (met : Outcome σ) (log : List Call)
    (file : FileStatus) :
    task.visit backend.logged (met.noting log) file =
      (task.visit backend met file).noting (log ++ task.callsFor file) := by
  unfold visit callsFor Walk.listCalls
  by_cases hdirectory : file.directory = true
  · have hlogged : backend.logged.perform (.children file.path) (met.noting log).store =
        ((backend.perform (.children file.path) met.store).1,
          (backend.perform (.children file.path) met.store).2, log ++ [.children file.path]) := rfl
    rw [if_pos hdirectory, if_pos hdirectory, if_pos hdirectory, hlogged, ← List.append_assoc]
    cases backend.perform (.children file.path) met.store with
    | mk reply store =>
      have hattempt := task.attempt_noting backend (met.on store) (log ++ [.children file.path])
        file.path
      cases reply with
      | error error => exact congrArg (Outcome.fail · _) hattempt
      | ok children => exact hattempt
  · rw [if_neg hdirectory, if_neg hdirectory, if_neg hdirectory, List.nil_append]
    exact task.attempt_noting backend met log file.path

/-- Dealing with several files comes to the same where the calls are noted. -/
theorem visitEach_noting (task : Task) (backend : Backend σ) (files : List FileStatus)
    (met : Outcome σ) (log : List Call) :
    task.visitEach backend.logged files (met.noting log) =
      (task.visitEach backend files met).noting (log ++ files.flatMap task.callsFor) := by
  induction files generalizing met log with
  | nil => rw [List.flatMap_nil, List.append_nil]; rfl
  | cons file rest ih =>
    rw [visitEach_cons, visitEach_cons, visit_noting, ih, List.flatMap_cons, List.append_assoc]

end Task

/-! ## Runs -/

/-- Where diagnostics can be written, a refusal is reported with a hint at the right usage. -/
theorem Run.refuse_of_speaks {session : Session σ} (h : session.Speaks) (tool : Tool)
    (error : ToolError) :
    Run.refuse tool error session = (.usage, session.saying [error.message, tool.usageHint]) := by
  have hhint : (session.saying [error.message]).tell tool.usageHint = _ :=
    (h.saying [error.message]).tell tool.usageHint
  rw [Run.refuse, h.tell]
  simp only [hhint]
  rw [Session.saying_saying]
  rfl

/-- The tool that shows lists never calls for a change. -/
theorem Tool.run_list_calls (backend : Backend σ) (arguments : List Bytes)
    (s : σ) (stdout stderr : Output) :
    ∀ call ∈ (Tool.run .getfacl backend.logged arguments
        (.start .getfacl (s, []) stdout stderr)).2.store.2,
      ∀ path what, call ≠ .change path what := by
  have hnoted : ∀ made : Call, (∀ path what, made ≠ .change path what) → ∀ t : σ × List Call,
      (∀ call ∈ t.2, ∀ path what, call ≠ .change path what) →
        ∀ call ∈ (backend.logged.perform made t).2.2, ∀ path what, call ≠ .change path what := by
    intro made hmade t ht call hcall
    rcases List.mem_append.mp hcall with hold | hnew
    · exact ht call hold
    · obtain rfl := List.mem_singleton.mp hnew
      exact hmade
  have hwalking : backend.logged.KeepsWalking
      fun t => ∀ call ∈ t.2, ∀ path what, call ≠ .change path what :=
    ⟨fun path => hnoted (.fileStatus path) (by simp), fun path => hnoted (.children path) (by simp)⟩
  exact Tool.run_list_keeps hwalking (fun path => hnoted (.aclStatus path) (by simp)) arguments
    (by simp [Session.start])

/-- Which calls a run makes. With working outputs every command line falls into one of three
classes. One that is refused leads to no call, to the exit code 1, to no output, and to two
diagnostics, the error and the usage. One that asks for help leads to no call. One that asks for a
task on a path leads to the one call of the task. If it goes through the tree from there on, the type
of the root is asked for first, and if that succeeds, each file of the tree is dealt with in
pre-order, whichever of the calls fail: it is listed if it is a directory, and then the call of the
task is made. No run of the tool that shows lists calls for a change. -/
theorem Tool.run_calls (tool : Tool) (backend : Backend σ) (arguments : List Bytes) (s : σ)
    {stdout stderr : Output} (hstdout : stdout.capacity = none)
    (hflush : stdout.flushFails = false) (hstderr : stderr.capacity = none) :
    let final := tool.run backend.logged arguments (.start tool (s, []) stdout stderr)
    let calls := final.2.store.2
    ((∃ error, Refuses arguments tool error) ∨ tool.AsksForHelp arguments ∨
      ∃ recursive path task, Requests arguments tool recursive path task) ∧
    (∀ error, Refuses arguments tool error →
      calls = [] ∧ final.1.value = 1 ∧ final.2.stdout = stdout ∧
      final.2.stderr.output.kept =
        stderr.kept ++ diagnostics tool.program [error.message, tool.usageHint]) ∧
    (tool.AsksForHelp arguments → calls = []) ∧
    (∀ path task, Requests arguments tool false path task → calls = [task.call path]) ∧
    (∀ path task, Requests arguments tool true path task →
      (∀ error, (backend.perform (.fileStatus path) s).1 = .error error →
        calls = [.fileStatus path]) ∧
      ∀ root files, (backend.perform (.fileStatus path) s).1 = .ok root →
        backend.Unfolds root files (backend.perform (.fileStatus path) s).2 →
        calls = .fileStatus path :: files.flatMap fun file =>
          (if file.directory then [.children file.path] else []) ++ [task.call file.path]) ∧
    (tool = .getfacl → ∀ call ∈ calls, ∀ path what, call ≠ .change path what) := by
  intro final calls
  have hspeaks : (Session.start tool (s, ([] : List Call)) stdout stderr).Speaks :=
    Session.speaks_start _ _ _ hstderr
  refine ⟨refuses_or_asksForHelp_or_requests tool arguments, fun error hrefuses => ?_,
    fun hhelp => ?_, fun path task hrequests => ?_, fun path task hrequests => ⟨?_, ?_⟩, ?_⟩
  · have hfinal : final = _ :=
      (hrefuses.run_eq _ _).trans (Run.refuse_of_speaks hspeaks tool error)
    have hcalls : calls = final.2.store.2 := rfl
    rw [hcalls, hfinal]
    exact ⟨rfl, rfl, rfl, rfl⟩
  · have hfinal : final = _ := hhelp.run_eq _ _
    have hcalls : calls = final.2.store.2 := rfl
    rw [hcalls, hfinal, Run.store_help]
    rfl
  · have hrun : final = _ := hrequests.run_eq hspeaks hstdout hflush (.single rfl)
    have hcalls : calls = final.2.store.2 := rfl
    have hstore : final.2.store = backend.logged.afterCalls [task.call path] (s, []) := by
      rw [hrun]
      exact task.store_attempt backend.logged _ path
    rw [hcalls, hstore, Backend.afterCalls_logged]
    rfl
  · intro error hroot
    have hlogged : backend.logged.perform (.fileStatus path) (s, []) =
        (.error error, (backend.perform (.fileStatus path) s).2, [.fileStatus path]) :=
      Prod.ext hroot rfl
    have hrun : final = _ := hrequests.run_eq hspeaks hstdout hflush (.root rfl hlogged)
    have hcalls : calls = final.2.store.2 := rfl
    rw [hcalls, hrun]
    rfl
  · intro root files hroot hunfolds
    have hlogged : backend.logged.perform (.fileStatus path) (s, []) =
        (.ok root, (backend.perform (.fileStatus path) s).2, [.fileStatus path]) :=
      Prod.ext hroot rfl
    have hrun : final = _ :=
      hrequests.run_eq hspeaks hstdout hflush (.tree rfl hlogged (hunfolds.logged _))
    have hcalls : calls = final.2.store.2 := rfl
    have hstore : final.2.store = backend.logged.afterCalls (files.flatMap task.callsFor)
        ((backend.perform (.fileStatus path) s).2, [.fileStatus path]) := by
      rw [hrun]
      exact task.store_visitEach backend.logged files _
    rw [hcalls, hstore, Backend.afterCalls_logged]
    rfl
  · rintro rfl
    exact run_list_calls backend arguments s stdout stderr

/-- The lists from `/d` on are stripped. The directory `/d/s` cannot be listed, and the list of `/d/f`
cannot be changed, but every call is made. -/
theorem Tool.run_calls_failing_listing_and_change :
    let d : Path := ⟨[0x2F, 0x64]⟩
    let unlisted : Path := ⟨[0x2F, 0x64, 0x2F, 0x73]⟩
    let foreign : Path := ⟨[0x2F, 0x64, 0x2F, 0x66]⟩
    let answer : (call : Call) → Except StoreError call.Reply
      | .fileStatus path => .ok ⟨path, true⟩
      | .children path =>
        if path = d then .ok [⟨unlisted, true⟩, ⟨foreign, false⟩]
        else .error ⟨path, .permissionDenied⟩
      | .aclStatus path => .error ⟨path, .notFound⟩
      | .change path _ => if path = foreign then .error ⟨path, .permissionDenied⟩ else .ok ()
    let arguments : List Bytes := [[], [0x2D, 0x52, 0x62], d.bytes]
    ({} : Output).capacity = none ∧ ({} : Output).flushFails = false ∧
      Requests arguments .setfacl true d (.change .keepBase) ∧
      (Backend.answering answer 6).Unfolds ⟨d, true⟩
        [⟨d, true⟩, ⟨unlisted, true⟩, ⟨foreign, false⟩] () ∧
      (Tool.run .setfacl (Backend.answering answer 6).logged arguments
        (.start .setfacl ((), []) {} {})).2.store.2 =
          [.fileStatus d, .children d, .change d .keepBase, .children unlisted,
            .change unlisted .keepBase, .change foreign .keepBase] := by
  intro d unlisted foreign answer arguments
  have hrequests : Requests arguments .setfacl true d (.change .keepBase) :=
    @Requests.change _ [.recursive, .keepBase] _ _ _ _ rfl (by decide) rfl (.keepBase _)
  have hpre : Walk.PreOrder (fun path => answer (.children path)) [⟨d, true⟩]
      [⟨d, true⟩, ⟨unlisted, true⟩, ⟨foreign, false⟩] :=
    .directory rfl rfl (.unlisted rfl rfl (.file rfl .nil)) .nil
  have hunfolds := Backend.answering_unfolds hpre (Nat.le_refl 6)
  have hunlimited : ({} : Output).capacity = none := rfl
  have hflush : ({} : Output).flushFails = false := rfl
  have hcalls := (Tool.run_calls .setfacl (Backend.answering answer 6) arguments () hunlimited
    hflush hunlimited).2.2.2.2.1 d _ hrequests
  exact ⟨hunlimited, hflush, hrequests, hunfolds, hcalls.2 _ _ rfl hunfolds⟩

end PosixAcl
