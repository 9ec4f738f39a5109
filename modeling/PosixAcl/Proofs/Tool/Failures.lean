import PosixAcl.Proofs.Tool.CommandLine

/-!
# The failures of a run

A run with working outputs reports every failure that it meets, in order and on a
line of its own. Its exit code depends on the failures and on the number of files
that were visited. One failure on one file keeps its own code, and everything
else that fails is an incomplete run.
-/

namespace PosixAcl

variable {σ : Type}

/-! ## Causes and codes -/

/-- Why the store fails, if it is the store that fails. -/
def ToolError.cause? : ToolError → Option StoreError.Cause
  | .store error => some error.cause
  | .walk error => some error.storeError.cause
  | .usage _ | .spec _ | .output _ => none

/-- The number with which a run ends after one failure of the store. -/
def StoreError.Cause.value : StoreError.Cause → Nat
  | .notFound => 3
  | .unsupported _ => 4
  | _ => 11

/-- The code for a failure of the store depends on its cause. -/
theorem ExitCode.value_ofStoreError (error : StoreError) :
    (ExitCode.ofStoreError error).value = error.cause.value := by
  unfold ofStoreError
  cases error.cause <;> rfl

/-- A failure of the store has the code for its cause. -/
theorem ToolError.value_exitCode {error : ToolError} {cause : StoreError.Cause}
    (h : error.cause? = some cause) : error.exitCode.value = cause.value := by
  cases error with
  | store failure =>
    obtain rfl := Option.some.inj h
    exact ExitCode.value_ofStoreError failure
  | walk failure =>
    obtain rfl := Option.some.inj h
    exact ExitCode.value_ofStoreError failure.storeError
  | usage failure | spec failure | output failure => cases h

/-- After a failure of the store a run neither succeeds nor counts as incomplete. -/
theorem StoreError.Cause.value_mem (cause : StoreError.Cause) : cause.value ∈ [3, 4, 11] := by
  cases cause <;> simp [value]

/-- Only an incomplete run ends with its number. -/
theorem ExitCode.eq_incomplete_iff {code : ExitCode} : code = .incomplete ↔ code.value = 23 := by
  cases code <;> simp [value]

/-- The summary of an incomplete run, and no word about any other run. -/
theorem ExitCode.summary_eq (code : ExitCode) :
    (if code = .incomplete then [code.message] else []) =
      if code.value = 23 then ["some files could not be processed (code 23)".toList] else [] := by
  have hmessage : ExitCode.incomplete.message =
      "some files could not be processed (code 23)".toList := by decide +kernel
  by_cases hcode : code = .incomplete
  · rw [if_pos hcode, if_pos (eq_incomplete_iff.mp hcode), hcode, hmessage]
  · rw [if_neg hcode, if_neg fun hvalue => hcode (eq_incomplete_iff.mpr hvalue)]

/-! ## What is met -/

/-- All failures that were met are failures of the store. -/
def Outcome.FromStore (met : Outcome σ) : Prop :=
  ∀ error ∈ met.failures, ∃ cause, error.cause? = some cause

namespace Outcome.FromStore

variable {met : Outcome σ} {task : Task} {backend : Backend σ}

/-- One more failure of the store. -/
theorem fail (h : met.FromStore) {error : ToolError} {cause : StoreError.Cause}
    (hcause : error.cause? = some cause) : (met.fail error).FromStore := by
  intro other hother
  rcases List.mem_append.mp hother with hmem | hmem
  · exact h other hmem
  · obtain rfl := List.mem_singleton.mp hmem
    exact ⟨cause, hcause⟩

/-- An attempt fails only if the store does. -/
theorem attempt (h : met.FromStore) (path : Path) :
    (task.attempt backend met path).FromStore := by
  unfold Task.attempt
  cases backend.perform (task.call path) met.store with
  | mk reply store =>
    have hreached : (met.on store).FromStore := h
    cases reply with
    | error error => exact hreached.fail rfl
    | ok reply => exact hreached

/-- Dealing with a file fails only if the store does, in the listing or in the attempt. -/
theorem visit (h : met.FromStore) (file : FileStatus) :
    (task.visit backend met file).FromStore := by
  unfold Task.visit
  split
  · cases backend.perform (.children file.path) met.store with
    | mk reply store =>
      have hreached : (met.on store).FromStore := h
      have hattempt : (task.attempt backend (met.on store) file.path).FromStore :=
        hreached.attempt file.path
      cases reply with
      | error error => exact hattempt.fail rfl
      | ok children => exact hattempt
  · exact h.attempt file.path

/-- Dealing with several files fails only where the store does. -/
theorem visitEach (h : met.FromStore) (files : List FileStatus) :
    (task.visitEach backend files met).FromStore := by
  induction files generalizing met with
  | nil => exact h
  | cons file rest ih => exact ih (h.visit file)

end Outcome.FromStore

namespace Task.Meets

variable {task : Task} {backend : Backend σ} {recursive : Bool} {path : Path} {s : σ}
  {visited : Nat} {met : Outcome σ}

/-- A run meets failures of the store only. -/
theorem fromStore (h : task.Meets backend recursive path s visited met) : met.FromStore := by
  have hnone : ∀ store, Outcome.FromStore ({ store } : Outcome σ) :=
    fun _ _ hmem => absurd hmem List.not_mem_nil
  cases h with
  | single _ => exact (hnone s).attempt path
  | root _ _ => exact (hnone _).fail rfl
  | tree _ _ _ => exact (hnone _).visitEach _

/-- Where no tree is gone through, there is one path and at most one failure. -/
theorem length_le_one (h : task.Meets backend recursive path s visited met)
    (hone : recursive = false ∨ ∃ error, (backend.perform (.fileStatus path) s).1 = .error error) :
    visited = 1 ∧ met.failures.length ≤ 1 := by
  cases h with
  | single _ =>
    refine ⟨rfl, ?_⟩
    unfold attempt
    cases backend.perform (task.call path) s with
    | mk reply store => cases reply <;> simp [Outcome.fail, Outcome.on, Outcome.print]
  | root _ _ => exact ⟨rfl, by simp [Outcome.fail]⟩
  | tree hrecursive hroot _ =>
    rcases hone with hsingle | ⟨error, herror⟩
    · rw [hrecursive] at hsingle
      cases hsingle
    · rw [hroot] at herror
      cases herror

/-- What a run meets exists if the tree from its root on is finite. -/
theorem exists_of_finite
    (hfinite : recursive = true → ∀ root, (backend.perform (.fileStatus path) s).1 = .ok root →
      ∃ files, backend.Unfolds root files (backend.perform (.fileStatus path) s).2) :
    ∃ visited met, task.Meets backend recursive path s visited met := by
  cases hrecursive : recursive with
  | false => exact ⟨_, _, .single rfl⟩
  | true =>
    cases hroot : backend.perform (.fileStatus path) s with
    | mk reply store =>
      cases reply with
      | error error => exact ⟨_, _, .root rfl hroot⟩
      | ok root =>
        rw [hroot] at hfinite
        obtain ⟨files, hunfolds⟩ := hfinite hrecursive root rfl
        exact ⟨_, _, .tree rfl hroot hunfolds⟩

end Task.Meets

/-! ## Runs -/

namespace Run

variable {visited : Nat} {met : Outcome σ}

/-- A run succeeds exactly if it meets no failure. -/
theorem value_tallyOf_eq_zero_iff (h : met.FromStore) :
    (tallyOf visited met).exitCode.value = 0 ↔ met.failures = [] := by
  unfold tallyOf Tally.exitCode
  cases hfailures : met.failures with
  | nil => exact iff_of_true rfl rfl
  | cons error rest =>
    refine iff_of_false (fun hzero => ?_) (List.cons_ne_nil _ _)
    cases rest with
    | nil =>
      obtain ⟨cause, hcause⟩ := h error (by simp [hfailures])
      have hvalue := cause.value_mem
      rw [← ToolError.value_exitCode hcause] at hvalue
      simp only [List.map_cons, List.map_nil] at hzero
      split at hzero
      · rw [hzero] at hvalue
        simp at hvalue
      · cases hzero
    | cons other rest => cases hzero

/-- One failure keeps its own code if only one file was visited. -/
theorem value_tallyOf_of_single {error : ToolError} (hfailures : met.failures = [error])
    {cause : StoreError.Cause} (hcause : error.cause? = some cause) (hvisited : visited = 1) :
    (tallyOf visited met).exitCode.value = cause.value := by
  simp [tallyOf, Tally.exitCode, hfailures, hvisited, ToolError.value_exitCode hcause]

/-- In all other cases a failure makes the run incomplete. -/
theorem value_tallyOf_of_several (hne : met.failures ≠ [])
    (hmore : visited ≠ 1 ∨ met.failures.length ≠ 1) :
    (tallyOf visited met).exitCode.value = 23 := by
  unfold tallyOf Tally.exitCode
  cases hfailures : met.failures with
  | nil => exact absurd hfailures hne
  | cons error rest =>
    cases rest with
    | nil =>
      have hvisited : visited ≠ 1 := by simpa [hfailures] using hmore
      simp [hvisited, ExitCode.value]
    | cons other rest => rfl

end Run

/-- Which failures a run reports, and how it ends. With working outputs, and if the tree is finite
where one is gone through, let a run for a task meet some failures. They are all failures of the
store. The diagnostics are one line for each of them, in order, and then a summary if the run ends
with 23. It ends with 0 exactly if there is no failure. It ends with the number for the cause of a
failure if this is the only one and only one file was visited, as it is unless a tree is gone
through. In all other cases it ends with 23. -/
theorem Tool.run_failures {tool : Tool} {backend : Backend σ} {arguments : List Bytes}
    {recursive : Bool} {path : Path} {task : Task}
    (hrequests : Requests arguments tool recursive path task) {s : σ}
    (hfinite : recursive = true → ∀ root, (backend.perform (.fileStatus path) s).1 = .ok root →
      ∃ files, backend.Unfolds root files (backend.perform (.fileStatus path) s).2)
    {stdout stderr : Output} (hstdout : stdout.capacity = none)
    (hflush : stdout.flushFails = false) (hstderr : stderr.capacity = none) :
    let final := tool.run backend arguments (.start tool s stdout stderr)
    (∃ visited met, task.Meets backend recursive path s visited met) ∧
    ∀ visited met, task.Meets backend recursive path s visited met →
      (∀ error ∈ met.failures, ∃ cause, error.cause? = some cause) ∧
      final.2.stderr.output.kept = stderr.kept ++ diagnostics tool.program
        (met.failures.map ToolError.message ++
          if final.1.value = 23 then ["some files could not be processed (code 23)".toList]
          else []) ∧
      (final.1.value = 0 ↔ met.failures = []) ∧
      ((recursive = false ∨ ∃ error, (backend.perform (.fileStatus path) s).1 = .error error) →
        visited = 1 ∧ met.failures.length ≤ 1) ∧
      (∀ error cause, met.failures = [error] → error.cause? = some cause → visited = 1 →
        final.1.value = cause.value) ∧
      (met.failures ≠ [] → visited ≠ 1 ∨ met.failures.length ≠ 1 → final.1.value = 23) := by
  intro final
  have hspeaks : (Session.start tool s stdout stderr).Speaks := Session.speaks_start _ _ _ hstderr
  refine ⟨Task.Meets.exists_of_finite hfinite, fun visited met hmeets => ?_⟩
  have hrun : final = _ := hrequests.run_eq hspeaks hstdout hflush hmeets
  have hcode : final.1 = (Run.tallyOf visited met).exitCode := congrArg (·.1) hrun
  refine ⟨hmeets.fromStore, ?_, ?_, hmeets.length_le_one, fun error cause hone hcause hvisited => ?_,
    fun hne hmore => ?_⟩
  · have hsaid : final.2.stderr = _ := congrArg (·.2.stderr) hrun
    rw [hcode, ← ExitCode.summary_eq, hsaid]
    simp only [Session.saying, Session.after, Session.start, diagnostics, List.flatMap_append,
      List.append_assoc]
  · rw [hcode]
    exact Run.value_tallyOf_eq_zero_iff hmeets.fromStore
  · rw [hcode]
    exact Run.value_tallyOf_of_single hone hcause hvisited
  · rw [hcode]
    exact Run.value_tallyOf_of_several hne hmore

/-- The lists from `/d` on are shown, but the list of `/d` cannot be read, and its files cannot be
listed either. These are two failures on the only file that is visited, so the run is incomplete. -/
theorem Tool.run_failures_root_failing_twice :
    let d : Path := ⟨[0x2F, 0x64]⟩
    let answer : (call : Call) → Except StoreError call.Reply
      | .fileStatus path => .ok ⟨path, true⟩
      | .children path => .error ⟨path, .permissionDenied⟩
      | .aclStatus path => .error ⟨path, .notFound⟩
      | .change _ _ => .ok ()
    let arguments : List Bytes := [[], [0x2D, 0x52], d.bytes]
    let final := Tool.run .getfacl (Backend.answering answer 2) arguments
      (.start .getfacl () {} {})
    ({} : Output).capacity = none ∧ ({} : Output).flushFails = false ∧
      Requests arguments .getfacl true d .list ∧
      (∀ root, (answer (.fileStatus d)) = .ok root →
        ∃ files, (Backend.answering answer 2).Unfolds root files ()) ∧
      final.1.value = 23 ∧
      final.2.stderr.output.kept = diagnostics Tool.getfacl.program
        [(StoreError.mk d .notFound).message,
          (WalkError.listing ⟨d, .permissionDenied⟩).message,
          "some files could not be processed (code 23)".toList] := by
  intro d answer arguments final
  have hrequests : Requests arguments .getfacl true d .list :=
    @Requests.list _ [.recursive] _ rfl (by decide)
  have hpre : Walk.PreOrder (fun path => answer (.children path)) [⟨d, true⟩] [⟨d, true⟩] :=
    .unlisted rfl rfl .nil
  have hunfolds := Backend.answering_unfolds hpre (Nat.le_refl 2)
  have hfinite : ∀ root, (answer (.fileStatus d)) = .ok root →
      ∃ files, (Backend.answering answer 2).Unfolds root files () := by
    intro root hroot
    obtain rfl := Except.ok.inj hroot
    exact ⟨_, hunfolds⟩
  have hunlimited : ({} : Output).capacity = none := rfl
  have hflush : ({} : Output).flushFails = false := rfl
  have hmeets : Task.Meets .list (Backend.answering answer 2) true d () 1
      ⟨(), [], [.store ⟨d, .notFound⟩, .walk (.listing ⟨d, .permissionDenied⟩)]⟩ :=
    .tree rfl rfl hunfolds
  obtain ⟨-, hsaid, -, -, -, hvalue⟩ := (Tool.run_failures hrequests (fun _ => hfinite) hunlimited
    hflush hunlimited).2 _ _ hmeets
  have hincomplete : final.1.value = 23 := hvalue (List.cons_ne_nil _ _) (Or.inr (by decide))
  refine ⟨hunlimited, hflush, hrequests, hfinite, hincomplete, ?_⟩
  rw [hsaid, if_pos hincomplete]
  exact List.nil_append _

end PosixAcl
