import PosixAcl.Proofs.Tool.Calls
import PosixAcl.Proofs.Tool.Limit

/-!
# Runs cut off by a full output

A full output cuts a run off and changes nothing else. What was written is the
beginning of what would have been written, and the calls are the first ones. A run
that cannot write its listing fails. One that cannot write its diagnostics stops
with the first failure that it cannot report.
-/

namespace PosixAcl

variable {σ : Type}

/-! ## Ends of runs -/

namespace Run

variable {backend : Backend σ} {session : Session σ} {n : Nat} {channel : Channel}

/-- How a whole run with a limit on an output compares with the one without limits. -/
structure CutOff (backend : Backend σ) (n : Nat) (channel : Channel)
    (whole part : ExitCode × Session σ) : Prop where
  /-- There is no difference if everything fits. -/
  same : whole.2.Fits n channel → part = (whole.1, whole.2.limit n channel)
  /-- The limited output has kept what is within the limit. -/
  written : part.2.written channel = (whole.2.written channel).take n
  /-- The calls are the first ones. -/
  calls : ∃ calls, whole.2.store = backend.afterCalls calls part.2.store
  /-- The listing is a beginning of the whole one. -/
  stdout : part.2.stdout.kept <+: whole.2.stdout.kept
  /-- A listing that does not fit is a failure. -/
  failure : channel = .stdout → ¬ whole.2.Fits n channel → part.1 = .failure

/-- A run in which everything fits. -/
theorem cutOff_limit (backend : Backend σ) {whole : ExitCode × Session σ}
    (h : channel = .stdout → whole.2.Fits n channel) :
    CutOff backend n channel whole (whole.1, whole.2.limit n channel) where
  same _ := rfl
  written := whole.2.written_limit n channel
  calls := ⟨[], (whole.2.limit_store n channel).symm⟩
  stdout := whole.2.stdout_limit_isPrefix n channel
  failure hchannel hfull := absurd (h hchannel) hfull

/-- A run that has stopped in a state that the other one has passed, after at most some more
diagnostics. -/
theorem cutOff_of_full {whole : ExitCode × Session σ} {stop last : Session σ}
    (hfull : ¬ stop.Fits n channel) (hgrows : stop.Grows backend whole.2)
    (hlast : stop.Grows backend last) (hstore : last.store = stop.store)
    (hstdout : last.stdout = stop.stdout) {code : ExitCode}
    (hcode : channel = .stdout → code = .failure) :
    CutOff backend n channel whole (code, last.limit n channel) where
  same hfits := absurd (hgrows.fits hfits) hfull
  written := by
    rw [Session.written_limit, hlast.take_written hfull, hgrows.take_written hfull]
  calls := by
    obtain ⟨calls, hcalls⟩ := hgrows.calls
    exact ⟨calls, by rw [hcalls, Session.limit_store, hstore]⟩
  stdout := by
    have hlimit := last.stdout_limit_isPrefix n channel
    rw [hstdout] at hlimit
    exact hlimit.trans hgrows.stdout.kept
  failure hchannel _ := hcode hchannel

/-- The end of a run adds at most a diagnostic. -/
theorem grows_finish (backend : Backend σ) (outcome : Except SystemError ExitCode)
    (session : Session σ) : session.Grows backend (finish outcome session).2 := by
  cases outcome with
  | ok code =>
    rw [finish]
    split
    · exact session.grows_tell backend _
    · exact .refl backend session
  | error error => exact session.grows_tell backend _

/-- The end of a run adds nothing to the listing. -/
theorem stdout_finish (outcome : Except SystemError ExitCode) (session : Session σ) :
    (finish outcome session).2.stdout = session.stdout := by
  cases outcome with
  | ok code =>
    rw [finish]
    split <;> rfl
  | error error => rfl

/-- The end of a run is the same with a limit. -/
theorem finish_limit (hunlimited : session.Unlimited) (n : Nat) (channel : Channel)
    (outcome : Except SystemError ExitCode) :
    finish outcome (session.limit n channel) =
      ((finish outcome session).1, (finish outcome session).2.limit n channel) := by
  cases outcome with
  | ok code =>
    rw [finish, finish]
    split
    · rw [hunlimited.tell_limit_snd]
    · rfl
  | error error => rw [finish, finish, hunlimited.tell_limit_snd]

/-- A run is cut off where what it does before its end is. -/
theorem Truncates.finish {whole part : Except SystemError ExitCode × Session σ}
    (h : Truncates backend n channel whole part) (hunlimited : whole.2.Unlimited) :
    CutOff backend n channel (finish whole.1 whole.2) (finish part.1 part.2) := by
  cases h with
  | fits hfits =>
    rw [finish_limit hunlimited]
    refine cutOff_limit backend fun hchannel => ?_
    subst hchannel
    rw [Session.Fits, Session.written, stdout_finish]
    exact hfits
  | @full stop hfull hgrows =>
    have hstop : stop.Unlimited := hgrows.unlimited_iff.mp hunlimited
    rw [finish_limit hstop]
    exact cutOff_of_full hfull (hgrows.trans (grows_finish backend _ _))
      (grows_finish backend (.error .brokenPipe) stop) rfl rfl fun _ => rfl

/-- A refusal has its exit code whether or not it can be written. -/
theorem refuse_fst (tool : Tool) (error : ToolError) (session : Session σ) :
    (refuse tool error session).1 = .usage := by
  unfold refuse
  split <;> rfl

/-- A refusal adds nothing to the listing. -/
theorem stdout_refuse (tool : Tool) (error : ToolError) (session : Session σ) :
    (refuse tool error session).2.stdout = session.stdout := by
  have htell : (session.tell error.message).2.stdout = session.stdout := rfl
  unfold refuse
  split
  · rename_i heq
    rw [heq] at htell
    exact htell
  · rename_i heq
    rw [heq] at htell
    exact htell

/-- A refusal does not depend on room for its diagnostics. -/
theorem refuse_limit (tool : Tool) (error : ToolError) (session : Session σ) (n : Nat) :
    let part := refuse tool error (session.limit n .stderr)
    let whole := refuse tool error session
    part.1 = whole.1 ∧ part.2.store = whole.2.store ∧ part.2.stdout = whole.2.stdout := by
  intro part whole
  refine ⟨(refuse_fst ..).trans (refuse_fst ..).symm, ?_, ?_⟩
  · rw [store_refuse, store_refuse, Session.limit_store]
  · rw [stdout_refuse, stdout_refuse]
    rfl

/-- A refusal is cut off where its diagnostics are. -/
theorem cutOff_refuse (backend : Backend σ) (hunlimited : session.Unlimited)
    (hfits : session.Fits n channel) (tool : Tool) (error : ToolError) :
    CutOff backend n channel (refuse tool error session)
      (refuse tool error (session.limit n channel)) := by
  have htold := session.grows_tell backend error.message
  have hwhole : refuse tool error session =
      (.usage, ((session.tell error.message).2.tell tool.usageHint).2) := by
    have htell : session.tell error.message = (.ok (), (session.tell error.message).2) :=
      Prod.ext (hunlimited.tell_fst _) rfl
    rw [refuse, htell]
  have hhint := (session.tell error.message).2.grows_tell backend tool.usageHint
  rw [hwhole, refuse, hunlimited.tell_limit hfits]
  by_cases hroom : (session.tell error.message).2.Fits n channel
  · rw [if_pos hroom]
    simp only [(htold.unlimited_iff.mpr hunlimited).tell_limit_snd]
    refine cutOff_limit backend fun hchannel => ?_
    subst hchannel
    exact hfits
  · rw [if_neg hroom]
    refine cutOff_of_full hroom hhint (.refl backend _) rfl rfl fun hchannel => ?_
    subst hchannel
    exact absurd hfits hroom

/-- Where flushing works, help ends with printing its text. -/
theorem help_of_flush (hflush : session.stdout.flushFails = false) (tool : Tool) :
    help tool session =
      match session.print [tool.help] with
      | (.error error, later) => finish (.error error) later
      | (.ok (), later) => (.success, later) := by
  have hflushed : (session.print [tool.help]).2.stdout.flush = .ok () :=
    (session.stdout.grows_writeTexts [tool.help]).flush_eq_ok hflush
  rw [help_eq_print]
  cases hprint : session.print [tool.help] with
  | mk result later =>
    rw [hprint] at hflushed
    cases result with
    | error error => rfl
    | ok => simp only [hflushed]

/-- Where the outputs work, help prints its text and succeeds. -/
theorem help_of_unlimited (hunlimited : session.Unlimited)
    (hflush : session.stdout.flushFails = false) (tool : Tool) :
    help tool session = (.success, (session.print [tool.help]).2) := by
  have hprint : session.print [tool.help] = (.ok (), (session.print [tool.help]).2) :=
    Prod.ext (hunlimited.print_fst _) rfl
  rw [help_of_flush hflush, hprint]

/-- Help is cut off where its text is. -/
theorem cutOff_help (backend : Backend σ) (hunlimited : session.Unlimited)
    (hfits : session.Fits n channel) (hflush : session.stdout.flushFails = false) (tool : Tool) :
    CutOff backend n channel (help tool session) (help tool (session.limit n channel)) := by
  have hlimited : (session.limit n channel).stdout.flushFails = false := by
    cases channel <;> exact hflush
  rw [help_of_unlimited hunlimited hflush, help_of_flush hlimited, hunlimited.print_limit hfits]
  by_cases hroom : (session.print [tool.help]).2.Fits n channel
  · rw [if_pos hroom]
    exact cutOff_limit backend fun _ => hroom
  · have hprinted := (session.grows_print backend [tool.help]).unlimited_iff.mpr hunlimited
    rw [if_neg hroom]
    simp only [finish, hprinted.tell_limit_snd]
    exact cutOff_of_full hroom (.refl backend _) (Session.grows_tell backend _ _) rfl rfl
      fun _ => rfl

end Run

/-! ## Command lines -/

/-- Ends a run with the result of an invocation. -/
def Run.conclude (result : Except SystemError ExitCode × Session σ) : ExitCode × Session σ :=
  Run.finish result.1 result.2

namespace Tool

variable {backend : Backend σ} {arguments : List Bytes} {tool : Tool} {recursive : Bool}
  {path : Path} {task : Task}

/-- Where flushing works, a run for a task is an invocation of an action that does the task, and
then it ends. -/
theorem Requests.exists_action (h : Requests arguments tool recursive path task)
    (backend : Backend σ) :
    ∃ action : PathAction σ, action.Limited ∧ action.Adds backend ∧ action.Does backend task ∧
      ∀ session : Session σ, session.stdout.flushFails = false →
        tool.run backend arguments session =
          Run.conclude (Run.invocation backend ⟨recursive, (), path⟩ action session) := by
  cases tool with
  | getfacl =>
    obtain ⟨rfl, hrun⟩ := h.run_eq_query backend
    refine ⟨PathAction.list backend, PathAction.limited_list backend, PathAction.adds_list backend,
      PathAction.does_list backend, fun session hflush => ?_⟩
    rw [hrun session, Run.query_of_flush hflush]
    rfl
  | setfacl =>
    obtain ⟨what, rfl, hrun⟩ := h.exists_run_eq_edit backend
    exact ⟨PathAction.change backend what, PathAction.limited_change backend what,
      PathAction.adds_change backend what, PathAction.does_change backend what,
      fun session _ => hrun session⟩

/-- Every run is cut off by a limit on one of its outputs. -/
theorem cutOff_run {session : Session σ} {n : Nat} {channel : Channel}
    (hunlimited : session.Unlimited) (hfits : session.Fits n channel)
    (hflush : session.stdout.flushFails = false) (tool : Tool) (backend : Backend σ)
    (arguments : List Bytes) :
    Run.CutOff backend n channel (tool.run backend arguments session)
      (tool.run backend arguments (session.limit n channel)) := by
  rcases refuses_or_asksForHelp_or_requests tool arguments with
    ⟨error, hrefuses⟩ | hhelp | ⟨recursive, path, task, hrequests⟩
  · rw [hrefuses.run_eq, hrefuses.run_eq]
    exact Run.cutOff_refuse backend hunlimited hfits tool error
  · rw [hhelp.run_eq, hhelp.run_eq]
    exact Run.cutOff_help backend hunlimited hfits hflush tool
  · obtain ⟨action, haction, hadds, -, hrun⟩ := hrequests.exists_action backend
    have hlimited : (session.limit n channel).stdout.flushFails = false := by
      cases channel <;> exact hflush
    rw [hrun session hflush, hrun _ hlimited]
    have hgrows := Run.grows_invocation hadds (⟨recursive, (), path⟩ : Invocation Unit) session
    exact (Run.invocation_limit haction hadds hunlimited hfits _).finish
      (hgrows.unlimited_iff.mpr hunlimited)

end Tool

/-! ## Diagnostics that do not fit -/

namespace Session

variable {session : Session σ} {n : Nat} {met : Outcome σ}

/-- If the diagnostics of an outcome fit with another failure, they fit without it. -/
theorem fits_of_fits_fail {error : ToolError}
    (h : (session.after (met.fail error)).Fits n .stderr) : (session.after met).Fits n .stderr := by
  rw [← after_saying] at h
  have hmore : ((session.after met).written .stderr).length ≤
      (((session.after met).saying [error.message]).written .stderr).length := by
    simp [written, saying]
  exact Nat.le_trans hmore h

/-- Once the diagnostics do not fit, another failure makes no difference within the limit. -/
theorem limit_after_fail (hfull : ¬ (session.after met).Fits n .stderr) (error : ToolError) :
    (session.after (met.fail error)).limit n .stderr = (session.after met).limit n .stderr := by
  have hlength : n ≤ (session.after met).stderr.output.kept.length := Nat.le_of_not_le hfull
  rw [← after_saying]
  simp only [limit, saying, Output.limit, List.take_append_of_le_length hlength]

end Session

namespace Run

variable {backend : Backend σ} {action : PathAction σ} {task : Task} {session : Session σ}
  {listing : Listing} {n : Nat}

/-- With a limit on the diagnostics, a run stops at a file if a failure for it cannot be reported.
Until then the file was dealt with as without the limit. -/
theorem settleAll_itemsOf_limit (haction : action.Limited) (hadds : action.Adds backend)
    (h : action.Does backend task) (hspeaks : session.Speaks)
    (hstdout : session.stdout.capacity = none) {met : Outcome σ}
    (hsteady : backend.Steady listing met.store) (hfits : (session.after met).Fits n .stderr)
    (file : FileStatus) (visited : Nat) :
    settleAll action (tallyOf visited met)
        ((session.after (met.on (backend.afterCalls (Walk.listCalls file) met.store))).limit n
          .stderr)
        (Walk.itemsOf listing file) =
      cut n .stderr (.ok (tallyOf (visited + 1) (task.visit backend met file)),
        session.after (task.visit backend met file)) := by
  have hunlimited : ∀ reached : Outcome σ, (session.after reached).Unlimited :=
    fun _ => ⟨hstdout, hspeaks.unlimited⟩
  have hlisted : (session.after (met.on (backend.afterCalls (Walk.listCalls file)
      met.store))).Fits n .stderr := hfits
  have hwhole := settleAll_itemsOf h hspeaks hstdout hsteady file visited
  rcases Walk.itemsOf_cases listing file with hitems | ⟨error, hdirectory, hlisting, hitems⟩
  · rw [hitems, settleAll_singleton] at hwhole
    rw [hitems, settleAll_singleton, settle_limit haction hadds (hunlimited _) hlisted, hwhole]
  · have hcalls : Walk.listCalls file = [.children file.path] := by
      simp [Walk.listCalls, hdirectory]
    rw [hcalls] at hlisted
    rw [hitems, hcalls, settleAll, settle_limit haction hadds (hunlimited _) hlisted,
      Task.visit_unlisted hsteady hdirectory hlisting]
    have hfirst : settle action (tallyOf visited met) (session.after
        (met.on (backend.afterCalls [.children file.path] met.store))) (.ok file) = _ :=
      settle_file h hspeaks hstdout
        (met.on (backend.perform (.children file.path) met.store).2) file visited
    rw [hfirst]
    by_cases hroom : (session.after (task.attempt backend
        (met.on (backend.perform (.children file.path) met.store).2) file.path)).Fits n .stderr
    · rw [cut, if_pos hroom, andThen]
      simp only [settleAll_singleton]
      rw [settle_limit haction hadds (hunlimited _) hroom, settle_failure hspeaks]
    · -- The failure of the task is cut off already, so that the one to list the file is not met.
      rw [cut, if_neg hroom, andThen, cut,
        if_neg fun hlater => hroom (Session.fits_of_fits_fail hlater),
        Session.limit_after_fail hroom]

/-- With a limit on the diagnostics, either the failures of all files can be reported, or a run
stops at the first file for which they cannot. -/
theorem settleFiles_limit (haction : action.Limited) (hadds : action.Adds backend)
    (h : action.Does backend task) (hspeaks : session.Speaks)
    (hstdout : session.stdout.capacity = none) {met : Outcome σ}
    (hsteady : backend.Steady listing met.store) (hfits : (session.after met).Fits n .stderr)
    (files : List FileStatus) (visited : Nat) :
    let reached k := session.after (task.visitEach backend (files.take k) met)
    let limited := settleFiles backend listing action (tallyOf visited met)
      ((session.after met).limit n .stderr) files
    ((∀ k, (reached k).Fits n .stderr) ∧ limited =
      (.ok (tallyOf (visited + files.length) (task.visitEach backend files met)),
        (session.after (task.visitEach backend files met)).limit n .stderr)) ∨
    ∃ k, ¬ (reached k).Fits n .stderr ∧ (∀ j < k, (reached j).Fits n .stderr) ∧
      limited = (.error .brokenPipe, (reached k).limit n .stderr) := by
  induction files generalizing met visited with
  | nil => exact Or.inl ⟨fun k => by cases k <;> exact hfits, rfl⟩
  | cons file rest ih =>
    intro reached limited
    have hsettled := settleAll_itemsOf_limit haction hadds h hspeaks hstdout hsteady hfits file
      visited
    have hlimited : limited = andThen (cut n .stderr
        (.ok (tallyOf (visited + 1) (task.visit backend met file)),
          session.after (task.visit backend met file)))
        fun tally session => settleFiles backend listing action tally session rest := by
      rw [← hsettled]
      rfl
    by_cases hroom : (session.after (task.visit backend met file)).Fits n .stderr
    · rw [cut, if_pos hroom, andThen] at hlimited
      rw [hlimited]
      rcases ih (hsteady.visitEach task [file]) hroom (visited + 1) with
        ⟨hall, hrest⟩ | ⟨k, hfull, hbefore, hrest⟩
      · refine Or.inl ⟨fun k => ?_, ?_⟩
        · cases k with
          | zero => exact hfits
          | succ k => exact hall k
        · rw [List.length_cons, Nat.add_comm rest.length 1, ← Nat.add_assoc]
          exact hrest
      · refine Or.inr ⟨k + 1, hfull, fun j hj => ?_, hrest⟩
        cases j with
        | zero => exact hfits
        | succ j => exact hbefore j (Nat.lt_of_succ_lt_succ hj)
    · rw [cut, if_neg hroom, andThen] at hlimited
      refine Or.inr ⟨1, hroom, fun j hj => ?_, hlimited⟩
      obtain rfl : j = 0 := by omega
      exact hfits

/-- With a limit on the diagnostics, a run through a tree either reports every failure, or it stops
at the first file whose failures it cannot report. -/
theorem tree_limit (haction : action.Limited) (hadds : action.Adds backend)
    (h : action.Does backend task) (hspeaks : session.Speaks)
    (hstdout : session.stdout.capacity = none) (hfits : session.Fits n .stderr) {root : Path}
    {status : FileStatus} {files : List FileStatus} {store : σ}
    (hroot : backend.perform (.fileStatus root) session.store = (.ok status, store))
    (hunfolds : backend.Unfolds status files store) :
    let reached k := session.after (task.visitEach backend (files.take k) { store })
    let whole := tree backend action root session
    let part := tree backend action root (session.limit n .stderr)
    ((∀ k, (reached k).Fits n .stderr) ∧ part = (whole.1, whole.2.limit n .stderr)) ∨
    ∃ k, ¬ (reached k).Fits n .stderr ∧ (∀ j < k, (reached j).Fits n .stderr) ∧
      part = (.error .brokenPipe, (reached k).limit n .stderr) := by
  intro reached whole part
  have hwhole : whole = _ := tree_of_unfolds h hadds hspeaks hstdout hroot hunfolds
  obtain ⟨listing, hsteady, hpre, hbound⟩ := hunfolds
  have hstart : backend.Steady listing (Outcome.store { store }) := hsteady
  have hstarted : (session.after { store }).Fits n .stderr := by
    rw [Session.after_start]
    exact hfits.withStore store
  have hlimited : backend.perform (.fileStatus root) (session.limit n .stderr).store =
      (.ok status, store) := hroot
  have hpart : part = andThen (settleFiles backend listing action (tallyOf 0 { store })
      ((session.after { store }).limit n .stderr) files) summed := by
    rw [Session.after_start]
    exact tree_eq_settleFiles hadds hlimited hsteady hpre hbound
  rcases settleFiles_limit haction hadds h hspeaks hstdout hstart hstarted files 0 with
    ⟨hall, hlimited⟩ | ⟨k, hfull, hbefore, hlimited⟩
  · refine Or.inl ⟨hall, ?_⟩
    rw [hpart, hlimited, hwhole, Nat.zero_add]
    rfl
  · refine Or.inr ⟨k, hfull, hbefore, ?_⟩
    rw [hpart, hlimited]
    rfl

/-- A run that a limit on the diagnostics has cut off ends with a failure, and otherwise as without
the limit. -/
theorem conclude_cut {whole : Except SystemError ExitCode × Session σ}
    (hunlimited : whole.2.Unlimited) :
    (conclude (cut n .stderr whole)).1 =
      if whole.2.Fits n .stderr then (conclude whole).1 else .failure := by
  rw [conclude, cut]
  split
  · rw [finish_limit hunlimited]
    rfl
  · rfl

/-- The end of a run with a limit on the diagnostics does not concern the store and the listing. -/
theorem conclude_limit (result : Except SystemError ExitCode) (session : Session σ) (n : Nat) :
    (conclude (result, session.limit n .stderr)).2.store = session.store ∧
      (conclude (result, session.limit n .stderr)).2.stdout = session.stdout := by
  rw [conclude, store_finish, stdout_finish]
  exact ⟨rfl, rfl⟩

/-- A run of which only the end is cut off has the same store and listing as the whole one. -/
theorem conclude_cut_same (whole : Except SystemError ExitCode × Session σ) (n : Nat) :
    (conclude (cut n .stderr whole)).2.store = (conclude whole).2.store ∧
      (conclude (cut n .stderr whole)).2.stdout = (conclude whole).2.stdout := by
  have hwhole : (conclude whole).2.store = whole.2.store ∧
      (conclude whole).2.stdout = whole.2.stdout :=
    ⟨store_finish _ _, stdout_finish _ _⟩
  rw [hwhole.1, hwhole.2]
  exact conclude_limit (cut n .stderr whole).1 whole.2 n

end Run

namespace Tool

variable {backend : Backend σ} {arguments : List Bytes} {tool : Tool} {path : Path} {task : Task}
  {session : Session σ} {n : Nat}

/-- With a limit on the diagnostics, a run for a single path fails if it cannot report a failure.
Its store and its listing are the same as without the limit. -/
theorem Requests.limit_single (h : Requests arguments tool false path task)
    (backend : Backend σ) (hspeaks : session.Speaks) (hstdout : session.stdout.capacity = none)
    (hflush : session.stdout.flushFails = false) (hfits : session.Fits n .stderr) :
    let whole := tool.run backend arguments session
    let part := tool.run backend arguments (session.limit n .stderr)
    part.1 =
        (if (session.after (task.attempt backend { store := session.store } path)).Fits n .stderr
          then whole.1 else .failure) ∧
      part.2.store = whole.2.store ∧ part.2.stdout = whole.2.stdout := by
  intro whole part
  obtain ⟨action, haction, hadds, hdoes, hrun⟩ := h.exists_action backend
  have hunlimited : session.Unlimited := ⟨hstdout, hspeaks.unlimited⟩
  have hwhole : Run.invocation backend (⟨false, (), path⟩ : Invocation Unit) action session = _ :=
    Run.single_eq hdoes hspeaks hstdout path
  have hcut : Run.invocation backend (⟨false, (), path⟩ : Invocation Unit) action
      (session.limit n .stderr) = Run.cut n .stderr
        (Run.invocation backend (⟨false, (), path⟩ : Invocation Unit) action session) := by
    have hsettled := Run.settle_limit haction hadds hunlimited hfits {} (.ok ⟨path, false⟩)
    simp only [Run.invocation, Bool.false_eq_true, if_false, Run.single_eq_settle, hsettled]
    exact Run.andThen_cut Tally.exitCode _
  have hpart : part = Run.conclude (Run.cut n .stderr _) :=
    (hrun (session.limit n .stderr) hflush).trans (congrArg Run.conclude hcut)
  have hconcluded : whole = Run.conclude _ := hrun session hflush
  rw [hpart, hconcluded]
  refine ⟨?_, Run.conclude_cut_same _ n⟩
  rw [Run.conclude_cut, hwhole]
  rw [hwhole]
  exact ⟨hstdout, hspeaks.unlimited⟩

/-- With a limit on the diagnostics, a run through a tree fails if it cannot report that the root
cannot be inspected. Its store and its listing are the same as without the limit. -/
theorem Requests.limit_root (h : Requests arguments tool true path task)
    (hspeaks : session.Speaks) (hflush : session.stdout.flushFails = false)
    (hstdout : session.stdout.capacity = none) (hfits : session.Fits n .stderr)
    {error : StoreError} {store : σ}
    (hroot : backend.perform (.fileStatus path) session.store = (.error error, store)) :
    let whole := tool.run backend arguments session
    let part := tool.run backend arguments (session.limit n .stderr)
    part.1 = (if (session.saying [error.message]).Fits n .stderr then whole.1 else .failure) ∧
      part.2.store = whole.2.store ∧ part.2.stdout = whole.2.stdout := by
  intro whole part
  obtain ⟨action, -, -, -, hrun⟩ := h.exists_action backend
  have hinvocation : ∀ reached : Session σ, reached.store = session.store →
      Run.invocation backend (⟨true, (), path⟩ : Invocation Unit) action reached =
        Session.report { reached with store } (.walk (.root error)) := by
    intro reached hreached
    rw [← hreached] at hroot
    simp only [Run.invocation, if_true, Run.tree, Walk.start, hroot]
  have hunlimited : Session.Unlimited { session with store } := ⟨hstdout, hspeaks.unlimited⟩
  have hreport := (hspeaks.withStore store).report_of_ne (.walk (.root error)) (by simp)
  have hwhole : whole = Run.conclude (Session.report { session with store } _) :=
    (hrun session hflush).trans (congrArg Run.conclude (hinvocation session rfl))
  have hpart : part = Run.conclude (Run.cut n .stderr
      (Session.report { session with store } (.walk (.root error)))) := by
    refine (hrun (session.limit n .stderr) hflush).trans (congrArg Run.conclude ?_)
    rw [hinvocation (session.limit n .stderr) rfl, Session.limit_withStore,
      Run.report_limit hunlimited (hfits.withStore store)]
  rw [hpart, hwhole]
  refine ⟨?_, Run.conclude_cut_same _ n⟩
  rw [Run.conclude_cut, hreport]
  · rfl
  · rw [hreport]
    exact ⟨hstdout, hspeaks.unlimited⟩

/-- With a limit on the diagnostics, a run through a tree either reports every failure, or it fails
and stops at the first file whose failures it cannot report. -/
theorem Requests.limit_tree (h : Requests arguments tool true path task)
    (hspeaks : session.Speaks) (hstdout : session.stdout.capacity = none)
    (hflush : session.stdout.flushFails = false) (hfits : session.Fits n .stderr)
    {root : FileStatus} {files : List FileStatus} {store : σ}
    (hroot : backend.perform (.fileStatus path) session.store = (.ok root, store))
    (hunfolds : backend.Unfolds root files store) :
    let reached k := session.after (task.visitEach backend (files.take k) { store })
    let whole := tool.run backend arguments session
    let part := tool.run backend arguments (session.limit n .stderr)
    ((∀ k, (reached k).Fits n .stderr) →
      part.1 = whole.1 ∧ part.2.store = whole.2.store ∧ part.2.stdout = whole.2.stdout) ∧
    ∀ k, ¬ (reached k).Fits n .stderr → (∀ j < k, (reached j).Fits n .stderr) →
      part.1 = .failure ∧ part.2.store = (reached k).store ∧
        part.2.stdout = (reached k).stdout := by
  intro reached whole part
  obtain ⟨action, haction, hadds, hdoes, hrun⟩ := h.exists_action backend
  have hwhole : whole = Run.conclude (Run.tree backend action path session) := hrun session hflush
  have hpart : part = Run.conclude (Run.tree backend action path (session.limit n .stderr)) :=
    hrun (session.limit n .stderr) hflush
  have hunlimited : (Run.tree backend action path session).2.Unlimited := by
    rw [Run.tree_of_unfolds hdoes hadds hspeaks hstdout hroot hunfolds]
    exact ⟨hstdout, hspeaks.unlimited⟩
  rcases Run.tree_limit haction hadds hdoes hspeaks hstdout hfits hroot hunfolds with
    ⟨hall, hlimited⟩ | ⟨k, hfull, hbefore, hlimited⟩
  · refine ⟨fun _ => ?_, fun k hfull => absurd (hall k) hfull⟩
    rw [hpart, hlimited, hwhole, Run.conclude, Run.conclude, Run.finish_limit hunlimited]
    exact ⟨rfl, rfl, rfl⟩
  · refine ⟨fun hall => absurd (hall k) hfull, fun first hfirst hbefore' => ?_⟩
    -- There is only one first file whose diagnostics do not fit.
    have hsame : first = k := by
      rcases Nat.lt_trichotomy first k with hlt | heq | hgt
      · exact absurd (hbefore first hlt) hfirst
      · exact heq
      · exact absurd (hbefore' k hgt) hfull
    subst hsame
    rw [hpart, hlimited]
    exact ⟨rfl, Run.conclude_limit _ _ n⟩

/-! ## Whole runs -/

/-- An exit code that depends on what fits is the one of the whole run if that fits, and 11 if it
does not. -/
theorem exitCode_of_limit {part whole : ExitCode} {size n : Nat}
    (h : part = if size ≤ n then whole else .failure) :
    (size ≤ n → part = whole) ∧ (n < size → part.value = 11) := by
  refine ⟨fun hroom => by rw [h, if_pos hroom], fun hfull => ?_⟩
  rw [h, if_neg (Nat.not_le_of_lt hfull)]
  rfl

/-- A run on an output with a limit is a run on a session with a limit. -/
theorem start_limit (tool : Tool) (store : σ) (n : Nat) :
    Session.start tool store { capacity := some n } {} =
        (Session.start tool store {} {}).limit n .stdout ∧
      Session.start tool store {} { capacity := some n } =
        (Session.start tool store {} {}).limit n .stderr := by
  simp [Session.start, Session.limit, Output.limit]

/-- How a full output cuts a run off. The whole run has no limits, and its outputs, its exit code
and its calls are compared with those of two other runs.

Where listings are limited to some number of bytes, the listing is cut off after this number. If it
does not fit, the exit code is 11, and otherwise the exit code and the diagnostics are the same.

Where diagnostics are limited, they are cut off as well, and the listing and the calls are
beginnings of the whole ones. It depends on the failures that are met on the way what becomes of
them and of the exit code. If the command line is refused or asks for help, all are the same,
whether or not the message fits. If the call for a single path fails, or the root of a tree cannot
be inspected, the exit code is 11 if this does not fit, but the calls and the listing are the whole
ones. A tree is gone through as far as the diagnostics for its files fit, the files in pre-order. If
they fit for all files, the run has the same calls, listing and exit code, also if a summary does
not fit. Otherwise the exit code is 11, and the run stops after the calls and the listing for the
first files up to the one whose diagnostics do not fit. -/
theorem run_truncated (tool : Tool) (backend : Backend σ) (arguments : List Bytes) (s : σ)
    (n : Nat) :
    let run stdout stderr :=
      tool.run backend.logged arguments (.start tool (s, []) stdout stderr)
    let whole := run {} {}
    let cut := run { capacity := some n } {}
    let mute := run {} { capacity := some n }
    let said errors := (diagnostics tool.program (errors.map ToolError.message)).length
    let alike := mute.2.store.2 = whole.2.store.2 ∧ mute.2.stdout = whole.2.stdout
    (cut.2.stdout.kept = whole.2.stdout.kept.take n ∧
      (n < whole.2.stdout.kept.length → cut.1.value = 11) ∧
      (whole.2.stdout.kept.length ≤ n → cut.1 = whole.1 ∧
        cut.2.stderr.output.kept = whole.2.stderr.output.kept)) ∧
    (mute.2.stderr.output.kept = whole.2.stderr.output.kept.take n ∧
      mute.2.stdout.kept <+: whole.2.stdout.kept ∧ mute.2.store.2 <+: whole.2.store.2) ∧
    ((∃ error, Refuses arguments tool error) ∨ tool.AsksForHelp arguments ∨
      ∃ recursive path task, Requests arguments tool recursive path task) ∧
    (∀ error, Refuses arguments tool error → mute.1 = whole.1 ∧ alike) ∧
    (tool.AsksForHelp arguments → mute.1 = whole.1 ∧ alike) ∧
    (∀ path task, Requests arguments tool false path task →
      let met := task.attempt backend { store := s } path
      (said met.failures ≤ n → mute.1 = whole.1) ∧
      (n < said met.failures → mute.1.value = 11) ∧ alike) ∧
    (∀ path task, Requests arguments tool true path task →
      (∀ error, (backend.perform (.fileStatus path) s).1 = .error error →
        (said [.walk (.root error)] ≤ n → mute.1 = whole.1) ∧
        (n < said [.walk (.root error)] → mute.1.value = 11) ∧ alike) ∧
      ∀ root files, (backend.perform (.fileStatus path) s).1 = .ok root →
        backend.Unfolds root files (backend.perform (.fileStatus path) s).2 →
        let met k := task.visitEach backend (files.take k)
          { store := (backend.perform (.fileStatus path) s).2 }
        ((∀ k, said (met k).failures ≤ n) → mute.1 = whole.1 ∧ alike) ∧
        ∀ k, n < said (met k).failures → (∀ j < k, said (met j).failures ≤ n) →
          mute.1.value = 11 ∧
          (mute.2.store.2 = .fileStatus path :: (files.take k).flatMap fun file =>
            (if file.directory then [.children file.path] else []) ++ [task.call file.path]) ∧
          mute.2.stdout.kept = Utf8.encode ((met k).printed.flatMap (· ++ ['\n']))) := by
  intro run whole cut mute said alike
  let session := Session.start tool (s, ([] : List Call)) {} {}
  have hspeaks : session.Speaks := Session.speaks_start tool _ _ rfl
  have hunlimited : session.Unlimited := ⟨rfl, rfl⟩
  have hfits : ∀ channel, session.Fits n channel := by
    intro channel
    cases channel <;> exact Nat.zero_le n
  have hcut : cut = tool.run backend.logged arguments (session.limit n .stdout) :=
    congrArg (tool.run backend.logged arguments) (start_limit tool _ n).1
  have hmute : mute = tool.run backend.logged arguments (session.limit n .stderr) :=
    congrArg (tool.run backend.logged arguments) (start_limit tool _ n).2
  have hcutOff : Run.CutOff backend.logged n .stdout whole cut := by
    rw [hcut]
    exact cutOff_run hunlimited (hfits _) rfl tool backend.logged arguments
  have hmuteOff : Run.CutOff backend.logged n .stderr whole mute := by
    rw [hmute]
    exact cutOff_run hunlimited (hfits _) rfl tool backend.logged arguments
  refine ⟨⟨hcutOff.written, fun hfull => ?_, fun hroom => ?_⟩,
    ⟨hmuteOff.written, hmuteOff.stdout, ?_⟩, refuses_or_asksForHelp_or_requests tool arguments,
    fun error hrefuses => ?_, fun hhelp => ?_, fun path task hrequests => ?_,
    fun path task hrequests => ⟨fun error hroot => ?_, fun root files hroot hunfolds => ?_⟩⟩
  · rw [hcutOff.failure rfl (Nat.not_le_of_lt hfull)]
    rfl
  · rw [hcutOff.same hroom]
    exact ⟨rfl, rfl⟩
  · obtain ⟨calls, hcalls⟩ := hmuteOff.calls
    have hlogged := congrArg Prod.snd hcalls
    rw [Backend.afterCalls_logged] at hlogged
    exact ⟨calls, hlogged.symm⟩
  · have hwhole : whole = Run.refuse tool error session := hrefuses.run_eq _ _
    have hpart : mute = Run.refuse tool error (session.limit n .stderr) :=
      hmute.trans (hrefuses.run_eq _ _)
    obtain ⟨hcode, hstore, hstdout⟩ := Run.refuse_limit tool error session n
    rw [← hpart, ← hwhole] at hcode hstore hstdout
    exact ⟨hcode, congrArg Prod.snd hstore, hstdout⟩
  · have hwhole : whole = Run.help tool session := hhelp.run_eq _ _
    rw [Run.help_of_unlimited hunlimited rfl] at hwhole
    have hsilent : whole.2.Fits n .stderr := by
      rw [hwhole]
      exact Nat.zero_le n
    have hsame : mute = (whole.1, whole.2.limit n .stderr) := hmuteOff.same hsilent
    exact ⟨congrArg (·.1) hsame, congrArg (·.2.store.2) hsame, congrArg (·.2.stdout) hsame⟩
  · intro met
    have hmet : task.attempt backend.logged { store := (s, []) } path =
        met.noting [task.call path] := task.attempt_noting backend { store := s } [] path
    have hlimit := hrequests.limit_single backend.logged hspeaks rfl rfl (hfits .stderr)
    have hstart : session.store = (s, []) := rfl
    rw [hstart, hmet] at hlimit
    obtain ⟨hcode, hstore, hstdout⟩ := hlimit
    rw [← hmute] at hcode hstore hstdout
    obtain ⟨hroom, hfull⟩ := exitCode_of_limit hcode
    exact ⟨hroom, hfull, congrArg Prod.snd hstore, hstdout⟩
  · have hlogged : backend.logged.perform (.fileStatus path) session.store =
        (.error error, (backend.perform (.fileStatus path) s).2, [.fileStatus path]) :=
      Prod.ext hroot rfl
    obtain ⟨hcode, hstore, hstdout⟩ :=
      hrequests.limit_root hspeaks rfl rfl (hfits .stderr) hlogged
    rw [← hmute] at hcode hstore hstdout
    obtain ⟨hroom, hfull⟩ := exitCode_of_limit hcode
    exact ⟨hroom, hfull, congrArg Prod.snd hstore, hstdout⟩
  · intro met
    let t := (backend.perform (.fileStatus path) s).2
    have hlogged : backend.logged.perform (.fileStatus path) session.store =
        (.ok root, t, [.fileStatus path]) := Prod.ext hroot rfl
    have hmet : ∀ k, task.visitEach backend.logged (files.take k)
        { store := (t, [.fileStatus path]) } =
          (met k).noting (.fileStatus path :: (files.take k).flatMap task.callsFor) :=
      fun k => task.visitEach_noting backend (files.take k) { store := t } [.fileStatus path]
    have hlimit := hrequests.limit_tree hspeaks rfl rfl (hfits .stderr) hlogged
      (hunfolds.logged _)
    simp only [hmet] at hlimit
    rw [← hmute] at hlimit
    refine ⟨fun hall => ?_, fun k hfull hbefore => ?_⟩
    · obtain ⟨hcode, hstore, hstdout⟩ := hlimit.1 hall
      exact ⟨hcode, congrArg Prod.snd hstore, hstdout⟩
    · obtain ⟨hcode, hstore, hstdout⟩ := hlimit.2 k (Nat.not_le_of_lt hfull) hbefore
      rw [hcode, hstore, hstdout]
      exact ⟨rfl, rfl, rfl⟩

/-- The lists from `/d` on are stripped, and ten bytes are left for diagnostics. The directory
`/d/s` cannot be listed. There is no room to say so, and the run stops before `/d/f`. -/
theorem run_truncated_at_failing_listing :
    let d : Path := ⟨[0x2F, 0x64]⟩
    let unlisted : Path := ⟨[0x2F, 0x64, 0x2F, 0x73]⟩
    let last : Path := ⟨[0x2F, 0x64, 0x2F, 0x66]⟩
    let answer : (call : Call) → Except StoreError call.Reply
      | .fileStatus path => .ok ⟨path, true⟩
      | .children path =>
        if path = d then .ok [⟨unlisted, true⟩, ⟨last, false⟩]
        else .error ⟨path, .permissionDenied⟩
      | .aclStatus path => .error ⟨path, .notFound⟩
      | .change _ _ => .ok ()
    let backend := Backend.answering answer 6
    let arguments : List Bytes := [[], [0x2D, 0x52, 0x62], d.bytes]
    let files : List FileStatus := [⟨d, true⟩, ⟨unlisted, true⟩, ⟨last, false⟩]
    let said k := (diagnostics Tool.setfacl.program
      (((Task.change .keepBase).visitEach backend (files.take k) { store := () }).failures.map
        ToolError.message)).length
    let mute := Tool.run .setfacl backend.logged arguments
      (.start .setfacl ((), []) {} { capacity := some 10 })
    Requests arguments .setfacl true d (.change .keepBase) ∧
      backend.Unfolds ⟨d, true⟩ files () ∧ 10 < said 2 ∧ (∀ j < 2, said j ≤ 10) ∧
      mute.1.value = 11 ∧
      mute.2.store.2 =
        [.fileStatus d, .children d, .change d .keepBase, .children unlisted,
          .change unlisted .keepBase] := by
  intro d unlisted last answer backend arguments files said mute
  have hrequests : Requests arguments .setfacl true d (.change .keepBase) :=
    @Requests.change _ [.recursive, .keepBase] _ _ _ _ rfl (by decide) rfl (.keepBase _)
  have hpre : Walk.PreOrder (fun path => answer (.children path)) [⟨d, true⟩] files :=
    .directory rfl rfl (.unlisted rfl rfl (.file rfl .nil)) .nil
  have hunfolds := Backend.answering_unfolds hpre (Nat.le_refl 6)
  have hfull : 10 < said 2 := by decide +kernel
  have hbefore : ∀ j < 2, said j ≤ 10 := by decide +kernel
  have hstops := ((run_truncated .setfacl backend arguments () 10).2.2.2.2.2.2 d _ hrequests).2
    ⟨d, true⟩ files rfl hunfolds
  obtain ⟨hcode, hcalls, -⟩ := hstops.2 2 hfull hbefore
  exact ⟨hrequests, hunfolds, hfull, hbefore, hcode, hcalls⟩

end Tool

end PosixAcl
