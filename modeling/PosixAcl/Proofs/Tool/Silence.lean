import PosixAcl.Proofs.Tool.Calls

/-!
# Silent failures

Where diagnostics can be written, a run fails exactly if it writes one, whatever
becomes of its listing. The only exception is a listing that cannot be handed on in
the end: the run fails then without another word.
-/

namespace PosixAcl

variable {σ : Type}

/-! ## Failures and their codes -/

/-- A failure is never a success. -/
theorem ToolError.exitCode_ne_success (error : ToolError) : error.exitCode ≠ .success := by
  have hstore : ∀ failure, ExitCode.ofStoreError failure ≠ .success := by
    intro failure
    unfold ExitCode.ofStoreError
    split <;> simp
  cases error with
  | usage | spec | output => simp [exitCode]
  | store failure => exact hstore failure
  | walk failure => exact hstore failure.storeError

/-- The number of a success is the only one that is zero. -/
theorem ExitCode.value_eq_zero_iff {code : ExitCode} : code.value = 0 ↔ code = .success := by
  cases code <;> simp [value]

/-- A run through a tree succeeds exactly if it has met no failure. -/
theorem Tally.exitCode_eq_success_iff {tally : Tally} (h : .success ∉ tally.failures) :
    tally.exitCode = .success ↔ tally.failures = [] := by
  unfold exitCode
  split
  · rename_i hnone
    simp [hnone]
  · rename_i code hone
    rw [hone, List.mem_singleton] at h
    rw [hone]
    split
    · simp [Ne.symm h]
    · simp
  · rename_i hsome _
    exact ⟨fun hcode => (nomatch hcode), fun hnone => (hsome hnone).elim⟩

/-! ## Steps -/

namespace Session

variable {session later last : Session σ} {messages more : List Text}

/-- A later session has reported some messages. -/
def Reports (session later : Session σ) (messages : List Text) : Prop :=
  later.stderr = (session.saying messages).stderr

theorem Reports.refl (session : Session σ) : session.Reports session [] :=
  congrArg Session.stderr session.saying_nil.symm

/-- What is reported later comes after what was reported before. -/
theorem Reports.trans (h : session.Reports later messages) (hlast : later.Reports last more) :
    session.Reports last (messages ++ more) := by
  have hmore : (later.saying more).stderr = ((session.saying messages).saying more).stderr := by
    simp only [Reports] at h
    simp only [saying, h]
  rw [Reports, hlast, hmore, saying_saying]

/-- Reports do not get in the way of later ones. -/
theorem Reports.speaks (h : session.Reports later messages) (hspeaks : session.Speaks) :
    later.Speaks := by
  have hsaid := hspeaks.saying messages
  exact ⟨h ▸ hsaid.unlimited, h ▸ hsaid.lines⟩

/-- A diagnostic that is written is a report. -/
theorem Speaks.reports_tell (h : session.Speaks) (message : Text) :
    session.Reports (session.tell message).2 [message] := by
  rw [h.tell]
  rfl

end Session

/-- What an action does to a path does not concern the diagnostics. -/
def PathAction.Silent (action : PathAction σ) : Prop :=
  ∀ path (session : Session σ), (action path session).2.stderr = session.stderr

namespace PathAction

/-- Listing writes no diagnostic. -/
theorem silent_list (backend : Backend σ) : (PathAction.list backend).Silent := by
  intro path session
  have hcalled : (session.call backend (.aclStatus path)).2.stderr = session.stderr := rfl
  rw [list_eq_print]
  cases hcall : session.call backend (.aclStatus path) with
  | mk reply later =>
    rw [hcall] at hcalled
    cases reply <;> exact hcalled

/-- Changing writes no diagnostic. -/
theorem silent_change (backend : Backend σ) (what : Change) :
    (PathAction.change backend what).Silent := by
  intro path session
  rw [change_eq_call]
  rfl

end PathAction

namespace Run

variable {backend : Backend σ} {action : PathAction σ} {session : Session σ}

/-- A result accounts for its reports: each one is a failure in the tally, and none of them is a
success. -/
def Accounts (session : Session σ) (tally : Tally)
    (result : Except SystemError Tally × Session σ) : Prop :=
  ∃ messages, session.Reports result.2 messages ∧
    ∀ later, result.1 = .ok later → ∃ codes, later.failures = tally.failures ++ codes ∧
      codes.length = messages.length ∧ .success ∉ codes

/-- Where nothing happens there is nothing to account for. -/
theorem accounts_refl (session : Session σ) (tally : Tally) :
    Accounts session tally (.ok tally, session) := by
  refine ⟨[], .refl session, fun later hlater => ⟨[], ?_, rfl, List.not_mem_nil⟩⟩
  rw [List.append_nil, ← Except.ok.inj hlater]

/-- Where each of two steps accounts for its reports, both do. -/
theorem Accounts.andThen {tally : Tally} {first : Except SystemError Tally × Session σ}
    {next : Tally → Session σ → Except SystemError Tally × Session σ}
    (h : Accounts session tally first) (hspeaks : session.Speaks)
    (hnext : ∀ reached (later : Session σ), later.Speaks →
      Accounts later reached (next reached later)) :
    Accounts session tally (andThen first next) := by
  obtain ⟨messages, hreports, hcodes⟩ := h
  obtain ⟨result, later⟩ := first
  cases result with
  | error failure => exact ⟨messages, hreports, fun _ hlater => nomatch hlater⟩
  | ok reached =>
    obtain ⟨codes, hfailures, hlength, hnever⟩ := hcodes reached rfl
    obtain ⟨more, hmore, hmoreCodes⟩ := hnext reached later (hreports.speaks hspeaks)
    refine ⟨messages ++ more, hreports.trans hmore, fun last hlast => ?_⟩
    obtain ⟨others, hothers, hotherLength, hnot⟩ := hmoreCodes last hlast
    refine ⟨codes ++ others, ?_, ?_, ?_⟩
    · rw [hothers, hfailures, List.append_assoc]
    · rw [List.length_append, List.length_append, hlength, hotherLength]
    · rw [List.mem_append]
      exact fun hmem => hmem.elim hnever hnot

/-- A step accounts for the report that it makes. A listing that cannot be written is not reported
yet, but it ends the run. -/
theorem accounts_settle (hsilent : action.Silent) (hspeaks : session.Speaks) (tally : Tally)
    (item : WalkItem) : Accounts session tally (settle action tally session item) := by
  have hreported : ∀ (visited : Tally) (reached : Session σ) (error : ToolError),
      visited.failures = tally.failures → reached.stderr = session.stderr →
      Accounts session tally (Run.andThen (reached.report error) fun code later =>
        (.ok { visited with failures := visited.failures ++ [code] }, later)) := by
    intro visited reached error hvisited hstderr
    have hsame : session.Reports reached [] := by
      rw [Session.Reports, Session.saying_nil]
      exact hstderr
    have hreached : reached.Speaks := hsame.speaks hspeaks
    by_cases houtput : ∃ failure, error = .output failure
    · obtain ⟨failure, rfl⟩ := houtput
      exact ⟨[], hsame, fun _ hlater => nomatch hlater⟩
    · rw [hreached.report_of_ne error fun failure hfailure => houtput ⟨failure, hfailure⟩]
      refine ⟨[error.message], hsame.trans rfl, fun later hlater => ⟨[error.exitCode], ?_, rfl, ?_⟩⟩
      · rw [← Except.ok.inj hlater, hvisited]
      · rw [List.mem_singleton]
        exact Ne.symm error.exitCode_ne_success
  cases item with
  | error error => exact hreported tally session (.walk error) rfl rfl
  | ok status =>
    have hacted := hsilent status.path session
    simp only [settle, visit]
    cases hact : action status.path session with
    | mk result later =>
      rw [hact] at hacted
      cases result with
      | ok =>
        refine ⟨[], ?_, fun last hlast => ⟨[], ?_, rfl, List.not_mem_nil⟩⟩
        · rw [Session.Reports, Session.saying_nil]
          exact hacted
        · rw [← Except.ok.inj hlast, List.append_nil]
      | error error => exact hreported _ later error rfl hacted

/-- A run accounts for all its reports. -/
theorem accounts_visitAll (backend : Backend σ) (hsilent : action.Silent)
    (hspeaks : session.Speaks) (steps : Nat) (pending : List WalkItem) (tally : Tally) :
    Accounts session tally (visitAll backend action steps pending tally session) := by
  induction steps generalizing pending tally session with
  | zero => exact accounts_refl session tally
  | succ steps ih =>
    cases pending with
    | nil =>
      rw [visitAll_nil]
      exact accounts_refl session tally
    | cons item rest =>
      obtain ⟨after, calls, hstep⟩ := visitAll_cons backend item rest session.store
      have hcalled := hspeaks.withStore (backend.afterCalls calls session.store)
      have hsettled := accounts_settle hsilent hcalled tally item
      rw [hstep action session rfl]
      exact hsettled.andThen hcalled fun reached later hlater => ih hlater after reached

/-- A result is a failure exactly if something was reported. -/
def Outspoken (session : Session σ) (result : ExitCode × Session σ) : Prop :=
  ∃ messages, session.Reports result.2 messages ∧ (result.1 ≠ .success ↔ messages ≠ [])

/-- An invocation fails exactly if something was reported, unless an output cannot be written. -/
theorem invocation_reports {Action : Type} (backend : Backend σ) (hsilent : action.Silent)
    (hspeaks : session.Speaks) (asked : Invocation Action) :
    ∃ messages, session.Reports (invocation backend asked action session).2 messages ∧
      ∀ code, (invocation backend asked action session).1 = .ok code →
        (code ≠ .success ↔ messages ≠ []) := by
  obtain ⟨steps, pending, visited, calls, hrun⟩ :=
    invocation_eq_visitAll backend asked session.store
  have hcalled := hspeaks.withStore (backend.afterCalls calls session.store)
  obtain ⟨messages, hreports, hcodes⟩ :=
    accounts_visitAll backend hsilent hcalled steps pending ⟨visited, []⟩
  rw [hrun action session rfl]
  cases hvisit : visitAll backend action steps pending ⟨visited, []⟩ _ with
  | mk result later =>
    rw [hvisit] at hreports hcodes
    cases result with
    | error failure => exact ⟨messages, hreports, fun _ hcode => nomatch hcode⟩
    | ok tally =>
      obtain ⟨codes, hfailures, hlength, hnever⟩ := hcodes tally rfl
      rw [List.nil_append] at hfailures
      refine ⟨messages, hreports, fun code hcode => ?_⟩
      obtain rfl := Except.ok.inj hcode
      rw [← hfailures] at hnever
      rw [ne_eq, Tally.exitCode_eq_success_iff hnever, hfailures,
        ← List.length_eq_zero_iff, hlength, List.length_eq_zero_iff]

/-- The end of a run fails exactly if something was reported before or is reported now. -/
theorem outspoken_finish {outcome : Except SystemError ExitCode} {later : Session σ}
    (hspeaks : session.Speaks) {messages : List Text} (hreports : session.Reports later messages)
    (hcode : ∀ code, outcome = .ok code → (code ≠ .success ↔ messages ≠ [])) :
    Outspoken session (finish outcome later) := by
  have hlater := hreports.speaks hspeaks
  cases outcome with
  | error failure =>
    exact ⟨_, hreports.trans (hlater.reports_tell _), by simp [finish]⟩
  | ok code =>
    rw [finish]
    split
    · rename_i hincomplete
      exact ⟨_, hreports.trans (hlater.reports_tell _), by simp [hincomplete]⟩
    · exact ⟨messages, hreports, hcode code rfl⟩

/-- A refusal fails and says why. -/
theorem outspoken_refuse (hspeaks : session.Speaks) (tool : Tool) (error : ToolError) :
    Outspoken session (refuse tool error session) := by
  rw [refuse_of_speaks hspeaks]
  exact ⟨_, rfl, by simp⟩

/-- Help fails exactly if it says that its text could not be written or handed on. -/
theorem outspoken_help (hspeaks : session.Speaks) (tool : Tool) :
    Outspoken session (help tool session) := by
  have hprinted : session.Reports (session.print [tool.help]).2 [] := .refl session
  have hfailed : ∀ failure, Outspoken session
      (finish (.error failure) (session.print [tool.help]).2) :=
    fun failure => outspoken_finish hspeaks hprinted fun _ hcode => nomatch hcode
  rw [help_eq_print]
  cases hprint : session.print [tool.help] with
  | mk result later =>
    rw [hprint] at hprinted hfailed
    cases result with
    | error failure => exact hfailed failure
    | ok =>
      simp only
      split
      · exact hfailed _
      · exact ⟨[], hprinted, by simp⟩

end Run

/-! ## Whole runs -/

namespace Tool

/-- When a run fails without a word. Where diagnostics can be written, a run of either tool fails
exactly if it writes a diagnostic, whatever calls fail and whether or not its listing can be
written. The exception is a command line that asks for a listing, where it cannot be handed on in
the end: this is a failure with the exit code 11, even if there is no diagnostic. -/
theorem run_reports (tool : Tool) (backend : Backend σ) (arguments : List Bytes) (s : σ)
    (stdout : Output) {stderr : Output} (hstderr : stderr.capacity = none) :
    let final := tool.run backend arguments (.start tool s stdout stderr)
    let unheard := stdout.flushFails = true ∧ tool = .getfacl ∧
      ∃ recursive path task, Requests arguments tool recursive path task
    ∃ messages, final.2.stderr.output.kept = stderr.kept ++ diagnostics tool.program messages ∧
      (final.1.value ≠ 0 ↔ messages ≠ [] ∨ unheard) ∧ (unheard → final.1.value = 11) := by
  intro final unheard
  let session := Session.start tool s stdout stderr
  have hspeaks : session.Speaks := Session.speaks_start tool s stdout hstderr
  have hkept : ∀ {later : Session σ} {messages}, session.Reports later messages →
      later.stderr.output.kept = stderr.kept ++ diagnostics tool.program messages :=
    fun hreports => congrArg (fun sink : MessageSink => sink.output.kept) hreports
  by_cases hunheard : unheard
  · obtain ⟨hflush, rfl, recursive, path, task, hrequests⟩ := id hunheard
    obtain ⟨-, hrun⟩ := hrequests.run_eq_query backend
    obtain ⟨messages, hreports, -⟩ := Run.invocation_reports backend
      (PathAction.silent_list backend) hspeaks (⟨recursive, (), path⟩ : Invocation Unit)
    have hfinal : final = (.failure, (Run.invocation backend
        (⟨recursive, (), path⟩ : Invocation Unit) (PathAction.list backend) session).2) :=
      (hrun session).trans (Run.query_of_flushFails hflush backend _)
    rw [hfinal]
    exact ⟨messages, hkept hreports, by simp [hunheard, ExitCode.value], fun _ => rfl⟩
  · have hspoken : Run.Outspoken session final := by
      rcases refuses_or_asksForHelp_or_requests tool arguments with
        ⟨error, hrefuses⟩ | hhelp | ⟨recursive, path, task, hrequests⟩
      · have hfinal : final = Run.refuse tool error session := hrefuses.run_eq backend session
        exact hfinal ▸ Run.outspoken_refuse hspeaks tool error
      · have hfinal : final = Run.help tool session := hhelp.run_eq backend session
        exact hfinal ▸ Run.outspoken_help hspeaks tool
      · cases tool with
        | getfacl =>
          obtain ⟨-, hrun⟩ := hrequests.run_eq_query backend
          obtain ⟨messages, hreports, hcode⟩ := Run.invocation_reports backend
            (PathAction.silent_list backend) hspeaks (⟨recursive, (), path⟩ : Invocation Unit)
          have hflush : session.stdout.flushFails = false := by
            rw [← Bool.not_eq_true]
            exact fun hflush => hunheard ⟨hflush, rfl, recursive, path, task, hrequests⟩
          have hfinal : final = _ := (hrun session).trans (Run.query_of_flush hflush backend _)
          rw [hfinal]
          exact Run.outspoken_finish hspeaks hreports hcode
        | setfacl =>
          obtain ⟨what, -, hrun⟩ := hrequests.exists_run_eq_edit backend
          obtain ⟨messages, hreports, hcode⟩ := Run.invocation_reports backend
            (PathAction.silent_change backend what) hspeaks
            (⟨recursive, what, path⟩ : Invocation Change)
          have hfinal : final = Run.edit backend ⟨recursive, what, path⟩ session := hrun session
          rw [hfinal, Run.edit]
          exact Run.outspoken_finish hspeaks hreports hcode
    obtain ⟨messages, hreports, hcode⟩ := hspoken
    refine ⟨messages, hkept hreports, ?_, fun h => absurd h hunheard⟩
    rw [or_iff_left hunheard, ne_eq, ExitCode.value_eq_zero_iff]
    exact hcode

/-- No list can be shown for a path that does not exist, and this is said. -/
theorem run_reports_missing_path :
    let final := Tool.run .getfacl Namespace.backend [[], [0x2F, 0x78]]
      (.start .getfacl Namespace.initial { capacity := some 0 } {})
    ({} : Output).capacity = none ∧ final.1.value = 3 ∧
      ∃ messages ≠ [], final.2.stderr.output.kept =
        diagnostics Tool.getfacl.program messages := by
  intro final
  have hunlimited : ({} : Output).capacity = none := rfl
  have hvalue : final.1.value = 3 := by decide +kernel
  obtain ⟨messages, hkept, hcode, -⟩ := run_reports .getfacl Namespace.backend [[], [0x2F, 0x78]]
    Namespace.initial { capacity := some 0 } hunlimited
  have hfails : final.1.value ≠ 0 := by rw [hvalue]; decide
  refine ⟨hunlimited, hvalue, messages, ?_, hkept⟩
  exact (hcode.mp hfails).resolve_right fun hunheard => nomatch hunheard.1

/-- The list of the root is written, but it cannot be handed on. The run fails, and it does not say
so. -/
theorem run_unheard :
    let final := Tool.run .getfacl Namespace.backend [[], [0x2F]]
      (.start .getfacl Namespace.initial { flushFails := true } {})
    final.1.value = 11 ∧ final.2.stderr.output.kept = [] := by
  decide +kernel

end Tool

end PosixAcl
