import PosixAcl.Namespace.Basic
import PosixAcl.Proofs.Output.Unlimited
import PosixAcl.Tool.Run

/-!
# Sessions with a working diagnostic output

Where diagnostics go to an output without a limit, each report adds one line, and
no report ends the run.
-/

namespace PosixAcl

/-- The bytes of several diagnostics of a program, one line each. -/
def diagnostics (program : Text) (messages : List Text) : Bytes :=
  messages.flatMap fun message => Utf8.encode (MessageSink.line program message)

namespace Session

variable {σ : Type}

/-- Diagnostics can always be written, each on a line of its own. -/
structure Speaks (session : Session σ) : Prop where
  /-- The output for diagnostics has no limit. -/
  unlimited : session.stderr.output.capacity = none
  /-- A newline follows each diagnostic. -/
  lines : session.stderr.lineMode = .withNewline

/-- The session after some more diagnostics. -/
def saying (session : Session σ) (messages : List Text) : Session σ :=
  { session with
    stderr := { session.stderr with
      output := { session.stderr.output with
        kept := session.stderr.output.kept ++ diagnostics session.stderr.program messages } } }

variable {session : Session σ}

/-- A session whose diagnostics have no limit can write them. -/
theorem speaks_start (tool : Tool) (store : σ) (stdout : Output) {stderr : Output}
    (h : stderr.capacity = none) : (Session.start tool store stdout stderr).Speaks :=
  ⟨h, rfl⟩

theorem saying_nil (session : Session σ) : session.saying [] = session := by
  simp [saying, diagnostics]

theorem saying_saying (session : Session σ) (messages more : List Text) :
    (session.saying messages).saying more = session.saying (messages ++ more) := by
  simp [saying, diagnostics]

/-- After some diagnostics more can be written. -/
theorem Speaks.saying (h : session.Speaks) (messages : List Text) :
    (session.saying messages).Speaks :=
  ⟨h.unlimited, h.lines⟩

/-- Whether diagnostics can be written does not depend on the store. -/
theorem Speaks.withStore (h : session.Speaks) (store : σ) : Speaks { session with store } :=
  ⟨h.unlimited, h.lines⟩

/-- A diagnostic is written as one line. -/
theorem Speaks.tell (h : session.Speaks) (message : Text) :
    session.tell message = (.ok (), session.saying [message]) := by
  simp [Session.tell, MessageSink.write_of_unlimited h.unlimited h.lines, Session.saying,
    diagnostics]

/-- The failure of a store is reported by one diagnostic, and the run goes on. -/
theorem Speaks.report_store (h : session.Speaks) (error : StoreError) :
    session.report (.store error) =
      (.ok (.ofStoreError error), session.saying [error.message]) := by
  have hmessage : (ToolError.store error).message = error.message := rfl
  rw [report, hmessage, h.tell error.message]
  · rfl
  · intro failure hfailure
    cases hfailure

end Session

/-- A run that can write diagnostics ends with a summary if some paths of a tree failed, and
otherwise without another word. -/
theorem Run.finish_of_speaks {σ : Type} {session : Session σ} (h : session.Speaks)
    (code : ExitCode) :
    Run.finish (.ok code) session =
      (code, session.saying (if code = .incomplete then [code.message] else [])) := by
  rw [Run.finish]
  by_cases hcode : code = .incomplete
  · rw [if_pos hcode, if_pos hcode, h.tell]
  · rw [if_neg hcode, if_neg hcode, Session.saying_nil]

/-! ## Changing one file -/

/-- A change that is refused leaves the session as it is. -/
theorem PathAction.change_of_error {change : Change} {path : Path} {session : Session Namespace}
    {error : StoreError} (h : session.store.change path change = .error error) :
    PathAction.change Namespace.backend change path session = (.error (.store error), session) := by
  simp [PathAction.change, Session.call, Namespace.backend, h]

/-- A change that succeeds affects the store only. -/
theorem PathAction.change_of_ok {change : Change} {path : Path} {session : Session Namespace}
    {changed : Namespace} (h : session.store.change path change = .ok changed) :
    PathAction.change Namespace.backend change path session =
      (.ok (), { session with store := changed }) := by
  simp [PathAction.change, Session.call, Namespace.backend, h]

/-! ## Command lines that ask for a change -/

/-- A command line that asks for a change of lists: its flags can be read, they do not ask for
help, and they fit the operands. -/
def Tool.AsksFor (arguments : List Bytes) (edit : Invocation Change) : Prop :=
  ∃ parsed, Arguments.read .setfacl arguments.tail = .ok parsed ∧
    parsed.flags.contains .help = false ∧ Invocation.ofChange parsed = .ok edit

/-- A command line that asks for a change makes it. -/
theorem Tool.AsksFor.run_eq {σ : Type} {arguments : List Bytes} {edit : Invocation Change}
    (h : Tool.AsksFor arguments edit) (backend : Backend σ) (session : Session σ) :
    Tool.run .setfacl backend arguments session = Run.edit backend edit session := by
  obtain ⟨parsed, hread, hhelp, hedit⟩ := h
  simp only [Tool.run, hread, hhelp, hedit, Bool.false_eq_true, if_false]

/-- A command line that asks for a change of one file succeeds without a word if the change does. -/
theorem Tool.AsksFor.run_single {arguments : List Bytes} {edit : Invocation Change}
    (h : Tool.AsksFor arguments edit) (hsingle : edit.recursive = false)
    {session : Session Namespace} {changed : Namespace}
    (hok : session.store.change edit.path edit.action = .ok changed) :
    Tool.run .setfacl Namespace.backend arguments session =
      (.success, { session with store := changed }) := by
  rw [h.run_eq, Run.edit, Run.invocation, if_neg (by simp [hsingle]), Run.single,
    PathAction.change_of_ok hok]
  rfl

end PosixAcl
