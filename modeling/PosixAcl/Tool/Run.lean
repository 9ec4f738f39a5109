import PosixAcl.Output.Sink
import PosixAcl.Tool.Help
import PosixAcl.Tool.Invocation

/-!
# Running a tool

A run takes a command line, a store and two outputs. It works on one path, or on every path of a
tree in the order of a walk. A path that fails is reported, and the run goes on. A run ends early
only when one of its outputs cannot be written.
-/

namespace PosixAcl

/-- What a run works with. -/
structure Session (σ : Type) where
  /-- The state of the store. -/
  store : σ
  /-- Where listings and help go. -/
  stdout : Output
  /-- Where diagnostics go. -/
  stderr : MessageSink
deriving DecidableEq, Repr

namespace Session

variable {σ : Type}

/-- A session of a tool on a store, with nothing written yet. -/
def start (tool : Tool) (store : σ) (stdout stderr : Output) : Session σ :=
  ⟨store, stdout, { output := stderr, program := tool.program }⟩

/-- Writes a diagnostic. -/
def tell (session : Session σ) (message : Text) : Except SystemError Unit × Session σ :=
  let (result, stderr) := session.stderr.write message
  (result, { session with stderr })

/-- Makes a call to the store. -/
def call (session : Session σ) (backend : Backend σ) (call : Call) :
    Except StoreError call.Reply × Session σ :=
  let (reply, store) := backend.perform call session.store
  (reply, { session with store })

/-- Reports the failure of one path and gives its exit code. A failure to write the output ends the
run, and so does a report that cannot be written. -/
def report (session : Session σ) : ToolError → Except SystemError ExitCode × Session σ
  | .output error => (.error error, session)
  | error =>
    match session.tell error.message with
    | (.ok (), session) => (.ok error.exitCode, session)
    | (.error failure, session) => (.error failure, session)

end Session

/-- What a run does to one path. -/
abbrev PathAction (σ : Type) := Path → Session σ → Except ToolError Unit × Session σ

namespace PathAction

variable {σ : Type}

/-- Lists the access control list of a path. -/
def list (backend : Backend σ) : PathAction σ := fun path session =>
  match session.call backend (.aclStatus path) with
  | (.error error, session) => (.error (.store error), session)
  | (.ok status, session) =>
    match session.stdout.writeLines (status.lines path) with
    | (.ok (), stdout) => (.ok (), { session with stdout })
    | (.error error, stdout) => (.error (.output error), { session with stdout })

/-- Changes the access control list of a path, with one call to the store. -/
def change (backend : Backend σ) (change : Change) : PathAction σ := fun path session =>
  match session.call backend (.change path change) with
  | (.error error, session) => (.error (.store error), session)
  | (.ok (), session) => (.ok (), session)

end PathAction

/-- What a run through a tree has met so far. -/
structure Tally where
  /-- The number of files visited. -/
  visited : Nat := 0
  /-- The exit codes of the failures, in order. -/
  failures : List ExitCode := []
deriving DecidableEq, Repr

/-- The exit code of a run through a tree. One failure keeps its own code if only one file was
visited. -/
def Tally.exitCode (tally : Tally) : ExitCode :=
  match tally.failures with
  | [] => .success
  | [code] => if tally.visited = 1 then code else .incomplete
  | _ => .incomplete

namespace Run

variable {σ : Type}

/-- Deals with one item of a walk: acts on a file, or takes note that a listing failed. -/
def visit (action : PathAction σ) (tally : Tally) (session : Session σ) :
    WalkItem → Tally × Except ToolError Unit × Session σ
  | .ok status =>
    let (result, session) := action status.path session
    ({ tally with visited := tally.visited + 1 }, result, session)
  | .error error => (tally, .error (.walk error), session)

/-- Goes through what is still to come of a walk, in a limited number of steps. -/
def visitAll (backend : Backend σ) (action : PathAction σ) :
    Nat → List WalkItem → Tally → Session σ → Except SystemError Tally × Session σ
  | 0, _, tally, session => (.ok tally, session)
  | steps + 1, pending, tally, session =>
    match Walk.next backend pending session.store with
    | (none, store) => (.ok tally, { session with store })
    | (some (item, pending), store) =>
      match visit action tally { session with store } item with
      | (tally, .ok (), session) => visitAll backend action steps pending tally session
      | (tally, .error error, session) =>
        match session.report error with
        | (.error failure, session) => (.error failure, session)
        | (.ok code, session) =>
          let tally := { tally with failures := tally.failures ++ [code] }
          visitAll backend action steps pending tally session

/-- Acts on one path. -/
def single (action : PathAction σ) (path : Path) (session : Session σ) :
    Except SystemError ExitCode × Session σ :=
  match action path session with
  | (.ok (), session) => (.ok .success, session)
  | (.error error, session) => session.report error

/-- Acts on a path and on everything below it. -/
def tree (backend : Backend σ) (action : PathAction σ) (root : Path) (session : Session σ) :
    Except SystemError ExitCode × Session σ :=
  match Walk.start backend root session.store with
  | (.error error, store) => { session with store }.report (.walk error)
  | (.ok pending, store) =>
    match visitAll backend action (backend.walkBound store) pending {} { session with store } with
    | (.ok tally, session) => (.ok tally.exitCode, session)
    | (.error failure, session) => (.error failure, session)

/-- Does what an invocation asks for. -/
def invocation {Action : Type} (backend : Backend σ) (invocation : Invocation Action)
    (action : PathAction σ) (session : Session σ) : Except SystemError ExitCode × Session σ :=
  if invocation.recursive then tree backend action invocation.path session
  else single action invocation.path session

/-- Ends a run. A run through a tree that is incomplete says so, and so does a run that could not
write its output. Whether that message itself can be written does not matter. -/
def finish : Except SystemError ExitCode → Session σ → ExitCode × Session σ
  | .ok code, session =>
    if code = .incomplete then (code, (session.tell code.message).2) else (code, session)
  | .error error, session => (.failure, (session.tell (ToolError.output error).message).2)

/-- Ends a run whose command line is wrong, with a hint at the right usage. -/
def refuse (tool : Tool) (error : ToolError) (session : Session σ) : ExitCode × Session σ :=
  match session.tell error.message with
  | (.ok (), session) => (.usage, (session.tell tool.usageHint).2)
  | (.error _, session) => (.usage, session)

/-- Writes the help text. -/
def help (tool : Tool) (session : Session σ) : ExitCode × Session σ :=
  let (result, stdout) := session.stdout.writeTexts [tool.help]
  let session := { session with stdout }
  match result, stdout.flush with
  | .ok (), .ok () => (.success, session)
  | .error error, _ | .ok (), .error error => finish (.error error) session

/-- Lists what a query asks for. The listing is handed on before the run ends. If that fails, the
run ends without another word. -/
def query (backend : Backend σ) (query : Invocation Unit) (session : Session σ) :
    ExitCode × Session σ :=
  let (outcome, session) := invocation backend query (PathAction.list backend) session
  match session.stdout.flush with
  | .error _ => (.failure, session)
  | .ok () => finish outcome session

/-- Makes the change that an invocation asks for. -/
def edit (backend : Backend σ) (edit : Invocation Change) (session : Session σ) :
    ExitCode × Session σ :=
  let (outcome, session) :=
    invocation backend edit (PathAction.change backend edit.action) session
  finish outcome session

end Run

/-- Runs a tool with an argument vector, of which the first argument is the name of the program and
does not matter. -/
def Tool.run {σ : Type} (tool : Tool) (backend : Backend σ) (arguments : List Bytes)
    (session : Session σ) : ExitCode × Session σ :=
  match Arguments.read tool arguments.tail with
  | .error error => Run.refuse tool (.usage (.arguments error)) session
  | .ok parsed =>
    if parsed.flags.contains .help then Run.help tool session
    else
      match tool with
      | .getfacl =>
        match Invocation.ofQuery parsed with
        | .error error => Run.refuse tool error session
        | .ok query => Run.query backend query session
      | .setfacl =>
        match Invocation.ofChange parsed with
        | .error error => Run.refuse tool error session
        | .ok edit => Run.edit backend edit session

end PosixAcl
