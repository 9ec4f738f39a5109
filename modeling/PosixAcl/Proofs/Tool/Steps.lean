import PosixAcl.Proofs.Output.Limit
import PosixAcl.Proofs.Tool.Session
import PosixAcl.Proofs.Walk.PreOrder

/-!
# Runs step by step

A run deals with one item after the other: it acts on a file or takes note of a
listing that failed, and reports the failure if there is one. An invocation for a
single path is a run with one item, and so is one for a tree whose root cannot be
inspected. What holds of each step therefore holds of every run. Where the
listings unfold into a finite tree, the steps follow its files in pre-order.
-/

namespace PosixAcl

variable {σ α β γ : Type}

/-! ## Later sessions -/

namespace Session

/-- A later state of a session: some calls were made, and the outputs may have kept more. -/
structure Grows (backend : Backend σ) (session later : Session σ) : Prop where
  /-- The store was only used through calls. -/
  calls : ∃ calls, later.store = backend.afterCalls calls session.store
  /-- Listings and help were only added to. -/
  stdout : session.stdout.Grows later.stdout
  /-- Diagnostics were only added to. -/
  stderr : session.stderr.output.Grows later.stderr.output

variable {backend : Backend σ} {session later last : Session σ} {listing : Listing}

theorem Grows.refl (backend : Backend σ) (session : Session σ) : session.Grows backend session :=
  ⟨⟨[], rfl⟩, .refl _, .refl _⟩

theorem Grows.trans (h : session.Grows backend later) (hlast : later.Grows backend last) :
    session.Grows backend last := by
  obtain ⟨calls, hcalls⟩ := h.calls
  obtain ⟨more, hmore⟩ := hlast.calls
  refine ⟨⟨calls ++ more, ?_⟩, h.stdout.trans hlast.stdout, h.stderr.trans hlast.stderr⟩
  rw [Backend.afterCalls_append, ← hcalls, hmore]

/-- The listings are still the given ones in a later session. -/
theorem Grows.steady (h : session.Grows backend later)
    (hsteady : backend.Steady listing session.store) : backend.Steady listing later.store := by
  obtain ⟨calls, hcalls⟩ := h.calls
  rw [hcalls]
  exact hsteady.afterCalls calls

/-- Calls are all that happens to the store. -/
theorem grows_afterCalls (backend : Backend σ) (session : Session σ) (calls : List Call) :
    session.Grows backend { session with store := backend.afterCalls calls session.store } :=
  ⟨⟨calls, rfl⟩, .refl _, .refl _⟩

/-- Writes texts to the output for listings and help. -/
def print (session : Session σ) (texts : List Text) : Except SystemError Unit × Session σ :=
  ((session.stdout.writeTexts texts).1,
    { session with stdout := (session.stdout.writeTexts texts).2 })

/-- Printing adds to the output for listings and help. -/
theorem grows_print (backend : Backend σ) (session : Session σ) (texts : List Text) :
    session.Grows backend (session.print texts).2 :=
  ⟨⟨[], rfl⟩, session.stdout.grows_writeTexts texts, .refl _⟩

/-- Writing a diagnostic adds to the output for diagnostics. -/
theorem grows_tell (backend : Backend σ) (session : Session σ) (message : Text) :
    session.Grows backend (session.tell message).2 :=
  ⟨⟨[], rfl⟩, .refl _, session.stderr.output.grows_writeTexts
    (MessageSink.pieces session.stderr.program message session.stderr.lineMode)⟩

end Session

namespace PathAction

/-- An action makes calls and adds to the outputs, and it does nothing else. -/
def Adds (action : PathAction σ) (backend : Backend σ) : Prop :=
  ∀ path (session : Session σ), session.Grows backend (action path session).2

/-- A list is shown by the lines for it after the call for it. -/
theorem list_eq_print (backend : Backend σ) (path : Path) (session : Session σ) :
    PathAction.list backend path session =
      match session.call backend (.aclStatus path) with
      | (.error error, later) => (.error (.store error), later)
      | (.ok status, later) =>
        let printed := later.print ((status.lines path).flatMap fun line => [line, ['\n']])
        (printed.1.mapError .output, printed.2) := by
  unfold PathAction.list Output.writeLines Session.print
  cases session.call backend (.aclStatus path) with
  | mk reply later =>
    cases reply with
    | error error => rfl
    | ok status =>
      simp only
      cases later.stdout.writeTexts ((status.lines path).flatMap fun line => [line, ['\n']]) with
      | mk result stdout => cases result <;> rfl

/-- A change is a call and nothing else. -/
theorem change_eq_call (backend : Backend σ) (what : Change) (path : Path) (session : Session σ) :
    PathAction.change backend what path session =
      match session.call backend (.change path what) with
      | (reply, later) => (reply.mapError .store, later) := by
  unfold PathAction.change
  cases session.call backend (.change path what) with
  | mk reply later => cases reply <;> rfl

/-- Listing is a call and then adds to the output. -/
theorem adds_list (backend : Backend σ) : (PathAction.list backend).Adds backend := by
  intro path session
  have hcalled : session.Grows backend (session.call backend (.aclStatus path)).2 :=
    session.grows_afterCalls backend [.aclStatus path]
  rw [list_eq_print]
  cases hcall : session.call backend (.aclStatus path) with
  | mk reply later =>
    rw [hcall] at hcalled
    cases reply with
    | error error => exact hcalled
    | ok status => exact hcalled.trans (later.grows_print backend _)

/-- A change adds nothing to the outputs. -/
theorem adds_change (backend : Backend σ) (what : Change) :
    (PathAction.change backend what).Adds backend := by
  intro path session
  rw [change_eq_call]
  exact session.grows_afterCalls backend [.change path what]

end PathAction

/-! ## Single steps -/

namespace Run

/-- Goes on after a result, unless an output could not be written. -/
def andThen (first : Except SystemError α × Session σ)
    (next : α → Session σ → Except SystemError β × Session σ) :
    Except SystemError β × Session σ :=
  match first with
  | (.ok value, session) => next value session
  | (.error failure, session) => (.error failure, session)

/-- Going on with nothing changes nothing. -/
theorem andThen_ok (first : Except SystemError α × Session σ) :
    andThen first (fun value session => (.ok value, session)) = first := by
  obtain ⟨result, session⟩ := first
  cases result <;> rfl

/-- Going on twice is going on with both. -/
theorem andThen_assoc (first : Except SystemError α × Session σ)
    (next : α → Session σ → Except SystemError β × Session σ)
    (last : β → Session σ → Except SystemError γ × Session σ) :
    andThen (andThen first next) last =
      andThen first fun value session => andThen (next value session) last := by
  obtain ⟨result, session⟩ := first
  cases result <;> rfl

/-- It only matters how a run goes on from what it has come to. -/
theorem andThen_congr {first : Except SystemError α × Session σ}
    {next next' : α → Session σ → Except SystemError β × Session σ}
    (h : ∀ value, next value first.2 = next' value first.2) :
    andThen first next = andThen first next' := by
  obtain ⟨result, session⟩ := first
  cases result with
  | ok value => exact h value
  | error failure => rfl

/-- As long as the listings stay the given ones, it only matters how a run goes on where they
are. -/
theorem andThen_congr_of_steady {backend : Backend σ} {listing : Listing} {session : Session σ}
    {first : Except SystemError α × Session σ}
    {next next' : α → Session σ → Except SystemError β × Session σ}
    (hsteady : backend.Steady listing session.store) (hgrows : session.Grows backend first.2)
    (h : ∀ value (reached : Session σ), backend.Steady listing reached.store →
      next value reached = next' value reached) :
    andThen first next = andThen first next' :=
  andThen_congr fun value => h value _ (hgrows.steady hsteady)

/-- Whatever is done next adds to what was done before. -/
theorem grows_andThen {backend : Backend σ} {session : Session σ}
    {first : Except SystemError α × Session σ}
    {next : α → Session σ → Except SystemError β × Session σ}
    (hfirst : session.Grows backend first.2)
    (hnext : ∀ value, first.2.Grows backend (next value first.2).2) :
    session.Grows backend (andThen first next).2 := by
  obtain ⟨result, later⟩ := first
  cases result with
  | ok value => exact hfirst.trans (hnext value)
  | error failure => exact hfirst

/-- Deals with one item of a walk, and reports the failure if there is one. -/
def settle (action : PathAction σ) (tally : Tally) (session : Session σ) (item : WalkItem) :
    Except SystemError Tally × Session σ :=
  match visit action tally session item with
  | (tally, .ok (), session) => (.ok tally, session)
  | (tally, .error error, session) =>
    andThen (session.report error) fun code session =>
      (.ok { tally with failures := tally.failures ++ [code] }, session)

/-- Sums up a run by its exit code. -/
def summed (tally : Tally) (session : Session σ) : Except SystemError ExitCode × Session σ :=
  (.ok tally.exitCode, session)

variable {backend : Backend σ} {action : PathAction σ} {session : Session σ}
  {pending rest : List WalkItem} {item : WalkItem} {store : σ}

/-- A report that is not about the other output is a diagnostic. -/
theorem report_eq_andThen (session : Session σ) {error : ToolError}
    (herror : ∀ failure, error ≠ .output failure) :
    session.report error =
      andThen (session.tell error.message) fun _ session => (.ok error.exitCode, session) := by
  rw [Session.report]
  · cases session.tell error.message with
    | mk result later => cases result <;> rfl
  · exact herror

/-- A report adds to the outputs. -/
theorem grows_report (backend : Backend σ) (session : Session σ) (error : ToolError) :
    session.Grows backend (session.report error).2 := by
  by_cases houtput : ∃ failure, error = .output failure
  · obtain ⟨failure, rfl⟩ := houtput
    exact .refl backend session
  · rw [report_eq_andThen session fun failure hfailure => houtput ⟨failure, hfailure⟩]
    exact grows_andThen (session.grows_tell backend error.message) fun _ => .refl backend _

/-- Settling an item makes calls and adds to the outputs. -/
theorem grows_settle (hadds : action.Adds backend) (tally : Tally) (session : Session σ)
    (item : WalkItem) : session.Grows backend (settle action tally session item).2 := by
  have hreported : ∀ (visited : Tally) (reached : Session σ) (error : ToolError),
      reached.Grows backend (andThen (reached.report error) fun code later =>
        (.ok { visited with failures := visited.failures ++ [code] }, later)).2 :=
    fun _ reached error =>
      grows_andThen (grows_report backend reached error) fun _ => .refl backend _
  cases item with
  | error error => exact hreported tally session (.walk error)
  | ok status =>
    have hacted := hadds status.path session
    simp only [settle, visit]
    cases hact : action status.path session with
    | mk result later =>
      rw [hact] at hacted
      cases result with
      | ok => exact hacted
      | error error => exact hacted.trans (hreported _ later error)

/-- A step of a run settles the next item, and then the run goes on with what is to come. -/
theorem visitAll_of_next
    (hnext : Walk.next backend pending session.store = (some (item, rest), store))
    (steps : Nat) (tally : Tally) :
    visitAll backend action (steps + 1) pending tally session =
      andThen (settle action tally { session with store } item)
        (visitAll backend action steps rest) := by
  rw [visitAll, hnext]
  simp only [settle]
  cases visit action tally { session with store } item with
  | mk tally outcome =>
    obtain ⟨result, session⟩ := outcome
    cases result with
    | ok => rfl
    | error error =>
      cases hreport : session.report error with
      | mk reply reported =>
        simp only [hreport]
        cases reply <;> rfl

/-- A failure that is to come is settled without a call. -/
theorem visitAll_error (backend : Backend σ) (action : PathAction σ) (error : WalkError)
    (rest : List WalkItem) (steps : Nat) (tally : Tally) (session : Session σ) :
    visitAll backend action (steps + 1) (.error error :: rest) tally session =
      andThen (settle action tally session (.error error)) (visitAll backend action steps rest) :=
  visitAll_of_next (show Walk.next backend (.error error :: rest) session.store =
    (some (.error error, rest), session.store) from rfl) steps tally

end Run

/-- A walk for which something is to come yields the first item, after a call if that is a
directory. -/
theorem Walk.exists_next (backend : Backend σ) (item : WalkItem) (rest : List WalkItem) (s : σ) :
    ∃ after calls, Walk.next backend (item :: rest) s =
      (some (item, after), backend.afterCalls calls s) := by
  cases item with
  | error error => exact ⟨rest, [], rfl⟩
  | ok status =>
    by_cases hdirectory : status.directory = true
    · rw [Walk.next, if_pos hdirectory]
      exact ⟨_, [.children status.path], rfl⟩
    · rw [Walk.next, if_neg hdirectory]
      exact ⟨rest, [], rfl⟩

/-! ## Runs -/

namespace Run

variable {backend : Backend σ} {action : PathAction σ} {session : Session σ} {store : σ}

/-- A run for which nothing is to come is over. -/
theorem visitAll_nil (backend : Backend σ) (action : PathAction σ) (steps : Nat) (tally : Tally)
    (session : Session σ) :
    visitAll backend action steps [] tally session = (.ok tally, session) := by
  cases steps <;> rfl

/-- A run with something to come settles the first item. What is to come after it does not depend on
the outputs. -/
theorem visitAll_cons (backend : Backend σ) (item : WalkItem) (rest : List WalkItem) (s : σ) :
    ∃ after calls, ∀ (action : PathAction σ) (session : Session σ), session.store = s →
      ∀ steps tally, visitAll backend action (steps + 1) (item :: rest) tally session =
        andThen (settle action tally { session with store := backend.afterCalls calls s } item)
          (visitAll backend action steps after) := by
  obtain ⟨after, calls, hnext⟩ := Walk.exists_next backend item rest s
  refine ⟨after, calls, fun action session hsession steps tally => ?_⟩
  obtain rfl := hsession
  exact visitAll_of_next hnext steps tally

/-- Going through what is to come makes calls and adds to the outputs. -/
theorem grows_visitAll (hadds : action.Adds backend) (steps : Nat) (pending : List WalkItem)
    (tally : Tally) (session : Session σ) :
    session.Grows backend (visitAll backend action steps pending tally session).2 := by
  induction steps generalizing pending tally session with
  | zero => exact .refl backend session
  | succ steps ih =>
    cases pending with
    | nil =>
      rw [visitAll_nil]
      exact .refl backend session
    | cons item rest =>
      obtain ⟨after, calls, hstep⟩ := visitAll_cons backend item rest session.store
      rw [hstep action session rfl]
      have hcalled := session.grows_afterCalls backend calls
      exact grows_andThen (hcalled.trans (grows_settle hadds tally _ item))
        fun tally => ih after tally _

/-- A run with one item that calls for nothing more settles this item. -/
theorem visitAll_one {item : WalkItem} {rest : List WalkItem}
    (hnext : Walk.next backend [item] session.store = (some (item, rest), session.store))
    (tally : Tally) :
    visitAll backend action 1 [item] tally session = settle action tally session item := by
  have hlast : visitAll backend action 0 rest = fun tally session => (.ok tally, session) := by
    funext tally session
    rfl
  rw [visitAll_of_next hnext, hlast, andThen_ok]

/-- Acting on one path settles one item. -/
theorem single_eq_settle (action : PathAction σ) (path : Path) (session : Session σ) :
    single action path session = andThen (settle action {} session (.ok ⟨path, false⟩)) summed := by
  rw [single, settle, visit]
  cases action path session with
  | mk result session =>
    cases result with
    | ok => rfl
    | error error =>
      simp only
      cases session.report error with
      | mk reply reported => cases reply <;> rfl

/-- Reporting that the root of a tree cannot be inspected settles one item. -/
theorem report_eq_settle (action : PathAction σ) (error : WalkError) (session : Session σ) :
    session.report (.walk error) =
      andThen (settle action ⟨1, []⟩ session (.error error)) summed := by
  rw [settle, visit]
  simp only
  cases session.report (.walk error) with
  | mk reply reported => cases reply <;> rfl

/-- Acting on a tree whose root can be inspected is a run from there on. -/
theorem tree_eq_visitAll {root : Path} {status : FileStatus}
    (hroot : backend.perform (.fileStatus root) session.store = (.ok status, store)) :
    tree backend action root session =
      andThen (visitAll backend action (backend.walkBound store) [.ok status] {}
        { session with store }) summed := by
  simp only [tree, Walk.start, hroot]
  cases visitAll backend action (backend.walkBound store) [.ok status] {}
      { session with store } with
  | mk result session => cases result <;> rfl

/-- Every invocation is a run. Where it begins does not depend on the outputs. -/
theorem invocation_eq_visitAll {Action : Type} (backend : Backend σ) (asked : Invocation Action)
    (s : σ) :
    ∃ steps pending visited calls, ∀ (action : PathAction σ) (session : Session σ),
      session.store = s →
        invocation backend asked action session =
          andThen (visitAll backend action steps pending ⟨visited, []⟩
            { session with store := backend.afterCalls calls s }) summed := by
  cases hrecursive : asked.recursive with
  | false =>
    refine ⟨1, [.ok ⟨asked.path, false⟩], 0, [], fun action session hsession => ?_⟩
    obtain rfl := hsession
    have hnext : Walk.next backend [.ok ⟨asked.path, false⟩] session.store =
        (some (.ok ⟨asked.path, false⟩, []), session.store) := Walk.next_file rfl [] _
    rw [invocation, hrecursive, if_neg Bool.false_ne_true, single_eq_settle]
    exact congrArg (andThen · summed) (visitAll_one hnext _).symm
  | true =>
    cases hroot : backend.perform (.fileStatus asked.path) s with
    | mk reply store =>
      have hstore : backend.afterCalls [.fileStatus asked.path] s = store := congrArg Prod.snd hroot
      cases reply with
      | error error =>
        refine ⟨1, [.error (.root error)], 1, [.fileStatus asked.path],
          fun action session hsession => ?_⟩
        obtain rfl := hsession
        rw [invocation, hrecursive, if_pos rfl, hstore, visitAll_one rfl, ← report_eq_settle]
        simp only [tree, Walk.start, hroot]
      | ok status =>
        refine ⟨backend.walkBound store, [.ok status], 0, [.fileStatus asked.path],
          fun action session hsession => ?_⟩
        obtain rfl := hsession
        rw [invocation, hrecursive, if_pos rfl, hstore, tree_eq_visitAll hroot]

/-- An invocation makes calls and adds to the outputs. -/
theorem grows_invocation {Action : Type} (hadds : action.Adds backend)
    (asked : Invocation Action) (session : Session σ) :
    session.Grows backend (invocation backend asked action session).2 := by
  obtain ⟨steps, pending, visited, calls, hrun⟩ :=
    invocation_eq_visitAll backend asked session.store
  have hcalled := session.grows_afterCalls backend calls
  rw [hrun action session rfl]
  exact grows_andThen (hcalled.trans (grows_visitAll hadds steps pending ⟨visited, []⟩ _))
    fun _ => .refl backend _

/-- A listing ends the run where flushing works. -/
theorem query_of_flush (hflush : session.stdout.flushFails = false) (backend : Backend σ)
    (asked : Invocation Unit) :
    query backend asked session =
      finish (invocation backend asked (PathAction.list backend) session).1
        (invocation backend asked (PathAction.list backend) session).2 := by
  have hgrows := grows_invocation (PathAction.adds_list backend) asked session
  have hflushed := hgrows.stdout.flush_eq_ok hflush
  rw [query]
  simp only [hflushed]

/-- Where flushing fails, a listing fails without another word. -/
theorem query_of_flushFails (hflush : session.stdout.flushFails = true) (backend : Backend σ)
    (asked : Invocation Unit) :
    query backend asked session =
      (.failure, (invocation backend asked (PathAction.list backend) session).2) := by
  have hgrows := grows_invocation (PathAction.adds_list backend) asked session
  have hflushed : (invocation backend asked (PathAction.list backend) session).2.stdout.flush =
      .error .brokenPipe := by
    simp [Output.flush, hgrows.stdout.flushFails, hflush]
  rw [query]
  simp only [hflushed]

/-! ## Runs through finite trees -/

/-- Help is printed, and then it is handed on. -/
theorem help_eq_print (tool : Tool) (session : Session σ) :
    help tool session =
      match session.print [tool.help] with
      | (.error error, later) => finish (.error error) later
      | (.ok (), later) =>
        match later.stdout.flush with
        | .error error => finish (.error error) later
        | .ok () => (.success, later) := by
  unfold help Session.print
  cases session.stdout.writeTexts [tool.help] with
  | mk result stdout =>
    cases result with
    | error error => rfl
    | ok =>
      simp only
      cases stdout.flush <;> rfl

/-- Settles several items one after the other. -/
def settleAll (action : PathAction σ) (tally : Tally) (session : Session σ) :
    List WalkItem → Except SystemError Tally × Session σ
  | [] => (.ok tally, session)
  | item :: rest =>
    andThen (settle action tally session item) fun tally session =>
      settleAll action tally session rest

/-- Settling one item on its own. -/
theorem settleAll_singleton (action : PathAction σ) (tally : Tally) (session : Session σ)
    (item : WalkItem) :
    settleAll action tally session [item] = settle action tally session item := by
  exact andThen_ok _

/-- Settles several files one after the other. A directory is listed first, and if that fails, the
failure is settled after the file. -/
def settleFiles (backend : Backend σ) (listing : Listing) (action : PathAction σ) (tally : Tally)
    (session : Session σ) : List FileStatus → Except SystemError Tally × Session σ
  | [] => (.ok tally, session)
  | file :: rest =>
    andThen
      (settleAll action tally
        { session with store := backend.afterCalls (Walk.listCalls file) session.store }
        (Walk.itemsOf listing file))
      fun tally session => settleFiles backend listing action tally session rest

theorem settleFiles_append (backend : Backend σ) (listing : Listing) (action : PathAction σ)
    (tally : Tally) (session : Session σ) (files more : List FileStatus) :
    settleFiles backend listing action tally session (files ++ more) =
      andThen (settleFiles backend listing action tally session files) fun tally session =>
        settleFiles backend listing action tally session more := by
  induction files generalizing tally session with
  | nil => rfl
  | cons file rest ih =>
    rw [List.cons_append, settleFiles, settleFiles, andThen_assoc]
    exact andThen_congr fun tally => ih tally _

/-- Settling several items makes calls and adds to the outputs. -/
theorem grows_settleAll (hadds : action.Adds backend) (tally : Tally) (session : Session σ)
    (items : List WalkItem) :
    session.Grows backend (settleAll action tally session items).2 := by
  induction items generalizing tally session with
  | nil => exact .refl backend session
  | cons item rest ih =>
    exact grows_andThen (grows_settle hadds tally session item) fun tally => ih tally _

/-- Settling several files makes calls and adds to the outputs. -/
theorem grows_settleFiles (hadds : action.Adds backend) (listing : Listing) (tally : Tally)
    (session : Session σ) (files : List FileStatus) :
    session.Grows backend (settleFiles backend listing action tally session files).2 := by
  induction files generalizing tally session with
  | nil => exact .refl backend session
  | cons file rest ih =>
    have hlisted := session.grows_afterCalls backend (Walk.listCalls file)
    exact grows_andThen (hlisted.trans (grows_settleAll hadds tally _ _)) fun tally => ih tally _

/-- Settling a file acts on it, and then the failure to list it is settled if there is one. -/
theorem settleFiles_cons {listing : Listing} {file : FileStatus} {failures : List WalkItem}
    (hitems : Walk.itemsOf listing file = .ok file :: failures) (backend : Backend σ)
    (action : PathAction σ) (tally : Tally) (session : Session σ) (rest : List FileStatus) :
    settleFiles backend listing action tally session (file :: rest) =
      andThen
        (settle action tally
          { session with store := backend.afterCalls (Walk.listCalls file) session.store }
          (.ok file))
        fun tally session => andThen (settleAll action tally session failures)
          fun tally session => settleFiles backend listing action tally session rest := by
  rw [settleFiles, hitems, settleAll, andThen_assoc]

/-- A run settles the files that are met from some files on, and then goes on with the rest of what
is to come. -/
theorem visitAll_eq_settleFiles {listing : Listing} {roots files : List FileStatus}
    (hadds : action.Adds backend) (hpre : Walk.PreOrder listing roots files)
    (hsteady : backend.Steady listing session.store) (rest : List WalkItem) (steps : Nat)
    (tally : Tally) :
    visitAll backend action ((files.flatMap (Walk.itemsOf listing)).length + steps)
        (roots.map .ok ++ rest) tally session =
      andThen (settleFiles backend listing action tally session files)
        (visitAll backend action steps rest) := by
  -- The rest is whatever a directory has left to come, so that it can grow on the way down.
  induction hpre generalizing session rest steps tally with
  | nil =>
    rw [List.flatMap_nil, List.length_nil, Nat.zero_add]
    rfl
  | @file status more files hfile _ ih =>
    have hitems : Walk.itemsOf listing status = [.ok status] := by simp [Walk.itemsOf, hfile]
    have hcalls : Walk.listCalls status = [] := by simp [Walk.listCalls, hfile]
    rw [List.flatMap_cons, hitems, List.singleton_append, List.length_cons, Nat.add_right_comm,
      List.map_cons, List.cons_append, visitAll_of_next (Walk.next_file hfile _ session.store),
      settleFiles_cons hitems, hcalls, andThen_assoc]
    exact andThen_congr_of_steady hsteady (grows_settle hadds _ session (.ok status))
      fun tally reached hreached => ih hreached rest steps tally
  | @unlisted status error more files hdirectory hlisting _ ih =>
    have hitems : Walk.itemsOf listing status = [.ok status, .error (.listing error)] := by
      simp [Walk.itemsOf, hdirectory, hlisting]
    have hcalls : Walk.listCalls status = [.children status.path] := by
      simp [Walk.listCalls, hdirectory]
    have hnext := Walk.next_directory hsteady.listsAs hdirectory (more.map .ok ++ rest)
    rw [hlisting] at hnext
    have hlisted := (session.grows_afterCalls backend [.children status.path]).steady hsteady
    rw [List.flatMap_cons, hitems, List.cons_append, List.singleton_append, List.length_cons,
      List.length_cons, Nat.add_right_comm _ 1 steps, Nat.add_right_comm _ 1 steps,
      List.map_cons, List.cons_append, visitAll_of_next hnext, settleFiles_cons hitems, hcalls,
      andThen_assoc]
    refine andThen_congr_of_steady hlisted (grows_settle hadds _ _ (.ok status))
      fun tally reached hreached => ?_
    rw [Walk.contents, List.singleton_append, visitAll_error, settleAll_singleton, andThen_assoc]
    exact andThen_congr_of_steady hreached (grows_settle hadds _ reached (.error (.listing error)))
      fun tally reached hreached => ih hreached rest steps tally
  | @directory status children more below files hdirectory hlisting _ _ ihBelow ih =>
    have hitems : Walk.itemsOf listing status = [.ok status] := by
      simp [Walk.itemsOf, hdirectory, hlisting]
    have hcalls : Walk.listCalls status = [.children status.path] := by
      simp [Walk.listCalls, hdirectory]
    have hnext := Walk.next_directory hsteady.listsAs hdirectory (more.map .ok ++ rest)
    rw [hlisting] at hnext
    have hlisted := (session.grows_afterCalls backend [.children status.path]).steady hsteady
    rw [List.flatMap_cons, List.flatMap_append, hitems, List.singleton_append, List.length_cons,
      List.length_append, Nat.add_right_comm, Nat.add_assoc _ _ steps, List.map_cons,
      List.cons_append, visitAll_of_next hnext, settleFiles_cons hitems, hcalls, andThen_assoc]
    refine andThen_congr_of_steady hlisted (grows_settle hadds _ _ (.ok status))
      fun tally reached hreached => ?_
    have hboth : ∀ tally' later, andThen (settleAll action tally' later [])
        (fun tally session => settleFiles backend listing action tally session (below ++ files)) =
          andThen (settleFiles backend listing action tally' later below) fun tally session =>
            settleFiles backend listing action tally session files :=
      fun tally' later => settleFiles_append backend listing action tally' later below files
    rw [Walk.contents, ihBelow hreached, hboth, andThen_assoc]
    exact andThen_congr_of_steady hreached (grows_settleFiles hadds listing tally reached below)
      fun tally reached hreached => ih hreached rest steps tally

/-- Acting on a finite tree settles its files in pre-order. -/
theorem tree_eq_settleFiles {listing : Listing} {root : Path} {status : FileStatus}
    {files : List FileStatus} (hadds : action.Adds backend)
    (hroot : backend.perform (.fileStatus root) session.store = (.ok status, store))
    (hsteady : backend.Steady listing store) (hpre : Walk.PreOrder listing [status] files)
    (hbound : 2 * files.length ≤ backend.walkBound store) :
    tree backend action root session =
      andThen (settleFiles backend listing action {} { session with store } files) summed := by
  obtain ⟨steps, hsteps⟩ :=
    Nat.exists_eq_add_of_le (Nat.le_trans (Walk.length_items_le listing files) hbound)
  have hreached : backend.Steady listing ({ session with store } : Session σ).store := hsteady
  have hall := visitAll_eq_settleFiles hadds hpre hreached [] steps {}
  have hend : visitAll backend action steps [] = fun tally session => (.ok tally, session) := by
    funext tally session
    exact visitAll_nil backend action steps tally session
  rw [hend, andThen_ok, List.append_nil, ← hsteps] at hall
  rw [tree_eq_visitAll hroot, ← hall]
  rfl

end Run

end PosixAcl
