import PosixAcl.Proofs.Tool.Steps

/-!
# Invariants of stores

A run reaches a store only through calls. A property that no call breaks therefore
holds after every run, however the run goes: with failures, with outputs that
cannot be written, or with a wrong command line.
-/

namespace PosixAcl

variable {σ : Type}

/-- No call of a walk breaks a property of the store. -/
structure Backend.KeepsWalking (backend : Backend σ) (P : σ → Prop) : Prop where
  /-- Asking for the type of a file. -/
  fileStatus : ∀ path s, P s → P (backend.perform (.fileStatus path) s).2
  /-- Listing a directory. -/
  children : ∀ path s, P s → P (backend.perform (.children path) s).2

/-- What is done to a path does not break a property of the store. -/
def PathAction.Keeps (action : PathAction σ) (P : σ → Prop) : Prop :=
  ∀ path session, P session.store → P (action path session).2.store

/-- No call that a run may make for a change breaks a property of the store. -/
structure Backend.Keeps (backend : Backend σ) (change : Change) (P : σ → Prop) : Prop where
  /-- Asking for the type of a file. -/
  fileStatus : ∀ path s, P s → P (backend.perform (.fileStatus path) s).2
  /-- Listing a directory. -/
  children : ∀ path s, P s → P (backend.perform (.children path) s).2
  /-- Making the change. -/
  change : ∀ path s, P s → P (backend.perform (.change path change) s).2

variable {backend : Backend σ} {action : PathAction σ} {change : Change} {P : σ → Prop}

/-- No call of a walk is among those that would break the property. -/
theorem Backend.Keeps.walking (h : backend.Keeps change P) : backend.KeepsWalking P :=
  ⟨h.fileStatus, h.children⟩

/-! ## Reports -/

/-- Writing a diagnostic does not touch the store. -/
theorem Session.store_tell (session : Session σ) (message : Text) :
    (session.tell message).2.store = session.store :=
  rfl

/-- Reporting a failure does not touch the store. -/
theorem Session.store_report (session : Session σ) (error : ToolError) :
    (session.report error).2.store = session.store := by
  have htell := session.store_tell error.message
  unfold Session.report
  split
  · rfl
  · split
    · rename_i heq
      rw [heq] at htell
      exact htell
    · rename_i heq
      rw [heq] at htell
      exact htell

/-- Ending a run does not touch the store. -/
theorem Run.store_finish (outcome : Except SystemError ExitCode) (session : Session σ) :
    (Run.finish outcome session).2.store = session.store := by
  unfold Run.finish
  split
  · split <;> rfl
  · rfl

/-- Refusing a command line does not touch the store. -/
theorem Run.store_refuse (tool : Tool) (error : ToolError) (session : Session σ) :
    (Run.refuse tool error session).2.store = session.store := by
  have htell := session.store_tell error.message
  unfold Run.refuse
  split
  · rename_i heq
    rw [heq] at htell
    exact htell
  · rename_i heq
    rw [heq] at htell
    exact htell

/-- Writing the help text does not touch the store. -/
theorem Run.store_help (tool : Tool) (session : Session σ) :
    (Run.help tool session).2.store = session.store := by
  unfold Run.help
  cases session.stdout.writeTexts [tool.help] with
  | mk result stdout =>
    cases result with
    | error error => exact Run.store_finish _ _
    | ok =>
      cases hflush : stdout.flush with
      | error error =>
        simp only [hflush]
        exact Run.store_finish _ _
      | ok => simp only [hflush]

/-! ## Walks and actions -/

/-- Changing one path keeps the property. -/
theorem PathAction.change_keeps (h : backend.Keeps change P) :
    (PathAction.change backend change).Keeps P := by
  intro path session hstore
  have hnext := h.change path session.store hstore
  unfold PathAction.change Session.call
  cases hcall : backend.perform (.change path change) session.store with
  | mk reply store =>
    rw [hcall] at hnext
    cases reply <;> exact hnext

/-- Listing one path keeps the property if asking for its status does. -/
theorem PathAction.list_keeps
    (h : ∀ path s, P s → P (backend.perform (.aclStatus path) s).2) :
    (PathAction.list backend).Keeps P := by
  intro path session hstore
  have hnext := h path session.store hstore
  unfold PathAction.list Session.call
  cases hcall : backend.perform (.aclStatus path) session.store with
  | mk reply store =>
    rw [hcall] at hnext
    cases reply with
    | error error => exact hnext
    | ok status =>
      simp only
      split <;> exact hnext

/-- The next step of a walk keeps the property. -/
theorem Walk.next_keeps (h : backend.KeepsWalking P) (pending : List WalkItem) {s : σ}
    (hstore : P s) : P (Walk.next backend pending s).2 := by
  cases pending with
  | nil => exact hstore
  | cons item rest =>
    cases item with
    | error error => exact hstore
    | ok status =>
      have hnext := h.children status.path s hstore
      simp only [Walk.next]
      split
      · exact hnext
      · exact hstore

/-- Dealing with one item of a walk keeps the property. -/
theorem Run.visit_keeps (h : action.Keeps P) (tally : Tally) {session : Session σ}
    (hstore : P session.store) (item : WalkItem) :
    P (Run.visit action tally session item).2.2.store := by
  cases item with
  | error error => exact hstore
  | ok status => exact h status.path session hstore

/-- Going on keeps the property if each part does. -/
theorem Run.andThen_keeps {α β : Type} {first : Except SystemError α × Session σ}
    {next : α → Session σ → Except SystemError β × Session σ} (hfirst : P first.2.store)
    (hnext : ∀ value (reached : Session σ), P reached.store → P (next value reached).2.store) :
    P (Run.andThen first next).2.store := by
  obtain ⟨result, reached⟩ := first
  cases result with
  | ok value => exact hnext value reached hfirst
  | error failure => exact hfirst

/-- Settling an item keeps the property if acting on its file does. -/
theorem Run.settle_keeps {session : Session σ} (hstore : P session.store) (tally : Tally)
    {item : WalkItem} (h : ∀ file, item = .ok file → P (action file.path session).2.store) :
    P (Run.settle action tally session item).2.store := by
  have hreported : ∀ (reached : Session σ) (error : ToolError), P reached.store →
      P (reached.report error).2.store := by
    intro reached error hreached
    rwa [reached.store_report]
  cases item with
  | error error =>
    exact Run.andThen_keeps (hreported session (.walk error) hstore) fun _ _ hreached => hreached
  | ok file =>
    have hacted := h file rfl
    simp only [Run.settle, Run.visit]
    cases hact : action file.path session with
    | mk result later =>
      rw [hact] at hacted
      cases result with
      | ok => exact hacted
      | error error =>
        exact Run.andThen_keeps (hreported later error hacted) fun _ _ hreached => hreached

/-- Going through a tree keeps the property. -/
theorem Run.visitAll_keeps (hwalking : backend.KeepsWalking P) (h : action.Keeps P) (steps : Nat)
    (pending : List WalkItem) (tally : Tally) {session : Session σ} (hstore : P session.store) :
    P (Run.visitAll backend action steps pending tally session).2.store := by
  induction steps generalizing pending tally session with
  | zero => exact hstore
  | succ steps ih =>
    cases pending with
    | nil => rwa [Run.visitAll_nil]
    | cons item rest =>
      obtain ⟨after, calls, hnext⟩ := Walk.exists_next backend item rest session.store
      have hreached := Walk.next_keeps hwalking (item :: rest) hstore
      rw [hnext] at hreached
      rw [Run.visitAll_of_next hnext]
      exact Run.andThen_keeps (Run.settle_keeps hreached tally fun file _ => h file.path _ hreached)
        fun tally later hlater => ih after tally hlater

/-- Settling several files keeps a property that listing each of them and acting on each of them
keeps. -/
theorem Run.settleFiles_keeps {listing : Listing} {files : List FileStatus}
    (hlisting : ∀ file ∈ files, ∀ s, P s → P (backend.perform (.children file.path) s).2)
    (haction : ∀ file ∈ files, ∀ session, P session.store → P (action file.path session).2.store)
    (tally : Tally) {session : Session σ} (hstore : P session.store) :
    P (Run.settleFiles backend listing action tally session files).2.store := by
  induction files generalizing tally session with
  | nil => exact hstore
  | cons file rest ih =>
    have hlisted : P (backend.afterCalls (Walk.listCalls file) session.store) := by
      unfold Walk.listCalls
      split
      · exact hlisting file List.mem_cons_self _ hstore
      · exact hstore
    have hrest := ih (fun other hother => hlisting other (List.mem_cons_of_mem _ hother))
      fun other hother => haction other (List.mem_cons_of_mem _ hother)
    refine Run.andThen_keeps ?_ fun tally reached hreached => hrest tally hreached
    rcases Walk.itemsOf_cases listing file with hitems | ⟨error, -, -, hitems⟩
    · rw [hitems, Run.settleAll_singleton]
      refine Run.settle_keeps hlisted tally fun other hother => ?_
      rw [← Except.ok.inj hother]
      exact haction file List.mem_cons_self _ hlisted
    · rw [hitems, Run.settleAll]
      refine Run.andThen_keeps (Run.settle_keeps hlisted tally fun other hother => ?_)
        fun tally reached hreached => ?_
      · rw [← Except.ok.inj hother]
        exact haction file List.mem_cons_self _ hlisted
      · rw [Run.settleAll_singleton]
        refine Run.settle_keeps hreached tally fun other hother => ?_
        cases hother

/-- Acting on a tree or a single path keeps the property. -/
theorem Run.invocation_keeps {Action : Type} (hwalking : backend.KeepsWalking P)
    (h : action.Keeps P) (asked : Invocation Action) {session : Session σ}
    (hstore : P session.store) : P (Run.invocation backend asked action session).2.store := by
  unfold Run.invocation
  split
  · have hstatus := hwalking.fileStatus asked.path session.store hstore
    unfold Run.tree Walk.start
    cases hcall : backend.perform (.fileStatus asked.path) session.store with
    | mk reply store =>
      rw [hcall] at hstatus
      cases reply with
      | error error =>
        rw [Session.store_report]
        exact hstatus
      | ok status =>
        have hreached : P ({ session with store } : Session σ).store := hstatus
        have hall :=
          Run.visitAll_keeps hwalking h (backend.walkBound store) [.ok status] {} hreached
        simp only
        split
        · rename_i heq
          rw [heq] at hall
          exact hall
        · rename_i heq
          rw [heq] at hall
          exact hall
  · have hacted := h asked.path session hstore
    unfold Run.single
    split
    · rename_i heq
      rw [heq] at hacted
      exact hacted
    · rename_i heq
      rw [heq] at hacted
      rw [Session.store_report]
      exact hacted

/-- A run of the tool that shows lists keeps a property that no call of a walk and no question for
a status breaks. -/
theorem Tool.run_list_keeps (hwalking : backend.KeepsWalking P)
    (h : ∀ path s, P s → P (backend.perform (.aclStatus path) s).2) (arguments : List Bytes)
    {session : Session σ} (hstore : P session.store) :
    P (Tool.run .getfacl backend arguments session).2.store := by
  unfold Tool.run
  cases hread : Arguments.read .getfacl arguments.tail with
  | error error =>
    rwa [Run.store_refuse]
  | ok parsed =>
    simp only
    split
    · rwa [Run.store_help]
    · cases hquery : Invocation.ofQuery parsed with
      | error error =>
        rwa [Run.store_refuse]
      | ok query =>
        have hkept := Run.invocation_keeps hwalking (PathAction.list_keeps h) query hstore
        simp only [Run.query]
        split
        · exact hkept
        · rwa [Run.store_finish]

/-- A run of the tool that changes lists keeps a property that no call for its change breaks. -/
theorem Tool.run_keeps {arguments : List Bytes}
    (h : ∀ parsed edit, Arguments.read .setfacl arguments.tail = .ok parsed →
      Invocation.ofChange parsed = .ok edit → backend.Keeps edit.action P)
    {session : Session σ} (hstore : P session.store) :
    P (Tool.run .setfacl backend arguments session).2.store := by
  unfold Tool.run
  cases hread : Arguments.read .setfacl arguments.tail with
  | error error =>
    rwa [Run.store_refuse]
  | ok parsed =>
    simp only
    split
    · rwa [Run.store_help]
    · cases hedit : Invocation.ofChange parsed with
      | error error =>
        rwa [Run.store_refuse]
      | ok edit =>
        have hkeeps := h parsed edit hread hedit
        have hkept :=
          Run.invocation_keeps hkeeps.walking (PathAction.change_keeps hkeeps) edit hstore
        simp only [Run.edit]
        rwa [Run.store_finish]

/-- A run of either tool keeps a property that no call breaks. -/
theorem Tool.run_keeps_of_perform (h : ∀ call s, P s → P (backend.perform call s).2) (tool : Tool)
    (arguments : List Bytes) {session : Session σ} (hstore : P session.store) :
    P (tool.run backend arguments session).2.store := by
  cases tool with
  | getfacl =>
    exact Tool.run_list_keeps ⟨fun path => h (.fileStatus path), fun path => h (.children path)⟩
      (fun path => h (.aclStatus path)) arguments hstore
  | setfacl =>
    refine Tool.run_keeps (fun _ edit _ _ => ?_) hstore
    exact ⟨fun path => h (.fileStatus path), fun path => h (.children path),
      fun path => h (.change path edit.action)⟩

end PosixAcl
