import PosixAcl.Proofs.Tool.Steps

/-!
# Runs with a limited output

A run with a limit on one of its outputs is compared with the same run without
limits. As long as everything fits, they go the same way. What does not fit ends
the limited run right where it is, in a state that the other run passes as well.
-/

namespace PosixAcl

/-- The outputs of a session. -/
inductive Channel where
  /-- The one for listings and help. -/
  | stdout
  /-- The one for diagnostics. -/
  | stderr

variable {σ α β : Type}

/-! ## Sessions with a limit -/

namespace Session

/-- What was written to one of the outputs. -/
def written (session : Session σ) : Channel → Bytes
  | .stdout => session.stdout.kept
  | .stderr => session.stderr.output.kept

/-- The session in which one of the outputs has a limit, and has kept what is within it. -/
def limit (session : Session σ) (n : Nat) : Channel → Session σ
  | .stdout => { session with stdout := session.stdout.limit n }
  | .stderr => { session with
      stderr := { session.stderr with output := session.stderr.output.limit n } }

/-- What was written to an output is within a limit. -/
def Fits (session : Session σ) (n : Nat) (channel : Channel) : Prop :=
  (session.written channel).length ≤ n

instance (session : Session σ) (n : Nat) (channel : Channel) : Decidable (session.Fits n channel) :=
  inferInstanceAs (Decidable (_ ≤ _))

/-- Neither output has a limit. -/
structure Unlimited (session : Session σ) : Prop where
  /-- Listings and help have none. -/
  stdout : session.stdout.capacity = none
  /-- Diagnostics have none. -/
  stderr : session.stderr.output.capacity = none

variable {backend : Backend σ} {session later : Session σ} {n : Nat} {channel : Channel}

/-- What was written does not depend on the store. -/
theorem Fits.withStore (h : session.Fits n channel) (store : σ) :
    Fits { session with store } n channel := by
  cases channel <;> exact h

/-- Outputs without a limit do not get one. -/
theorem Grows.unlimited_iff (h : session.Grows backend later) :
    later.Unlimited ↔ session.Unlimited := by
  constructor
  · intro hlater
    exact ⟨h.stdout.capacity.symm.trans hlater.stdout, h.stderr.capacity.symm.trans hlater.stderr⟩
  · intro hsession
    exact ⟨h.stdout.capacity.trans hsession.stdout, h.stderr.capacity.trans hsession.stderr⟩

/-- What was written before is still there. -/
theorem Grows.written (h : session.Grows backend later) (channel : Channel) :
    session.written channel <+: later.written channel := by
  cases channel with
  | stdout => exact h.stdout.kept
  | stderr => exact h.stderr.kept

/-- What fits later fitted before. -/
theorem Grows.fits (h : session.Grows backend later) (hlater : later.Fits n channel) :
    session.Fits n channel :=
  Nat.le_trans (h.written channel).length_le hlater

/-- Once something does not fit, a later state has written the same within the limit. -/
theorem Grows.take_written (h : session.Grows backend later) (hfull : ¬ session.Fits n channel) :
    (later.written channel).take n = (session.written channel).take n := by
  obtain ⟨more, hmore⟩ := h.written channel
  rw [← hmore, List.take_append_of_le_length (Nat.le_of_not_le hfull)]

/-- What a session with a limit has written is within it. -/
theorem written_limit (session : Session σ) (n : Nat) (channel : Channel) :
    (session.limit n channel).written channel = (session.written channel).take n := by
  cases channel <;> rfl

/-- A limit does not concern the store. -/
theorem limit_store (session : Session σ) (n : Nat) (channel : Channel) :
    (session.limit n channel).store = session.store := by
  cases channel <;> rfl

/-- A limit does not concern another state of the store. -/
theorem limit_withStore (session : Session σ) (n : Nat) (channel : Channel) (store : σ) :
    { session.limit n channel with store } =
      ({ session with store } : Session σ).limit n channel := by
  cases channel <;> rfl

/-- What a session with a limit has listed is the beginning of what it has listed without. -/
theorem stdout_limit_isPrefix (session : Session σ) (n : Nat) (channel : Channel) :
    (session.limit n channel).stdout.kept <+: session.stdout.kept := by
  cases channel with
  | stdout => exact List.take_prefix _ _
  | stderr => exact List.prefix_rfl

/-- A call does not concern the outputs. -/
theorem call_limit (session : Session σ) (n : Nat) (channel : Channel) (call : Call) :
    (session.limit n channel).call backend call =
      ((session.call backend call).1, (session.call backend call).2.limit n channel) := by
  cases channel <;> rfl

/-- Without a limit a diagnostic can be written. -/
theorem Unlimited.tell_fst (h : session.Unlimited) (message : Text) :
    (session.tell message).1 = .ok () := by
  simp [tell, MessageSink.write, MessageSink.writeWithMode,
    Output.writeTexts_of_unlimited h.stderr]

/-- With a limit a diagnostic that does not fit is cut off, and then it fails. -/
theorem Unlimited.tell_limit (h : session.Unlimited) (hfits : session.Fits n channel)
    (message : Text) :
    (session.limit n channel).tell message =
      (if (session.tell message).2.Fits n channel then .ok () else .error .brokenPipe,
        (session.tell message).2.limit n channel) := by
  have hfst := h.tell_fst message
  cases channel with
  | stdout =>
    have hstill : (session.tell message).2.Fits n .stdout := hfits
    rw [if_pos hstill, ← hfst]
    rfl
  | stderr =>
    simp only [tell, MessageSink.write, MessageSink.writeWithMode, limit, Fits, written,
      Output.writeTexts_of_unlimited h.stderr, Output.writeTexts_limit hfits]

/-- With a limit what remains of a diagnostic is what is within it. -/
theorem Unlimited.tell_limit_snd (h : session.Unlimited) (n : Nat) (channel : Channel)
    (message : Text) :
    ((session.limit n channel).tell message).2 = (session.tell message).2.limit n channel := by
  cases channel with
  | stdout => rfl
  | stderr =>
    simp only [tell, MessageSink.write, MessageSink.writeWithMode, limit, Output.writeTexts,
      Output.writeAll_limit, Output.writeAll_of_unlimited h.stderr]

/-- Without a limit everything can be printed. -/
theorem Unlimited.print_fst (h : session.Unlimited) (texts : List Text) :
    (session.print texts).1 = .ok () := by
  rw [print, Output.writeTexts_of_unlimited h.stdout]

/-- With a limit what does not fit is cut off, and then printing fails. -/
theorem Unlimited.print_limit (h : session.Unlimited) (hfits : session.Fits n channel)
    (texts : List Text) :
    (session.limit n channel).print texts =
      (if (session.print texts).2.Fits n channel then .ok () else .error .brokenPipe,
        (session.print texts).2.limit n channel) := by
  have hfst := h.print_fst texts
  cases channel with
  | stdout =>
    simp only [print, limit, Fits, written, Output.writeTexts_of_unlimited h.stdout,
      Output.writeTexts_limit hfits]
  | stderr =>
    have hstill : (session.print texts).2.Fits n .stderr := hfits
    rw [if_pos hstill, ← hfst]
    rfl

end Session

/-! ## Actions with a limit -/

namespace PathAction

/-- With a limit on an output, an action goes the same way if what it writes fits. Otherwise it
fails where it would have succeeded. -/
structure Limited (action : PathAction σ) : Prop where
  /-- There is no difference if everything fits. -/
  fits : ∀ path (session : Session σ) n channel, session.Unlimited → session.Fits n channel →
    (action path session).2.Fits n channel →
      action path (session.limit n channel) =
        ((action path session).1, (action path session).2.limit n channel)
  /-- Only a success can be too long for a limit. -/
  full : ∀ path (session : Session σ) n channel, session.Unlimited → session.Fits n channel →
    ¬ (action path session).2.Fits n channel →
      (action path session).1 = .ok () ∧
      action path (session.limit n channel) =
        (.error (.output .brokenPipe), (action path session).2.limit n channel)

/-- A change writes nothing. -/
theorem limited_change (backend : Backend σ) (what : Change) :
    (PathAction.change backend what).Limited := by
  refine ⟨fun path session n channel _ _ _ => ?_, fun path session n channel _ hfits hfull => ?_⟩
  · rw [change_eq_call, change_eq_call, Session.call_limit]
  · rw [change_eq_call] at hfull
    exact absurd (hfits.withStore _) hfull

/-- What is listed is written after the call, in lines. -/
theorem limited_list (backend : Backend σ) : (PathAction.list backend).Limited := by
  have hcalled : ∀ path (session : Session σ),
      session.Grows backend (session.call backend (.aclStatus path)).2 :=
    fun path session => session.grows_afterCalls backend [.aclStatus path]
  refine ⟨fun path session n channel hunlimited hfits hroom => ?_,
    fun path session n channel hunlimited hfits hfull => ?_⟩
  · rw [list_eq_print] at hroom
    rw [list_eq_print, list_eq_print, Session.call_limit]
    have hgrows := hcalled path session
    cases hcall : session.call backend (.aclStatus path) with
    | mk reply later =>
      rw [hcall] at hgrows hroom
      cases reply with
      | error error => rfl
      | ok status =>
        have hlater : later.Fits n channel := (later.grows_print backend _).fits hroom
        simp only [(hgrows.unlimited_iff.mpr hunlimited).print_limit hlater, if_pos hroom,
          (hgrows.unlimited_iff.mpr hunlimited).print_fst]
  · rw [list_eq_print] at hfull
    rw [list_eq_print, list_eq_print, Session.call_limit]
    have hgrows := hcalled path session
    have hlater : (session.call backend (.aclStatus path)).2.Fits n channel := hfits.withStore _
    cases hcall : session.call backend (.aclStatus path) with
    | mk reply later =>
      rw [hcall] at hgrows hfull hlater
      cases reply with
      | error error => exact absurd hlater hfull
      | ok status =>
        simp only [(hgrows.unlimited_iff.mpr hunlimited).print_limit hlater, if_neg hfull,
          (hgrows.unlimited_iff.mpr hunlimited).print_fst]
        exact ⟨rfl, rfl⟩

end PathAction

/-! ## Runs with a limit -/

namespace Run

variable {backend : Backend σ} {action : PathAction σ} {session : Session σ} {n : Nat}
  {channel : Channel}

/-- A result as it is with a limit on an output: it is an error if something does not fit. -/
def cut (n : Nat) (channel : Channel) (whole : Except SystemError α × Session σ) :
    Except SystemError α × Session σ :=
  (if whole.2.Fits n channel then whole.1 else .error .brokenPipe, whole.2.limit n channel)

/-- Going on without the outputs is the same with a limit. -/
theorem andThen_cut (f : α → β) (whole : Except SystemError α × Session σ) :
    andThen (cut n channel whole) (fun value session => (.ok (f value), session)) =
      cut n channel (andThen whole fun value session => (.ok (f value), session)) := by
  obtain ⟨result, session⟩ := whole
  by_cases hfits : session.Fits n channel
  · cases result <;> simp [cut, andThen, hfits]
  · cases result <;> simp [cut, andThen, hfits]

/-- With a limit a report fails if its diagnostic does not fit. -/
theorem report_limit (hunlimited : session.Unlimited) (hfits : session.Fits n channel)
    (error : ToolError) :
    (session.limit n channel).report error = cut n channel (session.report error) := by
  by_cases houtput : ∃ failure, error = .output failure
  · obtain ⟨failure, rfl⟩ := houtput
    simp [Session.report, cut, hfits]
  · have herror : ∀ failure, error ≠ .output failure :=
      fun failure hfailure => houtput ⟨failure, hfailure⟩
    have htell : (session.limit n channel).tell error.message =
        cut n channel (session.tell error.message) := by
      rw [hunlimited.tell_limit hfits, cut, hunlimited.tell_fst]
    rw [report_eq_andThen _ herror, report_eq_andThen _ herror, htell, andThen_cut]

/-- With a limit the step for an item fails if the item leads to something that does not fit. -/
theorem settle_limit (haction : action.Limited) (hadds : action.Adds backend)
    (hunlimited : session.Unlimited) (hfits : session.Fits n channel) (tally : Tally)
    (item : WalkItem) :
    settle action tally (session.limit n channel) item =
      cut n channel (settle action tally session item) := by
  cases item with
  | error error =>
    simp only [settle, visit]
    rw [report_limit hunlimited hfits, andThen_cut]
  | ok status =>
    have hacted := hadds status.path session
    have hroom := haction.fits status.path session n channel hunlimited hfits
    have hfull := haction.full status.path session n channel hunlimited hfits
    simp only [settle, visit]
    cases hact : action status.path session with
    | mk result later =>
      rw [hact] at hacted hroom hfull
      by_cases hlater : later.Fits n channel
      · rw [hroom hlater]
        cases result with
        | ok => simp [cut, hlater]
        | error error =>
          simp only
          rw [report_limit (hacted.unlimited_iff.mpr hunlimited) hlater, andThen_cut]
      · obtain ⟨rfl, hlimited⟩ := hfull hlater
        simp [hlimited, cut, hlater, Session.report, andThen]

/-- How a result with a limit on an output comes from the one without limits. Where everything fits,
there is no difference. Otherwise the run has stopped in a state that the other one has passed, and
in which something did not fit any more. -/
inductive Truncates (backend : Backend σ) (n : Nat) (channel : Channel)
    (whole : Except SystemError α × Session σ) : Except SystemError α × Session σ → Prop where
  /-- Everything fits. -/
  | fits (hfits : whole.2.Fits n channel) :
      Truncates backend n channel whole (whole.1, whole.2.limit n channel)
  /-- The run has stopped. -/
  | full {stop : Session σ} (hfull : ¬ stop.Fits n channel) (hgrows : stop.Grows backend whole.2) :
      Truncates backend n channel whole (.error .brokenPipe, stop.limit n channel)

/-- A step that fails if something does not fit stops right there. -/
theorem truncates_cut (backend : Backend σ) (n : Nat) (channel : Channel)
    (whole : Except SystemError α × Session σ) :
    Truncates backend n channel whole (cut n channel whole) := by
  rw [cut]
  by_cases hfits : whole.2.Fits n channel
  · rw [if_pos hfits]
    exact .fits hfits
  · rw [if_neg hfits]
    exact .full hfits (.refl backend _)

/-- One thing after the other stops at the first one that does not fit. -/
theorem Truncates.andThen {first part : Except SystemError α × Session σ}
    (h : Truncates backend n channel first part)
    {next : α → Session σ → Except SystemError β × Session σ}
    (hnext : ∀ value, first.2.Fits n channel →
      Truncates backend n channel (next value first.2) (next value (first.2.limit n channel)))
    (hgrows : ∀ value, first.2.Grows backend (next value first.2).2) :
    Truncates backend n channel (andThen first next) (andThen part next) := by
  obtain ⟨result, later⟩ := first
  cases h with
  | fits hfits =>
    cases result with
    | ok value => exact hnext value hfits
    | error failure => exact .fits hfits
  | full hfull hstop =>
    cases result with
    | ok value => exact .full hfull (hstop.trans (hgrows value))
    | error failure => exact .full hfull hstop

/-- With a limit a run stops at the first item that leads to something that does not fit. -/
theorem visitAll_limit (haction : action.Limited) (hadds : action.Adds backend)
    (hunlimited : session.Unlimited) (hfits : session.Fits n channel) (steps : Nat)
    (pending : List WalkItem) (tally : Tally) :
    Truncates backend n channel (visitAll backend action steps pending tally session)
      (visitAll backend action steps pending tally (session.limit n channel)) := by
  induction steps generalizing pending tally session with
  | zero => exact .fits hfits
  | succ steps ih =>
    cases pending with
    | nil =>
      rw [visitAll_nil, visitAll_nil]
      exact .fits hfits
    | cons item rest =>
      obtain ⟨after, calls, hstep⟩ := visitAll_cons backend item rest session.store
      have hcalled := session.grows_afterCalls backend calls
      have hsettled := hcalled.trans (grows_settle hadds tally _ item)
      rw [hstep action session rfl, hstep action _ (session.limit_store n channel),
        Session.limit_withStore,
        settle_limit haction hadds (hcalled.unlimited_iff.mpr hunlimited) (hfits.withStore _)]
      refine (truncates_cut backend n channel _).andThen (fun tally hroom => ?_) fun tally => ?_
      · exact ih (hsettled.unlimited_iff.mpr hunlimited) hroom after tally
      · exact grows_visitAll hadds steps after tally _

/-- With a limit an invocation stops at the first thing that does not fit. -/
theorem invocation_limit {Action : Type} (haction : action.Limited) (hadds : action.Adds backend)
    (hunlimited : session.Unlimited) (hfits : session.Fits n channel)
    (asked : Invocation Action) :
    Truncates backend n channel (invocation backend asked action session)
      (invocation backend asked action (session.limit n channel)) := by
  obtain ⟨steps, pending, visited, calls, hrun⟩ :=
    invocation_eq_visitAll backend asked session.store
  have hcalled := session.grows_afterCalls backend calls
  rw [hrun action session rfl, hrun action _ (session.limit_store n channel),
    Session.limit_withStore]
  refine (visitAll_limit haction hadds (hcalled.unlimited_iff.mpr hunlimited) (hfits.withStore _)
    steps pending ⟨visited, []⟩).andThen (fun tally hroom => ?_) fun tally => .refl backend _
  exact .fits hroom

end Run

end PosixAcl
