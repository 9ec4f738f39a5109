import PosixAcl.Output.Sink
import PosixAcl.Proofs.Output.Limit

/-!
# Sequences of messages

A sink writes each message in several pieces, and an output with a limit can cut it
off in any of them. The sink goes on with the next message all the same, and with
its own line mode. So the output keeps the first bytes of all messages together, and
a message fails exactly if it ends beyond the limit.
-/

namespace PosixAcl

/-- Line modes are told apart by whether they append a newline, and there is one for each answer. -/
theorem LineMode.ofBool_eq_iff {answer : Bool} {mode : LineMode} :
    LineMode.ofBool answer = mode ↔ mode.appendsNewline = answer := by
  cases answer <;> cases mode <;> decide

/-- A message that is handed to a sink. -/
structure Message where
  /-- The text of the message. -/
  text : Text
  /-- The line mode that is asked for. Without one, it is that of the sink. -/
  lineMode? : Option LineMode := none
deriving DecidableEq, Repr

/-- What a message shows: the name of the program, a colon and a blank before the text, and a
newline after it if its line mode asks for one. -/
def Message.shown (program : Text) (own : LineMode) (message : Message) : Text :=
  program ++ [':', ' '] ++ message.text ++
    match message.lineMode?.getD own with
    | .withNewline => ['\n']
    | .withoutNewline => []

namespace MessageSink

/-- Writes a message, in the line mode that is asked for or in the sink's own one. -/
def post (sink : MessageSink) (message : Message) : Except SystemError Unit × MessageSink :=
  match message.lineMode? with
  | none => sink.write message.text
  | some mode => sink.writeWithMode message.text mode

/-- Writes several messages one after the other, whether they fail or not. -/
def postAll (sink : MessageSink) : List Message → List (Except SystemError Unit) × MessageSink
  | [] => ([], sink)
  | message :: rest =>
    let (result, sink) := sink.post message
    let (results, last) := sink.postAll rest
    (result :: results, last)

/-- A message is written in the pieces that show it. -/
theorem post_eq (sink : MessageSink) (message : Message) :
    sink.post message =
      sink.writeWithMode message.text (message.lineMode?.getD sink.lineMode) := by
  unfold post
  cases message.lineMode? <;> rfl

/-- The pieces of a message make up what it shows. -/
theorem flatten_pieces (program : Text) (own : LineMode) (message : Message) :
    (pieces program message.text (message.lineMode?.getD own)).flatten =
      message.shown program own := by
  unfold pieces Message.shown
  cases message.lineMode?.getD own <;> simp [LineMode.appendsNewline]

/-- A message shows something, even if neither the program nor its text has a character. -/
theorem encode_shown_ne_nil (program : Text) (own : LineMode) (message : Message) :
    Utf8.encode (message.shown program own) ≠ [] := by
  simp [Message.shown, Utf8.encode, Utf8.encodeChar]

variable {program : Text} {own : LineMode}

/-- A sink on an output with a limit keeps what the message shows within the limit, and fails if
there is no room for all of it. Nothing else in the sink is different. -/
theorem post_limit (out : Output) (n : Nat) (message : Message) :
    post ⟨out.limit n, program, own⟩ message =
      (if (out.kept ++ Utf8.encode (message.shown program own)).length ≤ n then .ok ()
        else .error .brokenPipe,
        ⟨Output.limit { out with kept := out.kept ++ Utf8.encode (message.shown program own) } n,
          program, own⟩) := by
  have hpieces := flatten_pieces program own message
  have hne : Utf8.encode (pieces program message.text (message.lineMode?.getD own)).flatten ≠ [] :=
    hpieces ▸ encode_shown_ne_nil program own message
  have hwrite := out.writeTexts_limit_of_ne_nil n hne
  rw [hpieces] at hwrite
  simp only [post_eq, writeWithMode, hwrite]

/-- What several messages show. -/
def allShown (program : Text) (own : LineMode) (messages : List Message) : Bytes :=
  Utf8.encode (messages.flatMap (·.shown program own))

theorem allShown_cons (message : Message) (rest : List Message) :
    allShown program own (message :: rest) =
      Utf8.encode (message.shown program own) ++ allShown program own rest := by
  simp [allShown, Utf8.encode]

/-- A sink on an output with a limit keeps what all messages show within the limit. Nothing else in
the sink is different at the end. -/
theorem postAll_limit (out : Output) (n : Nat) (messages : List Message) :
    (postAll ⟨out.limit n, program, own⟩ messages).2 =
      ⟨Output.limit { out with kept := out.kept ++ allShown program own messages } n,
        program, own⟩ := by
  induction messages generalizing out with
  | nil => simp [postAll, allShown, Utf8.encode]
  | cons message rest ih =>
    simp only [postAll, post_limit]
    rw [ih, allShown_cons, ← List.append_assoc]

/-- A message fails if there is no room for all that is shown up to its end. -/
theorem postAll_limit_fst (out : Output) (n : Nat) (messages : List Message) :
    (postAll ⟨out.limit n, program, own⟩ messages).1 =
      (List.range messages.length).map fun i =>
        if (out.kept ++ allShown program own (messages.take (i + 1))).length ≤ n then .ok ()
        else .error .brokenPipe := by
  induction messages generalizing out with
  | nil => rfl
  | cons message rest ih =>
    simp only [postAll, post_limit]
    rw [ih, List.length_cons, List.range_succ_eq_map, List.map_cons, List.map_map]
    refine List.cons_eq_cons.mpr ⟨?_, List.map_congr_left fun i _ => ?_⟩
    · simp [allShown]
    · simp only [Function.comp_apply, Nat.succ_eq_add_one, List.take_succ_cons, allShown_cons,
        List.append_assoc]

/-- Several messages written to an output that has room for `n` bytes, each in the line mode that is
asked for or else in the sink's own. The output keeps the first `n` bytes of all that the messages
show. The message in each place succeeds exactly if all that is shown up to its end fits. The line
mode of the sink and the name of the program stay what they were. -/
theorem postAll_keeps_first_bytes (program : Text) (own : LineMode) (n : Nat) (flushFails : Bool)
    (messages : List Message) :
    let sink : MessageSink := ⟨{ capacity := some n, flushFails }, program, own⟩
    let posted := sink.postAll messages
    posted.2.output.kept = (allShown program own messages).take n ∧
      posted.1.length = messages.length ∧
      (∀ i < messages.length,
        posted.1[i]? = some (.ok ()) ↔
          (allShown program own (messages.take (i + 1))).length ≤ n) ∧
      posted.2.lineMode = own ∧ posted.2.program = program := by
  intro sink posted
  have hsink : sink = ⟨Output.limit { flushFails } n, program, own⟩ := by
    simp [sink, Output.limit]
  have hlast : posted.2 = _ := hsink ▸ postAll_limit { flushFails } n messages
  have hresults : posted.1 = _ := hsink ▸ postAll_limit_fst { flushFails } n messages
  rw [hlast, hresults]
  refine ⟨rfl, by simp, fun i hi => ?_, rfl, rfl⟩
  rw [List.getElem?_map, List.getElem?_range hi]
  by_cases hroom : (allShown program own (messages.take (i + 1))).length ≤ n <;> simp [hroom]

end MessageSink

end PosixAcl
