import PosixAcl.Settings
import PosixAcl.Proofs.Entry.Grammar
import PosixAcl.Proofs.Text.Utf8

/-!
# What the variables ask for

Both variables are read up to the white space at their ends, and one with nothing
else in it counts as unset. The settings that come out can be written into the
variables and are then read as they are.
-/

namespace PosixAcl

namespace LogFormat

/-- A text names a layout exactly if it is the name of the layout, up to white space at its ends
and to case. -/
theorem ofName?_eq_some_iff {s : Text} {format : LogFormat} :
    ofName? s = some format ↔ (trim s).map Char.toLower = format.name := by
  unfold ofName?
  generalize (trim s).map Char.toLower = lower
  constructor
  · intro h
    have hname := List.find?_some h
    exact (of_decide_eq_true hname).symm
  · rintro rfl
    cases format <;> rfl

theorem name_ne_nil (format : LogFormat) : format.name ≠ [] := by
  cases format <;> decide

/-- There is no white space at the ends of the name of a layout. -/
theorem strips_name (format : LogFormat) : Strips format.name format.name := by
  cases format <;> exact strips_iff.mpr (by decide +kernel)

/-- The name of a layout reads back as that layout. -/
theorem ofName?_name (format : LogFormat) : ofName? format.name = some format := by
  rw [ofName?_eq_some_iff, format.strips_name.trim_eq]
  cases format <;> decide +kernel

end LogFormat

namespace LogConfig

/-- A variable asks for a text exactly if this is what is left of its value without the white space
at its ends, and if anything is left. -/
theorem nonBlank?_eq_some_iff {value : Option Bytes} {text : Text} :
    nonBlank? value = some text ↔
      text ≠ [] ∧ ∃ bytes, value = some bytes ∧ Strips (Utf8.decodeLossy bytes) text := by
  cases value with
  | none => simp [nonBlank?]
  | some bytes =>
    simp only [nonBlank?, Option.map_some, Option.some.injEq, exists_eq_left', strips_iff]
    cases trim (Utf8.decodeLossy bytes) with
    | nil => simp +contextual
    | cons c rest =>
      simp only [Option.some.injEq]
      exact ⟨fun h => ⟨h ▸ List.cons_ne_nil c rest, h⟩, And.right⟩

/-- A text that is neither empty nor surrounded by white space is asked for by writing it. -/
theorem nonBlank?_encode {text : Text} (hne : text ≠ []) (hstrips : Strips text text) :
    nonBlank? (some (Utf8.encode text)) = some text :=
  nonBlank?_eq_some_iff.mpr ⟨hne, _, rfl, (Utf8.decodeLossy_encode text).symm ▸ hstrips⟩

variable {directives format : Option Bytes}

/-- The full layout is chosen exactly if the second variable names it. -/
theorem format_ofEnvironment_eq_full_iff :
    (ofEnvironment directives format).format = .full ↔
      ∃ text, nonBlank? format = some text ∧ text.map Char.toLower = LogFormat.full.name := by
  have hnames : ∀ text, nonBlank? format = some text →
      (LogFormat.ofName? text = some .full ↔ text.map Char.toLower = LogFormat.full.name) := by
    intro text htext
    obtain ⟨-, bytes, -, hstrips⟩ := nonBlank?_eq_some_iff.mp htext
    rw [LogFormat.ofName?_eq_some_iff, hstrips.self.trim_eq]
  have hdefault : ∀ asked : Option LogFormat, asked.getD .compact = .full ↔ asked = some .full := by
    intro asked
    cases asked <;> simp
  rw [ofEnvironment, hdefault, Option.bind_eq_some_iff]
  exact exists_congr fun text => and_congr_right (hnames text)

/-- The directives are never blank, and there is no white space at their ends. -/
theorem strips_directives :
    (ofEnvironment directives format).directives ≠ [] ∧
      Strips (ofEnvironment directives format).directives
        (ofEnvironment directives format).directives := by
  rw [ofEnvironment]
  cases htext : nonBlank? directives with
  | none => exact ⟨List.cons_ne_nil _ _, strips_iff.mpr rfl⟩
  | some text =>
    obtain ⟨hne, bytes, -, hstrips⟩ := nonBlank?_eq_some_iff.mp htext
    exact ⟨hne, hstrips.self⟩

/-- Settings that were read are read again from the two values that stand for them. -/
theorem ofEnvironment_encode :
    let config := ofEnvironment directives format
    ofEnvironment (some (Utf8.encode config.directives)) (some (Utf8.encode config.format.name)) =
      config := by
  intro config
  obtain ⟨hne, hstrips⟩ := @strips_directives directives format
  have hdirectives : nonBlank? (some (Utf8.encode config.directives)) = some config.directives :=
    nonBlank?_encode hne hstrips
  have hname : nonBlank? (some (Utf8.encode config.format.name)) = some config.format.name :=
    nonBlank?_encode config.format.name_ne_nil config.format.strips_name
  rw [ofEnvironment, hdirectives, hname, Option.bind_some, LogFormat.ofName?_name]
  rfl

/-- An environment with the settings written into the two variables. -/
def written (config : LogConfig) (environment : String → Option Bytes) : String → Option Bytes :=
  fun name =>
    if name = directivesVariable then some (Utf8.encode config.directives)
    else if name = formatVariable then some (Utf8.encode config.format.name)
    else environment name

/-- Settings that were read in one environment can be written into another one, and are then read
there. -/
theorem read_written (environment other : String → Option Bytes) :
    read ((read environment).written other) = read environment := by
  have hdifferent : formatVariable ≠ directivesVariable := by decide
  rw [read, written, written, if_pos rfl, if_neg hdifferent, if_pos rfl]
  exact ofEnvironment_encode

end LogConfig

end PosixAcl
