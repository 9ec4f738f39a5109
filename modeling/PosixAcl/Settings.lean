import PosixAcl.Text.Blank
import PosixAcl.Text.Utf8

/-!
# Settings of the log

Two environment variables say what is logged and in which layout. A variable that is unset or blank
leaves the default, and so does an unknown layout.
-/

namespace PosixAcl

/-- The layouts of the log. -/
inductive LogFormat where
  /-- Level and message only. -/
  | compact
  /-- Everything that is known about an event. -/
  | full
deriving DecidableEq, Repr

namespace LogFormat

/-- The name of a layout. -/
def name : LogFormat → Text
  | .compact => "compact".toList
  | .full => "full".toList

/-- The layout with the given name. White space around it and the case of ASCII letters do not
matter. -/
def ofName? (s : Text) : Option LogFormat :=
  [compact, full].find? fun format => format.name = (trim s).map Char.toLower

/-- The text that reports an unknown name. -/
def unknownMessage (s : Text) : Text :=
  "unknown log format '".toList ++ s ++ "' (expected compact or full)".toList

end LogFormat

/-- What is logged, and how. -/
structure LogConfig where
  /-- The filter directives. -/
  directives : Text := "warn".toList
  /-- The layout. -/
  format : LogFormat := .compact
deriving DecidableEq, Repr

namespace LogConfig

/-- The environment variable with the filter directives. -/
def directivesVariable : String := "OC_FACL_LOG"

/-- The environment variable with the name of the layout. -/
def formatVariable : String := "OC_FACL_LOG_FORMAT"

/-- The trimmed text of a variable that is set and not blank. -/
def nonBlank? (value : Option Bytes) : Option Text :=
  match value.map fun bytes => trim (Utf8.decodeLossy bytes) with
  | some (c :: rest) => some (c :: rest)
  | _ => none

/-- The settings that the values of the two variables ask for. -/
def ofEnvironment (directives format : Option Bytes) : LogConfig where
  directives := (nonBlank? directives).getD "warn".toList
  format := ((nonBlank? format).bind LogFormat.ofName?).getD .compact

/-- The settings that an environment asks for. -/
def read (environment : String → Option Bytes) : LogConfig :=
  ofEnvironment (environment directivesVariable) (environment formatVariable)

end LogConfig

end PosixAcl
