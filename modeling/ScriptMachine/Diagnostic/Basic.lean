import ScriptMachine.Compile.Problem
import ScriptMachine.Machine.Failure

/-!
# Diagnostics

What is reported to a user: a message, a stable code, the places it is about, notes and a
suggestion. Compile errors point at their span in the source; runtime errors have a line and a
note for each active function.
-/

namespace ScriptMachine

/-- A place that a diagnostic is about; one primary place is shown in the source. -/
structure Label where
  span : Source.Span
  message : String
  primary : Bool

/-- A report to the user. -/
structure Diagnostic where
  message : String
  code : Option String
  line : Option UInt32
  labels : List Label
  notes : List String
  suggestion : Option String
  source : Option String

namespace Diagnostic

/-- The report of a compile error. -/
def ofCompileError (e : CompileError) (source : Option String) : Diagnostic where
  message := e.kind.message
  code := some e.kind.code
  line := some e.line
  labels := ⟨e.span, "here", true⟩ ::
    (e.kind.previous?.map (⟨·, "first declared here", false⟩)).toList
  notes := []
  suggestion := e.kind.suggestion?
  source := source

/-- The report of a runtime error. -/
def ofFailure (f : Failure) : Diagnostic where
  message := f.error.message
  code := some f.error.code
  line := some f.line
  labels := []
  notes := f.trace.map fun entry => s!"in {entry.function} at line {entry.line}"
  suggestion := f.error.suggestion?
  source := none

end Diagnostic

end ScriptMachine
