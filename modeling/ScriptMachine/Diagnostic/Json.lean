import ScriptMachine.Diagnostic.Basic
import ScriptMachine.Source.Lines
import ScriptMachine.Text.Json

/-!
# Diagnostics as JSON

One object on one line for each diagnostic, its fields in alphabetical order; a field without a
value is left out. Labels have a line and a column if there is a source.
-/

namespace ScriptMachine.Diagnostic

open ScriptMachine.Text

/-- The field of an optional value. -/
def optionalField (name : String) (value : Option String) : List (String × String) :=
  value.toList.map fun v => (name, v)

/-- A label as an object, if it starts in a line of the source. -/
def labelJson (source : Option Source.Lines) (label : Label) : Option String := do
  let position ← source.mapM (·.lookup label.span.start)
  return Json.object <|
    optionalField "col" (position.map (toString ·.2)) ++
    [("end", toString label.span.stop)] ++
    optionalField "line" (position.map (toString ·.1)) ++
    [("message", Json.string label.message), ("primary", Json.bool label.primary),
      ("start", toString label.span.start)]

/-- A diagnostic as an object on one line, if its labels start in lines of the source. -/
def toJson (d : Diagnostic) : Option String := do
  let source := d.source.map Source.Lines.ofText
  let labels ← d.labels.mapM (labelJson source)
  return Json.object <|
    optionalField "code" (d.code.map Json.string) ++
    [("labels", Json.array labels)] ++
    optionalField "line" (d.line.map toString) ++
    [("message", Json.string d.message), ("notes", Json.array (d.notes.map Json.string)),
      ("severity", Json.string "error")] ++
    optionalField "suggestion" (d.suggestion.map Json.string)

end ScriptMachine.Diagnostic
