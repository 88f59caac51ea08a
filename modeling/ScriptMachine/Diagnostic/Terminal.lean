import ScriptMachine.Diagnostic.Basic
import ScriptMachine.Source.Lines
import ScriptMachine.Text.Layout

/-!
# Diagnostics on a terminal

A diagnostic is shown with the source line of its first primary label and carets under the
label's bytes, as far as they lie on that line and at least one. Colours are an option; they add
escape sequences and change nothing else.
-/

namespace ScriptMachine.Diagnostic

open ScriptMachine.Text

/-- The colours that parts of a diagnostic have. -/
inductive Style
  | bold | boldRed | cyan | dim
deriving DecidableEq

/-- The parameters of a style's escape sequence. -/
def Style.parameters : Style → String
  | bold => "1"
  | boldRed => "1;31"
  | cyan => "36"
  | dim => "2"

/-- A text in a style, if colours are wanted. -/
def paint (color : Bool) (style : Style) (s : String) : String :=
  if color then s!"\x1b[{style.parameters}m{s}\x1b[0m" else s

/-- The first line: the code and the message. -/
def headline (color : Bool) (d : Diagnostic) : String :=
  let head := match d.code with
    | some code => s!"error[{code}]"
    | none => "error"
  s!"{paint color .boldRed head}: {paint color .bold d.message}\n"

/-- The arrow in front of a position. -/
def arrow (color : Bool) : String := paint color .cyan "-->"

/-- The number of carets for a span that starts in column `column` of a line. -/
def caretCount (span : Source.Span) (line : String) (column : Nat) : Nat :=
  let room := max 1 (line.utf8ByteSize - (column - 1))
  min (max 1 (span.stop - span.start)) room

/-- The source line of a label with carets under its bytes, if the label starts in one. -/
def snippet (color : Bool) (source : Source.Lines) (label : Label) : Option String := do
  let (line, column) ← source.lookup label.span.start
  let text := source.text line
  let number := toString line
  let pad := repeated ' ' number.length
  let pipe := paint color .cyan "|"
  let carets := paint color .boldRed (repeated '^' (caretCount label.span text column))
  let indent := repeated ' ' (column - 1)
  let remark := if label.message.isEmpty then "" else " " ++ paint color .boldRed label.message
  return s!"  {arrow color} {line}:{column}\n" ++
    s!"{pad} {pipe}\n" ++
    s!"{paint color .cyan number} {pipe} {text}\n" ++
    s!"{pad} {pipe} {indent}{carets}{remark}\n" ++
    s!"{pad} {pipe}\n"

/-- Where the diagnostic is about: a snippet if there is a source and a primary label, else its
line. -/
def place (color : Bool) (d : Diagnostic) (source : Option Source.Lines) : Option String :=
  match d.labels.find? Label.primary, source, d.line with
  | some label, some source, _ => snippet color source label
  | _, _, some line => some s!"  {arrow color} line {line}\n"
  | _, _, none => some ""

/-- A line below the snippet. -/
def remarkLine (color : Bool) (text : String) : String :=
  let mark := paint color .dim "="
  s!"  {mark} {text}\n"

/-- A label that is not primary, with its position if there is a source. -/
def secondary (color : Bool) (source : Option Source.Lines) (label : Label) : Option String :=
  match source with
  | some source => do
    let (line, column) ← source.lookup label.span.start
    return remarkLine color s!"{label.message} at {line}:{column}"
  | none => some (remarkLine color label.message)

/-- A diagnostic as text for a terminal, if its labels start in lines of the source. -/
def render (d : Diagnostic) (color : Bool) : Option String := do
  let source := d.source.map Source.Lines.ofText
  let shown ← place color d source
  let others ← (d.labels.filter fun l => !l.primary).mapM (secondary color source)
  return headline color d ++ shown ++ String.join others ++
    String.join (d.notes.map fun note => remarkLine color s!"note: {note}") ++
    String.join (d.suggestion.toList.map fun text => remarkLine color s!"help: {text}")

end ScriptMachine.Diagnostic
