/-!
# Journals

A journal keeps the events that a machine reports while it works, in their order. How much it
keeps is set once: nothing, the coarse events, or all of them.
-/

namespace ScriptMachine

/-- How fine an event is. -/
inductive Severity
  | debug
  | trace
deriving DecidableEq

/-- The word for a severity. -/
def Severity.label : Severity → String
  | debug => "DEBUG"
  | trace => "TRACE"

/-- The events kept so far; `level` is the finest severity kept, if any is. -/
structure Journal where
  level : Option Severity
  events : Array (Severity × String)

namespace Journal

/-- The journal that keeps nothing. -/
def off : Journal := ⟨none, #[]⟩

/-- Whether events of a severity are kept. -/
def keeps (j : Journal) (s : Severity) : Bool :=
  match j.level, s with
  | none, _ => false
  | some .trace, _ => true
  | some .debug, .debug => true
  | some .debug, .trace => false

/-- Keeps an event if its severity is kept; its text is made only then. -/
@[inline] def note (j : Journal) (s : Severity) (text : Unit → String) : Journal :=
  if j.keeps s then { j with events := j.events.push (s, text ()) } else j

/-- An event as one line: its severity and its text. -/
def render (event : Severity × String) : String := s!"{event.1.label} {event.2}"

end Journal

end ScriptMachine
