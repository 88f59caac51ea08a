/-!
# Spans of source text

Positions count bytes of the encoded text from zero, lines are counted from one.
-/

namespace ScriptMachine.Source

/-- The bytes from `start` up to and without `stop`. -/
structure Span where
  start : Nat
  stop : Nat
deriving DecidableEq, Repr

/-- The span of no text, held by names that the source does not spell. -/
def Span.none : Span := ⟨0, 0⟩

/-- The number of bytes that encode a list of characters. -/
def byteLength (cs : List Char) : Nat := cs.foldl (fun n c => n + c.utf8Size) 0

/-- A thing, the text it is about and the line that is reported for it. -/
structure Located (α : Type) where
  kind : α
  span : Span
  line : UInt32

/-- A message with its line in front. -/
def withLine (line : UInt32) (message : String) : String := s!"[line {line}] {message}"

end ScriptMachine.Source
