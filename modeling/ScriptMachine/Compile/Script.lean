import ScriptMachine.Compile.Statement
import ScriptMachine.Token.Scan

/-!
# Compiling a script

The forms are tied together: each form runs one level deeper than the one it stands in, and what it
contains is read by the same parsers. A script is compiled into a function without name and
parameters, or refused with at most twenty errors in the order of the source.
-/

namespace ScriptMachine.Compile

/-- The parsers, with forms that stand in each other at most `room` deep. -/
def parsers : (room : Nat) → Parsers
  | 0 =>
    { declaration := recovering (failHere .tooDeeplyNested)
      statement := failHere .tooDeeplyNested
      expression := fun _ => failHere .tooDeeplyNested }
  | room + 1 =>
    let inner := parsers room
    { declaration := recovering (nested (declarationBody inner))
      statement := nested (statementBody inner)
      expression := fun p => nested (expressionBody inner.expression p) }

/-- The parsers of the compiler. No form is called deeper than this: one that is nested too deeply
stops before. -/
abbrev parser : Parsers := parsers (maxNesting + 1)

/-- Declarations up to the end of the source or too many errors. -/
def program (declaration : Compiler Unit) : (fuel : Nat) → Compiler Unit
  | 0 => pure ()
  | fuel + 1 => do
    if !(← look fun s => s.atEnd || maxErrors ≤ s.errors.size) then
      declaration
      program declaration fuel

/-- The state before the first token of a source. -/
def State.start (source : String) (heap : Heap) (outer : List Handle) : State :=
  let reading := Token.read source
  { tokens := reading.tokens
    pos := 0
    sourceBytes := source.utf8ByteSize
    heap := heap
    outer := outer
    draft := Draft.start .script none
    enclosing := []
    classes := []
    nesting := 0
    errors := reading.problems.map fun p => ⟨.lexical p.kind, p.span, p.line⟩ }

/-- The errors to report, in the order of the source. -/
def State.reported (s : State) : List CompileError :=
  (s.errors.toList.mergeSort fun a b => a.span.start ≤ b.span.start).take maxErrors

/-- A whole script; the answer is its function if there were no errors. Every declaration takes a
token, so the tokens bound their number. -/
def script : Compiler (Option Handle) := do
  let left ← look State.remaining
  program parser.declaration left
  emitReturn
  if ← look fun s => s.errors.isEmpty then
    let (function, _) ← finishFunction
    return some function
  else return none

/-- What compiling a source comes to. -/
inductive Result
  | function (r : Handle)
  | errors (es : List CompileError)
  | fault (f : Fault)

/-- Compiles a source on a heap, with `outer` kept alive. -/
def compile (source : String) (heap : Heap) (outer : List Handle) : Result × Heap :=
  match script (State.start source heap outer) with
  | .ok (some r) s => (.function r, s.heap)
  | .ok none s => (.errors s.reported, s.heap)
  | .error (.problem e) s => (.errors [e], s.heap)
  | .error (.fault f) s => (.fault f, s.heap)

end ScriptMachine.Compile
