import ScriptMachine.Token.Basic

/-!
# Runtime errors

Everything a running script can fail by, with its stable code, its wording and a mend to suggest,
and the report of a failure: the error, its line, and the functions that were active.
-/

namespace ScriptMachine

/-- What an operator asks of its operands. -/
inductive OperandRule
  | number
  | numbers
  | numbersOrStrings
deriving DecidableEq

/-- A rule for operands in words. -/
def OperandRule.phrase : OperandRule → String
  | number => "a number"
  | numbers => "numbers"
  | numbersOrStrings => "two numbers or two strings"

/-- An error of a running script. -/
inductive RuntimeError
  | typeMismatch (operator : Symbol) (rule : OperandRule) (found : List String)
  | undefinedVariable (name : String)
  | undefinedProperty (name : String)
  | notCallable (found : String)
  | arityMismatch (expected got : UInt8)
  | stackOverflow
  | notAnInstance (found : String)
  | invalidSuperclass (found : String)
  | native (name message : String)
  | output (message : String)
deriving DecidableEq

namespace RuntimeError

/-- The stable code of an error. -/
def code : RuntimeError → String
  | typeMismatch _ _ _ => "NYR-R001"
  | undefinedVariable _ => "NYR-R002"
  | undefinedProperty _ => "NYR-R003"
  | notCallable _ => "NYR-R004"
  | arityMismatch _ _ => "NYR-R005"
  | stackOverflow => "NYR-R006"
  | notAnInstance _ => "NYR-R007"
  | invalidSuperclass _ => "NYR-R008"
  | native _ _ => "NYR-R009"
  | output _ => "NYR-R010"

/-- An error in words. -/
def message : RuntimeError → String
  | typeMismatch operator rule found =>
    let types := " and ".intercalate found
    s!"operand of '{operator.spelling}' must be {rule.phrase}, found {types}"
  | undefinedVariable name => s!"undefined variable '{name}'"
  | undefinedProperty name => s!"undefined property '{name}'"
  | notCallable found => s!"can only call functions and classes, found {found}"
  | arityMismatch expected got => s!"expected {expected} arguments but got {got}"
  | stackOverflow => "stack overflow"
  | notAnInstance found => s!"only instances have properties, found {found}"
  | invalidSuperclass found => s!"superclass must be a class, found {found}"
  | native name message => s!"{name}(): {message}"
  | output message => s!"failed to write output: {message}"

/-- The mend to suggest, where one is obvious. -/
def suggestion? : RuntimeError → Option String
  | undefinedVariable name => some s!"declare it first with 'let {name} = ...;'"
  | stackOverflow => some "check for unbounded recursion, or raise --max-frames"
  | _ => none

end RuntimeError

/-- An active function and the line it was at. -/
structure TraceEntry where
  function : String
  line : UInt32
deriving DecidableEq

/-- A runtime error with its line and the active functions, the innermost first. -/
structure Failure where
  error : RuntimeError
  line : UInt32
  trace : List TraceEntry

/-- A failure with its line in front. -/
def Failure.display (f : Failure) : String := Source.withLine f.line f.error.message

end ScriptMachine
