import ScriptMachine.Token.Basic

/-!
# Compile errors

Everything a source can be refused for, with its stable code, its wording and, where one is
obvious, a mend to suggest.
-/

namespace ScriptMachine.Compile

/-- The deepest nesting of expressions, statements and declarations. -/
def maxNesting : Nat := 128

/-- The tokens that the grammar asks for at one place. -/
inductive Expectation
  | className | superclassName | classOpen | classClose | methodDef | methodName
  | functionName | parametersOpen | parameterName | parametersClose | bodyOpen
  | variableName | declarationEnd | valueEnd | expressionEnd | blockClose
  | ifOpen | conditionClose | whileOpen | doWhile | doWhileEnd
  | forOpen | loopConditionEnd | forClose | returnEnd
  | groupClose | argumentsClose | propertyName | superDot | superName
deriving DecidableEq

/-- An expectation in words. -/
def Expectation.phrase : Expectation → String
  | className => "class name"
  | superclassName => "superclass name"
  | classOpen => "'\x7b' before class body"
  | classClose => "'\x7d' after class body"
  | methodDef => "'def' before method"
  | methodName => "method name"
  | functionName => "function name"
  | parametersOpen => "'(' after function name"
  | parameterName => "parameter name"
  | parametersClose => "')' after parameters"
  | bodyOpen => "'\x7b' before function body"
  | variableName => "variable name"
  | declarationEnd => "';' after variable declaration"
  | valueEnd => "';' after value"
  | expressionEnd => "';' after expression"
  | blockClose => "'\x7d' after block"
  | ifOpen => "'(' after 'if'"
  | conditionClose => "')' after condition"
  | whileOpen => "'(' after 'while'"
  | doWhile => "'while' after do body"
  | doWhileEnd => "';' after do-while condition"
  | forOpen => "'(' after 'for'"
  | loopConditionEnd => "';' after loop condition"
  | forClose => "')' after for clauses"
  | returnEnd => "';' after return value"
  | groupClose => "')' after expression"
  | argumentsClose => "')' after arguments"
  | propertyName => "property name after '.'"
  | superDot => "'.' after 'super'"
  | superName => "superclass method name"

/-- What is wrong with a source. -/
inductive Problem
  | lexical (p : Token.Problem)
  | expected (what : Expectation) (found : String)
  | expectedExpression (found : String)
  | invalidAssignmentTarget
  | ownInitializer (name : String)
  | duplicateLocal (name : String) (previous : Source.Span)
  | tooManyLocals
  | tooManyUpvalues
  | tooManyParameters
  | tooManyArguments
  | tooManyConstants
  | jumpTooLarge
  | loopTooLarge
  | returnAtTopLevel
  | thisOutsideClass
  | superOutsideClass
  | superWithoutSuperclass
  | inheritFromSelf
  | tooDeeplyNested
deriving DecidableEq

namespace Problem

/-- The stable code of a problem. -/
def code : Problem → String
  | lexical p => p.code
  | expected _ _ => "NYR-C001"
  | expectedExpression _ => "NYR-C002"
  | invalidAssignmentTarget => "NYR-C003"
  | ownInitializer _ => "NYR-C004"
  | duplicateLocal _ _ => "NYR-C005"
  | tooManyLocals => "NYR-C006"
  | tooManyUpvalues => "NYR-C007"
  | tooManyParameters => "NYR-C008"
  | tooManyArguments => "NYR-C009"
  | tooManyConstants => "NYR-C010"
  | jumpTooLarge => "NYR-C011"
  | loopTooLarge => "NYR-C012"
  | returnAtTopLevel => "NYR-C013"
  | thisOutsideClass => "NYR-C014"
  | superOutsideClass => "NYR-C015"
  | superWithoutSuperclass => "NYR-C016"
  | inheritFromSelf => "NYR-C017"
  | tooDeeplyNested => "NYR-C018"

/-- A problem in words. -/
def message : Problem → String
  | lexical p => p.message
  | expected what found => s!"expected {what.phrase}, found {found}"
  | expectedExpression found => s!"expected expression, found {found}"
  | invalidAssignmentTarget => "invalid assignment target"
  | ownInitializer name => s!"can't read local variable '{name}' in its own initializer"
  | duplicateLocal name _ => s!"already a variable named '{name}' in this scope"
  | tooManyLocals => "too many local variables in function"
  | tooManyUpvalues => "too many closure variables in function"
  | tooManyParameters => "can't have more than 255 parameters"
  | tooManyArguments => "can't have more than 255 arguments"
  | tooManyConstants => "too many constants in one chunk"
  | jumpTooLarge => "too much code to jump over"
  | loopTooLarge => "loop body too large"
  | returnAtTopLevel => "can't return from top-level code"
  | thisOutsideClass => "can't use 'this' outside of a class"
  | superOutsideClass => "can't use 'super' outside of a class"
  | superWithoutSuperclass => "can't use 'super' in a class with no superclass"
  | inheritFromSelf => "a class can't inherit from itself"
  | tooDeeplyNested => s!"code nested more than {maxNesting} levels deep"

/-- The mend to suggest, where one is obvious. -/
def suggestion? : Problem → Option String
  | lexical p => p.suggestion?
  | expected .expressionEnd _ => some "statements end with ';'"
  | expected .valueEnd _ => some "statements end with ';'"
  | ownInitializer name => some s!"give the new variable a name other than '{name}'"
  | inheritFromSelf => some "name a different class after ':'"
  | tooDeeplyNested => some "move part of the nested code into a function or a variable"
  | _ => none

/-- The place of an earlier declaration that a problem is also about. -/
def previous? : Problem → Option Source.Span
  | duplicateLocal _ previous => some previous
  | _ => none

end Problem

end Compile

/-- A problem with its place in the source. -/
abbrev CompileError := Source.Located Compile.Problem

/-- A compile error with its line in front. -/
def CompileError.display (e : CompileError) : String := Source.withLine e.line e.kind.message

end ScriptMachine
