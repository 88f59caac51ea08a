import ScriptMachine.Compile.Expression

/-!
# Statements and declarations

The forms of statements and declarations, over parsers for what they contain. A declaration that
fails is reported and given up: the compiler goes back to the function, the class and the scope
it was in, and goes on at the next token that can start a statement.
-/

namespace ScriptMachine.Compile

/-- The parsers for what stands one level further in. -/
structure Parsers where
  declaration : Compiler Unit
  statement : Compiler Unit
  expression : Precedence → Compiler Unit

/-- Where to go back to after a declaration that failed. -/
structure Checkpoint where
  pos : Nat
  depth : Nat
  classes : Nat
  scopeDepth : Nat
  locals : Nat

/-- The last `n` entries of a list. -/
def keepLast {α : Type} (n : Nat) (xs : List α) : List α := xs.drop (xs.length - n)

/-- Whether a token starts a statement or a declaration by a reserved word. -/
def startsStatement : Token → Bool
  | .keyword .class_ | .keyword .def_ | .keyword .let_ | .keyword .for_ | .keyword .if_
  | .keyword .while_ | .keyword .do_ | .keyword .print_ | .keyword .return_ => true
  | _ => false

/-- The first position from `pos` on, at most `fuel` further, that follows a semicolon or starts
a statement. -/
def resumeAt (tokens : Array Lexeme) : (fuel : Nat) → (pos : Nat) → Nat
  | 0, pos => pos
  | fuel + 1, pos =>
    match tokens[pos]? with
    | none => pos
    | some next =>
      let afterSemicolon := pos > 0 && (tokens[pos - 1]?).any (·.token.isSymbol .semicolon)
      if afterSemicolon || startsStatement next.token then pos else resumeAt tokens fuel (pos + 1)

namespace State

/-- The place to go back to. -/
def checkpoint (s : State) : Checkpoint :=
  ⟨s.pos, s.depth, s.classes.length, s.draft.scopeDepth, s.draft.locals.length⟩

/-- The state with only its outermost `n` drafts. -/
def keepDrafts (s : State) (n : Nat) : State :=
  match keepLast n (s.draft :: s.enclosing) with
  | [] => s
  | draft :: enclosing => { s with draft := draft, enclosing := enclosing }

/-- Reports an error as long as there is room for it. -/
def report (s : State) (e : CompileError) : State :=
  let s := { s with heap := s.heap.note .debug fun _ => s!"compile error: {e.display}" }
  if s.errors.size < maxErrors then { s with errors := s.errors.push e } else s

/-- Goes on after an error: back at the checkpoint's function, classes and scope, at least one
token further, where a statement may start. -/
def recover (s : State) (e : CompileError) (back : Checkpoint) : State :=
  let s := (s.report e).keepDrafts back.depth
  let s := { s with
    classes := keepLast back.classes s.classes
    draft := { s.draft with
      scopeDepth := back.scopeDepth
      locals := keepLast back.locals s.draft.locals } }
  let pos := if s.pos = back.pos && !s.atEnd then s.pos + 1 else s.pos
  { s with pos := resumeAt s.tokens (s.tokens.size - pos) pos }

end State

/-- Runs a declaration and goes on after it whether it fails or not. -/
def recovering (body : Compiler Unit) : Compiler Unit := fun s =>
  let back := s.checkpoint
  match body s with
  | .ok _ s => .ok () s
  | .error (.problem e) s => .ok () (s.recover e back)
  | .error (.fault f) s => .error (.fault f) s

section Forms

variable (inner : Parsers)

/-- A full expression. -/
def expression : Compiler Unit := inner.expression .assignment

/-- Declarations up to the end of a block, of which there are at most `fuel`. -/
def declarations : (fuel : Nat) → Compiler Unit
  | 0 => pure ()
  | fuel + 1 => do
    let done ← look fun s =>
      s.peek?.any (·.isSymbol .rightBrace) || s.atEnd || maxErrors ≤ s.errors.size
    if !done then
      inner.declaration
      declarations fuel

/-- A block after its opening brace. Every declaration takes a token, so the tokens left bound
their number. -/
def block : Compiler Unit := do
  let left ← look State.remaining
  declarations inner left
  expect .rightBrace .blockClose

/-- The number of parameters up to the closing parenthesis, of which there may be `room` more. -/
def parameters : (room : Nat) → Compiler Nat
  | 0 => failHere .tooManyParameters
  | room + 1 => do
    let (_, constant) ← declareName .parameterName
    defineVariable constant
    if ← accept .comma then return (← parameters room) + 1 else return 1

/-- Emits the instruction that makes a closure, and its captures. -/
def emitClosure (function : UInt16) (captures : Array Capture) : Compiler Unit := do
  emit (.closure function)
  let line ← look State.line
  modifyDraft fun d => captures.foldl (fun d c => d.emit c.encode line) d

/-- A function after its name: parameters, body, and the closure made of it. -/
def functionRest (kind : FunctionKind) (name : String) : Compiler Unit := do
  let r ← intern name
  beginFunction kind r
  beginScope
  expect .leftParen .parametersOpen
  if !(← check .rightParen) then
    let arity ← parameters 255
    modifyDraft fun d => { d with arity := arity.toUInt8 }
  expect .rightParen .parametersClose
  expect .leftBrace .bodyOpen
  block inner
  emitReturn
  let (function, captures) ← finishFunction
  let constant ← makeConstant (.ofHandle function)
  emitClosure constant captures

/-- A function declaration after its reserved word. -/
def functionDeclaration : Compiler Unit := do
  let (name, global) ← declareName .functionName
  markInitialized
  functionRest inner .function name
  defineVariable global

/-- A method of the class on top of the stack. -/
def method : Compiler Unit := do
  expectKeyword .def_ .methodDef
  let name ← expectName .methodName
  let constant ← nameConstant name
  functionRest inner (if name = "init" then .initializer else .method) name
  emit (.method constant)

/-- Methods up to the end of a class body, of which there are at most `fuel`. -/
def methods : (fuel : Nat) → Compiler Unit
  | 0 => pure ()
  | fuel + 1 => do
    if !(← look fun s => s.peek?.any (·.isSymbol .rightBrace) || s.atEnd) then
      method inner
      methods fuel

/-- The superclass after the colon of a class declaration: it is kept as a local named `super`
around the methods. -/
def superclass (className : String) : Compiler Unit := do
  let name ← expectName .superclassName
  namedVariable inner.expression name false
  if name = className then failBefore .inheritFromSelf
  beginScope
  addLocal "super" Source.Span.none
  defineVariable 0
  namedVariable inner.expression className false
  emit .inherit
  modify fun s => { s with classes := true :: s.classes.tail }

/-- A class declaration after its reserved word. -/
def classDeclaration : Compiler Unit := do
  let name ← expectName .className
  let constant ← nameConstant name
  declareVariable name
  emit (.class_ constant)
  defineVariable constant
  modify fun s => { s with classes := false :: s.classes }
  if ← accept .colon then superclass inner name
  namedVariable inner.expression name false
  expect .leftBrace .classOpen
  let left ← look State.remaining
  methods inner left
  expect .rightBrace .classClose
  emit .pop
  let hasSuperclass ← look fun s => s.classes.head?.getD false
  modify fun s => { s with classes := s.classes.tail }
  if hasSuperclass then endScope

/-- A variable declaration after its reserved word. -/
def letDeclaration : Compiler Unit := do
  let (_, global) ← declareName .variableName
  if ← accept .assign then expression inner else emit .null
  expect .semicolon .declarationEnd
  defineVariable global

/-- A condition in parentheses. -/
def condition (open_ : Expectation) : Compiler Unit := do
  expect .leftParen open_
  expression inner
  expect .rightParen .conditionClose

/-- A conditional statement after its reserved word. -/
def ifStatement : Compiler Unit := do
  condition inner .ifOpen
  let otherwise ← emitJump .jumpIfFalse
  emit .pop
  inner.statement
  let stop ← emitJump .jump
  patchJump otherwise
  emit .pop
  if ← acceptKeyword .else_ then inner.statement
  patchJump stop

/-- A loop with its condition first, after its reserved word. -/
def whileStatement : Compiler Unit := do
  let start ← here
  condition inner .whileOpen
  let stop ← emitJump .jumpIfFalse
  emit .pop
  inner.statement
  emitLoop start
  patchJump stop
  emit .pop

/-- A loop with its condition last, after its reserved word. -/
def doWhileStatement : Compiler Unit := do
  let start ← here
  inner.statement
  expectKeyword .while_ .doWhile
  condition inner .whileOpen
  expect .semicolon .doWhileEnd
  let stop ← emitJump .jumpIfFalse
  emit .pop
  emitLoop start
  patchJump stop
  emit .pop

/-- The first clause of a counting loop. -/
def forStart : Compiler Unit := do
  if ← accept .semicolon then pure ()
  else if ← acceptKeyword .let_ then letDeclaration inner
  else
    expression inner
    expect .semicolon .expressionEnd
    emit .pop

/-- The condition of a counting loop; the answer is the jump that leaves the loop. -/
def forCondition : Compiler (Option Nat) := do
  if ← accept .semicolon then return none
  else
    expression inner
    expect .semicolon .loopConditionEnd
    let stop ← emitJump .jumpIfFalse
    emit .pop
    return some stop

/-- The last clause of a counting loop, which runs after the body; the answer is where the body
jumps back to. -/
def forStep (start : Nat) : Compiler Nat := do
  if ← accept .rightParen then return start
  else
    let body ← emitJump .jump
    let step ← here
    expression inner
    emit .pop
    expect .rightParen .forClose
    emitLoop start
    patchJump body
    return step

/-- A counting loop after its reserved word. -/
def forStatement : Compiler Unit := do
  beginScope
  expect .leftParen .forOpen
  forStart inner
  let start ← here
  let stop ← forCondition inner
  let back ← forStep inner start
  inner.statement
  emitLoop back
  match stop with
  | some stop =>
    patchJump stop
    emit .pop
  | none => pure ()
  endScope

/-- A return statement after its reserved word. What an initializer returns is evaluated and
dropped. -/
def returnStatement : Compiler Unit := do
  let kind ← look fun s => s.draft.kind
  if kind = .script then failBefore .returnAtTopLevel
  if ← accept .semicolon then emitReturn
  else
    expression inner
    expect .semicolon .returnEnd
    if kind = .initializer then
      emit .pop
      emitReturn
    else emit .return_

/-- A print statement after its reserved word. -/
def printStatement : Compiler Unit := do
  expression inner
  expect .semicolon .valueEnd
  emit .print

/-- An expression whose value is dropped. -/
def expressionStatement : Compiler Unit := do
  expression inner
  expect .semicolon .expressionEnd
  emit .pop

/-- A block with a scope of its own, after its opening brace. -/
def blockStatement : Compiler Unit := do
  beginScope
  block inner
  endScope

/-- A statement. -/
def statementBody : Compiler Unit := do
  match ← look State.peek? with
  | some (.keyword .print_) => advance *> printStatement inner
  | some (.keyword .if_) => advance *> ifStatement inner
  | some (.keyword .while_) => advance *> whileStatement inner
  | some (.keyword .do_) => advance *> doWhileStatement inner
  | some (.keyword .for_) => advance *> forStatement inner
  | some (.keyword .return_) => advance *> returnStatement inner
  | some (.symbol .leftBrace) => advance *> blockStatement inner
  | _ => expressionStatement inner

/-- A declaration, or a statement where one is allowed. -/
def declarationBody : Compiler Unit := do
  if ← acceptKeyword .class_ then classDeclaration inner
  else if ← acceptKeyword .def_ then functionDeclaration inner
  else if ← acceptKeyword .let_ then letDeclaration inner
  else inner.statement

end Forms

end ScriptMachine.Compile
