import ScriptMachine.Compile.Scope

/-!
# Expressions

Expressions are read by precedence: an operand, then every operator that binds at least as
tightly as asked for. The parser of nested expressions is a parameter, so each form here says
only what it does itself; how deep expressions nest is bounded where the forms are tied
together.
-/

namespace ScriptMachine.Compile

/-- How tightly operators bind, the loosest first. -/
inductive Precedence
  | assignment | or | and | equality | comparison | term | factor | unary | call | primary
deriving DecidableEq

namespace Precedence

/-- The rank of a precedence. -/
def rank : Precedence → Nat
  | assignment => 1
  | or => 2
  | and => 3
  | equality => 4
  | comparison => 5
  | term => 6
  | factor => 7
  | unary => 8
  | call => 9
  | primary => 10

/-- The next tighter precedence. -/
def next : Precedence → Precedence
  | assignment => or
  | or => and
  | and => equality
  | equality => comparison
  | comparison => term
  | term => factor
  | factor => unary
  | unary => call
  | call | primary => primary

end Precedence

/-- The code of a binary operator and how tightly it binds. -/
def binary? : Symbol → Option (Precedence × List Instr)
  | .plus => some (.term, [.add])
  | .minus => some (.term, [.subtract])
  | .star => some (.factor, [.multiply])
  | .slash => some (.factor, [.divide])
  | .equal => some (.equality, [.equal])
  | .notEqual => some (.equality, [.equal, .not])
  | .greater => some (.comparison, [.greater])
  | .greaterEqual => some (.comparison, [.less, .not])
  | .less => some (.comparison, [.less])
  | .lessEqual => some (.comparison, [.greater, .not])
  | _ => none

/-- How tightly a symbol binds when it follows an operand. -/
def bindingOf? : Symbol → Option Precedence
  | .leftParen | .dot => some .call
  | .both => some .and
  | .either => some .or
  | symbol => (binary? symbol).map Prod.fst

/-- The symbol of a token that goes on an expression of at least the given precedence. -/
def trailing? (precedence : Precedence) : Token → Option Symbol
  | .symbol symbol =>
    if (bindingOf? symbol).any fun p => precedence.rank ≤ p.rank then some symbol else none
  | _ => none

/-- The operator of a compound assignment. -/
def compound? : Token → Option Instr
  | .symbol .plusAssign => some .add
  | .symbol .minusAssign => some .subtract
  | .symbol .starAssign => some .multiply
  | .symbol .slashAssign => some .divide
  | _ => none

/-- Whether a token assigns. -/
def isAssignment (t : Token) : Bool := t.isSymbol .assign || (compound? t).isSome

/-- Reads the operator of a compound assignment if one is next and allowed. -/
def acceptCompound (allowed : Bool) : Compiler (Option Instr) := do
  if allowed then
    let op ← look fun s => s.peek?.bind compound?
    if op.isSome then advance
    return op
  else return none

section Forms

variable (nested : Precedence → Compiler Unit)

/-- A full expression one level further in. -/
def nestedExpression : Compiler Unit := nested .assignment

/-- The use of a variable, or an assignment to it where one is allowed. -/
def namedVariable (name : String) (canAssign : Bool) : Compiler Unit := do
  let access ← resolve name
  if ← acceptIf canAssign .assign then
    nestedExpression nested
    emit access.set
  else
    match ← acceptCompound canAssign with
    | some op =>
      emit access.get
      nestedExpression nested
      emit op
      emit access.set
    | none => emit access.get

/-- The number of arguments up to the closing parenthesis, of which there may be `room` more. -/
def arguments : (room : Nat) → Compiler Nat
  | 0 => do
    nestedExpression nested
    failBefore .tooManyArguments
  | room + 1 => do
    nestedExpression nested
    if ← accept .comma then return (← arguments room) + 1 else return 1

/-- The arguments of a call after its opening parenthesis. -/
def argumentList : Compiler UInt8 := do
  let count ← if ← check .rightParen then pure 0 else arguments nested 255
  expect .rightParen .argumentsClose
  return count.toUInt8

/-- A property after its dot: an assignment where one is allowed, a call or a read. -/
def property (canAssign : Bool) : Compiler Unit := do
  let name ← expectName .propertyName
  let constant ← nameConstant name
  if ← acceptIf canAssign .assign then
    nestedExpression nested
    emit (.setProperty constant)
  else
    match ← acceptCompound canAssign with
    | some op =>
      emit .duplicate
      emit (.getProperty constant)
      nestedExpression nested
      emit op
      emit (.setProperty constant)
    | none =>
      if ← accept .leftParen then
        let count ← argumentList nested
        emit (.invoke constant count)
      else emit (.getProperty constant)

/-- A method of the superclass, called or bound to the receiver. -/
def superProperty : Compiler Unit := do
  match ← look fun s => s.classes.head? with
  | none => failBefore .superOutsideClass
  | some false => failBefore .superWithoutSuperclass
  | some true =>
    expect .dot .superDot
    let name ← expectName .superName
    let constant ← nameConstant name
    namedVariable nested "this" false
    if ← accept .leftParen then
      let count ← argumentList nested
      namedVariable nested "super" false
      emit (.superInvoke constant count)
    else
      namedVariable nested "super" false
      emit (.getSuper constant)

/-- The receiver of the method around. -/
def receiver : Compiler Unit := do
  if ← look fun s => s.classes.isEmpty then failBefore .thisOutsideClass
  namedVariable nested "this" false

/-- The operand that a token starts. -/
def operand (token : Token) (canAssign : Bool) : Compiler Unit :=
  match token with
  | .number n => emitConstant (.ofFloat n)
  | .text content => do
    let r ← intern content
    emitConstant (.ofHandle r)
  | .keyword .true_ => emit .true_
  | .keyword .false_ => emit .false_
  | .keyword .null_ => emit .null
  | .symbol .leftParen => do
    nestedExpression nested
    expect .rightParen .groupClose
  | .symbol .minus => do
    nested .unary
    emit .negate
  | .symbol .bang => do
    nested .unary
    emit .not
  | .name spelling => namedVariable nested spelling canAssign
  | .keyword .this_ => receiver nested
  | .keyword .super_ => superProperty nested
  | other => failBefore (.expectedExpression other.describe)

/-- A conjunction after its first operand. -/
def conjunction : Compiler Unit := do
  let stop ← emitJump .jumpIfFalse
  emit .pop
  nested .and
  patchJump stop

/-- A disjunction after its first operand. -/
def disjunction : Compiler Unit := do
  let otherwise ← emitJump .jumpIfFalse
  let stop ← emitJump .jump
  patchJump otherwise
  emit .pop
  nested .or
  patchJump stop

/-- What a symbol does to the operand before it. -/
def continuation (symbol : Symbol) (canAssign : Bool) : Compiler Unit :=
  match symbol with
  | .leftParen => do
    let count ← argumentList nested
    emit (.call count)
  | .dot => property nested canAssign
  | .both => conjunction nested
  | .either => disjunction nested
  | symbol =>
    match binary? symbol with
    | some (precedence, code) => do
      nested precedence.next
      emitAll code
    | none => pure ()

/-- The operators that follow an operand, of which there are at most `fuel`. -/
def continuations (precedence : Precedence) (canAssign : Bool) : (fuel : Nat) → Compiler Unit
  | 0 => pure ()
  | fuel + 1 => do
    match ← look fun s => s.peek?.bind (trailing? precedence) with
    | none => pure ()
    | some symbol =>
      advance
      continuation nested symbol canAssign
      continuations precedence canAssign fuel

/-- An expression of at least the given precedence. Every operator is a token, so the tokens
left bound their number. -/
def expressionBody (precedence : Precedence) : Compiler Unit := do
  let canAssign := precedence = .assignment
  match ← next? with
  | none => failHere (.expectedExpression "end of input")
  | some token =>
    operand nested token canAssign
    let left ← look State.remaining
    continuations nested precedence canAssign left
    if canAssign && (← look fun s => s.peek?.any isAssignment) then
      failHere .invalidAssignmentTarget

end Forms

end ScriptMachine.Compile
