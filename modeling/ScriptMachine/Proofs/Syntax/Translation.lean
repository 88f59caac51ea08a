import ScriptMachine.Compile.Script
import ScriptMachine.Proofs.Syntax.Tree

/-!
# Compiling trees

What the compiler does for a tree, apart from finding out which tree it reads: it goes past the
tokens of the tree without a look at them and takes the same steps otherwise. Reading and
translating are told apart this way, so what the code of a program is can be shown by induction
on its tree.
-/

namespace ScriptMachine

open Compile

namespace Compile

/-- Emits the instruction that reads a variable. -/
def readVariable (name : String) : Compiler Unit := do
  let access ← resolve name
  emit access.get

/-- Goes past a name and declares it; the constant is that of a global's name, zero for a
local. -/
def bindName (name : String) : Compiler UInt16 := do
  advance
  declareVariable name
  if (← look fun s => s.draft.scopeDepth) > 0 then return 0
  else nameConstant name

/-- A call has at most 255 arguments. -/
def checkArguments (count : Nat) : Compiler Unit := do
  if count > 255 then failBefore .tooManyArguments

/-- A script does not return. -/
def refuseReturn : Compiler Unit := do
  if (← look fun s => s.draft.kind) = .script then failBefore .returnAtTopLevel

/-- Code that is skipped if the value on top of the stack is false. -/
def skipping (body : Compiler Unit) : Compiler Unit := do
  let stop ← emitJump .jumpIfFalse
  body
  patchJump stop

/-- Code that is run if the value on top of the stack is true, and code that is run otherwise. -/
def branching (yes no : Compiler Unit) : Compiler Unit := do
  let otherwise ← emitJump .jumpIfFalse
  yes
  let stop ← emitJump .jump
  patchJump otherwise
  no
  patchJump stop

end Compile

mutual

/-- Compiles an expression. -/
def Expr.translate : Expr → Compiler Unit
  | .number x => do
    advance
    emitConstant (.ofFloat x)
  | .text content => do
    advance
    let r ← intern content
    emitConstant (.ofHandle r)
  | .true_ => advance *> emit .true_
  | .false_ => advance *> emit .false_
  | .null => advance *> emit .null
  | .group e => do
    advance
    e.translate
    advance
  | .negate e => do
    advance
    e.translate
    emit .negate
  | .not e => do
    advance
    e.translate
    emit .not
  | .variable_ name => advance *> readVariable name
  | .assign name e => do
    advance
    let access ← resolve name
    advance
    e.translate
    emit access.set
  | .update name op e => do
    advance
    let access ← resolve name
    advance
    emit access.get
    e.translate
    emit op.instr
    emit access.set
  | .this => advance *> readVariable "this"
  | .superGet name => do
    advance
    advance
    advance
    let constant ← nameConstant name
    readVariable "this"
    readVariable "super"
    emit (.getSuper constant)
  | .superCall name args => do
    advance
    advance
    advance
    let constant ← nameConstant name
    readVariable "this"
    advance
    checkArguments args.length
    Expr.listTranslate args
    advance
    readVariable "super"
    emit (.superInvoke constant args.length.toUInt8)
  | .binary op l r => do
    l.translate
    advance
    r.translate
    emitAll op.code
  | .both l r => do
    l.translate
    advance
    skipping do
      emit .pop
      r.translate
  | .either l r => do
    l.translate
    advance
    branching (pure ()) do
      emit .pop
      r.translate
  | .call f args => do
    f.translate
    advance
    checkArguments args.length
    Expr.listTranslate args
    advance
    emit (.call args.length.toUInt8)
  | .get o name => do
    o.translate
    advance
    advance
    let constant ← nameConstant name
    emit (.getProperty constant)
  | .set o name e => do
    o.translate
    advance
    advance
    let constant ← nameConstant name
    advance
    e.translate
    emit (.setProperty constant)
  | .updateField o name op e => do
    o.translate
    advance
    advance
    let constant ← nameConstant name
    advance
    emit .duplicate
    emit (.getProperty constant)
    e.translate
    emit op.instr
    emit (.setProperty constant)
  | .invoke o name args => do
    o.translate
    advance
    advance
    let constant ← nameConstant name
    advance
    checkArguments args.length
    Expr.listTranslate args
    advance
    emit (.invoke constant args.length.toUInt8)

/-- Compiles arguments. -/
def Expr.listTranslate : List Expr → Compiler Unit
  | [] => pure ()
  | [e] => e.translate
  | e :: es => do
    e.translate
    advance
    Expr.listTranslate es

end

/-- Compiles a condition in parentheses. -/
def Expr.translateCondition (test : Expr) : Compiler Unit := do
  advance
  test.translate
  advance

/-- Compiles parameters. -/
def translateParameters : List String → Compiler Unit
  | [] => pure ()
  | [name] => do
    let constant ← bindName name
    defineVariable constant
  | name :: names => do
    let constant ← bindName name
    defineVariable constant
    advance
    translateParameters names

/-- Compiles the parameters of a function in parentheses. -/
def translateSignature (params : List String) : Compiler Unit := do
  advance
  if params ≠ [] then
    translateParameters params
    modifyDraft fun d => { d with arity := params.length.toUInt8 }
  advance

/-- Compiles what starts and what ends a function around its body, and the closure made of it. -/
def translateFunction (kind : FunctionKind) (name : String) (params : List String)
    (body : Compiler Unit) : Compiler Unit := do
  let r ← intern name
  beginFunction kind r
  beginScope
  translateSignature params
  advance
  body
  advance
  emitReturn
  let (function, captures) ← finishFunction
  let constant ← makeConstant (.ofHandle function)
  emitClosure constant captures

/-- Compiles the superclass of a class. -/
def translateParent (className : String) : Option String → Compiler Unit
  | none => pure ()
  | some parent => do
    advance
    advance
    readVariable parent
    beginScope
    addLocal "super" Source.Span.none
    defineVariable 0
    readVariable className
    emit .inherit
    modify fun s => { s with classes := true :: s.classes.tail }

/-- Compiles the condition of a counting loop; the answer is the jump that leaves the loop. -/
def translateTest : Option Expr → Compiler (Option Nat)
  | none => do
    advance
    return none
  | some test => do
    test.translate
    advance
    let stop ← emitJump .jumpIfFalse
    emit .pop
    return some stop

/-- Compiles what a counting loop does after its body; the answer is where the body jumps back
to. -/
def translateStep (start : Nat) : Option Expr → Compiler Nat
  | none => do
    advance
    return start
  | some e => do
    let body ← emitJump .jump
    let step ← here
    e.translate
    emit .pop
    advance
    emitLoop start
    patchJump body
    return step

/-- Compiles what leaves a loop. -/
def translateExit : Option Nat → Compiler Unit
  | none => pure ()
  | some stop => do
    patchJump stop
    emit .pop

/-- The kind of a method. -/
def methodKind (name : String) : FunctionKind := if name = "init" then .initializer else .method

mutual

/-- Compiles a statement. -/
def Stmt.translate : Stmt → Compiler Unit
  | .let_ name none => do
    advance
    let global ← bindName name
    emit .null
    advance
    defineVariable global
  | .let_ name (some e) => do
    advance
    let global ← bindName name
    advance
    e.translate
    advance
    defineVariable global
  | .def_ (.mk name params body) => do
    advance
    let global ← bindName name
    markInitialized
    translateFunction .function name params (Stmt.listTranslate body)
    defineVariable global
  | .class_ name parent methods => do
    advance
    advance
    let constant ← nameConstant name
    declareVariable name
    emit (.class_ constant)
    defineVariable constant
    modify fun s => { s with classes := false :: s.classes }
    translateParent name parent
    readVariable name
    advance
    Function.listTranslate methods
    advance
    emit .pop
    let hasSuperclass ← look fun s => s.classes.head?.getD false
    modify fun s => { s with classes := s.classes.tail }
    if hasSuperclass then endScope
  | .print e => do
    advance
    e.translate
    advance
    emit .print
  | .expression e => do
    e.translate
    advance
    emit .pop
  | .return_ none => do
    advance
    refuseReturn
    advance
    emitReturn
  | .return_ (some e) => do
    advance
    refuseReturn
    let kind ← look fun s => s.draft.kind
    e.translate
    advance
    if kind = .initializer then
      emit .pop
      emitReturn
    else emit .return_
  | .if_ test body none => do
    advance
    test.translateCondition
    branching (emit .pop *> body.translate) (emit .pop)
  | .if_ test body (some otherwise) => do
    advance
    test.translateCondition
    branching (emit .pop *> body.translate) do
      emit .pop
      advance
      otherwise.translate
  | .while_ test body => do
    advance
    let start ← here
    test.translateCondition
    skipping do
      emit .pop
      body.translate
      emitLoop start
    emit .pop
  | .doWhile body test => do
    advance
    let start ← here
    body.translate
    advance
    test.translateCondition
    advance
    skipping do
      emit .pop
      emitLoop start
    emit .pop
  | .for_ none test step body => do
    advance
    beginScope
    advance
    advance
    let start ← here
    let stop ← translateTest test
    let back ← translateStep start step
    body.translate
    emitLoop back
    translateExit stop
    endScope
  | .for_ (some init) test step body => do
    advance
    beginScope
    advance
    init.translate
    let start ← here
    let stop ← translateTest test
    let back ← translateStep start step
    body.translate
    emitLoop back
    translateExit stop
    endScope
  | .block body => do
    advance
    beginScope
    Stmt.listTranslate body
    advance
    endScope

/-- Compiles statements in their order. -/
def Stmt.listTranslate : List Stmt → Compiler Unit
  | [] => pure ()
  | s :: ss => do
    s.translate
    Stmt.listTranslate ss

/-- Compiles methods in their order. -/
def Function.listTranslate : List Function → Compiler Unit
  | [] => pure ()
  | .mk name params body :: fs => do
    advance
    advance
    let constant ← nameConstant name
    translateFunction (methodKind name) name params (Stmt.listTranslate body)
    emit (.method constant)
    Function.listTranslate fs

end

/-- Compiles a program; the answer is its function. -/
def translateProgram (program : List Stmt) : Compiler Handle := do
  Stmt.listTranslate program
  emitReturn
  let (function, _) ← finishFunction
  return function

end ScriptMachine
