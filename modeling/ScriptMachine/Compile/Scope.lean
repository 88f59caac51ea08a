import ScriptMachine.Compile.State

/-!
# Scopes and names

At depth zero a name is a global. Inside a scope a declaration makes a local, and a name stands
for the innermost local of the function, else for a variable captured from the functions around
it, else for a global.
-/

namespace ScriptMachine.Compile

/-- Begins a scope. -/
def beginScope : Compiler Unit := modifyDraft fun d => { d with scopeDepth := d.scopeDepth + 1 }

/-- Ends a scope: its locals leave the stack, the captured ones into their upvalues. -/
def endScope : Compiler Unit := do
  modifyDraft fun d => { d with scopeDepth := d.scopeDepth - 1 }
  let (code, kept) ← look fun s => Local.leave s.draft.scopeDepth s.draft.locals
  emitAll code
  modifyDraft fun d => { d with locals := kept }

/-- Declares a local. -/
def addLocal (name : String) (span : Source.Span) : Compiler Unit := do
  let count ← look fun s => s.draft.locals.length
  if count ≥ maxLocals then failBefore .tooManyLocals
  modifyDraft (·.declare name span)

/-- Declares the name read last, unless it is a global. -/
def declareVariable (name : String) : Compiler Unit := do
  if (← look fun s => s.draft.scopeDepth) > 0 then
    match ← look fun s => Local.duplicate? name s.draft.scopeDepth s.draft.locals with
    | some first => failBefore (.duplicateLocal name first.span)
    | none =>
      let span ← look State.previousSpan
      addLocal name span

/-- Reads and declares a name; the constant is that of a global's name, zero for a local. -/
def declareName (what : Expectation) : Compiler (String × UInt16) := do
  let name ← expectName what
  declareVariable name
  if (← look fun s => s.draft.scopeDepth) > 0 then return (name, 0)
  else
    let constant ← nameConstant name
    return (name, constant)

/-- Makes the variable declared last usable. -/
def markInitialized : Compiler Unit := modifyDraft Draft.markInitialized

/-- Gives the variable declared last the value on top of the stack. -/
def defineVariable (global : UInt16) : Compiler Unit := do
  if (← look fun s => s.draft.scopeDepth) > 0 then markInitialized
  else emit (.defineGlobal global)

/-- Where a name's value is kept. -/
inductive Access
  | local_ (slot : UInt8)
  | upvalue (index : UInt8)
  | global (name : UInt16)
deriving DecidableEq

/-- The instruction that reads a variable. -/
def Access.get : Access → Instr
  | local_ slot => .getLocal slot.toUInt16
  | upvalue index => .getUpvalue index.toUInt16
  | global name => .getGlobal name

/-- The instruction that writes a variable. -/
def Access.set : Access → Instr
  | local_ slot => .setLocal slot.toUInt16
  | upvalue index => .setUpvalue index.toUInt16
  | global name => .setGlobal name

/-- Captures a variable of the functions around, if one of them has a local of that name. -/
def captureVariable (name : String) : Compiler (Option UInt8) := fun s =>
  let (result, draft, enclosing) := Draft.resolveCapture name s.draft s.enclosing
  let s := { s with draft := draft, enclosing := enclosing }
  match result with
  | .ok index => .ok index s
  | .error p => failBefore p s

/-- What a name stands for here. -/
def resolve (name : String) : Compiler Access := do
  match ← look fun s => Local.find? name s.draft.locals with
  | some (slot, true) => return .local_ slot.toUInt8
  | some (_, false) => failBefore (.ownInitializer name)
  | none =>
    match ← captureVariable name with
    | some index => return .upvalue index
    | none => return .global (← nameConstant name)

end ScriptMachine.Compile
