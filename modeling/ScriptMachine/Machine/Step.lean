import ScriptMachine.Bytecode.Listing
import ScriptMachine.Machine.Call
import ScriptMachine.Text.Layout

/-!
# Instructions at work

What each instruction does to the machine. Operands stay on the stack until the result exists,
so that nothing a collection could free is still needed.
-/

namespace ScriptMachine

/-- Whether the outermost function has returned. -/
inductive Progress
  | running
  | finished
deriving DecidableEq

namespace Exec

/-- Takes two numbers from the stack. -/
def popNumbers (operator : Symbol) : Exec (Float × Float) := do
  let b ← peek 0
  let a ← peek 1
  match a.toFloat?, b.toFloat? with
  | some x, some y =>
    drop
    drop
    return (x, y)
  | _, _ => raiseMismatch operator .numbers [a, b]

/-- Replaces two numbers by what an operation makes of them. -/
def arithmetic (operator : Symbol) (f : Float → Float → Value) : Exec Unit := do
  let (x, y) ← popNumbers operator
  push (f x y)

/-- Adds two numbers or joins two texts. -/
def add : Exec Unit := do
  let b ← peek 0
  let a ← peek 1
  match a.toFloat?, b.toFloat? with
  | some x, some y =>
    drop
    drop
    push (.ofFloat (x + y))
  | _, _ =>
    match ← readHeap (·.string? a), ← readHeap (·.string? b) with
    | some x, some y =>
      let r ← intern (x.chars ++ y.chars)
      drop
      drop
      push (.ofHandle r)
    | _, _ => raiseMismatch .plus .numbersOrStrings [a, b]

/-- Replaces a number by its opposite. -/
def negate : Exec Unit := do
  let v ← peek 0
  match v.toFloat? with
  | some x =>
    drop
    push (.ofFloat (-x))
  | none => raiseMismatch .minus .number [v]

/-- Replaces two values by whether they are equal. -/
def equal : Exec Unit := do
  let b ← pop
  let a ← pop
  push (.ofBool (a.same b))

/-- Puts the value of a global on the stack. -/
def getGlobal (index : UInt16) : Exec Unit := do
  let name ← constantHandle index
  let key ← readHeap (·.key name)
  match ← look fun m => m.globals.get? key with
  | some v => push v
  | none => raise (.undefinedVariable (← textOf name))

/-- Defines a global with the top of the stack. -/
def defineGlobal (index : UInt16) : Exec Unit := do
  let name ← constantHandle index
  let key ← readHeap (·.key name)
  let v ← peek 0
  let _ ← setGlobal key v
  drop

/-- Assigns the top of the stack to a global, which has to be defined. -/
def assignGlobal (index : UInt16) : Exec Unit := do
  let name ← constantHandle index
  let key ← readHeap (·.key name)
  let v ← peek 0
  if ← setGlobal key v then
    eraseGlobal key
    raise (.undefinedVariable (← textOf name))

/-- Replaces a receiver by one of its properties: a field, else a bound method. -/
def getProperty (index : UInt16) : Exec Unit := do
  let receiver ← peek 0
  match ← readHeap (·.instance? receiver) with
  | none => raiseNotAnInstance receiver
  | some (_, instance_) =>
    let name ← constantHandle index
    let key ← readHeap (·.key name)
    match instance_.fields.get? key with
    | some v =>
      drop
      push v
    | none => bindMethod instance_.class_ name

/-- Assigns the top of the stack to a field of the receiver below it. -/
def setProperty (index : UInt16) : Exec Unit := do
  let target ← peek 1
  match target.toHandle?, ← readHeap (·.instance? target) with
  | some r, some _ =>
    let name ← constantHandle index
    let key ← readHeap (·.key name)
    let v ← peek 0
    let _ ← changeHeap fun heap => heap.setField r key v
    drop
    drop
    push v
  | _, _ => raiseNotAnInstance target

/-- Prints the top of the stack. -/
def print : Exec Unit := do
  let v ← pop
  let text ← readHeap (·.display v)
  printLine text

/-- Gives the class on top of the stack the methods of the superclass below it. -/
def inherit : Exec Unit := do
  let superclass ← peek 1
  match ← readHeap (·.kind? superclass) with
  | some .class_ =>
    let subclass ← handleOf (← peek 0)
    let superclass ← handleOf superclass
    changeHeap fun heap => do
      let heap ← heap.inherit subclass superclass
      return ((), heap)
    drop
  | _ =>
    let found ← readHeap (·.typeName superclass)
    raise (.invalidSuperclass found)

/-- Adds the closure on top of the stack to the class below it. -/
def addMethod (index : UInt16) : Exec Unit := do
  let name ← constantHandle index
  let key ← readHeap (·.key name)
  let method ← peek 0
  let class_ ← handleOf (← peek 1)
  changeHeap fun heap => do
    let heap ← heap.setMethod class_ key method
    return ((), heap)
  drop

/-- Leaves the innermost function with the top of the stack as its result. -/
def return_ : Exec Progress := do
  let result ← pop
  let f ← frame
  modify fun m => { m with frames := m.frames.pop }
  closeUpvalues f.base
  cutStack f.base
  if ← look fun m => m.frames.isEmpty then return .finished
  else
    push result
    return .running

/-- Carries out an instruction other than a return. -/
def perform (i : Instr) : Exec Unit :=
  match i with
  | .constant k => do push (← constant k)
  | .null => push .null
  | .true_ => push (.ofBool true)
  | .false_ => push (.ofBool false)
  | .pop => drop
  | .duplicate => do push (← peek 0)
  | .getLocal slot => do
    let f ← frame
    push (← readSlot (f.base + slot.toNat))
  | .setLocal slot => do
    let f ← frame
    writeSlot (f.base + slot.toNat) (← peek 0)
  | .getGlobal k => getGlobal k
  | .defineGlobal k => defineGlobal k
  | .setGlobal k => assignGlobal k
  | .getUpvalue index => do
    let r ← frameUpvalue index.toNat
    push (← readUpvalue r)
  | .setUpvalue index => do
    let r ← frameUpvalue index.toNat
    writeUpvalue r (← peek 0)
  | .getProperty k => getProperty k
  | .setProperty k => setProperty k
  | .getSuper k => do
    let name ← constantHandle k
    let superclass ← handleOf (← pop)
    bindMethod superclass name
  | .equal => equal
  | .greater => arithmetic .greater fun x y => .ofBool (x > y)
  | .less => arithmetic .less fun x y => .ofBool (x < y)
  | .add => add
  | .subtract => arithmetic .minus fun x y => .ofFloat (x - y)
  | .multiply => arithmetic .star fun x y => .ofFloat (x * y)
  | .divide => arithmetic .slash fun x y => .ofFloat (x / y)
  | .not => do
    let v ← pop
    push (.ofBool v.isFalsey)
  | .negate => negate
  | .print => print
  | .jump distance => skip distance.toNat
  | .jumpIfFalse distance => do
    if (← peek 0).isFalsey then skip distance.toNat
  | .loop distance => goBack distance.toNat
  | .call count => do callValue (← peek count.toNat) count
  | .invoke k count => do invoke (← constantHandle k) count
  | .superInvoke k count => do
    let name ← constantHandle k
    let superclass ← handleOf (← pop)
    invokeFromClass superclass name count
  | .closure k => makeClosure k
  | .closeUpvalue => do
    let top ← slotAt 0
    closeUpvalues top
    drop
  | .class_ k => do
    let name ← constantHandle k
    let r ← alloc (.class_ ⟨name, Table.empty⟩)
    push (.ofHandle r)
  | .inherit => inherit
  | .method k => addMethod k
  | .return_ => pure ()

/-- The stack and the next instruction as one line. -/
def instructionText (m : Machine) (f : Frame) : Except Fault String := do
  let shown ← m.stack.toList.mapM m.heap.display
  let (line, _) ← f.chunk.listInstr m.heap f.ip
  let stack := ", ".intercalate shown
  return s!"[{stack}] {Text.dropFinalBlanks line}"

/-- Keeps the next instruction in the journal, if the journal is as fine as that. -/
def noteInstruction : Exec Unit := do
  if ← look fun m => m.heap.journal.keeps .trace then
    let f ← frame
    match ← look fun m => instructionText m f with
    | .ok text => modify fun m => { m with heap := m.heap.note .trace fun _ => text }
    | .error e => fault e

/-- Carries out the next instruction. -/
def step : Exec Progress := do
  noteInstruction
  let word ← fetch
  match Instr.decode? word with
  | none => fault (.unknownOperation (wordOperation word))
  | some .return_ => return_
  | some i =>
    perform i
    return .running

/-- Carries out instructions until the outermost function returns, at most `fuel` of them. -/
def run : (fuel : Nat) → Exec Progress
  | 0 => pure .running
  | fuel + 1 => do
    match ← step with
    | .finished => return .finished
    | .running => run fuel

end Exec

end ScriptMachine
