import ScriptMachine.Heap.Alloc
import ScriptMachine.Heap.Display
import ScriptMachine.Machine.Failure

/-!
# The machine

The machine runs bytecode on a stack of values. Each active function has a frame: its closure,
its code, the offset of the next word, and the slot its own part of the stack begins at. An
instruction changes the machine, and may stop it with an error of the script or with a fault.
-/

namespace ScriptMachine

/-- An active function. -/
structure Frame where
  closure : Handle
  chunk : Chunk
  ip : Nat
  base : Nat

/-- What a writer says of a line that it refuses: the part that it has taken all the same, and the
text of its error. -/
structure Refusal where
  taken : String
  error : String

/-- A writer, by what it answers to the lines that it was given, the latest first: it takes the
latest one or refuses it. A writer that has refused a line may take a later one. -/
abbrev Writer := List String → Option Refusal

/-- Where printed lines go: a writer, the lines that it was given, the latest first, and the text
that it has taken. -/
structure Sink where
  writer : Writer
  given : List String
  text : String

namespace Sink

/-- The sink that takes every line. -/
def unlimited : Sink := ⟨fun _ => none, [], ""⟩

/-- The sink that takes some lines and is closed from then on. -/
def limited (limit : Nat) : Sink :=
  ⟨fun given => if limit < given.length then some ⟨"", "sink closed"⟩ else none, [], ""⟩

/-- Gives a line to the writer; the answer is the error if the writer refuses it. -/
def give (s : Sink) (line : String) : Option String × Sink :=
  let given := line :: s.given
  match s.writer given with
  | none => (none, { s with given := given, text := s.text ++ line ++ "\n" })
  | some r => (some r.error, { s with given := given, text := s.text ++ r.taken })

end Sink

/-- The state of the machine. The upvalues that stand for slots of the stack are listed with the
highest slot first. -/
structure Machine where
  heap : Heap
  globals : Table
  stack : Array Value
  frames : Array Frame
  openUpvalues : List Handle
  initName : Handle
  framesMax : Nat
  sink : Sink
  clock : Float

/-- The slots of the stack that each frame is good for. -/
def Machine.stackPerFrame : Nat := 256

/-- What keeps objects alive: the stack, the frames, the open upvalues in the order of their
slots, the globals, and the name of initializers. -/
def Machine.roots (m : Machine) : List Handle :=
  m.stack.toList.filterMap Value.toHandle? ++ m.frames.toList.map Frame.closure ++
    m.openUpvalues.reverse ++ m.globals.handles ++ [m.initName]

/-- Why the machine stops. -/
inductive Halt
  | error (e : RuntimeError)
  | fault (f : Fault)

/-- A step of the machine. -/
abbrev Exec := EStateM Halt Machine

namespace Exec

/-- Stops with an error of the script. -/
def raise {α : Type} (e : RuntimeError) : Exec α := fun m => .error (.error e) m

/-- Stops with a fault. -/
def fault {α : Type} (f : Fault) : Exec α := fun m => .error (.fault f) m

/-- Reads the machine. -/
@[inline] def look {α : Type} (f : Machine → α) : Exec α := fun m => .ok (f m) m

/-- Reads the heap. -/
@[inline] def readHeap {α : Type} (f : Heap → Except Fault α) : Exec α := fun m =>
  match f m.heap with
  | .ok a => .ok a m
  | .error e => .error (.fault e) m

/-- Changes the heap. -/
@[inline] def changeHeap {α : Type} (f : Heap → Except Fault (α × Heap)) : Exec α := fun m =>
  let heap := m.heap
  let rest := { m with heap := Heap.absent }
  match f heap with
  | .ok (a, heap) => .ok a { rest with heap := heap }
  | .error e => .error (.fault e) rest

/-- Changes the heap with everything the machine holds kept alive. -/
@[inline] def changeHeapRooted {α : Type}
    (f : Heap → (Unit → List Handle) → Except Fault (α × Heap)) : Exec α := fun m =>
  let heap := m.heap
  let rest := { m with heap := Heap.absent }
  match f heap fun _ => rest.roots with
  | .ok (a, heap) => .ok a { rest with heap := heap }
  | .error e => .error (.fault e) rest

/-- Allocates an object. -/
def alloc (o : Object) : Exec Handle := changeHeapRooted fun heap roots => heap.alloc o roots

/-- The handle of a text. -/
def intern (chars : String) : Exec Handle :=
  changeHeapRooted fun heap roots => heap.intern chars roots

/-- Puts a value on the stack. -/
def push (v : Value) : Exec Unit := modify fun m => { m with stack := m.stack.push v }

/-- Takes the top of the stack. -/
def pop : Exec Value := fun m =>
  match m.stack.back? with
  | some v => .ok v { m with stack := m.stack.pop }
  | none => .error (.fault .stackUnderflow) m

/-- Drops the top of the stack. -/
def drop : Exec Unit := do
  let _ ← pop

/-- The value `distance` below the top of the stack. -/
def peek (distance : Nat) : Exec Value := fun m =>
  if distance < m.stack.size then
    match m.stack[m.stack.size - 1 - distance]? with
    | some v => .ok v m
    | none => .error (.fault .stackUnderflow) m
  else .error (.fault .stackUnderflow) m

/-- The slot of the value `distance` below the top of the stack. -/
def slotAt (distance : Nat) : Exec Nat := fun m =>
  if distance < m.stack.size then .ok (m.stack.size - 1 - distance) m
  else .error (.fault .stackUnderflow) m

/-- The value in a slot of the stack. -/
def readSlot (slot : Nat) : Exec Value := fun m =>
  match m.stack[slot]? with
  | some v => .ok v m
  | none => .error (.fault (.stackBounds slot)) m

/-- Sets a slot of the stack. -/
def writeSlot (slot : Nat) (v : Value) : Exec Unit := fun m =>
  if slot < m.stack.size then .ok () { m with stack := m.stack.setIfInBounds slot v }
  else .error (.fault (.stackBounds slot)) m

/-- Cuts the stack down to `size` slots. -/
def cutStack (size : Nat) : Exec Unit := modify fun m => { m with stack := m.stack.shrink size }

/-- The innermost frame. -/
def frame : Exec Frame := fun m =>
  match m.frames.back? with
  | some f => .ok f m
  | none => .error (.fault .noFrame) m

/-- Sets the offset of the next word in the innermost frame. -/
def setIp (ip : Nat) : Exec Unit :=
  modify fun m => { m with frames := m.frames.modify (m.frames.size - 1) ({ · with ip := ip }) }

/-- The next word of code, read. -/
def fetch : Exec UInt32 := do
  let f ← frame
  match f.chunk.code[f.ip]? with
  | some word =>
    setIp (f.ip + 1)
    return word
  | none => fault (.codeBounds f.ip)

/-- Goes forward over words of code. -/
def skip (distance : Nat) : Exec Unit := do
  let f ← frame
  setIp (f.ip + distance)

/-- Goes back over words of code. -/
def goBack (distance : Nat) : Exec Unit := do
  let f ← frame
  if f.ip < distance then fault .jumpBounds
  setIp (f.ip - distance)

/-- A constant of the running function. -/
def constant (index : UInt16) : Exec Value := do
  let f ← frame
  match f.chunk.constants[index.toNat]? with
  | some v => return v
  | none => fault (.constantBounds index.toNat)

/-- The handle that a value has to refer by. -/
def handleOf (v : Value) : Exec Handle :=
  match v.toHandle? with
  | some r => pure r
  | none => fault (.notReference v)

/-- A constant that is a reference. -/
def constantHandle (index : UInt16) : Exec Handle := do
  handleOf (← constant index)

/-- The text of a handle. -/
def textOf (r : Handle) : Exec String := do
  return (← readHeap (·.string r)).chars

/-- Stops because operands have wrong types. -/
def raiseMismatch {α : Type} (operator : Symbol) (rule : OperandRule) (found : List Value) :
    Exec α := do
  let types ← readHeap fun heap => found.mapM heap.typeName
  raise (.typeMismatch operator rule types)

/-- Sets a global; the answer tells whether it is new. -/
def setGlobal (key : Key) (v : Value) : Exec Bool := fun m =>
  let heap := m.heap
  let globals := m.globals
  let rest := { m with heap := Heap.absent, globals := Table.empty }
  let (isNew, globals, heap) := heap.insertIn globals key v
  .ok isNew { rest with heap := heap, globals := globals }

/-- Removes a global. -/
def eraseGlobal (key : Key) : Exec Unit :=
  modify fun m => { m with globals := (m.globals.erase key).2 }

/-- Prints a line, or stops with the error of the writer. -/
def printLine (line : String) : Exec Unit := fun m =>
  let sink := m.sink
  let rest := { m with sink := Sink.unlimited }
  match sink.give line with
  | (none, sink) => .ok () { rest with sink := sink }
  | (some error, sink) => .error (.error (.output error)) { rest with sink := sink }

end Exec

end ScriptMachine
