import ScriptMachine.Machine.Capture

/-!
# Calls

A call finds its callee below its arguments. A closure gets a frame; a native function answers
at once; a class makes an instance and runs its initializer; a bound method puts its receiver
into the callee's slot. A call of a property looks for a field before a method, and makes no
bound method.
-/

namespace ScriptMachine.Exec

/-- Calls a closure. -/
def callClosure (closure : Handle) (count : UInt8) : Exec Unit := do
  let c ← readHeap (·.closure closure)
  let f ← readHeap (·.prototype c.function)
  if count ≠ f.arity then raise (.arityMismatch f.arity count)
  let full ← look fun m =>
    m.framesMax ≤ m.frames.size || m.framesMax * Machine.stackPerFrame ≤ m.stack.size
  if full then raise .stackOverflow
  let base ← slotAt count.toNat
  modify fun m => { m with frames := m.frames.push ⟨closure, f.chunk, 0, base⟩ }

/-- The first argument of a native function. -/
def firstArgument (args : List Value) : Exec Value :=
  match args.head? with
  | some v => pure v
  | none => fault .noArgument

/-- What a native function answers. -/
def runNative (n : Native) (args : List Value) : Exec Value := do
  match n.action with
  | .clock => return .ofFloat (← look Machine.clock)
  | .str =>
    let v ← firstArgument args
    let text ← readHeap (·.display v)
    return .ofHandle (← intern text)
  | .len =>
    let v ← firstArgument args
    match ← readHeap (·.string? v) with
    | some s => return .ofFloat (Float.ofNat s.chars.utf8ByteSize)
    | none =>
      let found ← readHeap (·.typeName v)
      raise (.native n.name s!"expected a string, got {found}")

/-- Calls a native function, which sees its arguments while they are on the stack. -/
def callNative (native : Handle) (count : UInt8) : Exec Unit := do
  let n ← readHeap (·.native native)
  match n.arity with
  | some expected => if expected ≠ count then raise (.arityMismatch expected count)
  | none => pure ()
  let callee ← slotAt count.toNat
  let args ← look fun m => (m.stack.extract (callee + 1) m.stack.size).toList
  let result ← runNative n args
  cutStack callee
  push result

/-- The method of a class, inherited ones included. -/
def findMethod (class_ name : Handle) : Exec (Option Value) := do
  let key ← readHeap (·.key name)
  let c ← readHeap (·.class_ class_)
  return c.methods.get? key

/-- Calls a class: the new instance takes the callee's slot and is initialized. -/
def callClass (class_ : Handle) (count : UInt8) : Exec Unit := do
  let r ← alloc (.instance_ ⟨class_, Table.empty⟩)
  let callee ← slotAt count.toNat
  writeSlot callee (.ofHandle r)
  let init ← look Machine.initName
  match ← findMethod class_ init with
  | some method => callClosure (← handleOf method) count
  | none => if count ≠ 0 then raise (.arityMismatch 0 count)

/-- Calls a value. -/
def callValue (callee : Value) (count : UInt8) : Exec Unit := do
  let notCallable : Exec Unit := do
    let found ← readHeap (·.typeName callee)
    raise (.notCallable found)
  match callee.toHandle? with
  | none => notCallable
  | some r =>
    match ← readHeap (·.object r) with
    | .closure _ => callClosure r count
    | .native _ => callNative r count
    | .class_ _ => callClass r count
    | .boundMethod b =>
      let slot ← slotAt count.toNat
      writeSlot slot b.receiver
      callClosure b.method count
    | .string _ | .function _ | .upvalue _ | .instance_ _ => notCallable

/-- Stops because a value has no properties. -/
def raiseNotAnInstance {α : Type} (v : Value) : Exec α := do
  let found ← readHeap (·.typeName v)
  raise (.notAnInstance found)

/-- Stops because a property does not exist. -/
def raiseUndefinedProperty {α : Type} (name : Handle) : Exec α := do
  let text ← textOf name
  raise (.undefinedProperty text)

/-- Calls the method of a class on the receiver in the callee's slot. -/
def invokeFromClass (class_ name : Handle) (count : UInt8) : Exec Unit := do
  match ← findMethod class_ name with
  | some method => callClosure (← handleOf method) count
  | none => raiseUndefinedProperty name

/-- Calls a property of the receiver in the callee's slot. -/
def invoke (name : Handle) (count : UInt8) : Exec Unit := do
  let receiver ← peek count.toNat
  match ← readHeap (·.instance? receiver) with
  | none => raiseNotAnInstance receiver
  | some (_, instance_) =>
    let key ← readHeap (·.key name)
    match instance_.fields.get? key with
    | some field =>
      let slot ← slotAt count.toNat
      writeSlot slot field
      callValue field count
    | none => invokeFromClass instance_.class_ name count

/-- Replaces the receiver on top of the stack by a method of a class bound to it. -/
def bindMethod (class_ name : Handle) : Exec Unit := do
  match ← findMethod class_ name with
  | none => raiseUndefinedProperty name
  | some method =>
    let receiver ← peek 0
    let r ← alloc (.boundMethod ⟨receiver, ← handleOf method⟩)
    drop
    push (.ofHandle r)

end ScriptMachine.Exec
