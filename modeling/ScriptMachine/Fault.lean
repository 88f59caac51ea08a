import ScriptMachine.Heap.Object

/-!
# Faults

A fault is a broken invariant of the machine itself, not an error of a script. Every access that
relies on an invariant answers with a fault where the invariant fails, so that a proof of safety
is a proof that no fault is reached.
-/

namespace ScriptMachine

/-- A broken invariant. -/
inductive Fault
  | danglingHandle (r : Handle)
  | wrongKind (expected found : Kind)
  | arenaFull
  | endlessBinding
  | notReference (v : Value)
  | stackUnderflow
  | stackBounds (slot : Nat)
  | noFrame
  | codeBounds (offset : Nat)
  | constantBounds (index : Nat)
  | upvalueBounds (index : Nat)
  | closedUpvalueListed
  | jumpBounds
  | unknownOperation (operation : UInt8)
  | noArgument

/-- The text of a violated expectation. -/
def unreachableText (text : String) : String :=
  s!"internal error: entered unreachable code: {text}"

/-- A fault in words. -/
def Fault.message : Fault → String
  | danglingHandle r => s!"dangling object handle #{r.index}"
  | wrongKind expected found =>
    unreachableText s!"expected {expected.role}, found {found.name}"
  | arenaFull => "object arena exhausted"
  | endlessBinding => "bound methods form a cycle"
  | notReference v => unreachableText s!"expected an object operand, found {v.describe}"
  | stackUnderflow => unreachableText "pop from empty VM stack"
  | stackBounds slot => s!"stack slot {slot} out of bounds"
  | noFrame => unreachableText "no active call frame"
  | codeBounds offset => s!"code offset {offset} out of bounds"
  | constantBounds index => s!"constant {index} out of bounds"
  | upvalueBounds index => s!"upvalue {index} out of bounds"
  | closedUpvalueListed => unreachableText "closed upvalue in the open list"
  | jumpBounds => "jump before the start of the code"
  | unknownOperation operation => unreachableText s!"unknown opcode {operation}"
  | noArgument => "native function called without its argument"

end ScriptMachine
