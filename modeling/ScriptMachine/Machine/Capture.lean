import ScriptMachine.Machine.State

/-!
# Captured variables

A closure reaches the variables it captured through upvalues. While the slot of a captured
variable is on the stack, its upvalue stands for the slot and is shared by every closure that
captures the variable; before the slot goes, the upvalue takes over its value. The machine lists
the upvalues that still stand for slots, and the heap alone knows which slot each stands for.
-/

namespace ScriptMachine

namespace Heap

/-- The slot that a listed upvalue stands for. -/
def openSlot (h : Heap) (r : Handle) : Except Fault Nat :=
  match h.upvalue r with
  | .ok (.onStack slot) => .ok slot
  | .ok (.closed _) => .error .closedUpvalueListed
  | .error e => .error e

/-- Splits a list with the highest slot first: the upvalues of the slots from `boundary` on, with
the lowest slot first and `above` behind them, and the rest of the list. -/
def splitOpen (h : Heap) (boundary : Nat) (above : List Handle) :
    List Handle → Except Fault (List Handle × List Handle)
  | [] => .ok (above, [])
  | r :: below =>
    match h.openSlot r with
    | .ok slot =>
      if boundary ≤ slot then h.splitOpen boundary (r :: above) below
      else .ok (above, r :: below)
    | .error e => .error e

/-- The first of some upvalues, if it stands for `slot`. -/
def firstOpen? (h : Heap) (slot : Nat) : List Handle → Except Fault (Option Handle)
  | [] => .ok none
  | r :: _ => (h.openSlot r).map fun found => if found = slot then some r else none

end Heap

namespace Exec

/-- The upvalue that stands for a slot. -/
def captureSlot (slot : Nat) : Exec Handle := do
  let listed ← look Machine.openUpvalues
  let (above, below) ← readHeap (·.splitOpen slot [] listed)
  match ← readHeap (·.firstOpen? slot above) with
  | some r => return r
  | none =>
    let r ← alloc (.upvalue (.onStack slot))
    modify fun m => { m with openUpvalues := above.reverseAux (r :: below) }
    return r

/-- Lets upvalues take over the values of their slots. -/
def closeEach : List Handle → Exec Unit
  | [] => pure ()
  | r :: rest => do
    let v ← readSlot (← readHeap (·.openSlot r))
    changeHeap fun heap => do
      let heap ← heap.setUpvalue r (.closed v)
      return ((), heap)
    closeEach rest

/-- Closes every open upvalue of the slots from `boundary` on. -/
def closeUpvalues (boundary : Nat) : Exec Unit := do
  let listed ← look Machine.openUpvalues
  let (above, below) ← readHeap (·.splitOpen boundary [] listed)
  closeEach above
  modify fun m => { m with openUpvalues := below }

/-- An upvalue of the running closure. -/
def frameUpvalue (index : Nat) : Exec Handle := do
  let f ← frame
  let c ← readHeap (·.closure f.closure)
  match c.upvalues[index]? with
  | some r => return r
  | none => fault (.upvalueBounds index)

/-- The value of a captured variable. -/
def readUpvalue (r : Handle) : Exec Value := do
  match ← readHeap (·.upvalue r) with
  | .onStack slot => readSlot slot
  | .closed v => return v

/-- Sets a captured variable. -/
def writeUpvalue (r : Handle) (v : Value) : Exec Unit := do
  match ← readHeap (·.upvalue r) with
  | .onStack slot => writeSlot slot v
  | .closed _ =>
    changeHeap fun heap => do
      let heap ← heap.setUpvalue r (.closed v)
      return ((), heap)

/-- The upvalues that the next capture words name. -/
def captures : (count : Nat) → (done : Array Handle) → Exec (Array Handle)
  | 0, done => pure done
  | count + 1, done => do
    let capture := Capture.decode (← fetch)
    let r ← if capture.isLocal then
        let f ← frame
        captureSlot (f.base + capture.index.toNat)
      else frameUpvalue capture.index.toNat
    captures count (done.push r)

/-- Makes a closure of a function and the captures that follow the instruction. -/
def makeClosure (index : UInt16) : Exec Unit := do
  let function ← constantHandle index
  let f ← readHeap (·.prototype function)
  let upvalues ← captures f.upvalueCount #[]
  let r ← alloc (.closure ⟨function, upvalues⟩)
  push (.ofHandle r)

end Exec

end ScriptMachine
