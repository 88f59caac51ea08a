import ScriptMachine.Fault
import ScriptMachine.Journal

/-!
# The heap

Objects live in the slots of an arena and are addressed by handles. A slot that was swept goes
on a free list and is the first to be given out again. Beside the arena stand one mark bit for
each slot, the table of interned texts, and the account of bytes that paces collections. This
module holds the state and the ways to read it.
-/

namespace ScriptMachine

/-- How collections are paced. -/
structure Pacing where
  initialThreshold : Nat
  minThreshold : Nat
  growthFactor : Float
  stress : Bool

/-- A mebibyte before the first collection and as the least threshold, then twice what lives. -/
def Pacing.standard : Pacing := ⟨1048576, 1048576, 2.0, false⟩

/-- Counts over the life of a heap. -/
structure HeapStats where
  collections : Nat
  objectsAllocated : Nat
  objectsFreed : Nat
  bytesFreed : Nat
  peakBytes : Nat
deriving DecidableEq

/-- An arena of objects with its collector's state. `gray` is the worklist of a collection. -/
structure Heap where
  slots : Array (Option Object)
  marks : Array Bool
  free : List Handle
  gray : List Handle
  strings : Table
  bytes : Nat
  nextGc : Nat
  pacing : Pacing
  stats : HeapStats
  journal : Journal

namespace Heap

/-- The heap without objects. -/
def empty (pacing : Pacing) (journal : Journal) : Heap where
  slots := #[]
  marks := #[]
  free := []
  gray := []
  strings := Table.empty
  bytes := 0
  nextGc := pacing.initialThreshold
  pacing := pacing
  stats := ⟨0, 0, 0, 0, 0⟩
  journal := journal

/-- The heap that stands in a state while the state's own heap is being worked on. -/
def absent : Heap := empty Pacing.standard Journal.off

/-- The number of live objects. -/
def size (h : Heap) : Nat := h.slots.size - h.free.length

/-- The object in a handle's slot. -/
def object? (h : Heap) (r : Handle) : Option Object := h.slots[r.slot]?.join

/-- Whether a handle's slot holds an object. -/
def isLive (h : Heap) (r : Handle) : Bool := (h.object? r).isSome

/-- The object of a handle. -/
def object (h : Heap) (r : Handle) : Except Fault Object :=
  match h.object? r with
  | some o => .ok o
  | none => .error (.danglingHandle r)

/-- The text of a handle. -/
def string (h : Heap) (r : Handle) : Except Fault Interned :=
  match h.object r with
  | .ok (.string s) => .ok s
  | .ok o => .error (.wrongKind .string o.kind)
  | .error e => .error e

/-- The function of a handle. -/
def prototype (h : Heap) (r : Handle) : Except Fault Prototype :=
  match h.object r with
  | .ok (.function f) => .ok f
  | .ok o => .error (.wrongKind .function o.kind)
  | .error e => .error e

/-- The native function of a handle. -/
def native (h : Heap) (r : Handle) : Except Fault Native :=
  match h.object r with
  | .ok (.native n) => .ok n
  | .ok o => .error (.wrongKind .native o.kind)
  | .error e => .error e

/-- The closure of a handle. -/
def closure (h : Heap) (r : Handle) : Except Fault Closure :=
  match h.object r with
  | .ok (.closure c) => .ok c
  | .ok o => .error (.wrongKind .closure o.kind)
  | .error e => .error e

/-- The upvalue of a handle. -/
def upvalue (h : Heap) (r : Handle) : Except Fault Upvalue :=
  match h.object r with
  | .ok (.upvalue u) => .ok u
  | .ok o => .error (.wrongKind .upvalue o.kind)
  | .error e => .error e

/-- The class of a handle. -/
def class_ (h : Heap) (r : Handle) : Except Fault ClassObject :=
  match h.object r with
  | .ok (.class_ c) => .ok c
  | .ok o => .error (.wrongKind .class_ o.kind)
  | .error e => .error e

/-- The instance of a handle. -/
def instance_ (h : Heap) (r : Handle) : Except Fault InstanceObject :=
  match h.object r with
  | .ok (.instance_ i) => .ok i
  | .ok o => .error (.wrongKind .instance_ o.kind)
  | .error e => .error e

/-- The bound method of a handle. -/
def boundMethod (h : Heap) (r : Handle) : Except Fault BoundMethod :=
  match h.object r with
  | .ok (.boundMethod b) => .ok b
  | .ok o => .error (.wrongKind .boundMethod o.kind)
  | .error e => .error e

/-- The table key of an interned text. -/
def key (h : Heap) (r : Handle) : Except Fault Key := do
  let s ← h.string r
  return ⟨r, s.hash⟩

/-- The kind of the object that a value refers to. -/
def kind? (h : Heap) (v : Value) : Except Fault (Option Kind) :=
  match v.toHandle? with
  | none => .ok none
  | some r => (h.object r).map fun o => some o.kind

/-- The text that a value refers to, if it refers to a text. -/
def string? (h : Heap) (v : Value) : Except Fault (Option Interned) :=
  match v.toHandle? with
  | none => .ok none
  | some r =>
    match h.object r with
    | .ok (.string s) => .ok (some s)
    | .ok _ => .ok none
    | .error e => .error e

/-- The instance that a value refers to, if it refers to an instance. -/
def instance? (h : Heap) (v : Value) : Except Fault (Option (Handle × InstanceObject)) :=
  match v.toHandle? with
  | none => .ok none
  | some r =>
    match h.object r with
    | .ok (.instance_ i) => .ok (some (r, i))
    | .ok _ => .ok none
    | .error e => .error e

/-- The name of a value's type. -/
def typeName (h : Heap) (v : Value) : Except Fault String :=
  match v.typeName? with
  | some name => .ok name
  | none => do
    let kind ← h.kind? v
    return (kind.map Kind.name).getD "object"

/-- Keeps an event in the journal. -/
@[inline] def note (h : Heap) (s : Severity) (text : Unit → String) : Heap :=
  if h.journal.keeps s then { h with journal := h.journal.note s text } else h

end Heap

end ScriptMachine
