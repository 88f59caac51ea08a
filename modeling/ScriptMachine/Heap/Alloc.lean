import ScriptMachine.Heap.Collect
import ScriptMachine.Text.Hash

/-!
# Allocating and updating objects

Every object enters the arena by `alloc`, which may collect first. Texts are interned: a text
that lives is found again instead of being allocated. Growth of a table is charged when it
happens, and given back when its owner is swept.
-/

namespace ScriptMachine.Heap

/-- Adds bytes to the account. -/
def charge (h : Heap) (n : Nat) : Heap :=
  let bytes := h.bytes + n
  { h with bytes := bytes, stats := { h.stats with peakBytes := max h.stats.peakBytes bytes } }

/-- Counts an object that was put into a slot. -/
def enroll (h : Heap) (r : Handle) (size : Nat) (kind : Kind) : Heap :=
  let h := h.charge size
  let h := { h with stats := { h.stats with objectsAllocated := h.stats.objectsAllocated + 1 } }
  h.note .trace fun _ => s!"alloc #{r.index} {kind.name} ({size} bytes)"

/-- Puts an object into the slot freed last, else into a new one. -/
def insert (h : Heap) (o : Object) : Except Fault (Handle × Heap) :=
  match h.free with
  | r :: rest =>
    let size := o.bytes
    let kind := o.kind
    let h := { h with slots := h.slots.setIfInBounds r.slot (some o), free := rest }
    .ok (r, h.enroll r size kind)
  | [] =>
    if h.slots.size < UInt32.size then
      let r : Handle := ⟨h.slots.size.toUInt32⟩
      let size := o.bytes
      let kind := o.kind
      let h := { h with slots := h.slots.push (some o), marks := h.marks.push false }
      .ok (r, h.enroll r size kind)
    else .error .arenaFull

/-- Allocates an object, after a collection if one is due. What the object refers to counts as
a root of that collection. -/
def alloc (h : Heap) (o : Object) (roots : Unit → List Handle) : Except Fault (Handle × Heap) :=
  if h.shouldCollect then (h.collect (roots () ++ o.references)).insert o else h.insert o

/-- The live text with a given content. -/
def findString? (h : Heap) (chars : String) (hash : UInt32) : Option Handle :=
  h.strings.findText? hash fun r =>
    match h.object? r with
    | some (.string s) => s.chars = chars
    | _ => false

/-- Charges the growth of a table from one number of slots to another. -/
def chargeGrowth (h : Heap) (before after : Nat) : Heap :=
  h.charge ((after - before) * Table.entryBytes)

/-- Puts a new text into the table of interned texts. -/
def addString (h : Heap) (key : Key) : Heap :=
  let strings := h.strings
  let h := { h with strings := Table.empty }
  let before := strings.capacity
  let (_, strings) := strings.insert key .null
  let after := strings.capacity
  { h with strings := strings }.chargeGrowth before after

/-- The handle of a text, allocated if no live text has its content. -/
def intern (h : Heap) (chars : String) (roots : Unit → List Handle) :
    Except Fault (Handle × Heap) :=
  let hash := Text.hash chars
  match h.findString? chars hash with
  | some r => .ok (r, h)
  | none =>
    match h.alloc (.string ⟨chars, hash⟩) roots with
    | .error e => .error e
    | .ok (r, h) =>
      .ok (r, h.addString ⟨r, hash⟩)

/-- Sets a key in a table outside the arena; the answer tells whether the key is new. -/
def insertIn (h : Heap) (t : Table) (key : Key) (value : Value) : Bool × Table × Heap :=
  let before := t.capacity
  let (isNew, t) := t.insert key value
  let after := t.capacity
  (isNew, t, h.chargeGrowth before after)

/-- Replaces the object in a slot. -/
def replace (h : Heap) (r : Handle) (o : Object) : Heap :=
  { h with slots := h.slots.setIfInBounds r.slot (some o) }

/-- Sets the state of an upvalue. -/
def setUpvalue (h : Heap) (r : Handle) (u : Upvalue) : Except Fault Heap := do
  let _ ← h.upvalue r
  return h.replace r (.upvalue u)

/-- Sets a field of an instance; the answer tells whether the field is new. -/
def setField (h : Heap) (r : Handle) (key : Key) (value : Value) : Except Fault (Bool × Heap) := do
  let i ← h.instance_ r
  let (isNew, fields) := i.fields.insert key value
  return (isNew,
    (h.replace r (.instance_ { i with fields := fields })).chargeGrowth i.fields.capacity
      fields.capacity)

/-- Sets a method of a class. -/
def setMethod (h : Heap) (r : Handle) (key : Key) (value : Value) : Except Fault Heap := do
  let c ← h.class_ r
  let (_, methods) := c.methods.insert key value
  return (h.replace r (.class_ { c with methods := methods })).chargeGrowth c.methods.capacity
    methods.capacity

/-- Gives a class every method of another. -/
def inherit (h : Heap) (subclass superclass : Handle) : Except Fault Heap := do
  let inherited := (← h.class_ superclass).methods
  let c ← h.class_ subclass
  let methods := c.methods.insertAll inherited
  return (h.replace subclass (.class_ { c with methods := methods })).chargeGrowth
    c.methods.capacity methods.capacity

end ScriptMachine.Heap
