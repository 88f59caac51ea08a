import ScriptMachine.Heap.Basic

/-!
# The printed form of values

Scripts print a value by this form. An object shows its name, not its content, apart from a
text, which shows itself.
-/

namespace ScriptMachine.Heap

/-- The printed form of a function. -/
def displayPrototype (h : Heap) (f : Prototype) : Except Fault String :=
  match f.name with
  | none => .ok "<script>"
  | some r => do
    let name ← h.string r
    return s!"<fn {name.chars}>"

/-- The printed form of an object, following at most `fuel` bound methods. -/
def displayObject (h : Heap) : (fuel : Nat) → Handle → Except Fault String
  | 0, _ => .error .endlessBinding
  | fuel + 1, r => do
    match ← h.object r with
    | .string s => return s.chars
    | .function f => h.displayPrototype f
    | .native _ => return "<native fn>"
    | .closure c => h.displayPrototype (← h.prototype c.function)
    | .upvalue _ => return "upvalue"
    | .class_ c => return (← h.string c.name).chars
    | .instance_ i =>
      let name ← h.string (← h.class_ i.class_).name
      return s!"{name.chars} instance"
    | .boundMethod b => h.displayObject fuel b.method

/-- The printed form of a value. A chain of bound methods is no longer than the arena. -/
def display (h : Heap) (v : Value) : Except Fault String :=
  match v.toHandle? with
  | some r => h.displayObject (h.slots.size + 1) r
  | none => .ok v.text

end ScriptMachine.Heap
