import ScriptMachine.Bytecode.Chunk
import ScriptMachine.Compile.Problem
import Std.Data.TreeMap

/-!
# Functions in the making

While a function is compiled, its draft holds the code so far, the variables in scope and the
variables it captures. The locals are listed with the latest first; a local's slot is the number
of locals declared before it. A local without a depth is declared but not yet initialized.
-/

namespace ScriptMachine.Compile

/-- What kind of function a draft is for. -/
inductive FunctionKind
  | script
  | function
  | method
  | initializer
deriving DecidableEq

/-- A local variable; the implicit ones have an empty span. -/
structure Local where
  name : String
  span : Source.Span
  depth : Option Nat
  captured : Bool

/-- A function in the making. -/
structure Draft where
  kind : FunctionKind
  name : Option Handle
  arity : UInt8
  chunk : Chunk
  pool : Std.TreeMap UInt64 UInt16
  locals : List Local
  captures : Array Capture
  scopeDepth : Nat

/-- The most locals that a function may have in scope at once. -/
def maxLocals : Nat := 256

/-- The most variables that a function may capture. -/
def maxUpvalues : Nat := 256

/-- The name of slot 0: the receiver inside methods, elsewhere a name that no source can spell. -/
def FunctionKind.slotZero : FunctionKind → String
  | method | initializer => "this"
  | script | function => ""

namespace Local

/-- The slot of the innermost local of a name, and whether it is initialized. -/
def find? (name : String) : List Local → Option (Nat × Bool)
  | [] => none
  | l :: rest => if l.name = name then some (rest.length, l.depth.isSome) else find? name rest

/-- Marks the innermost local of a name as captured. -/
def markCaptured (name : String) : List Local → List Local
  | [] => []
  | l :: rest =>
    if l.name = name then { l with captured := true } :: rest else l :: markCaptured name rest

/-- The local of a name declared in the innermost scope, whose depth is `depth`. -/
def duplicate? (name : String) (depth : Nat) : List Local → Option Local
  | [] => none
  | l :: rest =>
    if l.depth.all (depth ≤ ·) then
      if l.name = name then some l else duplicate? name depth rest
    else none

/-- The code that ends the scopes deeper than `depth`, and the locals that stay. -/
def leave (depth : Nat) : List Local → List Instr × List Local
  | [] => ([], [])
  | l :: rest =>
    if l.depth.any (depth < ·) then
      let (code, kept) := leave depth rest
      ((if l.captured then .closeUpvalue else .pop) :: code, kept)
    else ([], l :: rest)

end Local

namespace Draft

/-- The draft of a function without code. -/
def start (kind : FunctionKind) (name : Option Handle) : Draft where
  kind := kind
  name := name
  arity := 0
  chunk := Chunk.empty
  pool := ∅
  locals := [⟨kind.slotZero, Source.Span.none, some 0, false⟩]
  captures := #[]
  scopeDepth := 0

/-- The objects a draft keeps alive. -/
def handles (d : Draft) : List Handle :=
  d.name.toList ++ d.chunk.constants.toList.filterMap Value.toHandle?

/-- The draft with one more word of code. -/
def emit (d : Draft) (word line : UInt32) : Draft :=
  { d with chunk := d.chunk.push word line }

/-- Declares a local that is not initialized yet. -/
def declare (d : Draft) (name : String) (span : Source.Span) : Draft :=
  { d with locals := ⟨name, span, none, false⟩ :: d.locals }

/-- Initializes the local declared last, inside a scope. -/
def markInitialized (d : Draft) : Draft :=
  if d.scopeDepth = 0 then d
  else
    match d.locals with
    | [] => d
    | l :: rest => { d with locals := { l with depth := some d.scopeDepth } :: rest }

/-- The index of a capture, added if it is new. -/
def addCapture (d : Draft) (c : Capture) : Except Problem UInt8 × Draft :=
  match d.captures.findIdx? (· = c) with
  | some i => (.ok i.toUInt8, d)
  | none =>
    if d.captures.size < maxUpvalues then
      (.ok d.captures.size.toUInt8, { d with captures := d.captures.push c })
    else (.error .tooManyUpvalues, d)

/-- The index under which `inner` captures a variable of the functions around it, if one of
them has a local of that name. Each function in between captures the variable too. -/
def resolveCapture (name : String) (inner : Draft) :
    List Draft → Except Problem (Option UInt8) × Draft × List Draft
  | [] => (.ok none, inner, [])
  | outer :: rest =>
    match Local.find? name outer.locals with
    | some (_, false) => (.error (.ownInitializer name), inner, outer :: rest)
    | some (slot, true) =>
      let outer := { outer with locals := Local.markCaptured name outer.locals }
      let (index, inner) := inner.addCapture ⟨true, slot.toUInt8⟩
      (index.map some, inner, outer :: rest)
    | none =>
      match resolveCapture name outer rest with
      | (.ok (some i), outer, rest) =>
        let (index, inner) := inner.addCapture ⟨false, i⟩
        (index.map some, inner, outer :: rest)
      | (result, outer, rest) => (result, inner, outer :: rest)

end Draft

end ScriptMachine.Compile
