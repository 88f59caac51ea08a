import ScriptMachine.Compile.Script
import ScriptMachine.Machine.Step

/-!
# Sessions

A machine is made once and then fed with sources. Each is compiled and run to its end, to an
error or to a fault; the globals stay. Running is bounded by a number of instructions, and a run
that was not finished can be resumed.
-/

namespace ScriptMachine

/-- The settings of a machine. -/
structure Settings where
  framesMax : Nat
  pacing : Pacing

/-- Sixty-four frames and the standard pacing. -/
def Settings.standard : Settings := ⟨64, Pacing.standard⟩

/-- What running a source comes to. -/
inductive Outcome
  | ok
  | refused (es : List CompileError)
  | failed (f : Failure)
  | fault (f : Fault)
  | unfinished

/-- A failure in one line. -/
def Outcome.display? : Outcome → Option String
  | refused es => some s!"{es.length} compile error(s)"
  | failed f => some f.display
  | ok | fault _ | unfinished => none

/-- The native functions that a machine starts with. -/
def Native.all : List Native :=
  [⟨"clock", some 0, .clock⟩, ⟨"str", some 1, .str⟩, ⟨"len", some 1, .len⟩]

namespace Exec

/-- Makes a native function a global of its name. -/
def defineNative (n : Native) : Exec Unit := do
  let name ← intern n.name
  push (.ofHandle name)
  let r ← alloc (.native n)
  push (.ofHandle r)
  let key ← readHeap (·.key name)
  let _ ← setGlobal key (.ofHandle r)
  drop
  drop

/-- Defines native functions in their order. -/
def defineNatives : List Native → Exec Unit
  | [] => pure ()
  | n :: rest => do
    defineNative n
    defineNatives rest

/-- Puts a compiled script on the stack and calls it. -/
def enter (function : Handle) : Exec Unit := do
  push (.ofHandle function)
  let r ← alloc (.closure ⟨function, #[]⟩)
  drop
  push (.ofHandle r)
  callClosure r 0

/-- An active function by its name and its line. -/
def traceEntry (f : Frame) : Exec TraceEntry := do
  let c ← readHeap (·.closure f.closure)
  let p ← readHeap (·.prototype c.function)
  let line := f.chunk.lineAt (f.ip - 1)
  match p.name with
  | some r => return ⟨(← textOf r) ++ "()", line⟩
  | none => return ⟨"script", line⟩

/-- The report of an error. Afterwards no function is active, the stack is empty, and what the
open upvalues stood for is kept by them. -/
def failure (e : RuntimeError) : Exec Failure := do
  let frames ← look fun m => m.frames.toList.reverse
  let trace ← frames.mapM traceEntry
  let line := (trace.head?.map TraceEntry.line).getD 0
  modify fun m =>
    { m with heap := m.heap.note .debug fun _ => s!"runtime error at line {line}: {e.message}" }
  closeUpvalues 0
  modify fun m => { m with stack := #[], frames := #[] }
  return ⟨e, line, trace⟩

end Exec

namespace Machine

/-- A machine with its native functions defined. -/
def create (settings : Settings) (journal : Journal) (sink : Sink) : Except Fault Machine := do
  let (init, heap) ← (Heap.empty settings.pacing journal).intern "init" fun _ => []
  let m : Machine :=
    { heap := heap
      globals := Table.empty
      stack := #[]
      frames := #[]
      openUpvalues := []
      initName := init
      framesMax := settings.framesMax
      sink := sink
      clock := 0 }
  match Exec.defineNatives Native.all m with
  | .ok _ m => .ok m
  | .error (.fault f) _ => .error f
  | .error (.error _) m => .ok m

/-- Compiles a source with everything the machine holds kept alive. -/
def compile (m : Machine) (source : String) : Compile.Result × Machine :=
  let outer := m.roots
  let heap := m.heap
  let rest := { m with heap := Heap.absent }
  let (result, heap) := Compile.compile source heap outer
  (result, { rest with heap := heap })

/-- What a stopped run comes to. -/
def settle (m : Machine) : Halt → Outcome × Machine
  | .fault f => (.fault f, m)
  | .error e =>
    match Exec.failure e m with
    | .ok f m => (.failed f, m)
    | .error (.fault f) m => (.fault f, m)
    | .error (.error e) m => (.failed ⟨e, 0, []⟩, m)

/-- Carries on with a script that was entered, for at most `fuel` instructions. -/
def resume (m : Machine) (fuel : Nat) : Outcome × Machine :=
  match Exec.run fuel m with
  | .ok .finished m => (.ok, m)
  | .ok .running m => (.unfinished, m)
  | .error halt m => m.settle halt

/-- Compiles and enters a source; it is unfinished then unless it was refused or failed. -/
def load (m : Machine) (source : String) : Outcome × Machine :=
  match m.compile source with
  | (.errors es, m) => (.refused es, m)
  | (.fault f, m) => (.fault f, m)
  | (.function r, m) =>
    match Exec.enter r m with
    | .ok _ m => (.unfinished, m)
    | .error halt m => m.settle halt

/-- Compiles and runs a source, for at most `fuel` instructions. -/
def interpret (m : Machine) (fuel : Nat) (source : String) : Outcome × Machine :=
  match m.load source with
  | (.unfinished, m) => m.resume fuel
  | other => other

/-- Lists functions and the functions among their constants, breadth first, at most `fuel` of
them, after the text so far. -/
def listFunctions (heap : Heap) : (fuel : Nat) → (waiting : List Handle) → String →
    Except Fault String
  | 0, _, text => .ok text
  | _, [], text => .ok text
  | fuel + 1, r :: waiting, text => do
    let f ← heap.prototype r
    let name ← match f.name with
      | some n => pure (← heap.string n).chars
      | none => pure "<script>"
    let listing ← f.chunk.listing heap name
    let nested ← f.chunk.constants.toList.filterMapM fun v => do
      let kind ← heap.kind? v
      return if kind = some .function then v.toHandle? else none
    listFunctions heap fuel (waiting ++ nested) (text ++ listing)

/-- What disassembling a source comes to. -/
inductive Disassembly
  | listing (text : String)
  | refused (es : List CompileError)
  | fault (f : Fault)

/-- Compiles a source and lists the script and every function in it. Each is an object of its
own, and no arena has more slots than a handle tells apart. -/
def disassemble (m : Machine) (source : String) : Disassembly × Machine :=
  match m.compile source with
  | (.errors es, m) => (.refused es, m)
  | (.fault f, m) => (.fault f, m)
  | (.function r, m) =>
    match listFunctions m.heap UInt32.size [r] "" with
    | .ok text => (.listing text, m)
    | .error f => (.fault f, m)

/-- Collects garbage now. -/
def collectGarbage (m : Machine) : Machine :=
  let roots := m.roots
  { m with heap := m.heap.collect roots }

/-- The text printed since it was last taken. -/
def takeOutput (m : Machine) : String × Machine :=
  (m.sink.text, { m with sink := { m.sink with text := "" } })

/-- The events since they were last taken. -/
def takeEvents (m : Machine) : Array (Severity × String) × Machine :=
  (m.heap.journal.events,
    { m with heap := { m.heap with journal := { m.heap.journal with events := #[] } } })

end Machine

end ScriptMachine
