import ScriptMachine.Heap.Display
import ScriptMachine.Text.Layout

/-!
# Listings of bytecode

A chunk is listed one instruction a line: its offset, its source line or a bar where that is the
line of the word before, its name and its operands. The captures of a closure instruction follow
it, one a line. A word whose operation is not known is one instruction by itself.
-/

namespace ScriptMachine.Chunk

open ScriptMachine.Text

/-- A number at the right end of a column of four. -/
def column (n : Nat) : String := padLeft ' ' 4 (toString n)

/-- An offset in four digits at least. -/
def offsetColumn (n : Nat) : String := padLeft '0' 4 (toString n)

/-- The printed form of a constant, a question mark where there is none. -/
def constantText (c : Chunk) (heap : Heap) (index : UInt16) : Except Fault String :=
  match c.constants[index.toNat]? with
  | some v => heap.display v
  | none => .ok "?"

/-- The number of capture words after a closure instruction. -/
def captureCount (c : Chunk) (heap : Heap) (function : UInt16) : Except Fault Nat :=
  match (c.constants[function.toNat]?).bind Value.toHandle? with
  | some r => return (← heap.prototype r).upvalueCount
  | none => .ok 0

/-- The line of one capture word. -/
def captureLine (offset : Nat) (capture : Capture) : String :=
  let place := if capture.isLocal then "local" else "upvalue"
  s!"{offsetColumn offset}    |                     {place} {capture.index}\n"

/-- The lines of the capture words from `offset` up to `stop` that the code has. -/
def captureLines (c : Chunk) (offset stop : Nat) : String :=
  (c.code.extract offset stop).toList.zipIdx offset
    |>.foldl (fun text word => text ++ captureLine word.2 (Capture.decode word.1)) ""

/-- The name of an instruction in its column. -/
def nameColumn (name : String) : String := padRight 16 name

/-- An instruction with a constant as its operand. -/
def constantLine (c : Chunk) (heap : Heap) (i : Instr) (index : UInt16) :
    Except Fault String := do
  let shown ← c.constantText heap index
  return s!"{nameColumn i.mnemonic} {column index.toNat} '{shown}'\n"

/-- An instruction with a number as its operand. -/
def numberLine (i : Instr) (n : Nat) : String := s!"{nameColumn i.mnemonic} {column n}\n"

/-- An instruction with an argument count and a name. -/
def invokeLine (c : Chunk) (heap : Heap) (i : Instr) (name : UInt16) (count : UInt8) :
    Except Fault String := do
  let shown ← c.constantText heap name
  return s!"{nameColumn i.mnemonic} ({count} args) {column name.toNat} '{shown}'\n"

/-- An instruction that goes from one offset to another. -/
def jumpLine (i : Instr) (offset target : Nat) : String :=
  s!"{nameColumn i.mnemonic} {column offset} -> {target}\n"

/-- What the listing says of the instruction at an offset, and the offset after it. -/
def operation (c : Chunk) (heap : Heap) (offset : Nat) (word : UInt32) :
    Except Fault (String × Nat) :=
  let next := offset + 1
  match Instr.decode? word with
  | none => return ("OP_UNKNOWN\n", next)
  | some i =>
    match i with
    | .constant k | .getGlobal k | .defineGlobal k | .setGlobal k | .getProperty k
    | .setProperty k | .getSuper k | .class_ k | .method k =>
      return (← c.constantLine heap i k, next)
    | .getLocal n | .setLocal n | .getUpvalue n | .setUpvalue n =>
      return (numberLine i n.toNat, next)
    | .call n => return (numberLine i n.toNat, next)
    | .invoke k n | .superInvoke k n => return (← c.invokeLine heap i k n, next)
    | .jump d | .jumpIfFalse d => return (jumpLine i offset (next + d.toNat), next)
    | .loop d => return (jumpLine i offset (next - d.toNat), next)
    | .closure k => do
      let shown ← c.constantText heap k
      let line := s!"{nameColumn i.mnemonic} {column k.toNat} {shown}\n"
      let stop := next + (← c.captureCount heap k)
      return (line ++ c.captureLines next stop, stop)
    | .null | .true_ | .false_ | .pop | .equal | .greater | .less | .add | .subtract | .multiply
    | .divide | .not | .negate | .print | .closeUpvalue | .return_ | .inherit | .duplicate =>
      return (s!"{i.mnemonic}\n", next)

/-- The source line of a word, or a bar where it is the line of the word before. -/
def lineColumn (c : Chunk) (offset : Nat) : String :=
  if offset > 0 && c.lineAt offset = c.lineAt (offset - 1) then "   |" else column (c.lineAt offset).toNat

/-- The listing of the instruction at an offset, and the offset after it. -/
def listInstr (c : Chunk) (heap : Heap) (offset : Nat) : Except Fault (String × Nat) := do
  match c.code[offset]? with
  | none => throw (.codeBounds offset)
  | some word =>
    let (text, next) ← c.operation heap offset word
    return (s!"{offsetColumn offset} {c.lineColumn offset} {text}", next)

/-- The listing from an offset on, of at most `fuel` instructions, after the text so far. -/
def listFrom (c : Chunk) (heap : Heap) : (fuel : Nat) → (offset : Nat) → String →
    Except Fault String
  | 0, _, text => .ok text
  | fuel + 1, offset, text =>
    if offset < c.code.size then do
      let (line, next) ← c.listInstr heap offset
      listFrom c heap fuel next (text ++ line)
    else .ok text

/-- The listing of a chunk under a title. Each instruction takes a word, so the words bound the
number of instructions. -/
def listing (c : Chunk) (heap : Heap) (title : String) : Except Fault String :=
  c.listFrom heap c.code.size 0 s!"== {title} ==\n"

end ScriptMachine.Chunk
