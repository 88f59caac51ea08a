import ScriptMachine.Value
import ScriptMachine.Bytecode.Instr

/-!
# Chunks of bytecode

The code of one function: its words, the source line of each word, and the constants that the
words refer to by their index.
-/

namespace ScriptMachine

/-- The code of one function. -/
structure Chunk where
  code : Array UInt32
  lines : Array UInt32
  constants : Array Value

namespace Chunk

/-- The chunk without code. -/
def empty : Chunk := ⟨#[], #[], #[]⟩

/-- The number of constants that an operand can tell apart. -/
def maxConstants : Nat := 65536

/-- The longest distance that an operand can hold. -/
def maxDistance : Nat := 65535

/-- The chunk with one more word. -/
def push (c : Chunk) (word line : UInt32) : Chunk :=
  { c with code := c.code.push word, lines := c.lines.push line }

/-- The chunk with one more constant. -/
def pushConstant (c : Chunk) (v : Value) : Chunk :=
  { c with constants := c.constants.push v }

/-- The chunk with the operand of one word replaced. -/
def patch (c : Chunk) (at_ : Nat) (operand : UInt16) : Chunk :=
  { c with code := c.code.modify at_ (setWordOperand · operand) }

/-- The line of a word, zero where there is none. -/
def lineAt (c : Chunk) (offset : Nat) : UInt32 := c.lines[offset]?.getD 0

/-- The bytes that a chunk's arrays are charged for. -/
def bytes (c : Chunk) : Nat := c.code.size * 4 + c.constants.size * 8 + c.lines.size * 4

end Chunk

end ScriptMachine
