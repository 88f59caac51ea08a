/-!
# Instructions

An instruction is one 32-bit word: the operation in its high byte, an argument count in the next
byte and an index, slot or distance in the low half. A closure instruction is followed by one
word for each captured variable. `decode?` reads a word back and knows no other operations.
-/

namespace ScriptMachine

/-- The instructions of the machine with their operands. -/
inductive Instr
  | constant (index : UInt16)
  | null
  | true_
  | false_
  | pop
  | getLocal (slot : UInt16)
  | setLocal (slot : UInt16)
  | getGlobal (name : UInt16)
  | defineGlobal (name : UInt16)
  | setGlobal (name : UInt16)
  | getUpvalue (index : UInt16)
  | setUpvalue (index : UInt16)
  | getProperty (name : UInt16)
  | setProperty (name : UInt16)
  | getSuper (name : UInt16)
  | equal
  | greater
  | less
  | add
  | subtract
  | multiply
  | divide
  | not
  | negate
  | print
  | jump (distance : UInt16)
  | jumpIfFalse (distance : UInt16)
  | loop (distance : UInt16)
  | call (count : UInt8)
  | invoke (name : UInt16) (count : UInt8)
  | superInvoke (name : UInt16) (count : UInt8)
  | closure (function : UInt16)
  | closeUpvalue
  | return_
  | class_ (name : UInt16)
  | inherit
  | method (name : UInt16)
  | duplicate
deriving DecidableEq

/-- The word of an operation and its two operand fields. -/
def packWord (operation : UInt8) (count : UInt8) (operand : UInt16) : UInt32 :=
  operation.toUInt32 <<< 24 ||| count.toUInt32 <<< 16 ||| operand.toUInt32

/-- The operation field of a word. -/
def wordOperation (word : UInt32) : UInt8 := (word >>> 24).toUInt8

/-- The argument count field of a word. -/
def wordCount (word : UInt32) : UInt8 := (word >>> 16).toUInt8

/-- The operand field of a word. -/
def wordOperand (word : UInt32) : UInt16 := word.toUInt16

/-- The word with another operand field. -/
def setWordOperand (word : UInt32) (operand : UInt16) : UInt32 :=
  word &&& 0xFFFF0000 ||| operand.toUInt32

theorem wordOperation_packWord (o c : UInt8) (x : UInt16) :
    wordOperation (packWord o c x) = o := by
  apply UInt8.toBitVec_inj.mp
  ext i hi
  have high : c.toBitVec.getLsbD (24 + i - 16) = false := BitVec.getLsbD_of_ge _ _ (by omega)
  have wide : x.toBitVec.getLsbD (24 + i) = false := BitVec.getLsbD_of_ge _ _ (by omega)
  have inside : i < 32 ∧ 24 + i < 32 := by omega
  simp [wordOperation, packWord, high, wide, inside, BitVec.getLsbD_eq_getElem hi]

theorem wordCount_packWord (o c : UInt8) (x : UInt16) : wordCount (packWord o c x) = c := by
  apply UInt8.toBitVec_inj.mp
  ext i hi
  have inside : i < 32 ∧ 16 + i < 32 ∧ 16 + i < 24 := by omega
  simp [wordCount, packWord, inside, BitVec.getLsbD_eq_getElem hi]

theorem wordOperand_packWord (o c : UInt8) (x : UInt16) : wordOperand (packWord o c x) = x := by
  apply UInt16.toBitVec_inj.mp
  ext i hi
  simp [wordOperand, packWord]

namespace Instr

/-- The word of an instruction. -/
def encode : Instr → UInt32
  | constant k => packWord 0 0 k
  | null => packWord 1 0 0
  | true_ => packWord 2 0 0
  | false_ => packWord 3 0 0
  | pop => packWord 4 0 0
  | getLocal s => packWord 5 0 s
  | setLocal s => packWord 6 0 s
  | getGlobal k => packWord 7 0 k
  | defineGlobal k => packWord 8 0 k
  | setGlobal k => packWord 9 0 k
  | getUpvalue i => packWord 10 0 i
  | setUpvalue i => packWord 11 0 i
  | getProperty k => packWord 12 0 k
  | setProperty k => packWord 13 0 k
  | getSuper k => packWord 14 0 k
  | equal => packWord 15 0 0
  | greater => packWord 16 0 0
  | less => packWord 17 0 0
  | add => packWord 18 0 0
  | subtract => packWord 19 0 0
  | multiply => packWord 20 0 0
  | divide => packWord 21 0 0
  | not => packWord 22 0 0
  | negate => packWord 23 0 0
  | print => packWord 24 0 0
  | jump d => packWord 25 0 d
  | jumpIfFalse d => packWord 26 0 d
  | loop d => packWord 27 0 d
  | call n => packWord 28 n 0
  | invoke k n => packWord 29 n k
  | superInvoke k n => packWord 30 n k
  | closure k => packWord 31 0 k
  | closeUpvalue => packWord 32 0 0
  | return_ => packWord 33 0 0
  | class_ k => packWord 34 0 k
  | inherit => packWord 35 0 0
  | method k => packWord 36 0 k
  | duplicate => packWord 37 0 0

/-- The instruction of a word, if its operation is known. -/
def decode? (word : UInt32) : Option Instr :=
  let operand := wordOperand word
  match wordOperation word with
  | 0 => some (constant operand)
  | 1 => some null
  | 2 => some true_
  | 3 => some false_
  | 4 => some pop
  | 5 => some (getLocal operand)
  | 6 => some (setLocal operand)
  | 7 => some (getGlobal operand)
  | 8 => some (defineGlobal operand)
  | 9 => some (setGlobal operand)
  | 10 => some (getUpvalue operand)
  | 11 => some (setUpvalue operand)
  | 12 => some (getProperty operand)
  | 13 => some (setProperty operand)
  | 14 => some (getSuper operand)
  | 15 => some equal
  | 16 => some greater
  | 17 => some less
  | 18 => some add
  | 19 => some subtract
  | 20 => some multiply
  | 21 => some divide
  | 22 => some not
  | 23 => some negate
  | 24 => some print
  | 25 => some (jump operand)
  | 26 => some (jumpIfFalse operand)
  | 27 => some (loop operand)
  | 28 => some (call (wordCount word))
  | 29 => some (invoke operand (wordCount word))
  | 30 => some (superInvoke operand (wordCount word))
  | 31 => some (closure operand)
  | 32 => some closeUpvalue
  | 33 => some return_
  | 34 => some (class_ operand)
  | 35 => some inherit
  | 36 => some (method operand)
  | 37 => some duplicate
  | _ => none

/-- Reading a word back gives the instruction it was made from. -/
theorem decode?_encode (i : Instr) : decode? i.encode = some i := by
  cases i <;>
    simp [encode, decode?, wordOperation_packWord, wordCount_packWord, wordOperand_packWord]

/-- The name of an instruction in listings. -/
def mnemonic : Instr → String
  | constant _ => "OP_CONSTANT"
  | null => "OP_NULL"
  | true_ => "OP_TRUE"
  | false_ => "OP_FALSE"
  | pop => "OP_POP"
  | getLocal _ => "OP_GET_LOCAL"
  | setLocal _ => "OP_SET_LOCAL"
  | getGlobal _ => "OP_GET_GLOBAL"
  | defineGlobal _ => "OP_DEFINE_GLOBAL"
  | setGlobal _ => "OP_SET_GLOBAL"
  | getUpvalue _ => "OP_GET_UPVALUE"
  | setUpvalue _ => "OP_SET_UPVALUE"
  | getProperty _ => "OP_GET_PROPERTY"
  | setProperty _ => "OP_SET_PROPERTY"
  | getSuper _ => "OP_GET_SUPER"
  | equal => "OP_EQUAL"
  | greater => "OP_GREATER"
  | less => "OP_LESS"
  | add => "OP_ADD"
  | subtract => "OP_SUB"
  | multiply => "OP_MUL"
  | divide => "OP_DIV"
  | not => "OP_NOT"
  | negate => "OP_NEGATE"
  | print => "OP_PRINT"
  | jump _ => "OP_JUMP"
  | jumpIfFalse _ => "OP_JUMP_IF_FALSE"
  | loop _ => "OP_LOOP"
  | call _ => "OP_CALL"
  | invoke _ _ => "OP_INVOKE"
  | superInvoke _ _ => "OP_SUPER_INVOKE"
  | closure _ => "OP_CLOSURE"
  | closeUpvalue => "OP_CLOSE_UPVALUE"
  | return_ => "OP_RETURN"
  | class_ _ => "OP_CLASS"
  | inherit => "OP_INHERIT"
  | method _ => "OP_METHOD"
  | duplicate => "OP_DUP"

end Instr

/-- Where a closure finds a variable it captures: in a slot of the function that makes it, or
among that function's own captures. -/
structure Capture where
  isLocal : Bool
  index : UInt8
deriving DecidableEq

namespace Capture

/-- The word of a capture. -/
def encode (c : Capture) : UInt32 :=
  (if c.isLocal then 0x100 else 0) ||| c.index.toUInt32

/-- The capture of a word. -/
def decode (word : UInt32) : Capture := ⟨word &&& 0x100 ≠ 0, word.toUInt8⟩

theorem index_and_flag (n : UInt8) : n.toUInt32 &&& 0x100 = 0 := by
  have bit (j : Nat) : Nat.testBit 256 j = decide (8 = j) :=
    Nat.testBit_two_pow (n := 8)
  have low : n.toNat.testBit 8 = false := Nat.testBit_lt_two_pow n.toNat_lt
  apply UInt32.toNat_inj.mp
  apply Nat.eq_of_testBit_eq
  intro j
  by_cases h : 8 = j
  · simp [← h, low]
  · simp [bit, h]

theorem flag_or_and_flag (n : UInt32) : (0x100 ||| n) &&& 0x100 = 0x100 := by
  apply UInt32.toBitVec_inj.mp
  ext j hj
  simp only [UInt32.toBitVec_and, UInt32.toBitVec_or, BitVec.getElem_and, BitVec.getElem_or]
  cases (UInt32.toBitVec 0x100)[j] <;> simp

/-- Reading a word back gives the capture it was made from. -/
theorem decode_encode (c : Capture) : decode c.encode = c := by
  obtain ⟨l, i⟩ := c
  cases l
  · simp [decode, encode, index_and_flag]
  · have none : (256 : UInt8) = 0 := rfl
    simp [decode, encode, flag_or_and_flag, none]

end Capture

end ScriptMachine
