import ScriptMachine.Decimal.Layout

/-!
# Values in one word

A value is 64 bits. A number is its binary64 pattern, every not-a-number being the one
canonical pattern. All other values lie in the quiet not-a-number space above it, marked by the
bits of `quiet`: null, false and true by a small tag, and a reference by the sign bit over the
index of its object.
-/

namespace ScriptMachine

/-- A reference to the object in one slot of the heap. -/
structure Handle where
  index : UInt32
deriving DecidableEq, Repr

/-- The position of a handle's slot. -/
def Handle.slot (r : Handle) : Nat := r.index.toNat

/-- A value of the language. -/
structure Value where
  bits : UInt64
deriving DecidableEq

namespace Value

/-- The bits that every value other than a number has set. -/
def quiet : UInt64 := 0x7FFC000000000000

/-- The bits that every reference has set. -/
def referenceTag : UInt64 := 0xFFFC000000000000

/-- The pattern that stands for every not-a-number. -/
def canonicalNaN : UInt64 := 0x7FF8000000000000

/-- Whether a binary64 pattern is a not-a-number. -/
def isNaNPattern (pattern : UInt64) : Bool :=
  pattern &&& 0x7FFFFFFFFFFFFFFF > 0x7FF0000000000000

/-- The number with a given binary64 pattern. -/
def ofPattern (pattern : UInt64) : Value :=
  if isNaNPattern pattern then ⟨canonicalNaN⟩ else ⟨pattern⟩

/-- A number. -/
def ofFloat (x : Float) : Value := ofPattern x.toBits

/-- The absent value. -/
def null : Value := ⟨quiet ||| 1⟩

/-- A truth value. -/
def ofBool (b : Bool) : Value := ⟨quiet ||| (if b then 3 else 2)⟩

/-- A reference. -/
def ofHandle (r : Handle) : Value := ⟨referenceTag ||| r.index.toUInt64⟩

/-- Whether a value is a number. -/
def isNumber (v : Value) : Bool := v.bits &&& quiet ≠ quiet

/-- Whether a value is null. -/
def isNull (v : Value) : Bool := v = null

/-- Whether a value is a truth value. -/
def isBool (v : Value) : Bool := v.bits ||| 1 = quiet ||| 3

/-- Whether a value is a reference. -/
def isReference (v : Value) : Bool := v.bits &&& referenceTag = referenceTag

/-- The number that a value is. -/
def toFloat? (v : Value) : Option Float :=
  if v.isNumber then some (Float.ofBits v.bits) else none

/-- The truth value that a value is. -/
def toBool? (v : Value) : Option Bool :=
  if v.isBool then some (v.bits = quiet ||| 3) else none

/-- The handle that a value refers by. -/
def toHandle? (v : Value) : Option Handle :=
  if v.isReference then some ⟨v.bits.toUInt32⟩ else none

/-- Null and false count as false in a condition, everything else as true. -/
def isFalsey (v : Value) : Bool := v = null || v = ofBool false

/-- Equality of the language: numbers by the rules of floating point, all else by identity. -/
def same (a b : Value) : Bool :=
  if a.isNumber && b.isNumber then Float.ofBits a.bits == Float.ofBits b.bits
  else a.bits = b.bits

/-- The name of the type of a value that is no reference. -/
def typeName? (v : Value) : Option String :=
  if v.isNumber then some "number"
  else if v.isBool then some "bool"
  else if v.isNull then some "null"
  else none

/-- The text of a value that is no reference. -/
def text (v : Value) : String :=
  if v.isNumber then Decimal.printed (Float.ofBits v.bits)
  else if v.isBool then (if v = ofBool true then "true" else "false")
  else "null"

/-- A value with the name of its kind, for messages about the machine itself. -/
def describe (v : Value) : String :=
  if v.isNumber then s!"Number({v.text})"
  else if v.isBool then s!"Bool({v.text})"
  else if v.isNull then "Null"
  else s!"Object(#{v.bits.toUInt32})"

end Value

end ScriptMachine
