/-!
# The hash of a text

The 32-bit FNV-1a hash over the bytes of a text: each byte is mixed in by exclusive or, then
the sum is multiplied by the FNV prime.
-/

namespace ScriptMachine.Text

/-- One byte mixed into a hash. -/
def mixByte (hash : UInt32) (byte : UInt8) : UInt32 :=
  (hash ^^^ byte.toUInt32) * 16777619

/-- The FNV-1a hash of a text's bytes. -/
def hash (s : String) : UInt32 :=
  s.toUTF8.data.foldl mixByte 2166136261

end ScriptMachine.Text
