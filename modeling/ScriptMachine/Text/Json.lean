/-!
# Compact JSON text

Values are written without blanks. A string escapes the quote, the backslash and the control
characters below the blank, the common ones by a letter and the others by four hexadecimal
digits; everything else stands for itself.
-/

namespace ScriptMachine.Text.Json

/-- A hexadecimal digit. -/
def hexDigit (n : Nat) : Char := Nat.digitChar (n % 16)

/-- A character inside a string, as the serializer of `serde_json` writes it: the quote and the
backslash behind a backslash, the five control characters that have a short escape with it, all other
characters below U+0020 as a Unicode escape with lower case digits, and everything else, the slash and
what is not ASCII too, as it is. -/
def escape (c : Char) : List Char :=
  if c = '"' then ['\\', '"']
  else if c = '\\' then ['\\', '\\']
  else if c = '\x08' then ['\\', 'b']
  else if c = '\x0c' then ['\\', 'f']
  else if c = '\n' then ['\\', 'n']
  else if c = '\r' then ['\\', 'r']
  else if c = '\t' then ['\\', 't']
  else if c.toNat < 32 then ['\\', 'u', '0', '0', hexDigit (c.toNat / 16), hexDigit c.toNat]
  else [c]

/-- A string. -/
def string (s : String) : String := String.ofList ('"' :: s.toList.flatMap escape ++ ['"'])

/-- A truth value. -/
def bool (b : Bool) : String := if b then "true" else "false"

/-- An array of written values. -/
def array (items : List String) : String := "[" ++ ",".intercalate items ++ "]"

/-- An object of names and written values, in the order given. -/
def object (fields : List (String × String)) : String :=
  "\x7b" ++ ",".intercalate (fields.map fun f => string f.1 ++ ":" ++ f.2) ++ "\x7d"

end ScriptMachine.Text.Json
