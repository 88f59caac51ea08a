import ScriptMachine.Decimal.Shortest

/-!
# Two layouts of a number

`positional` writes every place and never an exponent. `printed` is the text scripts print:
whole numbers within the signed 64-bit range as integers (so that a negative zero is `0`, and a
power of two just past the range shows the range's end), very large and very small magnitudes
with an exponent, everything else positionally.
-/

namespace ScriptMachine.Decimal

/-- The decimal digits of the coefficient. -/
def Scaled.digits (d : Scaled) : List Char := Nat.toDigits 10 d.coefficient

/-- Zeros to fill places with. -/
def zeros (n : Nat) : List Char := List.replicate n '0'

/-- All places of `d`, with a point only where a fraction follows. -/
def Scaled.positional (d : Scaled) : String :=
  let digits := d.digits
  let point := (digits.length : Int) + d.exponent
  String.ofList <|
    if 0 ≤ d.exponent then digits ++ zeros d.exponent.toNat
    else if 0 < point then digits.take point.toNat ++ '.' :: digits.drop point.toNat
    else '0' :: '.' :: zeros (-point).toNat ++ digits

/-- One digit before the point, then the exponent with its sign. -/
def Scaled.scientific (d : Scaled) : String :=
  let digits := d.digits
  let exponent := (digits.length : Int) + d.exponent - 1
  let fraction := if digits.length ≤ 1 then [] else '.' :: digits.drop 1
  String.ofList (digits.take 1 ++ fraction) ++
    (if 0 ≤ exponent then s!"e+{exponent}" else s!"e{exponent}")

/-- The shortest decimal of a float's magnitude. -/
def shortestOf (x : Float) : Scaled := (Binary.ofPattern x.toBits).shortest

/-- A minus sign in front of the text of a negative number. -/
def signed (x : Float) (text : String) : String :=
  if x.toBits >>> 63 = 1 then "-" ++ text else text

/-- The shortest digits of a float without an exponent. -/
def positional (x : Float) : String :=
  if x.isNaN then "NaN"
  else if x.isInf then signed x "inf"
  else if x == 0 then signed x "0"
  else signed x (shortestOf x).positional

/-- The whole number that a binary number is, if it is one. -/
def Binary.whole? (b : Binary) : Option Nat :=
  if 0 ≤ b.exponent then some (b.mantissa <<< b.exponent.toNat)
  else
    let unit := 1 <<< (-b.exponent).toNat
    if b.mantissa % unit = 0 then some (b.mantissa / unit) else none

/-- The magnitude of the least signed 64-bit integer. -/
def signedLimit : Nat := UInt64.size / 2

/-- The signed 64-bit integer nearest to a whole number. -/
def clampedInteger (negative : Bool) (magnitude : Nat) : Int :=
  if negative then -(min magnitude signedLimit : Nat) else (min magnitude (signedLimit - 1) : Nat)

/-- The text of a number as scripts print it. -/
def printed (x : Float) : String :=
  let magnitude := x.abs
  if x.isFinite && (magnitude ≥ 1e21 || (magnitude > 0 && magnitude < 1e-7)) then
    signed x (shortestOf x).scientific
  else if x.isFinite then
    match (Binary.ofPattern x.toBits).whole? with
    | some n =>
      if n ≤ signedLimit then toString (clampedInteger (x.toBits >>> 63 = 1) n) else positional x
    | none => positional x
  else positional x

end ScriptMachine.Decimal
