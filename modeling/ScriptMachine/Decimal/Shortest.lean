/-!
# The fewest decimal digits that read back

A positive binary number `mantissa · 2 ^ exponent` stands for every real that rounds to it.
Among the decimals in that interval the shortest ones have the same number of digits, and the
one chosen is the nearest of them; of two equally near ones it is the larger. Everything is
exact arithmetic on natural numbers. Signs, zeros, infinities and the layout of the digits are
not decided here.
-/

namespace ScriptMachine.Decimal

/-- A positive finite binary number, with its lower neighbour closer when `narrow` holds. -/
structure Binary where
  mantissa : Nat
  exponent : Int
  narrow : Bool
deriving DecidableEq

/-- The digits of `coefficient`, moved by `exponent` decimal places. -/
structure Scaled where
  coefficient : Nat
  exponent : Int
deriving DecidableEq

/-- The magnitude held in the low 63 bits of a binary64 pattern. -/
def Binary.ofPattern (pattern : UInt64) : Binary :=
  let fraction : Nat := pattern.toNat % (1 <<< 52)
  let biased : Nat := (pattern.toNat >>> 52) % (1 <<< 11)
  if biased = 0 then
    { mantissa := fraction, exponent := -1074, narrow := false }
  else
    { mantissa := (1 <<< 52) + fraction
      exponent := (biased : Int) - 1075
      narrow := fraction = 0 && biased ≠ 1 }

/-- A power of `base`, as a numerator and a denominator. -/
def ratio (base : Nat) (k : Int) : Nat × Nat :=
  if 0 ≤ k then (base.pow k.toNat, 1) else (1, base.pow (-k).toNat)

/-- The interval of reals that round to a binary number, in units of `scale / step` decimal
grid steps; its ends belong to it iff `closed`. -/
structure Interval where
  lower : Nat
  value : Nat
  upper : Nat
  step : Nat
  closed : Bool

/-- The interval around `b`, measured on the grid of multiples of `10 ^ k`. -/
def Binary.interval (b : Binary) (k : Int) : Interval :=
  let (up, down) := ratio 2 (b.exponent - 2)
  let (top, bottom) := ratio 10 k
  let scale := up * bottom
  { lower := (4 * b.mantissa - (if b.narrow then 1 else 2)) * scale
    value := 4 * b.mantissa * scale
    upper := (4 * b.mantissa + 2) * scale
    step := top * down
    closed := b.mantissa % 2 = 0 }

/-- Whether the grid point number `c` lies in the interval. -/
def Interval.contains (i : Interval) (c : Nat) : Bool :=
  if i.closed then
    i.lower ≤ c * i.step && c * i.step ≤ i.upper
  else
    i.lower < c * i.step && c * i.step < i.upper

/-- The grid point of the interval nearest to its value, the larger of two equally near. -/
def Interval.nearest? (i : Interval) : Option Nat :=
  let below := i.value / i.step
  let rest := i.value % i.step
  match i.contains below, i.contains (below + 1) with
  | true, true => some (if 2 * rest < i.step then below else below + 1)
  | true, false => some below
  | false, true => some (below + 1)
  | false, false => none

/-- The first grid `10 ^ k`, `10 ^ (k - 1)`, … with a point in the interval of `b`, trying
`fuel` of them before it settles for the grid point below. -/
def Binary.search (b : Binary) : (fuel : Nat) → (k : Int) → Scaled
  | 0, k => ⟨(b.interval k).value / (b.interval k).step, k⟩
  | fuel + 1, k =>
    match (b.interval k).nearest? with
    | some c => ⟨c, k⟩
    | none => b.search fuel (k - 1)

/-- A power of ten above `b`, at most two places too high. -/
def Binary.ceiling (b : Binary) : Int :=
  ((Nat.log2 b.mantissa + 1 : Nat) + b.exponent) * 30103 / 100000 + 1

/-- Takes final zeros out of the coefficient, at most `fuel` of them. -/
def Scaled.trim : (fuel : Nat) → Scaled → Scaled
  | 0, d => d
  | fuel + 1, d =>
    if d.coefficient % 10 = 0 then
      Scaled.trim fuel ⟨d.coefficient / 10, d.exponent + 1⟩
    else d

/-- The shortest decimal that rounds to `b`. Seventeen digits always reach into the interval,
so twenty grids are enough. -/
def Binary.shortest (b : Binary) : Scaled :=
  Scaled.trim 20 (b.search 20 b.ceiling)

end ScriptMachine.Decimal
