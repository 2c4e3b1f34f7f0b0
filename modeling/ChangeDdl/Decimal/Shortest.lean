/-!
The shortest decimal of a double. A finite double stands for every real that rounds to it; among
the decimals in that interval the one with the fewest digits is chosen, of two such the nearer,
and on a tie the even one. All comparisons are exact.
-/

set_option autoImplicit false
set_option relaxedAutoImplicit false

namespace ChangeDdl

/-- The number `digits * 10 ^ exponent`. -/
structure Decimal where
  digits : Nat
  exponent : Int
deriving DecidableEq

namespace Decimal

/-- A finite double without its sign: `mantissa * 2 ^ exponent`. -/
structure Binary where
  mantissa : Nat
  exponent : Int
deriving DecidableEq

namespace Binary

def ofFloat (x : Float) : Binary :=
  let bits : Nat := x.toBits.toNat % Nat.pow 2 63
  let field : Nat := bits / Nat.pow 2 52
  let fraction : Nat := bits % Nat.pow 2 52
  if field = 0 then ⟨fraction, -1074⟩ else ⟨Nat.pow 2 52 + fraction, (field : Int) - 1075⟩

/-- Compares `a * 10 ^ i` with `n * 2 ^ j`. -/
def compareScaled (a : Nat) (i : Int) (n : Nat) (j : Int) : Ordering :=
  compare (a * Nat.pow 10 i.toNat * Nat.pow 2 (-j).toNat)
    (n * Nat.pow 2 j.toNat * Nat.pow 10 (-i).toNat)

/-- The lower end of the interval that rounds to `x`, in quarters of its last place. Below a
power of two the neighbour is half as far away. -/
def lowerEnd (x : Binary) : Nat :=
  if x.mantissa = Nat.pow 2 52 ∧ -1074 < x.exponent then 4 * x.mantissa - 1 else 4 * x.mantissa - 2

def upperEnd (x : Binary) : Nat :=
  4 * x.mantissa + 2

/-- The decimal rounds to `x`: it lies between the ends, which count when the mantissa is even. -/
def roundsFrom (x : Binary) (d : Decimal) : Bool :=
  let below := compareScaled d.digits d.exponent x.lowerEnd (x.exponent - 2)
  let above := compareScaled d.digits d.exponent x.upperEnd (x.exponent - 2)
  if x.mantissa % 2 = 0 then below != .lt && above != .gt else below == .gt && above == .lt

/-- The least power of ten above `x`, searched upwards from a bound that its binary logarithm
gives. -/
def scale (x : Binary) : Int :=
  let least := ((x.mantissa.log2 : Int) + x.exponent) * 30103 / 100000
  let above (k : Int) : Bool := compareScaled 1 k x.mantissa x.exponent == .gt
  if above least then least else if above (least + 1) then least + 1 else least + 2

/-- The multiple of `10 ^ exponent` that rounds to `x`, if one of the two next to `x` does. -/
def onGrid (x : Binary) (exponent : Int) : Option Decimal :=
  let numerator := x.mantissa * Nat.pow 2 x.exponent.toNat * Nat.pow 10 (-exponent).toNat
  let denominator := Nat.pow 2 (-x.exponent).toNat * Nat.pow 10 exponent.toNat
  let floor := numerator / denominator
  match x.roundsFrom ⟨floor, exponent⟩, x.roundsFrom ⟨floor + 1, exponent⟩ with
  | false, false => none
  | true, false => some ⟨floor, exponent⟩
  | false, true => some ⟨floor + 1, exponent⟩
  | true, true =>
    match compare (2 * numerator) ((2 * floor + 1) * denominator) with
    | .lt => some ⟨floor, exponent⟩
    | .gt => some ⟨floor + 1, exponent⟩
    | .eq => some ⟨if floor % 2 = 0 then floor else floor + 1, exponent⟩

/-- The number itself, as a decimal. -/
def exact (x : Binary) : Decimal :=
  if 0 ≤ x.exponent then ⟨x.mantissa * Nat.pow 2 x.exponent.toNat, 0⟩
  else ⟨x.mantissa * Nat.pow 5 (-x.exponent).toNat, x.exponent⟩

end Binary

/-- Moves trailing zeros of the digits into the exponent. -/
def strip : Nat → Decimal → Decimal
  | 0, d => d
  | fuel + 1, d =>
    if d.digits ≠ 0 ∧ d.digits % 10 = 0 then strip fuel ⟨d.digits / 10, d.exponent + 1⟩ else d

/-- The decimal with the fewest digits that rounds to `x`. -/
def shortest (x : Float) : Decimal :=
  let b := Binary.ofFloat x
  if b.mantissa = 0 then ⟨0, 0⟩
  else
    let grids := (List.range 17).map fun (n : Nat) => b.scale - 1 - (n : Int)
    let d := (grids.findSome? b.onGrid).getD b.exact
    strip d.digits d

end Decimal

end ChangeDdl
