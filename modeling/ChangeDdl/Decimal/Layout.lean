import ChangeDdl.Decimal.Shortest

/-!
How a decimal is written: positionally while the exponent of its first digit lies in a given
range, otherwise with one digit before the point and a signed exponent.
-/

set_option autoImplicit false
set_option relaxedAutoImplicit false

namespace ChangeDdl.Decimal

/-- The exponents of the first digit for which the positional form is used. -/
structure Layout where
  least : Int
  greatest : Int

def zeros (n : Nat) : List Char :=
  List.replicate n '0'

/-- Digits and a point, with at least one digit on either side of it. -/
def positional (ds : List Char) (exponent : Int) : List Char :=
  let point := (ds.length : Int) + exponent
  if 0 ≤ exponent then ds ++ zeros exponent.toNat ++ ['.', '0']
  else if 0 < point then ds.take point.toNat ++ '.' :: ds.drop point.toNat
  else ['0', '.'] ++ zeros (-point).toNat ++ ds

/-- One digit, the others after a point if there are any, and a signed exponent. -/
def scientific (ds : List Char) (leading : Int) : List Char :=
  let fraction := ds.drop 1
  ds.take 1 ++ (if fraction.isEmpty then [] else '.' :: fraction) ++
    ['e', if leading < 0 then '-' else '+'] ++ Nat.toDigits 10 leading.natAbs

def Layout.write (layout : Layout) (d : Decimal) : String :=
  let ds := Nat.toDigits 10 d.digits
  let leading := (ds.length : Int) - 1 + d.exponent
  String.ofList <|
    if layout.least ≤ leading ∧ leading ≤ layout.greatest then positional ds d.exponent
    else scientific ds leading

end ChangeDdl.Decimal
