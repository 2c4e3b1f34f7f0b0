import ChangeDdl.Json.Reader

/-!
Numbers. The digits of a numeral are collected into a significand below `2 ^ 64` and a power of
ten; digits that no longer fit are dropped. A numeral without fraction and exponent whose value
fits 64 bits is an integer, and every other is the double next to its significand, scaled by the
double next to its power of ten.
-/

set_option autoImplicit false
set_option relaxedAutoImplicit false

namespace ChangeDdl.Json.Numeral

def digitValue (c : Char) : Nat :=
  c.toNat - 48

/-- The first character is a digit. -/
def startsWithDigit : List Char → Bool
  | [] => false
  | c :: _ => c.isDigit

def skipDigits (cs : List Char) : List Char :=
  cs.dropWhile Char.isDigit

def digitCount (cs : List Char) : Nat :=
  (cs.takeWhile Char.isDigit).length

/-- Appends digits to a number while it stays below a limit. -/
def absorb (limit : Nat) : Nat → List Char → Nat × List Char
  | n, [] => (n, [])
  | n, c :: rest =>
    if c.isDigit && decide (n * 10 + digitValue c < limit) then
      absorb limit (n * 10 + digitValue c) rest
    else (n, c :: rest)

/-- A number `significand * 10 ^ exponent` on its way; `plain` until a point, an exponent or a
dropped digit shows up. -/
structure Parts where
  significand : Nat
  exponent : Int
  plain : Bool

/-- The digits before the point. A zero stands alone. -/
def integerPart : Reader Parts
  | [] => .error (.before .unfinishedValue [])
  | '0' :: rest =>
    if startsWithDigit rest then .error (.upon .invalidNumber rest) else .ok (⟨0, 0, true⟩, rest)
  | c :: rest =>
    if c.isDigit then
      let (significand, dropped) := absorb UInt64.size 0 (c :: rest)
      .ok (⟨significand, digitCount dropped, !startsWithDigit dropped⟩, skipDigits dropped)
    else .error (.upon .invalidNumber (c :: rest))

/-- The point and the digits behind it, if there is a point. -/
def fractionPart (p : Parts) : Reader Parts
  | '.' :: rest =>
    if startsWithDigit rest then
      let (significand, dropped) := absorb UInt64.size p.significand rest
      .ok (⟨significand, p.exponent - ((digitCount rest : Int) - digitCount dropped), false⟩,
        skipDigits dropped)
    else .error (.upon (if rest.isEmpty then .unfinishedValue else .invalidNumber) rest)
  | rest => .ok (p, rest)

/-- The sign of an exponent, negative or not. -/
def exponentSign : List Char → Bool × List Char
  | '+' :: rest => (false, rest)
  | '-' :: rest => (true, rest)
  | rest => (false, rest)

/-- The digits of an exponent. One beyond 32 bits makes the number zero if it is negative or the
significand is zero. -/
def exponentDigits (p : Parts) (negative : Bool) : Reader Parts
  | [] => .error (.before .unfinishedValue [])
  | c :: rest =>
    if c.isDigit then
      let (n, rest) := absorb (Nat.pow 2 31) 0 (c :: rest)
      if startsWithDigit rest then
        if p.significand ≠ 0 ∧ negative = false then .error (.upon .numberOutOfRange rest)
        else .ok (⟨0, 0, false⟩, skipDigits rest)
      else .ok (⟨p.significand, if negative then p.exponent - n else p.exponent + n, false⟩, rest)
    else .error (.upon .invalidNumber (c :: rest))

/-- The exponent, if there is one. -/
def exponentPart (p : Parts) : Reader Parts
  | [] => .ok (p, [])
  | c :: rest =>
    if c = 'e' ∨ c = 'E' then
      let (negative, rest) := exponentSign rest
      exponentDigits p negative rest
    else .ok (p, c :: rest)

/-- The double next to a power of ten. -/
def tenTo (n : Nat) : Float :=
  Float.ofScientific 1 false n

/-- The double for `significand * 10 ^ exponent`, rounded in each step; there is none beyond the
greatest double. -/
def scaled (significand : Nat) (exponent : Int) : Option Float :=
  let f := Float.ofScientific significand false 0
  if 308 < exponent then if significand = 0 then some 0 else none
  else if 0 ≤ exponent then
    let product := f * tenTo exponent.toNat
    if product.isInf then none else some product
  else if -308 ≤ exponent then some (f / tenTo (-exponent).toNat)
  else if -616 ≤ exponent then some (f / tenTo 308 / tenTo (-exponent - 308).toNat)
  else some 0

/-- The integer with this sign, if 64 bits hold it. Zero has no negative. -/
def integer? (negative : Bool) (n : Nat) : Option Int :=
  if negative then if 0 < n ∧ n ≤ Nat.pow 2 63 then some (-(n : Int)) else none
  else some n

def real? (negative : Bool) (p : Parts) : Option Number :=
  (scaled p.significand p.exponent).map fun x => .real (if negative then -x else x)

/-- The number that a numeral stands for. -/
def value? (negative : Bool) (p : Parts) : Option Number :=
  match if p.plain then integer? negative p.significand else none with
  | some n => some (.integer n)
  | none => real? negative p

/-- A numeral behind its sign. -/
def unsigned (negative : Bool) : Reader Number := fun cs => do
  let (p, rest) ← integerPart cs
  let (p, rest) ← fractionPart p rest
  let (p, rest) ← exponentPart p rest
  match value? negative p with
  | some n => .ok (n, rest)
  | none => .error (.before .numberOutOfRange rest)

def read : Reader Number
  | '-' :: rest => unsigned true rest
  | cs => unsigned false cs

/-- Passes over digits of which there must be one. -/
def skimDigits : Skipper := fun cs =>
  if startsWithDigit cs then .ok (skipDigits cs) else .error (.upon .invalidNumber cs)

def skimInteger : Skipper
  | '0' :: rest => if startsWithDigit rest then .error (.upon .invalidNumber rest) else .ok rest
  | cs => skimDigits cs

def skimFraction : Skipper
  | '.' :: rest => skimDigits rest
  | rest => .ok rest

def skimExponent : Skipper
  | [] => .ok []
  | c :: rest => if c = 'e' ∨ c = 'E' then skimDigits (exponentSign rest).2 else .ok (c :: rest)

/-- Passes over a numeral of any size. -/
def skim : Skipper := fun cs => do
  let rest ← skimInteger (if cs.head? = some '-' then cs.tail else cs)
  let rest ← skimFraction rest
  skimExponent rest

end ChangeDdl.Json.Numeral
