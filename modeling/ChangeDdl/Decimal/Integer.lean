/-!
Integers in decimal digits, without leading zeros and with a sign only when it is negative.
-/

set_option autoImplicit false
set_option relaxedAutoImplicit false

namespace ChangeDdl.Decimal

def natural (n : Nat) : String :=
  String.ofList (Nat.toDigits 10 n)

def integer (n : Int) : String :=
  (if n < 0 then "-" else "") ++ natural n.natAbs

end ChangeDdl.Decimal
