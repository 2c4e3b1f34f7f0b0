import ChangeDdl.Decimal.Integer
import ChangeDdl.Decimal.Layout

/-!
JSON values. An object keeps its members as they were written, repetitions included;
`Members.canonical` is the view in which readers of a tree see them: one member a key, the last
one written, in the order of the keys.
-/

set_option autoImplicit false
set_option relaxedAutoImplicit false

namespace ChangeDdl.Json

/-- A number without fraction and exponent that fits 64 bits is an integer, any other a double. -/
inductive Number where
  | integer (value : Int)
  | real (value : Float)
deriving DecidableEq

/-- A value without parts. -/
inductive Scalar where
  | null
  | boolean (value : Bool)
  | number (value : Number)
  | text (value : String)
deriving DecidableEq

inductive Value where
  | scalar (value : Scalar)
  | array (items : List Value)
  | object (members : List (String × Value))

abbrev Members := List (String × Value)

/-- What a reader finds where it expected something else. -/
inductive Found where
  | scalar (value : Scalar)
  | sequence
  | map
deriving DecidableEq

namespace Value

abbrev null : Value := .scalar .null

abbrev text (s : String) : Value := .scalar (.text s)

def found : Value → Found
  | .scalar s => .scalar s
  | .array _ => .sequence
  | .object _ => .map

end Value

namespace Number

/-- Reals are written positionally from `10 ^ -5` up to `10 ^ 16`. -/
def layout : Decimal.Layout := ⟨-5, 15⟩

def negative (x : Float) : Bool :=
  Nat.pow 2 63 ≤ x.toBits.toNat

def write : Number → String
  | .integer n => Decimal.integer n
  | .real x => (if negative x then "-" else "") ++ layout.write (Decimal.shortest x)

end Number

namespace Members

/-- Places a member among members with ascending keys; a member with the same key gives way. -/
def insert (key : String) (value : Value) : Members → Members
  | [] => [(key, value)]
  | (k, v) :: rest =>
    if key = k then (key, value) :: rest
    else if key < k then (key, value) :: (k, v) :: rest
    else (k, v) :: insert key value rest

/-- One member for each key, the last one written, in ascending order of the keys. -/
def canonical (members : Members) : Members :=
  members.foldl (fun kept (key, value) => kept.insert key value) []

/-- The value of the last member with this key. -/
def last? (key : String) (members : Members) : Option Value :=
  members.reverse.lookup key

end Members

end ChangeDdl.Json
