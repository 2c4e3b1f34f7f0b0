import ChangeDdl.Json.Items
import ChangeDdl.Json.Numeral

/-!
Reading a JSON text. `Scalar.read` and `Found.read` look at what begins a value, `Value.read`
takes in the whole of it and `Value.parse` a text that holds one value. Lists and objects nest at
most `Value.depthLimit` deep.
-/

set_option autoImplicit false
set_option relaxedAutoImplicit false

namespace ChangeDdl.Json

/-- A value without parts, at its first character. -/
def Scalar.read : Reader Scalar
  | [] => .error (.upon .unfinishedValue [])
  | 'n' :: rest => do
    let rest ← word ['u', 'l', 'l'] rest
    .ok (.null, rest)
  | 't' :: rest => do
    let rest ← word ['r', 'u', 'e'] rest
    .ok (.boolean true, rest)
  | 'f' :: rest => do
    let rest ← word ['a', 'l', 's', 'e'] rest
    .ok (.boolean false, rest)
  | '"' :: rest => do
    let (s, rest) ← Quoted.read rest
    .ok (.text s, rest)
  | c :: rest =>
    if c = '-' ∨ c.isDigit then do
      let (n, rest) ← Numeral.read (c :: rest)
      .ok (.number n, rest)
    else .error (.upon .expectedValue (c :: rest))

/-- Looks at the next value. A scalar is read, of a list or an object not even the bracket. -/
def Found.read : Reader Found := fun cs =>
  match skipBlanks cs with
  | '[' :: rest => .ok (.sequence, '[' :: rest)
  | '{' :: rest => .ok (.map, '{' :: rest)
  | rest => do
    let (s, rest) ← Scalar.read rest
    .ok (.scalar s, rest)

namespace Value

/-- The next value, in which lists and objects nest at most `depth` deep. -/
def read (depth : Nat) : Reader Value := fun cs =>
  match depth, skipBlanks cs with
  | depth + 1, '[' :: rest => do
    let (values, rest) ← items (read depth) rest
    .ok (.array values, rest)
  | depth + 1, '{' :: rest => do
    let (found, rest) ← members (read depth) rest
    .ok (.object found, rest)
  | 0, '[' :: rest => .error (.upon .nestedTooDeeply ('[' :: rest))
  | 0, '{' :: rest => .error (.upon .nestedTooDeeply ('{' :: rest))
  | _, rest => do
    let (s, rest) ← Scalar.read rest
    .ok (.scalar s, rest)
termination_by structural depth

def depthLimit : Nat := 127

/-- The value that a text holds. -/
def parse (text : String) : Except DecodeError Value :=
  parseWith (read depthLimit) text

end Value

end ChangeDdl.Json
