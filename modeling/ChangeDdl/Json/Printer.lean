import ChangeDdl.Json.Quoted

/-!
Writing a value without blanks, the members of an object in the order they are listed.
-/

set_option autoImplicit false
set_option relaxedAutoImplicit false

namespace ChangeDdl.Json

def Scalar.write : Scalar → List Char
  | .null => ['n', 'u', 'l', 'l']
  | .boolean true => ['t', 'r', 'u', 'e']
  | .boolean false => ['f', 'a', 'l', 's', 'e']
  | .number n => n.write.toList
  | .text s => Quoted.write s

namespace Value

mutual
/-- The text of a value. -/
def write : Value → List Char
  | .scalar s => s.write
  | .array values => '[' :: (writeItems values ++ [']'])
  | .object members => '{' :: (writeMembers members ++ ['}'])

def writeItems : List Value → List Char
  | [] => []
  | v :: rest => v.write ++ writeMoreItems rest

/-- Items that follow another, each behind a comma. -/
def writeMoreItems : List Value → List Char
  | [] => []
  | v :: rest => ',' :: (v.write ++ writeMoreItems rest)

def writeMembers : List (String × Value) → List Char
  | [] => []
  | (name, v) :: rest => Quoted.write name ++ ':' :: (v.write ++ writeMoreMembers rest)

/-- Members that follow another, each behind a comma. -/
def writeMoreMembers : List (String × Value) → List Char
  | [] => []
  | (name, v) :: rest =>
    ',' :: (Quoted.write name ++ ':' :: (v.write ++ writeMoreMembers rest))
end

def print (v : Value) : String :=
  String.ofList v.write

end Value

end ChangeDdl.Json
