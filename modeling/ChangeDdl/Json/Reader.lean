import ChangeDdl.Json.Error

/-!
Readers take what they read off the front of a text and return the rest of it. Here are the parts
that every reader of JSON shares: blanks, words, the colon of a member and the end of the text.
-/

set_option autoImplicit false
set_option relaxedAutoImplicit false

namespace ChangeDdl.Json

abbrev Reader (α : Type) := List Char → Except Fault (α × List Char)

/-- A reader that only moves on. -/
abbrev Skipper := List Char → Except Fault (List Char)

def isBlank (c : Char) : Bool :=
  c = ' ' || c = '\n' || c = '\t' || c = '\r'

def skipBlanks (cs : List Char) : List Char :=
  cs.dropWhile isBlank

/-- Passes over the remaining letters of a word. -/
def word : List Char → Skipper
  | [], rest => .ok rest
  | _ :: _, [] => .error (.before .unfinishedValue [])
  | letter :: letters, c :: rest =>
    if c = letter then word letters rest else .error (.upon .expectedWord (c :: rest))

/-- Passes over the colon between a key and its value. -/
def colon : Skipper := fun cs =>
  match skipBlanks cs with
  | [] => .error (.upon .unfinishedObject [])
  | ':' :: rest => .ok rest
  | rest => .error (.upon .expectedColon rest)

/-- Runs a reader on a whole text, behind which only blanks may stand. -/
def readAll {α : Type} (reader : Reader α) (cs : List Char) : Except Fault α := do
  let (a, rest) ← reader cs
  match skipBlanks rest with
  | [] => .ok a
  | rest => .error (.upon .trailingCharacters rest)

/-- Runs a reader on a whole text and places its fault in lines and columns. -/
def parseWith {α : Type} (reader : Reader α) (text : String) : Except DecodeError α :=
  match readAll reader text.toList with
  | .ok a => .ok a
  | .error fault => .error (.ofFault text.toList fault)

end ChangeDdl.Json
