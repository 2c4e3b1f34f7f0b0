import ChangeDdl.Json.Quoted

/-!
Commas and brackets. `nextItem` and `nextMember` move to the next item of a list or the next key
of an object and say whether there is one; `foldItems` and `foldMembers` go on to the closing
bracket. A flag tells whether the first item is still to come.

The fuel of a loop is a text no shorter than the one it reads, since every item takes at least one
character. A loop that is given what it reads and the bracket in front of it never runs out.
-/

set_option autoImplicit false
set_option relaxedAutoImplicit false

namespace ChangeDdl.Json

/-- Moves to the next item, or past the closing bracket. -/
def nextItem (first : Bool) : Reader Bool := fun cs =>
  match skipBlanks cs with
  | [] => .error (.upon .unfinishedList [])
  | ']' :: rest => .ok (false, rest)
  | c :: rest =>
    if first then .ok (true, c :: rest)
    else if c = ',' then
      match skipBlanks rest with
      | [] => .error (.upon .unfinishedValue [])
      | ']' :: rest => .error (.upon .trailingComma (']' :: rest))
      | rest => .ok (true, rest)
    else .error (.upon .expectedCommaOrBracket (c :: rest))

/-- The closing bracket of a list in which no further item may stand. -/
def closeItems : Skipper := fun cs =>
  match skipBlanks cs with
  | [] => .error (.upon .unfinishedList [])
  | ']' :: rest => .ok rest
  | ',' :: rest =>
    match skipBlanks rest with
    | ']' :: rest => .error (.upon .trailingComma (']' :: rest))
    | rest => .error (.upon .trailingCharacters rest)
  | rest => .error (.upon .trailingCharacters rest)

/-- Folds a step over the items of a list, from behind its opening bracket or behind an item. -/
def foldItems {σ : Type} (step : σ → Reader σ) : List Char → Bool → σ → Reader σ
  | [], _, _, cs => .error (.upon .unfinishedList cs)
  | _ :: fuel, first, state, cs => do
    match ← nextItem first cs with
    | (false, rest) => .ok (state, rest)
    | (true, rest) =>
      let (state, rest) ← step state rest
      foldItems step fuel false state rest

/-- Puts the next item in front of those before it. -/
def pushItem {α : Type} (item : Reader α) (before : List α) : Reader (List α) := fun cs => do
  let (a, rest) ← item cs
  .ok (a :: before, rest)

/-- The items of a list behind its opening bracket. -/
def items {α : Type} (item : Reader α) : Reader (List α) := fun cs => do
  let (found, rest) ← foldItems (pushItem item) ('[' :: cs) true [] cs
  .ok (found.reverse, rest)

/-- The key of a member. -/
def memberKey : Reader String
  | '"' :: rest => Quoted.read rest
  | rest => .error (.upon .keyNotText rest)

/-- Moves behind the key of the next member, or past the closing brace. -/
def nextMember (first : Bool) : Reader (Option String) := fun cs =>
  match skipBlanks cs with
  | [] => .error (.upon .unfinishedObject [])
  | '}' :: rest => .ok (none, rest)
  | c :: rest => do
    if first then
      let (name, rest) ← memberKey (c :: rest)
      .ok (some name, rest)
    else if c = ',' then
      match skipBlanks rest with
      | [] => .error (.upon .unfinishedValue [])
      | '}' :: rest => .error (.upon .trailingComma ('}' :: rest))
      | rest =>
        let (name, rest) ← memberKey rest
        .ok (some name, rest)
    else .error (.upon .expectedCommaOrBrace (c :: rest))

/-- Folds a step over the members of an object, from behind its opening brace or behind a member.
The step stands behind a key and reads the colon and the value. -/
def foldMembers {σ : Type} (step : σ → String → Reader σ) : List Char → Bool → σ → Reader σ
  | [], _, _, cs => .error (.upon .unfinishedObject cs)
  | _ :: fuel, first, state, cs => do
    match ← nextMember first cs with
    | (none, rest) => .ok (state, rest)
    | (some name, rest) =>
      let (state, rest) ← step state name rest
      foldMembers step fuel false state rest

/-- Puts the member with this key in front of those before it. -/
def pushMember {α : Type} (value : Reader α) (before : List (String × α)) (name : String) :
    Reader (List (String × α)) := fun cs => do
  let rest ← colon cs
  let (a, rest) ← value rest
  .ok ((name, a) :: before, rest)

/-- The members of an object behind its opening brace. -/
def members {α : Type} (value : Reader α) : Reader (List (String × α)) := fun cs => do
  let (found, rest) ← foldMembers (pushMember value) ('{' :: cs) true [] cs
  .ok (found.reverse, rest)

end ChangeDdl.Json
