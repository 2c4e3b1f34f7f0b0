import ChangeDdl.Json.Document
import ChangeDdl.Json.Shape
import ChangeDdl.Json.Skim

/-!
Reading a typed value straight from a text, in the order of the text and without a tree in
between. A mismatch is placed behind what was read last; in front of a list or an object nothing
of it is read.
-/

set_option autoImplicit false
set_option relaxedAutoImplicit false

namespace ChangeDdl.Json

/-- Places a mismatch in front of `rest`. -/
def placed {α : Type} (rest : List Char) : Except Mismatch α → Except Fault (α × List Char)
  | .ok a => .ok (a, rest)
  | .error what => .error (.mismatch what rest)

/-- Refuses the next value. -/
def reject {α : Type} (expected : Expected) : Reader α := fun cs => do
  let (found, rest) ← Found.read cs
  .error (.mismatch (.wrongType found expected) rest)

/-- Passes over null. -/
def skipNull : Skipper := fun cs => do
  match ← Found.read cs with
  | (.scalar .null, rest) => .ok rest
  | (found, rest) => .error (.mismatch (.wrongType found .unit) rest)

/-- A quoted name, or an object with the name as its only key and null as its value. -/
def readChoice {α : Type} (variants : List (String × α)) : Reader α := fun cs =>
  match skipBlanks cs with
  | [] => .error (.upon .unfinishedValue [])
  | '"' :: rest => do
    let (name, rest) ← Quoted.read rest
    placed rest (pick variants name)
  | '{' :: rest =>
    match skipBlanks rest with
    | [] => .error (.upon .unfinishedObject [])
    | '}' :: rest => .error (.upon .expectedValue ('}' :: rest))
    | rest => do
      let (name, rest) ← memberKey rest
      let (a, rest) ← placed rest (pick variants name)
      let rest ← colon rest
      let rest ← skipNull rest
      match skipBlanks rest with
      | [] => .error (.before .unfinishedObject [])
      | '}' :: rest => .ok (a, rest)
      | rest => .error (.before .expectedValue rest)
  | rest => .error (.upon .expectedValue rest)

/-- The text behind a key that is complained about: blanks and a closing brace are passed over. -/
def behindKey (cs : List Char) : List Char :=
  match skipBlanks cs with
  | '}' :: rest => rest
  | rest => rest

mutual

def Shape.read : {α : Type} → Shape α → Reader α
  | _, .atom atom, cs => do
    let (found, rest) ← Found.read cs
    placed rest (atom.accept found)
  | _, .nullable value, cs =>
    match skipBlanks cs with
    | 'n' :: rest => do
      let rest ← word ['u', 'l', 'l'] rest
      .ok (none, rest)
    | rest => do
      let (a, rest) ← value.read rest
      .ok (some a, rest)
  | _, .choice variants _ _, cs => readChoice variants cs
  | _, .list item, cs =>
    match skipBlanks cs with
    | '[' :: rest => items item.read rest
    | rest => reject .sequence rest
  | _, .entries value, cs =>
    match skipBlanks cs with
    | '{' :: rest => members value.read rest
    | rest => reject .map rest
  | _, .record name closed fields make _ _, cs =>
    match skipBlanks cs with
    | '[' :: rest => do
      let (b, rest) ← fields.readItems (fields.tooShort name) 0 true rest
      .ok (make b, rest)
    | '{' :: rest => do
      let (draft, rest) ← foldMembers (fields.readMember (fields.refusal closed)) ('{' :: rest) true
        fields.blank rest
      let (b, rest) ← placed rest (fields.complete draft)
      .ok (make b, rest)
    | rest => reject (.record name) rest

/-- Reads a member into its field's place in the draft, which must be free. -/
def Fields.readMember (refusal : String → Option Mismatch) :
    {β δ : Type} → Fields β δ → δ → String → Reader δ
  | _, _, .nil, (), name, cs =>
    match refusal name with
    | some what => .error (.mismatch what (behindKey cs))
    | none => do
      let rest ← colon cs
      let rest ← skim rest
      .ok ((), rest)
  | _, _, .cons key shape _ rest, (slot, others), name, cs =>
    if name = key then
      if slot.isSome then .error (.mismatch (.repeatedField key) (behindKey cs))
      else do
        let cs ← colon cs
        let (a, cs) ← shape.read cs
        .ok ((some a, others), cs)
    else do
      let (others, cs) ← rest.readMember refusal others name cs
      .ok ((slot, others), cs)

/-- Reads the fields from number `n` on from the items of an array, and the closing bracket. -/
def Fields.readItems (tooShort : Nat → Mismatch) :
    {β δ : Type} → Fields β δ → Nat → Bool → Reader β
  | _, _, .nil, _, _, cs => do
    let cs ← closeItems cs
    .ok ((), cs)
  | _, _, .cons key shape presence rest, n, first, cs => do
    match ← nextItem first cs with
    | (false, cs) =>
      match (Fields.cons key shape presence rest).defaults n with
      | .ok b => .ok (b, cs)
      | .error n => .error (.mismatch (tooShort n) cs)
    | (true, cs) =>
      let (a, cs) ← shape.read cs
      let (b, cs) ← rest.readItems tooShort (n + 1) false cs
      .ok ((a, b), cs)

end

/-- The typed value that a text holds. -/
def Shape.parse {α : Type} (shape : Shape α) (text : String) : Except DecodeError α :=
  parseWith shape.read text

end ChangeDdl.Json
