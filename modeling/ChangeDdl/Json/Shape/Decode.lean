import ChangeDdl.Json.Shape

/-!
Decoding a tree. Lists are walked in order and objects in their canonical order, and the first
mismatch in that order is reported. A record may also be given as an array of its fields.
-/

set_option autoImplicit false
set_option relaxedAutoImplicit false

namespace ChangeDdl.Json

/-- A name, or an object with the name as its only key and null as its value. -/
def decodeChoice {α : Type} (variants : List (String × α)) : Value → Except Mismatch α
  | .scalar (.text name) => pick variants name
  | .object members =>
    match Members.canonical members with
    | [(name, value)] => do
      let a ← pick variants name
      match value with
      | .scalar .null => .ok a
      | value => .error (.wrongType value.found .unit)
    | _ => .error (.wrongValue .map .singleKeyMap)
  | value => .error (.wrongType value.found .textOrMap)

mutual

def Shape.decode : {α : Type} → Shape α → Value → Except Mismatch α
  | _, .atom atom, v => atom.accept v.found
  | _, .nullable value, v =>
    match v with
    | .scalar .null => .ok none
    | v => (value.decode v).map some
  | _, .choice variants _ _, v => decodeChoice variants v
  | _, .list item, v =>
    match v with
    | .array values => values.mapM item.decode
    | v => .error (.wrongType v.found .sequence)
  | _, .entries value, v =>
    match v with
    | .object members =>
      (Members.canonical members).mapM fun (key, v) => (value.decode v).map fun a => (key, a)
    | v => .error (.wrongType v.found .map)
  | _, .record name closed fields make _ _, v =>
    match v with
    | .array values => do
      let (b, surplus) ← fields.decodeItems (fields.tooShort name) 0 values
      if surplus.isEmpty then .ok (make b) else .error (.tooLong values.length)
    | .object members => do
      let draft ← (Members.canonical members).foldlM (fields.decodeMember (fields.refusal closed))
        fields.blank
      let b ← fields.complete draft
      .ok (make b)
    | v => .error (.wrongType v.found (.record name))

/-- Decodes a member into its field's place in the draft. -/
def Fields.decodeMember (refusal : String → Option Mismatch) :
    {β δ : Type} → Fields β δ → δ → String × Value → Except Mismatch δ
  | _, _, .nil, (), (name, _) =>
    match refusal name with
    | some what => .error what
    | none => .ok ()
  | _, _, .cons key shape _ rest, (slot, others), (name, value) =>
    if name = key then (shape.decode value).map fun a => (some a, others)
    else (rest.decodeMember refusal others (name, value)).map fun others => (slot, others)

/-- Decodes the fields from number `n` on from the items of an array and returns the items that
are left over. -/
def Fields.decodeItems (tooShort : Nat → Mismatch) :
    {β δ : Type} → Fields β δ → Nat → List Value → Except Mismatch (β × List Value)
  | _, _, .nil, _, values => .ok ((), values)
  | _, _, .cons key shape presence rest, n, [] =>
    match (Fields.cons key shape presence rest).defaults n with
    | .ok b => .ok (b, [])
    | .error n => .error (tooShort n)
  | _, _, .cons _ shape _ rest, n, value :: values => do
    let a ← shape.decode value
    let (b, surplus) ← rest.decodeItems tooShort (n + 1) values
    .ok ((a, b), surplus)

end

end ChangeDdl.Json
