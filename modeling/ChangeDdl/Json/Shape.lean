import ChangeDdl.Json.Error

/-!
Shapes describe how the values of a type appear in JSON: as an atom, as one of some names, as a
list, or as a record with named fields. Encoding, decoding a tree and reading a text directly are
all functions of the shape, so that a type is described once.

A record of type `α` has fields whose values together form a nested product `β`; while its members
are collected in whatever order they come, a draft `δ` holds an option for each field.
-/

set_option autoImplicit false
set_option relaxedAutoImplicit false

namespace ChangeDdl.Json

/-- A type whose values are scalars. -/
inductive Atom : Type → Type where
  | text : Atom String
  | integer32 : Atom Int32
  | boolean : Atom Bool

namespace Atom

def encode : {α : Type} → Atom α → α → Scalar
  | _, text, s => .text s
  | _, integer32, n => .number (.integer n.toInt)
  | _, boolean, b => .boolean b

def acceptText : Found → Except Mismatch String
  | .scalar (.text s) => .ok s
  | found => .error (.wrongType found .text)

/-- An integer must fit 32 bits. -/
def acceptInteger32 : Found → Except Mismatch Int32
  | .scalar (.number (.integer n)) =>
    if Int32.minValue.toInt ≤ n ∧ n ≤ Int32.maxValue.toInt then .ok (Int32.ofInt n)
    else .error (.wrongValue (.scalar (.number (.integer n))) .integer32)
  | found => .error (.wrongType found .integer32)

def acceptBoolean : Found → Except Mismatch Bool
  | .scalar (.boolean b) => .ok b
  | found => .error (.wrongType found .boolean)

/-- Takes a scalar of the right kind. -/
def accept : {α : Type} → Atom α → Found → Except Mismatch α
  | _, text, found => acceptText found
  | _, integer32, found => acceptInteger32 found
  | _, boolean, found => acceptBoolean found

end Atom

/-- Whether a field may be missing, and whether its default is left out in writing. -/
inductive Presence (α : Type) where
  | required
  | defaulted (value : α)
  | sparse (value : α) (isDefault : α → Bool)
      (eq_of_isDefault : ∀ a, isDefault a = true → a = value)

namespace Presence

variable {α : Type}

def default? : Presence α → Option α
  | required => none
  | defaulted value => some value
  | sparse value _ _ => some value

/-- The field is left out in writing. -/
def omits : Presence α → α → Bool
  | required, _ => false
  | defaulted _, _ => false
  | sparse _ isDefault _, a => isDefault a

end Presence

mutual

inductive Shape : Type → Type 1 where
  | atom {α : Type} (atom : Atom α) : Shape α
  | nullable {α : Type} (value : Shape α) : Shape (Option α)
  | choice {α : Type} (variants : List (String × α)) (name : α → String)
      (lookup_name : ∀ a, variants.lookup (name a) = some a) : Shape α
  | list {α : Type} (item : Shape α) : Shape (List α)
  | entries {α : Type} (value : Shape α) : Shape (List (String × α))
  | record {α β δ : Type} (name : String) (closed : Bool) (fields : Fields β δ)
      (make : β → α) (parts : α → β) (make_parts : ∀ a, make (parts a) = a) : Shape α

inductive Fields : Type → Type → Type 1 where
  | nil : Fields Unit Unit
  | cons {α β δ : Type} (key : String) (shape : Shape α) (presence : Presence α)
      (rest : Fields β δ) : Fields (α × β) (Option α × δ)

end

namespace Fields

variable {β δ : Type}

def keys : {β δ : Type} → Fields β δ → List String
  | _, _, nil => []
  | _, _, cons key _ _ rest => key :: rest.keys

/-- The draft without members. -/
def blank : {β δ : Type} → Fields β δ → δ
  | _, _, nil => ()
  | _, _, cons _ _ _ rest => (none, rest.blank)

/-- Fills the gaps of a draft with defaults; the first field that has none is missing. -/
def complete : {β δ : Type} → Fields β δ → δ → Except Mismatch β
  | _, _, nil, () => .ok ()
  | _, _, cons key _ presence rest, (slot, others) => do
    let a ← match slot <|> presence.default? with
      | some a => .ok a
      | none => .error (.missingField key)
    let b ← rest.complete others
    .ok (a, b)

/-- The defaults of all fields, or the number of the first field that has none. -/
def defaults : {β δ : Type} → Fields β δ → Nat → Except Nat β
  | _, _, nil, _ => .ok ()
  | _, _, cons _ _ presence rest, n =>
    match presence.default? with
    | some a => (rest.defaults (n + 1)).map fun b => (a, b)
    | none => .error n

/-- The complaint about an array that ends before field `n` of a record. -/
def tooShort (fields : Fields β δ) (name : String) (n : Nat) : Mismatch :=
  .tooShort n name fields.keys.length

/-- The complaint about a key that is no field of a closed record; an open record ignores it. -/
def refusal (fields : Fields β δ) (closed : Bool) (key : String) : Option Mismatch :=
  if closed then some (.unknownField key fields.keys) else none

end Fields

/-- The variant of this name. -/
def pick {α : Type} (variants : List (String × α)) (name : String) : Except Mismatch α :=
  match variants.lookup name with
  | some a => .ok a
  | none => .error (.unknownVariant name (variants.map Prod.fst))

end ChangeDdl.Json
