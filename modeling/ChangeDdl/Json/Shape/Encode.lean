import ChangeDdl.Json.Printer
import ChangeDdl.Json.Shape

/-!
The JSON value of a typed value. Records become objects with their fields in order.
-/

set_option autoImplicit false
set_option relaxedAutoImplicit false

namespace ChangeDdl.Json

mutual

def Shape.encode : {α : Type} → Shape α → α → Value
  | _, .atom atom, a => .scalar (atom.encode a)
  | _, .nullable _, none => .null
  | _, .nullable value, some a => value.encode a
  | _, .choice _ name _, a => .text (name a)
  | _, .list item, as => .array (as.map item.encode)
  | _, .entries value, as => .object (as.map fun (key, a) => (key, value.encode a))
  | _, .record _ _ fields _ parts _, a => .object (fields.encode (parts a))

def Fields.encode : {β δ : Type} → Fields β δ → β → Members
  | _, _, .nil, () => []
  | _, _, .cons key shape presence rest, (a, b) =>
    if presence.omits a then rest.encode b else (key, shape.encode a) :: rest.encode b

end

/-- The text of a typed value. -/
def Shape.print {α : Type} (shape : Shape α) (a : α) : String :=
  (shape.encode a).print

end ChangeDdl.Json
