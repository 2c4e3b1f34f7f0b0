import ChangeDdl.Dialect
import ChangeDdl.Event
import ChangeDdl.Json.Error

/-!
Why a text is no event or no configuration, or an event has no statements.
-/

set_option autoImplicit false
set_option relaxedAutoImplicit false

namespace ChangeDdl

inductive Error where
  | decode (error : Json.DecodeError)
  | emptyInDialect (required : Dialect.Required)
  /-- The table is given by its qualified name in the dialect. -/
  | unsupportedChange (kind : ChangeKind) (table : String)
deriving DecidableEq

namespace Error

def message : Error → String
  | decode error => "failed to decode JSON: " ++ error.message
  | emptyInDialect required => "invalid configuration: " ++ required.name ++ " must not be empty"
  | unsupportedChange kind table =>
    kind.name ++ " change for table " ++ table ++ " cannot be synthesized"

end Error

end ChangeDdl
