import ChangeDdl.Dialect
import ChangeDdl.Text.Pieces

/-!
Names in SQL text: quoted, qualified by a schema, and listed. A column spec is a text that holds
several names joined by commas.
-/

set_option autoImplicit false
set_option relaxedAutoImplicit false

namespace ChangeDdl

def bracketed (text : String) : String :=
  "(" ++ text ++ ")"

namespace ColumnSpec

/-- The names in a column spec. Blanks belong to them. -/
def names (spec : String) : List String :=
  Text.split ',' spec

/-- A spec with a comma names several columns. -/
def isComposite (spec : String) : Bool :=
  spec.toList.contains ','

end ColumnSpec

namespace Dialect

def quoted (d : Dialect) (name : String) : String :=
  d.quote ++ name ++ d.quote

def qualified (d : Dialect) (schema table : String) : String :=
  d.quoted schema ++ "." ++ d.quoted table

/-- Quoted names, separated as in a column list. -/
def listed (d : Dialect) (names : List String) : String :=
  d.listSeparator.intercalate (names.map d.quoted)

/-- The names of a column spec, each quoted. -/
def splitSpec (d : Dialect) (spec : String) : String :=
  d.listed (ColumnSpec.names spec)

end Dialect

end ChangeDdl
