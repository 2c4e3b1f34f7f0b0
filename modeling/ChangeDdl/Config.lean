import ChangeDdl.Ddl.Statement
import ChangeDdl.Json.Shape.Encode
import ChangeDdl.Json.Shape.Read
import ChangeDdl.Renames

/-!
Configurations: a dialect, any part of which may be left at its default, and new names for
columns. No other keys are allowed.
-/

set_option autoImplicit false
set_option relaxedAutoImplicit false

namespace ChangeDdl

open Json

def Dialect.shape : Shape Dialect :=
  .record "Dialect" true
    (.cons "quote" (.atom .text) (.defaulted Dialect.standard.quote) <|
     .cons "statement_separator" (.atom .text) (.defaulted Dialect.standard.statementSeparator) <|
     .cons "clause_prefix" (.atom .text) (.defaulted Dialect.standard.clausePrefix) <|
     .cons "group_separator" (.atom .text) (.defaulted Dialect.standard.groupSeparator) <|
     .cons "list_separator" (.atom .text) (.defaulted Dialect.standard.listSeparator) .nil)
    (fun (quote, statement, clause, group, list, ()) => ⟨quote, statement, clause, group, list⟩)
    (fun d => (d.quote, d.statementSeparator, d.clausePrefix, d.groupSeparator, d.listSeparator, ()))
    (fun _ => rfl)

structure Config where
  dialect : Dialect
  columnNames : Renames

namespace Config

def shape : Shape Config :=
  .record "Config" true
    (.cons "dialect" Dialect.shape (.defaulted Dialect.standard) <|
     .cons "column_names" (.entries (.atom .text)) (.defaulted []) .nil)
    (fun (dialect, names, ()) => ⟨dialect, Renames.ofList names⟩)
    (fun c => (c.dialect, c.columnNames.entries, ()))
    (fun c => congrArg (Config.mk c.dialect) (Renames.ofList_entries c.columnNames))

/-- The configuration that a text holds, whose dialect must have all it needs. -/
def decode (text : String) : Except Error Config := do
  let config ← (shape.parse text).mapError .decode
  config.dialect.validate.mapError .emptyInDialect
  .ok config

def synthesizer (c : Config) : Synthesizer :=
  ⟨c.dialect, c.columnNames.apply⟩

end Config

end ChangeDdl
