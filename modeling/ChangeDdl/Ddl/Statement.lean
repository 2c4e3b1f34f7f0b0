import ChangeDdl.Ddl.Clause
import ChangeDdl.Error

/-!
Statements and the texts of whole events. `Synthesizer.convert` takes every change for a creation;
`Synthesizer.synthesize` goes by the kind of each change, and an event with a change of a kind
that has no statement gives none at all.
-/

set_option autoImplicit false
set_option relaxedAutoImplicit false

namespace ChangeDdl

inductive Statement where
  | createTable
  | dropTable
deriving DecidableEq

/-- The statement that makes a change of this kind. -/
def Statement.ofKind? : ChangeKind → Option Statement
  | .create => some createTable
  | .drop => some dropTable
  | .alter => none

/-- A dialect and the names that columns get in it. -/
structure Synthesizer where
  dialect : Dialect
  rename : String → String

namespace Synthesizer

/-- The standard dialect, with every column keeping its name. -/
def standard : Synthesizer := ⟨Dialect.standard, id⟩

def createTable (s : Synthesizer) (source : Source) (table : Table) : String :=
  "CREATE TABLE " ++ s.dialect.qualified source.schema source.table ++ " " ++
    bracketed (s.dialect.joinGroups (s.dialect.clauseGroups s.rename table))

theorem createTable_eq (s : Synthesizer) (source : Source) (table : Table) :
    s.createTable source table =
      "CREATE TABLE " ++ s.dialect.qualified source.schema source.table ++ " " ++
        bracketed (s.dialect.joinGroups (s.dialect.clauseGroups s.rename table)) := rfl

def dropTable (s : Synthesizer) (source : Source) : String :=
  "DROP TABLE " ++ s.dialect.qualified source.schema source.table

def emit (s : Synthesizer) (source : Source) (table : Table) : Statement → String
  | .createTable => s.createTable source table
  | .dropTable => s.dropTable source

/-- The statement for a change, if its kind has one. -/
def statement (s : Synthesizer) (source : Source) (change : TableChange) :
    Except Error String :=
  match Statement.ofKind? change.kind with
  | some statement => .ok (s.emit source change.table statement)
  | none => .error (.unsupportedChange change.kind (s.dialect.qualified source.schema source.table))

/-- One creation for each change, separated. -/
def convert (s : Synthesizer) (event : ChangeEvent) : String :=
  s.dialect.statementSeparator.intercalate
    (event.changes.map fun change => s.createTable event.source change.table)

/-- A conversion is made from the tables of the changes. -/
theorem convert_eq_map_table (s : Synthesizer) (event : ChangeEvent) :
    s.convert event = s.dialect.statementSeparator.intercalate
      ((event.changes.map TableChange.table).map (s.createTable event.source)) := by
  rw [List.map_map]
  rfl

/-- The statements for all changes, separated. -/
def synthesize (s : Synthesizer) (event : ChangeEvent) : Except Error String := do
  let statements ← event.changes.mapM (s.statement event.source)
  .ok (s.dialect.statementSeparator.intercalate statements)

end Synthesizer

end ChangeDdl
