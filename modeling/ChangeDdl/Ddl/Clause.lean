import ChangeDdl.Ddl.Name
import ChangeDdl.Decimal.Integer
import ChangeDdl.Event

/-!
The clauses between the brackets of a table definition: columns, then the primary key, then
unique, check and foreign key constraints. Each begins with the clause prefix of the dialect.
-/

set_option autoImplicit false
set_option relaxedAutoImplicit false

namespace ChangeDdl

/-- A length that is not positive is none. -/
def Column.lengthText (c : Column) : String :=
  match c.length with
  | some n => if 0 < n then bracketed (Decimal.integer n.toInt) else ""
  | none => ""

/-- An empty expression is none. -/
def Column.defaultText (c : Column) : String :=
  match c.defaultExpression with
  | some expression => if expression = "" then "" else " DEFAULT " ++ expression
  | none => ""

/-- Every column is either nullable or says that it is not. -/
def Column.nullabilityText (c : Column) : String :=
  if c.optional then "" else " NOT NULL"

namespace Dialect

def clause (d : Dialect) (text : String) : String :=
  d.clausePrefix ++ text

def columnClause (d : Dialect) (rename : String → String) (column : Column) : String :=
  d.clause (d.quoted (rename column.name) ++ " " ++ column.typeName ++ column.lengthText ++
    column.defaultText ++ column.nullabilityText)

/-- The columns of a primary key, each once. The clause ends its line. -/
def primaryKeyClause (d : Dialect) (columns : List String) : Option String :=
  let names := (columns.map d.quoted).eraseDups
  if names.isEmpty then none
  else some (d.clause ("PRIMARY KEY " ++ bracketed (d.listSeparator.intercalate names)) ++ "\n")

def uniqueClause (d : Dialect) (unique : UniqueConstraint) : String :=
  d.clause ("CONSTRAINT " ++ d.quoted unique.name ++ " UNIQUE " ++ bracketed (d.quoted unique.column))

def checkClause (d : Dialect) (check : CheckConstraint) : String :=
  d.clause ("CONSTRAINT " ++ d.quoted check.name ++ " CHECK " ++ bracketed check.condition)

/-- The referring columns alone decide whether both specs are split. -/
def foreignKeyClause (d : Dialect) (key : ForeignKey) : String :=
  let columns (spec : String) : String :=
    if ColumnSpec.isComposite key.columns then d.splitSpec spec else d.quoted spec
  d.clause ("CONSTRAINT " ++ d.quoted key.name ++ " FOREIGN KEY " ++
    bracketed (columns key.columns) ++ " REFERENCES " ++
    d.qualified key.referencedSchema key.referencedTable ++ " " ++
    bracketed (columns key.referencedColumns))

/-- The clauses of all groups in a row; a group without clauses leaves no trace. -/
def joinGroups (d : Dialect) (groups : List (List String)) : String :=
  d.groupSeparator.intercalate groups.flatten

/-- The clauses of a table, grouped. -/
def clauseGroups (d : Dialect) (rename : String → String) (table : Table) : List (List String) :=
  [table.columns.map (d.columnClause rename),
   (d.primaryKeyClause table.primaryKey).toList,
   table.uniques.map d.uniqueClause,
   table.checks.map d.checkClause,
   table.foreignKeys.map d.foreignKeyClause]

end Dialect

end ChangeDdl
