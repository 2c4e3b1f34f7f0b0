import ChangeDdl.Proofs.Fallible
import ChangeDdl.Ddl.Statement

/-!
New names reach the definitions of columns and nothing else. Writing an event with new column names
is the same as renaming its columns first and writing the result with every name kept
(`createTable_eq_renamed`); the keys, the checks and the source of the event stay as they are on
both sides.
-/

set_option autoImplicit false
set_option relaxedAutoImplicit false

namespace ChangeDdl

/-! ### Renaming the columns of an event -/

section Renaming

variable (rename : String → String)

def Column.renamed (c : Column) : Column := { c with name := rename c.name }

/-- Keys and checks go on naming columns as before. -/
def Table.renamed (t : Table) : Table := { t with columns := t.columns.map (Column.renamed rename) }

def TableChange.renamed (change : TableChange) : TableChange :=
  { change with table := change.table.renamed rename }

def ChangeEvent.renamed (e : ChangeEvent) : ChangeEvent :=
  { e with changes := e.changes.map (TableChange.renamed rename) }

@[simp] theorem ChangeEvent.renamed_source (e : ChangeEvent) :
    (e.renamed rename).source = e.source := rfl

@[simp] theorem ChangeEvent.renamed_changes (e : ChangeEvent) :
    (e.renamed rename).changes = e.changes.map (TableChange.renamed rename) := rfl

@[simp] theorem TableChange.renamed_kind (change : TableChange) :
    (change.renamed rename).kind = change.kind := rfl

end Renaming

/-! ### One clause, one table, one statement -/

namespace Dialect

variable (d : Dialect) (rename : String → String)

theorem columnClause_renamed (c : Column) :
    d.columnClause id (c.renamed rename) = d.columnClause rename c := rfl

/-- The other groups of clauses are written from parts of the table that keep their names. -/
theorem clauseGroups_renamed (t : Table) :
    d.clauseGroups id (t.renamed rename) = d.clauseGroups rename t := by
  have hcolumns : (t.columns.map (Column.renamed rename)).map (d.columnClause id) =
      t.columns.map (d.columnClause rename) := by
    rw [List.map_map]
    exact List.map_congr_left fun c _ ↦ d.columnClause_renamed rename c
  simp only [clauseGroups, Table.renamed, hcolumns]

end Dialect

namespace Synthesizer

variable (s : Synthesizer)

/-- The dialect of a synthesizer, with every column keeping its name. -/
def keepingNames : Synthesizer := ⟨s.dialect, id⟩

theorem createTable_eq_renamed (source : Source) (t : Table) :
    s.createTable source t = s.keepingNames.createTable source (t.renamed s.rename) := by
  rw [createTable_eq, createTable_eq, keepingNames, Dialect.clauseGroups_renamed]

theorem statement_eq_renamed (source : Source) (change : TableChange) :
    s.statement source change = s.keepingNames.statement source (change.renamed s.rename) := by
  unfold statement
  rw [TableChange.renamed_kind]
  cases hkind : Statement.ofKind? change.kind with
  | none => rfl
  | some what =>
    cases what with
    | createTable => exact congrArg Except.ok (s.createTable_eq_renamed source change.table)
    | dropTable => rfl

/-! ### Events -/

/-- Both ways of writing an event see the new names in its columns only, whether all its statements
can be written or not. -/
theorem convert_synthesize_eq_renamed (e : ChangeEvent) :
    s.convert e = s.keepingNames.convert (e.renamed s.rename) ∧
      s.synthesize e = s.keepingNames.synthesize (e.renamed s.rename) := by
  constructor
  · have htables : e.changes.map (fun change ↦ s.createTable e.source change.table) =
        (e.changes.map (TableChange.renamed s.rename)).map fun change ↦
          s.keepingNames.createTable e.source change.table := by
      rw [List.map_map]
      exact List.map_congr_left fun change _ ↦ s.createTable_eq_renamed e.source change.table
    unfold convert
    rw [htables]
    rfl
  · have hstatements : e.changes.mapM (s.statement e.source) =
        (e.changes.map (TableChange.renamed s.rename)).mapM
          (s.keepingNames.statement e.source) := by
      rw [List.mapM_map]
      exact congrArg (List.mapM · e.changes) (funext (s.statement_eq_renamed e.source))
    unfold synthesize
    rw [ChangeEvent.renamed_changes, ChangeEvent.renamed_source, ← hstatements]
    rfl

end Synthesizer

end ChangeDdl
