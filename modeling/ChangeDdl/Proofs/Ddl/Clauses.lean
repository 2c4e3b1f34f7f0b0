import ChangeDdl.Ddl.Statement
import ChangeDdl.Proofs.Distinct
import Mathlib.Data.List.Basic

/-!
The clauses of a table as data, and the texts of the standard dialect as lists of characters.

`Table.clauses` lists the clauses of a table in the order in which they are written. The groups of
a definition hold the texts of these clauses and nothing else (`flatten_clauseGroups`), so a
statement is a head, the clauses joined by the group separator, and a closing bracket
(`toList_createTable`). The key clause carries distinct names: dropping repeated texts of quoted
names is the same as dropping repeated names, since no quote merges two names (`eraseDups_quoted`).
-/

set_option autoImplicit false
set_option relaxedAutoImplicit false

namespace ChangeDdl

/-! ### Clauses -/

/-- A clause of a table definition. -/
inductive Clause where
  | column (column : Column)
  | primaryKey (names : List String)
  | unique (unique : UniqueConstraint)
  | check (check : CheckConstraint)
  | foreignKey (key : ForeignKey)

namespace Clause

/-- The text of a clause, its prefix included. -/
def text (d : Dialect) (rename : String → String) : Clause → String
  | column c => d.columnClause rename c
  | primaryKey names => d.clause ("PRIMARY KEY " ++ bracketed (d.listed names)) ++ "\n"
  | unique u => d.uniqueClause u
  | check c => d.checkClause c
  | foreignKey k => d.foreignKeyClause k

end Clause

namespace Table

/-- The key clause of a table that has key columns. -/
def keyClauses (t : Table) : List Clause :=
  if t.primaryKey = [] then [] else [.primaryKey t.primaryKey.eraseDups]

def clauses (t : Table) : List Clause :=
  t.columns.map .column ++ t.keyClauses ++ t.uniques.map .unique ++ t.checks.map .check ++
    t.foreignKeys.map .foreignKey

/-- The clauses in their groups. The group of the key is empty if there is no key. -/
def groups (t : Table) : List (List Clause) :=
  [t.columns.map .column, t.keyClauses, t.uniques.map .unique, t.checks.map .check,
    t.foreignKeys.map .foreignKey]

theorem flatten_groups (t : Table) : t.groups.flatten = t.clauses := by
  simp [groups, clauses]

end Table

namespace Dialect

variable (d : Dialect)

/-- Whatever the quote is, it is put around every name alike. -/
theorem quoted_injective : Function.Injective d.quoted := by
  intro first second h
  have hchars := congrArg String.toList h
  simp only [quoted, String.toList_append, List.append_assoc, List.append_cancel_left_eq] at hchars
  exact String.toList_inj.mp (List.append_cancel_right hchars)

theorem eraseDups_quoted (names : List String) :
    (names.map d.quoted).eraseDups = names.eraseDups.map d.quoted :=
  eraseDups_map_of_injective d.quoted_injective names

theorem primaryKeyClause_nil : d.primaryKeyClause [] = none := rfl

theorem primaryKeyClause_of_ne_nil {names : List String} (h : names ≠ []) :
    d.primaryKeyClause names =
      some (d.clause ("PRIMARY KEY " ++ bracketed (d.listed names.eraseDups)) ++ "\n") := by
  have hnames : names.eraseDups ≠ [] := mt (eraseDups_eq_nil_iff names).mp h
  unfold primaryKeyClause
  rw [eraseDups_quoted]
  simp [hnames, listed]

/-- Repeated names are not seen. -/
theorem primaryKeyClause_congr {names more : List String} (h : more.eraseDups = names.eraseDups) :
    d.primaryKeyClause more = d.primaryKeyClause names := by
  unfold primaryKeyClause
  rw [eraseDups_quoted, eraseDups_quoted, h]

theorem toList_primaryKeyClause (rename : String → String) (t : Table) :
    (d.primaryKeyClause t.primaryKey).toList = t.keyClauses.map (Clause.text d rename) := by
  unfold Table.keyClauses
  split_ifs with hkey
  · rw [hkey, primaryKeyClause_nil]
    rfl
  · rw [d.primaryKeyClause_of_ne_nil hkey]
    rfl

theorem clauseGroups_eq_map (rename : String → String) (t : Table) :
    d.clauseGroups rename t = t.groups.map (List.map (Clause.text d rename)) := by
  rw [clauseGroups, toList_primaryKeyClause d rename t]
  simp only [Table.groups, List.map_cons, List.map_nil, List.map_map]
  rfl

/-- The groups of a definition hold the clauses of the table, in their order. -/
theorem flatten_clauseGroups (rename : String → String) (t : Table) :
    (d.clauseGroups rename t).flatten = t.clauses.map (Clause.text d rename) := by
  rw [clauseGroups_eq_map, ← List.map_flatten, Table.flatten_groups]

end Dialect

/-! ### Admissible tables -/

/-- A name that does not end before its closing quote. -/
def Unquoted (name : String) : Prop := '"' ∉ name.toList

instance (name : String) : Decidable (Unquoted name) := inferInstanceAs (Decidable (¬ _))

section Admissible

variable (column : Column → Prop) (condition : String → Prop)

/-- No name of the clause holds a quote, and a column or a condition is as required. -/
def Clause.Admissible : Clause → Prop
  | .column c => column c
  | .primaryKey names => names ≠ [] ∧ ∀ name ∈ names, Unquoted name
  | .unique u => Unquoted u.name ∧ Unquoted u.column
  | .check c => Unquoted c.name ∧ condition c.condition
  | .foreignKey k => Unquoted k.name ∧ Unquoted k.columns ∧ Unquoted k.referencedSchema ∧
    Unquoted k.referencedTable ∧ Unquoted k.referencedColumns

/-- No name of the table holds a quote, and its columns and conditions are as required. -/
structure Table.Admissible (t : Table) : Prop where
  columns : ∀ c ∈ t.columns, column c
  primaryKey : ∀ name ∈ t.primaryKey, Unquoted name
  uniques : ∀ u ∈ t.uniques, Unquoted u.name ∧ Unquoted u.column
  checks : ∀ c ∈ t.checks, Unquoted c.name ∧ condition c.condition
  foreignKeys : ∀ k ∈ t.foreignKeys, Unquoted k.name ∧ Unquoted k.columns ∧
    Unquoted k.referencedSchema ∧ Unquoted k.referencedTable ∧ Unquoted k.referencedColumns

structure ChangeEvent.Admissible (e : ChangeEvent) : Prop where
  schema : Unquoted e.source.schema
  table : Unquoted e.source.table
  changes : ∀ change ∈ e.changes, change.table.Admissible column condition

variable {column condition}

theorem Table.Admissible.clauses {t : Table} (ht : t.Admissible column condition) :
    ∀ clause ∈ t.clauses, clause.Admissible column condition := by
  intro clause hclause
  simp only [Table.clauses, keyClauses, List.mem_append, List.mem_map] at hclause
  rcases hclause with (((⟨c, hc, rfl⟩ | hkey) | ⟨u, hu, rfl⟩) | ⟨c, hc, rfl⟩) | ⟨k, hk, rfl⟩
  · exact ht.columns c hc
  · split_ifs at hkey with hnil
    · simp at hkey
    · obtain rfl := List.mem_singleton.mp hkey
      refine ⟨mt (eraseDups_eq_nil_iff _).mp hnil, fun name hname ↦ ?_⟩
      exact ht.primaryKey name (List.mem_eraseDups.mp hname)
  · exact ht.uniques u hu
  · exact ht.checks c hc
  · exact ht.foreignKeys k hk

variable [DecidablePred column] [DecidablePred condition]

instance (t : Table) : Decidable (t.Admissible column condition) :=
  decidable_of_iff ((∀ c ∈ t.columns, column c) ∧ (∀ name ∈ t.primaryKey, Unquoted name) ∧
      (∀ u ∈ t.uniques, Unquoted u.name ∧ Unquoted u.column) ∧
      (∀ c ∈ t.checks, Unquoted c.name ∧ condition c.condition) ∧
      ∀ k ∈ t.foreignKeys, Unquoted k.name ∧ Unquoted k.columns ∧ Unquoted k.referencedSchema ∧
        Unquoted k.referencedTable ∧ Unquoted k.referencedColumns)
    ⟨fun ⟨h₁, h₂, h₃, h₄, h₅⟩ ↦ ⟨h₁, h₂, h₃, h₄, h₅⟩,
      fun ⟨h₁, h₂, h₃, h₄, h₅⟩ ↦ ⟨h₁, h₂, h₃, h₄, h₅⟩⟩

instance (e : ChangeEvent) : Decidable (e.Admissible column condition) :=
  decidable_of_iff (Unquoted e.source.schema ∧ Unquoted e.source.table ∧
      ∀ change ∈ e.changes, change.table.Admissible column condition)
    ⟨fun ⟨h₁, h₂, h₃⟩ ↦ ⟨h₁, h₂, h₃⟩, fun ⟨h₁, h₂, h₃⟩ ↦ ⟨h₁, h₂, h₃⟩⟩

end Admissible

/-! ### Joined texts -/

/-- Joining puts the separator in front of every piece but the first. -/
theorem intercalate_cons (separator piece : List Char) (pieces : List (List Char)) :
    separator.intercalate (piece :: pieces) =
      piece ++ pieces.flatMap fun next ↦ separator ++ next := by
  induction pieces generalizing piece with
  | nil => simp
  | cons next rest ih =>
    rw [List.intercalate_cons_cons, ih, List.flatMap_cons]
    simp only [List.append_assoc]

/-- Every piece is found whole in the joined text. -/
theorem infix_intercalate_of_mem {separator piece : List Char} {pieces : List (List Char)}
    (h : piece ∈ pieces) : piece <:+: separator.intercalate pieces := by
  cases pieces with
  | nil => simp at h
  | cons first rest =>
    rw [intercalate_cons]
    rcases List.mem_cons.mp h with rfl | hrest
    · exact (List.prefix_append piece _).isInfix
    · have hpiece : piece <:+: separator ++ piece := (List.suffix_append separator piece).isInfix
      have hjoined : separator ++ piece <:+: rest.flatMap fun next ↦ separator ++ next :=
        List.infix_of_mem_flatten (List.mem_map_of_mem hrest)
      exact (hpiece.trans hjoined).trans (List.suffix_append first _).isInfix

/-! ### Column specs -/

theorem pieces_eq_splitOn (separator : Char) (text : List Char) :
    Text.pieces separator text = text.splitOn separator := by
  induction text with
  | nil => rfl
  | cons c rest ih =>
    rw [Text.pieces, List.splitOn_cons_eq_if_modifyHead, ih]
    by_cases hc : c = separator
    · simp [hc]
    · obtain ⟨piece, more, hmore⟩ := List.exists_cons_of_ne_nil (List.splitOn_ne_nil separator rest)
      simp [hc, hmore]

/-- A text put together from texts without the separator is cut into these texts. -/
theorem Text.split_eq_of_intercalate {separator : Char} {text : String} {texts : List String}
    (htext : text.toList = [separator].intercalate (texts.map String.toList)) (htexts : texts ≠ [])
    (h : ∀ piece ∈ texts, separator ∉ piece.toList) : Text.split separator text = texts := by
  have hpieces : ∀ piece ∈ texts.map String.toList, separator ∉ piece :=
    List.forall_mem_map.mpr h
  rw [Text.split, htext, pieces_eq_splitOn,
    List.splitOn_intercalate separator hpieces (by simpa using htexts), List.map_map]
  simp [Function.comp_def]

namespace ColumnSpec

theorem map_toList_names (spec : String) :
    (names spec).map String.toList = spec.toList.splitOn ',' := by
  rw [names, Text.split, pieces_eq_splitOn, List.map_map]
  simp [Function.comp_def]

/-- A spec without a comma is a single name. -/
theorem names_of_not_isComposite {spec : String} (h : isComposite spec = false) :
    names spec = [spec] := by
  have hcomma : ',' ∉ spec.toList := by simpa [isComposite] using h
  rw [names, Text.split, pieces_eq_splitOn, List.splitOn_eq_singleton hcomma]
  simp

theorem names_ne_nil (spec : String) : names spec ≠ [] := by
  intro hnil
  have hpieces := map_toList_names spec
  rw [hnil] at hpieces
  exact List.splitOn_ne_nil _ _ hpieces.symm

/-- The names of a spec, joined by commas, are the spec. -/
theorem intercalate_names (spec : String) :
    [','].intercalate ((names spec).map String.toList) = spec.toList := by
  rw [map_toList_names, List.intercalate_splitOn]

theorem names_injective : Function.Injective names := by
  intro first second h
  rw [← String.toList_inj, ← intercalate_names first, ← intercalate_names second, h]

/-- Every name stands whole in the spec. -/
theorem infix_of_mem_names {spec name : String} (h : name ∈ names spec) :
    name.toList <:+: spec.toList := by
  rw [← intercalate_names spec]
  exact infix_intercalate_of_mem (List.mem_map_of_mem h)

/-- Every character of a name comes from the spec. -/
theorem mem_of_mem_names {spec name : String} {c : Char} (hname : name ∈ names spec)
    (hc : c ∈ name.toList) : c ∈ spec.toList :=
  (infix_of_mem_names hname).subset hc

end ColumnSpec

/-! ### Columns -/

@[simp] theorem toList_bracketed (text : String) :
    (bracketed text).toList = '(' :: (text.toList ++ [')']) := by
  simp [bracketed]

/-- A column as it is written: a length that is not positive and an empty default are absent. -/
def Column.normal (c : Column) : Column :=
  { c with
    length := c.length.filter fun n ↦ 0 < n
    defaultExpression := c.defaultExpression.filter fun e ↦ e ≠ "" }

namespace Column

theorem toList_lengthText (c : Column) :
    c.lengthText.toList = c.normal.length.elim [] fun n ↦
      '(' :: (Nat.toDigits 10 n.toInt.natAbs ++ [')']) := by
  unfold lengthText normal
  cases c.length with
  | none => simp
  | some n =>
    by_cases hn : 0 < n
    · have hpositive : ¬ n.toInt < 0 := by
        have := Int32.lt_iff_toInt_lt.mp hn
        simp at this
        omega
      simp [hn, Decimal.integer, Decimal.natural, hpositive, Option.filter_some]
    · simp [hn, Option.filter_some]

/-- The text of a length has brackets and digits only. -/
theorem mem_lengthText {c : Column} {x : Char} (hx : x ∈ c.lengthText.toList) :
    x = '(' ∨ x = ')' ∨ x.isDigit := by
  rw [toList_lengthText] at hx
  cases hlength : c.normal.length with
  | none => simp [hlength] at hx
  | some n =>
    simp only [hlength, Option.elim_some, List.mem_cons, List.mem_append, List.not_mem_nil,
      or_false] at hx
    rcases hx with hx | hx | hx
    · exact Or.inl hx
    · exact Or.inr (Or.inr (Nat.isDigit_of_mem_toDigits (by decide) (by decide) hx))
    · exact Or.inr (Or.inl hx)

theorem toList_defaultText (c : Column) :
    c.defaultText.toList = c.normal.defaultExpression.elim [] fun e ↦
      " DEFAULT ".toList ++ e.toList := by
  unfold defaultText normal
  cases c.defaultExpression with
  | none => simp
  | some e => by_cases he : e = "" <;> simp [he, Option.filter_some]

theorem toList_nullabilityText (c : Column) :
    c.nullabilityText.toList = if c.optional then [] else " NOT NULL".toList := by
  unfold nullabilityText
  split_ifs <;> simp

end Column

/-! ### The standard dialect in characters -/

/-- A name between double quotes. -/
def quotedChars (name : String) : List Char := '"' :: (name.toList ++ ['"'])

/-- The characters behind the name of a column. -/
def Column.tailChars (c : Column) : List Char :=
  c.typeName.toList ++ (c.lengthText.toList ++ (c.defaultText.toList ++ c.nullabilityText.toList))

/-- The list of names that stands for a column spec in a foreign key. -/
def specChars (composite : Bool) (spec : String) : List Char :=
  if composite then [',', ' '].intercalate ((ColumnSpec.names spec).map quotedChars)
  else quotedChars spec

/-- The characters of a clause in the standard dialect. -/
def Clause.chars (clause : Clause) : List Char := (clause.text Dialect.standard id).toList

@[simp] theorem toList_quoted_standard (name : String) :
    (Dialect.standard.quoted name).toList = quotedChars name := by
  simp [Dialect.quoted, Dialect.standard, quotedChars]

theorem toList_clause_standard (text : String) :
    (Dialect.standard.clause text).toList = '\n' :: '\t' :: text.toList := by
  simp [Dialect.clause, Dialect.standard]

theorem toList_listed_standard (names : List String) :
    (Dialect.standard.listed names).toList = [',', ' '].intercalate (names.map quotedChars) := by
  rw [Dialect.listed, String.toList_intercalate, List.map_map]
  congr 1
  exact List.map_congr_left fun name _ ↦ toList_quoted_standard name

theorem toList_spec_standard (composite : Bool) (spec : String) :
    (if composite then Dialect.standard.splitSpec spec else Dialect.standard.quoted spec).toList =
      specChars composite spec := by
  unfold specChars
  split_ifs
  · exact toList_listed_standard _
  · exact toList_quoted_standard spec

/-- The referring columns are the names of their spec, several or one. -/
theorem specChars_isComposite (spec : String) :
    specChars (ColumnSpec.isComposite spec) spec = specChars true spec := by
  cases h : ColumnSpec.isComposite spec with
  | false => simp [specChars, ColumnSpec.names_of_not_isComposite h]
  | true => rfl

namespace Clause

theorem chars_column (c : Column) :
    (column c).chars = '\n' :: '\t' :: (quotedChars c.name ++ ' ' :: c.tailChars) := by
  simp [chars, text, Dialect.columnClause, toList_clause_standard, Column.tailChars]

theorem chars_primaryKey (names : List String) :
    (primaryKey names).chars = "\n\tPRIMARY KEY (".toList ++
      ([',', ' '].intercalate (names.map quotedChars) ++ [')', '\n']) := by
  simp [chars, text, toList_clause_standard, toList_listed_standard]

theorem chars_unique (u : UniqueConstraint) :
    (unique u).chars = "\n\tCONSTRAINT ".toList ++ (quotedChars u.name ++
      (" UNIQUE (".toList ++ (quotedChars u.column ++ [')']))) := by
  simp [chars, text, Dialect.uniqueClause, toList_clause_standard]

theorem chars_check (c : CheckConstraint) :
    (check c).chars = "\n\tCONSTRAINT ".toList ++ (quotedChars c.name ++
      (" CHECK (".toList ++ (c.condition.toList ++ [')']))) := by
  simp [chars, text, Dialect.checkClause, toList_clause_standard]

theorem chars_foreignKey (k : ForeignKey) :
    (foreignKey k).chars = "\n\tCONSTRAINT ".toList ++ (quotedChars k.name ++
      (" FOREIGN KEY (".toList ++ (specChars true k.columns ++
        (") REFERENCES ".toList ++ (quotedChars k.referencedSchema ++ '.' ::
          (quotedChars k.referencedTable ++ (" (".toList ++
            (specChars (ColumnSpec.isComposite k.columns) k.referencedColumns ++ [')'])))))))) := by
  simp [chars, text, Dialect.foreignKeyClause, toList_clause_standard, toList_spec_standard,
    Dialect.qualified, ← specChars_isComposite k.columns]

/-- Every clause begins a line of its own. -/
theorem chars_eq_newline (clause : Clause) : ∃ rest, clause.chars = '\n' :: '\t' :: rest := by
  cases clause with
  | column c => exact ⟨_, chars_column c⟩
  | primaryKey names => exact ⟨_, by rw [chars_primaryKey]; simp; rfl⟩
  | unique u => exact ⟨_, by rw [chars_unique]; simp; rfl⟩
  | check c => exact ⟨_, by rw [chars_check]; simp; rfl⟩
  | foreignKey k => exact ⟨_, by rw [chars_foreignKey]; simp; rfl⟩

end Clause

namespace Synthesizer

theorem toList_body (t : Table) :
    (standard.dialect.joinGroups (standard.dialect.clauseGroups standard.rename t)).toList =
      [','].intercalate (t.clauses.map Clause.chars) := by
  rw [Dialect.joinGroups, Dialect.flatten_clauseGroups, String.toList_intercalate, List.map_map]
  rfl

/-- A creation is its head, the clauses separated by commas, and a closing bracket. -/
theorem toList_createTable (source : Source) (t : Table) :
    (standard.createTable source t).toList =
      "CREATE TABLE ".toList ++ (quotedChars source.schema ++ '.' ::
        (quotedChars source.table ++ (" (".toList ++
          ([','].intercalate (t.clauses.map Clause.chars) ++ [')'])))) := by
  simp only [createTable_eq, String.toList_append, toList_bracketed, toList_body]
  simp [standard, Dialect.qualified]

theorem toList_convert (e : ChangeEvent) :
    (standard.convert e).toList =
      [';'].intercalate (e.changes.map fun change ↦
        (standard.createTable e.source change.table).toList) := by
  rw [convert, String.toList_intercalate, List.map_map]
  rfl

end Synthesizer

end ChangeDdl
