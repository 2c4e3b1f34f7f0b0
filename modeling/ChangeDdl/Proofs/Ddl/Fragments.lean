import ChangeDdl.Proofs.Ddl.Clauses

/-!
The texts of an event, and clauses as rows of fragments.

A fragment is a fixed word, a name between quotes, or a list of names, a length or a text in
brackets; only the type and the default of a column stand there bare. In every dialect a clause is
the clause prefix and a row of fragments, with a line break behind a primary key
(`Clause.text_eq_row`), and the fragments hold no texts but those of the clause
(`Clause.forall_mem_row`). So what is said about the clauses of an event is proved for each sort of
fragment, and a clause that is written in another way has another row.
-/

set_option autoImplicit false
set_option relaxedAutoImplicit false

namespace ChangeDdl

/-! ### The texts of an event -/

def Column.texts (c : Column) : List String :=
  c.name :: c.typeName :: c.defaultExpression.toList

def UniqueConstraint.texts (u : UniqueConstraint) : List String := [u.name, u.column]

def CheckConstraint.texts (c : CheckConstraint) : List String := [c.name, c.condition]

def ForeignKey.texts (k : ForeignKey) : List String :=
  [k.name, k.columns, k.referencedSchema, k.referencedTable, k.referencedColumns]

def Table.texts (t : Table) : List String :=
  t.columns.flatMap Column.texts ++ t.primaryKey ++ t.uniques.flatMap UniqueConstraint.texts ++
    t.checks.flatMap CheckConstraint.texts ++ t.foreignKeys.flatMap ForeignKey.texts

/-- All texts of an event, in no order that matters. -/
def ChangeEvent.texts (e : ChangeEvent) : List String :=
  e.source.schema :: e.source.table :: e.changes.flatMap fun change ↦ change.table.texts

def Clause.texts : Clause → List String
  | column c => c.texts
  | primaryKey names => names
  | unique u => u.texts
  | check c => c.texts
  | foreignKey k => k.texts

theorem Table.texts_of_mem_clauses {t : Table} {clause : Clause} (h : clause ∈ t.clauses) :
    clause.texts ⊆ t.texts := by
  intro text htext
  simp only [Table.clauses, Table.keyClauses, List.mem_append, List.mem_map] at h
  simp only [Table.texts, List.mem_append, List.mem_flatMap]
  rcases h with (((⟨c, hc, rfl⟩ | hkey) | ⟨u, hu, rfl⟩) | ⟨c, hc, rfl⟩) | ⟨k, hk, rfl⟩
  · exact Or.inl (Or.inl (Or.inl (Or.inl ⟨c, hc, htext⟩)))
  · split_ifs at hkey with hnil
    · simp at hkey
    · obtain rfl := List.mem_singleton.mp hkey
      exact Or.inl (Or.inl (Or.inl (Or.inr (List.mem_eraseDups.mp htext))))
  · exact Or.inl (Or.inl (Or.inr ⟨u, hu, htext⟩))
  · exact Or.inl (Or.inr ⟨c, hc, htext⟩)
  · exact Or.inr ⟨k, hk, htext⟩

/-! ### Fragments -/

/-- The fixed words of clauses, with the blanks around them. -/
inductive Word where
  | blank
  | point
  | primaryKey
  | constraint
  | unique
  | check
  | foreignKey
  | references
  | default
  | notNull
deriving DecidableEq

def Word.text : Word → String
  | blank => " "
  | point => "."
  | primaryKey => "PRIMARY KEY "
  | constraint => "CONSTRAINT "
  | unique => " UNIQUE "
  | check => " CHECK "
  | foreignKey => " FOREIGN KEY "
  | references => " REFERENCES "
  | default => " DEFAULT "
  | notNull => " NOT NULL"

/-- A part of a clause. -/
inductive Fragment where
  | word (word : Word)
  /-- A name between quotes. -/
  | name (name : String)
  /-- Quoted names in brackets. -/
  | listed (names : List String)
  /-- A length in brackets. -/
  | length (length : Int32)
  /-- A text of the event in brackets. -/
  | enclosed (text : String)
  /-- A text of the event with nothing around it. -/
  | bare (text : String)

namespace Fragment

def text (d : Dialect) : Fragment → String
  | word w => w.text
  | name s => d.quoted s
  | listed names => bracketed (d.listed names)
  | length n => bracketed (Decimal.integer n.toInt)
  | enclosed s => bracketed s
  | bare s => s

/-- The texts of the event that a fragment holds. -/
def texts : Fragment → List String
  | word _ => []
  | name s => [s]
  | listed names => names
  | length _ => []
  | enclosed s => [s]
  | bare s => [s]

/-- The fragments of a row, one behind the other. -/
def join (d : Dialect) (row : List Fragment) : String := String.join (row.map (text d))

theorem join_cons (d : Dialect) (fragment : Fragment) (row : List Fragment) :
    join d (fragment :: row) = fragment.text d ++ join d row :=
  String.join_cons

theorem join_append (d : Dialect) (row more : List Fragment) :
    join d (row ++ more) = join d row ++ join d more := by
  rw [join, List.map_append, String.join_append, join, join]

theorem toList_join (d : Dialect) (row : List Fragment) :
    (join d row).toList = row.flatMap fun fragment ↦ (fragment.text d).toList := by
  rw [join, String.toList_join, List.flatMap_map]

/-- The digits of a length, with a sign if it is negative. -/
theorem mem_digits {n : Int} {c : Char} (hc : c ∈ (Decimal.integer n).toList) :
    c = '-' ∨ c.isDigit := by
  rw [Decimal.integer, String.toList_append, List.mem_append] at hc
  rcases hc with hsign | hdigit
  · split_ifs at hsign
    · exact Or.inl (List.mem_singleton.mp hsign)
    · simp at hsign
  · rw [Decimal.natural, String.toList_ofList] at hdigit
    exact Or.inr (Nat.isDigit_of_mem_toDigits (by decide) (by decide) hdigit)

end Fragment

/-! ### Rows -/

/-- A column up to its nullability. -/
def Column.front (c : Column) : List Fragment :=
  .name c.name :: .word .blank :: .bare c.typeName :: (c.normal.length.toList.map .length ++
    c.normal.defaultExpression.toList.flatMap fun e ↦ [.word .default, .bare e])

/-- The names that a key has for one of its specs. The referring columns decide for both. -/
def ForeignKey.columnNames (k : ForeignKey) (spec : String) : List String :=
  if ColumnSpec.isComposite k.columns then ColumnSpec.names spec else [spec]

/-- Every name stands whole in the spec. -/
theorem ForeignKey.infix_of_mem_columnNames {k : ForeignKey} {spec name : String}
    (h : name ∈ k.columnNames spec) : name.toList <:+: spec.toList := by
  unfold columnNames at h
  split_ifs at h
  · exact ColumnSpec.infix_of_mem_names h
  · obtain rfl := List.mem_singleton.mp h
    exact List.infix_rfl

namespace Clause

/-- Whether a clause ends its own line. -/
def isPrimaryKey : Clause → Bool
  | primaryKey _ => true
  | _ => false

/-- The fragments of a clause. -/
def row : Clause → List Fragment
  | column c => c.front ++ if c.optional then [] else [.word .notNull]
  | primaryKey names => [.word .primaryKey, .listed names]
  | unique u => [.word .constraint, .name u.name, .word .unique, .listed [u.column]]
  | check c => [.word .constraint, .name c.name, .word .check, .enclosed c.condition]
  | foreignKey k =>
    [.word .constraint, .name k.name, .word .foreignKey, .listed (k.columnNames k.columns),
      .word .references, .name k.referencedSchema, .word .point, .name k.referencedTable,
      .word .blank, .listed (k.columnNames k.referencedColumns)]

end Clause

namespace Column

variable (d : Dialect) (c : Column)

theorem texts_front : c.front.flatMap Fragment.texts =
    c.name :: c.typeName :: c.normal.defaultExpression.toList := by
  unfold front
  cases c.normal.length <;> cases c.normal.defaultExpression <;> rfl

theorem join_length : Fragment.join d (c.normal.length.toList.map .length) = c.lengthText := by
  unfold normal lengthText
  cases c.length with
  | none => rfl
  | some n =>
    by_cases hn : 0 < n
    · simp [hn, Option.filter_some, Fragment.join, Fragment.text]
    · simp [hn, Option.filter_some, Fragment.join]

theorem join_default : Fragment.join d
    (c.normal.defaultExpression.toList.flatMap fun e ↦ [.word .default, .bare e]) =
      c.defaultText := by
  unfold normal defaultText
  cases c.defaultExpression with
  | none => rfl
  | some e =>
    by_cases he : e = ""
    · simp [he, Option.filter_some, Fragment.join]
    · simp [he, Option.filter_some, Fragment.join, Fragment.text, Word.text]

theorem join_nullability :
    Fragment.join d (if c.optional then [] else [.word .notNull]) = c.nullabilityText := by
  unfold nullabilityText
  split_ifs
  · rfl
  · simp [Fragment.join, Fragment.text, Word.text]

theorem join_row : Fragment.join d (Clause.column c).row =
    d.quoted c.name ++ " " ++ c.typeName ++ c.lengthText ++ c.defaultText ++
      c.nullabilityText := by
  rw [Clause.row, Fragment.join_append, join_nullability, front, Fragment.join_cons,
    Fragment.join_cons, Fragment.join_cons, Fragment.join_append, join_length, join_default]
  simp only [Fragment.text, Word.text, String.append_assoc]

end Column

theorem Dialect.listed_columnNames (d : Dialect) (k : ForeignKey) (spec : String) :
    d.listed (k.columnNames spec) =
      if ColumnSpec.isComposite k.columns then d.splitSpec spec else d.quoted spec := by
  unfold ForeignKey.columnNames
  split_ifs <;> rfl

namespace Clause

/-- A clause in any dialect. -/
theorem text_eq_row (d : Dialect) (clause : Clause) : clause.text d id =
    d.clausePrefix ++ Fragment.join d clause.row ++ if clause.isPrimaryKey then "\n" else "" := by
  cases clause with
  | column c =>
    rw [Column.join_row]
    exact String.append_empty.symm
  | primaryKey names =>
    simp [text, row, Fragment.join, Fragment.text, Word.text, Dialect.clause, isPrimaryKey,
      String.append_assoc]
  | unique u =>
    have hcolumn : d.listed [u.column] = d.quoted u.column := rfl
    simp [text, row, Fragment.join, Fragment.text, Word.text, Dialect.uniqueClause, Dialect.clause,
      isPrimaryKey, hcolumn, String.append_assoc]
  | check c =>
    simp [text, row, Fragment.join, Fragment.text, Word.text, Dialect.checkClause, Dialect.clause,
      isPrimaryKey, String.append_assoc]
  | foreignKey k =>
    simp [text, row, Fragment.join, Fragment.text, Word.text, Dialect.foreignKeyClause,
      Dialect.clause, Dialect.qualified, isPrimaryKey, d.listed_columnNames, String.append_assoc]

theorem chars_eq_row (clause : Clause) :
    clause.chars = ['\n', '\t'] ++ ((Fragment.join Dialect.standard clause.row).toList ++
      if clause.isPrimaryKey then ['\n'] else []) := by
  rw [chars, text_eq_row]
  split_ifs <;> simp [Dialect.standard]

/-- The texts in a row stand whole in those of the clause: they are the same, but that the names in
a column spec are parts of it. -/
theorem exists_infix_of_mem_row {clause : Clause} {text : String}
    (h : text ∈ clause.row.flatMap Fragment.texts) :
    ∃ whole ∈ clause.texts, text.toList <:+: whole.toList := by
  cases clause with
  | column c =>
    have hnullability : (if c.optional then [] else [Fragment.word .notNull]).flatMap
        Fragment.texts = [] := by
      split_ifs <;> rfl
    rw [row, List.flatMap_append, Column.texts_front, hnullability, List.append_nil] at h
    refine ⟨text, ?_, List.infix_rfl⟩
    simp only [List.mem_cons, Option.mem_toList] at h
    simp only [texts, Column.texts, List.mem_cons, Option.mem_toList]
    exact h.imp_right (Or.imp_right fun hdefault ↦ (Option.filter_eq_some_iff.mp hdefault).1)
  | primaryKey names =>
    refine ⟨text, ?_, List.infix_rfl⟩
    simpa [row, Fragment.texts, texts] using h
  | unique u =>
    refine ⟨text, ?_, List.infix_rfl⟩
    simpa [row, Fragment.texts, texts, UniqueConstraint.texts] using h
  | check c =>
    refine ⟨text, ?_, List.infix_rfl⟩
    simpa [row, Fragment.texts, texts, CheckConstraint.texts] using h
  | foreignKey k =>
    simp only [row, Fragment.texts, List.flatMap_cons, List.flatMap_nil, List.mem_append,
      List.mem_cons, List.not_mem_nil, or_false, false_or] at h
    rcases h with rfl | hname | rfl | rfl | hname
    · exact ⟨k.name, by simp [texts, ForeignKey.texts], List.infix_rfl⟩
    · exact ⟨k.columns, by simp [texts, ForeignKey.texts],
        ForeignKey.infix_of_mem_columnNames hname⟩
    · exact ⟨k.referencedSchema, by simp [texts, ForeignKey.texts], List.infix_rfl⟩
    · exact ⟨k.referencedTable, by simp [texts, ForeignKey.texts], List.infix_rfl⟩
    · exact ⟨k.referencedColumns, by simp [texts, ForeignKey.texts],
        ForeignKey.infix_of_mem_columnNames hname⟩

/-- What passes to parts of a text and holds of the texts of a clause holds of those in its row. -/
theorem forall_mem_row {P : String → Prop}
    (hP : ∀ {part whole : String}, part.toList <:+: whole.toList → P whole → P part)
    {clause : Clause} (h : ∀ text ∈ clause.texts, P text) :
    ∀ fragment ∈ clause.row, ∀ text ∈ fragment.texts, P text := by
  intro fragment hfragment text htext
  obtain ⟨whole, hwhole, hpart⟩ :=
    exists_infix_of_mem_row (List.mem_flatMap.mpr ⟨fragment, hfragment, htext⟩)
  exact hP hpart (h whole hwhole)

end Clause

end ChangeDdl
