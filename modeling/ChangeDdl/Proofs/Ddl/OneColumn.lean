import ChangeDdl.Ddl.Statement

/-!
One column of an event and everything around it. The text of an event has the clause of the column
in one place, and nothing else in it comes from the column (`exists_convert_around`). So whatever is
said about the clause of a column holds for the whole text.
-/

set_option autoImplicit false
set_option relaxedAutoImplicit false

namespace ChangeDdl

/-- All of an event but one column. -/
structure ChangeEvent.Surroundings where
  source : Source
  earlier : List TableChange
  kind : ChangeKind
  /-- The table with the column, but for its columns. -/
  table : Table
  before : List Column
  after : List Column
  later : List TableChange

namespace ChangeEvent.Surroundings

/-- The table with this column in its place. -/
def tableWith (a : Surroundings) (c : Column) : Table :=
  { a.table with columns := a.before ++ c :: a.after }

/-- The event with this column in its place. -/
def event (a : Surroundings) (c : Column) : ChangeEvent :=
  ⟨a.source, a.earlier ++ ⟨a.kind, a.tableWith c⟩ :: a.later⟩

end ChangeEvent.Surroundings

/-- One piece of a joined text has its place there. -/
theorem exists_intercalate_around (separator : String) (before after : List String) :
    ∃ front back, ∀ text,
      separator.intercalate (before ++ text :: after) = front ++ text ++ back := by
  obtain ⟨back, hback⟩ : ∃ back, ∀ text, separator.intercalate (text :: after) = text ++ back := by
    by_cases hafter : after = []
    · exact ⟨"", fun text ↦ by rw [hafter, String.intercalate_singleton, String.append_empty]⟩
    · refine ⟨separator ++ separator.intercalate after, fun text ↦ ?_⟩
      rw [String.intercalate_cons_of_ne_nil hafter, String.append_assoc]
  by_cases hbefore : before = []
  · refine ⟨"", back, fun text ↦ ?_⟩
    rw [hbefore, List.nil_append, hback, String.empty_append]
  · refine ⟨separator.intercalate before ++ separator, back, fun text ↦ ?_⟩
    rw [String.intercalate_append_of_ne_nil hbefore (List.cons_ne_nil _ _), hback]
    simp only [String.append_assoc]

namespace Synthesizer

variable (s : Synthesizer)

theorem exists_createTable_around (source : Source) (table : Table) (before after : List Column) :
    ∃ front back, ∀ c : Column,
      s.createTable source { table with columns := before ++ c :: after } =
        front ++ s.dialect.columnClause s.rename c ++ back := by
  obtain ⟨front, back, hbody⟩ := exists_intercalate_around s.dialect.groupSeparator
    (before.map (s.dialect.columnClause s.rename))
    (after.map (s.dialect.columnClause s.rename) ++
      (s.dialect.clauseGroups s.rename { table with columns := [] }).flatten)
  refine ⟨"CREATE TABLE " ++ s.dialect.qualified source.schema source.table ++ " (" ++ front,
    back ++ ")", fun c ↦ ?_⟩
  have hclauses : (s.dialect.clauseGroups s.rename
      { table with columns := before ++ c :: after }).flatten =
        before.map (s.dialect.columnClause s.rename) ++ s.dialect.columnClause s.rename c ::
          (after.map (s.dialect.columnClause s.rename) ++
            (s.dialect.clauseGroups s.rename { table with columns := [] }).flatten) := by
    simp [Dialect.clauseGroups]
  rw [createTable_eq, Dialect.joinGroups, hclauses, hbody, bracketed]
  simp only [String.append_assoc]
  rfl

/-- The texts in front of a column and behind it are the same for every column in its place. -/
theorem exists_convert_around (a : ChangeEvent.Surroundings) :
    ∃ front back, ∀ c : Column,
      s.convert (a.event c) = front ++ s.dialect.columnClause s.rename c ++ back := by
  obtain ⟨first, last, hjoined⟩ := exists_intercalate_around s.dialect.statementSeparator
    ((a.earlier.map TableChange.table).map (s.createTable a.source))
    ((a.later.map TableChange.table).map (s.createTable a.source))
  obtain ⟨front, back, htable⟩ := s.exists_createTable_around a.source a.table a.before a.after
  refine ⟨first ++ front, back ++ last, fun c ↦ ?_⟩
  have htables : (a.event c).changes.map TableChange.table =
      a.earlier.map TableChange.table ++ a.tableWith c :: a.later.map TableChange.table := by
    rw [ChangeEvent.Surroundings.event, List.map_append, List.map_cons]
  have hsource : (a.event c).source = a.source := rfl
  rw [convert_eq_map_table, htables, hsource, List.map_append, List.map_cons, hjoined,
    ChangeEvent.Surroundings.tableWith, htable]
  simp only [String.append_assoc]

end Synthesizer

end ChangeDdl
