import ChangeDdl.Proofs.Ddl.UniqueReading

/-!
Conversion loses nothing. As long as the parts of an event can be told apart in the text, two
events have the same text in the standard dialect exactly when they have the same normal form:
`convert_eq_convert_iff`. The normal form of a table forgets what is not written, that is lengths
that are not positive, empty defaults and repetitions in the primary key; the kind of a change is
forgotten too.

`ChangeEvent.Readable` says what the parts of an event must avoid. Each of the conditions is there
because some other part of a clause begins or ends with what it excludes.
-/

set_option autoImplicit false
set_option relaxedAutoImplicit false

namespace ChangeDdl

/-! ### Tables -/

namespace Table

/-- A table as it is written: its columns in normal form, and each key column once. -/
def normal (t : Table) : Table :=
  { t with columns := t.columns.map Column.normal, primaryKey := t.primaryKey.eraseDups }

/-- The table that some clauses define. -/
def ofClauses (clauses : List Clause) : Table where
  columns := clauses.filterMap fun | .column c => some c | _ => none
  primaryKey := (clauses.filterMap fun | .primaryKey names => some names | _ => none).flatten
  foreignKeys := clauses.filterMap fun | .foreignKey k => some k | _ => none
  uniques := clauses.filterMap fun | .unique u => some u | _ => none
  checks := clauses.filterMap fun | .check c => some c | _ => none

theorem ofClauses_clauses (t : Table) : ofClauses (t.clauses.map Clause.normal) = t.normal := by
  by_cases hkey : t.primaryKey = []
  · simp [ofClauses, clauses, keyClauses, normal, Clause.normal, hkey, List.filterMap_map,
      Function.comp_def]
  · simp [ofClauses, clauses, keyClauses, normal, Clause.normal, hkey, List.filterMap_map,
      Function.comp_def]

end Table

/-! ### Statements -/

/-- The text of a column does not tell it from its normal form. -/
theorem Dialect.columnClause_normal (d : Dialect) (rename : String → String) (c : Column) :
    d.columnClause rename c.normal = d.columnClause rename c := by
  have hlength : c.normal.lengthText = c.lengthText := by
    rw [← String.toList_inj, Column.toList_lengthText, Column.toList_lengthText]
    simp [Column.normal, Option.filter_filter]
  have hdefault : c.normal.defaultText = c.defaultText := by
    rw [← String.toList_inj, Column.toList_defaultText, Column.toList_defaultText]
    simp [Column.normal, Option.filter_filter]
  simp only [columnClause, hlength, hdefault]
  rfl

namespace Synthesizer

/-- A table has the text of its normal form, in every dialect. -/
theorem createTable_normal (s : Synthesizer) (source : Source) (t : Table) :
    s.createTable source t.normal = s.createTable source t := by
  have hcolumns : t.normal.columns.map (s.dialect.columnClause s.rename) =
      t.columns.map (s.dialect.columnClause s.rename) := by
    simp [Table.normal, Dialect.columnClause_normal]
  have hkey : s.dialect.primaryKeyClause t.normal.primaryKey =
      s.dialect.primaryKeyClause t.primaryKey :=
    s.dialect.primaryKeyClause_congr (eraseDups_eraseDups t.primaryKey)
  simp only [createTable_eq, Dialect.clauseGroups, hcolumns, hkey]
  rfl

/-- A statement shows its table, in front of another statement or the end. -/
theorem createTable_append_inj {source target : Source} {t u : Table}
    (hsource : Unquoted source.schema ∧ Unquoted source.table)
    (htarget : Unquoted target.schema ∧ Unquoted target.table)
    (ht : t.Admissible Column.Readable OneLine) (hu : u.Admissible Column.Readable OneLine)
    {r s : List Char} (hr : EndsLine r) (hs : EndsLine s)
    (h : (standard.createTable source t).toList ++ r =
      (standard.createTable target u).toList ++ s) :
    (source = target ∧ t.normal = u.normal) ∧ r = s := by
  simp only [toList_createTable, List.append_assoc, List.cons_append, List.nil_append] at h
  obtain ⟨hschema, h⟩ := quotedChars_append_inj hsource.1 htarget.1 (List.append_cancel_left h)
  obtain ⟨htable, h⟩ := quotedChars_append_inj hsource.2 htarget.2 (List.cons.inj h).2
  obtain ⟨hclauses, hrest⟩ := Clause.intercalate_chars_append_inj ht.clauses
    hu.clauses hr hs (List.append_cancel_left h)
  refine ⟨⟨?_, ?_⟩, hrest⟩
  · cases source
    cases target
    simp_all
  · rw [← Table.ofClauses_clauses t, hclauses, Table.ofClauses_clauses]

end Synthesizer

/-! ### Events -/

/-- An event whose parts can be told apart in the text. -/
def ChangeEvent.Readable (e : ChangeEvent) : Prop := e.Admissible Column.Readable OneLine

instance (e : ChangeEvent) : Decidable e.Readable :=
  inferInstanceAs (Decidable (e.Admissible Column.Readable OneLine))

namespace Synthesizer

theorem convert_eq_empty_iff (e : ChangeEvent) : standard.convert e = "" ↔ e.changes = [] := by
  rw [← String.toList_inj, toList_convert, String.toList_empty]
  cases e.changes with
  | nil => simp
  | cons change rest => simp [intercalate_cons, toList_createTable]

/-- The text of an event with changes shows the table that it is about and what is written of each
change. -/
theorem convert_inj {e f : ChangeEvent} (he : e.Readable) (hf : f.Readable) (heNil : e.changes ≠ [])
    (hfNil : f.changes ≠ []) (h : standard.convert e = standard.convert f) :
    e.changes.map (fun change ↦ (e.source, change.table.normal)) =
      f.changes.map (fun change ↦ (f.source, change.table.normal)) := by
  have hreadable : ∀ {e : ChangeEvent}, e.Readable →
      ∀ p ∈ e.changes.map fun change ↦ (e.source, change.table),
        (Unquoted p.1.schema ∧ Unquoted p.1.table) ∧ p.2.Admissible Column.Readable OneLine := by
    intro e he p hp
    obtain ⟨change, hchange, rfl⟩ := List.mem_map.mp hp
    exact ⟨⟨he.schema, he.table⟩, he.changes change hchange⟩
  have hchars : ∀ e : ChangeEvent, (standard.convert e).toList = [';'].intercalate
      ((e.changes.map fun change ↦ (e.source, change.table)).map fun p ↦
        (standard.createTable p.1 p.2).toList) := by
    intro e
    rw [toList_convert, List.map_map]
    rfl
  have htexts := congrArg String.toList h
  rw [hchars, hchars, ← List.append_nil ([';'].intercalate _),
    ← List.append_nil ([';'].intercalate ((f.changes.map _).map _))] at htexts
  obtain ⟨hkeys, _⟩ := intercalate_append_inj
    (fun p : Source × Table ↦ (p.1, p.2.normal)) EndsLine
    (fun p hp q hq r s hr hs heq ↦ by
      obtain ⟨⟨hsource, htable⟩, hrest⟩ := createTable_append_inj (hreadable he p hp).1
        (hreadable hf q hq).1 (hreadable he p hp).2 (hreadable hf q hq).2 hr hs heq
      exact ⟨by rw [hsource, htable], hrest⟩)
    (fun p r ↦ by simp [EndsLine]) (by simp [EndsLine]) (by simp [EndsLine]) (by simp)
    (by simpa using heNil) (by simpa using hfNil) htexts
  simpa [Function.comp_def] using hkeys

/-- Changes with the same normal forms have the same texts. -/
theorem convert_congr {e f : ChangeEvent} (hsource : e.source = f.source)
    (h : e.changes.map (fun change ↦ change.table.normal) =
      f.changes.map (fun change ↦ change.table.normal)) :
    standard.convert e = standard.convert f := by
  have hstatements : ∀ e : ChangeEvent,
      e.changes.map (fun change ↦ standard.createTable e.source change.table) =
        (e.changes.map fun change ↦ change.table.normal).map (standard.createTable e.source) := by
    intro e
    simp [createTable_normal]
  rw [convert, convert, hstatements, hstatements, hsource, h]

end Synthesizer

/-- Two events have the same text exactly when both are without changes, or they are about the same
table and their changes agree one by one up to the normal form of the definitions. -/
theorem convert_eq_convert_iff {e f : ChangeEvent} (he : e.Readable) (hf : f.Readable) :
    Synthesizer.standard.convert e = Synthesizer.standard.convert f ↔
      (e.changes = [] ∧ f.changes = []) ∨
        (e.source = f.source ∧
          e.changes.map (fun change ↦ change.table.normal) =
            f.changes.map (fun change ↦ change.table.normal)) := by
  constructor
  · intro h
    by_cases heNil : e.changes = []
    · refine Or.inl ⟨heNil, ?_⟩
      rwa [← Synthesizer.convert_eq_empty_iff, ← h, Synthesizer.convert_eq_empty_iff]
    · have hfNil : f.changes ≠ [] := by
        rwa [ne_eq, ← Synthesizer.convert_eq_empty_iff, ← h, Synthesizer.convert_eq_empty_iff]
      have hpairs := Synthesizer.convert_inj he hf heNil hfNil h
      have htables := congrArg (List.map Prod.snd) hpairs
      have hsources := congrArg (List.map Prod.fst) hpairs
      obtain ⟨first, rest, hfirst⟩ := List.exists_cons_of_ne_nil heNil
      obtain ⟨second, more, hsecond⟩ := List.exists_cons_of_ne_nil hfNil
      refine Or.inr ⟨?_, by simpa [Function.comp_def] using htables⟩
      simp only [hfirst, hsecond, List.map_cons, List.cons.injEq] at hsources
      exact hsources.1
  · rintro (⟨heNil, hfNil⟩ | ⟨hsource, htables⟩)
    · rw [(Synthesizer.convert_eq_empty_iff e).mpr heNil,
        (Synthesizer.convert_eq_empty_iff f).mpr hfNil]
    · exact Synthesizer.convert_congr hsource htables

/-- A table with a length that is not positive, an empty default and a repeated key column. -/
def repeatedKeyTable : Table where
  columns := [⟨"id, \n)", "INT", some (-1), some "", false⟩,
    ⟨"note", "TEXT", some 20, some "a) || f(x, y)", true⟩]
  primaryKey := ["id", "tenant", "id"]
  foreignKeys := [⟨"fk", "a,b", "s", "t;", "x,y"⟩]
  uniques := [⟨"uk", "note"⟩]
  checks := [⟨"ck", "id > 0)"⟩]

/-- Both events are readable, and their changes differ in kind, length, default and key only. -/
theorem convert_eq_convert_iff_repeatedKeyTable :
    let e : ChangeEvent := ⟨⟨"s", "t"⟩, [⟨.drop, repeatedKeyTable⟩]⟩
    let f : ChangeEvent := ⟨⟨"s", "t"⟩, [⟨.create, repeatedKeyTable.normal⟩]⟩
    e.Readable ∧ f.Readable ∧
      (Synthesizer.standard.convert e = Synthesizer.standard.convert f ↔
        (e.changes = [] ∧ f.changes = []) ∨
          (e.source = f.source ∧
            e.changes.map (fun change ↦ change.table.normal) =
              f.changes.map (fun change ↦ change.table.normal))) := by
  refine ⟨by decide +kernel, by decide +kernel, ?_⟩
  exact convert_eq_convert_iff (by decide +kernel) (by decide +kernel)

end ChangeDdl
