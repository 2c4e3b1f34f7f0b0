import ChangeDdl.Proofs.Ddl.Fragments

/-!
The lines of a creation. A clause begins a line of its own with a tab, and the mark behind it, a
comma or the closing bracket, ends that line. Only a primary key ends its line itself, so that the
mark behind it stands alone on the next one (`Clause.lines`). When no text of a table has a line
break, these are all the lines there are (`split_createTable`).

The lines are first written together (`Synthesizer.toList_createTable_lines`); cutting a text at its
line breaks takes lines without a break apart again (`Text.split_eq_of_intercalate`).
-/

set_option autoImplicit false
set_option relaxedAutoImplicit false

namespace ChangeDdl

/-! ### Texts on one line -/

/-- A text that stays on its line. -/
def Unbroken (text : String) : Prop := '\n' ∉ text.toList

instance (text : String) : Decidable (Unbroken text) := inferInstanceAs (Decidable (¬ _))

namespace Unbroken

theorem append {first second : String} (hfirst : Unbroken first) (hsecond : Unbroken second) :
    Unbroken (first ++ second) := by
  rw [Unbroken, String.toList_append, List.mem_append, not_or]
  exact ⟨hfirst, hsecond⟩

theorem bracketed {text : String} (h : Unbroken text) : Unbroken (bracketed text) :=
  ((by decide : Unbroken "(").append h).append (by decide)

theorem quoted {name : String} (h : Unbroken name) :
    Unbroken (Dialect.standard.quoted name) := by
  simpa [Unbroken, quotedChars] using h

theorem qualified {schema table : String} (hschema : Unbroken schema) (htable : Unbroken table) :
    Unbroken (Dialect.standard.qualified schema table) := by
  have hpoint : Unbroken "." := by decide
  exact (hschema.quoted.append hpoint).append htable.quoted

theorem listed {names : List String} (h : ∀ name ∈ names, Unbroken name) :
    Unbroken (Dialect.standard.listed names) := by
  have hquoted : ∀ name ∈ names, '\n' ∉ quotedChars name := by
    intro name hname
    rw [← toList_quoted_standard]
    exact (h name hname).quoted
  rw [Unbroken, toList_listed_standard]
  cases names with
  | nil => simp
  | cons first rest =>
    obtain ⟨hfirst, hrest⟩ := List.forall_mem_cons.mp hquoted
    rw [List.map_cons, intercalate_cons]
    simpa [hfirst] using hrest

theorem of_infix {part whole : String} (h : part.toList <:+: whole.toList)
    (hwhole : Unbroken whole) : Unbroken part :=
  fun hbreak ↦ hwhole (h.subset hbreak)

end Unbroken

/-! ### Lines of a clause -/

namespace Fragment

theorem unbroken_text {fragment : Fragment} (h : ∀ text ∈ fragment.texts, Unbroken text) :
    Unbroken (fragment.text Dialect.standard) := by
  cases fragment with
  | word w => cases w <;> decide
  | name s => exact (h s List.mem_cons_self).quoted
  | listed names => exact (Unbroken.listed h).bracketed
  | length n =>
    have hdigits : Unbroken (Decimal.integer n.toInt) := by
      intro hbreak
      rcases mem_digits hbreak with h | h <;> simp at h
    exact hdigits.bracketed
  | enclosed s => exact (h s List.mem_cons_self).bracketed
  | bare s => exact h s List.mem_cons_self

theorem unbroken_join {row : List Fragment}
    (h : ∀ fragment ∈ row, ∀ text ∈ fragment.texts, Unbroken text) :
    Unbroken (join Dialect.standard row) := by
  intro hbreak
  rw [toList_join, List.mem_flatMap] at hbreak
  obtain ⟨fragment, hfragment, hbreak⟩ := hbreak
  exact unbroken_text (h fragment hfragment) hbreak

end Fragment

namespace Clause

/-- The words of a clause, without what puts them on a line. -/
def words : Clause → String
  | column c => Dialect.standard.quoted c.name ++ " " ++ c.typeName ++ c.lengthText ++
      c.defaultText ++ c.nullabilityText
  | primaryKey names => "PRIMARY KEY " ++ bracketed (Dialect.standard.listed names)
  | unique u => "CONSTRAINT " ++ Dialect.standard.quoted u.name ++ " UNIQUE " ++
      bracketed (Dialect.standard.quoted u.column)
  | check c => "CONSTRAINT " ++ Dialect.standard.quoted c.name ++ " CHECK " ++
      bracketed c.condition
  | foreignKey k =>
      let columns (spec : String) : String :=
        if ColumnSpec.isComposite k.columns then Dialect.standard.splitSpec spec
        else Dialect.standard.quoted spec
      "CONSTRAINT " ++ Dialect.standard.quoted k.name ++ " FOREIGN KEY " ++
        bracketed (columns k.columns) ++ " REFERENCES " ++
        Dialect.standard.qualified k.referencedSchema k.referencedTable ++ " " ++
        bracketed (columns k.referencedColumns)

/-- The lines of a clause with the mark behind it. -/
def lines (mark : String) (clause : Clause) : List String :=
  if clause.isPrimaryKey then ["\t" ++ clause.words, mark] else ["\t" ++ clause.words ++ mark]

variable {clause : Clause}

theorem text_eq_words (clause : Clause) : clause.text Dialect.standard id =
    "\n\t" ++ clause.words ++ if clause.isPrimaryKey then "\n" else "" := by
  cases clause with
  | primaryKey names => rfl
  | column | unique | check | foreignKey => exact String.append_empty.symm

theorem words_eq_row (clause : Clause) :
    clause.words = Fragment.join Dialect.standard clause.row := by
  have h := (text_eq_words clause).symm.trans (text_eq_row Dialect.standard clause)
  rw [← String.toList_inj] at h ⊢
  simpa [Dialect.standard] using h

theorem unbroken_words (h : ∀ text ∈ clause.texts, Unbroken text) : Unbroken clause.words := by
  rw [words_eq_row]
  exact Fragment.unbroken_join (forall_mem_row Unbroken.of_infix h)

/-- Each line of a clause stands behind a line break. -/
theorem chars_append_mark (clause : Clause) (mark : String) :
    clause.chars ++ mark.toList = (clause.lines mark).flatMap fun line ↦ ['\n'] ++ line.toList := by
  rw [chars, text_eq_words, lines]
  split_ifs <;> simp

theorem unbroken_lines {mark : String} (hmark : Unbroken mark)
    (h : ∀ text ∈ clause.texts, Unbroken text) : ∀ line ∈ clause.lines mark, Unbroken line := by
  have htab : Unbroken "\t" := by decide
  have hline := htab.append (unbroken_words h)
  unfold lines
  split_ifs
  · simpa using ⟨hline, hmark⟩
  · simpa using hline.append hmark

/-- The lines of clauses behind each other, up to the closing bracket. -/
def allLines : List Clause → List String
  | [] => []
  | [clause] => clause.lines ")"
  | clause :: next :: rest => clause.lines "," ++ allLines (next :: rest)

theorem intercalate_chars_eq_allLines {clauses : List Clause} (h : clauses ≠ []) :
    [','].intercalate (clauses.map chars) ++ [')'] =
      (allLines clauses).flatMap fun line ↦ ['\n'] ++ line.toList := by
  fun_induction allLines clauses with
  | case1 => exact absurd rfl h
  | case2 clause =>
    rw [List.map_singleton, List.intercalate_singleton]
    exact chars_append_mark clause ")"
  | case3 clause next rest ih =>
    have hrest := ih (List.cons_ne_nil next rest)
    have hclause := chars_append_mark clause ","
    rw [List.flatMap_append, ← hrest, ← hclause]
    simp

theorem unbroken_allLines {clauses : List Clause}
    (h : ∀ clause ∈ clauses, ∀ text ∈ clause.texts, Unbroken text) :
    ∀ line ∈ allLines clauses, Unbroken line := by
  have hcomma : Unbroken "," := by decide
  have hbracket : Unbroken ")" := by decide
  fun_induction allLines clauses with
  | case1 => nofun
  | case2 clause => exact unbroken_lines hbracket (h clause List.mem_cons_self)
  | case3 clause next rest ih =>
    obtain ⟨hclause, hrest⟩ := List.forall_mem_cons.mp h
    exact List.forall_mem_append.mpr ⟨unbroken_lines hcomma hclause, ih hrest⟩

end Clause

/-! ### Lines of a creation -/

namespace Synthesizer

/-- The lines of a creation: one line if there are no clauses, else a head and the clauses. -/
def lines (source : Source) (t : Table) : List String :=
  let head := "CREATE TABLE " ++ Dialect.standard.qualified source.schema source.table
  if t.clauses.isEmpty then [head ++ " ()"] else (head ++ " (") :: Clause.allLines t.clauses

theorem toList_createTable_lines (source : Source) (t : Table) :
    (standard.createTable source t).toList =
      ['\n'].intercalate ((lines source t).map String.toList) := by
  rw [toList_createTable, lines]
  split_ifs with hclauses
  · rw [List.isEmpty_iff.mp hclauses]
    simp [Dialect.qualified]
  · have hlines := Clause.intercalate_chars_eq_allLines (mt List.isEmpty_iff.mpr hclauses)
    rw [hlines, List.map_cons, intercalate_cons, List.flatMap_map]
    simp [Dialect.qualified]

theorem unbroken_lines {source : Source} {t : Table} (hschema : Unbroken source.schema)
    (htable : Unbroken source.table) (h : ∀ text ∈ t.texts, Unbroken text) :
    ∀ line ∈ lines source t, Unbroken line := by
  have hwords : Unbroken "CREATE TABLE " := by decide
  have hnone : Unbroken " ()" := by decide
  have hopen : Unbroken " (" := by decide
  have hname := Unbroken.qualified hschema htable
  have htexts : ∀ clause ∈ t.clauses, ∀ text ∈ clause.texts, Unbroken text :=
    fun clause hclause text htext ↦ h text (Table.texts_of_mem_clauses hclause htext)
  have hclauses := Clause.unbroken_allLines htexts
  unfold lines
  split_ifs
  · exact List.forall_mem_singleton.mpr ((hwords.append hname).append hnone)
  · exact List.forall_mem_cons.mpr ⟨(hwords.append hname).append hopen, hclauses⟩

end Synthesizer

/-! ### The end of a creation -/

/-- The key clause is the last one if there is a key and no constraint. -/
theorem Table.getLast?_clauses_isPrimaryKey (t : Table) :
    (t.clauses.getLast?.any Clause.isPrimaryKey) ↔
      t.primaryKey ≠ [] ∧ t.uniques = [] ∧ t.checks = [] ∧ t.foreignKeys = [] := by
  -- The last clause is found in the last group that has one.
  rcases List.eq_nil_or_concat' t.foreignKeys with hkeys | ⟨_, key, hkeys⟩
  · rcases List.eq_nil_or_concat' t.checks with hchecks | ⟨_, check, hchecks⟩
    · rcases List.eq_nil_or_concat' t.uniques with huniques | ⟨_, unique, huniques⟩
      · by_cases hkey : t.primaryKey = []
        · rcases List.eq_nil_or_concat' t.columns with hcolumns | ⟨_, column, hcolumns⟩ <;>
            simp [clauses, keyClauses, hkeys, hchecks, huniques, hkey, hcolumns,
              Clause.isPrimaryKey]
        · simp [clauses, keyClauses, hkeys, hchecks, huniques, hkey, Clause.isPrimaryKey]
      · simp [clauses, hkeys, hchecks, huniques, Clause.isPrimaryKey]
    · simp [clauses, hkeys, hchecks, Clause.isPrimaryKey]
  · simp [clauses, hkeys, Clause.isPrimaryKey]

namespace Clause

/-- Only a primary key ends its line itself. -/
theorem getLast?_chars_eq_newline_iff {clause : Clause}
    (h : ∀ text ∈ clause.texts, Unbroken text) :
    clause.chars.getLast? = some '\n' ↔ clause.isPrimaryKey := by
  have hline : '\n' ∉ '\t' :: clause.words.toList :=
    List.not_mem_cons_of_ne_of_not_mem (by decide) (unbroken_words h)
  have hchars : clause.chars = ('\n' :: '\t' :: clause.words.toList) ++
      if clause.isPrimaryKey then ['\n'] else [] := by
    rw [chars, text_eq_words]
    split_ifs <;> simp
  rw [hchars, List.getLast?_append]
  cases clause.isPrimaryKey with
  | true => simp
  | false =>
    have hlast : ('\t' :: clause.words.toList).getLast? ≠ some '\n' := fun hlast ↦
      hline (List.mem_of_getLast? hlast)
    simpa [List.getLast?_cons_cons] using hlast

end Clause

theorem getLast?_intercalate_concat {separator last : List Char} (hlast : last ≠ [])
    (pieces : List (List Char)) :
    (separator.intercalate (pieces ++ [last])).getLast? = last.getLast? := by
  induction pieces with
  | nil => simp
  | cons piece rest ih =>
    rw [List.cons_append, List.intercalate_cons_of_ne_nil (by simp), List.getLast?_append, ih]
    exact Option.or_of_isSome (List.getLast?_isSome.mpr hlast)

/-- A creation ends with the closing bracket on a line of its own if its last clause is the key. -/
theorem Synthesizer.newline_suffix_createTable_iff (source : Source) {t : Table}
    (h : ∀ text ∈ t.texts, Unbroken text) :
    "\n)".toList <:+ (standard.createTable source t).toList ↔
      t.clauses.getLast?.any Clause.isPrimaryKey := by
  have hbracket : "\n)".toList = ['\n'] ++ [')'] := rfl
  rw [toList_createTable, hbracket]
  simp only [← List.append_assoc, ← List.cons_append]
  rw [List.suffix_append_inj_of_length_eq rfl, List.singleton_suffix_iff_getLast?_eq_some,
    List.getLast?_append]
  rcases List.eq_nil_or_concat' t.clauses with hclauses | ⟨front, last, hclauses⟩
  · rw [hclauses, List.map_nil, List.intercalate_nil, List.getLast?_nil, Option.none_or,
      List.getLast?_append]
    simp
  · have hlast : last.chars ≠ [] := by
      obtain ⟨rest, hrest⟩ := last.chars_eq_newline
      simp [hrest]
    have hwords : ∀ text ∈ last.texts, Unbroken text := fun text htext ↦
      h text (Table.texts_of_mem_clauses (by simp [hclauses]) htext)
    rw [hclauses, List.map_append, List.map_singleton, getLast?_intercalate_concat hlast,
      Option.or_of_isSome (List.getLast?_isSome.mpr hlast), List.getLast?_concat]
    simpa using Clause.getLast?_chars_eq_newline_iff hwords

/-- A creation without line breaks in its texts, cut at its line breaks, is its lines: the head and
then, in the order of the clauses, one line for each that begins with a tab and ends with a comma
or, for the last, with the closing bracket; behind a primary key this mark has a line to itself. So
the creation ends with the bracket on a line of its own if there is a key and no constraint. -/
theorem split_createTable (source : Source) (t : Table) (hschema : Unbroken source.schema)
    (htable : Unbroken source.table) (h : ∀ text ∈ t.texts, Unbroken text) :
    Text.split '\n' (Synthesizer.standard.createTable source t) = Synthesizer.lines source t ∧
      ("\n)".toList <:+ (Synthesizer.standard.createTable source t).toList ↔
        t.primaryKey ≠ [] ∧ t.uniques = [] ∧ t.checks = [] ∧ t.foreignKeys = []) := by
  have hunbroken := Synthesizer.unbroken_lines hschema htable h
  have hlines : Synthesizer.lines source t ≠ [] := by
    unfold Synthesizer.lines
    split_ifs <;> simp
  refine ⟨?_, ?_⟩
  · exact Text.split_eq_of_intercalate (Synthesizer.toList_createTable_lines source t) hlines
      hunbroken
  · rw [Synthesizer.newline_suffix_createTable_iff source h, t.getLast?_clauses_isPrimaryKey]

/-- A table whose last clause is its key. -/
def keyedTable : Table where
  columns :=
    [⟨"order_id", "INT", none, none, false⟩, ⟨"note", "VARCHAR", some 255, some "'-'", true⟩]
  primaryKey := ["order_id", "note", "order_id"]
  foreignKeys := []
  uniques := []
  checks := []

/-- It has one line for each column, two for the key and one before them. -/
theorem split_createTable_keyedTable :
    Text.split '\n' (Synthesizer.standard.createTable ⟨"shop", "order"⟩ keyedTable) =
        ["CREATE TABLE \"shop\".\"order\" (", "\t\"order_id\" INT NOT NULL,",
          "\t\"note\" VARCHAR(255) DEFAULT '-',", "\tPRIMARY KEY (\"order_id\", \"note\")",
          ")"] ∧
      "\n)".toList <:+ (Synthesizer.standard.createTable ⟨"shop", "order"⟩ keyedTable).toList := by
  obtain ⟨hsplit, hend⟩ := split_createTable ⟨"shop", "order"⟩ keyedTable (by decide) (by decide)
    (by decide)
  exact ⟨hsplit.trans (by decide +kernel), hend.mpr (by decide)⟩

end ChangeDdl
