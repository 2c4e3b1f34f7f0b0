import ChangeDdl.Proofs.Ddl.Fragments
import ChangeDdl.Proofs.Ddl.Nesting
import ChangeDdl.Proofs.Fallible

/-!
The texts of the standard dialect can be cut into their parts again. Every clause is solid with
respect to commas and every statement with respect to semicolons, so the semicolons outside of
brackets and quotes are those between statements and the commas outside of them in the body of a
creation are those between clauses (`split_of_splittable`).

The raw texts in an event may hold brackets and quotes as long as they are closed there. A type or a
default expression must not hold a comma of its own, since it stands in the clause without brackets;
a condition may.
-/

set_option autoImplicit false
set_option relaxedAutoImplicit false

namespace ChangeDdl

/-- A column whose raw texts are closed and are not cut at a comma. -/
structure Column.Splittable (c : Column) : Prop where
  name : Unquoted c.name
  typeName : Solid ',' c.typeName.toList
  default : ∀ e ∈ c.defaultExpression, Solid ',' e.toList

instance (c : Column) : Decidable c.Splittable :=
  decidable_of_iff (Unquoted c.name ∧ Solid ',' c.typeName.toList ∧
      ∀ e ∈ c.defaultExpression, Solid ',' e.toList)
    ⟨fun ⟨h₁, h₂, h₃⟩ ↦ ⟨h₁, h₂, h₃⟩, fun ⟨h₁, h₂, h₃⟩ ↦ ⟨h₁, h₂, h₃⟩⟩

/-- An event whose texts can be cut into statements and clauses. -/
def ChangeEvent.Splittable (e : ChangeEvent) : Prop :=
  e.Admissible Column.Splittable fun condition ↦ Balanced condition.toList

instance (e : ChangeEvent) : Decidable e.Splittable :=
  inferInstanceAs (Decidable (e.Admissible Column.Splittable fun _ ↦ Balanced _))

/-! ### Names -/

theorem solid_quotedChars {separator : Char} {name : String} (hname : Unquoted name)
    (hseparator : separator ≠ '"') : Solid separator (quotedChars name) :=
  Solid.quotes hname hseparator

theorem balanced_quotedChars {name : String} (hname : Unquoted name) :
    Balanced (quotedChars name) := by
  have hsolid : Solid ',' (quotedChars name) := solid_quotedChars hname (by decide)
  exact hsolid.toBalanced

/-! ### Clauses -/

namespace Fragment

/-- A fragment that is closed and is not cut at a comma. -/
def Splittable : Fragment → Prop
  | word _ => True
  | name s => Unquoted s
  | listed names => ∀ name ∈ names, Unquoted name
  | length _ => True
  | enclosed s => Balanced s.toList
  | bare s => Solid ',' s.toList

theorem solid_bracketed {text : String} (h : Balanced text.toList) :
    Solid ',' (bracketed text).toList := by
  rw [toList_bracketed]
  exact Solid.bracketed h (by decide)

theorem balanced_listed {names : List String} (h : ∀ name ∈ names, Unquoted name) :
    Balanced (Dialect.standard.listed names).toList := by
  have hbetween : Balanced [',', ' '] := by decide
  rw [toList_listed_standard]
  refine hbetween.intercalate fun piece hpiece ↦ ?_
  obtain ⟨name, hname, rfl⟩ := List.mem_map.mp hpiece
  exact balanced_quotedChars (h name hname)

theorem balanced_digits (n : Int) : Balanced (Decimal.integer n).toList := by
  have hplain : Solid ',' (Decimal.integer n).toList := by
    refine Solid.plain fun c hc ↦ ?_
    rcases mem_digits hc with rfl | hdigit
    · decide
    · refine ⟨?_, ?_, ?_, ?_⟩ <;> rintro rfl <;> simp at hdigit
  exact hplain.toBalanced

theorem solid_text {fragment : Fragment} (h : fragment.Splittable) :
    Solid ',' (fragment.text Dialect.standard).toList := by
  cases fragment with
  | word w => cases w <;> decide
  | name s =>
    rw [text, toList_quoted_standard]
    exact solid_quotedChars h (by decide)
  | listed names => exact solid_bracketed (balanced_listed h)
  | length n => exact solid_bracketed (balanced_digits n.toInt)
  | enclosed s => exact solid_bracketed h
  | bare s => exact h

theorem solid_join {row : List Fragment} (h : ∀ fragment ∈ row, fragment.Splittable) :
    Solid ',' (join Dialect.standard row).toList := by
  induction row with
  | nil => exact Solid.nil
  | cons first rest ih =>
    obtain ⟨hfirst, hrest⟩ := List.forall_mem_cons.mp h
    rw [join_cons, String.toList_append]
    exact (solid_text hfirst).append (ih hrest)

end Fragment

theorem Column.splittable_of_mem_front {c : Column} (hc : c.Splittable) :
    ∀ fragment ∈ c.front, fragment.Splittable := by
  intro fragment h
  simp only [front, List.mem_cons, List.mem_append, List.mem_map, List.mem_flatMap,
    Option.mem_toList, List.not_mem_nil, or_false] at h
  rcases h with rfl | rfl | rfl | ⟨n, _, rfl⟩ | ⟨e, he, rfl | rfl⟩
  · exact hc.name
  · trivial
  · exact hc.typeName
  · trivial
  · trivial
  · exact hc.default e (Option.filter_eq_some_iff.mp he).1

namespace Clause

theorem splittable_of_mem_row {clause : Clause}
    (h : clause.Admissible Column.Splittable fun condition ↦ Balanced condition.toList) :
    ∀ fragment ∈ clause.row, fragment.Splittable := by
  cases clause with
  | column c =>
    refine List.forall_mem_append.mpr ⟨Column.splittable_of_mem_front h, ?_⟩
    split_ifs <;> simp [Fragment.Splittable]
  | primaryKey names => simpa [row, Fragment.Splittable] using h.2
  | unique u => simpa [row, Fragment.Splittable, Admissible] using h
  | check c => simpa [row, Fragment.Splittable, Admissible] using h
  | foreignKey k =>
    obtain ⟨hname, hcolumns, hschema, htable, hreferenced⟩ := h
    have hspec : ∀ spec, Unquoted spec → ∀ name ∈ k.columnNames spec, Unquoted name :=
      fun _ hspec _ hname hquote ↦
        hspec ((ForeignKey.infix_of_mem_columnNames hname).subset hquote)
    simp only [row, List.forall_mem_cons, Fragment.Splittable, true_and]
    exact ⟨hname, hspec _ hcolumns, hschema, htable, hspec _ hreferenced, List.forall_mem_nil _⟩

/-- No clause is cut at a comma. -/
theorem solid_chars {clause : Clause}
    (h : clause.Admissible Column.Splittable fun condition ↦ Balanced condition.toList) :
    Solid ',' clause.chars := by
  have hline : Solid ',' ['\n', '\t'] := by decide
  have hend : Solid ',' (if clause.isPrimaryKey then ['\n'] else []) := by
    split_ifs <;> decide
  rw [chars_eq_row]
  exact hline.append ((Fragment.solid_join (splittable_of_mem_row h)).append hend)

end Clause

/-! ### Statements -/

namespace Synthesizer

/-- The text in front of the body of a creation. -/
def head (source : Source) : String :=
  "CREATE TABLE " ++ standard.dialect.qualified source.schema source.table ++ " "

/-- The text between the brackets of a creation. -/
def body (t : Table) : String :=
  standard.dialect.joinGroups (standard.dialect.clauseGroups standard.rename t)

theorem toList_head (source : Source) :
    (head source).toList = "CREATE TABLE ".toList ++ (quotedChars source.schema ++
      (['.'] ++ (quotedChars source.table ++ [' ']))) := by
  have hhead : head source =
      "CREATE TABLE " ++ standard.dialect.qualified source.schema source.table ++ " " := rfl
  simp [hhead, Dialect.qualified, standard]

theorem toList_createTable_body (source : Source) (t : Table) :
    (standard.createTable source t).toList =
      (head source).toList ++ '(' :: ((body t).toList ++ [')']) := by
  have hparts : standard.createTable source t = head source ++ bracketed (body t) := rfl
  rw [hparts, String.toList_append, toList_bracketed]

variable {e : ChangeEvent}

theorem solid_head {separator : Char} (he : e.Splittable)
    (hwords : Solid separator "CREATE TABLE ".toList ∧ Solid separator ['.'] ∧
      Solid separator [' ']) (hquote : separator ≠ '"') :
    Solid separator (head e.source).toList := by
  have hschema := solid_quotedChars he.schema hquote
  have htable := solid_quotedChars he.table hquote
  rw [toList_head]
  exact hwords.1.append (hschema.append (hwords.2.1.append (htable.append hwords.2.2)))

theorem balanced_body (he : e.Splittable) {change : TableChange} (hchange : change ∈ e.changes) :
    Balanced (body change.table).toList := by
  have hcomma : Balanced [','] := by decide
  rw [body, toList_body]
  refine hcomma.intercalate fun piece hpiece ↦ ?_
  obtain ⟨clause, hclause, rfl⟩ := List.mem_map.mp hpiece
  exact (Clause.solid_chars ((he.changes change hchange).clauses clause hclause)).toBalanced

theorem solid_createTable (he : e.Splittable) {change : TableChange}
    (hchange : change ∈ e.changes) :
    Solid ';' (standard.createTable e.source change.table).toList := by
  have hhead : Solid ';' (head e.source).toList := solid_head he (by decide) (by decide)
  have hbody : Solid ';' ('(' :: ((body change.table).toList ++ [')'])) :=
    Solid.bracketed (balanced_body he hchange) (by decide)
  rw [toList_createTable_body]
  exact hhead.append hbody

theorem solid_dropTable (he : e.Splittable) : Solid ';' (standard.dropTable e.source).toList := by
  have hwords : Solid ';' "DROP TABLE ".toList := by decide
  have hpoint : Solid ';' ['.'] := by decide
  have hschema : Solid ';' (quotedChars e.source.schema) := solid_quotedChars he.schema (by decide)
  have htable : Solid ';' (quotedChars e.source.table) := solid_quotedChars he.table (by decide)
  have hchars : (standard.dropTable e.source).toList = "DROP TABLE ".toList ++
      (quotedChars e.source.schema ++ (['.'] ++ quotedChars e.source.table)) := by
    simp [dropTable, Dialect.qualified, standard]
  rw [hchars]
  exact hwords.append (hschema.append (hpoint.append htable))

theorem solid_statement (he : e.Splittable) {change : TableChange} (hchange : change ∈ e.changes)
    {sql : String} (h : standard.statement e.source change = .ok sql) : Solid ';' sql.toList := by
  unfold statement at h
  cases hkind : change.kind with
  | create =>
    simp only [hkind, Statement.ofKind?, emit] at h
    cases h
    exact solid_createTable he hchange
  | drop =>
    simp only [hkind, Statement.ofKind?, emit] at h
    cases h
    exact solid_dropTable he
  | alter => simp [hkind, Statement.ofKind?] at h

/-- The bracket behind the head closes at the end of the statement. -/
theorem enclosed_createTable (he : e.Splittable) {change : TableChange}
    (hchange : change ∈ e.changes) :
    enclosed (standard.createTable e.source change.table) =
      some (body change.table, "") := by
  have hhead : Solid '(' (head e.source).toList := solid_head he (by decide) (by decide)
  rw [enclosed, toList_createTable_body,
    opening_append hhead (balanced_body he hchange), Option.map_some]
  simp

/-- The commas outside of brackets and quotes are those between the clauses. -/
theorem splitTop_body (he : e.Splittable) {change : TableChange} (hchange : change ∈ e.changes)
    (hnil : (standard.dialect.clauseGroups standard.rename change.table).flatten ≠ []) :
    splitTop ',' (body change.table) =
      (standard.dialect.clauseGroups standard.rename change.table).flatten := by
  refine splitTop_intercalate hnil (fun text htext ↦ ?_) String.toList_intercalate
  rw [Dialect.flatten_clauseGroups] at htext
  obtain ⟨clause, hclause, rfl⟩ := List.mem_map.mp htext
  exact Clause.solid_chars ((he.changes change hchange).clauses clause hclause)

/-! ### Statements behind each other -/

theorem solid_of_mem_creations (he : e.Splittable) {statement : String}
    (h : statement ∈ e.changes.map fun change ↦ standard.createTable e.source change.table) :
    Solid ';' statement.toList := by
  obtain ⟨change, hchange, rfl⟩ := List.mem_map.mp h
  exact solid_createTable he hchange

theorem toList_convert_creations :
    (standard.convert e).toList = [';'].intercalate
      ((e.changes.map fun change ↦ standard.createTable e.source change.table).map
        String.toList) := by
  rw [toList_convert, List.map_map]
  rfl

/-- The statements of an event that has one for each of its changes. -/
theorem synthesize_eq_ok {s : Synthesizer} {sql : String} (h : s.synthesize e = .ok sql) :
    ∃ statements : List String, e.changes.map (s.statement e.source) = statements.map .ok ∧
      sql = s.dialect.statementSeparator.intercalate statements := by
  obtain ⟨statements, hstatements, h⟩ := bind_eq_ok_iff.mp h
  exact ⟨statements, mapM_eq_ok_iff.mp hstatements, (Except.ok.inj h).symm⟩

theorem solid_of_mem_statements (he : e.Splittable) {statements : List String}
    (h : e.changes.map (standard.statement e.source) = statements.map .ok) {statement : String}
    (hmem : statement ∈ statements) : Solid ';' statement.toList := by
  have hok : Except.ok statement ∈ e.changes.map (standard.statement e.source) := by
    rw [h]
    exact List.mem_map_of_mem hmem
  obtain ⟨change, hchange, hchangeOk⟩ := List.mem_map.mp hok
  exact solid_statement he hchange hchangeOk

/-- Semicolons between solid statements leave the text closed. -/
theorem balanced_statements {statements : List String}
    (h : ∀ statement ∈ statements, Solid ';' statement.toList) :
    Balanced ([';'].intercalate (statements.map String.toList)) := by
  have hsemicolon : Balanced [';'] := by decide
  refine hsemicolon.intercalate fun piece hpiece ↦ ?_
  obtain ⟨statement, hstatement, rfl⟩ := List.mem_map.mp hpiece
  exact (h statement hstatement).toBalanced

end Synthesizer

open Synthesizer in
/-- The texts of an event are closed; the semicolons outside of brackets and quotes separate its
statements, one for each change; and the body of a creation with clauses reaches from its first
bracket to the end and is cut into the clauses by the commas outside of brackets and quotes. -/
theorem split_of_splittable {e : ChangeEvent} (he : e.Splittable) :
    (Balanced (standard.convert e).toList ∧
      ∀ sql, standard.synthesize e = .ok sql → Balanced sql.toList) ∧
    (e.changes ≠ [] →
      splitTop ';' (standard.convert e) =
          e.changes.map (fun change ↦ standard.createTable e.source change.table) ∧
        ∀ sql, standard.synthesize e = .ok sql →
          (splitTop ';' sql).map .ok = e.changes.map (standard.statement e.source)) ∧
    ∀ change ∈ e.changes, ∀ clauses,
      (standard.dialect.clauseGroups standard.rename change.table).flatten = clauses →
      clauses ≠ [] →
        ∃ body, enclosed (standard.createTable e.source change.table) = some (body, "") ∧
          splitTop ',' body = clauses := by
  refine ⟨⟨?_, fun sql hsql ↦ ?_⟩, fun hnil ↦ ⟨?_, fun sql hsql ↦ ?_⟩,
    fun change hchange clauses hclauses hnil ↦ ?_⟩
  · rw [toList_convert_creations]
    exact balanced_statements fun statement ↦ solid_of_mem_creations he
  · obtain ⟨statements, hstatements, rfl⟩ := synthesize_eq_ok hsql
    rw [String.toList_intercalate]
    exact balanced_statements fun statement ↦ solid_of_mem_statements he hstatements
  · exact splitTop_intercalate (by simpa using hnil) (fun statement ↦ solid_of_mem_creations he)
      toList_convert_creations
  · obtain ⟨statements, hstatements, rfl⟩ := synthesize_eq_ok hsql
    have hstatementsNil : statements ≠ [] := by
      rintro rfl
      exact hnil (by simpa using hstatements)
    rw [hstatements, splitTop_intercalate hstatementsNil
      (fun statement ↦ solid_of_mem_statements he hstatements) String.toList_intercalate]
  · subst hclauses
    exact ⟨body change.table, enclosed_createTable he hchange, splitTop_body he hchange hnil⟩

/-- An event with punctuation in its names and in its raw texts. -/
def punctuatedEvent : ChangeEvent where
  source := ⟨"a;b", "t(1"⟩
  changes :=
    [{ kind := .create
       table :=
        { columns := [⟨"x,y", "NUMERIC(10, 2)", none, some "coalesce(a, b)", false⟩,
            ⟨")", "TEXT", some 20, none, true⟩]
          primaryKey := ["x,y", ")", "x,y"]
          foreignKeys := [⟨"fk;", "p,q", "s.", "u", "(,"⟩]
          uniques := [⟨"uk(", ")"⟩]
          checks := [⟨"ck", "a in (1, 2), b; c"⟩] } },
     ⟨.drop, Table.empty⟩]

open Synthesizer in
/-- The event is splittable and has statements for both of its changes. -/
theorem split_of_splittable_punctuatedEvent :
    punctuatedEvent.Splittable ∧
      splitTop ';' (standard.convert punctuatedEvent) =
        punctuatedEvent.changes.map
          (fun change ↦ standard.createTable punctuatedEvent.source change.table) ∧
      (∃ sql, standard.synthesize punctuatedEvent = .ok sql ∧
        (splitTop ';' sql).map .ok =
          punctuatedEvent.changes.map (standard.statement punctuatedEvent.source)) ∧
      ∀ change ∈ punctuatedEvent.changes.head?, ∃ body,
        enclosed (standard.createTable punctuatedEvent.source change.table) = some (body, "") ∧
          splitTop ',' body =
            (standard.dialect.clauseGroups standard.rename change.table).flatten := by
  have hsplittable : punctuatedEvent.Splittable := by decide +kernel
  have hnil : punctuatedEvent.changes ≠ [] := by simp [punctuatedEvent]
  obtain ⟨_, hstatements, hclauses⟩ := split_of_splittable hsplittable
  obtain ⟨hconvert, hsynthesize⟩ := hstatements hnil
  refine ⟨hsplittable, hconvert, ⟨_, rfl, hsynthesize _ rfl⟩, fun change hchange ↦ ?_⟩
  refine hclauses change (List.mem_of_mem_head? hchange) _ rfl ?_
  obtain rfl := Option.some.inj hchange
  simp [Dialect.flatten_clauseGroups, Table.clauses]

end ChangeDdl
