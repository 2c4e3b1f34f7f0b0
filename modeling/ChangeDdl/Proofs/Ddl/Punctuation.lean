import ChangeDdl.Proofs.Ddl.Fragments
import Mathlib.Data.List.Forall2

/-!
Other punctuation. When no text of an event holds a quote, a semicolon or a tab, then each of these
in a text of the standard dialect was put there by the dialect. A dialect with another quote,
another statement separator and another clause prefix gives the same texts with these three
replaced, all at once (`Punctuation.respell_convert_synthesize`).

`Punctuation.Respells` relates two texts that are put together in the same way, one with the
standard punctuation and one with the other; it is carried through the emission from the fragments
of a clause to whole texts. Texts put side by side must not form a clause prefix between them: only
the prefix itself has a tab, so no text of the standard dialect begins with one. The line break
behind a primary key is none of the dialect's and stays.
-/

set_option autoImplicit false
set_option relaxedAutoImplicit false

namespace ChangeDdl

/-! ### Replacing -/

/-- A text without any character of the standard punctuation but line breaks. -/
def Unpunctuated (text : String) : Prop := ∀ c ∈ text.toList, c ≠ '"' ∧ c ≠ ';' ∧ c ≠ '\t'

instance (text : String) : Decidable (Unpunctuated text) :=
  List.decidableBAll _ text.toList

/-- Texts to stand for the quote, the statement separator and the clause prefix of the standard
dialect. They may be empty. -/
structure Punctuation where
  quote : String
  statementSeparator : String
  clausePrefix : String

namespace Punctuation

variable (p : Punctuation)

/-- The standard dialect in everything but its punctuation. -/
def dialect : Dialect :=
  ((Dialect.standard.set .quote p.quote).set .statementSeparator p.statementSeparator).set
    .clausePrefix p.clausePrefix

/-- A character replaced, apart from clause prefixes. -/
def replaceChar (c : Char) : List Char :=
  if c = '"' then p.quote.toList
  else if c = ';' then p.statementSeparator.toList
  else [c]

/-- The characters with all standard punctuation replaced. What comes in is not replaced again. -/
def replace : List Char → List Char
  | '\n' :: '\t' :: rest => p.clausePrefix.toList ++ replace rest
  | c :: rest => p.replaceChar c ++ replace rest
  | [] => []

def respell (text : String) : String := String.ofList (p.replace text.toList)

theorem replace_cons {c : Char} {rest : List Char} (h : c ≠ '\n' ∨ rest.head? ≠ some '\t') :
    p.replace (c :: rest) = p.replaceChar c ++ p.replace rest := by
  rw [replace]
  rintro after rfl rfl
  simp at h

/-- Texts are replaced apart unless a clause prefix lies across them. -/
theorem replace_append {first second : List Char} (h : second.head? ≠ some '\t') :
    p.replace (first ++ second) = p.replace first ++ p.replace second := by
  fun_induction replace p first with
  | case1 rest ih => simp [replace, ih]
  | case2 c rest hprefix ih =>
    -- When `c` is the last of the first text, what follows it is the second.
    have hjoint : c ≠ '\n' ∨ (rest ++ second).head? ≠ some '\t' := by
      by_cases hc : c = '\n'
      · refine Or.inr ?_
        cases rest with
        | nil => exact h
        | cons d after =>
          rw [List.cons_append, List.head?_cons, ne_eq, Option.some.injEq]
          exact fun hd ↦ hprefix after hc (by rw [hd])
      · exact Or.inl hc
    rw [List.cons_append, p.replace_cons hjoint, ih, List.append_assoc]
  | case3 => rfl

theorem replace_eq_self {text : List Char} (h : ∀ c ∈ text, c ≠ '"' ∧ c ≠ ';' ∧ c ≠ '\t') :
    p.replace text = text := by
  induction text with
  | nil => rfl
  | cons c rest ih =>
    obtain ⟨⟨hquote, hsemicolon, -⟩, hrest⟩ := List.forall_mem_cons.mp h
    have hhead : rest.head? ≠ some '\t' := fun hhead ↦
      (hrest '\t' (List.mem_of_mem_head? hhead)).2.2 rfl
    rw [p.replace_cons (Or.inr hhead), ih hrest, replaceChar, if_neg hquote, if_neg hsemicolon]
    rfl

/-! ### Texts with their punctuation replaced -/

/-- Two texts put together alike, the first with standard punctuation and the second with this. -/
inductive Respells : String → String → Prop
  | unpunctuated {text : String} (h : Unpunctuated text) : Respells text text
  | quote : Respells "\"" p.quote
  | statementSeparator : Respells ";" p.statementSeparator
  | clausePrefix : Respells "\n\t" p.clausePrefix
  | append {first second first' second' : String} (hfirst : Respells first first')
      (hsecond : Respells second second') : Respells (first ++ second) (first' ++ second')

namespace Respells

variable {p : Punctuation}

theorem head?_ne_tab {text other : String} (h : p.Respells text other) :
    text.toList.head? ≠ some '\t' := by
  induction h with
  | unpunctuated h => exact fun hhead ↦ (h '\t' (List.mem_of_mem_head? hhead)).2.2 rfl
  | quote | statementSeparator | clausePrefix => simp
  | append _ _ hfirst hsecond =>
    rw [String.toList_append, List.head?_append]
    intro hhead
    rcases Option.or_eq_some_iff.mp hhead with hhead | ⟨-, hhead⟩
    · exact hfirst hhead
    · exact hsecond hhead

/-- The second text is the first with its punctuation replaced. -/
theorem respell_eq {text other : String} (h : p.Respells text other) : p.respell text = other := by
  induction h with
  | unpunctuated h => rw [respell, p.replace_eq_self h, String.ofList_toList]
  | quote | statementSeparator | clausePrefix => simp [respell, replace, replaceChar]
  | append _ hsecond ihfirst ihsecond =>
    rw [respell, String.toList_append, p.replace_append hsecond.head?_ne_tab, String.ofList_append]
    exact congrArg₂ (· ++ ·) ihfirst ihsecond

theorem empty : p.Respells "" "" :=
  .unpunctuated (by simp [Unpunctuated])

theorem intercalate {separator separator' : String} (h : p.Respells separator separator')
    {texts texts' : List String} (htexts : List.Forall₂ p.Respells texts texts') :
    p.Respells (separator.intercalate texts) (separator'.intercalate texts') := by
  induction htexts with
  | nil => exact empty
  | @cons text text' rest rest' htext hrest ih =>
    cases hrest with
    | nil => exact htext
    | cons =>
      rw [String.intercalate_cons_cons, String.intercalate_cons_cons]
      exact (htext.append h).append ih

/-- Texts made from the same things are joined alike. -/
theorem intercalate_map {α : Type} {separator separator' : String}
    (h : p.Respells separator separator') {f g : α → String} {as : List α}
    (has : ∀ a ∈ as, p.Respells (f a) (g a)) :
    p.Respells (separator.intercalate (as.map f)) (separator'.intercalate (as.map g)) := by
  refine h.intercalate ?_
  rw [List.forall₂_map_left_iff, List.forall₂_map_right_iff, List.forall₂_same]
  exact has

theorem bracketed {text text' : String} (h : p.Respells text text') :
    p.Respells (bracketed text) (bracketed text') :=
  ((unpunctuated (by decide)).append h).append (unpunctuated (by decide))

/-! ### Names -/

theorem quoted {name : String} (h : Unpunctuated name) :
    p.Respells (Dialect.standard.quoted name) (p.dialect.quoted name) :=
  (quote.append (unpunctuated h)).append quote

theorem qualified {schema table : String} (hschema : Unpunctuated schema)
    (htable : Unpunctuated table) :
    p.Respells (Dialect.standard.qualified schema table) (p.dialect.qualified schema table) :=
  ((quoted hschema).append (unpunctuated (by decide))).append (quoted htable)

theorem listed {names : List String} (h : ∀ name ∈ names, Unpunctuated name) :
    p.Respells (Dialect.standard.listed names) (p.dialect.listed names) :=
  intercalate_map (unpunctuated (by decide)) fun name hname ↦ quoted (h name hname)

end Respells

end Punctuation

/-! ### Clauses -/

theorem Unpunctuated.of_infix {part whole : String} (h : part.toList <:+: whole.toList)
    (hwhole : Unpunctuated whole) : Unpunctuated part :=
  fun c hc ↦ hwhole c (h.subset hc)

theorem unpunctuated_digits (n : Int) : Unpunctuated (Decimal.integer n) := by
  intro c hc
  rcases Fragment.mem_digits hc with rfl | hdigit
  · decide
  · refine ⟨?_, ?_, ?_⟩ <;> rintro rfl <;> simp at hdigit

namespace Punctuation.Respells

variable {p : Punctuation}

theorem fragment {fragment : Fragment} (h : ∀ text ∈ fragment.texts, Unpunctuated text) :
    p.Respells (fragment.text Dialect.standard) (fragment.text p.dialect) := by
  cases fragment with
  | word w => cases w <;> exact unpunctuated (by decide)
  | name s => exact quoted (h s List.mem_cons_self)
  | listed names => exact (listed h).bracketed
  | length n => exact (unpunctuated (unpunctuated_digits n.toInt)).bracketed
  | enclosed s => exact (unpunctuated (h s List.mem_cons_self)).bracketed
  | bare s => exact unpunctuated (h s List.mem_cons_self)

theorem join {row : List Fragment}
    (h : ∀ fragment ∈ row, ∀ text ∈ fragment.texts, Unpunctuated text) :
    p.Respells (Fragment.join Dialect.standard row) (Fragment.join p.dialect row) := by
  induction row with
  | nil => exact empty
  | cons first rest ih =>
    obtain ⟨hfirst, hrest⟩ := List.forall_mem_cons.mp h
    rw [Fragment.join_cons, Fragment.join_cons]
    exact (fragment hfirst).append (ih hrest)

theorem clauseText {clause : Clause} (h : ∀ text ∈ clause.texts, Unpunctuated text) :
    p.Respells (clause.text Dialect.standard id) (clause.text p.dialect id) := by
  have hrow := join (p := p) (Clause.forall_mem_row Unpunctuated.of_infix h)
  have hend : Unpunctuated (if clause.isPrimaryKey then "\n" else "") := by
    split_ifs <;> decide
  rw [Clause.text_eq_row, Clause.text_eq_row]
  exact (clausePrefix.append hrow).append (unpunctuated hend)

end Punctuation.Respells

/-! ### Statements -/

/-- The synthesizer of the dialect with this punctuation; every column keeps its name. -/
def Punctuation.synthesizer (p : Punctuation) : Synthesizer := ⟨p.dialect, id⟩

namespace Punctuation.Respells

variable {p : Punctuation} {source : Source} (hschema : Unpunctuated source.schema)
  (htable : Unpunctuated source.table)

include hschema htable

theorem createTable {t : Table} (h : ∀ text ∈ t.texts, Unpunctuated text) :
    p.Respells (Synthesizer.standard.createTable source t) (p.synthesizer.createTable source t) := by
  have hclauses : p.Respells
      (Dialect.standard.joinGroups (Dialect.standard.clauseGroups id t))
      (p.dialect.joinGroups (p.dialect.clauseGroups id t)) := by
    unfold Dialect.joinGroups
    rw [Dialect.flatten_clauseGroups, Dialect.flatten_clauseGroups]
    refine intercalate_map (unpunctuated (by decide)) fun clause hclause ↦ clauseText ?_
    exact fun text htext ↦ h text (Table.texts_of_mem_clauses hclause htext)
  have hwords : p.Respells "CREATE TABLE " "CREATE TABLE " := unpunctuated (by decide)
  have hblank : p.Respells " " " " := unpunctuated (by decide)
  exact ((hwords.append (qualified hschema htable)).append hblank).append hclauses.bracketed

theorem dropTable :
    p.Respells (Synthesizer.standard.dropTable source) (p.synthesizer.dropTable source) :=
  append (unpunctuated (by decide)) (qualified hschema htable)

/-- Whatever statement a change gets in one dialect it gets in the other. -/
theorem emit {t : Table} (h : ∀ text ∈ t.texts, Unpunctuated text) (statement : Statement) :
    p.Respells (Synthesizer.standard.emit source t statement)
      (p.synthesizer.emit source t statement) := by
  cases statement with
  | createTable => exact createTable hschema htable h
  | dropTable => exact dropTable hschema htable

/-- The changes of an event have statements in both dialects, or the same change is the first
without one in both. -/
theorem statements {changes : List TableChange}
    (h : ∀ change ∈ changes, ∀ text ∈ change.table.texts, Unpunctuated text) :
    (∃ texts texts', changes.mapM (Synthesizer.standard.statement source) = .ok texts ∧
      changes.mapM (p.synthesizer.statement source) = .ok texts' ∧
        List.Forall₂ p.Respells texts texts') ∨
    ∃ kind,
      changes.mapM (Synthesizer.standard.statement source) = .error (.unsupportedChange kind
        (Dialect.standard.qualified source.schema source.table)) ∧
      changes.mapM (p.synthesizer.statement source) = .error (.unsupportedChange kind
        (p.dialect.qualified source.schema source.table)) := by
  induction changes with
  | nil => exact Or.inl ⟨[], [], rfl, rfl, .nil⟩
  | cons change rest ih =>
    obtain ⟨hchange, hrest⟩ := List.forall_mem_cons.mp h
    simp only [List.mapM_cons, Synthesizer.statement]
    cases Statement.ofKind? change.kind with
    | none => exact Or.inr ⟨change.kind, rfl, rfl⟩
    | some statement =>
      have hemit : p.Respells (Synthesizer.standard.emit source change.table statement)
          (p.synthesizer.emit source change.table statement) := emit hschema htable hchange statement
      rcases ih hrest with ⟨texts, texts', hok, hok', htexts⟩ | ⟨kind, herror, herror'⟩
      · refine Or.inl ⟨_ :: texts, _ :: texts', ?_, ?_, .cons hemit htexts⟩
        · rw [hok]
          rfl
        · rw [hok']
          rfl
      · refine Or.inr ⟨kind, ?_, ?_⟩
        · rw [herror]
          rfl
        · rw [herror']
          rfl

end Punctuation.Respells

/-- For an event whose texts have no punctuation of the standard dialect, other punctuation gives
the standard text of all creations with the punctuation replaced. It also gives the standard text
of all changes so replaced, or both dialects fail at a change of the same kind, and the table in the
one error is the table in the other replaced. -/
theorem Punctuation.respell_convert_synthesize (p : Punctuation) (e : ChangeEvent)
    (he : ∀ text ∈ e.texts, Unpunctuated text) :
    p.synthesizer.convert e = p.respell (Synthesizer.standard.convert e) ∧
    ((∃ text, Synthesizer.standard.synthesize e = .ok text ∧
        p.synthesizer.synthesize e = .ok (p.respell text)) ∨
      ∃ kind table, Synthesizer.standard.synthesize e = .error (.unsupportedChange kind table) ∧
        p.synthesizer.synthesize e = .error (.unsupportedChange kind (p.respell table))) := by
  simp only [ChangeEvent.texts, List.forall_mem_cons, List.forall_mem_flatMap] at he
  obtain ⟨hschema, htable, hchanges⟩ := he
  constructor
  · have hconvert : p.Respells (Synthesizer.standard.convert e) (p.synthesizer.convert e) :=
      Respells.statementSeparator.intercalate_map fun change hchange ↦
        Respells.createTable hschema htable (hchanges change hchange)
    exact hconvert.respell_eq.symm
  · rcases Respells.statements hschema htable hchanges with
      ⟨texts, texts', hok, hok', htexts⟩ | ⟨kind, herror, herror'⟩
    · have hjoined := Respells.statementSeparator.intercalate htexts
      refine Or.inl ⟨_, by rw [Synthesizer.synthesize, hok]; rfl, ?_⟩
      rw [Synthesizer.synthesize, hok']
      exact congrArg Except.ok hjoined.respell_eq.symm
    · have hqualified := Respells.qualified hschema htable (p := p)
      refine Or.inr ⟨kind, _, by rw [Synthesizer.synthesize, herror]; rfl, ?_⟩
      rw [Synthesizer.synthesize, herror', hqualified.respell_eq]
      rfl

/-- Nothing around names, and clauses behind all that the standard punctuation is made of. -/
def sparsePunctuation : Punctuation := ⟨"", "\n/\n", "\t\";"⟩

/-- An event with line breaks at the ends of its texts, where the dialect goes on. -/
def brokenLinesEvent (kind : ChangeKind) : ChangeEvent where
  source := ⟨"s", "t\n"⟩
  changes :=
    [⟨.create, ⟨[⟨"a", "TEXT\n", some 3, none, true⟩], ["a", "b", "a"],
      [⟨"fk", "a,b", "r", "u", "x"⟩], [], []⟩⟩,
     ⟨kind, Table.empty⟩]

def brokenLinesText : String :=
  "CREATE TABLE \"s\".\"t\n\" (\n\t\"a\" TEXT\n(3),\n\tPRIMARY KEY (\"a\", \"b\")\n," ++
    "\n\tCONSTRAINT \"fk\" FOREIGN KEY (\"a\", \"b\") REFERENCES \"r\".\"u\" (\"x\"));" ++
    "DROP TABLE \"s\".\"t\n\""

def sparseText : String :=
  "CREATE TABLE s.t\n (\t\";a TEXT\n(3),\t\";PRIMARY KEY (a, b)\n," ++
    "\t\";CONSTRAINT fk FOREIGN KEY (a, b) REFERENCES r.u (x))\n/\nDROP TABLE s.t\n"

/-- The statements when the second change is a drop, and the failure when it is an alteration. -/
theorem respell_convert_synthesize_brokenLinesEvent :
    (∀ text ∈ (brokenLinesEvent .drop).texts, Unpunctuated text) ∧
    (∀ text ∈ (brokenLinesEvent .alter).texts, Unpunctuated text) ∧
    Synthesizer.standard.synthesize (brokenLinesEvent .drop) = .ok brokenLinesText ∧
    sparsePunctuation.synthesizer.synthesize (brokenLinesEvent .drop) = .ok sparseText ∧
    sparsePunctuation.synthesizer.convert (brokenLinesEvent .alter) =
      sparsePunctuation.respell (Synthesizer.standard.convert (brokenLinesEvent .alter)) ∧
    sparsePunctuation.synthesizer.synthesize (brokenLinesEvent .alter) =
      .error (.unsupportedChange .alter "s.t\n") := by
  have hdrop : ∀ text ∈ (brokenLinesEvent .drop).texts, Unpunctuated text := by decide +kernel
  have halter : ∀ text ∈ (brokenLinesEvent .alter).texts, Unpunctuated text := by decide +kernel
  obtain ⟨-, hdropped⟩ := sparsePunctuation.respell_convert_synthesize _ hdrop
  obtain ⟨hconvert, haltered⟩ := sparsePunctuation.respell_convert_synthesize _ halter
  have hstatements : Synthesizer.standard.synthesize (brokenLinesEvent .drop) =
      .ok brokenLinesText := by rfl
  have hrespell : sparsePunctuation.respell brokenLinesText = sparseText := by decide +kernel
  refine ⟨hdrop, halter, hstatements, ?_, hconvert, ?_⟩
  · obtain ⟨text, hstandard, hother⟩ | ⟨kind, table, hstandard, -⟩ := hdropped
    · obtain rfl := Except.ok.inj (hstatements.symm.trans hstandard)
      rw [hother, hrespell]
    · cases hstatements.symm.trans hstandard
  · obtain ⟨text, hstandard, -⟩ | ⟨kind, table, hstandard, hother⟩ := haltered
    · cases hstandard
    · obtain ⟨rfl, rfl⟩ := Error.unsupportedChange.inj (Except.error.inj hstandard)
      rw [hother]
      rfl

end ChangeDdl
