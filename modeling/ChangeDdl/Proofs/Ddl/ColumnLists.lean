import ChangeDdl.Proofs.Ddl.Clauses

/-!
Column lists read back by the rule of SQL for quoted identifiers: the quote opens and closes an
identifier, and a doubled quote inside of one stands for the quote itself.

Where a separator stands between two names, the closing quote of the one and the opening quote of
the other are two quotes (`readIdentifiers_listed`). Without a separator they are one doubled quote,
and the whole list is a single identifier (`readIdentifiers_listed_unseparated`). So the lists of a
dialect are readable exactly if its list separator is not empty (`listsReadable_iff`), which
validation does not ask for.
-/

set_option autoImplicit false
set_option relaxedAutoImplicit false

namespace ChangeDdl

/-! ### Reading quoted identifiers -/

/-- Where a reader of identifiers stands, with the characters of the identifier it is in. A quote
inside of an identifier ends it unless another quote follows. -/
inductive IdentifierPlace where
  | outside
  | inside (name : List Char)
  | behindQuote (name : List Char)
deriving DecidableEq

/-- The identifiers read so far, and the place of the reader. -/
structure IdentifierReader where
  names : List (List Char)
  place : IdentifierPlace
deriving DecidableEq

namespace IdentifierReader

def step (quote : Char) (r : IdentifierReader) (c : Char) : IdentifierReader :=
  match r.place with
  | .outside => if c = quote then { r with place := .inside [] } else r
  | .inside name =>
    if c = quote then { r with place := .behindQuote name }
    else { r with place := .inside (name ++ [c]) }
  | .behindQuote name =>
    if c = quote then { r with place := .inside (name ++ [quote]) }
    else { names := r.names ++ [name], place := .outside }

def run (quote : Char) (text : List Char) (r : IdentifierReader) : IdentifierReader :=
  text.foldl (step quote) r

/-- All identifiers, if none is left open. -/
def result (r : IdentifierReader) : Option (List (List Char)) :=
  match r.place with
  | .outside => some r.names
  | .inside _ => none
  | .behindQuote name => some (r.names ++ [name])

end IdentifierReader

/-- A name in quotes, of which it has none itself. -/
def identifier (quote : Char) (name : List Char) : List Char := quote :: (name ++ [quote])

/-- The quoted identifiers in a text. What stands between them is passed over. -/
def readIdentifiers (quote : Char) (text : String) : Option (List String) :=
  ((IdentifierReader.run quote text.toList ⟨[], .outside⟩).result).map (List.map String.ofList)

namespace IdentifierReader

variable {quote : Char} {names : List (List Char)} {name : List Char}

theorem run_append (first second : List Char) (r : IdentifierReader) :
    run quote (first ++ second) r = run quote second (run quote first r) :=
  List.foldl_append

/-- Characters other than the quote go on with an identifier. -/
theorem run_inside {text : List Char} (htext : quote ∉ text) :
    run quote text ⟨names, .inside name⟩ = ⟨names, .inside (name ++ text)⟩ := by
  induction text generalizing name with
  | nil => rw [List.append_nil]; rfl
  | cons c rest ih =>
    obtain ⟨hc, hrest⟩ := List.ne_and_not_mem_of_not_mem_cons htext
    have hstep : step quote ⟨names, .inside name⟩ c = ⟨names, .inside (name ++ [c])⟩ :=
      if_neg (Ne.symm hc)
    calc run quote (c :: rest) ⟨names, .inside name⟩
        = run quote rest ⟨names, .inside (name ++ [c])⟩ := congrArg (run quote rest) hstep
      _ = ⟨names, .inside (name ++ c :: rest)⟩ := by rw [ih hrest, List.append_assoc]; rfl

theorem run_outside {text : List Char} (htext : quote ∉ text) :
    run quote text ⟨names, .outside⟩ = ⟨names, .outside⟩ := by
  induction text with
  | nil => rfl
  | cons c rest ih =>
    obtain ⟨hc, hrest⟩ := List.ne_and_not_mem_of_not_mem_cons htext
    have hstep : step quote ⟨names, .outside⟩ c = ⟨names, .outside⟩ := if_neg (Ne.symm hc)
    exact (congrArg (run quote rest) hstep).trans (ih hrest)

/-- The first character that is not the quote ends the identifier. -/
theorem run_behindQuote {text : List Char} (htext : quote ∉ text) (hnil : text ≠ []) :
    run quote text ⟨names, .behindQuote name⟩ = ⟨names ++ [name], .outside⟩ := by
  cases text with
  | nil => exact absurd rfl hnil
  | cons c rest =>
    obtain ⟨hc, hrest⟩ := List.ne_and_not_mem_of_not_mem_cons htext
    have hstep : step quote ⟨names, .behindQuote name⟩ c = ⟨names ++ [name], .outside⟩ :=
      if_neg (Ne.symm hc)
    exact (congrArg (run quote rest) hstep).trans (run_outside hrest)

/-- A name in quotes. Its opening quote goes on with what was read `before`, if anything. -/
theorem run_identifier {r : IdentifierReader} {before text : List Char}
    (hopen : step quote r quote = ⟨names, .inside before⟩) (htext : quote ∉ text) :
    run quote (identifier quote text) r = ⟨names, .behindQuote (before ++ text)⟩ := by
  calc run quote (identifier quote text) r
      = run quote [quote] (run quote text ⟨names, .inside before⟩) := by
        rw [← run_append]
        exact congrArg (run quote (text ++ [quote])) hopen
    _ = ⟨names, .behindQuote (before ++ text)⟩ := by
        rw [run_inside htext]
        exact if_pos rfl

theorem run_identifier_outside {text : List Char} (htext : quote ∉ text) :
    run quote (identifier quote text) ⟨names, .outside⟩ = ⟨names, .behindQuote text⟩ := by
  have hopen : step quote ⟨names, .outside⟩ quote = ⟨names, .inside []⟩ := if_pos rfl
  exact run_identifier hopen htext

/-- Behind a closing quote, the opening quote of the next name makes a doubled quote. -/
theorem run_identifier_behindQuote {text : List Char} (htext : quote ∉ text) :
    run quote (identifier quote text) ⟨names, .behindQuote name⟩ =
      ⟨names, .behindQuote (name ++ quote :: text)⟩ := by
  have hopen : step quote ⟨names, .behindQuote name⟩ quote = ⟨names, .inside (name ++ [quote])⟩ :=
    if_pos rfl
  rw [run_identifier hopen htext, List.append_assoc]
  rfl

/-! ### Lists of quoted names -/

variable {rest : List (List Char)}

theorem result_run_separated {separator : List Char} (hseparator : quote ∉ separator)
    (hnil : separator ≠ []) (hrest : ∀ text ∈ rest, quote ∉ text) :
    (run quote (rest.flatMap fun text ↦ separator ++ identifier quote text)
      ⟨names, .behindQuote name⟩).result = some (names ++ name :: rest) := by
  induction rest generalizing names name with
  | nil => rfl
  | cons text more ih =>
    obtain ⟨htext, hmore⟩ := List.forall_mem_cons.mp hrest
    rw [List.flatMap_cons, run_append, run_append, run_behindQuote hseparator hnil,
      run_identifier_outside htext, ih hmore, List.append_assoc]
    rfl

theorem run_unseparated (hrest : ∀ text ∈ rest, quote ∉ text) :
    run quote (rest.flatMap (identifier quote)) ⟨names, .behindQuote name⟩ =
      ⟨names, .behindQuote (name ++ rest.flatMap fun text ↦ quote :: text)⟩ := by
  induction rest generalizing name with
  | nil => rw [List.flatMap_nil, List.flatMap_nil, List.append_nil]; rfl
  | cons text more ih =>
    obtain ⟨htext, hmore⟩ := List.forall_mem_cons.mp hrest
    rw [List.flatMap_cons, run_append, run_identifier_behindQuote htext, ih hmore,
      List.flatMap_cons, List.append_assoc]

end IdentifierReader

namespace Dialect

variable {d : Dialect} {quote : Char} {names : List String}

theorem toList_listed (hquote : d.quote = String.singleton quote) (names : List String) :
    (d.listed names).toList = d.listSeparator.toList.intercalate
      ((names.map String.toList).map (identifier quote)) := by
  have hquoted : String.toList ∘ d.quoted = identifier quote ∘ String.toList := by
    funext name
    simp [quoted, hquote, identifier]
  rw [listed, String.toList_intercalate, List.map_map, List.map_map, hquoted]

/-- Between two names the separator keeps the quotes apart. -/
theorem readIdentifiers_listed (hquote : d.quote = String.singleton quote)
    (hseparator : quote ∉ d.listSeparator.toList) (hnil : d.listSeparator ≠ "")
    (hnames : ∀ name ∈ names, quote ∉ name.toList) :
    readIdentifiers quote (d.listed names) = some names := by
  have hread : (IdentifierReader.run quote (d.listed names).toList ⟨[], .outside⟩).result =
      some (names.map String.toList) := by
    rw [toList_listed hquote]
    cases names with
    | nil => rfl
    | cons first rest =>
      obtain ⟨hfirst, hrest⟩ := List.forall_mem_cons.mp hnames
      rw [List.map_cons, List.map_cons, intercalate_cons, IdentifierReader.run_append,
        IdentifierReader.run_identifier_outside hfirst, List.flatMap_map]
      exact IdentifierReader.result_run_separated hseparator (by simpa using hnil)
        (by simpa using hrest)
  rw [readIdentifiers, hread, Option.map_some, List.map_map]
  simp [Function.comp_def]

/-- Without a separator a list is one identifier, with the quote between the names. -/
theorem readIdentifiers_listed_unseparated (hquote : d.quote = String.singleton quote)
    (hnil : d.listSeparator = "") (hnames : ∀ name ∈ names, quote ∉ name.toList)
    (hnonempty : names ≠ []) :
    readIdentifiers quote (d.listed names) =
      some [(String.singleton quote).intercalate names] := by
  obtain ⟨first, rest, rfl⟩ := List.exists_cons_of_ne_nil hnonempty
  obtain ⟨hfirst, hrest⟩ := List.forall_mem_cons.mp hnames
  have hread : IdentifierReader.run quote (d.listed (first :: rest)).toList ⟨[], .outside⟩ =
      ⟨[], .behindQuote ((String.singleton quote).intercalate (first :: rest)).toList⟩ := by
    rw [toList_listed hquote, hnil, List.map_cons, List.map_cons, intercalate_cons,
      IdentifierReader.run_append, IdentifierReader.run_identifier_outside hfirst,
      List.flatMap_map, String.toList_intercalate, List.map_cons, intercalate_cons,
      String.toList_singleton]
    exact IdentifierReader.run_unseparated (by simpa using hrest)
  rw [readIdentifiers, hread, IdentifierReader.result, Option.map_some, List.nil_append,
    List.map_singleton, String.ofList_toList]

/-- In the lists of the clauses for keys, the names of the key are read back in their order. -/
structure ListsReadable (d : Dialect) (quote : Char) : Prop where
  primaryKey : ∀ names : List String, names ≠ [] → names.Nodup →
    (∀ name ∈ names, quote ∉ name.toList) →
      d.primaryKeyClause names =
          some (d.clause ("PRIMARY KEY " ++ bracketed (d.listed names)) ++ "\n") ∧
        readIdentifiers quote (d.listed names) = some names
  foreignKey : ∀ key : ForeignKey, ColumnSpec.isComposite key.columns →
    (∀ name ∈ ColumnSpec.names key.columns ++ ColumnSpec.names key.referencedColumns,
      quote ∉ name.toList) →
      d.foreignKeyClause key = d.clause ("CONSTRAINT " ++ d.quoted key.name ++ " FOREIGN KEY " ++
          bracketed (d.splitSpec key.columns) ++ " REFERENCES " ++
          d.qualified key.referencedSchema key.referencedTable ++ " " ++
          bracketed (d.splitSpec key.referencedColumns)) ∧
        readIdentifiers quote (d.splitSpec key.columns) = some (ColumnSpec.names key.columns) ∧
        readIdentifiers quote (d.splitSpec key.referencedColumns) =
          some (ColumnSpec.names key.referencedColumns)

theorem primaryKeyClause_of_nodup (d : Dialect) {names : List String} (hnil : names ≠ [])
    (hnodup : names.Nodup) : d.primaryKeyClause names =
      some (d.clause ("PRIMARY KEY " ++ bracketed (d.listed names)) ++ "\n") := by
  rw [d.primaryKeyClause_of_ne_nil hnil, eraseDups_of_nodup hnodup]

theorem foreignKeyClause_of_isComposite (d : Dialect) {key : ForeignKey}
    (hkey : ColumnSpec.isComposite key.columns) : d.foreignKeyClause key =
      d.clause ("CONSTRAINT " ++ d.quoted key.name ++ " FOREIGN KEY " ++
        bracketed (d.splitSpec key.columns) ++ " REFERENCES " ++
        d.qualified key.referencedSchema key.referencedTable ++ " " ++
        bracketed (d.splitSpec key.referencedColumns)) := by
  unfold foreignKeyClause
  simp only [hkey, if_true]

/-- A name for a column that does not hold the quote. -/
theorem exists_unquoted_name (quote : Char) :
    ∃ name : String, name ≠ "" ∧ quote ∉ name.toList := by
  by_cases hquote : quote = 'a'
  · exact ⟨"b", by decide, by simp [hquote]⟩
  · exact ⟨"a", by decide, by simpa using hquote⟩

/-- With a quote of one character that the list separator does not hold, the lists of a dialect are
readable if and only if the separator is there at all. -/
theorem listsReadable_iff {d : Dialect} {quote : Char} (hquote : d.quote = String.singleton quote)
    (hseparator : quote ∉ d.listSeparator.toList) :
    d.ListsReadable quote ↔ d.listSeparator ≠ "" := by
  constructor
  · intro hreadable hnil
    obtain ⟨name, hname, hunquoted⟩ := exists_unquoted_name quote
    have hnames : ∀ text ∈ ["", name], quote ∉ text.toList := by simpa using hunquoted
    have hread := (hreadable.primaryKey ["", name] (by simp) (by simpa using hname.symm) hnames).2
    rw [readIdentifiers_listed_unseparated hquote hnil hnames (by simp)] at hread
    simp at hread
  · intro hnil
    refine ⟨fun names hnonempty hnodup hnames ↦ ⟨?_, ?_⟩, fun key hkey hnames ↦ ⟨?_, ?_, ?_⟩⟩
    · exact d.primaryKeyClause_of_nodup hnonempty hnodup
    · exact readIdentifiers_listed hquote hseparator hnil hnames
    · exact d.foreignKeyClause_of_isComposite hkey
    · exact readIdentifiers_listed hquote hseparator hnil fun name hname ↦
        hnames name (List.mem_append_left _ hname)
    · exact readIdentifiers_listed hquote hseparator hnil fun name hname ↦
        hnames name (List.mem_append_right _ hname)

theorem listsReadable_iff_standard :
    standard.ListsReadable '"' ∧ readIdentifiers '"' "\"id\", \"tenant\"" = some ["id", "tenant"] :=
  ⟨(listsReadable_iff (by decide) (by decide)).mpr (by decide), by decide⟩

/-- The standard dialect with nothing between the names of a list. It is valid. -/
def unseparated : Dialect := standard.set .listSeparator ""

/-- Validation lets through a dialect whose lists are not readable: the key of two columns `a` and
`b` is read as one identifier. -/
theorem not_listsReadable_of_validate :
    unseparated.primaryKeyClause ["a", "b"] = some "\n\tPRIMARY KEY (\"a\"\"b\")\n" ∧
      readIdentifiers '"' "\"a\"\"b\"" = some ["a\"b"] ∧
      ¬ ∀ (d : Dialect) (quote : Char), d.validate = .ok () → d.quote = String.singleton quote →
        quote ∉ d.listSeparator.toList → d.ListsReadable quote := by
  refine ⟨by decide, by decide, fun h ↦ ?_⟩
  have hreadable := h unseparated '"' (by decide) (by decide) (by decide)
  have hread := (hreadable.primaryKey ["a", "b"] (by decide) (by decide) (by decide)).2
  exact absurd hread (by decide)

end Dialect

end ChangeDdl
