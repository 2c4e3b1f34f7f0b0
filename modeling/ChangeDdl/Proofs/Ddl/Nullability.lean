import ChangeDdl.Proofs.Ddl.Fragments
import ChangeDdl.Proofs.Occurrences

/-!
The word NULL. When no text of an event has it, it stands in the text for all its creations once
for every column that must have a value, always behind a negation and at the end of a clause
(`convert_nullability`).

What is written around the texts of an event has none of the letters of the word where it meets
them, so the word is not put together from two pieces. A fragment with something around its texts is
therefore closed off at its end (`Sealed`). The type and the default of a column are bare: what
follows them is a bracket, a blank or the end of the clause, which the word lacks as well. The
statements are read from the right, each piece with all that stands behind it (`Negates`).
-/

set_option autoImplicit false
set_option relaxedAutoImplicit false

namespace ChangeDdl

/-! ### The word NULL -/

/-- The word that says whether a column may be empty. -/
def nullWord : List Char := "NULL".toList

/-- A text without this word. -/
def NullFree (text : List Char) : Prop := ¬ nullWord <:+: text

instance (text : List Char) : Decidable (NullFree text) := inferInstanceAs (Decidable (¬ _))

/-- What may follow the clause of a column. -/
def EndsClause (rest : List Char) : Prop := rest.head? = some ',' ∨ rest.head? = some ')'

/-- The word occurs `n` times in a text, always behind a negation at the end of a clause. -/
structure Negates (text : List Char) (n : Nat) : Prop where
  count : occurrences nullWord text = n
  around : ∀ before after, text = before ++ (nullWord ++ after) →
    " NOT ".toList <:+ before ∧ EndsClause after

theorem EndsClause.not_mem {v : List Char} (h : EndsClause v) : ∀ c ∈ v.head?, c ∉ nullWord := by
  intro c hc
  rcases h with h | h
  · obtain rfl := Option.some.inj (h.symm.trans hc)
    decide
  · obtain rfl := Option.some.inj (h.symm.trans hc)
    decide

theorem EndsClause.parted {u v : List Char} (h : EndsClause v) : Parted nullWord u v :=
  Or.inr h.not_mem

section Pieces

variable {u v : List Char} {n : Nat}

theorem NullFree.append (hu : NullFree u) (hv : NullFree v) (h : Parted nullWord u v) :
    NullFree (u ++ v) := by
  rw [NullFree, ← occurrences_eq_zero_iff] at hu hv ⊢
  rw [h.occurrences_append (by decide), hu, hv]

theorem NullFree.of_infix {part whole : String} (h : part.toList <:+: whole.toList)
    (hwhole : NullFree whole.toList) : NullFree part.toList :=
  fun hword ↦ hwhole (hword.trans h)

theorem NullFree.of_not_mem (h : 'N' ∉ u) : NullFree u :=
  fun hword ↦ h (hword.subset (by decide))

/-- A text without the word, at the end of which the word cannot begin. -/
structure Sealed (text : List Char) : Prop where
  nullFree : NullFree text
  last : ∀ c ∈ text.getLast?, c ∉ nullWord

instance (text : List Char) : Decidable (Sealed text) :=
  -- One character is looked at, where the instance for all characters would go through them all.
  letI : Decidable (∀ c ∈ text.getLast?, c ∉ nullWord) := text.getLast?.decidableForallMem
  decidable_of_iff (NullFree text ∧ ∀ c ∈ text.getLast?, c ∉ nullWord)
    ⟨fun ⟨h₁, h₂⟩ ↦ ⟨h₁, h₂⟩, fun ⟨h₁, h₂⟩ ↦ ⟨h₁, h₂⟩⟩

namespace Sealed

theorem parted (h : Sealed u) : Parted nullWord u v := Or.inl h.last

theorem append (hu : Sealed u) (hv : Sealed v) : Sealed (u ++ v) where
  nullFree := hu.nullFree.append hv.nullFree hu.parted
  last := by
    rw [List.getLast?_append]
    intro c hc
    rcases Option.or_eq_some_iff.mp hc with hc | ⟨_, hc⟩
    · exact hv.last c hc
    · exact hu.last c hc

/-- Any text without the word is sealed by a further character. -/
theorem close {c : Char} (hu : NullFree u) (hc : c ∉ nullWord) : Sealed (u ++ [c]) where
  nullFree := by
    refine hu.append (NullFree.of_not_mem ?_) (Or.inr (by simpa using hc))
    simpa using fun h : 'N' = c ↦ hc (h ▸ by decide)
  last := by simpa using hc

theorem intercalate {separator : List Char} (hseparator : Sealed separator)
    {pieces : List (List Char)} (hpieces : ∀ piece ∈ pieces, Sealed piece) :
    Sealed (separator.intercalate pieces) := by
  induction pieces with
  | nil =>
    rw [List.intercalate_nil]
    decide
  | cons piece rest ih =>
    obtain ⟨hpiece, hrest⟩ := List.forall_mem_cons.mp hpieces
    cases rest with
    | nil => simpa using hpiece
    | cons next more =>
      rw [List.intercalate_cons_cons]
      exact (hpiece.append hseparator).append (ih hrest)

end Sealed

namespace Negates

theorem nil : Negates [] 0 where
  count := by decide
  around before after h := by simp [nullWord] at h

/-- A text without the word can be put in front. -/
theorem append (hu : NullFree u) (h : Parted nullWord u v) (hv : Negates v n) :
    Negates (u ++ v) n where
  count := by
    rw [h.occurrences_append (by decide), hv.count, occurrences_eq_zero_iff.mpr hu, Nat.zero_add]
  around before after heq := by
    rcases h.sides heq with ⟨more, rfl, hmore⟩ | ⟨inside, hinside, _⟩
    · obtain ⟨hnot, hends⟩ := hv.around more after hmore
      exact ⟨hnot.trans (List.suffix_append u more), hends⟩
    · exact absurd ⟨before, inside, by rw [hinside, List.append_assoc]⟩ hu

/-- The negation itself, at the end of a clause. -/
theorem negation (hends : EndsClause v) (hv : Negates v n) :
    Negates (" NOT NULL".toList ++ v) (n + 1) where
  count := by
    rw [hends.parted.occurrences_append (by decide), hv.count, Nat.add_comm]
    rfl
  around before after heq := by
    rcases hends.parted.sides heq with ⟨more, rfl, hmore⟩ | ⟨inside, hinside, rfl⟩
    · obtain ⟨hnot, hmore⟩ := hv.around more after hmore
      exact ⟨hnot.trans (List.suffix_append _ more), hmore⟩
    · have hplaces : ∀ front ∈ " NOT NULL".toList.inits,
          nullWord <+: " NOT NULL".toList.drop front.length → front = " NOT ".toList := by decide
      obtain rfl : before = " NOT ".toList := by
        refine hplaces before ((List.mem_inits _ _).mpr ⟨_, hinside.symm⟩) ?_
        rw [hinside, List.drop_left]
        exact List.prefix_append _ _
      obtain rfl : inside = [] := by simpa [nullWord] using hinside
      exact ⟨List.suffix_rfl, hends⟩

theorem append_sealed (hu : Sealed u) (hv : Negates v n) : Negates (u ++ v) n :=
  hv.append hu.nullFree hu.parted

end Negates

end Pieces

/-! ### Clauses -/

theorem sealed_quotedChars {name : String} (h : NullFree name.toList) :
    Sealed (quotedChars name) := by
  have hopen : Sealed ['"'] := by decide
  exact hopen.append (Sealed.close h (by decide))

theorem sealed_listed {names : List String} (h : ∀ name ∈ names, NullFree name.toList) :
    Sealed ([',', ' '].intercalate (names.map quotedChars)) := by
  have hbetween : Sealed [',', ' '] := by decide
  refine hbetween.intercalate fun piece hpiece ↦ ?_
  obtain ⟨name, hname, rfl⟩ := List.mem_map.mp hpiece
  exact sealed_quotedChars (h name hname)

theorem sealed_bracketed {text : String} (h : NullFree text.toList) :
    Sealed (bracketed text).toList := by
  have hopen : Sealed ['('] := by decide
  rw [toList_bracketed]
  exact hopen.append (Sealed.close h (by decide))

namespace Fragment

/-- A text of the event with nothing around it. -/
def isBare : Fragment → Bool
  | bare _ => true
  | _ => false

variable {fragment : Fragment}

/-- What is around a text closes it off. -/
theorem sealed_text (h : ∀ text ∈ fragment.texts, NullFree text.toList)
    (hbare : fragment.isBare = false) (hnull : fragment ≠ .word .notNull) :
    Sealed (fragment.text Dialect.standard).toList := by
  cases fragment with
  | word w =>
    cases w with
    | notNull => exact absurd rfl hnull
    | _ => decide
  | name s =>
    rw [text, toList_quoted_standard]
    exact sealed_quotedChars (h s List.mem_cons_self)
  | listed names =>
    refine sealed_bracketed ?_
    rw [toList_listed_standard]
    exact (sealed_listed h).nullFree
  | length n =>
    refine sealed_bracketed (NullFree.of_not_mem fun hmem ↦ ?_)
    rcases mem_digits hmem with h | h <;> simp at h
  | enclosed s => exact sealed_bracketed (h s List.mem_cons_self)
  | bare s => simp [isBare] at hbare

/-- The word does not go on in what is around a text. -/
theorem exists_cons_text (hbare : fragment.isBare = false) :
    ∃ c rest, (fragment.text Dialect.standard).toList = c :: rest ∧ c ∉ nullWord := by
  cases fragment with
  | word w => cases w <;> exact ⟨_, _, rfl, by decide⟩
  | name s => exact ⟨'"', _, toList_quoted_standard s, by decide⟩
  | listed | length | enclosed => exact ⟨'(', _, toList_bracketed _, by decide⟩
  | bare s => simp [isBare] at hbare

/-- Fragments without the negation, of which no two behind each other are bare. -/
theorem negates_join {row : List Fragment}
    (h : ∀ fragment ∈ row, ∀ text ∈ fragment.texts, NullFree text.toList)
    (hnull : .word .notNull ∉ row) (hbare : row.IsChain fun a b ↦ a.isBare → b.isBare = false)
    {v : List Char} {n : Nat} (hends : ∀ c ∈ v.head?, c ∉ nullWord) (hv : Negates v n) :
    Negates ((join Dialect.standard row).toList ++ v) n := by
  induction row with
  | nil => exact hv
  | cons first rest ih =>
    obtain ⟨hfirst, hrest⟩ := List.forall_mem_cons.mp h
    obtain ⟨hother, hothers⟩ := not_or.mp (mt List.mem_cons.mpr hnull)
    have hbehind := ih hrest hothers hbare.of_cons
    rw [join_cons, String.toList_append, List.append_assoc]
    cases hkind : first.isBare with
    | false => exact hbehind.append_sealed (sealed_text hfirst hkind (Ne.symm hother))
    | true =>
      -- A bare text may end in the middle of the word, but what follows it does not go on there.
      have hhead : ∀ c ∈ ((join Dialect.standard rest).toList ++ v).head?, c ∉ nullWord := by
        cases rest with
        | nil => exact hends
        | cons next more =>
          have hnext := (List.isChain_cons_cons.mp hbare).1 hkind
          obtain ⟨c, tail, htext, hc⟩ := exists_cons_text hnext
          rw [join_cons, String.toList_append, htext]
          simpa using hc
      cases first with
      | bare s => exact hbehind.append (hfirst s List.mem_cons_self) (Or.inr hhead)
      | _ => simp [isBare] at hkind

end Fragment

/-- The clause of a column that must have a value. -/
def Clause.isRequired : Clause → Bool
  | column c => !c.optional
  | _ => false

namespace Clause

variable {clause : Clause}

/-- A row has the negation at its end, if the column must have a value, and nowhere else. -/
theorem exists_front (clause : Clause) : ∃ front : List Fragment,
    clause.row = front ++ (if clause.isRequired then [.word .notNull] else []) ∧
      .word .notNull ∉ front ∧ front.IsChain fun a b ↦ a.isBare → b.isBare = false := by
  cases clause with
  | column c =>
    refine ⟨c.front, ?_, ?_, ?_⟩
    · cases hoptional : c.optional <;> simp [row, isRequired, hoptional]
    · unfold Column.front
      cases c.normal.length <;> cases c.normal.defaultExpression <;> simp
    · unfold Column.front
      cases c.normal.length <;> cases c.normal.defaultExpression <;> simp [Fragment.isBare]
  | primaryKey | unique | check | foreignKey =>
    exact ⟨_, (List.append_nil _).symm, by simp [row], by simp [row, Fragment.isBare]⟩

/-- A clause in front of what ends it. -/
theorem negates (h : ∀ text ∈ clause.texts, NullFree text.toList) {v : List Char} {n : Nat}
    (hends : EndsClause v) (hv : Negates v n) :
    Negates (clause.chars ++ v) (n + if clause.isRequired then 1 else 0) := by
  have hline : Sealed ['\n', '\t'] := by decide
  have hrow := forall_mem_row NullFree.of_infix h
  obtain ⟨front, hfront, hnull, hbare⟩ := clause.exists_front
  rw [hfront, List.forall_mem_append] at hrow
  rw [chars_eq_row, hfront, Fragment.join_append, String.toList_append]
  cases hrequired : clause.isRequired with
  | false =>
    have hend : Sealed (if clause.isPrimaryKey then ['\n'] else []) := by split_ifs <;> decide
    have hhead : ∀ c ∈ ((if clause.isPrimaryKey then ['\n'] else []) ++ v).head?,
        c ∉ nullWord := by
      split_ifs
      · simp [nullWord]
      · exact hends.not_mem
    have hchars := Fragment.negates_join hrow.1 hnull hbare hhead (hv.append_sealed hend)
    simpa [Fragment.join] using hchars.append_sealed hline
  | true =>
    have hkey : clause.isPrimaryKey = false := by
      cases clause with
      | column c => rfl
      | _ => simp [isRequired] at hrequired
    have hchars := Fragment.negates_join hrow.1 hnull hbare (by simp [nullWord])
      (hv.negation hends)
    simpa [Fragment.join, hkey, Fragment.text, Word.text] using hchars.append_sealed hline

theorem occurrences_chars (h : ∀ text ∈ clause.texts, NullFree text.toList) :
    occurrences nullWord clause.chars = if clause.isRequired then 1 else 0 := by
  have hclose : Sealed [')'] := by decide
  have hends : EndsClause [')'] := Or.inr rfl
  have hcount := (negates h hends (Negates.nil.append_sealed hclose)).count
  rw [hends.parted.occurrences_append (by decide), Nat.zero_add] at hcount
  exact hcount

/-- Clauses separated by commas, in front of the closing bracket. -/
theorem negates_all {clauses : List Clause}
    (h : ∀ clause ∈ clauses, ∀ text ∈ clause.texts, NullFree text.toList) {v : List Char} {n : Nat}
    (hv : Negates v n) : Negates ([','].intercalate (clauses.map chars) ++ ')' :: v)
      (n + clauses.countP isRequired) := by
  have hclose : Sealed [')'] := by decide
  have hcomma : Sealed [','] := by decide
  induction clauses with
  | nil =>
    rw [List.map_nil, List.intercalate_nil, List.countP_nil, Nat.add_zero, List.nil_append]
    exact hv.append_sealed hclose
  | cons clause rest ih =>
    obtain ⟨hclause, hrest⟩ := List.forall_mem_cons.mp h
    rw [List.countP_cons, ← Nat.add_assoc]
    cases rest with
    | nil =>
      rw [List.map_singleton, List.intercalate_singleton]
      exact negates hclause (Or.inr rfl) (hv.append_sealed hclose)
    | cons next more =>
      have hmore := negates hclause (Or.inl rfl) ((ih hrest).append_sealed hcomma)
      simpa [List.intercalate_cons_cons] using hmore

end Clause

/-! ### Statements -/

theorem Table.countP_clauses (t : Table) :
    t.clauses.countP Clause.isRequired = t.columns.countP fun c ↦ !c.optional := by
  have hkey : t.keyClauses.countP Clause.isRequired = 0 := by
    unfold keyClauses
    split_ifs <;> rfl
  simp only [clauses, List.countP_append, List.countP_map, hkey]
  simp [Function.comp_def, Clause.isRequired]

namespace Synthesizer

theorem negates_createTable {source : Source} {t : Table} (hschema : NullFree source.schema.toList)
    (htable : NullFree source.table.toList) (h : ∀ text ∈ t.texts, NullFree text.toList)
    {v : List Char} {n : Nat} (hv : Negates v n) :
    Negates ((standard.createTable source t).toList ++ v)
      (n + t.columns.countP fun c ↦ !c.optional) := by
  have hwords : Sealed "CREATE TABLE ".toList := by decide
  have hpoint : Sealed ['.'] := by decide
  have hopen : Sealed " (".toList := by decide
  have hclauses : ∀ clause ∈ t.clauses, ∀ text ∈ clause.texts, NullFree text.toList :=
    fun clause hclause text htext ↦ h text (Table.texts_of_mem_clauses hclause htext)
  have hbody := Clause.negates_all hclauses hv
  have htarget := (hbody.append_sealed hopen).append_sealed (sealed_quotedChars htable)
  have hchars := ((htarget.append_sealed hpoint).append_sealed
    (sealed_quotedChars hschema)).append_sealed hwords
  rw [toList_createTable, ← Table.countP_clauses]
  simpa using hchars

/-- Further statements, each behind a separator. -/
theorem negates_more {source : Source} {changes : List TableChange}
    (hschema : NullFree source.schema.toList) (htable : NullFree source.table.toList)
    (h : ∀ change ∈ changes, ∀ text ∈ change.table.texts, NullFree text.toList) :
    Negates
      (changes.flatMap fun change ↦ [';'] ++ (standard.createTable source change.table).toList)
      ((changes.flatMap fun change ↦ change.table.columns).countP fun c ↦ !c.optional) := by
  have hsemicolon : Sealed [';'] := by decide
  induction changes with
  | nil => exact .nil
  | cons change rest ih =>
    obtain ⟨hchange, hrest⟩ := List.forall_mem_cons.mp h
    have hchars := negates_createTable hschema htable hchange (ih hrest)
    rw [List.flatMap_cons, List.flatMap_cons, List.countP_append, Nat.add_comm]
    simpa using hchars.append_sealed hsemicolon

theorem negates_convert {e : ChangeEvent} (hschema : NullFree e.source.schema.toList)
    (htable : NullFree e.source.table.toList)
    (h : ∀ change ∈ e.changes, ∀ text ∈ change.table.texts, NullFree text.toList) :
    Negates (standard.convert e).toList
      ((e.changes.flatMap fun change ↦ change.table.columns).countP fun c ↦ !c.optional) := by
  rw [toList_convert]
  cases hchanges : e.changes with
  | nil => exact .nil
  | cons first rest =>
    rw [hchanges] at h
    obtain ⟨hfirst, hrest⟩ := List.forall_mem_cons.mp h
    rw [List.map_cons, intercalate_cons, List.flatMap_map, List.flatMap_cons, List.countP_append,
      Nat.add_comm]
    exact negates_createTable hschema htable hfirst (negates_more hschema htable hrest)

end Synthesizer

/-- An event without the word NULL has the word in the text for all its creations once for every
column that must have a value, as the end of " NOT NULL" in front of a comma or of a closing
bracket, and nowhere else. The clause of such a column has it once and no other clause has it. -/
theorem convert_nullability (e : ChangeEvent) (he : ∀ text ∈ e.texts, NullFree text.toList) :
    occurrences nullWord (Synthesizer.standard.convert e).toList =
        (e.changes.flatMap fun change ↦ change.table.columns).countP (fun c ↦ !c.optional) ∧
      (∀ before after, (Synthesizer.standard.convert e).toList = before ++ (nullWord ++ after) →
        " NOT ".toList <:+ before ∧ EndsClause after) ∧
      ∀ change ∈ e.changes, ∀ clause ∈ change.table.clauses,
        occurrences nullWord (clause.text Dialect.standard id).toList =
          if clause.isRequired then 1 else 0 := by
  simp only [ChangeEvent.texts, List.forall_mem_cons, List.forall_mem_flatMap] at he
  obtain ⟨hschema, htable, hchanges⟩ := he
  have hconvert := Synthesizer.negates_convert hschema htable hchanges
  refine ⟨hconvert.count, hconvert.around, fun change hchange clause hclause ↦ ?_⟩
  exact Clause.occurrences_chars fun text htext ↦
    hchanges change hchange text (Table.texts_of_mem_clauses hclause htext)

/-- An event with pieces of the word side by side. -/
def brokenWordEvent : ChangeEvent where
  source := ⟨"NU", "LL"⟩
  changes :=
    [⟨.create,
      { columns := [⟨"NUL", "NUL", some 5, some "L", false⟩, ⟨"L", "NUL", none, some "L", true⟩,
          ⟨"N", "ULL", none, none, false⟩]
        primaryKey := ["NUL", "L", "NUL"]
        foreignKeys := [⟨"fk", "N,ULL", "NU", "LL", "NU,LL"⟩]
        uniques := [⟨"NUL", "L"⟩]
        checks := [⟨"ck", "NUL"⟩] }⟩,
     ⟨.alter, Table.empty.addColumn ⟨"LL", "NU", none, none, false⟩⟩]

/-- Three of its four columns must have a value. -/
theorem convert_nullability_brokenWordEvent :
    (∀ text ∈ brokenWordEvent.texts, NullFree text.toList) ∧
      occurrences nullWord (Synthesizer.standard.convert brokenWordEvent).toList = 3 ∧
      ∀ before after, (Synthesizer.standard.convert brokenWordEvent).toList =
        before ++ (nullWord ++ after) → " NOT ".toList <:+ before ∧ EndsClause after := by
  have hfree : ∀ text ∈ brokenWordEvent.texts, NullFree text.toList := by decide +kernel
  obtain ⟨hcount, haround, -⟩ := convert_nullability brokenWordEvent hfree
  exact ⟨hfree, hcount, haround⟩

end ChangeDdl
