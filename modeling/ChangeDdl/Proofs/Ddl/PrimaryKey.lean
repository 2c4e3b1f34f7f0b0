import ChangeDdl.Proofs.Ddl.Clauses
import Mathlib.Data.List.Induction

/-!
The columns of a primary key are a set, written in the order in which its names first occur
(`primaryKeyClause_firstOccurrences`). Repeats are dropped among the quoted names, which is the same
as dropping them among the names, whatever the quote is. So a name that is repeated behind its first
occurrence is not seen in any statement.

`FirstOccurrences` says what is left of a list of names without mentioning how repeats are dropped;
there is one such list only (`firstOccurrences_iff`). The induction goes from the right, since the
last name of a list has no influence on the first occurrences of the others.
-/

set_option autoImplicit false
set_option relaxedAutoImplicit false

namespace ChangeDdl

/-! ### First occurrences -/

/-- The names of a list, each once, ordered by their first places in it. -/
structure FirstOccurrences (names distinct : List String) : Prop where
  mem_iff : ∀ name, name ∈ distinct ↔ name ∈ names
  nodup : distinct.Nodup
  in_order : distinct.Pairwise fun earlier later ↦ names.idxOf earlier < names.idxOf later

theorem pairwise_idxOf_lt_eraseDups (names : List String) :
    names.eraseDups.Pairwise fun earlier later ↦ names.idxOf earlier < names.idxOf later := by
  induction names using List.reverseRecOn with
  | nil => exact List.Pairwise.nil
  | append_singleton names name ih =>
    have hkept : names.eraseDups.Pairwise fun earlier later ↦
        (names ++ [name]).idxOf earlier < (names ++ [name]).idxOf later := by
      refine ih.imp_of_mem fun {earlier later} hearlier hlater hlt ↦ ?_
      rwa [List.idxOf_append_of_mem (List.mem_eraseDups.mp hearlier),
        List.idxOf_append_of_mem (List.mem_eraseDups.mp hlater)]
    by_cases hname : name ∈ names
    · rwa [eraseDups_append_cons_of_mem hname, List.append_nil]
    · rw [eraseDups_concat_of_not_mem hname]
      refine List.pairwise_append.mpr ⟨hkept, List.pairwise_singleton _ _, ?_⟩
      intro earlier hearlier later hlater
      obtain rfl := List.mem_singleton.mp hlater
      have hplace := List.idxOf_lt_length_of_mem (List.mem_eraseDups.mp hearlier)
      rw [List.idxOf_append_of_mem (List.mem_eraseDups.mp hearlier),
        List.idxOf_append_of_notMem hname]
      exact Nat.lt_add_right _ hplace

theorem firstOccurrences_eraseDups (names : List String) :
    FirstOccurrences names names.eraseDups where
  mem_iff _ := List.mem_eraseDups
  nodup := (pairwise_idxOf_lt_eraseDups names).imp fun hlt heq ↦
    Nat.ne_of_lt hlt (congrArg names.idxOf heq)
  in_order := pairwise_idxOf_lt_eraseDups names

/-- Which names there are and where they first occur determines the list. -/
theorem firstOccurrences_iff {names distinct : List String} :
    FirstOccurrences names distinct ↔ distinct = names.eraseDups := by
  constructor
  · intro h
    have hdups := firstOccurrences_eraseDups names
    have hperm : distinct.Perm names.eraseDups :=
      (List.perm_ext_iff_of_nodup h.nodup hdups.nodup).mpr fun name ↦
        (h.mem_iff name).trans (hdups.mem_iff name).symm
    refine hperm.eq_of_pairwise (fun earlier later _ _ hlt hgt ↦ ?_) h.in_order hdups.in_order
    exact absurd hgt (Nat.lt_asymm hlt)
  · rintro rfl
    exact firstOccurrences_eraseDups names

/-! ### Repeats -/

/-- The second list is the first with names put in again, each behind an occurrence of it. -/
inductive Repeats (names : List String) : List String → Prop
  | refl : Repeats names names
  | again {before after : List String} {name : String} (h : Repeats names (before ++ after))
    (hname : name ∈ before) : Repeats names (before ++ name :: after)

theorem Repeats.eraseDups_eq {names more : List String} (h : Repeats names more) :
    more.eraseDups = names.eraseDups := by
  induction h with
  | refl => rfl
  | again _ hname ih => rw [eraseDups_append_cons_of_mem hname, ih]

/-! ### The key in a statement -/

theorem Dialect.primaryKeyClause_eq_none_iff (d : Dialect) (names : List String) :
    d.primaryKeyClause names = none ↔ names = [] := by
  constructor
  · intro hnone
    by_contra hnames
    rw [d.primaryKeyClause_of_ne_nil hnames] at hnone
    exact nomatch hnone
  · rintro rfl
    exact d.primaryKeyClause_nil

/-- The table with another key. -/
def Table.withKey (t : Table) (names : List String) : Table := { t with primaryKey := names }

namespace Synthesizer

variable (s : Synthesizer)

theorem createTable_withKey_congr {names more : List String}
    (h : more.eraseDups = names.eraseDups) (source : Source) (t : Table) :
    s.createTable source (t.withKey more) = s.createTable source (t.withKey names) := by
  have hgroups : s.dialect.clauseGroups s.rename (t.withKey more) =
      s.dialect.clauseGroups s.rename (t.withKey names) := by
    simp only [Dialect.clauseGroups, Table.withKey, s.dialect.primaryKeyClause_congr h]
  rw [createTable_eq, createTable_eq, hgroups]

theorem statement_withKey_congr {names more : List String}
    (h : more.eraseDups = names.eraseDups) (source : Source) (kind : ChangeKind) (t : Table) :
    s.statement source ⟨kind, t.withKey more⟩ = s.statement source ⟨kind, t.withKey names⟩ := by
  cases kind with
  | create => exact congrArg Except.ok (s.createTable_withKey_congr h source t)
  | alter | drop => rfl

end Synthesizer

/-- A key clause is there exactly if there are names, and it lists their first occurrences in order.
Names that are put in again, and names that have been dropped before, change no statement. -/
theorem primaryKeyClause_firstOccurrences (d : Dialect) (names : List String) :
    (d.primaryKeyClause names = none ↔ names = []) ∧
    (names ≠ [] → d.primaryKeyClause names =
      some (d.clause ("PRIMARY KEY " ++ bracketed (d.listed names.eraseDups)) ++ "\n")) ∧
    (∀ distinct, FirstOccurrences names distinct ↔ distinct = names.eraseDups) ∧
    (names.map d.quoted).eraseDups = names.eraseDups.map d.quoted ∧
    ∀ more, Repeats names more ∨ more = names.eraseDups →
      ∀ (rename : String → String) (source : Source) (kind : ChangeKind) (t : Table),
        (Synthesizer.mk d rename).createTable source (t.withKey more) =
            (Synthesizer.mk d rename).createTable source (t.withKey names) ∧
          (Synthesizer.mk d rename).statement source ⟨kind, t.withKey more⟩ =
            (Synthesizer.mk d rename).statement source ⟨kind, t.withKey names⟩ := by
  refine ⟨d.primaryKeyClause_eq_none_iff names, d.primaryKeyClause_of_ne_nil,
    fun distinct ↦ firstOccurrences_iff, d.eraseDups_quoted names,
    fun more hmore rename source kind t ↦ ?_⟩
  have hsame : more.eraseDups = names.eraseDups := by
    rcases hmore with hrepeats | rfl
    · exact hrepeats.eraseDups_eq
    · exact eraseDups_eraseDups names
  exact ⟨Synthesizer.createTable_withKey_congr _ hsame source t,
    Synthesizer.statement_withKey_congr _ hsame source kind t⟩

theorem primaryKeyClause_firstOccurrences_repeated :
    FirstOccurrences ["b", "a", "b"] ["b", "a"] ∧
      Repeats ["b", "a"] ["b", "a", "b"] ∧
      Dialect.standard.primaryKeyClause ["b", "a", "b"] =
        some "\n\tPRIMARY KEY (\"b\", \"a\")\n" ∧
      Synthesizer.standard.createTable ⟨"s", "t"⟩ (Table.empty.withKey ["b", "a", "b"]) =
        Synthesizer.standard.createTable ⟨"s", "t"⟩ (Table.empty.withKey ["b", "a"]) := by
  have hrepeats : Repeats ["b", "a"] (["b", "a"] ++ "b" :: []) := .again .refl (by decide)
  obtain ⟨-, hclause, hdistinct, -, -⟩ :=
    primaryKeyClause_firstOccurrences Dialect.standard ["b", "a", "b"]
  obtain ⟨-, -, -, -, hsame⟩ := primaryKeyClause_firstOccurrences Dialect.standard ["b", "a"]
  exact ⟨(hdistinct _).mpr (by decide), hrepeats, hclause (by decide),
    (hsame _ (Or.inl hrepeats) id ⟨"s", "t"⟩ .create Table.empty).1⟩

end ChangeDdl
