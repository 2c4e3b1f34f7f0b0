import ChangeDdl.Proofs.Ddl.Clauses

/-!
The body of a table definition, written group by group. A group without clauses is passed over, and
a separator stands in front of a group if anything has been written before (`Dialect.body`). This is
the same as joining the clauses of all groups at once (`createTable_eq_body`).

Whether anything has been written is seen from the text, not from the groups, so the two agree only
because no clause is empty, whatever the texts of the dialect are (`blank_mem_text`). The clauses
written so far carry the induction.
-/

set_option autoImplicit false
set_option relaxedAutoImplicit false

namespace ChangeDdl

theorem intercalate_ne_empty {separator : String} {texts : List String} (hnil : texts ≠ [])
    (htexts : ∀ text ∈ texts, text ≠ "") : separator.intercalate texts ≠ "" := by
  obtain ⟨first, rest, rfl⟩ := List.exists_cons_of_ne_nil hnil
  have hfirst : first ≠ "" := htexts first List.mem_cons_self
  cases rest with
  | nil => rwa [String.intercalate_singleton]
  | cons next more =>
    rw [String.intercalate_cons_cons, String.append_assoc]
    exact fun h ↦ hfirst (String.append_eq_empty_iff.mp h).1

namespace Dialect

variable (d : Dialect)

/-- Writes a group of clauses behind a text. -/
def appendGroup (text : String) (group : List String) : String :=
  if group = [] then text
  else
    (if text = "" then text else text ++ d.groupSeparator) ++ d.groupSeparator.intercalate group

/-- The text of all groups, one behind the other. -/
def body (groups : List (List String)) : String := groups.foldl d.appendGroup ""

theorem appendGroup_intercalate {before : List String} (hbefore : ∀ text ∈ before, text ≠ "")
    (group : List String) : d.appendGroup (d.groupSeparator.intercalate before) group =
      d.groupSeparator.intercalate (before ++ group) := by
  unfold appendGroup
  split_ifs with hgroup htext
  · rw [hgroup, List.append_nil]
  · have hnil : before = [] := by
      by_contra hnil
      exact intercalate_ne_empty hnil hbefore htext
    rw [hnil, String.intercalate_nil, String.empty_append, List.nil_append]
  · have hnil : before ≠ [] := by
      rintro rfl
      exact htext String.intercalate_nil
    exact (String.intercalate_append_of_ne_nil hnil hgroup).symm

theorem foldl_appendGroup {before : List String} {groups : List (List String)}
    (hbefore : ∀ text ∈ before, text ≠ "") (hgroups : ∀ text ∈ groups.flatten, text ≠ "") :
    groups.foldl d.appendGroup (d.groupSeparator.intercalate before) =
      d.groupSeparator.intercalate (before ++ groups.flatten) := by
  induction groups generalizing before with
  | nil => rw [List.foldl_nil, List.flatten_nil, List.append_nil]
  | cons group rest ih =>
    rw [List.flatten_cons, List.forall_mem_append] at hgroups
    rw [List.foldl_cons, d.appendGroup_intercalate hbefore, List.flatten_cons, ← List.append_assoc]
    exact ih (List.forall_mem_append.mpr ⟨hbefore, hgroups.1⟩) hgroups.2

/-- Without empty clauses, writing group by group is joining all clauses. -/
theorem body_eq_joinGroups {groups : List (List String)}
    (h : ∀ text ∈ groups.flatten, text ≠ "") : d.body groups = d.joinGroups groups :=
  d.foldl_appendGroup (List.forall_mem_nil _) h

example : standard.body [[""], ["a"]] = "a" ∧ standard.joinGroups [[""], ["a"]] = ",a" := by decide

/-! ### The clauses of a table -/

/-- Every clause has a blank of its own, besides the texts of the dialect. -/
theorem blank_mem_text (rename : String → String) (clause : Clause) :
    ' ' ∈ (clause.text d rename).toList := by
  cases clause with
  | column c => simp [Clause.text, columnClause, Dialect.clause]
  | primaryKey names => simp [Clause.text, Dialect.clause]
  | unique u => simp [Clause.text, uniqueClause, Dialect.clause]
  | check c => simp [Clause.text, checkClause, Dialect.clause]
  | foreignKey k => simp [Clause.text, foreignKeyClause, Dialect.clause]

theorem text_ne_empty_of_mem_groups {rename : String → String} {t : Table} {text : String}
    (h : text ∈ (t.groups.map (List.map (Clause.text d rename))).flatten) : text ≠ "" := by
  rw [← List.map_flatten, List.mem_map] at h
  obtain ⟨clause, -, rfl⟩ := h
  intro hempty
  have hblank := d.blank_mem_text rename clause
  simp [hempty] at hblank

/-! ### Other groups with the same clauses -/

theorem joinGroups_of_flatten_eq {groups others : List (List String)}
    (h : groups.flatten = others.flatten) : d.joinGroups groups = d.joinGroups others :=
  congrArg d.groupSeparator.intercalate h

end Dialect

namespace Synthesizer

/-- A definition is written group by group. So groups without clauses can be put in or left out, and
a group can be parted, with no change to the joined text. -/
theorem createTable_eq_body (s : Synthesizer) (source : Source) (t : Table) :
    s.createTable source t = "CREATE TABLE " ++ s.dialect.qualified source.schema source.table ++
        " (" ++ s.dialect.body (t.groups.map (List.map (Clause.text s.dialect s.rename))) ++ ")" ∧
      (∀ before after : List (List String),
        s.dialect.joinGroups (before ++ [] :: after) = s.dialect.joinGroups (before ++ after)) ∧
      (∀ (before after : List (List String)) (first second : List String),
        s.dialect.joinGroups (before ++ (first ++ second) :: after) =
          s.dialect.joinGroups (before ++ first :: second :: after)) ∧
      ∀ groups others : List (List String), groups.flatten = others.flatten →
        s.dialect.joinGroups groups = s.dialect.joinGroups others := by
  refine ⟨?_, fun before after ↦ ?_, fun before after first second ↦ ?_,
    fun groups others ↦ s.dialect.joinGroups_of_flatten_eq⟩
  · rw [Dialect.body_eq_joinGroups _ fun text ↦ Dialect.text_ne_empty_of_mem_groups _,
      ← Dialect.clauseGroups_eq_map, createTable_eq, bracketed]
    simp only [String.append_assoc]
    rfl
  · exact s.dialect.joinGroups_of_flatten_eq (by simp)
  · exact s.dialect.joinGroups_of_flatten_eq (by simp)

end Synthesizer

end ChangeDdl
