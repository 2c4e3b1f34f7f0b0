import ChangeDdl.Config
import ChangeDdl.Proofs.Json.ClosedShape
import ChangeDdl.Proofs.Renames

/-!
The texts that hold a configuration. `Config.Describes` says which JSON values give a dialect and
new names for columns; a text holds a configuration when it stands for such a value and the dialect
has all it needs (`Config.decode_by_grammar`).
-/

set_option autoImplicit false
set_option relaxedAutoImplicit false

namespace ChangeDdl

open Json

/-- Members whose values are texts. -/
def written (texts : List (String × String)) : Members :=
  texts.map fun (key, s) ↦ (key, .text s)

/-! ### Members that are texts -/

section Written

variable {texts : List (String × String)}

theorem lookup_written (key : String) (texts : List (String × String)) :
    (written texts).lookup key = (texts.lookup key).map .text := by
  induction texts with
  | nil => rfl
  | cons entry texts ih =>
    obtain ⟨k, s⟩ := entry
    rw [written, List.map_cons, Members.lookup_cons_if, Members.lookup_cons_if]
    split_ifs
    · rfl
    · exact ih

theorem exists_written {members : Members} (h : ∀ m ∈ members, ∃ s, m.2 = .text s) :
    ∃ texts, members = written texts := by
  induction members with
  | nil => exact ⟨[], rfl⟩
  | cons m members ih =>
    obtain ⟨key, v⟩ := m
    obtain ⟨⟨s, rfl⟩, hmembers⟩ := List.forall_mem_cons.mp h
    obtain ⟨texts, rfl⟩ := ih hmembers
    exact ⟨(key, s) :: texts, rfl⟩

theorem means_text_iff {v : Value} {s : String} :
    (Shape.atom .text).Means v s ↔ v = .text s := by
  rw [Shape.Means, Atom.accept]
  constructor
  · intro h
    cases v with
    | scalar t => cases t <;> simp_all [Value.found, Atom.acceptText]
    | array values => simp [Value.found, Atom.acceptText] at h
    | object members => simp [Value.found, Atom.acceptText] at h
  · rintro rfl
    rfl

theorem forall₂_text_iff {members : Members} :
    List.Forall₂ (fun m entry ↦ m.1 = entry.1 ∧ (Shape.atom .text).Means m.2 entry.2)
      members texts ↔ members = written texts := by
  constructor
  · intro h
    induction h with
    | nil => rfl
    | @cons m entry members texts hfirst _ ih =>
      obtain ⟨key, v⟩ := m
      obtain ⟨hkey, hv⟩ := hfirst
      rw [ih, show key = entry.1 from hkey, show v = .text entry.2 from means_text_iff.mp hv]
      rfl
  · rintro rfl
    refine List.forall₂_map_left_iff.mpr (List.forall₂_same.mpr fun entry _ ↦ ?_)
    exact ⟨rfl, means_text_iff.mpr rfl⟩

theorem means_entries_iff {v : Value} :
    (Shape.entries (.atom .text)).Means v texts ↔ v = .object (written texts) := by
  rw [Shape.Means]
  simp only [forall₂_text_iff]
  constructor
  · rintro ⟨members, rfl, rfl⟩
    rfl
  · intro hv
    exact ⟨_, hv, rfl⟩

/-- A field that is a text has the text that is given for it, or its default. -/
theorem means_written_iff {key standard s : String} :
    Holds (Shape.atom .text).Means (some standard) ((written texts).lookup key) s ↔
      (texts.lookup key).getD standard = s := by
  rw [lookup_written]
  cases texts.lookup key with
  | none => simp [Holds]
  | some t => simp [Holds, means_text_iff]

end Written

/-- All fields are texts. -/
inductive Json.Fields.Textual : {β δ : Type} → Fields β δ → Prop where
  | nil : Textual .nil
  | cons {β δ : Type} {key : String} {presence : Presence String} {rest : Fields β δ}
    (h : Textual rest) : Textual (.cons key (.atom .text) presence rest)

theorem Json.Fields.Textual.exists_text {β δ : Type} {fields : Fields β δ} (h : fields.Textual)
    {members : Members} {b : β} (hmeans : fields.MeansMembers members b)
    (hnodup : (members.map Prod.fst).Nodup) {m : String × Value} (hm : m ∈ members)
    (hkey : m.1 ∈ fields.keys) : ∃ s, m.2 = .text s := by
  induction h generalizing members with
  | nil => simp [keys] at hkey
  | @cons β δ key presence rest _ ih =>
    obtain ⟨a, b⟩ := b
    rw [MeansMembers] at hmeans
    by_cases hfirst : m.1 = key
    · have hlookup := Members.lookup_of_mem hnodup hm
      rw [← hfirst, hlookup] at hmeans
      exact ⟨a, means_text_iff.mp hmeans.1⟩
    · refine ih hmeans.2 ?_ (List.mem_filter.mpr ⟨hm, decide_eq_true hfirst⟩) ?_
      · exact hnodup.sublist (List.filter_sublist.map Prod.fst)
      · exact (List.mem_cons.mp hkey).resolve_left hfirst

/-! ### Dialects -/

namespace Dialect

def keys : List String :=
  ["quote", "statement_separator", "clause_prefix", "group_separator", "list_separator"]

/-- The standard dialect with other texts in some places. -/
def overriding (texts : List (String × String)) : Dialect where
  quote := (texts.lookup "quote").getD standard.quote
  statementSeparator := (texts.lookup "statement_separator").getD standard.statementSeparator
  clausePrefix := (texts.lookup "clause_prefix").getD standard.clausePrefix
  groupSeparator := (texts.lookup "group_separator").getD standard.groupSeparator
  listSeparator := (texts.lookup "list_separator").getD standard.listSeparator

/-- The value gives texts for some parts of the dialect, and the other parts are standard. -/
def Describes (v : Value) (d : Dialect) : Prop :=
  ∃ texts, Gives keys v (written texts) ∧ overriding texts = d

theorem means_shape_iff {v : Value} {d : Dialect} : shape.Means v d ↔ Describes v d := by
  rw [shape, Shape.means_record_iff (by decide)]
  constructor
  · rintro ⟨members, ⟨quote, statement, clause, group, list, ⟨⟩⟩, hgives, hmembers, rfl⟩
    have hnodup := hgives.nodup_keys (by decide)
    obtain ⟨texts, rfl⟩ := exists_written fun m hm ↦
      Fields.Textual.exists_text (.cons (.cons (.cons (.cons (.cons .nil))))) hmembers hnodup hm
        (hgives.mem_keys m hm)
    simp (disch := decide) only [Fields.meansMembers_cons_iff, Presence.default?,
      means_written_iff] at hmembers
    obtain ⟨rfl, rfl, rfl, rfl, rfl, _⟩ := hmembers
    exact ⟨texts, hgives, rfl⟩
  · rintro ⟨texts, hgives, rfl⟩
    refine ⟨_, (_, _, _, _, _, ()), hgives, ?_, rfl⟩
    simp (disch := decide) only [Fields.meansMembers_cons_iff, Presence.default?,
      means_written_iff, true_and]
    trivial

/-- The first of the required texts that is empty. -/
inductive FirstEmpty (d : Dialect) : Required → Prop where
  | quote (h : d.quote = "") : FirstEmpty d .quote
  | statementSeparator (hquote : d.quote ≠ "") (h : d.statementSeparator = "") :
    FirstEmpty d .statementSeparator
  | groupSeparator (hquote : d.quote ≠ "") (hstatement : d.statementSeparator ≠ "")
    (h : d.groupSeparator = "") : FirstEmpty d .groupSeparator

theorem missing?_of_firstEmpty {d : Dialect} {r : Required} (h : d.FirstEmpty r) :
    d.missing? = some r := by
  cases h with
  | quote h => simp [missing?, Required.all, Required.get, h]
  | statementSeparator hquote h => simp [missing?, Required.all, Required.get, hquote, h]
  | groupSeparator hquote hstatement h =>
    simp [missing?, Required.all, Required.get, hquote, hstatement, h]

theorem missing?_of_nonempty {d : Dialect} (hquote : d.quote ≠ "")
    (hstatement : d.statementSeparator ≠ "") (hgroup : d.groupSeparator ≠ "") :
    d.missing? = none := by
  simp [missing?, Required.all, Required.get, hquote, hstatement, hgroup]

/-- A required text is empty, or none is. -/
theorem firstEmpty_or_nonempty (d : Dialect) :
    (∃ r, d.FirstEmpty r) ∨ d.quote ≠ "" ∧ d.statementSeparator ≠ "" ∧ d.groupSeparator ≠ "" := by
  by_cases hquote : d.quote = ""
  · exact Or.inl ⟨_, .quote hquote⟩
  by_cases hstatement : d.statementSeparator = ""
  · exact Or.inl ⟨_, .statementSeparator hquote hstatement⟩
  by_cases hgroup : d.groupSeparator = ""
  · exact Or.inl ⟨_, .groupSeparator hquote hstatement hgroup⟩
  exact Or.inr ⟨hquote, hstatement, hgroup⟩

theorem validate_eq_error_iff {d : Dialect} {r : Required} :
    d.validate = .error r ↔ d.FirstEmpty r := by
  rw [validate]
  rcases d.firstEmpty_or_nonempty with ⟨q, hq⟩ | ⟨hquote, hstatement, hgroup⟩
  · rw [missing?_of_firstEmpty hq]
    constructor
    · rintro ⟨⟩
      exact hq
    · intro hr
      rw [Option.some.inj ((missing?_of_firstEmpty hq).symm.trans (missing?_of_firstEmpty hr))]
  · rw [missing?_of_nonempty hquote hstatement hgroup]
    refine iff_of_false nofun fun hr ↦ ?_
    cases hr <;> contradiction

theorem validate_eq_ok_iff {d : Dialect} : d.validate = .ok () ↔
    d.quote ≠ "" ∧ d.statementSeparator ≠ "" ∧ d.groupSeparator ≠ "" := by
  rw [validate]
  rcases d.firstEmpty_or_nonempty with ⟨q, hq⟩ | hnonempty
  · rw [missing?_of_firstEmpty hq]
    refine iff_of_false nofun fun ⟨hquote, hstatement, hgroup⟩ ↦ ?_
    cases hq <;> contradiction
  · rw [missing?_of_nonempty hnonempty.1 hnonempty.2.1 hnonempty.2.2]
    exact iff_of_true rfl hnonempty

end Dialect

/-! ### Configurations -/

namespace Config

def keys : List String :=
  ["dialect", "column_names"]

/-- The value describes a dialect, or leaves it standard, and lists new names for columns. -/
def Describes (v : Value) (d : Dialect) (names : List (String × String)) : Prop :=
  ∃ members, Gives keys v members ∧
    Holds Dialect.Describes (some .standard) (members.lookup "dialect") d ∧
    Holds (fun w names ↦ w = .object (written names)) (some []) (members.lookup "column_names") names

theorem means_shape_iff {v : Value} {c : Config} :
    shape.Means v c ↔ ∃ d names, Describes v d names ∧ c = ⟨d, Renames.ofList names⟩ := by
  have hdialect : Dialect.shape.Means = Dialect.Describes :=
    funext₂ fun _ _ ↦ propext Dialect.means_shape_iff
  have hnames : (Shape.entries (.atom .text)).Means = fun w names ↦ w = .object (written names) :=
    funext₂ fun _ _ ↦ propext means_entries_iff
  rw [shape, Shape.means_record_iff (by decide)]
  constructor
  · rintro ⟨members, ⟨d, names, ⟨⟩⟩, hgives, hmembers, rfl⟩
    simp (disch := decide) only [Fields.meansMembers_cons_iff, Presence.default?, hdialect, hnames]
      at hmembers
    exact ⟨d, names, ⟨members, hgives, hmembers.1, hmembers.2.1⟩, rfl⟩
  · rintro ⟨d, names, ⟨members, hgives, hd, hn⟩, rfl⟩
    refine ⟨members, (d, names, ()), hgives, ?_, rfl⟩
    simp (disch := decide) only [Fields.meansMembers_cons_iff, Presence.default?, hdialect, hnames]
    exact ⟨hd, hn, trivial⟩

theorem closed_shape : shape.Closed := by
  simp [shape, Dialect.shape, Shape.Closed, Fields.Closed]

theorem parse_eq_ok_iff {text : String} {c : Config} : shape.parse text = .ok c ↔
    ∃ v d names, Value.Document text v ∧ Describes v d names ∧ c = ⟨d, Renames.ofList names⟩ := by
  rw [Shape.parse_eq_ok_iff closed_shape]
  simp only [means_shape_iff, exists_and_left]

theorem eq_mk_ofList_iff {c : Config} {d : Dialect} {names : List (String × String)} :
    c = ⟨d, Renames.ofList names⟩ ↔ c.dialect = d ∧
      c.columnNames.entries.map Prod.fst = (names.map Prod.fst).eraseDups ∧
      ∀ key, c.columnNames.entries.lookup key = names.reverse.lookup key := by
  rw [← Renames.eq_ofList_iff]
  obtain ⟨dialect, columnNames⟩ := c
  exact Config.mk.injEq _ _ _ _ ▸ Iff.rfl

theorem decode_eq_ok_iff {text : String} {c : Config} : decode text = .ok c ↔
    shape.parse text = .ok c ∧ c.dialect.validate = .ok () := by
  rw [decode, bind_eq_ok_iff]
  simp only [mapError_eq_ok_iff, bind_eq_ok_iff]
  constructor
  · rintro ⟨_, hparse, _, hvalid, ⟨⟩⟩
    exact ⟨hparse, hvalid⟩
  · rintro ⟨hparse, hvalid⟩
    exact ⟨c, hparse, (), hvalid, rfl⟩

/-- A text is not decoded because it does not parse or because of the dialect in it. -/
theorem decode_eq_error_iff {text : String} {e : Error} : decode text = .error e ↔
    (∃ what, shape.parse text = .error what ∧ .decode what = e) ∨
      ∃ c r, shape.parse text = .ok c ∧ c.dialect.validate = .error r ∧ .emptyInDialect r = e := by
  rw [decode, bind_eq_error_iff]
  simp [mapError_eq_error_iff, mapError_eq_ok_iff, bind_eq_error_iff]

theorem decode_eq_emptyInDialect_iff {text : String} {r : Dialect.Required} :
    decode text = .error (.emptyInDialect r) ↔
      ∃ c, shape.parse text = .ok c ∧ c.dialect.validate = .error r := by
  simp [decode_eq_error_iff]

theorem decode_eq_decode_iff {text : String} {e : DecodeError} :
    decode text = .error (.decode e) ↔ shape.parse text = .error e := by
  simp [decode_eq_error_iff]

/-- A text holds a configuration when it stands for a value that describes one and its dialect
leaves no required text empty. The new names are those of the value, in order of their first
appearance and each with its last target. When only a required text is empty, the first of these is
reported; any other text is not decoded. -/
theorem decode_by_grammar (text : String) :
    (∀ c, decode text = .ok c ↔ ∃ v d names, Value.Document text v ∧ Describes v d names ∧
      (d.quote ≠ "" ∧ d.statementSeparator ≠ "" ∧ d.groupSeparator ≠ "") ∧ c.dialect = d ∧
      c.columnNames.entries.map Prod.fst = (names.map Prod.fst).eraseDups ∧
      ∀ key, c.columnNames.entries.lookup key = names.reverse.lookup key) ∧
    (∀ r, decode text = .error (.emptyInDialect r) ↔
      ∃ v d names, Value.Document text v ∧ Describes v d names ∧ d.FirstEmpty r) ∧
    ((∃ e, decode text = .error (.decode e)) ↔
      ¬ ∃ v d names, Value.Document text v ∧ Describes v d names) := by
  refine ⟨fun c ↦ ?_, fun r ↦ ?_, ?_⟩
  · rw [decode_eq_ok_iff, parse_eq_ok_iff, Dialect.validate_eq_ok_iff]
    simp only [eq_mk_ofList_iff]
    constructor
    · rintro ⟨⟨v, d, names, htext, hv, rfl, hnames⟩, hvalid⟩
      exact ⟨v, _, names, htext, hv, hvalid, rfl, hnames⟩
    · rintro ⟨v, d, names, htext, hv, hvalid, rfl, hnames⟩
      exact ⟨⟨v, _, names, htext, hv, rfl, hnames⟩, hvalid⟩
  · simp only [decode_eq_emptyInDialect_iff, parse_eq_ok_iff, Dialect.validate_eq_error_iff]
    constructor
    · rintro ⟨_, ⟨v, d, names, htext, hv, rfl⟩, hempty⟩
      exact ⟨v, d, names, htext, hv, hempty⟩
    · rintro ⟨v, d, names, htext, hv, hempty⟩
      exact ⟨_, ⟨v, d, names, htext, hv, rfl⟩, hempty⟩
  · simp only [decode_eq_decode_iff]
    constructor
    · rintro ⟨e, herror⟩ ⟨v, d, names, htext, hv⟩
      have hok := parse_eq_ok_iff.mpr ⟨v, d, names, htext, hv, rfl⟩
      simp [herror] at hok
    · intro hnone
      cases hparse : shape.parse text with
      | error e => exact ⟨e, rfl⟩
      | ok c =>
        obtain ⟨v, d, names, htext, hv, _⟩ := parse_eq_ok_iff.mp hparse
        exact absurd ⟨v, d, names, htext, hv⟩ hnone

example : (decode r#"[["'"], {"a": "b", "c": "", "a": "d"}]"#).map
    (fun c ↦ (c.dialect.quote, c.columnNames.entries)) =
      .ok ("'", [("a", "d"), ("c", "")]) := by
  rfl

end Config

end ChangeDdl
