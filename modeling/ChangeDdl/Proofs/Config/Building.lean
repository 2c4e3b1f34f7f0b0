import ChangeDdl.Proofs.Config.Grammar
import ChangeDdl.Proofs.Json.Encode
import Mathlib.Data.Finset.Card

/-!
Building a synthesizer. The parts of a dialect are set one after another and the new names of
columns are entered one after another, or both are written in a text that holds a configuration.
The texts of all events are the same either way (`Config.decode_builds`). A name has the last target
that was entered for it; the target is not itself looked up, so that names can be exchanged.
-/

set_option autoImplicit false
set_option relaxedAutoImplicit false

namespace ChangeDdl

open Json

/-! ### Dialects -/

namespace Dialect

namespace Part

theorem name_injective : Function.Injective name := by
  intro part other h
  cases part <;> cases other <;> first | rfl | simp [name] at h

theorem name_mem_keys (part : Part) : part.name ∈ keys := by
  cases part <;> simp [name, keys]

/-- A dialect is all its parts. -/
theorem eq_of_get {d e : Dialect} (h : ∀ part, get part d = get part e) : d = e := by
  obtain ⟨quote, statement, clause, group, list⟩ := d
  have hquote := h .quote
  have hstatement := h .statementSeparator
  have hclause := h .clausePrefix
  have hgroup := h .groupSeparator
  have hlist := h .listSeparator
  simp only [get] at hquote hstatement hclause hgroup hlist
  rw [hquote, hstatement, hclause, hgroup, hlist]

/-- Setting a part leaves the others as they are. -/
theorem get_set (part other : Part) (d : Dialect) (text : String) :
    get other (d.set part text) = if other = part then text else get other d := by
  cases part <;> cases other <;> rfl

theorem get_overriding (part : Part) (texts : List (String × String)) :
    get part (overriding texts) = (texts.lookup part.name).getD (get part standard) := by
  cases part <;> rfl

end Part

/-- The standard dialect with some parts set, one after another. -/
def ofSettings (settings : List (Part × String)) : Dialect :=
  settings.foldl (fun d setting ↦ d.set setting.1 setting.2) standard

/-- The settings by the names of their parts. -/
def named (settings : List (Part × String)) : List (String × String) :=
  settings.map fun setting ↦ (setting.1.name, setting.2)

theorem map_fst_named (settings : List (Part × String)) :
    (named settings).map Prod.fst = (settings.map Prod.fst).map Part.name := by
  rw [named, List.map_map, List.map_map]
  rfl

/-- The last setting of a part counts. -/
theorem get_ofSettings (part : Part) (settings : List (Part × String)) :
    part.get (ofSettings settings) =
      ((named settings).reverse.lookup part.name).getD (part.get standard) := by
  induction settings using List.reverseRecOn with
  | nil => rfl
  | append_singleton settings setting ih =>
    have hset : ofSettings (settings ++ [setting]) = (ofSettings settings).set setting.1 setting.2 :=
      List.foldl_append
    have hnamed : (named (settings ++ [setting])).reverse =
        (setting.1.name, setting.2) :: (named settings).reverse := by
      simp [named]
    rw [hset, hnamed, Part.get_set, Members.lookup_cons_if, ih]
    by_cases hpart : part = setting.1
    · rw [if_pos hpart, if_pos (congrArg Part.name hpart), Option.getD_some]
    · rw [if_neg hpart, if_neg (mt (Part.name_injective ·) hpart)]

/-- Each part is set at most once, and the texts may come in another order. -/
theorem overriding_eq_ofSettings {texts : List (String × String)} {settings : List (Part × String)}
    (h : texts.Perm (named settings)) (hdistinct : (settings.map Prod.fst).Nodup) :
    overriding texts = ofSettings settings := by
  have hnodup : (texts.map Prod.fst).Nodup := by
    rw [(h.map Prod.fst).nodup_iff, map_fst_named]
    exact hdistinct.map Part.name_injective
  refine Part.eq_of_get fun part ↦ ?_
  rw [Part.get_overriding, get_ofSettings,
    Members.lookup_perm (h.trans (List.reverse_perm _).symm) hnodup]

/-- The value has a member for each setting, and no others. -/
def Writes (v : Value) (settings : List (Part × String)) : Prop :=
  ∃ texts, texts.Perm (named settings) ∧ v = .object (written texts)

theorem Writes.describes {v : Value} {settings : List (Part × String)} (h : Writes v settings)
    (hdistinct : (settings.map Prod.fst).Nodup) : Describes v (ofSettings settings) := by
  obtain ⟨texts, hperm, rfl⟩ := h
  have hkeys : (written texts).map Prod.fst = texts.map Prod.fst := by
    rw [written, List.map_map]
    rfl
  refine ⟨texts, .object ?_ ?_, overriding_eq_ofSettings hperm hdistinct⟩
  · intro m hm
    have hkey : m.1 ∈ (named settings).map Prod.fst :=
      (hperm.map Prod.fst).mem_iff.mp (hkeys ▸ List.mem_map_of_mem hm)
    rw [map_fst_named, List.map_map] at hkey
    obtain ⟨setting, _, hname⟩ := List.mem_map.mp hkey
    exact hname ▸ setting.1.name_mem_keys
  · rw [hkeys, (hperm.map Prod.fst).nodup_iff, map_fst_named]
    exact hdistinct.map Part.name_injective

end Dialect

/-! ### New names -/

namespace Renames

/-- What a table does that these names are entered in, one after another. -/
structure Follows (r : Renames) (names : List (String × String)) : Prop where
  last : ∀ before name target after, names = before ++ (name, target) :: after →
    name ∉ after.map Prod.fst → r.apply name = target
  other : ∀ name, name ∉ names.map Prod.fst → r.apply name = name
  size : r.size = (names.map Prod.fst).toFinset.card

theorem apply_ofList (names : List (String × String)) (name : String) :
    (ofList names).apply name = (names.reverse.lookup name).getD name := by
  rw [apply, lookup_ofList]

theorem follows_ofList (names : List (String × String)) : (ofList names).Follows names where
  last := by
    rintro before name target after rfl hafter
    rw [apply_ofList, Members.lookup_reverse_of_last hafter, Option.getD_some]
  other name hname := by
    have hnone : names.reverse.lookup name = none :=
      Members.lookup_of_not_mem (by simpa using hname)
    rw [apply_ofList, hnone, Option.getD_none]
  size := by
    have hnames : ((ofList names).entries.map Prod.fst).toFinset = (names.map Prod.fst).toFinset := by
      ext name
      rw [keys_ofList, List.mem_toFinset, List.mem_toFinset, List.mem_eraseDups]
    rw [size, ← hnames, List.toFinset_card_of_nodup (ofList names).nodup_keys, List.length_map]

end Renames

/-! ### Configurations -/

/-- The same texts for all creations and for all changes of every event, or the same failures. -/
def Synthesizer.Agree (s t : Synthesizer) : Prop :=
  ∀ e, s.convert e = t.convert e ∧ s.synthesize e = t.synthesize e

namespace Config

/-- The value has the settings of a dialect and the new names in its members. It may leave out a
member that would be empty. -/
def Writes (v : Value) (settings : List (Dialect.Part × String)) (names : List (String × String)) :
    Prop :=
  ∃ members, v = .object members ∧ (∀ m ∈ members, m.1 ∈ keys) ∧ (members.map Prod.fst).Nodup ∧
    Holds Dialect.Writes (some []) (members.lookup "dialect") settings ∧
    Holds (fun w names ↦ w = .object (written names)) (some []) (members.lookup "column_names") names

section Writes

variable {v : Value} {settings : List (Dialect.Part × String)} {names : List (String × String)}

theorem Writes.describes (h : Writes v settings names)
    (hdistinct : (settings.map Prod.fst).Nodup) :
    Describes v (.ofSettings settings) names := by
  obtain ⟨members, rfl, hknown, honce, hdialect, hnames⟩ := h
  refine ⟨members, .object hknown honce, ?_, hnames⟩
  cases hlookup : members.lookup "dialect" with
  | none =>
    rw [hlookup] at hdialect
    obtain rfl := Option.some.inj hdialect
    rfl
  | some w =>
    rw [hlookup] at hdialect
    exact Dialect.Writes.describes hdialect hdistinct

theorem fits_written (texts : List (String × String)) : Value.Fits 1 (.object (written texts)) := by
  refine .object fun m hm ↦ ?_
  obtain ⟨entry, _, rfl⟩ := List.mem_map.mp hm
  exact .scalar trivial

/-- There is a text for every such value. -/
theorem Writes.exists_document (h : Writes v settings names) : ∃ text, Value.Document text v := by
  obtain ⟨members, rfl, hknown, honce, hdialect, hnames⟩ := h
  have hmembers : ∀ m ∈ members, Value.Fits 1 m.2 := by
    intro m hm
    have hlookup := Members.lookup_of_mem honce hm
    rcases List.mem_pair.mp (hknown m hm) with hkey | hkey
    · rw [← hkey, hlookup] at hdialect
      obtain ⟨texts, _, hvalue⟩ := hdialect
      exact hvalue ▸ fits_written texts
    · rw [← hkey, hlookup] at hnames
      exact hnames ▸ fits_written names
  have hfits : Value.Fits Value.depthLimit (.object members) :=
    (Value.Fits.object hmembers).mono (by decide)
  exact ⟨_, Value.document_of_parse (Value.parse_print hfits)⟩

/-- A text with the settings of a dialect and with new names is decoded when the dialect has all it
needs. Every event then gets the texts that it gets when the settings and the names are entered one
after another, and each name has its last target. Nothing entered, nothing changes. -/
theorem decode_builds (hv : Writes v settings names) (hdistinct : (settings.map Prod.fst).Nodup)
    (hvalid : (Dialect.ofSettings settings).validate = .ok ()) :
    (∃ text, Value.Document text v) ∧
    ∀ text, Value.Document text v → ∃ c, decode text = .ok c ∧
      c.synthesizer.Agree ⟨.ofSettings settings, (Renames.ofList names).apply⟩ ∧
      c.columnNames.Follows names ∧ (Renames.ofList names).Follows names ∧
      (settings = [] → names = [] → c.synthesizer.Agree .standard) := by
  refine ⟨hv.exists_document, fun text htext ↦ ?_⟩
  have hparse : shape.parse text = .ok ⟨.ofSettings settings, Renames.ofList names⟩ :=
    parse_eq_ok_iff.mpr ⟨v, _, names, htext, hv.describes hdistinct, rfl⟩
  have hfollows := Renames.follows_ofList names
  refine ⟨_, decode_eq_ok_iff.mpr ⟨hparse, hvalid⟩, fun e ↦ ⟨rfl, rfl⟩, hfollows, hfollows, ?_⟩
  rintro rfl rfl
  exact fun e ↦ ⟨rfl, rfl⟩

end Writes

/-- Names that are exchanged, names in a chain, and a name whose first target is overruled. The key
of the chain's first name is written with an escape. -/
def exchangingText : String :=
  "\x7b" ++ r#""column_names": "# ++
    "\x7b" ++ r#""x": "y", "y": "z", "\u0061": "b", "b": "c", "y": "x""# ++ "\x7d" ++
    r#", "dialect": "# ++ "\x7b" ++ r#""list_separator": "|", "quote": "'""# ++ "\x7d\x7d"

def exchangingNames : List (String × String) :=
  [("x", "y"), ("y", "z"), ("a", "b"), ("b", "c"), ("y", "x")]

def exchangingSettings : List (Dialect.Part × String) := [(.quote, "'"), (.listSeparator, "|")]

def exchangingValue : Value :=
  .object [("column_names", .object (written exchangingNames)),
    ("dialect", .object (written [("list_separator", "|"), ("quote", "'")]))]

theorem writes_exchangingValue : Writes exchangingValue exchangingSettings exchangingNames :=
  ⟨_, rfl, by decide, by decide, ⟨_, .swap _ _ [], rfl⟩, rfl⟩

def namesEvent : ChangeEvent where
  source := ⟨"s", "t"⟩
  changes := [⟨.create, ⟨["x", "y", "a", "b", "A"].map fun name ↦ ⟨name, "INT", none, none, true⟩,
    ["x", "a"], [], [], []⟩⟩]

set_option maxRecDepth 10000 in
/-- Every column is renamed once, and the columns of the key are not. -/
theorem decode_builds_exchangingText :
    Writes exchangingValue exchangingSettings exchangingNames ∧
    (exchangingSettings.map Prod.fst).Nodup ∧
    (Dialect.ofSettings exchangingSettings).validate = .ok () ∧
    Value.Document exchangingText exchangingValue ∧
    ∃ c, decode exchangingText = .ok c ∧ c.synthesizer.convert namesEvent =
      "CREATE TABLE 's'.'t' (\n\t'y' INT,\n\t'x' INT,\n\t'b' INT,\n\t'c' INT,\n\t'A' INT," ++
        "\n\tPRIMARY KEY ('x'|'a')\n)" ∧
      c.columnNames.apply "y" = "x" ∧ c.columnNames.apply "A" = "A" ∧ c.columnNames.size = 4 := by
  have hvalid : (Dialect.ofSettings exchangingSettings).validate = .ok () := by rfl
  have hdistinct : (exchangingSettings.map Prod.fst).Nodup := by decide
  have hdocument : Value.Document exchangingText exchangingValue := Value.document_of_parse (by rfl)
  obtain ⟨c, hdecode, hagree, hfollows, -⟩ :=
    (decode_builds writes_exchangingValue hdistinct hvalid).2 exchangingText hdocument
  refine ⟨writes_exchangingValue, hdistinct, hvalid, hdocument, c, hdecode, ?_, ?_, ?_, ?_⟩
  · rw [(hagree namesEvent).1]
    decide +kernel
  · exact hfollows.last (exchangingNames.take 4) "y" "x" [] rfl (by decide)
  · exact hfollows.other "A" (by decide)
  · rw [hfollows.size]
    decide

end Config

end ChangeDdl
