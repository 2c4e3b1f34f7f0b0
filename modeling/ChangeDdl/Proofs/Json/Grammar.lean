import ChangeDdl.Proofs.Json.Grammar.Contents
import ChangeDdl.Proofs.Json.Grammar.Numeral

/-!
The grammar of JSON texts. `Value.Spells` says which texts stand for a value, with blanks wherever
they are allowed and with every spelling of its texts and numerals. A text is parsed to a value
exactly when it spells the value, between blanks and without nesting too deeply
(`Value.parse_eq_ok_iff`).

Texts can be taken apart and put together again: an array or an object has a text exactly when its
parts have one (`Value.spellable_array_iff`, `Value.spellable_object_iff`).
-/

set_option autoImplicit false
set_option relaxedAutoImplicit false

namespace ChangeDdl.Json

open Numeral (Delimited)

def Scalar.Spells : List Char → Scalar → Prop
  | cs, .null => cs = ['n', 'u', 'l', 'l']
  | cs, .boolean true => cs = ['t', 'r', 'u', 'e']
  | cs, .boolean false => cs = ['f', 'a', 'l', 's', 'e']
  | cs, .number n => Numeral.Spells cs n
  | cs, .text s => Quoted.Says cs s

/-- A text that stands for a value in which lists and objects nest at most `depth` deep. -/
def Value.Spells (depth : Nat) (cs : List Char) (v : Value) : Prop :=
  match depth, v with
  | _, .scalar s => s.Spells cs
  | depth + 1, .array values =>
    ∃ inside, cs = '[' :: (inside ++ [']']) ∧ Contents (Between (Spells depth)) inside values
  | depth + 1, .object members =>
    ∃ inside, cs = '{' :: (inside ++ ['}']) ∧ Contents (Keyed (Spells depth)) inside members
  | 0, _ => False
termination_by structural depth

/-- A whole text that stands for a value, however deep it nests. -/
def Value.Document (text : String) (v : Value) : Prop :=
  ∃ depth, Between (Spells depth) text.toList v

/-! ### Scalars -/

theorem word_eq_ok_iff {letters cs rest : List Char} :
    word letters cs = .ok rest ↔ cs = letters ++ rest := by
  induction letters generalizing cs with
  | nil => simp [word]
  | cons letter letters ih =>
    cases cs with
    | nil => simp [word]
    | cons c cs =>
      rw [word, List.cons_append, List.cons.injEq]
      split_ifs with hc
      · simp [hc, ih]
      · simp [hc]

theorem Numeral.Form.head {numeral : List Char} (h : Form numeral) :
    ∃ c rest, numeral = c :: rest ∧ (c = '-' ∨ c.isDigit = true) := by
  cases h with
  | mk hsign hwhole =>
    rcases hsign with rfl | rfl
    · cases hwhole with
      | zero => exact ⟨'0', _, rfl, by decide⟩
      | digits _ hdigits => exact ⟨_, _, rfl, Or.inr (hdigits.2 _ List.mem_cons_self)⟩
    · exact ⟨'-', _, rfl, Or.inl rfl⟩

namespace Scalar

theorem starts_of_spells {text : List Char} {s : Scalar} (h : Spells text s) : Starts text := by
  match s with
  | .null => exact ⟨'n', _, h, by decide, by decide⟩
  | .boolean true => exact ⟨'t', _, h, by decide, by decide⟩
  | .boolean false => exact ⟨'f', _, h, by decide, by decide⟩
  | .number n =>
    obtain ⟨c, rest, rfl, hc⟩ := h.1.head
    exact starts_of_sign_or_digit hc rest
  | .text s =>
    obtain ⟨body, rfl, _⟩ := h
    exact ⟨'"', _, rfl, by decide, by decide⟩

theorem opens_of_spells {text rest : List Char} {s : Scalar} (h : Spells text s)
    (hrest : Delimited rest) : Opens (text ++ rest) s rest := by
  match s with
  | .null =>
    obtain rfl : text = ['n', 'u', 'l', 'l'] := h
    exact .null (word_eq_ok_iff.mpr rfl)
  | .boolean true =>
    obtain rfl : text = ['t', 'r', 'u', 'e'] := h
    exact .yes (word_eq_ok_iff.mpr rfl)
  | .boolean false =>
    obtain rfl : text = ['f', 'a', 'l', 's', 'e'] := h
    exact .no (word_eq_ok_iff.mpr rfl)
  | .number n =>
    have hread := Numeral.read_of_spells h hrest
    obtain ⟨c, more, rfl, hc⟩ := h.1.head
    exact .number hc hread
  | .text s =>
    obtain ⟨body, rfl, hbody⟩ := h
    exact .text (Quoted.read_eq_ok_iff.mpr ⟨body, by simp, hbody⟩)

theorem spells_of_opens {cs rest : List Char} {s : Scalar} (h : Opens cs s rest) :
    ∃ text, cs = text ++ rest ∧ Spells text s := by
  cases h with
  | null hword => exact ⟨['n', 'u', 'l', 'l'], by rw [word_eq_ok_iff.mp hword]; rfl, rfl⟩
  | yes hword => exact ⟨['t', 'r', 'u', 'e'], by rw [word_eq_ok_iff.mp hword]; rfl, rfl⟩
  | no hword => exact ⟨['f', 'a', 'l', 's', 'e'], by rw [word_eq_ok_iff.mp hword]; rfl, rfl⟩
  | number _ hread => exact Numeral.exists_spells_of_read hread
  | text hread =>
    obtain ⟨body, rfl, hbody⟩ := Quoted.read_eq_ok_iff.mp hread
    exact ⟨'"' :: (body ++ ['"']), by simp, body, rfl, hbody⟩

end Scalar

/-! ### Values -/

theorem Sequence.length_le {α : Type} {piece : List Char → α → Prop} {cs : List Char}
    {as : List α} (h : Sequence piece cs as) : as.length ≤ cs.length + 1 := by
  induction h with
  | one => simp
  | more _ _ ih =>
    rw [List.length_cons, List.length_append, List.length_cons]
    omega

theorem Contents.length_le {α : Type} {piece : List Char → α → Prop} {cs : List Char}
    {as : List α} (h : Contents piece cs as) : as.length ≤ cs.length + 1 := by
  rcases h with ⟨_, rfl⟩ | h
  · simp
  · exact h.length_le

namespace Value

@[simp] theorem spells_scalar_iff {depth : Nat} {cs : List Char} {s : Scalar} :
    Spells depth cs (.scalar s) ↔ s.Spells cs := by
  cases depth <;> rfl

theorem spells_array_iff {depth : Nat} {cs : List Char} {values : List Value} :
    Spells depth cs (.array values) ↔ ∃ inner inside, depth = inner + 1 ∧
      cs = '[' :: (inside ++ [']']) ∧ Contents (Between (Spells inner)) inside values := by
  cases depth with
  | zero => exact iff_of_false id (by simp)
  | succ depth =>
    have hspells : Spells (depth + 1) cs (.array values) ↔ ∃ inside,
        cs = '[' :: (inside ++ [']']) ∧ Contents (Between (Spells depth)) inside values := Iff.rfl
    simp [hspells]

theorem spells_object_iff {depth : Nat} {cs : List Char} {members : Members} :
    Spells depth cs (.object members) ↔ ∃ inner inside, depth = inner + 1 ∧
      cs = '{' :: (inside ++ ['}']) ∧ Contents (Keyed (Spells inner)) inside members := by
  cases depth with
  | zero => exact iff_of_false id (by simp)
  | succ depth =>
    have hspells : Spells (depth + 1) cs (.object members) ↔ ∃ inside,
        cs = '{' :: (inside ++ ['}']) ∧ Contents (Keyed (Spells depth)) inside members := Iff.rfl
    simp [hspells]

theorem starts_of_spells {depth : Nat} {text : List Char} {v : Value} (h : Spells depth text v) :
    Starts text := by
  cases v with
  | scalar s => exact Scalar.starts_of_spells (spells_scalar_iff.mp h)
  | array values =>
    obtain ⟨inner, inside, _, rfl, _⟩ := spells_array_iff.mp h
    exact ⟨'[', _, rfl, by decide, by decide⟩
  | object members =>
    obtain ⟨inner, inside, _, rfl, _⟩ := spells_object_iff.mp h
    exact ⟨'{', _, rfl, by decide, by decide⟩

section Step

variable {depth : Nat} (hinner : ∀ inner, inner < depth → Reads (read inner) (Spells inner))

include hinner

theorem read_append_of_spells {before text rest : List Char} {v : Value} (hbefore : Blank before)
    (h : Spells depth text v) (hrest : Delimited rest) :
    read depth (before ++ (text ++ rest)) = .ok (v, rest) := by
  rw [read_eq_ok_iff]
  cases v with
  | scalar s =>
    have hspells := spells_scalar_iff.mp h
    refine .scalar ?_
    rw [skipBlanks_blank_append hbefore, ((Scalar.starts_of_spells hspells).append rest).skipBlanks]
    exact Scalar.opens_of_spells hspells hrest
  | array values =>
    obtain ⟨inner, inside, hdepth, rfl, hinside⟩ := spells_array_iff.mp h
    have hitems : ItemsRead (read inner) true (inside ++ ']' :: rest) values rest :=
      (itemsRead_iff_contents (hinner inner (by omega))).mpr ⟨inside, rfl, hinside⟩
    have hlength := hinside.length_le
    refine .array hdepth ?_ hitems (by simpa using by omega)
    simpa using skipBlanks_closing hbefore (c := '[') (by decide)
  | object members =>
    obtain ⟨inner, inside, hdepth, rfl, hinside⟩ := spells_object_iff.mp h
    have hmembers : MembersRead (read inner) true (inside ++ '}' :: rest) members rest :=
      (membersRead_iff_contents (hinner inner (by omega))).mpr ⟨inside, rfl, hinside⟩
    have hlength := hinside.length_le
    refine .object hdepth ?_ hmembers (by simpa using by omega)
    simpa using skipBlanks_closing hbefore (c := '{') (by decide)

theorem exists_spells_of_read {cs rest : List Char} {v : Value}
    (h : read depth cs = .ok (v, rest)) :
    ∃ before text, cs = before ++ (text ++ rest) ∧ Blank before ∧ Spells depth text v := by
  cases read_eq_ok_iff.mp h with
  | scalar hscalar =>
    obtain ⟨before, hcs, hbefore⟩ := exists_blank_of_skipBlanks cs
    obtain ⟨text, htext, hspells⟩ := Scalar.spells_of_opens hscalar
    exact ⟨before, text, by rwa [htext] at hcs, hbefore, spells_scalar_iff.mpr hspells⟩
  | @array inner _ _ _ hdepth hopen hitems _ =>
    obtain ⟨before, rfl, hbefore⟩ := exists_blank_of_closing hopen
    obtain ⟨inside, rfl, hinside⟩ := (itemsRead_iff_contents (hinner inner (by omega))).mp hitems
    refine ⟨before, '[' :: (inside ++ [']']), by simp, hbefore, ?_⟩
    exact spells_array_iff.mpr ⟨inner, inside, hdepth, rfl, hinside⟩
  | @object inner _ _ _ hdepth hopen hmembers _ =>
    obtain ⟨before, rfl, hbefore⟩ := exists_blank_of_closing hopen
    obtain ⟨inside, rfl, hinside⟩ :=
      (membersRead_iff_contents (hinner inner (by omega))).mp hmembers
    refine ⟨before, '{' :: (inside ++ ['}']), by simp, hbefore, ?_⟩
    exact spells_object_iff.mpr ⟨inner, inside, hdepth, rfl, hinside⟩

end Step

/-- The reader of values goes by the grammar. -/
theorem reads (depth : Nat) : Reads (read depth) (Spells depth) := by
  induction depth using Nat.strongRecOn with
  | ind depth ih =>
    exact ⟨starts_of_spells, read_append_of_spells ih, exists_spells_of_read ih⟩

/-- A text is parsed to the values that it stands for and that nest no deeper than the limit. -/
theorem parse_eq_ok_iff {text : String} {v : Value} :
    parse text = .ok v ↔ Between (Spells depthLimit) text.toList v := by
  rw [parse, parseWith_eq_ok_iff]
  constructor
  · rintro ⟨after, hread, hafter⟩
    obtain ⟨before, inside, htext, hbefore, hspells⟩ := (reads depthLimit).spells_of_read hread
    exact ⟨before, inside, after, htext, hbefore, skipBlanks_eq_nil_iff.mp hafter, hspells⟩
  · rintro ⟨before, inside, after, htext, hbefore, hafter, hspells⟩
    refine ⟨after, ?_, skipBlanks_eq_nil_iff.mpr hafter⟩
    rw [htext]
    exact (reads depthLimit).read_of_spells hbefore hspells hafter.delimited

end Value

/-! ### Texts of parts -/

namespace Value

/-- The value has a text. A number that no numeral stands for has none. -/
def Spellable (depth : Nat) (v : Value) : Prop :=
  ∃ text, Spells depth text v

section Spellable

variable {depth : Nat} {values : List Value} {members : Members} {v : Value}

theorem spellable_array_iff :
    Spellable depth (.array values) ↔
      ∃ inner, depth = inner + 1 ∧ ∀ v ∈ values, Spellable inner v := by
  constructor
  · rintro ⟨cs, h⟩
    obtain ⟨inner, inside, hdepth, _, hinside⟩ := spells_array_iff.mp h
    have hpieces := exists_contents_iff.mp ⟨inside, hinside⟩
    exact ⟨inner, hdepth, fun v hv ↦ exists_between_iff.mp (hpieces v hv)⟩
  · rintro ⟨inner, hdepth, hvalues⟩
    have hpieces : ∀ v ∈ values, ∃ cs, Between (Spells inner) cs v :=
      fun v hv ↦ exists_between_iff.mpr (hvalues v hv)
    obtain ⟨inside, hinside⟩ := exists_contents_iff.mpr hpieces
    exact ⟨_, spells_array_iff.mpr ⟨inner, inside, hdepth, rfl, hinside⟩⟩

theorem spellable_object_iff :
    Spellable depth (.object members) ↔
      ∃ inner, depth = inner + 1 ∧ ∀ m ∈ members, Spellable inner m.2 := by
  constructor
  · rintro ⟨cs, h⟩
    obtain ⟨inner, inside, hdepth, _, hinside⟩ := spells_object_iff.mp h
    have hpieces := exists_contents_iff.mp ⟨inside, hinside⟩
    exact ⟨inner, hdepth, fun m hm ↦ exists_keyed_iff.mp (hpieces m hm)⟩
  · rintro ⟨inner, hdepth, hvalues⟩
    have hpieces : ∀ m ∈ members, ∃ cs, Keyed (Spells inner) cs m :=
      fun m hm ↦ exists_keyed_iff.mpr (hvalues m hm)
    obtain ⟨inside, hinside⟩ := exists_contents_iff.mpr hpieces
    exact ⟨_, spells_object_iff.mpr ⟨inner, inside, hdepth, rfl, hinside⟩⟩

theorem Spellable.mono {more : Nat} (h : Spellable depth v) (hle : depth ≤ more) :
    Spellable more v := by
  induction depth using Nat.strongRecOn generalizing more v with
  | ind depth ih =>
    cases v with
    | scalar s =>
      obtain ⟨text, htext⟩ := h
      exact ⟨text, spells_scalar_iff.mpr (spells_scalar_iff.mp htext)⟩
    | array values =>
      obtain ⟨inner, rfl, hvalues⟩ := spellable_array_iff.mp h
      refine spellable_array_iff.mpr ⟨more - 1, by omega, fun v hv ↦ ?_⟩
      exact ih inner (by omega) (hvalues v hv) (by omega)
    | object members =>
      obtain ⟨inner, rfl, hmembers⟩ := spellable_object_iff.mp h
      refine spellable_object_iff.mpr ⟨more - 1, by omega, fun m hm ↦ ?_⟩
      exact ih inner (by omega) (hmembers m hm) (by omega)

/-- How deep a text nests is known from the value that it stands for. -/
theorem spells_of_spellable {more : Nat} {cs : List Char} (h : Spells depth cs v)
    (hmore : Spellable more v) : Spells more cs v := by
  induction depth using Nat.strongRecOn generalizing more cs v with
  | ind depth ih =>
    cases v with
    | scalar s => exact spells_scalar_iff.mpr (spells_scalar_iff.mp h)
    | array values =>
      obtain ⟨inner, inside, rfl, rfl, hinside⟩ := spells_array_iff.mp h
      obtain ⟨other, rfl, hvalues⟩ := spellable_array_iff.mp hmore
      refine spells_array_iff.mpr ⟨other, inside, rfl, rfl, hinside.imp fun v hv text htext ↦ ?_⟩
      exact htext.imp fun text htext ↦ ih inner (by omega) htext (hvalues v hv)
    | object members =>
      obtain ⟨inner, inside, rfl, rfl, hinside⟩ := spells_object_iff.mp h
      obtain ⟨other, rfl, hmembers⟩ := spellable_object_iff.mp hmore
      refine spells_object_iff.mpr ⟨other, inside, rfl, rfl, hinside.imp fun m hm text htext ↦ ?_⟩
      exact htext.imp fun text htext ↦ ih inner (by omega) htext (hmembers m hm)

theorem document_of_parse {text : String} (h : parse text = .ok v) : Document text v :=
  ⟨depthLimit, parse_eq_ok_iff.mp h⟩

/-- When one text of a value is parsed, all its texts are. -/
theorem parse_of_document {text : String} (h : Document text v) (hv : Spellable depthLimit v) :
    parse text = .ok v := by
  obtain ⟨depth, hbetween⟩ := h
  exact parse_eq_ok_iff.mpr (hbetween.imp fun _ hspells ↦ spells_of_spellable hspells hv)

/-- A text stands for one value at most. -/
theorem Document.unique {text : String} {w : Value} (hv : Document text v)
    (hw : Document text w) : v = w := by
  obtain ⟨depth, before, inside, after, htext, hbefore, hafter, hinside⟩ := hv
  obtain ⟨other, front, middle, back, hsame, hfront, hback, hmiddle⟩ := hw
  have hleft : Spellable (max depth other) v := Spellable.mono ⟨_, hinside⟩ (Nat.le_max_left _ _)
  have hright : Spellable (max depth other) w := Spellable.mono ⟨_, hmiddle⟩ (Nat.le_max_right _ _)
  have hreads := reads (max depth other)
  have hread := hreads.read_of_spells hbefore (spells_of_spellable hinside hleft) hafter.delimited
  have hagain := hreads.read_of_spells hfront (spells_of_spellable hmiddle hright) hback.delimited
  rw [← htext, hsame] at hread
  exact (Prod.mk.inj (Except.ok.inj (hread.symm.trans hagain))).1

/-- A value with a text is parsed from some text. -/
theorem exists_parse_iff : (∃ text, parse text = .ok v) ↔ Spellable depthLimit v := by
  constructor
  · rintro ⟨text, h⟩
    exact exists_between_iff.mp ⟨_, parse_eq_ok_iff.mp h⟩
  · rintro ⟨cs, h⟩
    refine ⟨String.ofList cs, parse_eq_ok_iff.mpr ?_⟩
    rw [String.toList_ofList]
    exact between_of_spells h

end Spellable

end Value

end ChangeDdl.Json
