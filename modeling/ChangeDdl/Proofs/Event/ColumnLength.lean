import ChangeDdl.Proofs.Ddl.OneColumn
import ChangeDdl.Proofs.Event.Envelope
import ChangeDdl.Proofs.Json.Grammar.Integral
import ChangeDdl.Proofs.Json.Part

/-!
Lengths of columns, from the text of an event to the text of its table. A numeral for the length of
a column is taken exactly if it stands for an integer of 32 bits, whatever the rest of the event
looks like, and the event with it differs from the event without a length in nothing else. A
positive length is written digit by digit as the numeral has it.

The event around the numeral is given by a text with a gap: `PlacesColumn` says where in an event
the column stands, and the texts in front of the numeral and behind it are those of a gap.
-/

set_option autoImplicit false
set_option relaxedAutoImplicit false

namespace ChangeDdl

open Json

/-! ### Columns in events -/

namespace ChangeEvent

/-- A gap in an event in place of a column, any of its records being an array or an object. -/
inductive HoldsColumn : Gap → Prop where
  | mk {earlier later before after : List Value} {change table event : Gap}
    (hevent : Gap.InField "tableChanges" 1 (.item earlier change later) event)
    (hchange : Gap.InField "table" 1 table change)
    (htable : Gap.InField "columns" 0 (.item before .here after) table) : HoldsColumn event

/-- A gap in the value of a feed in place of a column, in an envelope or bare. -/
inductive PlacesColumn : Gap → Prop where
  | bare {gap : Gap} (hgap : HoldsColumn gap) (hbare : ∀ v, Bare (gap.fill v)) : PlacesColumn gap
  | envelope {gap : Gap} (before after : Members) (hgap : HoldsColumn gap)
    (hlast : "payload" ∉ after.map Prod.fst) : PlacesColumn (.member before "payload" gap after)

theorem PlacesColumn.exists_payload {gap : Gap} (h : PlacesColumn gap) :
    ∃ event, HoldsColumn event ∧ ∀ v, payload (gap.fill v) = event.fill v := by
  cases h with
  | bare hgap hbare => exact ⟨gap, hgap, fun v ↦ payload_of_bare (hbare v)⟩
  | envelope before after hgap hlast => exact ⟨_, hgap, fun v ↦ payload_envelope hlast⟩

/-- An event that decodes with some column in a place decodes with any other there. -/
theorem HoldsColumn.decodes {gap : Gap} (h : HoldsColumn gap) {v : Value} {e : ChangeEvent}
    (he : shape.decode (gap.fill v) = .ok e) : ∃ (around : Surroundings) (c : Column),
      e = around.event c ∧ Column.shape.decode v = .ok c ∧
        gap.Decodes shape Column.shape around.event := by
  obtain ⟨hevent, hchange, htable⟩ := h
  obtain ⟨hchanges, htoEvent⟩ :=
    Gap.decodes_field (.later (by decide) .first) hevent he fun _ ↦ rfl
  obtain ⟨earlier, change, later, hsplit, hchanged, htoChanges⟩ := Gap.decodes_item hchanges
  obtain ⟨htables, htoChange⟩ :=
    Gap.decodes_field (.later (by decide) .first) hchange hchanged fun _ ↦ rfl
  obtain ⟨hcolumns, htoTable⟩ := Gap.decodes_field .first htable htables fun _ ↦ rfl
  obtain ⟨before, c, after, hcut, hc, htoColumns⟩ := Gap.decodes_item hcolumns
  have hhere : Gap.here.Decodes Column.shape Column.shape id := Gap.decodes_here Column.shape
  refine ⟨⟨e.source, earlier, change.kind, change.table, before, after, later⟩, c, ?_, hc,
    htoEvent (htoChanges (htoChange (htoTable (htoColumns hhere))))⟩
  obtain ⟨source, changes⟩ := e
  obtain ⟨kind, columns, primaryKey, foreignKeys, uniques, checks⟩ := change
  obtain rfl : changes = _ := hsplit
  obtain rfl : columns = _ := hcut
  rfl

end ChangeEvent

/-! ### Lengths of columns -/

/-- How lengths appear in columns. -/
def Column.lengthShape : Shape (Option Int32) := .nullable (.atom .integer32)

/-- A column that decodes with some length decodes with any other. -/
theorem Column.decodes_length {gap : Gap} (hgap : Gap.InField "length" 2 .here gap) {v : Value}
    {c : Column} (hc : Column.shape.decode (gap.fill v) = .ok c) :
    lengthShape.decode v = .ok c.length ∧
      gap.Decodes Column.shape lengthShape fun length ↦ { c with length := length } := by
  obtain ⟨hlength, htoColumn⟩ := Gap.decodes_field
    (.later (by decide) (.later (by decide) .first)) hgap hc fun _ ↦ rfl
  exact ⟨hlength, htoColumn (Gap.decodes_here lengthShape)⟩

/-- A length is an integer of 32 bits and nothing else that is a number. -/
theorem Column.decode_lengthShape_iff {n : Number} {length : Option Int32} :
    lengthShape.decode (.scalar (.number n)) = .ok length ↔
      ∃ m : Int32, n = .integer m.toInt ∧ length = some m := by
  refine map_eq_ok_iff.trans ?_
  constructor
  · rintro ⟨m, hm, rfl⟩
    cases n with
    | real x => simp [Shape.decode, Atom.accept, Value.found, Atom.acceptInteger32] at hm
    | integer k =>
      have hmin : Int32.minValue.toInt = -2147483648 := rfl
      have hmax : Int32.maxValue.toInt = 2147483647 := rfl
      simp only [Shape.decode, Atom.accept, Value.found, Atom.acceptInteger32] at hm
      split_ifs at hm with hk
      obtain rfl := Except.ok.inj hm
      have hkept : (Int32.ofInt k).toInt = k := Int32.toInt_ofInt_of_le (by omega) (by omega)
      exact ⟨Int32.ofInt k, by rw [hkept], rfl⟩
  · rintro ⟨m, rfl, rfl⟩
    exact ⟨m, Atom.integer32.accept_encode m, rfl⟩

/-- A length behind the type, from a numeral for it. -/
theorem Column.lengthText_of_integral {c : Column} {m : Int32} {token : String}
    (h : Numeral.Integral token.toList m.toInt) :
    { c with length := some m }.lengthText = if 0 < m.toInt then bracketed token else "" := by
  have htoken : Decimal.integer m.toInt = token := String.toList_inj.mp h.eq_integer.symm
  have hpos : 0 < m ↔ 0 < m.toInt := Int32.lt_iff_toInt_lt
  simp only [lengthText, htoken, hpos]

namespace ChangeEvent

/-- The texts in front of the length of a column and behind it, in a text that holds an event when
the length is null. -/
structure AroundLength (outer inner : Gap) (front back : String) (e : ChangeEvent) : Prop where
  column : PlacesColumn outer
  length : Gap.InField "length" 2 .here inner
  texts : (outer.comp inner).Around Value.depthLimit front.toList back.toList
  valid : decode (front ++ "null" ++ back) = .ok e

theorem decode_eq_ok_iff {text : String} {v : Value} (hparse : Value.parse text = .ok v)
    {e : ChangeEvent} : decode text = .ok e ↔ shape.decode (payload v) = .ok e := by
  rw [decode_of_parse hparse, mapError_eq_ok_iff]
  rfl

/-- Whatever goes wrong with a text of the feed goes wrong in decoding it. -/
theorem exists_decode_error {text : String} {error : Error} (h : decode text = .error error) :
    ∃ what, error = .decode what := by
  rcases bind_eq_error_iff.mp h with hparse | ⟨v, _, hvalue⟩
  · obtain ⟨what, _, rfl⟩ := mapError_eq_error_iff.mp hparse
    exact ⟨what, rfl⟩
  · obtain ⟨what, _, rfl⟩ := mapError_eq_error_iff.mp hvalue
    exact ⟨.ofMismatch what, rfl⟩

section Length

variable {outer inner : Gap} {front back : String} {e : ChangeEvent}
  (h : AroundLength outer inner front back e)

include h

theorem AroundLength.decodes : ∃ (around : Surroundings) (c : Column),
    e = around.event c ∧ Column.shape.decode (inner.fill .null) = .ok c ∧
      ∀ {text : String} {v : Value} {found : ChangeEvent}, Value.parse text = .ok (outer.fill v) →
        (decode text = .ok found ↔
          ∃ c, Column.shape.decode v = .ok c ∧ around.event c = found) := by
  obtain ⟨event, hevent, hpayload⟩ := h.column.exists_payload
  have hnull : Scalar.Spells "null".toList .null := rfl
  have he := (decode_eq_ok_iff (h.texts.parse_fill hnull)).mp h.valid
  rw [Gap.fill_comp, hpayload] at he
  obtain ⟨around, c, rfl, hc, hwhole⟩ := hevent.decodes he
  refine ⟨around, c, rfl, hc, fun {text v found} hparse ↦ ?_⟩
  rw [decode_eq_ok_iff hparse, hpayload]
  exact hwhole v found

/-- What stands in place of the length decides about the length and about nothing else. -/
theorem AroundLength.decode_iff : ∃ (around : Surroundings) (c : Column),
    e = around.event c ∧ Column.shape.decode (inner.fill .null) = .ok c ∧ c.length = none ∧
      ∀ {text : String} {s : Scalar} {found : ChangeEvent}, s.Spells text.toList →
        (decode (front ++ text ++ back) = .ok found ↔
          ∃ length, Column.lengthShape.decode (.scalar s) = .ok length ∧
            around.event { c with length := length } = found) := by
  obtain ⟨around, c, he, hc, hevent⟩ := h.decodes
  obtain ⟨hlength, hcolumn⟩ := Column.decodes_length h.length hc
  refine ⟨around, c, he, hc, (Except.ok.inj hlength).symm, fun {text s found} htext ↦ ?_⟩
  have hparse := h.texts.parse_fill htext
  rw [Gap.fill_comp] at hparse
  rw [hevent hparse]
  constructor
  · rintro ⟨c, hc, rfl⟩
    obtain ⟨length, hlength, rfl⟩ := (hcolumn (.scalar s) c).mp hc
    exact ⟨length, hlength, rfl⟩
  · rintro ⟨length, hlength, rfl⟩
    exact ⟨_, (hcolumn (.scalar s) _).mpr ⟨length, hlength, rfl⟩, rfl⟩

/-- A length that is left out is a length that is null. -/
theorem AroundLength.decode_omitted {absent : Value} (habsent : Gap.Omitted "length" 2 inner absent)
    {text : String} (htext : Value.Document text (outer.fill absent)) : decode text = .ok e := by
  obtain ⟨around, c, rfl, hc, hevent⟩ := h.decodes
  have hnull : Scalar.Spells "null".toList .null := rfl
  have hparse := h.texts.parse_fill hnull
  rw [Gap.fill_comp] at hparse
  have hspellable : (outer.fill absent).Spellable Value.depthLimit :=
    outer.spellable_fill habsent.spellable (Value.exists_parse_iff.mp ⟨_, hparse⟩)
  refine (hevent (Value.parse_of_document htext hspellable)).mpr ⟨c, ?_, rfl⟩
  exact Shape.decode_omitted (.later (by decide) (.later (by decide) (.first rfl))) habsent
    h.length rfl hc

theorem AroundLength.decode_token_iff {token : String} (htoken : Numeral.Form token.toList) :
    ∃ (around : Surroundings) (c : Column), e = around.event c ∧
      Column.shape.decode (inner.fill .null) = .ok c ∧ c.length = none ∧
        ∀ found, decode (front ++ token ++ back) = .ok found ↔ ∃ m : Int32,
          Numeral.Integral token.toList m.toInt ∧
            around.event { c with length := some m } = found := by
  obtain ⟨around, c, he, hc, hlength, hdecode⟩ := h.decode_iff
  refine ⟨around, c, he, hc, hlength, fun found ↦ ⟨fun hfound ↦ ?_, ?_⟩⟩
  · obtain ⟨v, hparse, _⟩ := bind_eq_ok_iff.mp hfound
    obtain ⟨n, hn⟩ := h.texts.exists_spells htoken (mapError_eq_ok_iff.mp hparse)
    have hspells : Scalar.Spells token.toList (.number n) := hn
    obtain ⟨length, hnumber, rfl⟩ := (hdecode hspells).mp hfound
    obtain ⟨m, rfl, rfl⟩ := Column.decode_lengthShape_iff.mp hnumber
    exact ⟨m, Numeral.integral_of_spells hn, rfl⟩
  · rintro ⟨m, hm, rfl⟩
    have hfits : Numeral.FitsWord m.toInt := Atom.integer32.exact_encode m
    have hspells : Scalar.Spells token.toList (.number (.integer m.toInt)) :=
      (Numeral.spells_integer_iff hfits).mpr hm
    exact (hdecode hspells).mpr ⟨some m, Column.decode_lengthShape_iff.mpr ⟨m, rfl, rfl⟩, rfl⟩

/-- Every text of the event with a number for the length has a numeral in such a place. -/
theorem AroundLength.exists_of_parse {text : String} {n : Number}
    (hparse : Value.parse text = .ok (outer.fill (inner.fill (.scalar (.number n))))) :
    ∃ first numeral last : String, text = first ++ numeral ++ last ∧
      Numeral.Form numeral.toList ∧ AroundLength outer inner first last e := by
  have hnull : Scalar.Spells "null".toList .null := rfl
  rw [← Gap.fill_comp] at hparse
  obtain ⟨first, numeral, last, htext, haround, hnumeral⟩ := Gap.exists_around_of_parse hparse
  have hvalid := (decode_eq_ok_iff (h.texts.parse_fill hnull)).mp h.valid
  exact ⟨first, numeral, last, htext, hnumeral.1, h.column, h.length, haround,
    (decode_eq_ok_iff (haround.parse_fill hnull)).mpr hvalid⟩

/-- A numeral in place of the length is taken exactly if it has neither fraction nor exponent, is no
negative zero and has 32 bits. The event is then the one without a length but for this length, which
is the value of the numeral. In the text for the event, the numeral stands in brackets behind the
type of the column if it is positive; otherwise the text is that of a length that is null or
absent. The texts with a numeral in place of the length are all those with a number there. -/
theorem decode_convert_length {token : String} (htoken : Numeral.Form token.toList) :
    ((∃ found, decode (front ++ token ++ back) = .ok found) ↔
        ∃ n, Numeral.Integral token.toList n ∧ -2147483648 ≤ n ∧ n ≤ 2147483647) ∧
      (∀ error, decode (front ++ token ++ back) = .error error → ∃ what, error = .decode what) ∧
      (∀ absent text, Gap.Omitted "length" 2 inner absent →
        Value.Document text (outer.fill absent) → decode text = .ok e) ∧
      (∀ text n, Value.parse text = .ok (outer.fill (inner.fill (.scalar (.number n)))) →
        ∃ first numeral last : String, text = first ++ numeral ++ last ∧
          Numeral.Form numeral.toList ∧ AroundLength outer inner first last e) ∧
      ∃ (around : Surroundings) (c : Column), e = around.event c ∧
        Column.shape.decode (inner.fill .null) = .ok c ∧ c.length = none ∧
        ∀ found, decode (front ++ token ++ back) = .ok found → ∃ m : Int32,
          Numeral.Integral token.toList m.toInt ∧
            found = around.event { c with length := some m } ∧
            ∀ s : Synthesizer, (m.toInt ≤ 0 → s.convert found = s.convert e) ∧
              (0 < m.toInt → ∃ left right,
                (∀ other, s.convert (around.event other) =
                  left ++ s.dialect.columnClause s.rename other ++ right) ∧
                s.convert found = left ++ s.dialect.clause
                  (s.dialect.quoted (s.rename c.name) ++ " " ++ c.typeName ++ bracketed token ++
                    c.defaultText ++ c.nullabilityText) ++ right) := by
  obtain ⟨around, c, rfl, hc, hlength, hdecode⟩ := h.decode_token_iff htoken
  refine ⟨⟨?_, ?_⟩, fun error herror ↦ exists_decode_error herror,
    fun absent text habsent htext ↦ h.decode_omitted habsent htext,
    fun text n hparse ↦ h.exists_of_parse hparse, around, c, rfl, hc, hlength,
    fun found hfound ↦ ?_⟩
  · rintro ⟨found, hfound⟩
    obtain ⟨m, hm, _⟩ := (hdecode found).mp hfound
    have hlow := m.le_toInt
    have hhigh := m.toInt_lt
    exact ⟨m.toInt, hm, by omega, by omega⟩
  · rintro ⟨n, hn, hlow, hhigh⟩
    have hkept : (Int32.ofInt n).toInt = n := Int32.toInt_ofInt_of_le hlow (by omega)
    exact ⟨_, (hdecode _).mpr ⟨Int32.ofInt n, by rwa [hkept], rfl⟩⟩
  · obtain ⟨m, hm, rfl⟩ := (hdecode found).mp hfound
    refine ⟨m, hm, rfl, fun s ↦ ?_⟩
    obtain ⟨left, right, hconvert⟩ := s.exists_convert_around around
    have htext : { c with length := some m }.lengthText = _ := Column.lengthText_of_integral hm
    have hnone : c.lengthText = "" := by rw [Column.lengthText, hlength]
    refine ⟨fun hneg ↦ ?_, fun hpos ↦ ⟨left, right, hconvert, ?_⟩⟩
    · rw [if_neg (Int.not_lt.mpr hneg)] at htext
      rw [hconvert, hconvert, Dialect.columnClause, Dialect.columnClause, htext, hnone]
      rfl
    · rw [if_pos hpos] at htext
      rw [hconvert, Dialect.columnClause, htext]
      rfl

end Length

/-- An event with a column of one number, up to the length of the column. -/
def numberFront : String :=
  r#"[["app", "t"], [["CREATE", [["# ++ "\x7b" ++ r#""name": "id", "typeName": "NUMBER", "length": "#

/-- The event behind the length. -/
def numberBack : String :=
  r#", "optional": true"# ++ "\x7d" ++ r#"], ["id"]]]]]"#

/-- The place of the column in the event. -/
def numberColumn : Gap :=
  .item [.array [.text "app", .text "t"]]
    (.item [] (.item [.text "CREATE"] (.item [] (.item [] .here []) [.array [.text "id"]]) []) []) []

/-- The place of the length in the column. -/
def numberLength : Gap :=
  .member [("name", .text "id"), ("typeName", .text "NUMBER")] "length" .here
    [("optional", .scalar (.boolean true))]

/-- The event with null for the length. -/
def numberEvent : ChangeEvent :=
  ⟨⟨"app", "t"⟩, [⟨.create, ⟨[⟨"id", "NUMBER", none, none, true⟩], ["id"], [], [], []⟩⟩]⟩

theorem placesColumn_numberColumn : PlacesColumn numberColumn := by
  refine .bare (.mk (.item _ _ rfl) (.item _ _ rfl) (.item _ _ rfl)) ?_
  intro v members hobject
  cases hobject

theorem around_numberLength : (numberColumn.comp numberLength).Around Value.depthLimit
    numberFront.toList numberBack.toList := by
  have hblank : Blank [' '] := List.forall_mem_singleton.mpr rfl
  have hname : Keyed (Value.Spells 121) _ ("name", .text "id") :=
    Value.keyed_of_read blank_nil "name" r#" "id""# rfl
  have htype : Keyed (Value.Spells 121) _ ("typeName", .text "NUMBER") :=
    Value.keyed_of_read hblank "typeName" r#" "NUMBER""# rfl
  have hoptional : Keyed (Value.Spells 121) _ ("optional", .scalar (.boolean true)) :=
    Value.keyed_of_read hblank "optional" " true" rfl
  have hkey : Between (Value.Spells 123) _ (.array [.text "id"]) :=
    Value.between_of_read r#" ["id"]"# rfl
  have hkind : Between (Value.Spells 124) _ (.text "CREATE") :=
    Value.between_of_read r#""CREATE""# rfl
  have hsource : Between (Value.Spells 126) _ (.array [.text "app", .text "t"]) :=
    Value.between_of_read r#"["app", "t"]"# rfl
  have hlength : numberLength.Around 122 _ _ := .member blank_nil (.cons hname (.cons htype .nil))
    hblank (Quoted.says_write "length") blank_nil (.here hblank blank_nil) (.cons hoptional .nil)
    blank_nil
  have htable : Gap.Around 124 _ _ _ :=
    .item hblank .nil (.item blank_nil .nil hlength .nil blank_nil) (.cons hkey .nil) blank_nil
  have hevent : (numberColumn.comp numberLength).Around Value.depthLimit _ _ :=
    .item blank_nil (.cons hsource .nil)
      (.item hblank .nil (.item blank_nil (.cons hkind .nil) htable .nil blank_nil) .nil blank_nil)
      .nil blank_nil
  convert hevent using 1
  · decide +kernel
  · decide +kernel

theorem aroundLength_number :
    AroundLength numberColumn numberLength numberFront numberBack numberEvent where
  column := placesColumn_numberColumn
  length := .member _ _ (by simp)
  texts := around_numberLength
  valid := by decide +kernel

/-- The largest length of all. -/
theorem decode_convert_length_numberEvent :
    AroundLength numberColumn numberLength numberFront numberBack numberEvent ∧
      Numeral.Form "2147483647".toList ∧
      ∃ found, decode (numberFront ++ "2147483647" ++ numberBack) = .ok found ∧
        ∀ s : Synthesizer, ∃ left right, ∃ c : Column, s.convert found = left ++ s.dialect.clause
          (s.dialect.quoted (s.rename c.name) ++ " " ++ c.typeName ++ bracketed "2147483647" ++
            c.defaultText ++ c.nullabilityText) ++ right := by
  have htoken : Numeral.Integral "2147483647".toList 2147483647 :=
    Numeral.integral_iff.mpr (by rfl)
  have hform := htoken.form
  obtain ⟨htaken, -, -, -, around, c, -, -, -, hfound⟩ := decode_convert_length aroundLength_number hform
  obtain ⟨found, hdecode⟩ := htaken.mpr ⟨_, htoken, by decide, by decide⟩
  obtain ⟨m, hm, -, hconvert⟩ := hfound found hdecode
  have hpos : 0 < m.toInt := by
    rw [← htoken.unique hm]
    decide
  refine ⟨aroundLength_number, hform, found, hdecode, fun s ↦ ?_⟩
  obtain ⟨left, right, -, htext⟩ := (hconvert s).2 hpos
  exact ⟨left, right, c, htext⟩

end ChangeEvent

end ChangeDdl
