import ChangeDdl.Proofs.Event.Envelope
import ChangeDdl.Proofs.Event.RoundTrip
import ChangeDdl.Proofs.Json.Forms
import ChangeDdl.Proofs.Json.Overfull

/-!
Events by position. Every record of an event in a feed, be it the event itself, its source, a
change, a table or a definition in it, may be given as an array of its fields or as an object,
whichever form the others have: each such text holds the event (`ChangeEvent.decode_of_forms`). A
text with one more item behind a full array holds none.
-/

set_option autoImplicit false
set_option relaxedAutoImplicit false

namespace ChangeDdl

open Json

/-- One more item in an array makes no envelope. -/
theorem bare_of_overfills {α : Type} {shape : Shape α} {v w : Value} (h : shape.Overfills v w)
    (hv : Bare v) : Bare w := by
  induction h with
  | nullable _ ih => exact ih hv
  | here | item | fieldItem => nofun
  | fieldMember before after hfield hlast h ih =>
    rintro _ heq hmem
    refine hv _ rfl ?_
    rw [← Value.object.inj heq] at hmem
    simpa using hmem

namespace ChangeEvent

/-- No form of an event is an envelope. -/
theorem bare_of_forms {v : Value} {e : ChangeEvent} (h : shape.Forms v e) : Bare v := by
  rintro members rfl hmem
  obtain ⟨values, hvalues, _⟩ | ⟨found, ordered, hfound, hperm, hmembers⟩ := h
  · simp at hvalues
  · obtain rfl := Value.object.inj hfound
    have hkey := (Fields.keys_sublist_of_forms _ hmembers).subset
      ((hperm.map Prod.fst).mem_iff.mp hmem)
    exact absurd hkey (by decide)

theorem spellable_of_forms {v : Value} {e : ChangeEvent} (h : shape.Forms v e) :
    v.Spellable Value.depthLimit :=
  Value.exists_parse_iff.mp
    ⟨v.print, Value.parse_print ((shape.fits_of_forms h).mono depth_shape)⟩

/-- Each form of an event has a text, and all its texts hold the event. With one more item behind
any of its full arrays, none of the texts holds an event. -/
theorem decode_of_forms {v : Value} {e : ChangeEvent} (h : shape.Forms v e) :
    (∃ text, Value.Document text v) ∧ (∀ text, Value.Document text v → decode text = .ok e) ∧
      ∀ w, shape.Overfills v w → ∀ text, Value.Document text w →
        ∃ error, decode text = .error error := by
  have hspellable := spellable_of_forms h
  have hbare := bare_of_forms h
  refine ⟨?_, fun text htext ↦ ?_, fun w hw text htext ↦ ?_⟩
  · obtain ⟨text, htext⟩ := Value.exists_parse_iff.mpr hspellable
    exact ⟨text, Value.document_of_parse htext⟩
  · have hmeans := shape.means_of_forms faithful_shape h
    have hdecode := (shape.agrees entryFree_shape).decode_of_means hmeans
    rw [decode_of_parse_bare (Value.parse_of_document htext hspellable) hbare, hdecode]
    rfl
  · cases hrun : decode text with
    | error error => exact ⟨error, rfl⟩
    | ok found =>
      obtain ⟨u, hparse, hvalue⟩ := bind_eq_ok_iff.mp hrun
      have hu := mapError_eq_ok_iff.mp hparse
      have hdecode := mapError_eq_ok_iff.mp hvalue
      obtain rfl := (Value.document_of_parse hu).unique htext
      rw [ofValue, payload_of_bare (bare_of_overfills hw hbare)] at hdecode
      exact absurd hdecode (hw.decode_ne_ok found)

/-- An event as an array, in which the change and its table are arrays, too, and something may
stand behind the change. The table ends behind its key and one of its columns behind its type; the
other column and the source are objects. -/
def positionalText (behind : String) : String :=
  r#"[{"table": "t", "schema": "app"}, [["ALTER",
    [[["id", "INT"], {"optional": true, "length": 5, "typeName": "TEXT", "name": "n"}], ["id"]]"# ++
    behind ++ "]]]"

def sourceFields : Members := [("schema", .text "app"), ("table", .text "t")]

def columnFields : Members :=
  [("name", .text "n"), ("typeName", .text "TEXT"), ("length", .scalar (.number (.integer 5))),
    ("optional", .scalar (.boolean true))]

def tableForm : Value :=
  .array [.array [.array [.text "id", .text "INT"], .object columnFields.reverse],
    .array [.text "id"]]

/-- The whole value, with these items behind the change. -/
def eventForm (behind : List Value) : Value :=
  .array [.object sourceFields.reverse, .array [.array ([.text "ALTER", tableForm] ++ behind)]]

def positionalEvent : ChangeEvent :=
  ⟨⟨"app", "t"⟩, [⟨.alter,
    ⟨[⟨"id", "INT", none, none, false⟩, ⟨"n", "TEXT", some 5, none, true⟩], ["id"], [], [], []⟩⟩]⟩

theorem forms_eventForm : shape.Forms (eventForm []) positionalEvent := by
  have hsource : Source.shape.Forms (.object sourceFields.reverse) ⟨"app", "t"⟩ :=
    Or.inr ⟨_, sourceFields, rfl, List.reverse_perm _,
      Or.inr ⟨_, _, rfl, rfl, Or.inr ⟨_, _, rfl, rfl, rfl⟩⟩⟩
  -- All fields of this column are members but its default, which it has not.
  have hcolumn : Column.shape.Forms (.object columnFields.reverse)
      ⟨"n", "TEXT", some 5, none, true⟩ :=
    Or.inr ⟨_, columnFields, rfl, List.reverse_perm _,
      Or.inr ⟨_, _, rfl, rfl, Or.inr ⟨_, _, rfl, rfl, Or.inr ⟨_, _, rfl, rfl,
        Or.inl ⟨rfl, Or.inr ⟨_, _, rfl, rfl, rfl⟩⟩⟩⟩⟩⟩
  have hid : Column.shape.Forms (.array [.text "id", .text "INT"])
      ⟨"id", "INT", none, none, false⟩ :=
    Or.inl ⟨_, rfl, rfl, rfl, rfl, rfl, rfl, rfl⟩
  have htable : Table.shape.Forms tableForm
      ⟨[⟨"id", "INT", none, none, false⟩, ⟨"n", "TEXT", some 5, none, true⟩], ["id"], [], [], []⟩ :=
    Or.inl ⟨_, rfl, ⟨_, rfl, .cons hid (.cons hcolumn .nil)⟩, ⟨_, rfl, .cons rfl .nil⟩,
      rfl, rfl, rfl, rfl⟩
  have hchange : TableChange.shape.Forms (.array [.text "ALTER", tableForm]) ⟨.alter, _⟩ :=
    Or.inl ⟨_, rfl, rfl, htable, rfl⟩
  exact Or.inl ⟨_, rfl, hsource, ⟨_, rfl, .cons hchange .nil⟩, rfl⟩

theorem overfills_eventForm : shape.Overfills (eventForm []) (eventForm [.null]) :=
  .fieldItem [.object sourceFields.reverse] [] (.later .first) (.item [] [] (.here rfl .null))

set_option maxRecDepth 10000 in
/-- The change is a full array, and a null behind it is one item too many. -/
theorem decode_of_forms_positionalText :
    shape.Forms (eventForm []) positionalEvent ∧ decode (positionalText "") = .ok positionalEvent ∧
      shape.Overfills (eventForm []) (eventForm [.null]) ∧
      Value.Document (positionalText ", null") (eventForm [.null]) ∧
      ∃ error, decode (positionalText ", null") = .error error := by
  have hparse : Value.parse (positionalText "") = .ok (eventForm []) := by rfl
  have hoverfull : Value.parse (positionalText ", null") = .ok (eventForm [.null]) := by rfl
  have hdocument := Value.document_of_parse hoverfull
  obtain ⟨_, hdecode, hfails⟩ := decode_of_forms forms_eventForm
  exact ⟨forms_eventForm, hdecode _ (Value.document_of_parse hparse), overfills_eventForm,
    hdocument, hfails _ overfills_eventForm _ hdocument⟩

end ChangeEvent

end ChangeDdl
