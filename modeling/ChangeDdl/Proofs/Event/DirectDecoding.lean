import ChangeDdl.Event.Encoding
import ChangeDdl.Proofs.Json.Agreement

/-!
Two ways to an event. A text without an envelope can also be read directly, in the order of the
text and without a tree. Where both ways apply they lead to the same event
(`ChangeEvent.decode_agrees_parse`).
-/

set_option autoImplicit false
set_option relaxedAutoImplicit false

namespace ChangeDdl

open Json

/-- Only an object with a payload is an envelope. -/
theorem payload_of_bare {v : Value}
    (hbare : ∀ members, v = .object members → "payload" ∉ members.map Prod.fst) :
    payload v = v := by
  cases v with
  | scalar s => rfl
  | array values => rfl
  | object members =>
    have hreverse : "payload" ∉ members.reverse.map Prod.fst := by
      rw [List.map_reverse, List.mem_reverse]
      exact hbare members rfl
    rw [payload, Members.last?, Members.lookup_of_not_mem hreverse]
    rfl

namespace ChangeEvent

theorem entryFree_shape : shape.EntryFree := by
  simp [shape, Shape.EntryFree, Fields.EntryFree, Source.shape, TableChange.shape,
    ChangeKind.shape, Table.shape, Column.shape, ForeignKey.shape, UniqueConstraint.shape,
    CheckConstraint.shape]

/-- On a text that is no envelope, decoding the tree and reading directly give the same event: the
reader follows the decoder if no object repeats a key, the decoder the reader if there is a tree. -/
theorem decode_agrees_parse {text : String} (hbare : ∀ members,
      Value.parse text = .ok (.object members) → "payload" ∉ members.map Prod.fst)
    (e : ChangeEvent) :
    ((∀ v, Value.parse text = .ok v → v.Distinct) →
        decode text = .ok e → shape.parse text = .ok e) ∧
      ((∃ v, Value.parse text = .ok v) → shape.parse text = .ok e → decode text = .ok e) := by
  have hvalue : ∀ v, Value.parse text = .ok v → ofValue v = shape.decode v := by
    intro v hv
    rw [ofValue, payload_of_bare]
    rintro members rfl
    exact hbare members hv
  constructor
  · intro hdistinct he
    obtain ⟨v, hparsed, hdecoded⟩ := bind_eq_ok_iff.mp he
    have hv := mapError_eq_ok_iff.mp hparsed
    have hshape := mapError_eq_ok_iff.mp hdecoded
    rw [hvalue v hv] at hshape
    exact (shape.parse_agrees entryFree_shape hv e).1 (hdistinct v hv) hshape
  · rintro ⟨v, hv⟩ he
    have hshape := (shape.parse_agrees entryFree_shape hv e).2 he
    rw [← hvalue v hv] at hshape
    exact bind_eq_ok_iff.mpr ⟨v, mapError_eq_ok_iff.mpr hv, mapError_eq_ok_iff.mpr hshape⟩

/-- A text whose parts take other forms than those an event is written in. -/
def foreignText : String :=
  r#"{"note": [{"payload": 1}, -2],
    "tableChanges": [{"type": {"DROP": null}, "table": [[["id", "INT", null]]]}],
    "source": ["app", "t"]}"#

def foreignValue : Value :=
  .object
    [("note", .array [.object [("payload", .scalar (.number (.integer 1)))],
        .scalar (.number (.integer (-2)))]),
      ("tableChanges", .array [.object
        [("type", .object [("DROP", .null)]),
          ("table", .array [.array [.array [.text "id", .text "INT", .null]]])]]),
      ("source", .array [.text "app", .text "t"])]

def foreignEvent : ChangeEvent where
  source := ⟨"app", "t"⟩
  changes := [⟨.drop, Table.empty.addColumn ⟨"id", "INT", none, none, false⟩⟩]

set_option maxRecDepth 10000 in
/-- The text is no envelope, repeats no key, and both ways lead to the event. -/
theorem decode_agrees_parse_foreignText :
    (∀ members, Value.parse foreignText = .ok (.object members) →
        "payload" ∉ members.map Prod.fst) ∧
      (∀ v, Value.parse foreignText = .ok v → v.Distinct) ∧
      decode foreignText = .ok foreignEvent ∧ shape.parse foreignText = .ok foreignEvent := by
  have hvalue : Value.parse foreignText = .ok foreignValue := by rfl
  have hbare : ∀ members, Value.parse foreignText = .ok (.object members) →
      "payload" ∉ members.map Prod.fst := by
    intro members hmembers
    obtain rfl := Value.object.inj (Except.ok.inj (hvalue.symm.trans hmembers))
    decide
  have hdistinct : ∀ v, Value.parse foreignText = .ok v → v.Distinct := by
    intro v hv
    obtain rfl := Except.ok.inj (hvalue.symm.trans hv)
    simp [foreignValue]
  obtain ⟨hparse, hdecode⟩ := decode_agrees_parse hbare foreignEvent
  have he : decode foreignText = .ok foreignEvent := hdecode ⟨_, hvalue⟩ rfl
  exact ⟨hbare, hdistinct, he, hparse hdistinct he⟩

end ChangeEvent

end ChangeDdl
