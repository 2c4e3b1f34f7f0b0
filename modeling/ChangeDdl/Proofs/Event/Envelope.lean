import ChangeDdl.Proofs.Event.DirectDecoding
import ChangeDdl.Proofs.Json.Extension

/-!
Envelopes. An envelope is taken off once: the event is what its last payload decodes to, whatever
else the envelope holds, and a payload inside the payload is a member like any other that no event
has (`ChangeEvent.decode_envelope`).
-/

set_option autoImplicit false
set_option relaxedAutoImplicit false

namespace ChangeDdl

open Json

/-- The value is no envelope. -/
def Bare (v : Value) : Prop :=
  ∀ members, v = .object members → "payload" ∉ members.map Prod.fst

theorem payload_envelope {before after : Members} {p : Value}
    (hafter : "payload" ∉ after.map Prod.fst) :
    payload (.object (before ++ ("payload", p) :: after)) = p := by
  rw [payload, Members.last?, Members.lookup_reverse_of_last hafter, Option.getD_some]

theorem bare_filter (members : Members) :
    Bare (.object (members.filter fun m ↦ m.1 ≠ "payload")) := by
  rintro _ heq hmem
  obtain ⟨m, hm, hkey⟩ := List.mem_map.mp (Value.object.inj heq ▸ hmem)
  exact of_decide_eq_true (List.mem_filter.mp hm).2 hkey

namespace ChangeEvent

variable {text : String} {v : Value}

theorem decode_of_parse (hparse : Value.parse text = .ok v) :
    decode text = (ofValue v).mapError fun what ↦ .decode (.ofMismatch what) := by
  rw [decode, hparse]
  rfl

theorem decode_of_parse_bare (hparse : Value.parse text = .ok v) (hbare : Bare v) :
    decode text = (shape.decode v).mapError fun what ↦ .decode (.ofMismatch what) := by
  rw [decode_of_parse hparse, ofValue, payload_of_bare hbare]

theorem decode_of_parse_envelope {before after : Members} {p : Value}
    (hparse : Value.parse text = .ok (.object (before ++ ("payload", p) :: after)))
    (hafter : "payload" ∉ after.map Prod.fst) :
    decode text = (shape.decode p).mapError fun what ↦ .decode (.ofMismatch what) := by
  rw [decode_of_parse hparse, ofValue, payload_envelope hafter]

/-- Payloads inside an event are ignored. -/
theorem decode_filter_payload (members : Members) :
    shape.decode (.object (members.filter fun m ↦ m.1 ≠ "payload")) =
      shape.decode (.object members) := by
  refine Shape.decode_congr_own ?_
  rw [Fields.own, Fields.own, List.filter_filter]
  refine List.filter_congr fun m _ ↦ ?_
  by_cases hm : m.1 = "payload"
  · rw [hm]
    decide
  · simp [hm]

theorem spellable_of_envelope {before after : Members} {p : Value}
    (hparse : Value.parse text = .ok (.object (before ++ ("payload", p) :: after))) :
    p.Spellable Value.depthLimit := by
  obtain ⟨inner, hdepth, hmembers⟩ :=
    Value.spellable_object_iff.mp (Value.exists_parse_iff.mp ⟨text, hparse⟩)
  have hp : p.Spellable inner := hmembers ("payload", p) (by simp)
  exact hp.mono (by omega)

/-- The event of an envelope is that of its last payload. A payload that is no envelope, and one
that is after its own payloads are left out, has a text, and each such text holds the same event
or fails in the same way. -/
theorem decode_envelope {before after : Members} {p : Value}
    (hparse : Value.parse text = .ok (.object (before ++ ("payload", p) :: after)))
    (hafter : "payload" ∉ after.map Prod.fst) :
    decode text = (shape.decode p).mapError (fun what ↦ .decode (.ofMismatch what)) ∧
      (Bare p → (∃ inner, Value.parse inner = .ok p) ∧
        ∀ inner, Value.parse inner = .ok p → decode text = decode inner) ∧
      ∀ members, p = .object members →
        (∃ inner, Value.parse inner =
            .ok (.object (members.filter fun m ↦ m.1 ≠ "payload"))) ∧
          ∀ inner, Value.parse inner =
              .ok (.object (members.filter fun m ↦ m.1 ≠ "payload")) →
            decode text = decode inner := by
  have henvelope := decode_of_parse_envelope hparse hafter
  have hspellable := spellable_of_envelope hparse
  refine ⟨henvelope, fun hbare ↦ ⟨Value.exists_parse_iff.mpr hspellable, ?_⟩, ?_⟩
  · intro inner hinner
    rw [henvelope, decode_of_parse_bare hinner hbare]
  · rintro members rfl
    have hsubset : (members.filter fun m ↦ m.1 ≠ "payload") ⊆ members :=
      List.filter_sublist.subset
    refine ⟨Value.exists_parse_iff.mpr (hspellable.object_subset hsubset), ?_⟩
    intro inner hinner
    rw [henvelope, decode_of_parse_bare hinner (bare_filter members), decode_filter_payload]

/-- An envelope in an envelope, with an earlier payload beside it. -/
def nestedText : String :=
  r#"{"payload": 3, "ts": [null],
    "payload": {"payload": {"source": 0}, "source": ["app", "t"], "payload": null},
    "op": "c"}"#

def nestedMembers : Members :=
  [("payload", .object [("source", .scalar (.number (.integer 0)))]),
    ("source", .array [.text "app", .text "t"]), ("payload", .null)]

/-- The text of the payload without its own payloads. -/
def innerText : String :=
  r#"{"source": ["app", "t"]}"#

set_option maxRecDepth 10000 in
/-- The inner payloads are not taken for events. -/
theorem decode_envelope_nestedText :
    Value.parse nestedText = .ok (.object
        ([("payload", .scalar (.number (.integer 3))), ("ts", .array [.null])] ++
          ("payload", .object nestedMembers) :: [("op", .text "c")])) ∧
      decode nestedText = decode innerText ∧ decode nestedText = .ok ⟨⟨"app", "t"⟩, []⟩ := by
  have hparse : Value.parse nestedText = .ok (.object
      ([("payload", .scalar (.number (.integer 3))), ("ts", .array [.null])] ++
        ("payload", .object nestedMembers) :: [("op", .text "c")])) := by rfl
  have hinner : Value.parse innerText =
      .ok (.object (nestedMembers.filter fun m ↦ m.1 ≠ "payload")) := by rfl
  obtain ⟨hdecode, _, hobject⟩ := decode_envelope hparse (by decide)
  exact ⟨hparse, (hobject nestedMembers rfl).2 innerText hinner, hdecode⟩

end ChangeEvent

end ChangeDdl
