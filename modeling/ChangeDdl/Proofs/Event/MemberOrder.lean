import ChangeDdl.Proofs.Event.Envelope
import ChangeDdl.Proofs.Json.Rearrangement

/-!
The order of members in a feed. Members may come in any order, and of several with one key the last
one counts, in the envelope, in the event and in everything inside it: a text and any rearrangement
of it hold the same event, or hold none for the same reason (`ChangeEvent.decode_rearranged`).
-/

set_option autoImplicit false
set_option relaxedAutoImplicit false

namespace ChangeDdl

open Json

theorem alike_payload_of_last {members others : Members}
    (h : (Value.object members).Alike (.object others))
    (hlast : members.last? "payload" = others.last? "payload") :
    (payload (.object members)).Alike (payload (.object others)) := by
  rw [payload, payload, hlast]
  cases others.last? "payload" with
  | none => exact h
  | some p => exact .refl p

/-- Rearranged envelopes have payloads that are decoded alike. -/
theorem alike_payload {v w : Value} (h : v.Rearranges w) : (payload v).Alike (payload w) := by
  cases h with
  | exchange before after hkeys =>
    exact alike_payload_of_last (Value.Rearranges.exchange before after hkeys).alike
      (Members.last?_exchange "payload" before after hkeys)
  | drop before after hlater =>
    exact alike_payload_of_last (Value.Rearranges.drop before after hlater).alike
      (Members.last?_drop "payload" before after hlater)
  | item before after h => exact (Value.Rearranges.item before after h).alike
  | @member before after key v w h =>
    have hwhole := (Value.Rearranges.member before after key h).alike
    by_cases hlater : "payload" ∈ after.map Prod.fst
    · obtain ⟨p, hp⟩ := Members.exists_last?_eq_some hlater
      refine alike_payload_of_last hwhole ?_
      rw [Members.last?_append, Members.last?_append, Members.last?_cons, Members.last?_cons, hp]
      rfl
    · by_cases hkey : key = "payload"
      · rw [hkey, payload_envelope hlater, payload_envelope hlater]
        exact h.alike
      · refine alike_payload_of_last hwhole ?_
        rw [Members.last?_append, Members.last?_append, Members.last?_cons, Members.last?_cons,
          if_neg (Ne.symm hkey), if_neg (Ne.symm hkey)]

namespace ChangeEvent

theorem ofValue_of_rearranged {v w : Value} (h : v.Rearranged w) : ofValue v = ofValue w := by
  induction h with
  | refl => rfl
  | tail _ hlast ih => exact ih.trans ((alike_payload hlast).decode_eq shape)

/-- A rearrangement of a value that can be parsed has a text, and each of its texts holds the event
that the texts of the value hold, or fails to hold one for the same reason. -/
theorem decode_rearranged {text : String} {v w : Value} (hparse : Value.parse text = .ok v)
    (h : v.Rearranged w) :
    (∃ other, Value.Document other w) ∧
      ∀ other, Value.Document other w → decode text = decode other := by
  have hspellable : w.Spellable Value.depthLimit :=
    Value.spellable_of_rearranged h (Value.exists_parse_iff.mp ⟨text, hparse⟩)
  constructor
  · obtain ⟨other, hother⟩ := Value.exists_parse_iff.mpr hspellable
    exact ⟨other, Value.document_of_parse hother⟩
  · intro other hother
    rw [decode_of_parse hparse, decode_of_parse (Value.parse_of_document hother hspellable),
      ofValue_of_rearranged h]

/-- An envelope whose first payload is overruled, and so is the first type of its column. -/
def shuffledText : String :=
  r#"{"payload": 0, "payload": {
    "tableChanges": [{"table":
      {"columns": [{"typeName": "TEXT", "name": "id", "typeName": "INT"}]}}],
    "source": ["app", "t"]}}"#

def tidyText : String :=
  r#"{"payload": {"source": ["app", "t"],
    "tableChanges": [{"table": {"columns": [{"name": "id", "typeName": "INT"}]}}]}}"#

def idMembers : Members := [("name", .text "id"), ("typeName", .text "INT")]

def changesMember (column : Members) : String × Value :=
  ("tableChanges", .array [.object [("table", .object [("columns", .array [.object column])])]])

def sourceMember : String × Value := ("source", .array [.text "app", .text "t"])

def shuffledValue : Value :=
  .object [("payload", .scalar (.number (.integer 0))),
    ("payload", .object [changesMember (("typeName", .text "TEXT") :: idMembers), sourceMember])]

def tidyValue : Value :=
  .object [("payload", .object [sourceMember, changesMember idMembers])]

theorem rearranged_shuffledValue : shuffledValue.Rearranged tidyValue := by
  have hpayload : shuffledValue.Rearranges (.object [("payload",
      .object [changesMember (("typeName", .text "TEXT") :: idMembers), sourceMember])]) :=
    .drop [] _ (by decide)
  have hcolumn : Value.Rearranges (.object (("typeName", .text "TEXT") :: idMembers))
      (.object idMembers) := .drop [] idMembers (by decide)
  have htype : Value.Rearranges
      (.object [changesMember (("typeName", .text "TEXT") :: idMembers), sourceMember])
      (.object [changesMember idMembers, sourceMember]) :=
    .member [] [sourceMember] "tableChanges"
      (.item [] [] (.member [] [] "table" (.member [] [] "columns" (.item [] [] hcolumn))))
  have hparts : Value.Rearranges (.object [changesMember idMembers, sourceMember])
      (.object [sourceMember, changesMember idMembers]) := .exchange [] [] (by decide)
  exact ((Relation.ReflTransGen.single hpayload).tail (.member [] [] "payload" htype)).tail
    (.member [] [] "payload" hparts)

set_option maxRecDepth 10000 in
/-- Two members are left out and two exchange their places. -/
theorem decode_rearranged_shuffledText :
    Value.parse shuffledText = .ok shuffledValue ∧ shuffledValue.Rearranged tidyValue ∧
      Value.Document tidyText tidyValue ∧ decode shuffledText = decode tidyText ∧
      decode tidyText = .ok
        ⟨⟨"app", "t"⟩, [⟨.create, Table.empty.addColumn ⟨"id", "INT", none, none, false⟩⟩]⟩ := by
  have hparse : Value.parse shuffledText = .ok shuffledValue := by rfl
  have htidy : Value.parse tidyText = .ok tidyValue := by rfl
  have hdocument := Value.document_of_parse htidy
  have hsame := (decode_rearranged hparse rearranged_shuffledValue).2 tidyText hdocument
  refine ⟨hparse, rearranged_shuffledValue, hdocument, hsame, ?_⟩
  rw [decode_of_parse htidy]
  rfl

end ChangeEvent

end ChangeDdl
