import ChangeDdl.Proofs.Event.Envelope

/-!
Members of a feed that an event does not know. Whoever writes a feed may add members to the objects
of an event, in an envelope or bare; the event stays the same, and so does the reason for which a
text holds none (`ChangeEvent.decode_extension`).
-/

set_option autoImplicit false
set_option relaxedAutoImplicit false

namespace ChangeDdl

open Json

namespace ChangeEvent

/-- The second value is the first with further members in the objects of the event. A key that one
part of an event knows may be added to another part. The addition of a payload would make an
envelope of a bare event. -/
inductive Extends : Value → Value → Prop where
  | bare {v w : Value} (hv : Bare v) (hw : Bare w) (h : shape.Extends v w) : Extends v w
  | envelope (before after : Members) {v w : Value} (hafter : "payload" ∉ after.map Prod.fst)
    (h : shape.Extends v w) : Extends (.object (before ++ ("payload", v) :: after))
      (.object (before ++ ("payload", w) :: after))

variable {v w : Value}

theorem Extends.payload (h : Extends v w) :
    shape.Extends (ChangeDdl.payload v) (ChangeDdl.payload w) := by
  cases h with
  | bare hv hw h => rwa [payload_of_bare hv, payload_of_bare hw]
  | envelope before after hafter h => rwa [payload_envelope hafter, payload_envelope hafter]

theorem Extends.spellable (h : Extends v w) {depth : Nat} (hw : w.Spellable depth) :
    v.Spellable depth := by
  cases h with
  | bare _ _ h => exact Shape.spellable_of_extends h hw
  | envelope before after _ h => exact hw.object_replace (Shape.spellable_of_extends h)

/-- A text with further members holds the event that the text without them holds, or fails to hold
one for the same reason. -/
theorem decode_extension (h : Extends v w) {text : String} (hparse : Value.parse text = .ok w) :
    (∃ original, Value.parse original = .ok v) ∧
      ∀ original, Value.parse original = .ok v → decode text = decode original := by
  constructor
  · exact Value.exists_parse_iff.mpr (h.spellable (Value.exists_parse_iff.mp ⟨text, hparse⟩))
  · intro original horiginal
    rw [decode_of_parse hparse, decode_of_parse horiginal, ofValue, ofValue,
      Shape.decode_of_extends h.payload]

def plainText : String :=
  r#"{"payload": {"source": {"schema": "app", "table": "t"},
    "tableChanges": [["DROP", {"columns": [{"name": "id", "typeName": "INT"}]}]]}}"#

/-- The same with a payload in the event, columns in its source and a table in its column. -/
def extendedText : String :=
  r#"{"payload": {"source": {"schema": "app", "columns": 0, "table": "t"}, "payload": [],
    "tableChanges": [["DROP", {"columns": [{"table": {}, "name": "id", "typeName": "INT"}]}]]}}"#

def sourceMembers (more : Members) : Members :=
  ("schema", .text "app") :: (more ++ [("table", .text "t")])

def columnMembers (more : Members) : Members :=
  more ++ [("name", .text "id"), ("typeName", .text "INT")]

def changeValue (more : Members) : Value :=
  .array [.text "DROP", .object [("columns", .array [.object (columnMembers more)])]]

def eventMembers (inSource inEvent inColumn : Members) : Members :=
  ("source", .object (sourceMembers inSource)) ::
    (inEvent ++ [("tableChanges", .array [changeValue inColumn])])

def addedToSource : Members := [("columns", .scalar (.number (.integer 0)))]

def addedToEvent : Members := [("payload", .array [])]

def addedToColumn : Members := [("table", .object [])]

theorem extends_eventMembers :
    shape.Extends (.object (eventMembers [] [] []))
      (.object (eventMembers addedToSource addedToEvent addedToColumn)) := by
  have hsource : Source.shape.Gains (.object (sourceMembers []))
      (.object (sourceMembers addedToSource)) :=
    .here [("schema", .text "app")] [("table", .text "t")] _ (by decide)
  have hcolumn : Column.shape.Gains (.object (columnMembers []))
      (.object (columnMembers addedToColumn)) :=
    .here [] (columnMembers []) _ (by decide)
  have hchange : TableChange.shape.Gains (changeValue []) (changeValue addedToColumn) :=
    .fieldItem [.text "DROP"] [] (.later .first)
      (.fieldMember [] [] .first (.item [] [] hcolumn))
  have hfirst : shape.Gains (.object (eventMembers [] [] []))
      (.object (eventMembers addedToSource [] [])) :=
    .fieldMember [] [("tableChanges", .array [changeValue []])] .first hsource
  have hsecond : shape.Gains (.object (eventMembers addedToSource [] []))
      (.object (eventMembers addedToSource addedToEvent [])) :=
    .here [("source", .object (sourceMembers addedToSource))]
      [("tableChanges", .array [changeValue []])] _ (by decide)
  have hthird : shape.Gains (.object (eventMembers addedToSource addedToEvent []))
      (.object (eventMembers addedToSource addedToEvent addedToColumn)) :=
    .fieldMember (("source", .object (sourceMembers addedToSource)) :: addedToEvent) []
      (.later (by decide) .first) (.item [] [] hchange)
  exact ((Relation.ReflTransGen.single hfirst).tail hsecond).tail hthird

set_option maxRecDepth 10000 in
/-- Three parts of the event gain a member each. -/
theorem decode_extension_extendedText :
    Extends (.object [("payload", .object (eventMembers [] [] []))])
        (.object [("payload", .object (eventMembers addedToSource addedToEvent addedToColumn))]) ∧
      decode extendedText = decode plainText ∧
      decode extendedText = .ok
        ⟨⟨"app", "t"⟩, [⟨.drop, Table.empty.addColumn ⟨"id", "INT", none, none, false⟩⟩]⟩ := by
  have hextends : Extends (.object [("payload", .object (eventMembers [] [] []))])
      (.object [("payload", .object (eventMembers addedToSource addedToEvent addedToColumn))]) :=
    .envelope [] [] (by decide) extends_eventMembers
  have hextended : Value.parse extendedText = .ok (.object
      [("payload", .object (eventMembers addedToSource addedToEvent addedToColumn))]) := by rfl
  have hplain : Value.parse plainText =
      .ok (.object [("payload", .object (eventMembers [] [] []))]) := by rfl
  have hsame := (decode_extension hextends hextended).2 plainText hplain
  refine ⟨hextends, hsame, hsame.trans ?_⟩
  rw [decode_of_parse hplain]
  rfl

end ChangeEvent

end ChangeDdl
