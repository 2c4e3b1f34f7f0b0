import ChangeDdl.Proofs.Event.RoundTrip
import ChangeDdl.Proofs.Json.Agreement

/-!
Parts of events on their own. What is printed for a value of any type of an event, the event itself
included, is read back by the direct reader, in the order of the text and without a tree
(`direct_round_trip`).
-/

set_option autoImplicit false
set_option relaxedAutoImplicit false

namespace ChangeDdl

open Json

/-- Values of all types of an event are read back from their texts. -/
theorem direct_round_trip :
    (∀ e : ChangeEvent, ChangeEvent.shape.parse (ChangeEvent.shape.print e) = .ok e) ∧
      (∀ s : Source, Source.shape.parse (Source.shape.print s) = .ok s) ∧
      (∀ k : ChangeKind, ChangeKind.shape.parse (ChangeKind.shape.print k) = .ok k) ∧
      (∀ c : TableChange, TableChange.shape.parse (TableChange.shape.print c) = .ok c) ∧
      (∀ c : Column, Column.shape.parse (Column.shape.print c) = .ok c) ∧
      (∀ k : ForeignKey, ForeignKey.shape.parse (ForeignKey.shape.print k) = .ok k) ∧
      (∀ u : UniqueConstraint,
        UniqueConstraint.shape.parse (UniqueConstraint.shape.print u) = .ok u) ∧
      ∀ c : CheckConstraint,
        CheckConstraint.shape.parse (CheckConstraint.shape.print c) = .ok c :=
  ⟨ChangeEvent.shape.parse_print ChangeEvent.faithful_shape ChangeEvent.depth_shape,
    Source.shape.parse_print Source.faithful_shape (by decide),
    ChangeKind.shape.parse_print ChangeKind.faithful_shape (by decide),
    TableChange.shape.parse_print TableChange.faithful_shape (by decide),
    Column.shape.parse_print Column.faithful_shape (by decide),
    ForeignKey.shape.parse_print ForeignKey.faithful_shape (by decide),
    UniqueConstraint.shape.parse_print UniqueConstraint.faithful_shape (by decide),
    CheckConstraint.shape.parse_print CheckConstraint.faithful_shape (by decide)⟩

end ChangeDdl
