import ChangeDdl.Event.Encoding
import ChangeDdl.Proofs.Json.Encode

/-!
Events on the wire. An event that is written and read again is the same event, whatever its texts
and however many changes and definitions it has (`ChangeEvent.round_trip`).
-/

set_option autoImplicit false
set_option relaxedAutoImplicit false

namespace ChangeDdl

open Json

theorem Source.faithful_shape : Source.shape.Faithful := by
  simp [shape, Fields.keys]

theorem ChangeKind.faithful_shape : ChangeKind.shape.Faithful := by
  simp [shape]

theorem Column.faithful_shape : Column.shape.Faithful := by
  simp [shape, Fields.keys, Shape.encode, Atom.encode]

theorem ForeignKey.faithful_shape : ForeignKey.shape.Faithful := by
  simp [shape, Fields.keys]

theorem UniqueConstraint.faithful_shape : UniqueConstraint.shape.Faithful := by
  simp [shape, Fields.keys]

theorem CheckConstraint.faithful_shape : CheckConstraint.shape.Faithful := by
  simp [shape, Fields.keys]

theorem Table.faithful_shape : Table.shape.Faithful := by
  simp [shape, Fields.keys, Column.faithful_shape, ForeignKey.faithful_shape,
    UniqueConstraint.faithful_shape, CheckConstraint.faithful_shape]

theorem TableChange.faithful_shape : TableChange.shape.Faithful := by
  simp [shape, Fields.keys, ChangeKind.faithful_shape, Table.faithful_shape]

theorem ChangeEvent.faithful_shape : ChangeEvent.shape.Faithful := by
  simp [shape, Fields.keys, Source.faithful_shape, TableChange.faithful_shape]

theorem ChangeEvent.depth_shape : ChangeEvent.shape.depth ≤ Value.depthLimit := by
  decide

/-- No event is taken for an envelope. -/
theorem payload_encode (e : ChangeEvent) :
    payload (ChangeEvent.shape.encode e) = ChangeEvent.shape.encode e := by
  rfl

/-- Every event is decoded from its own text. -/
theorem ChangeEvent.round_trip (e : ChangeEvent) : decode e.encode = .ok e := by
  have hparse : Value.parse e.encode = .ok (shape.encode e) :=
    Value.parse_print ((shape.fits_encode e).mono depth_shape)
  have hvalue : ofValue (shape.encode e) = .ok e := by
    rw [ofValue, payload_encode]
    exact shape.decode_encode faithful_shape e
  exact bind_eq_ok_iff.mpr
    ⟨_, mapError_eq_ok_iff.mpr hparse, mapError_eq_ok_iff.mpr hvalue⟩

end ChangeDdl
