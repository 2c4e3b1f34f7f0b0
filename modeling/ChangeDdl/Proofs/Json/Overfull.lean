import ChangeDdl.Proofs.Json.Part

/-!
Arrays that are longer than the record they stand for. A full array has an item for each field of
its record; with any item behind the last one the record is not decoded any more, and neither is a
value in which the record is a part (`Shape.Overfills.decode_ne_ok`).
-/

set_option autoImplicit false
set_option relaxedAutoImplicit false

namespace ChangeDdl.Json

/-- The second value is the first with one more item behind a full array, which has an item for
every field of the record that it stands for. -/
inductive Shape.Overfills : {α : Type} → Shape α → Value → Value → Prop where
  | here {α β δ : Type} {name : String} {closed : Bool} {fields : Fields β δ} {make : β → α}
    {parts : α → β} {make_parts : ∀ a, make (parts a) = a} {values : List Value}
    (hfull : values.length = fields.keys.length) (u : Value) :
    Overfills (.record name closed fields make parts make_parts) (.array values)
      (.array (values ++ [u]))
  | nullable {α : Type} {value : Shape α} {v w : Value} (h : Overfills value v w) :
    Overfills (.nullable value) v w
  | item {α : Type} {item : Shape α} (before after : List Value) {v w : Value}
    (h : Overfills item v w) : Overfills (.list item) (.array (before ++ v :: after))
      (.array (before ++ w :: after))
  | fieldItem {α γ β δ : Type} {name : String} {closed : Bool} {fields : Fields β δ} {make : β → α}
    {parts : α → β} {make_parts : ∀ a, make (parts a) = a} {shape : Shape γ}
    (before after : List Value) {v w : Value} (hfield : fields.Nth before.length shape)
    (h : Overfills shape v w) :
    Overfills (.record name closed fields make parts make_parts) (.array (before ++ v :: after))
      (.array (before ++ w :: after))
  | fieldMember {α γ β δ : Type} {name : String} {closed : Bool} {fields : Fields β δ}
    {make : β → α} {parts : α → β} {make_parts : ∀ a, make (parts a) = a} {shape : Shape γ}
    (before after : Members) {key : String} {v w : Value} (hfield : fields.Under key shape)
    (hlast : key ∉ after.map Prod.fst) (h : Overfills shape v w) :
    Overfills (.record name closed fields make parts make_parts)
      (.object (before ++ (key, v) :: after)) (.object (before ++ (key, w) :: after))

namespace Fields

/-- No field is left for the items of an array behind the last field. -/
theorem length_le_of_decodeItems {tooShort : Nat → Mismatch} : {β δ : Type} →
    (fields : Fields β δ) → {n : Nat} → {values : List Value} → {b : β} →
    fields.decodeItems tooShort n values = .ok (b, []) → values.length ≤ fields.keys.length
  | _, _, nil, _, values, (), h => by
    rw [decodeItems] at h
    rw [(Prod.mk.inj (Except.ok.inj h)).2]
    exact Nat.zero_le _
  | _, _, cons _ _ _ _, _, [], _, _ => Nat.zero_le _
  | _, _, cons key shape presence rest, _, v :: values, (a, b), h => by
    have hrest := rest.length_le_of_decodeItems (decodeItems_cons_cons_iff.mp h).2
    exact Nat.succ_le_succ hrest

variable {α β δ : Type} {fields : Fields β δ} {shape : Shape α}

theorem Nth.exists_decode {n : Nat} (hfield : fields.Nth n shape) {tooShort : Nat → Mismatch}
    {before after surplus : List Value} (hn : before.length = n) {v : Value} {count : Nat} {b : β}
    (h : fields.decodeItems tooShort count (before ++ v :: after) = .ok (b, surplus)) :
    ∃ c, shape.decode v = .ok c := by
  induction hfield generalizing before count with
  | first =>
    obtain rfl := List.length_eq_zero_iff.mp hn
    exact ⟨_, (decodeItems_cons_cons_iff.mp h).1⟩
  | later _ ih =>
    cases before with
    | nil => simp at hn
    | cons u before => exact ih (Nat.succ.inj hn) (decodeItems_cons_cons_iff.mp h).2

theorem Under.exists_decode {key : String} (hfield : fields.Under key shape)
    {refusal : String → Option Mismatch} {v : Value} {draft next : δ}
    (h : fields.decodeMember refusal draft (key, v) = .ok next) :
    ∃ c, shape.decode v = .ok c := by
  induction hfield with
  | first =>
    rw [decodeMember, if_pos rfl] at h
    obtain ⟨c, hc, _⟩ := map_eq_ok_iff.mp h
    exact ⟨c, hc⟩
  | later hne _ ih =>
    rw [decodeMember, if_neg hne] at h
    obtain ⟨others, hothers, _⟩ := map_eq_ok_iff.mp h
    exact ih hothers

end Fields

namespace Shape

variable {α : Type} {shape : Shape α} {v w : Value}

theorem Overfills.ne_null (h : shape.Overfills v w) : w ≠ .null := by
  induction h with
  | nullable _ ih => exact ih
  | here | item | fieldItem | fieldMember => simp

/-- No value with an overfull array is decoded, whatever else it has. -/
theorem Overfills.decode_ne_ok (h : shape.Overfills v w) (a : α) : shape.decode w ≠ .ok a := by
  induction h with
  | here hfull u =>
    intro hdecode
    obtain ⟨b, hitems, _⟩ := decode_record_array_iff.mp hdecode
    have hlength := Fields.length_le_of_decodeItems _ hitems
    rw [List.length_append, List.length_singleton, hfull] at hlength
    omega
  | nullable h ih =>
    intro hdecode
    rw [decode_nullable_of_not_null h.ne_null] at hdecode
    obtain ⟨b, hb, _⟩ := map_eq_ok_iff.mp hdecode
    exact ih b hb
  | item before after h ih =>
    intro hdecode
    rw [decode, mapM_append_cons_eq_ok_iff] at hdecode
    obtain ⟨_, b, _, _, hb, _⟩ := hdecode
    exact ih b hb
  | fieldItem before after hfield h ih =>
    intro hdecode
    obtain ⟨b, hitems, _⟩ := decode_record_array_iff.mp hdecode
    obtain ⟨c, hc⟩ := hfield.exists_decode rfl hitems
    exact ih c hc
  | @fieldMember _ _ _ _ _ closed fields _ _ _ _ before after key v w hfield hlast h ih =>
    intro hdecode
    obtain ⟨draft, b, hmembers, _⟩ := decode_record_object_iff.mp hdecode
    have hkey : (Members.canonical (before ++ (key, w) :: after)).lookup key = some w :=
      (Members.lookup_canonical_replace hlast w key).trans (if_pos rfl)
    obtain ⟨front, back, hcanonical, _⟩ := List.lookup_eq_some_iff.mp hkey
    have hmem : (key, w) ∈ Members.canonical (before ++ (key, w) :: after) := by
      rw [hcanonical]
      simp
    obtain ⟨_, _, hstep⟩ := exists_of_foldlM_eq_ok hmem hmembers
    obtain ⟨c, hc⟩ := hfield.exists_decode hstep
    exact ih c hc

end Shape

end ChangeDdl.Json
