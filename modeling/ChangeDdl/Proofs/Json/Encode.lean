import ChangeDdl.Json.Shape.Encode
import ChangeDdl.Proofs.Json.Printer
import ChangeDdl.Proofs.Json.Record

/-!
Encoding a typed value, writing it, and getting it back. `Shape.decode_encode` holds for every
`Faithful` shape: the keys of a record differ, and what may be null never encodes to null itself.
How deep the encoding nests is known from the shape (`Shape.fits_encode`), so that the reader of
trees gets to the end of every text that `Shape.print` writes.
-/

set_option autoImplicit false
set_option relaxedAutoImplicit false

namespace ChangeDdl.Json

mutual

/-- Values of this shape can be told from their encodings. Entries come back in another order. -/
def Shape.Faithful : {α : Type} → Shape α → Prop
  | _, .atom _ => True
  | _, .nullable value => value.Faithful ∧ ∀ a, value.encode a ≠ .null
  | _, .choice _ _ _ => True
  | _, .list item => item.Faithful
  | _, .entries _ => False
  | _, .record _ _ fields _ _ _ => fields.Faithful

def Fields.Faithful : {β δ : Type} → Fields β δ → Prop
  | _, _, .nil => True
  | _, _, .cons key shape _ rest => key ∉ rest.keys ∧ shape.Faithful ∧ rest.Faithful

end

section Faithful

variable {α β δ : Type}

@[simp] theorem Shape.faithful_atom_iff {atom : Atom α} :
    (Shape.atom atom).Faithful ↔ True := Iff.rfl

@[simp] theorem Shape.faithful_nullable_iff {value : Shape α} :
    value.nullable.Faithful ↔ value.Faithful ∧ ∀ a, value.encode a ≠ .null := Iff.rfl

@[simp] theorem Shape.faithful_choice_iff {named : List (String × α)} {name : α → String}
    {lookup : ∀ a, named.lookup (name a) = some a} :
    (Shape.choice named name lookup).Faithful ↔ True := Iff.rfl

@[simp] theorem Shape.faithful_list_iff {item : Shape α} :
    item.list.Faithful ↔ item.Faithful := Iff.rfl

@[simp] theorem Shape.faithful_record_iff {name : String} {closed : Bool} {fields : Fields β δ}
    {make : β → α} {parts : α → β} {make_parts : ∀ a, make (parts a) = a} :
    (Shape.record name closed fields make parts make_parts).Faithful ↔ fields.Faithful := Iff.rfl

@[simp] theorem Fields.faithful_nil_iff : Fields.nil.Faithful ↔ True := Iff.rfl

@[simp] theorem Fields.faithful_cons_iff {key : String} {shape : Shape α} {presence : Presence α}
    {rest : Fields β δ} : (Fields.cons key shape presence rest).Faithful ↔
      key ∉ rest.keys ∧ shape.Faithful ∧ rest.Faithful := Iff.rfl

end Faithful

mutual

/-- How deep the values of this shape nest. -/
def Shape.depth : {α : Type} → Shape α → Nat
  | _, .atom _ => 0
  | _, .nullable value => value.depth
  | _, .choice _ _ _ => 0
  | _, .list item => item.depth + 1
  | _, .entries value => value.depth + 1
  | _, .record _ _ fields _ _ _ => fields.depth + 1

def Fields.depth : {β δ : Type} → Fields β δ → Nat
  | _, _, .nil => 0
  | _, _, .cons _ shape _ rest => max shape.depth rest.depth

end

/-! ### Atoms -/

theorem Atom.accept_encode {α : Type} (atom : Atom α) (a : α) :
    atom.accept (.scalar (atom.encode a)) = .ok a := by
  cases atom with
  | text => rfl
  | boolean => rfl
  | integer32 =>
    have hrange : Int32.minValue.toInt ≤ a.toInt ∧ a.toInt ≤ Int32.maxValue.toInt :=
      ⟨Int32.le_iff_toInt_le.mp (Int32.minValue_le a),
        Int32.le_iff_toInt_le.mp (Int32.le_maxValue a)⟩
    simp only [Atom.accept, Atom.encode, Atom.acceptInteger32]
    rw [if_pos hrange, Int32.ofInt_toInt]

theorem Atom.exact_encode {α : Type} (atom : Atom α) (a : α) : (atom.encode a).Exact := by
  cases atom with
  | text => trivial
  | boolean => trivial
  | integer32 =>
    show Numeral.FitsWord a.toInt
    have hlow := Int32.le_toInt a
    have hhigh := Int32.toInt_lt a
    have hmin : Int64.minValue.toInt = -9223372036854775808 := rfl
    have hsize : UInt64.size = 18446744073709551616 := rfl
    unfold Numeral.FitsWord
    omega

/-! ### Depth -/

theorem Value.Fits.mono {depth more : Nat} {v : Value} (hv : Fits depth v) (h : depth ≤ more) :
    Fits more v := by
  induction hv generalizing more with
  | scalar hs => exact .scalar hs
  | array _ ih =>
    obtain ⟨inner, rfl⟩ : ∃ inner, more = inner + 1 := ⟨more - 1, by omega⟩
    exact .array fun v hv ↦ ih v hv (by omega)
  | object _ ih =>
    obtain ⟨inner, rfl⟩ : ∃ inner, more = inner + 1 := ⟨more - 1, by omega⟩
    exact .object fun m hm ↦ ih m hm (by omega)

mutual

theorem Shape.fits_encode : {α : Type} → (shape : Shape α) → (a : α) →
    Value.Fits shape.depth (shape.encode a)
  | _, .atom atom, a => .scalar (atom.exact_encode a)
  | _, .nullable value, none => .scalar trivial
  | _, .nullable value, some a => value.fits_encode a
  | _, .choice _ _ _, a => .scalar trivial
  | _, .list item, as => by
    refine .array fun v hv ↦ ?_
    obtain ⟨a, _, rfl⟩ := List.mem_map.mp hv
    exact item.fits_encode a
  | _, .entries value, as => by
    refine .object fun m hm ↦ ?_
    obtain ⟨⟨key, a⟩, _, rfl⟩ := List.mem_map.mp hm
    exact value.fits_encode a
  | _, .record _ _ fields _ parts _, a => .object (fields.fits_encode (parts a))

theorem Fields.fits_encode : {β δ : Type} → (fields : Fields β δ) → (b : β) →
    ∀ m ∈ fields.encode b, Value.Fits fields.depth m.2
  | _, _, .nil, (), m, hm => by simp [Fields.encode] at hm
  | _, _, .cons key shape presence rest, (a, b), m, hm => by
    have hrest : m ∈ rest.encode b → Value.Fits (max shape.depth rest.depth) m.2 :=
      fun hm ↦ (rest.fits_encode b m hm).mono (Nat.le_max_right _ _)
    rw [Fields.encode] at hm
    split_ifs at hm
    · exact hrest hm
    · rcases List.mem_cons.mp hm with rfl | hm
      · exact (shape.fits_encode a).mono (Nat.le_max_left _ _)
      · exact hrest hm

end

/-! ### Decoding what is encoded -/

namespace Fields

variable {β δ : Type}

/-- The keys of an encoded record are fields, in their order. -/
theorem keys_encode : {β δ : Type} → (fields : Fields β δ) → (b : β) →
    ((fields.encode b).map Prod.fst).Sublist fields.keys
  | _, _, nil, () => List.Sublist.refl _
  | _, _, cons key shape presence rest, (a, b) => by
    rw [encode, keys]
    split_ifs
    · exact (rest.keys_encode b).cons key
    · exact (rest.keys_encode b).cons_cons key

theorem nodup_keys : {β δ : Type} → (fields : Fields β δ) → fields.Faithful → fields.keys.Nodup
  | _, _, nil, _ => List.nodup_nil
  | _, _, cons key shape presence rest, h => by
    obtain ⟨hkey, _, hrest⟩ := h
    exact List.nodup_cons.mpr ⟨hkey, rest.nodup_keys hrest⟩

end Fields

/-- A field that is left out has its default. -/
theorem Presence.default_of_omits {α : Type} {presence : Presence α} {a : α}
    (h : presence.omits a = true) : presence.default? = some a := by
  cases presence with
  | required => simp [omits] at h
  | defaulted value => simp [omits] at h
  | sparse value isDefault heq => rw [default?, heq a h]

theorem Shape.mapM_decode_map_encode {α : Type} {shape : Shape α}
    (h : ∀ a, shape.decode (shape.encode a) = .ok a) (as : List α) :
    (as.map shape.encode).mapM shape.decode = .ok as := by
  rw [mapM_eq_ok_iff, List.map_map]
  exact List.map_congr_left fun a _ ↦ h a

mutual

/-- An encoded value is decoded to what it was. -/
theorem Shape.decode_encode : {α : Type} → (shape : Shape α) → shape.Faithful → (a : α) →
    shape.decode (shape.encode a) = .ok a
  | _, .atom atom, _, a => by
    rw [Shape.decode, Shape.encode]
    exact atom.accept_encode a
  | _, .nullable value, h, none => rfl
  | _, .nullable value, h, some a => by
    have hdecode := value.decode_encode h.1 a
    have hnull := h.2 a
    rw [Shape.decode, Shape.encode]
    · rw [hdecode]
      rfl
    · exact hnull
  | _, .choice variants name hname, _, a => by
    rw [Shape.decode, Shape.encode, decodeChoice, pick, hname a]
  | _, .list item, h, as => by
    show (as.map item.encode).mapM item.decode = .ok as
    exact Shape.mapM_decode_map_encode (fun a ↦ item.decode_encode h a) as
  | _, .entries _, h, _ => h.elim
  | _, .record name closed fields make parts hparts, h, a => by
    have hkeys := fields.keys_encode (parts a)
    have honce := fields.once_of_nodup (hkeys.nodup (fields.nodup_keys h))
    have hknown : ∀ m ∈ fields.encode (parts a), m.1 ∉ fields.keys →
        fields.refusal closed m.1 = none := by
      intro m hm hforeign
      exact absurd (hkeys.subset (List.mem_map_of_mem hm)) hforeign
    obtain ⟨draft, hslots, hcomplete⟩ := fields.slots_encode h (parts a) _ fun _ _ ↦ rfl
    have hfold := (Fields.foldlM_decodeMember_iff (fields.refusal closed) fields honce).mpr
      ⟨hknown, hslots⟩
    have hdraft := (Fields.foldlM_canonical_iff (fields.refusal closed) fields honce).mpr hfold
    refine bind_eq_ok_iff.mpr ⟨draft, hdraft, bind_eq_ok_iff.mpr ⟨parts a, hcomplete, ?_⟩⟩
    rw [hparts]

theorem Fields.slots_encode : {β δ : Type} → (fields : Fields β δ) → fields.Faithful → (b : β) →
    (members : Members) →
    (∀ key ∈ fields.keys, members.lookup key = (fields.encode b).lookup key) →
    ∃ draft, fields.slots members = .ok draft ∧ fields.complete draft = .ok b
  | _, _, .nil, _, (), _, _ => ⟨(), rfl, rfl⟩
  | _, _, .cons key shape presence rest, h, (a, b), members, hlookup => by
    obtain ⟨hkey, hshape, hrest⟩ := h
    have hfirst := hlookup key List.mem_cons_self
    have hmissing : (rest.encode b).lookup key = none :=
      Members.lookup_of_not_mem fun hmem ↦ hkey ((rest.keys_encode b).subset hmem)
    have hothers : ∀ name ∈ rest.keys, (members.filter fun m ↦ m.1 ≠ key).lookup name =
        (rest.encode b).lookup name := by
      intro name hname
      have hne : name ≠ key := fun heq ↦ hkey (heq ▸ hname)
      rw [Members.lookup_filter_ne, if_neg hne, hlookup name (List.mem_cons_of_mem _ hname),
        Fields.encode]
      split_ifs
      · rfl
      · rw [Members.lookup_cons_if, if_neg hne]
    obtain ⟨draft, hslots, hcomplete⟩ := rest.slots_encode hrest b _ hothers
    rw [Fields.encode] at hfirst
    split_ifs at hfirst with homits
    · refine ⟨(none, draft), ?_, ?_⟩
      · rw [Fields.slots, Fields.slot, hfirst, hmissing, hslots]
        rfl
      · rw [Fields.complete, Presence.default_of_omits homits, hcomplete]
        rfl
    · refine ⟨(some a, draft), ?_, ?_⟩
      · rw [Fields.slots, Fields.slot, hfirst, Members.lookup_cons_if, if_pos rfl, hslots]
        simp only [shape.decode_encode hshape a]
        rfl
      · rw [Fields.complete, hcomplete]
        rfl

end

end ChangeDdl.Json
