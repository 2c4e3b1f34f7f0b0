import ChangeDdl.Proofs.Json.Agreement
import ChangeDdl.Proofs.Json.ClosedShape

/-!
The forms of a typed value. A record may be given as an object, with its members in any order, or as
an array of its fields in the order of the shape, and this is chosen for every record on its own.
`Shape.Forms` says it by the shape, from the value and not from what a reader takes.

Every form of a value stands for it when it is read (`Shape.means_of_forms`), and none of them nests
deeper than the shape (`Shape.fits_of_forms`).
-/

set_option autoImplicit false
set_option relaxedAutoImplicit false

namespace ChangeDdl.Json

mutual

/-- The value is a form of `a`: it is written like `a`, but each record in it is given either as an
array of its fields or as an object with its fields in any order. Entries have no forms. -/
def Shape.Forms : {α : Type} → Shape α → Value → α → Prop
  | _, .atom atom, v, a => v = .scalar (atom.encode a)
  | _, .nullable _, v, none => v = .null
  | _, .nullable value, v, some a => value.Forms v a
  | _, .choice _ name _, v, a => v = .text (name a)
  | _, .list item, v, as => ∃ values, v = .array values ∧ List.Forall₂ item.Forms values as
  | _, .entries _, _, _ => False
  | _, .record _ _ fields _ parts _, v, a =>
    (∃ values, v = .array values ∧ fields.FormsItems values (parts a)) ∨
      ∃ members ordered, v = .object members ∧ members.Perm ordered ∧
        fields.FormsMembers ordered (parts a)

/-- The items of an array, in the order of the fields. It may end where all further fields hold
their defaults. -/
def Fields.FormsItems : {β δ : Type} → Fields β δ → List Value → β → Prop
  | _, _, .nil, values, () => values = []
  | _, _, .cons _ _ presence rest, [], (a, b) =>
    presence.default? = some a ∧ rest.FormsItems [] b
  | _, _, .cons _ shape _ rest, v :: values, (a, b) => shape.Forms v a ∧ rest.FormsItems values b

/-- The members of an object, in the order of the fields. A field that holds its default may be
left out. -/
def Fields.FormsMembers : {β δ : Type} → Fields β δ → Members → β → Prop
  | _, _, .nil, members, () => members = []
  | _, _, .cons key shape presence rest, members, (a, b) =>
    (presence.default? = some a ∧ rest.FormsMembers members b) ∨
      ∃ v others, members = (key, v) :: others ∧ shape.Forms v a ∧ rest.FormsMembers others b

end

namespace Fields

theorem keys_sublist_of_forms : {β δ : Type} → (fields : Fields β δ) → {members : Members} →
    {b : β} → fields.FormsMembers members b → (members.map Prod.fst).Sublist fields.keys
  | _, _, nil, members, (), h => by
    rw [FormsMembers] at h
    rw [h]
    exact List.nil_sublist _
  | _, _, cons key shape presence rest, members, (a, b), h => by
    rw [FormsMembers] at h
    rcases h with ⟨-, hrest⟩ | ⟨v, others, rfl, -, hrest⟩
    · exact (rest.keys_sublist_of_forms hrest).cons key
    · exact (rest.keys_sublist_of_forms hrest).cons_cons key

end Fields

/-! ### Meaning -/

/-- A value has null for a form only if it is written as null. -/
theorem Shape.encode_eq_null_of_forms : {α : Type} → (shape : Shape α) → {a : α} →
    shape.Forms .null a → shape.encode a = .null
  | _, .atom _, _, h => by
    rw [Forms] at h
    rw [encode, h]
  | _, .nullable _, none, _ => rfl
  | _, .nullable value, some a, h => value.encode_eq_null_of_forms h
  | _, .choice _ _ _, _, h => by
    rw [Forms] at h
    rw [encode, h]
  | _, .list _, _, h => by
    obtain ⟨_, h, _⟩ := h
    simp at h
  | _, .entries _, _, h => h.elim
  | _, .record _ _ _ _ _ _, _, h => by
    obtain ⟨_, h, _⟩ | ⟨_, _, h, _⟩ := h
    · simp at h
    · simp at h

section Members

variable {α β δ : Type} {key : String} {shape : Shape α} {presence : Presence α}
  {rest : Fields β δ} {members : Members} {a : α} {b : β}

/-- A field that is left out means its default. -/
theorem Fields.meansMembers_of_absent (hkey : key ∉ rest.keys)
    (habsent : key ∉ members.map Prod.fst) (hdefault : presence.default? = some a)
    (hrest : rest.MeansMembers members b) :
    (Fields.cons key shape presence rest).MeansMembers members (a, b) := by
  rw [meansMembers_cons_iff hkey, Members.lookup_of_not_mem habsent]
  exact ⟨hdefault, hrest⟩

/-- The member of the first field means nothing to the others. -/
theorem Fields.meansMembers_of_first (hkey : key ∉ rest.keys) {v : Value} (hv : shape.Means v a)
    (hrest : rest.MeansMembers members b) :
    (Fields.cons key shape presence rest).MeansMembers ((key, v) :: members) (a, b) := by
  rw [meansMembers_cons_iff hkey, Members.lookup_cons_if, if_pos rfl]
  refine ⟨hv, (rest.meansMembers_congr fun name hname ↦ ?_).mpr hrest⟩
  have hne : name ≠ key := by
    rintro rfl
    exact hkey hname
  rw [Members.lookup_cons_if, if_neg hne]

/-- The order of members with different keys does not matter. -/
theorem Fields.meansMembers_perm {fields : Fields β δ} {ordered : Members}
    (hperm : members.Perm ordered) (hnodup : (members.map Prod.fst).Nodup)
    (h : fields.MeansMembers ordered b) : fields.MeansMembers members b :=
  (fields.meansMembers_congr fun key _ ↦ Members.lookup_perm hperm hnodup key).mpr h

end Members

mutual

/-- A form of a value stands for the value. -/
theorem Shape.means_of_forms : {α : Type} → (shape : Shape α) → shape.Faithful → {v : Value} →
    {a : α} → shape.Forms v a → shape.Means v a
  | _, .atom atom, _, v, a, h => by
    rw [Shape.Forms] at h
    rw [Shape.Means, h]
    exact atom.accept_encode a
  | _, .nullable value, _, v, none, h => by
    rw [Shape.Forms] at h
    rw [Shape.Means]
    exact Or.inl ⟨h, rfl⟩
  | _, .nullable value, hfaithful, v, some a, h => by
    rw [Shape.Forms] at h
    have hnull : v ≠ .null := by
      rintro rfl
      exact hfaithful.2 a (value.encode_eq_null_of_forms h)
    rw [Shape.Means]
    exact Or.inr ⟨hnull, a, value.means_of_forms hfaithful.1 h, rfl⟩
  | _, .choice variants name lookup_name, _, v, a, h => by
    rw [Shape.Forms] at h
    rw [Shape.Means]
    exact ⟨name a, by rw [pick, lookup_name], Or.inl h⟩
  | _, .list item, hfaithful, v, as, h => by
    rw [Shape.Forms] at h
    obtain ⟨values, rfl, hvalues⟩ := h
    rw [Shape.Means]
    exact ⟨values, rfl, hvalues.imp fun _ _ h ↦ item.means_of_forms hfaithful h⟩
  | _, .entries _, hfaithful, _, _, _ => hfaithful.elim
  | _, .record _ _ fields _ parts make_parts, hfaithful, v, a, h => by
    rw [Shape.Forms] at h
    rw [Shape.Means]
    refine ⟨parts a, make_parts a, ?_⟩
    rcases h with ⟨values, rfl, hitems⟩ | ⟨members, ordered, rfl, hperm, hmembers⟩
    · exact Or.inl ⟨values, rfl, fields.meansItems_of_forms hfaithful hitems⟩
    · have hkeys := fields.keys_sublist_of_forms hmembers
      have hnodup := ((hperm.map Prod.fst).nodup_iff).mpr
        (hkeys.nodup (fields.nodup_keys hfaithful))
      have hknown : ∀ m ∈ members, m.1 ∈ fields.keys := fun m hm ↦
        hkeys.subset (List.mem_map_of_mem (hperm.mem_iff.mp hm))
      exact Or.inr ⟨members, rfl, fun _ ↦ hknown, fields.once_of_nodup hnodup,
        Fields.meansMembers_perm hperm hnodup (fields.meansMembers_of_forms hfaithful hmembers)⟩

theorem Fields.meansItems_of_forms : {β δ : Type} → (fields : Fields β δ) → fields.Faithful →
    {values : List Value} → {b : β} → fields.FormsItems values b → fields.MeansItems values b
  | _, _, .nil, _, values, (), h => h
  | _, _, .cons _ _ _ rest, hfaithful, [], (a, b), h => by
    rw [Fields.FormsItems] at h
    rw [Fields.MeansItems]
    exact ⟨h.1, rest.meansItems_of_forms hfaithful.2.2 h.2⟩
  | _, _, .cons _ shape _ rest, hfaithful, v :: values, (a, b), h => by
    rw [Fields.FormsItems] at h
    rw [Fields.MeansItems]
    exact ⟨shape.means_of_forms hfaithful.2.1 h.1, rest.meansItems_of_forms hfaithful.2.2 h.2⟩

theorem Fields.meansMembers_of_forms : {β δ : Type} → (fields : Fields β δ) → fields.Faithful →
    {members : Members} → {b : β} → fields.FormsMembers members b → fields.MeansMembers members b
  | _, _, .nil, _, _, (), _ => trivial
  | _, _, .cons key shape presence rest, hfaithful, members, (a, b), h => by
    obtain ⟨hkey, hshape, hrest⟩ := hfaithful
    rw [Fields.FormsMembers] at h
    rcases h with ⟨hdefault, hmore⟩ | ⟨v, others, rfl, hv, hmore⟩
    · have habsent := fun hmem ↦ hkey ((rest.keys_sublist_of_forms hmore).subset hmem)
      exact Fields.meansMembers_of_absent hkey habsent hdefault
        (rest.meansMembers_of_forms hrest hmore)
    · exact Fields.meansMembers_of_first hkey (shape.means_of_forms hshape hv)
        (rest.meansMembers_of_forms hrest hmore)

end

/-! ### Depth -/

mutual

theorem Shape.fits_of_forms : {α : Type} → (shape : Shape α) → {v : Value} → {a : α} →
    shape.Forms v a → Value.Fits shape.depth v
  | _, .atom atom, v, a, h => by
    rw [Shape.Forms] at h
    exact h ▸ .scalar (atom.exact_encode a)
  | _, .nullable _, v, none, h => by
    rw [Shape.Forms] at h
    exact h ▸ .scalar trivial
  | _, .nullable value, v, some a, h => value.fits_of_forms h
  | _, .choice _ _ _, v, a, h => by
    rw [Shape.Forms] at h
    exact h ▸ .scalar trivial
  | _, .list item, v, as, h => by
    rw [Shape.Forms] at h
    obtain ⟨values, rfl, hvalues⟩ := h
    have hfits : ∀ v ∈ values, Value.Fits item.depth v := by
      induction hvalues with
      | nil => nofun
      | cons hfirst _ ih => exact List.forall_mem_cons.mpr ⟨item.fits_of_forms hfirst, ih⟩
    exact .array hfits
  | _, .entries _, _, _, h => h.elim
  | _, .record _ _ fields _ parts _, v, a, h => by
    rw [Shape.Forms] at h
    rcases h with ⟨values, rfl, hitems⟩ | ⟨members, ordered, rfl, hperm, hmembers⟩
    · exact .array (fields.fitsItems_of_forms hitems)
    · exact .object fun m hm ↦ fields.fitsMembers_of_forms hmembers m (hperm.mem_iff.mp hm)

theorem Fields.fitsItems_of_forms : {β δ : Type} → (fields : Fields β δ) →
    {values : List Value} → {b : β} → fields.FormsItems values b →
    ∀ v ∈ values, Value.Fits fields.depth v
  | _, _, .nil, values, (), h => by
    rw [Fields.FormsItems] at h
    rw [h]
    nofun
  | _, _, .cons _ _ _ _, [], (_, _), _ => nofun
  | _, _, .cons _ shape _ rest, v :: values, (a, b), h => by
    rw [Fields.FormsItems] at h
    refine List.forall_mem_cons.mpr ⟨?_, fun w hw ↦ ?_⟩
    · exact (shape.fits_of_forms h.1).mono (Nat.le_max_left _ _)
    · exact (rest.fitsItems_of_forms h.2 w hw).mono (Nat.le_max_right _ _)

theorem Fields.fitsMembers_of_forms : {β δ : Type} → (fields : Fields β δ) →
    {members : Members} → {b : β} → fields.FormsMembers members b →
    ∀ m ∈ members, Value.Fits fields.depth m.2
  | _, _, .nil, members, (), h => by
    rw [Fields.FormsMembers] at h
    rw [h]
    nofun
  | _, _, .cons key shape presence rest, members, (a, b), h => by
    rw [Fields.FormsMembers] at h
    rcases h with ⟨-, hrest⟩ | ⟨v, others, rfl, hv, hrest⟩
    · exact fun m hm ↦ (rest.fitsMembers_of_forms hrest m hm).mono (Nat.le_max_right _ _)
    · refine List.forall_mem_cons.mpr ⟨?_, fun m hm ↦ ?_⟩
      · exact (shape.fits_of_forms hv).mono (Nat.le_max_left _ _)
      · exact (rest.fitsMembers_of_forms hrest m hm).mono (Nat.le_max_right _ _)

end

end ChangeDdl.Json
