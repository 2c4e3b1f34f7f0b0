import ChangeDdl.Proofs.Json.Encode
import ChangeDdl.Proofs.Json.RecordMeaning

/-!
Reading a typed value from a text and decoding it from the tree of the same text. What a tree means
to the direct reader it is decoded to, and the other way round as long as no object in it repeats a
key (`Shape.agrees`): the direct reader goes by the order of the text, refuses a second member of a
field and skims what it does not know; the decoder goes by the order of the keys and sees the last
member of each. So the two agree on texts (`Shape.parse_agrees`).

Entries are left out: a tree lists them in another order.

The printer repeats no key (`Shape.distinct_encode`), and so the direct reader reads back what is
printed (`Shape.parse_print`).
-/

set_option autoImplicit false
set_option relaxedAutoImplicit false

namespace ChangeDdl.Json

/-- No object in the value repeats a key. -/
inductive Value.Distinct : Value → Prop where
  | scalar (s : Scalar) : Distinct (.scalar s)
  | array {values : List Value} (hvalues : ∀ v ∈ values, Distinct v) : Distinct (.array values)
  | object {members : Members} (hkeys : (members.map Prod.fst).Nodup)
    (hmembers : ∀ m ∈ members, Distinct m.2) : Distinct (.object members)

namespace Value

@[simp] theorem distinct_scalar (s : Scalar) : Distinct (.scalar s) := .scalar s

@[simp] theorem distinct_array_iff {values : List Value} :
    Distinct (.array values) ↔ ∀ v ∈ values, v.Distinct := by
  constructor
  · intro h
    cases h with
    | array hvalues => exact hvalues
  · exact .array

@[simp] theorem distinct_object_iff {members : Members} :
    Distinct (.object members) ↔
      (members.map Prod.fst).Nodup ∧ ∀ m ∈ members, m.2.Distinct := by
  constructor
  · intro h
    cases h with
    | object hkeys hmembers => exact ⟨hkeys, hmembers⟩
  · rintro ⟨hkeys, hmembers⟩
    exact .object hkeys hmembers

end Value

/-- A decoder makes of a value what it means. -/
structure Agrees {α : Type} (means : Value → α → Prop) (decode : Value → Except Mismatch α) :
    Prop where
  decode_of_means {v : Value} {a : α} : means v a → decode v = .ok a
  means_of_decode {v : Value} {a : α} : v.Distinct → decode v = .ok a → means v a

/-! ### Null, choices and lists -/

section Parts

variable {α : Type}

theorem Shape.decode_nullable_of_not_null {value : Shape α} {v : Value} (hv : v ≠ .null) :
    (Shape.nullable value).decode v = (value.decode v).map some := by
  rw [Shape.decode]
  exact hv

theorem Shape.agrees_nullable {value : Shape α} (h : Agrees value.Means value.decode) :
    Agrees (Shape.nullable value).Means (Shape.nullable value).decode := by
  constructor
  · intro v a hmeans
    rw [Shape.Means] at hmeans
    rcases hmeans with ⟨rfl, rfl⟩ | ⟨hnull, b, hb, rfl⟩
    · rfl
    · rw [decode_nullable_of_not_null hnull, h.decode_of_means hb]
      rfl
  · intro v a hdistinct ha
    rw [Shape.Means]
    by_cases hnull : v = .null
    · subst hnull
      exact Or.inl ⟨rfl, (Except.ok.inj ha).symm⟩
    · rw [decode_nullable_of_not_null hnull] at ha
      obtain ⟨b, hb, rfl⟩ := map_eq_ok_iff.mp ha
      exact Or.inr ⟨hnull, b, h.means_of_decode hdistinct hb, rfl⟩

/-- A choice is a name, or an object with that name as its key. -/
theorem decodeChoice_eq_ok_iff {variants : List (String × α)} {v : Value} {a : α} :
    decodeChoice variants v = .ok a ↔
      ∃ name, pick variants name = .ok a ∧
        (v = .text name ∨
          ∃ members, v = .object members ∧ Members.canonical members = [(name, .null)]) := by
  constructor
  · intro h
    unfold decodeChoice at h
    split at h
    · rename_i name
      exact ⟨name, h, Or.inl rfl⟩
    · rename_i members
      split at h
      · rename_i name value hcanonical
        obtain ⟨b, hpick, hnull⟩ := bind_eq_ok_iff.mp h
        split at hnull
        · obtain rfl := Except.ok.inj hnull
          exact ⟨name, hpick, Or.inr ⟨members, rfl, hcanonical⟩⟩
        · simp at hnull
      · simp at h
    · simp at h
  · rintro ⟨name, hpick, rfl | ⟨members, rfl, hcanonical⟩⟩
    · exact hpick
    · rw [decodeChoice, hcanonical]
      exact bind_eq_ok_iff.mpr ⟨a, hpick, rfl⟩

theorem Shape.agrees_choice {variants : List (String × α)} {name : α → String}
    {lookup_name : ∀ a, variants.lookup (name a) = some a} :
    Agrees (Shape.choice variants name lookup_name).Means
      (Shape.choice variants name lookup_name).decode := by
  constructor
  · intro v a hmeans
    rw [Shape.Means] at hmeans
    obtain ⟨name, hpick, hv⟩ := hmeans
    refine decodeChoice_eq_ok_iff.mpr ⟨name, hpick, hv.imp_right ?_⟩
    rintro rfl
    exact ⟨_, rfl, rfl⟩
  · intro v a hdistinct ha
    rw [Shape.Means]
    obtain ⟨name, hpick, hv⟩ := decodeChoice_eq_ok_iff.mp ha
    refine ⟨name, hpick, hv.imp_right ?_⟩
    rintro ⟨members, rfl, hcanonical⟩
    have hperm := Members.canonical_perm (Value.distinct_object_iff.mp hdistinct).1
    rw [hcanonical] at hperm
    rw [List.perm_singleton.mp hperm.symm]

theorem Shape.decode_list_eq_ok_iff {item : Shape α} {v : Value} {as : List α} :
    (Shape.list item).decode v = .ok as ↔
      ∃ values, v = .array values ∧ values.map item.decode = as.map .ok := by
  constructor
  · intro h
    cases v with
    | array values => exact ⟨values, rfl, mapM_eq_ok_iff.mp h⟩
    | scalar s => simp [Shape.decode] at h
    | object members => simp [Shape.decode] at h
  · rintro ⟨values, rfl, h⟩
    exact mapM_eq_ok_iff.mpr h

theorem Shape.agrees_list {item : Shape α} (h : Agrees item.Means item.decode) :
    Agrees (Shape.list item).Means (Shape.list item).decode := by
  constructor
  · intro v as hmeans
    rw [Shape.Means] at hmeans
    obtain ⟨values, rfl, hvalues⟩ := hmeans
    refine decode_list_eq_ok_iff.mpr ⟨values, rfl, ?_⟩
    induction hvalues with
    | nil => rfl
    | cons hfirst _ ih => rw [List.map_cons, List.map_cons, h.decode_of_means hfirst, ih]
  · intro v as hdistinct has
    rw [Shape.Means]
    obtain ⟨values, rfl, hmap⟩ := decode_list_eq_ok_iff.mp has
    refine ⟨values, rfl, ?_⟩
    rw [Value.distinct_array_iff] at hdistinct
    clear has
    induction values generalizing as with
    | nil =>
      obtain rfl := List.map_eq_nil_iff.mp hmap.symm
      exact .nil
    | cons v values ih =>
      cases as with
      | nil => simp at hmap
      | cons a as =>
        obtain ⟨hfirst, hmore⟩ := List.cons.inj hmap
        obtain ⟨hv, hvalues⟩ := List.forall_mem_cons.mp hdistinct
        exact .cons (h.means_of_decode hv hfirst)
          (ih hmore hvalues)

end Parts

/-! ### Records -/

namespace Fields

/-- The values of every field are decoded to what they mean. -/
def AllAgree : {β δ : Type} → Fields β δ → Prop
  | _, _, nil => True
  | _, _, cons _ shape _ rest => Agrees shape.Means shape.decode ∧ rest.AllAgree

section Arrays

variable {tooShort : Nat → Mismatch} {n : Nat}

theorem decodeItems_cons_nil_iff {α β δ : Type} {key : String} {shape : Shape α}
    {presence : Presence α} {others : Fields β δ} {p : α × β} {values : List Value} :
    (cons key shape presence others).decodeItems tooShort n [] = .ok (p, values) ↔
      (cons key shape presence others).defaults n = .ok p ∧ values = [] := by
  rw [decodeItems]
  cases (cons key shape presence others).defaults n with
  | error m => simp
  | ok q => simp [eq_comm]

theorem decodeItems_cons_cons_iff {α β δ : Type} {key : String} {shape : Shape α}
    {presence : Presence α} {others : Fields β δ} {a : α} {b : β} {v : Value}
    {values surplus : List Value} :
    (cons key shape presence others).decodeItems tooShort n (v :: values) =
        .ok ((a, b), surplus) ↔
      shape.decode v = .ok a ∧
        others.decodeItems tooShort (n + 1) values = .ok (b, surplus) := by
  rw [decodeItems, bind_eq_ok_iff]
  constructor
  · rintro ⟨first, hfirst, h⟩
    obtain ⟨more, hmore, hpair⟩ := (bind_mapFst_eq_ok_iff (f := (first, ·))).mp h
    obtain ⟨rfl, rfl⟩ := Prod.mk.inj hpair
    exact ⟨hfirst, hmore⟩
  · rintro ⟨hfirst, hmore⟩
    exact ⟨a, hfirst, bind_eq_ok_iff.mpr ⟨_, hmore, rfl⟩⟩

theorem decodeItems_of_means : {β δ : Type} → (fields : Fields β δ) → fields.AllAgree →
    {n : Nat} → {values : List Value} → {b : β} → fields.MeansItems values b →
    fields.decodeItems tooShort n values = .ok (b, [])
  | _, _, nil, _, n, values, (), h => by
    rw [MeansItems] at h
    rw [decodeItems, h]
  | _, _, cons key shape presence others, hagree, n, values, (a, b), h => by
    cases values with
    | nil => exact decodeItems_cons_nil_iff.mpr ⟨defaults_eq_ok_iff _ |>.mpr h, rfl⟩
    | cons v values =>
      rw [MeansItems] at h
      exact decodeItems_cons_cons_iff.mpr
        ⟨hagree.1.decode_of_means h.1, others.decodeItems_of_means hagree.2 h.2⟩

theorem means_of_decodeItems : {β δ : Type} → (fields : Fields β δ) → fields.AllAgree →
    {n : Nat} → {values : List Value} → {b : β} → (∀ v ∈ values, v.Distinct) →
    fields.decodeItems tooShort n values = .ok (b, []) → fields.MeansItems values b
  | _, _, nil, _, n, values, (), _, h => by
    rw [decodeItems] at h
    rw [MeansItems]
    exact (Prod.mk.inj (Except.ok.inj h)).2
  | _, _, cons key shape presence others, hagree, n, values, (a, b), hdistinct, h => by
    cases values with
    | nil => exact (defaults_eq_ok_iff _).mp (decodeItems_cons_nil_iff.mp h).1
    | cons v values =>
      obtain ⟨hv, hvalues⟩ := List.forall_mem_cons.mp hdistinct
      obtain ⟨ha, hb⟩ := decodeItems_cons_cons_iff.mp h
      rw [MeansItems]
      exact ⟨hagree.1.means_of_decode hv ha, others.means_of_decodeItems hagree.2 hvalues hb⟩

end Arrays

theorem slot_of_means {α : Type} {shape : Shape α} {key : String} {presence : Presence α}
    {members : Members} {a : α} (hagree : Agrees shape.Means shape.decode)
    (h : Holds shape.Means presence.default? (members.lookup key) a) :
    ∃ found, slot shape key members = .ok found ∧ (found <|> presence.default?) = some a := by
  rw [slot]
  cases hkey : members.lookup key with
  | none =>
    rw [hkey] at h
    exact ⟨none, rfl, h⟩
  | some v =>
    rw [hkey] at h
    exact ⟨some a, map_eq_ok_iff.mpr ⟨a, hagree.decode_of_means h, rfl⟩, rfl⟩

theorem means_of_slot {α : Type} {shape : Shape α} {key : String} {presence : Presence α}
    {members : Members} {found : Option α} {a : α} (hagree : Agrees shape.Means shape.decode)
    (hdistinct : ∀ m ∈ members, m.2.Distinct) (hslot : slot shape key members = .ok found)
    (hfound : (found <|> presence.default?) = some a) :
    Holds shape.Means presence.default? (members.lookup key) a := by
  rw [slot] at hslot
  cases hkey : members.lookup key with
  | none =>
    rw [hkey] at hslot
    obtain rfl := Except.ok.inj hslot
    exact hfound
  | some v =>
    rw [hkey] at hslot
    obtain ⟨b, hb, rfl⟩ := map_eq_ok_iff.mp hslot
    obtain rfl := Option.some.inj hfound
    obtain ⟨before, after, rfl, _⟩ := List.lookup_eq_some_iff.mp hkey
    exact hagree.means_of_decode (hdistinct (key, v) (by simp)) hb

theorem exists_slots_of_means : {β δ : Type} → (fields : Fields β δ) → fields.AllAgree →
    {members : Members} → {b : β} → fields.MeansMembers members b →
    ∃ draft, fields.slots members = .ok draft ∧ fields.complete draft = .ok b
  | _, _, nil, _, _, (), _ => ⟨(), rfl, rfl⟩
  | _, _, cons key shape presence rest, hagree, members, (a, b), h => by
    rw [MeansMembers] at h
    obtain ⟨found, hslot, hfound⟩ := slot_of_means hagree.1 h.1
    obtain ⟨draft, hslots, hcomplete⟩ := rest.exists_slots_of_means hagree.2 h.2
    exact ⟨(found, draft), slots_cons_iff.mpr ⟨hslot, hslots⟩,
      complete_cons_iff.mpr ⟨hfound, hcomplete⟩⟩

theorem means_of_slots : {β δ : Type} → (fields : Fields β δ) → fields.AllAgree →
    {members : Members} → {draft : δ} → {b : β} → (∀ m ∈ members, m.2.Distinct) →
    fields.slots members = .ok draft → fields.complete draft = .ok b →
    fields.MeansMembers members b
  | _, _, nil, _, _, _, (), _, _, _ => trivial
  | _, _, cons key shape presence rest, hagree, members, (found, draft), (a, b), hdistinct, hslots,
      hcomplete => by
    obtain ⟨hslot, hslots⟩ := slots_cons_iff.mp hslots
    obtain ⟨hfound, hcomplete⟩ := complete_cons_iff.mp hcomplete
    rw [MeansMembers]
    exact ⟨means_of_slot hagree.1 hdistinct hslot hfound, rest.means_of_slots hagree.2
      (fun m hm ↦ hdistinct m (List.mem_filter.mp hm).1) hslots hcomplete⟩

end Fields

section Record

variable {α β δ : Type} {name : String} {closed : Bool} {fields : Fields β δ} {make : β → α}
  {parts : α → β} {make_parts : ∀ a, make (parts a) = a} {a : α}

theorem Shape.decode_record_array_iff {values : List Value} :
    (Shape.record name closed fields make parts make_parts).decode (.array values) = .ok a ↔
      ∃ b, fields.decodeItems (fields.tooShort name) 0 values = .ok (b, []) ∧ make b = a := by
  rw [Shape.decode]
  refine bind_eq_ok_iff.trans ?_
  constructor
  · rintro ⟨⟨b, surplus⟩, hdecode, h⟩
    dsimp only at h
    split_ifs at h with hempty
    rw [List.isEmpty_iff] at hempty
    subst hempty
    exact ⟨b, hdecode, Except.ok.inj h⟩
  · rintro ⟨b, hdecode, rfl⟩
    exact ⟨_, hdecode, rfl⟩

theorem Shape.decode_record_object_iff {members : Members} :
    (Shape.record name closed fields make parts make_parts).decode (.object members) = .ok a ↔
      ∃ draft b, (Members.canonical members).foldlM
          (fields.decodeMember (fields.refusal closed)) fields.blank = .ok draft ∧
        fields.complete draft = .ok b ∧ make b = a := by
  rw [Shape.decode]
  refine bind_eq_ok_iff.trans ?_
  constructor
  · rintro ⟨draft, hfold, h⟩
    obtain ⟨b, hcomplete, h⟩ := bind_eq_ok_iff.mp h
    exact ⟨draft, b, hfold, hcomplete, Except.ok.inj h⟩
  · rintro ⟨draft, b, hfold, hcomplete, rfl⟩
    exact ⟨draft, hfold, bind_eq_ok_iff.mpr ⟨b, hcomplete, rfl⟩⟩

/-- As long as no field has two members, an object is decoded by the keys of the fields. -/
theorem Shape.decode_record_slots_iff {members : Members} (honce : fields.Once members) :
    (Shape.record name closed fields make parts make_parts).decode (.object members) = .ok a ↔
      ∃ draft b, (closed = true → ∀ m ∈ members, m.1 ∈ fields.keys) ∧
        fields.slots members = .ok draft ∧ fields.complete draft = .ok b ∧ make b = a := by
  rw [decode_record_object_iff, ← Fields.forall_refusal_iff]
  refine exists_congr fun draft ↦ exists_congr fun b ↦ ?_
  rw [fields.foldlM_canonical_iff _ honce, fields.foldlM_decodeMember_iff _ honce, and_assoc]

theorem Shape.agrees_record (hagree : fields.AllAgree) :
    Agrees (Shape.record name closed fields make parts make_parts).Means
      (Shape.record name closed fields make parts make_parts).decode := by
  constructor
  · intro v a hmeans
    rw [Shape.Means] at hmeans
    obtain ⟨b, rfl, ⟨values, rfl, hvalues⟩ | ⟨members, rfl, hknown, honce, hmembers⟩⟩ := hmeans
    · exact decode_record_array_iff.mpr ⟨b, fields.decodeItems_of_means hagree hvalues, rfl⟩
    · obtain ⟨draft, hslots, hcomplete⟩ := fields.exists_slots_of_means hagree hmembers
      exact (decode_record_slots_iff honce).mpr ⟨draft, b, hknown, hslots, hcomplete, rfl⟩
  · intro v a hdistinct ha
    rw [Shape.Means]
    cases v with
    | scalar s => simp [Shape.decode] at ha
    | array values =>
      obtain ⟨b, hdecode, rfl⟩ := decode_record_array_iff.mp ha
      have hvalues := Value.distinct_array_iff.mp hdistinct
      exact ⟨b, rfl, Or.inl ⟨values, rfl, fields.means_of_decodeItems hagree hvalues hdecode⟩⟩
    | object members =>
      obtain ⟨hkeys, hvalues⟩ := Value.distinct_object_iff.mp hdistinct
      have honce := fields.once_of_nodup hkeys
      obtain ⟨draft, b, hknown, hslots, hcomplete, rfl⟩ := (decode_record_slots_iff honce).mp ha
      have hmembers := fields.means_of_slots hagree hvalues hslots hcomplete
      exact ⟨b, rfl, Or.inr ⟨members, rfl, hknown, honce, hmembers⟩⟩

end Record

/-! ### Shapes -/

mutual

/-- No part of the shape lists entries. -/
def Shape.EntryFree : {α : Type} → Shape α → Prop
  | _, .atom _ => True
  | _, .nullable value => value.EntryFree
  | _, .choice _ _ _ => True
  | _, .list item => item.EntryFree
  | _, .entries _ => False
  | _, .record _ _ fields _ _ _ => fields.EntryFree

def Fields.EntryFree : {β δ : Type} → Fields β δ → Prop
  | _, _, .nil => True
  | _, _, .cons _ shape _ rest => shape.EntryFree ∧ rest.EntryFree

end

mutual

/-- The decoder of trees goes by their meaning. -/
theorem Shape.agrees : {α : Type} → (shape : Shape α) → shape.EntryFree →
    Agrees shape.Means shape.decode
  | _, .atom _, _ => ⟨id, fun _ ↦ id⟩
  | _, .nullable value, hfree => Shape.agrees_nullable (value.agrees hfree)
  | _, .choice _ _ _, _ => Shape.agrees_choice
  | _, .list item, hfree => Shape.agrees_list (item.agrees hfree)
  | _, .entries _, hfree => hfree.elim
  | _, .record _ _ fields _ _ _, hfree => Shape.agrees_record (fields.allAgree hfree)

theorem Fields.allAgree : {β δ : Type} → (fields : Fields β δ) → fields.EntryFree →
    fields.AllAgree
  | _, _, .nil, _ => trivial
  | _, _, .cons _ shape _ rest, hfree => ⟨shape.agrees hfree.1, rest.allAgree hfree.2⟩

end

/-- A text that holds a value is parsed to what the value is decoded to, and to nothing else. -/
theorem Shape.parse_agrees {α : Type} (shape : Shape α) (hfree : shape.EntryFree) {text : String}
    {v : Value} (hv : Value.parse text = .ok v) (a : α) :
    (v.Distinct → shape.decode v = .ok a → shape.parse text = .ok a) ∧
      (shape.parse text = .ok a → shape.decode v = .ok a) := by
  have hagree := shape.agrees hfree
  rw [Shape.parse_iff_means hv]
  exact ⟨hagree.means_of_decode, hagree.decode_of_means⟩

/-! ### Printed values -/

mutual

theorem Shape.entryFree_of_faithful : {α : Type} → (shape : Shape α) → shape.Faithful →
    shape.EntryFree
  | _, .atom _, _ => trivial
  | _, .nullable value, h => value.entryFree_of_faithful h.1
  | _, .choice _ _ _, _ => trivial
  | _, .list item, h => item.entryFree_of_faithful h
  | _, .entries _, h => h
  | _, .record _ _ fields _ _ _, h => fields.entryFree_of_faithful h

theorem Fields.entryFree_of_faithful : {β δ : Type} → (fields : Fields β δ) → fields.Faithful →
    fields.EntryFree
  | _, _, .nil, _ => trivial
  | _, _, .cons _ shape _ rest, h =>
    ⟨shape.entryFree_of_faithful h.2.1, rest.entryFree_of_faithful h.2.2⟩

end

mutual

/-- No object in an encoded value repeats a key. -/
theorem Shape.distinct_encode : {α : Type} → (shape : Shape α) → shape.Faithful → (a : α) →
    (shape.encode a).Distinct
  | _, .atom atom, _, a => .scalar (atom.encode a)
  | _, .nullable _, _, none => .scalar .null
  | _, .nullable value, h, some a => value.distinct_encode h.1 a
  | _, .choice _ name _, _, a => .scalar (.text (name a))
  | _, .list item, h, as => by
    refine .array fun v hv ↦ ?_
    obtain ⟨a, _, rfl⟩ := List.mem_map.mp hv
    exact item.distinct_encode h a
  | _, .entries _, h, _ => h.elim
  | _, .record _ _ fields _ parts _, h, a =>
    .object ((fields.keys_encode (parts a)).nodup (fields.nodup_keys h))
      (fields.distinct_encode h (parts a))

theorem Fields.distinct_encode : {β δ : Type} → (fields : Fields β δ) → fields.Faithful →
    (b : β) → ∀ m ∈ fields.encode b, m.2.Distinct
  | _, _, .nil, _, (), m, hm => by simp [Fields.encode] at hm
  | _, _, .cons key shape presence rest, h, (a, b), m, hm => by
    rw [Fields.encode] at hm
    split_ifs at hm
    · exact rest.distinct_encode h.2.2 b m hm
    · rcases List.mem_cons.mp hm with rfl | hm
      · exact shape.distinct_encode h.2.1 a
      · exact rest.distinct_encode h.2.2 b m hm

end

/-- A printed value is parsed directly to what it was. -/
theorem Shape.parse_print {α : Type} (shape : Shape α) (hfaithful : shape.Faithful)
    (hdepth : shape.depth ≤ Value.depthLimit) (a : α) : shape.parse (shape.print a) = .ok a := by
  have hvalue : Value.parse (shape.print a) = .ok (shape.encode a) :=
    Value.parse_print ((shape.fits_encode a).mono hdepth)
  have hagree := shape.parse_agrees (shape.entryFree_of_faithful hfaithful) hvalue a
  exact hagree.1 (shape.distinct_encode hfaithful a) (shape.decode_encode hfaithful a)

end ChangeDdl.Json
