import ChangeDdl.Proofs.Json.Gap

/-!
Decoding around a gap. When a value decodes with something in one of its gaps, it decodes with
anything else there exactly as far as that decodes as the part that belongs to the place, and the
result is the same around it (`Gap.Decodes`). This holds for the items of lists (`Gap.decodes_item`)
and for the fields of open records, be they given as arrays or as objects (`Gap.decodes_field`).
-/

set_option autoImplicit false
set_option relaxedAutoImplicit false

namespace ChangeDdl.Json

/-- With a value for the part in the gap, the whole decodes to the part in its surroundings. -/
def Gap.Decodes {α γ : Type} (gap : Gap) (whole : Shape α) (part : Shape γ) (surround : γ → α) :
    Prop :=
  ∀ v a, whole.decode (gap.fill v) = .ok a ↔ ∃ c, part.decode v = .ok c ∧ surround c = a

theorem Gap.decodes_here {α : Type} (shape : Shape α) : Gap.here.Decodes shape shape id := by
  intro v a
  simp [fill]

/-! ### Items -/

variable {α γ : Type}

theorem Gap.decodes_item {item : Shape α} {gap : Gap} {before after : List Value} {v : Value}
    {as : List α} (h : (Shape.list item).decode ((Gap.item before gap after).fill v) = .ok as) :
    ∃ first a last, as = first ++ a :: last ∧ item.decode (gap.fill v) = .ok a ∧
      ∀ {part : Shape γ} {surround : γ → α}, gap.Decodes item part surround →
        (Gap.item before gap after).Decodes (.list item) part
          fun c ↦ first ++ surround c :: last := by
  rw [fill, Shape.decode, mapM_append_cons_eq_ok_iff] at h
  obtain ⟨first, a, last, hfirst, ha, hlast, rfl⟩ := h
  refine ⟨first, a, last, rfl, ha, fun hgap v as ↦ ?_⟩
  rw [fill, Shape.decode, mapM_append_cons_eq_ok_iff]
  constructor
  · rintro ⟨others, b, more, hothers, hb, hmore, rfl⟩
    obtain ⟨c, hc, rfl⟩ := (hgap v b).mp hb
    obtain rfl := Except.ok.inj (hfirst.symm.trans hothers)
    obtain rfl := Except.ok.inj (hlast.symm.trans hmore)
    exact ⟨c, hc, rfl⟩
  · rintro ⟨c, hc, rfl⟩
    exact ⟨first, _, last, hfirst, (hgap v _).mpr ⟨c, hc, rfl⟩, hlast, rfl⟩

/-! ### Fields -/

/-- Field `n` of a record, with its key, its shape, and how its value is looked up and set. -/
inductive Fields.At : {γ β δ : Type} → Fields β δ → String → Nat → Shape γ → (β → γ) →
    (γ → β → β) → Prop where
  | first {γ β δ : Type} {key : String} {shape : Shape γ} {presence : Presence γ}
    {rest : Fields β δ} :
    At (.cons key shape presence rest) key 0 shape Prod.fst fun c b ↦ (c, b.2)
  | later {γ α β δ : Type} {key other : String} {n : Nat} {shape : Shape γ} {first : Shape α}
    {presence : Presence α} {rest : Fields β δ} {get : β → γ} {set : γ → β → β}
    (hne : other ≠ key) (h : At rest key n shape get set) :
    At (.cons other first presence rest) key (n + 1) shape (fun b ↦ get b.2)
      fun c b ↦ (b.1, set c b.2)

/-- A gap in the value of a field: as the item of its number in an array, or as the member of its
key in an object that has no further member of this key. -/
inductive Gap.InField (key : String) (n : Nat) (inner : Gap) : Gap → Prop where
  | item (before after : List Value) (hn : before.length = n) :
    InField key n inner (.item before inner after)
  | member (before after : Members) (hlast : key ∉ after.map Prod.fst) :
    InField key n inner (.member before key inner after)

namespace Fields

section Items

variable {tooShort : Nat → Mismatch}

theorem At.decodeItems_iff {γ β δ : Type} {fields : Fields β δ} {key : String} {n : Nat}
    {shape : Shape γ} {get : β → γ} {set : γ → β → β} (hfield : fields.At key n shape get set)
    {before after surplus : List Value} (hn : before.length = n) {count : Nat} {v : Value} {b : β}
    (h : fields.decodeItems tooShort count (before ++ v :: after) = .ok (b, surplus)) :
    shape.decode v = .ok (get b) ∧
      ∀ w other, fields.decodeItems tooShort count (before ++ w :: after) = .ok (other, surplus) ↔
        ∃ c, shape.decode w = .ok c ∧ set c b = other := by
  induction hfield generalizing before count with
  | first =>
    obtain rfl := List.length_eq_zero_iff.mp hn
    obtain ⟨hv, hafter⟩ := decodeItems_cons_cons_iff.mp h
    refine ⟨hv, fun w other ↦ decodeItems_cons_cons_iff.trans ⟨?_, ?_⟩⟩
    · rintro ⟨hw, hmore⟩
      have hb := (Prod.mk.inj (Except.ok.inj (hafter.symm.trans hmore))).1
      exact ⟨other.1, hw, Prod.ext rfl hb⟩
    · rintro ⟨c, hw, rfl⟩
      exact ⟨hw, hafter⟩
  | later hne _ ih =>
    cases before with
    | nil => simp at hn
    | cons u before =>
      obtain ⟨hu, hmore⟩ := decodeItems_cons_cons_iff.mp h
      obtain ⟨hv, hothers⟩ := ih (Nat.succ.inj hn) hmore
      refine ⟨hv, fun w other ↦ decodeItems_cons_cons_iff.trans ⟨?_, ?_⟩⟩
      · rintro ⟨hfirst, hrest⟩
        obtain ⟨c, hc, hset⟩ := (hothers w other.2).mp hrest
        exact ⟨c, hc, Prod.ext (Except.ok.inj (hu.symm.trans hfirst)) hset⟩
      · rintro ⟨c, hc, rfl⟩
        exact ⟨hu, (hothers w _).mpr ⟨c, hc, rfl⟩⟩

end Items

section Members

variable {β δ : Type} {fields : Fields β δ} {members others : Members}

/-- What the members under the keys of the fields decode to, and defaults where there are none. -/
def Gathers (fields : Fields β δ) (members : Members) (b : β) : Prop :=
  ∃ draft, fields.slots members = .ok draft ∧ fields.complete draft = .ok b

theorem gathers_congr {b : β} (h : ∀ key, members.lookup key = others.lookup key) :
    fields.Gathers members b ↔ fields.Gathers others b := by
  rw [Gathers, Gathers, fields.slots_congr fun key _ ↦ h key]

variable {γ : Type} {key : String} {shape : Shape γ} {presence : Presence γ} {p : γ × β}

theorem gathers_cons_iff :
    (cons key shape presence fields).Gathers members p ↔
      (∃ found, slot shape key members = .ok found ∧ (found <|> presence.default?) = some p.1) ∧
        fields.Gathers (members.filter fun m ↦ m.1 ≠ key) p.2 := by
  constructor
  · rintro ⟨⟨found, draft⟩, hslots, hcomplete⟩
    obtain ⟨hslot, hrest⟩ := slots_cons_iff.mp hslots
    obtain ⟨hfound, hmore⟩ := complete_cons_iff.mp hcomplete
    exact ⟨⟨found, hslot, hfound⟩, draft, hrest, hmore⟩
  · rintro ⟨⟨found, hslot, hfound⟩, draft, hrest, hmore⟩
    exact ⟨(found, draft), slots_cons_iff.mpr ⟨hslot, hrest⟩, complete_cons_iff.mpr ⟨hfound, hmore⟩⟩

/-- A field with a member holds what this decodes to. -/
theorem gathers_cons_of_lookup {v : Value} (hv : members.lookup key = some v) :
    (cons key shape presence fields).Gathers members p ↔ shape.decode v = .ok p.1 ∧
      fields.Gathers (members.filter fun m ↦ m.1 ≠ key) p.2 := by
  rw [gathers_cons_iff, slot, hv]
  refine and_congr_left fun _ ↦ ?_
  constructor
  · rintro ⟨found, hslot, hfound⟩
    obtain ⟨c, hc, rfl⟩ := map_eq_ok_iff.mp hslot
    obtain rfl : c = p.1 := Option.some.inj hfound
    exact hc
  · intro hc
    exact ⟨some p.1, map_eq_ok_iff.mpr ⟨p.1, hc, rfl⟩, rfl⟩

theorem lookup_filter_self (h : ∀ k, k ≠ key → members.lookup k = others.lookup k) (k : String) :
    (members.filter fun m ↦ m.1 ≠ key).lookup k = (others.filter fun m ↦ m.1 ≠ key).lookup k := by
  rw [Members.lookup_filter_ne, Members.lookup_filter_ne]
  split_ifs with hk
  · rfl
  · exact h k hk

/-- Under all keys but one, the same members. -/
theorem lookup_filter_congr {name : String}
    (h : ∀ k, k ≠ key → members.lookup k = others.lookup k) (k : String) (hk : k ≠ key) :
    (members.filter fun m ↦ m.1 ≠ name).lookup k = (others.filter fun m ↦ m.1 ≠ name).lookup k := by
  rw [Members.lookup_filter_ne, Members.lookup_filter_ne, h k hk]

end Members

theorem Gathers.unique {β δ : Type} {fields : Fields β δ} {members : Members} {b other : β}
    (h : fields.Gathers members b) (hother : fields.Gathers members other) : b = other := by
  obtain ⟨draft, hslots, hcomplete⟩ := h
  obtain ⟨found, hfound, hother⟩ := hother
  obtain rfl := Except.ok.inj (hslots.symm.trans hfound)
  exact Except.ok.inj (hcomplete.symm.trans hother)

theorem At.gathers_iff {γ β δ : Type} {fields : Fields β δ} {key : String} {n : Nat}
    {shape : Shape γ} {get : β → γ} {set : γ → β → β} (hfield : fields.At key n shape get set)
    {members others : Members} {v w : Value} {b : β} (hv : members.lookup key = some v)
    (hw : others.lookup key = some w)
    (hsame : ∀ k, k ≠ key → members.lookup k = others.lookup k) (h : fields.Gathers members b) :
    shape.decode v = .ok (get b) ∧
      ∀ other, fields.Gathers others other ↔ ∃ c, shape.decode w = .ok c ∧ set c b = other := by
  induction hfield generalizing members others with
  | @first _ _ key _ _ rest =>
    obtain ⟨hfirst, hrest⟩ := (gathers_cons_of_lookup hv).mp h
    rw [gathers_congr (lookup_filter_self hsame)] at hrest
    refine ⟨hfirst, fun other ↦ (gathers_cons_of_lookup hw).trans ⟨?_, ?_⟩⟩
    · rintro ⟨hc, hmore⟩
      exact ⟨other.1, hc, Prod.ext rfl (hrest.unique hmore)⟩
    · rintro ⟨c, hc, rfl⟩
      exact ⟨hc, hrest⟩
  | @later _ _ _ key name _ _ first _ rest _ _ hne _ ih =>
    obtain ⟨⟨found, hslot, hfound⟩, hrest⟩ := gathers_cons_iff.mp h
    have hkept : ∀ {members : Members} {v : Value}, members.lookup key = some v →
        (members.filter fun m ↦ m.1 ≠ name).lookup key = some v := by
      intro members v hv
      rw [Members.lookup_filter_ne, if_neg (Ne.symm hne), hv]
    obtain ⟨hc, hothers⟩ := ih (hkept hv) (hkept hw) (lookup_filter_congr hsame) hrest
    rw [slot, hsame name hne] at hslot
    refine ⟨hc, fun other ↦ gathers_cons_iff.trans ?_⟩
    rw [hothers]
    constructor
    · rintro ⟨⟨again, hagain, hfirst⟩, c, hc, hset⟩
      obtain rfl := Except.ok.inj (hslot.symm.trans hagain)
      exact ⟨c, hc, Prod.ext (Option.some.inj (hfound.symm.trans hfirst)) hset⟩
    · rintro ⟨c, hc, rfl⟩
      exact ⟨⟨found, hslot, hfound⟩, c, hc, rfl⟩

end Fields

section Record

variable {β δ : Type} {name : String} {fields : Fields β δ} {make : β → α} {parts : α → β}
  {make_parts : ∀ a, make (parts a) = a}

/-- An object for an open record is decoded by the keys of the fields, of which the last member
counts. -/
theorem Shape.decode_record_gathers_iff {members : Members} {a : α} :
    (Shape.record name false fields make parts make_parts).decode (.object members) = .ok a ↔
      ∃ b, fields.Gathers (Members.canonical members) b ∧ make b = a := by
  have honce := fields.once_of_nodup (Members.nodup_keys_canonical members)
  have hopen : ∀ m ∈ Members.canonical members, m.1 ∉ fields.keys →
      fields.refusal false m.1 = none := fun _ _ _ ↦ rfl
  rw [decode_record_object_iff]
  constructor
  · rintro ⟨draft, b, hfold, hcomplete, rfl⟩
    exact ⟨b, ⟨draft, ((fields.foldlM_decodeMember_iff _ honce).mp hfold).2, hcomplete⟩, rfl⟩
  · rintro ⟨b, ⟨draft, hslots, hcomplete⟩, rfl⟩
    exact ⟨draft, b, (fields.foldlM_decodeMember_iff _ honce).mpr ⟨hopen, hslots⟩, hcomplete, rfl⟩

/-- With the last member of a key replaced, the other keys go on as before. -/
theorem Members.lookup_canonical_replace {before after : Members} {key : String}
    (hlast : key ∉ after.map Prod.fst) (v : Value) (k : String) :
    (canonical (before ++ (key, v) :: after)).lookup k =
      if k = key then some v else (canonical (before ++ after)).lookup k := by
  rw [lookup_canonical]
  split_ifs with hk
  · rw [hk, last?, lookup_reverse_of_last hlast]
  · rw [lookup_canonical, last?_append, last?_append, last?_cons, if_neg hk, Option.or_none]

section Field

variable {field : Shape γ} {key : String} {n : Nat} {get : β → γ} {set : γ → β → β}
  (hfield : fields.At key n field get set) {inner gap : Gap} (hgap : Gap.InField key n inner gap)
  {v : Value} {a : α}
  (h : (Shape.record name false fields make parts make_parts).decode (gap.fill v) = .ok a)

include hfield hgap h

theorem Shape.decode_field_iff :
    ∃ b, make b = a ∧ field.decode (inner.fill v) = .ok (get b) ∧ ∀ w other,
      (Shape.record name false fields make parts make_parts).decode (gap.fill w) = .ok other ↔
        ∃ c, field.decode (inner.fill w) = .ok c ∧ make (set c b) = other := by
  cases hgap with
  | item before after hn =>
    simp only [Gap.fill] at h ⊢
    obtain ⟨b, hitems, rfl⟩ := decode_record_array_iff.mp h
    obtain ⟨hc, hothers⟩ := hfield.decodeItems_iff hn hitems
    refine ⟨b, rfl, hc, fun w other ↦ decode_record_array_iff.trans ⟨?_, ?_⟩⟩
    · rintro ⟨_, hmore, rfl⟩
      obtain ⟨c, hc, rfl⟩ := (hothers _ _).mp hmore
      exact ⟨c, hc, rfl⟩
    · rintro ⟨c, hc, rfl⟩
      exact ⟨_, (hothers _ _).mpr ⟨c, hc, rfl⟩, rfl⟩
  | member before after hlast =>
    simp only [Gap.fill] at h ⊢
    obtain ⟨b, hgathers, rfl⟩ := decode_record_gathers_iff.mp h
    have hkey : ∀ w, (Members.canonical (before ++ (key, w) :: after)).lookup key = some w :=
      fun w ↦ (Members.lookup_canonical_replace hlast w key).trans (if_pos rfl)
    have hsame : ∀ w k, k ≠ key →
        (Members.canonical (before ++ (key, inner.fill v) :: after)).lookup k =
          (Members.canonical (before ++ (key, w) :: after)).lookup k := by
      intro w k hk
      rw [Members.lookup_canonical_replace hlast, Members.lookup_canonical_replace hlast,
        if_neg hk, if_neg hk]
    have hothers := fun w ↦ hfield.gathers_iff (hkey (inner.fill v)) (hkey w) (hsame w) hgathers
    refine ⟨b, rfl, (hothers .null).1, fun w other ↦ decode_record_gathers_iff.trans ⟨?_, ?_⟩⟩
    · rintro ⟨_, hmore, rfl⟩
      obtain ⟨c, hc, rfl⟩ := ((hothers _).2 _).mp hmore
      exact ⟨c, hc, rfl⟩
    · rintro ⟨c, hc, rfl⟩
      exact ⟨_, ((hothers _).2 _).mpr ⟨c, hc, rfl⟩, rfl⟩

theorem Gap.decodes_field (hparts : ∀ b, parts (make b) = b) :
    field.decode (inner.fill v) = .ok (get (parts a)) ∧
      ∀ {ε : Type} {part : Shape ε} {surround : ε → γ}, inner.Decodes field part surround →
        gap.Decodes (.record name false fields make parts make_parts) part
          fun d ↦ make (set (surround d) (parts a)) := by
  obtain ⟨b, rfl, hc, hothers⟩ := Shape.decode_field_iff hfield hgap h
  rw [hparts]
  refine ⟨hc, fun hinner w other ↦ (hothers w other).trans ⟨?_, ?_⟩⟩
  · rintro ⟨c, hc, rfl⟩
    obtain ⟨d, hd, rfl⟩ := (hinner w c).mp hc
    exact ⟨d, hd, rfl⟩
  · rintro ⟨d, hd, rfl⟩
    exact ⟨_, (hinner w _).mpr ⟨d, hd, rfl⟩, rfl⟩

end Field

end Record

/-! ### Fields that are left out -/

/-- The field of this key has this default. -/
inductive Fields.Defaults : {γ β δ : Type} → Fields β δ → String → Nat → Shape γ → γ → Prop where
  | first {γ β δ : Type} {key : String} {shape : Shape γ} {presence : Presence γ}
    {rest : Fields β δ} {c : γ} (hdefault : presence.default? = some c) :
    Defaults (.cons key shape presence rest) key 0 shape c
  | later {γ α β δ : Type} {key other : String} {n : Nat} {shape : Shape γ} {first : Shape α}
    {presence : Presence α} {rest : Fields β δ} {c : γ} (hne : other ≠ key)
    (h : Defaults rest key n shape c) :
    Defaults (.cons other first presence rest) key (n + 1) shape c

/-- The value without the field that a gap stands for: an array that ends in front of it, or an
object without members of its key. -/
inductive Gap.Omitted (key : String) (n : Nat) : Gap → Value → Prop where
  | item (before : List Value) (hn : before.length = n) :
    Omitted key n (.item before .here []) (.array before)
  | member (before after : Members) : Omitted key n (.member before key .here after)
    (.object ((before ++ after).filter fun m ↦ m.1 ≠ key))

theorem Gap.Omitted.spellable {key : String} {n : Nat} {gap : Gap} {v absent : Value}
    (h : Gap.Omitted key n gap absent) {depth : Nat} (hv : (gap.fill v).Spellable depth) :
    absent.Spellable depth := by
  cases h with
  | item before _ =>
    obtain ⟨inner, hdepth, hvalues⟩ := Value.spellable_array_iff.mp hv
    exact Value.spellable_array_iff.mpr
      ⟨inner, hdepth, fun u hu ↦ hvalues u (List.mem_append_left _ hu)⟩
  | member before after =>
    have hmore : before ++ after ⊆ before ++ (key, v) :: after :=
      List.Sublist.subset ((List.sublist_cons_self _ _).append_left before)
    exact Value.Spellable.object_subset hv (List.Subset.trans List.filter_sublist.subset hmore)

namespace Fields

theorem decodeItems_nil_iff {tooShort : Nat → Mismatch} {β δ : Type} (fields : Fields β δ)
    {count : Nat} {b : β} :
    fields.decodeItems tooShort count [] = .ok (b, []) ↔ fields.defaults count = .ok b := by
  cases fields with
  | nil => simp [decodeItems, defaults]
  | cons key shape presence rest => exact decodeItems_cons_nil_iff.trans (and_iff_left rfl)

/-- At the end of an array, a field that holds its default can be left out. -/
theorem Defaults.decodeItems {γ β δ : Type} {fields : Fields β δ} {key : String} {n : Nat}
    {shape : Shape γ} {c : γ} (hfield : fields.Defaults key n shape c)
    {tooShort : Nat → Mismatch} {before : List Value} (hn : before.length = n) {count : Nat}
    {v : Value} (hv : shape.decode v = .ok c) {b : β}
    (h : fields.decodeItems tooShort count (before ++ [v]) = .ok (b, [])) :
    fields.decodeItems tooShort count before = .ok (b, []) := by
  induction hfield generalizing before count with
  | @first _ _ _ _ _ rest _ hdefault =>
    obtain rfl := List.length_eq_zero_iff.mp hn
    obtain ⟨hfirst, hrest⟩ := decodeItems_cons_cons_iff.mp h
    rw [decodeItems_nil_iff] at hrest ⊢
    rw [defaults, hdefault, hrest]
    exact congrArg Except.ok (Prod.ext (Except.ok.inj (hv.symm.trans hfirst)) rfl)
  | later _ _ ih =>
    cases before with
    | nil => simp at hn
    | cons u before =>
      obtain ⟨hu, hmore⟩ := decodeItems_cons_cons_iff.mp h
      exact decodeItems_cons_cons_iff.mpr ⟨hu, ih (Nat.succ.inj hn) hv hmore⟩

/-- A member for a field that holds its default can be left out. -/
theorem Defaults.gathers {γ β δ : Type} {fields : Fields β δ} {key : String} {n : Nat}
    {shape : Shape γ} {c : γ} (hfield : fields.Defaults key n shape c) {members others : Members}
    {v : Value} (hv : members.lookup key = some v) (hc : shape.decode v = .ok c)
    (hnone : others.lookup key = none)
    (hsame : ∀ k, k ≠ key → members.lookup k = others.lookup k) {b : β}
    (h : fields.Gathers members b) : fields.Gathers others b := by
  induction hfield generalizing members others with
  | @first _ _ key _ _ _ _ hdefault =>
    obtain ⟨hfirst, hrest⟩ := (gathers_cons_of_lookup hv).mp h
    have hfilter := lookup_filter_self hsame
    refine gathers_cons_iff.mpr ⟨⟨none, by rw [slot, hnone], ?_⟩, (gathers_congr hfilter).mp hrest⟩
    rw [hdefault, ← Except.ok.inj (hc.symm.trans hfirst)]
    rfl
  | @later _ _ _ key name _ _ _ _ _ _ hne _ ih =>
    obtain ⟨⟨found, hslot, hfound⟩, hrest⟩ := gathers_cons_iff.mp h
    rw [slot, hsame name hne] at hslot
    refine gathers_cons_iff.mpr
      ⟨⟨found, hslot, hfound⟩, ih ?_ hc ?_ (lookup_filter_congr hsame) hrest⟩
    · rw [Members.lookup_filter_ne, if_neg (Ne.symm hne), hv]
    · rw [Members.lookup_filter_ne, if_neg (Ne.symm hne), hnone]

end Fields

theorem Members.lookup_canonical_filter_ne (key k : String) (members : Members) :
    (canonical (members.filter fun m ↦ m.1 ≠ key)).lookup k =
      if k = key then none else (canonical members).lookup k := by
  have hfilter : canonical (members.filter fun m ↦ m.1 ≠ key) =
      (canonical members).filter fun m ↦ m.1 ≠ key := canonical_filter (fun k ↦ decide (k ≠ key)) _
  rw [hfilter, lookup_filter_ne]

section Omitted

variable {β δ : Type} {name : String} {fields : Fields β δ} {make : β → α} {parts : α → β}
  {make_parts : ∀ a, make (parts a) = a}

theorem Shape.decode_omitted {field : Shape γ} {key : String} {n : Nat} {c : γ}
    (hfield : fields.Defaults key n field c) {gap : Gap} {v absent : Value}
    (habsent : Gap.Omitted key n gap absent) (hlast : Gap.InField key n .here gap)
    (hc : field.decode v = .ok c) {a : α}
    (h : (Shape.record name false fields make parts make_parts).decode (gap.fill v) = .ok a) :
    (Shape.record name false fields make parts make_parts).decode absent = .ok a := by
  cases habsent with
  | item before hn =>
    simp only [Gap.fill] at h
    obtain ⟨b, hitems, rfl⟩ := decode_record_array_iff.mp h
    exact decode_record_array_iff.mpr ⟨b, hfield.decodeItems hn hc hitems, rfl⟩
  | member before after =>
    obtain hlast : key ∉ after.map Prod.fst := by
      cases hlast with
      | member _ _ hlast => exact hlast
    simp only [Gap.fill] at h
    obtain ⟨b, hgathers, rfl⟩ := decode_record_gathers_iff.mp h
    refine decode_record_gathers_iff.mpr ⟨b, hfield.gathers ?_ hc ?_ (fun k hk ↦ ?_) hgathers, rfl⟩
    · rw [Members.lookup_canonical_replace hlast, if_pos rfl]
    · rw [Members.lookup_canonical_filter_ne, if_pos rfl]
    · rw [Members.lookup_canonical_replace hlast, Members.lookup_canonical_filter_ne, if_neg hk,
        if_neg hk]

end Omitted

end ChangeDdl.Json
