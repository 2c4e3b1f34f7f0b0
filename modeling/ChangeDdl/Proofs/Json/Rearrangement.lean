import ChangeDdl.Proofs.Json.Extension

/-!
The order of members, and members that a later one overrules. One value rearranges another when two
neighbouring members with different keys change places in an object of it, or when a member goes
that has a later one with the same key (`Value.Rearranges`). Readers of trees look at objects in
their canonical view and so decode both values alike (`Value.Rearranges.alike`).
-/

set_option autoImplicit false
set_option relaxedAutoImplicit false

namespace ChangeDdl.Json

/-! ### Values that are decoded alike -/

/-- No shape tells the values apart. -/
structure Value.Alike (v w : Value) : Prop where
  decode_eq {α : Type} (shape : Shape α) : shape.decode v = shape.decode w

open Value (Alike)

theorem Value.Alike.refl (v : Value) : Alike v v := ⟨fun _ ↦ rfl⟩

/-- Where a text is expected, any other value is complained about as what it is. -/
theorem Value.Alike.found_eq {v w : Value} (h : Alike v w) : v.found = w.found := by
  have htext : ∀ found other : Found, Atom.acceptText found = Atom.acceptText other →
      found = other := by
    intro found other heq
    unfold Atom.acceptText at heq
    split at heq <;> split at heq <;> simp_all
  exact htext v.found w.found (h.decode_eq (.atom .text))

/-- Members with the same key whose values are decoded alike. -/
def AlikeMembers (m n : String × Value) : Prop :=
  m.1 = n.1 ∧ Alike m.2 n.2

namespace Fields

/-- Values that are decoded alike have the same effect on a draft. -/
theorem decodeMember_congr (refusal : String → Option Mismatch) {name : String} {v w : Value}
    (h : Alike v w) : {β δ : Type} → (fields : Fields β δ) → (draft : δ) →
    fields.decodeMember refusal draft (name, v) = fields.decodeMember refusal draft (name, w)
  | _, _, nil, () => by rw [decodeMember, decodeMember]
  | _, _, cons key shape presence rest, (slot, others) => by
    rw [decodeMember, decodeMember, h.decode_eq shape, rest.decodeMember_congr refusal h others]

/-- The fields are decoded alike, and items are left over for both or for neither. -/
theorem decodeItems_congr (tooShort : Nat → Mismatch) : {β δ : Type} → (fields : Fields β δ) →
    (n : Nat) → {values others : List Value} → List.Forall₂ Alike values others →
    (∃ what, fields.decodeItems tooShort n values = .error what ∧
        fields.decodeItems tooShort n others = .error what) ∨
      ∃ b surplus more, fields.decodeItems tooShort n values = .ok (b, surplus) ∧
        fields.decodeItems tooShort n others = .ok (b, more) ∧ surplus.isEmpty = more.isEmpty
  | _, _, nil, _, _, _, .nil => Or.inr ⟨(), [], [], rfl, rfl, rfl⟩
  | _, _, nil, _, _, _, .cons _ _ => Or.inr ⟨(), _, _, rfl, rfl, rfl⟩
  | _, _, cons key shape presence rest, n, _, _, .nil => by
    cases h : (cons key shape presence rest).decodeItems tooShort n [] with
    | error what => exact Or.inl ⟨what, rfl, rfl⟩
    | ok p => exact Or.inr ⟨p.1, p.2, p.2, rfl, rfl, rfl⟩
  | _, _, cons key shape presence rest, n, v :: values, w :: others, .cons hfirst hmore => by
    rw [decodeItems, decodeItems, hfirst.decode_eq shape]
    cases shape.decode w with
    | error what => exact Or.inl ⟨what, rfl, rfl⟩
    | ok a =>
      rcases rest.decodeItems_congr tooShort (n + 1) hmore with
        ⟨what, hvalues, hothers⟩ | ⟨b, surplus, more, hvalues, hothers, hempty⟩
      · rw [hvalues, hothers]
        exact Or.inl ⟨what, rfl, rfl⟩
      · rw [hvalues, hothers]
        exact Or.inr ⟨(a, b), surplus, more, rfl, rfl, hempty⟩

end Fields

section Parts

variable {members others : Members}

/-- A choice given as an object has one member. -/
theorem decodeChoice_congr {α : Type} (variants : List (String × α))
    (h : List.Forall₂ AlikeMembers (Members.canonical members) (Members.canonical others)) :
    decodeChoice variants (.object members) = decodeChoice variants (.object others) := by
  rw [decodeChoice, decodeChoice]
  generalize Members.canonical members = kept at h ⊢
  generalize Members.canonical others = more at h ⊢
  match h with
  | .nil => rfl
  | .cons _ (.cons _ _) => rfl
  | .cons (a := (key, v)) (b := (name, w)) hfirst .nil =>
    obtain ⟨rfl, hv⟩ : key = name ∧ Alike v w := hfirst
    match v, w, hv.found_eq with
    | .scalar s, .scalar t, hfound => rw [Found.scalar.inj hfound]
    | .array _, .array _, _ => rfl
    | .object _, .object _, _ => rfl

/-- An array is decoded by its items. -/
theorem decode_array_congr {values others : List Value} (h : List.Forall₂ Alike values others)
    {α : Type} (shape : Shape α) : shape.decode (.array values) = shape.decode (.array others) := by
  cases shape with
  | atom => rfl
  | nullable value =>
    rw [Shape.decode_nullable_of_not_null (by simp), Shape.decode_nullable_of_not_null (by simp),
      decode_array_congr h value]
  | choice => rfl
  | list item =>
    rw [Shape.decode, Shape.decode, mapM_congr (h.imp fun _ _ hv ↦ hv.decode_eq item)]
  | entries => rfl
  | record name closed fields make =>
    rw [Shape.decode, Shape.decode, h.length_eq]
    rcases fields.decodeItems_congr (fields.tooShort name) 0 h with
      ⟨what, hvalues, hothers⟩ | ⟨b, surplus, more, hvalues, hothers, hempty⟩
    · rw [hvalues, hothers]
    · rw [hvalues, hothers]
      show (if surplus.isEmpty then _ else _) = if more.isEmpty then _ else _
      rw [hempty]

/-- An object is decoded by its canonical view. -/
theorem decode_object_congr
    (h : List.Forall₂ AlikeMembers (Members.canonical members) (Members.canonical others))
    {α : Type} (shape : Shape α) :
    shape.decode (.object members) = shape.decode (.object others) := by
  cases shape with
  | atom => rfl
  | nullable value =>
    rw [Shape.decode_nullable_of_not_null (by simp), Shape.decode_nullable_of_not_null (by simp),
      decode_object_congr h value]
  | choice variants =>
    rw [Shape.decode, Shape.decode, decodeChoice_congr variants h]
  | list => rfl
  | entries value =>
    rw [Shape.decode, Shape.decode]
    refine mapM_congr (h.imp fun m n hm ↦ ?_)
    obtain ⟨key, v⟩ := m
    obtain ⟨name, w⟩ := n
    obtain ⟨rfl, hv⟩ : key = name ∧ Alike v w := hm
    show (value.decode v).map (key, ·) = (value.decode w).map (key, ·)
    rw [hv.decode_eq value]
  | record name closed fields make =>
    rw [Shape.decode, Shape.decode]
    refine congrArg (· >>= _) (foldlM_congr (h.imp fun m n hm draft ↦ ?_) _)
    obtain ⟨key, v⟩ := m
    obtain ⟨name, w⟩ := n
    obtain ⟨rfl, hv⟩ : key = name ∧ Alike v w := hm
    exact fields.decodeMember_congr (fields.refusal closed) hv draft

end Parts

/-! ### Rearranged values -/

/-- The second value is the first with one change to an object, at any depth: two neighbouring
members with different keys are exchanged, or a member is left out that a later one overrules. -/
inductive Value.Rearranges : Value → Value → Prop where
  | exchange (before after : Members) {m n : String × Value} (hkeys : m.1 ≠ n.1) :
    Rearranges (.object (before ++ m :: n :: after)) (.object (before ++ n :: m :: after))
  | drop (before after : Members) {m : String × Value} (hlater : m.1 ∈ after.map Prod.fst) :
    Rearranges (.object (before ++ m :: after)) (.object (before ++ after))
  | item (before after : List Value) {v w : Value} (h : Rearranges v w) :
    Rearranges (.array (before ++ v :: after)) (.array (before ++ w :: after))
  | member (before after : Members) (key : String) {v w : Value} (h : Rearranges v w) :
    Rearranges (.object (before ++ (key, v) :: after)) (.object (before ++ (key, w) :: after))

namespace Members

theorem last?_exchange (key : String) (before after : Members) {m n : String × Value}
    (hkeys : m.1 ≠ n.1) :
    last? key (before ++ m :: n :: after) = last? key (before ++ n :: m :: after) := by
  rw [last?_append, last?_append, last?_cons, last?_cons, last?_cons, last?_cons]
  by_cases hm : key = m.1
  · have hn : key ≠ n.1 := hm ▸ hkeys
    rw [if_neg hn, Option.or_none, Option.or_none]
  · rw [if_neg hm, Option.or_none, Option.or_none]

theorem last?_drop (key : String) (before after : Members) {m : String × Value}
    (hlater : m.1 ∈ after.map Prod.fst) :
    last? key (before ++ m :: after) = last? key (before ++ after) := by
  rw [last?_append, last?_append, last?_cons]
  by_cases hm : key = m.1
  · obtain ⟨v, hv⟩ := exists_last?_eq_some hlater
    rw [hm, hv]
    rfl
  · rw [if_neg hm, Option.or_none]

end Members

namespace Value.Rearranges

variable {v w : Value}

/-- Rearranged values are decoded alike, be it to the same result or to the same mismatch. -/
theorem alike (h : v.Rearranges w) : v.Alike w := by
  induction h with
  | exchange before after hkeys =>
    refine ⟨decode_object_congr ?_⟩
    rw [Members.canonical_congr fun key ↦ Members.last?_exchange key before after hkeys]
    exact List.forall₂_same.mpr fun _ _ ↦ ⟨rfl, .refl _⟩
  | drop before after hlater =>
    refine ⟨decode_object_congr ?_⟩
    rw [Members.canonical_congr fun key ↦ Members.last?_drop key before after hlater]
    exact List.forall₂_same.mpr fun _ _ ↦ ⟨rfl, .refl _⟩
  | item before after _ ih =>
    exact ⟨decode_array_congr (forall₂_replace .refl ih before after)⟩
  | @member before after key v w _ ih =>
    have hvalue : AlikeMembers (key, v) (key, w) := ⟨rfl, ih⟩
    have hmembers := forall₂_replace (fun _ ↦ ⟨rfl, .refl _⟩) hvalue before after
    exact ⟨decode_object_congr (Members.canonical_forall₂ (fun _ _ h ↦ h.1) hmembers)⟩

/-- A rearranged value has a text if the value itself has one. -/
theorem spellable (h : v.Rearranges w) {depth : Nat} (hv : v.Spellable depth) :
    w.Spellable depth := by
  induction h generalizing depth with
  | exchange before after _ =>
    exact hv.object_subset ((List.Perm.swap _ _ after).append_left before).subset
  | drop before after _ =>
    exact hv.object_subset (List.Sublist.subset ((List.sublist_cons_self _ _).append_left before))
  | item before after _ ih => exact hv.array_replace ih
  | member before after key _ ih => exact hv.object_replace ih

end Value.Rearranges

namespace Value

/-- The second value comes from the first by any number of such changes. -/
def Rearranged : Value → Value → Prop :=
  Relation.ReflTransGen Rearranges

variable {v w : Value}

theorem spellable_of_rearranged {depth : Nat} (h : v.Rearranged w) (hv : v.Spellable depth) :
    w.Spellable depth := by
  induction h with
  | refl => exact hv
  | tail _ hlast ih => exact hlast.spellable ih

end Value

end ChangeDdl.Json
