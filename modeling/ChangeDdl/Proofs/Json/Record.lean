import ChangeDdl.Json.Shape.Decode
import ChangeDdl.Proofs.Fallible
import ChangeDdl.Proofs.Json.Members

/-!
Decoding the members of a record, field by field instead of member by member. As long as no field
occurs twice, the order of the members does not matter: a draft holds, for each field, what the
value under its key decodes to (`Fields.slots`).
-/

set_option autoImplicit false
set_option relaxedAutoImplicit false

namespace ChangeDdl.Json

namespace Fields

variable {β δ : Type}

/-- What the value under a key decodes to, if there is one. -/
def slot {α : Type} (shape : Shape α) (key : String) (members : Members) :
    Except Mismatch (Option α) :=
  match members.lookup key with
  | none => .ok none
  | some v => (shape.decode v).map some

/-- The draft of some members, by their keys. -/
def slots : {β δ : Type} → Fields β δ → Members → Except Mismatch δ
  | _, _, nil, _ => .ok ()
  | _, _, cons key shape _ rest, members => do
    let first ← slot shape key members
    let others ← rest.slots (members.filter fun m ↦ m.1 ≠ key)
    .ok (first, others)

/-- No field has two members. -/
def Once (fields : Fields β δ) (members : Members) : Prop :=
  ∀ key ∈ fields.keys, (members.filter fun m ↦ m.1 = key).length ≤ 1

theorem once_of_nodup (fields : Fields β δ) {members : Members}
    (h : (members.map Prod.fst).Nodup) : fields.Once members :=
  fun key _ ↦ Members.length_filter_le_one h key

/-- Only the values of the fields matter. -/
theorem slots_congr : {β δ : Type} → (fields : Fields β δ) → {members others : Members} →
    (∀ key ∈ fields.keys, members.lookup key = others.lookup key) →
    fields.slots members = fields.slots others
  | _, _, nil, _, _, _ => rfl
  | _, _, cons key shape _ rest, members, others, h => by
    have hrest : rest.slots (members.filter fun m ↦ m.1 ≠ key) =
        rest.slots (others.filter fun m ↦ m.1 ≠ key) := by
      refine rest.slots_congr fun name hname ↦ ?_
      rw [Members.lookup_filter_ne, Members.lookup_filter_ne, h name (List.mem_cons_of_mem _ hname)]
    rw [slots, slots, slot, slot, h key List.mem_cons_self, hrest]

theorem slots_cons_iff {α : Type} {key : String} {shape : Shape α} {presence : Presence α}
    {rest : Fields β δ} {members : Members} {found : Option α} {draft : δ} :
    (cons key shape presence rest).slots members = .ok (found, draft) ↔
      slot shape key members = .ok found ∧
        rest.slots (members.filter fun m ↦ m.1 ≠ key) = .ok draft := by
  rw [slots, bind_eq_ok_iff]
  constructor
  · rintro ⟨first, hfirst, h⟩
    obtain ⟨hmore, rfl⟩ := bind_mk_eq_ok_iff.mp h
    exact ⟨hfirst, hmore⟩
  · rintro ⟨hfirst, hmore⟩
    exact ⟨found, hfirst, bind_mk_eq_ok_iff.mpr ⟨hmore, rfl⟩⟩

section Fold

variable (refusal : String → Option Mismatch)

/-- The members of the first field and those of the other fields go to different places. -/
theorem foldlM_decodeMember_cons {α : Type} {key : String} {shape : Shape α}
    {presence : Presence α} {rest : Fields β δ} {members : Members} {first found : Option α}
    {others draft : δ} :
    members.foldlM ((cons key shape presence rest).decodeMember refusal) (first, others) =
        .ok (found, draft) ↔
      (members.filter fun m ↦ m.1 = key).foldlM
          (fun _ m ↦ (shape.decode m.2).map some) first = .ok found ∧
        (members.filter fun m ↦ m.1 ≠ key).foldlM (rest.decodeMember refusal) others =
          .ok draft := by
  induction members generalizing first others with
  | nil => simp [pure, Except.pure]
  | cons m members ih =>
    obtain ⟨name, v⟩ := m
    by_cases hname : name = key
    · rw [List.filter_cons_of_pos (by simpa using hname),
        List.filter_cons_of_neg (by simpa using hname), List.foldlM_cons, List.foldlM_cons,
        decodeMember, if_pos hname, bind_eq_ok_iff, bind_eq_ok_iff]
      constructor
      · rintro ⟨next, hnext, h⟩
        obtain ⟨a, ha, rfl⟩ := map_eq_ok_iff.mp hnext
        obtain ⟨hfirst, hrest⟩ := ih.mp h
        exact ⟨⟨some a, map_eq_ok_iff.mpr ⟨a, ha, rfl⟩, hfirst⟩, hrest⟩
      · rintro ⟨⟨next, hnext, hfirst⟩, hrest⟩
        obtain ⟨a, ha, rfl⟩ := map_eq_ok_iff.mp hnext
        exact ⟨(some a, others), map_eq_ok_iff.mpr ⟨a, ha, rfl⟩, ih.mpr ⟨hfirst, hrest⟩⟩
    · rw [List.filter_cons_of_neg (by simpa using hname),
        List.filter_cons_of_pos (by simpa using hname), List.foldlM_cons, List.foldlM_cons,
        decodeMember, if_neg hname, bind_eq_ok_iff, bind_eq_ok_iff]
      constructor
      · rintro ⟨next, hnext, h⟩
        obtain ⟨more, hmore, rfl⟩ := map_eq_ok_iff.mp hnext
        obtain ⟨hfirst, hrest⟩ := ih.mp h
        exact ⟨hfirst, more, hmore, hrest⟩
      · rintro ⟨hfirst, more, hmore, hrest⟩
        exact ⟨(first, more), map_eq_ok_iff.mpr ⟨more, hmore, rfl⟩, ih.mpr ⟨hfirst, hrest⟩⟩

/-- The members of a field that has one at most. -/
theorem foldlM_slot_iff {α : Type} {shape : Shape α} {key : String} {members : Members}
    {found : Option α} (h : (members.filter fun m ↦ m.1 = key).length ≤ 1) :
    (members.filter fun m ↦ m.1 = key).foldlM
        (fun _ m ↦ (shape.decode m.2).map some) none = .ok found ↔
      slot shape key members = .ok found := by
  rw [slot, Members.lookup_eq_head_filter]
  generalize members.filter (fun m ↦ m.1 = key) = own at h ⊢
  match own with
  | [] => simp [pure, Except.pure]
  | [(name, v)] => simp
  | _ :: _ :: _ => simp at h

theorem foldlM_decodeMember_nil {members : Members} {draft : Unit} :
    members.foldlM (nil.decodeMember refusal) () = .ok draft ↔
      ∀ m ∈ members, refusal m.1 = none := by
  induction members with
  | nil => simp [pure, Except.pure]
  | cons m members ih =>
    obtain ⟨name, v⟩ := m
    rw [List.foldlM_cons, List.forall_mem_cons, decodeMember]
    cases hname : refusal name with
    | none =>
      show members.foldlM (nil.decodeMember refusal) () = .ok draft ↔ _
      simp [ih]
    | some what => simp [bind, Except.bind]

theorem once_filter_ne {α : Type} {key : String} {shape : Shape α} {presence : Presence α}
    {rest : Fields β δ} {members : Members} (h : (cons key shape presence rest).Once members) :
    rest.Once (members.filter fun m ↦ m.1 ≠ key) := by
  intro name hname
  refine Nat.le_trans (List.Sublist.length_le ?_) (h name (List.mem_cons_of_mem _ hname))
  exact List.Sublist.filter _ List.filter_sublist

theorem forall_foreign_cons_iff {α : Type} {key : String} {shape : Shape α} {presence : Presence α}
    {rest : Fields β δ} {members : Members} :
    (∀ m ∈ members.filter fun m ↦ m.1 ≠ key, m.1 ∉ rest.keys → refusal m.1 = none) ↔
      ∀ m ∈ members, m.1 ∉ (cons key shape presence rest).keys → refusal m.1 = none := by
  simp only [keys, List.mem_filter, List.mem_cons, not_or, decide_eq_true_eq]
  constructor
  · intro h m hm hne
    exact h m ⟨hm, hne.1⟩ hne.2
  · intro h m hm hne
    exact h m hm.1 ⟨hm.2, hne⟩

/-- A draft is filled member by member as it is by the keys, and a member that belongs to no field
must not be refused. -/
theorem foldlM_decodeMember_iff : {β δ : Type} → (fields : Fields β δ) → {members : Members} →
    {draft : δ} → fields.Once members →
    (members.foldlM (fields.decodeMember refusal) fields.blank = .ok draft ↔
      (∀ m ∈ members, m.1 ∉ fields.keys → refusal m.1 = none) ∧ fields.slots members = .ok draft)
  | _, _, nil, members, (), _ => by
    rw [blank, foldlM_decodeMember_nil]
    simp [keys, slots]
  | _, _, cons key shape presence rest, members, (found, others), honce => by
    rw [blank, foldlM_decodeMember_cons, foldlM_slot_iff (honce key List.mem_cons_self),
      rest.foldlM_decodeMember_iff (once_filter_ne honce), forall_foreign_cons_iff, slots_cons_iff]
    exact and_left_comm

/-- A fold over the text leads to the same draft as a fold over the canonical members. -/
theorem foldlM_canonical_iff (fields : Fields β δ) {members : Members} {draft : δ}
    (honce : fields.Once members) :
    (Members.canonical members).foldlM (fields.decodeMember refusal) fields.blank = .ok draft ↔
      members.foldlM (fields.decodeMember refusal) fields.blank = .ok draft := by
  have hslots : fields.slots (Members.canonical members) = fields.slots members := by
    refine fields.slots_congr fun key hkey ↦ ?_
    rw [Members.lookup_canonical, Members.last?_eq_lookup (honce key hkey)]
  have hknown : (∀ m ∈ Members.canonical members, m.1 ∉ fields.keys → refusal m.1 = none) ↔
      ∀ m ∈ members, m.1 ∉ fields.keys → refusal m.1 = none := by
    have hkeys : ∀ others : Members, (∀ m ∈ others, m.1 ∉ fields.keys → refusal m.1 = none) ↔
        ∀ key ∈ others.map Prod.fst, key ∉ fields.keys → refusal key = none := by
      intro others
      rw [List.forall_mem_map]
    rw [hkeys, hkeys]
    simp only [Members.mem_keys_canonical_iff]
  have honly := fields.once_of_nodup (Members.nodup_keys_canonical members)
  rw [foldlM_decodeMember_iff refusal fields honly, hknown, hslots,
    foldlM_decodeMember_iff refusal fields honce]

end Fold

end Fields

end ChangeDdl.Json
