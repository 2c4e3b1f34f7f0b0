import Mathlib.Logic.Relation
import ChangeDdl.Proofs.Json.Agreement
import ChangeDdl.Proofs.Json.Grammar

/-!
Members that no field of a record knows. One value gains a member over another when an object in it
that stands for an open record does (`Shape.Gains`); it extends the other when it comes from it by
any number of such steps. What the values decode to is the same, and so is the first mismatch
(`Shape.decode_of_extends`).
-/

set_option autoImplicit false
set_option relaxedAutoImplicit false

namespace ChangeDdl.Json

/-! ### Open records -/

namespace Fields

variable {β δ : Type}

/-- A member that belongs to no field of an open record leaves the draft as it is. -/
theorem decodeMember_of_foreign {refusal : String → Option Mismatch} {name : String} {v : Value}
    (hrefusal : refusal name = none) : {β δ : Type} → (fields : Fields β δ) → (draft : δ) →
    name ∉ fields.keys → fields.decodeMember refusal draft (name, v) = .ok draft
  | _, _, nil, (), _ => by rw [decodeMember, hrefusal]
  | _, _, cons key shape presence rest, (slot, others), hname => by
    obtain ⟨hne, hrest⟩ := not_or.mp (List.mem_cons.not.mp hname)
    rw [decodeMember, if_neg hne, rest.decodeMember_of_foreign hrefusal others hrest]
    rfl

/-- The members that belong to fields. -/
def own (fields : Fields β δ) (members : Members) : Members :=
  members.filter fun m ↦ decide (m.1 ∈ fields.keys)

theorem foldlM_own {refusal : String → Option Mismatch} (hrefusal : ∀ name, refusal name = none)
    (fields : Fields β δ) (members : Members) (draft : δ) :
    (fields.own members).foldlM (fields.decodeMember refusal) draft =
      members.foldlM (fields.decodeMember refusal) draft := by
  induction members generalizing draft with
  | nil => rfl
  | cons m members ih =>
    obtain ⟨name, v⟩ := m
    rw [own, List.filter_cons]
    by_cases hname : name ∈ fields.keys
    · rw [if_pos (decide_eq_true hname), List.foldlM_cons, List.foldlM_cons]
      exact bind_congr fun next ↦ ih next
    · rw [if_neg (by simpa using hname), List.foldlM_cons,
        fields.decodeMember_of_foreign (hrefusal name) draft hname]
      exact ih draft

end Fields

section Record

variable {α β δ : Type} {name : String} {fields : Fields β δ} {make : β → α} {parts : α → β}
  {make_parts : ∀ a, make (parts a) = a}

/-- An open record is decoded from the members of its fields. -/
theorem Shape.decode_own (members : Members) :
    (Shape.record name false fields make parts make_parts).decode (.object (fields.own members)) =
      (Shape.record name false fields make parts make_parts).decode (.object members) := by
  have hrefusal : ∀ name, fields.refusal false name = none := fun _ ↦ rfl
  have hcanonical : Members.canonical (fields.own members) =
      fields.own (Members.canonical members) :=
    Members.canonical_filter (fun key ↦ decide (key ∈ fields.keys)) members
  rw [Shape.decode, Shape.decode, hcanonical, fields.foldlM_own hrefusal]

theorem Shape.decode_congr_own {members others : Members}
    (h : fields.own members = fields.own others) :
    (Shape.record name false fields make parts make_parts).decode (.object members) =
      (Shape.record name false fields make parts make_parts).decode (.object others) := by
  rw [← Shape.decode_own members, h, Shape.decode_own]

end Record

/-! ### One more member -/

/-- The field that members with this key belong to has this shape. -/
inductive Fields.Under : {α β δ : Type} → Fields β δ → String → Shape α → Prop where
  | first {α β δ : Type} {key : String} {shape : Shape α} {presence : Presence α}
    {rest : Fields β δ} : Under (.cons key shape presence rest) key shape
  | later {α γ β δ : Type} {key other : String} {shape : Shape α} {first : Shape γ}
    {presence : Presence γ} {rest : Fields β δ} (hne : key ≠ other) (h : Under rest key shape) :
    Under (.cons other first presence rest) key shape

/-- The field that item `n` of an array belongs to has this shape. -/
inductive Fields.Nth : {α β δ : Type} → Fields β δ → Nat → Shape α → Prop where
  | first {α β δ : Type} {key : String} {shape : Shape α} {presence : Presence α}
    {rest : Fields β δ} : Nth (.cons key shape presence rest) 0 shape
  | later {α γ β δ : Type} {key : String} {n : Nat} {shape : Shape α} {first : Shape γ}
    {presence : Presence γ} {rest : Fields β δ} (h : Nth rest n shape) :
    Nth (.cons key first presence rest) (n + 1) shape

/-- The second value is the first with one more member, which stands anywhere in an object for an
open record and belongs to no field of this record. -/
inductive Shape.Gains : {α : Type} → Shape α → Value → Value → Prop where
  | here {α β δ : Type} {name : String} {fields : Fields β δ} {make : β → α} {parts : α → β}
    {make_parts : ∀ a, make (parts a) = a} (before after : Members) {key : String} (v : Value)
    (hkey : key ∉ fields.keys) :
    Gains (.record name false fields make parts make_parts) (.object (before ++ after))
      (.object (before ++ (key, v) :: after))
  | nullable {α : Type} {value : Shape α} {v w : Value} (h : Gains value v w) :
    Gains (.nullable value) v w
  | item {α : Type} {item : Shape α} (before after : List Value) {v w : Value}
    (h : Gains item v w) : Gains (.list item) (.array (before ++ v :: after))
      (.array (before ++ w :: after))
  | entry {α : Type} {value : Shape α} (before after : Members) {key : String} {v w : Value}
    (h : Gains value v w) : Gains (.entries value) (.object (before ++ (key, v) :: after))
      (.object (before ++ (key, w) :: after))
  | fieldItem {α γ β δ : Type} {name : String} {closed : Bool} {fields : Fields β δ} {make : β → α}
    {parts : α → β} {make_parts : ∀ a, make (parts a) = a} {shape : Shape γ}
    (before after : List Value) {v w : Value} (hfield : fields.Nth before.length shape)
    (h : Gains shape v w) :
    Gains (.record name closed fields make parts make_parts) (.array (before ++ v :: after))
      (.array (before ++ w :: after))
  | fieldMember {α γ β δ : Type} {name : String} {closed : Bool} {fields : Fields β δ}
    {make : β → α} {parts : α → β} {make_parts : ∀ a, make (parts a) = a} {shape : Shape γ}
    (before after : Members) {key : String} {v w : Value} (hfield : fields.Under key shape)
    (h : Gains shape v w) :
    Gains (.record name closed fields make parts make_parts) (.object (before ++ (key, v) :: after))
      (.object (before ++ (key, w) :: after))

namespace Fields

theorem Under.decodeMember_congr {α β δ : Type} {fields : Fields β δ} {key : String}
    {shape : Shape α} (hfield : fields.Under key shape) (refusal : String → Option Mismatch)
    {v w : Value} (h : shape.decode v = shape.decode w) (draft : δ) :
    fields.decodeMember refusal draft (key, v) = fields.decodeMember refusal draft (key, w) := by
  induction hfield with
  | first =>
    obtain ⟨slot, others⟩ := draft
    rw [decodeMember, decodeMember, if_pos rfl, if_pos rfl, h]
  | later hne _ ih =>
    obtain ⟨slot, others⟩ := draft
    rw [decodeMember, decodeMember, if_neg hne, if_neg hne, ih h]

theorem Nth.decodeItems_congr {α β δ : Type} {fields : Fields β δ} {n : Nat} {shape : Shape α}
    (hfield : fields.Nth n shape) {tooShort : Nat → Mismatch} {v w : Value}
    (h : shape.decode v = shape.decode w) {before after : List Value} (hn : before.length = n)
    (count : Nat) :
    fields.decodeItems tooShort count (before ++ v :: after) =
      fields.decodeItems tooShort count (before ++ w :: after) := by
  induction hfield generalizing before count with
  | first =>
    obtain rfl := List.length_eq_zero_iff.mp hn
    rw [List.nil_append, List.nil_append, decodeItems, decodeItems, h]
  | later _ ih =>
    cases before with
    | nil => simp at hn
    | cons u before =>
      rw [List.cons_append, List.cons_append, decodeItems, decodeItems,
        ih h (Nat.succ.inj hn) (count + 1)]

end Fields

/-- One item in place of another. -/
theorem forall₂_replace {α : Type} {R : α → α → Prop} (hsame : ∀ a, R a a) {a b : α} (h : R a b)
    (before after : List α) : List.Forall₂ R (before ++ a :: after) (before ++ b :: after) :=
  List.rel_append (List.forall₂_same.mpr fun c _ ↦ hsame c)
    (.cons h (List.forall₂_same.mpr fun c _ ↦ hsame c))

/-- One value in place of another, as long as a function of the members does not see it. -/
theorem canonical_replace {γ : Type} (f : String × Value → γ) {key : String} {v w : Value}
    (h : f (key, v) = f (key, w)) (before after : Members) :
    List.Forall₂ (fun m n ↦ f m = f n) (Members.canonical (before ++ (key, v) :: after))
      (Members.canonical (before ++ (key, w) :: after)) := by
  have hmembers : List.Forall₂ (fun m n : String × Value ↦ m.1 = n.1 ∧ f m = f n)
      (before ++ (key, v) :: after) (before ++ (key, w) :: after) :=
    forall₂_replace (fun m ↦ ⟨rfl, rfl⟩) ⟨rfl, h⟩ before after
  exact (Members.canonical_forall₂ (fun _ _ h ↦ h.1) hmembers).imp fun _ _ h ↦ h.2

section Spellable

variable {depth : Nat} {v w : Value}

theorem Value.Spellable.object_subset {members others : Members}
    (h : Spellable depth (.object members)) (hothers : others ⊆ members) :
    Spellable depth (.object others) := by
  obtain ⟨inner, hdepth, hmembers⟩ := spellable_object_iff.mp h
  exact spellable_object_iff.mpr ⟨inner, hdepth, fun m hm ↦ hmembers m (hothers hm)⟩

theorem Value.Spellable.array_replace {before after : List Value}
    (hw : Spellable depth (.array (before ++ w :: after)))
    (h : ∀ {depth : Nat}, w.Spellable depth → v.Spellable depth) :
    Spellable depth (.array (before ++ v :: after)) := by
  obtain ⟨inner, hdepth, hvalues⟩ := spellable_array_iff.mp hw
  refine spellable_array_iff.mpr ⟨inner, hdepth, fun u hu ↦ ?_⟩
  rw [List.mem_append, List.mem_cons] at hu
  rcases hu with hu | rfl | hu
  · exact hvalues u (by simp [hu])
  · exact h (hvalues w (by simp))
  · exact hvalues u (by simp [hu])

theorem Value.Spellable.object_replace {before after : Members} {key : String}
    (hw : Spellable depth (.object (before ++ (key, w) :: after)))
    (h : ∀ {depth : Nat}, w.Spellable depth → v.Spellable depth) :
    Spellable depth (.object (before ++ (key, v) :: after)) := by
  obtain ⟨inner, hdepth, hmembers⟩ := spellable_object_iff.mp hw
  refine spellable_object_iff.mpr ⟨inner, hdepth, fun m hm ↦ ?_⟩
  rw [List.mem_append, List.mem_cons] at hm
  rcases hm with hm | rfl | hm
  · exact hmembers m (by simp [hm])
  · exact h (hmembers (key, w) (by simp))
  · exact hmembers m (by simp [hm])

end Spellable

namespace Shape

variable {α : Type} {shape : Shape α} {v w : Value}

/-- A value that gains a member is an array or an object before and after. -/
theorem Gains.ne_null (h : shape.Gains v w) : v ≠ .null ∧ w ≠ .null := by
  induction h with
  | nullable _ ih => exact ih
  | here => exact ⟨by simp, by simp⟩
  | item => exact ⟨by simp, by simp⟩
  | entry => exact ⟨by simp, by simp⟩
  | fieldItem => exact ⟨by simp, by simp⟩
  | fieldMember => exact ⟨by simp, by simp⟩

/-- One more member changes nothing, be it in a value that decodes or in one that does not. -/
theorem Gains.decode_eq (h : shape.Gains v w) : shape.decode v = shape.decode w := by
  induction h with
  | here before after u hkey =>
    refine decode_congr_own ?_
    rw [Fields.own, Fields.own, List.filter_append, List.filter_append,
      List.filter_cons_of_neg (by simpa using hkey)]
  | nullable h ih =>
    rw [decode_nullable_of_not_null h.ne_null.1, decode_nullable_of_not_null h.ne_null.2, ih]
  | @item _ item before after v w h ih =>
    have hitems := forall₂_replace (R := fun v w ↦ item.decode v = item.decode w)
      (fun _ ↦ rfl) ih before after
    rw [decode, decode, mapM_congr hitems]
  | @entry _ value before after key v w h ih =>
    have hentry : (value.decode v).map (key, ·) = (value.decode w).map (key, ·) := by rw [ih]
    have hmembers := canonical_replace (fun m ↦ (value.decode m.2).map (m.1, ·)) hentry before after
    rw [decode, decode, mapM_congr hmembers]
  | fieldItem before after hfield h ih =>
    rw [decode, decode, hfield.decodeItems_congr ih rfl 0, List.length_append, List.length_append,
      List.length_cons, List.length_cons]
  | @fieldMember _ _ _ _ _ closed fields _ _ _ _ before after key v w hfield h ih =>
    have hstep := funext (hfield.decodeMember_congr (fields.refusal closed) ih)
    have hmembers := canonical_replace
      (fun m draft ↦ fields.decodeMember (fields.refusal closed) draft m) hstep before after
    rw [decode, decode, foldlM_congr (hmembers.imp fun _ _ h ↦ congrFun h)]

/-- The value without the member has a text if the value with it has one. -/
theorem Gains.spellable (h : shape.Gains v w) {depth : Nat} (hw : w.Spellable depth) :
    v.Spellable depth := by
  induction h generalizing depth with
  | here before after u hkey =>
    exact hw.object_subset (List.Sublist.subset ((List.sublist_cons_self _ _).append_left before))
  | nullable h ih => exact ih hw
  | item before after h ih => exact hw.array_replace ih
  | entry before after h ih => exact hw.object_replace ih
  | fieldItem before after hfield h ih => exact hw.array_replace ih
  | fieldMember before after hfield h ih => exact hw.object_replace ih

/-! ### Any number of members -/

/-- The second value is the first with further members in objects for open records. -/
def Extends (shape : Shape α) : Value → Value → Prop :=
  Relation.ReflTransGen shape.Gains

theorem decode_of_extends (h : shape.Extends v w) : shape.decode v = shape.decode w := by
  induction h with
  | refl => rfl
  | tail _ hlast ih => rw [ih, hlast.decode_eq]

theorem spellable_of_extends {depth : Nat} (h : shape.Extends v w) (hw : w.Spellable depth) :
    v.Spellable depth := by
  induction h using Relation.ReflTransGen.head_induction_on with
  | refl => exact hw
  | head hfirst _ ih => exact hfirst.spellable ih

end Shape

end ChangeDdl.Json
