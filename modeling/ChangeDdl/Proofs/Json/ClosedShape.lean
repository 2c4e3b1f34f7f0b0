import ChangeDdl.Proofs.Json.Grammar
import ChangeDdl.Proofs.Json.RecordMeaning

/-!
Shapes whose records are all closed. What is read for such a shape is read in full: nothing is
skimmed, and so the text holds a tree. A text is therefore parsed exactly when it stands for a value
that has a meaning, and to what this value means (`Shape.parse_eq_ok_iff`).
-/

set_option autoImplicit false
set_option relaxedAutoImplicit false

namespace ChangeDdl.Json

mutual

/-- No record in the shape ignores members. -/
def Shape.Closed : {α : Type} → Shape α → Prop
  | _, .atom _ => True
  | _, .nullable value => value.Closed
  | _, .choice _ _ _ => True
  | _, .list item => item.Closed
  | _, .entries value => value.Closed
  | _, .record _ closed fields _ _ _ => closed = true ∧ fields.Closed

def Fields.Closed : {β δ : Type} → Fields β δ → Prop
  | _, _, .nil => True
  | _, _, .cons _ shape _ rest => shape.Closed ∧ rest.Closed

end

mutual

/-- How deep lists and objects nest in a text for the shape. A choice may be written as an object. -/
def Shape.reach : {α : Type} → Shape α → Nat
  | _, .atom _ => 0
  | _, .nullable value => value.reach
  | _, .choice _ _ _ => 1
  | _, .list item => item.reach + 1
  | _, .entries value => value.reach + 1
  | _, .record _ _ fields _ _ _ => fields.reach + 1

def Fields.reach : {β δ : Type} → Fields β δ → Nat
  | _, _, .nil => 0
  | _, _, .cons _ shape _ rest => max shape.reach rest.reach

end

/-- What the reader takes is the text of a value. -/
def Whole {α : Type} (reader : Reader α) (depth : Nat) : Prop :=
  ∀ cs a rest, reader cs = .ok (a, rest) → ∃ v, Value.read depth cs = .ok (v, rest)

/-! ### Trees of what is between brackets -/

section Trees

variable {α : Type} {reader : Reader α} {depth : Nat} {first : Bool} {cs text rest : List Char}

/-- There are no more items than characters. -/
theorem ItemsRead.length_le {as : List α} (h : ItemsRead reader first cs as rest)
    (hreader : ∀ cs a rest, reader cs = .ok (a, rest) → rest.length < cs.length) :
    as.length ≤ cs.length := by
  induction h with
  | done => exact Nat.zero_le _
  | more hnext hitem _ ih =>
    have htext := length_nextItem hnext
    have hbehind := hreader _ _ _ hitem
    rw [List.length_cons]
    omega

theorem MembersRead.length_le {as : List (String × α)} (h : MembersRead reader first cs as rest)
    (hreader : ∀ cs a rest, reader cs = .ok (a, rest) → rest.length < cs.length) :
    as.length ≤ cs.length := by
  induction h with
  | done => exact Nat.zero_le _
  | more hnext hcolon hvalue _ ih =>
    have htext := length_nextMember hnext
    have hinside := length_colon hcolon
    have hbehind := hreader _ _ _ hvalue
    rw [List.length_cons]
    omega

theorem Value.read_scalar {s : Scalar} (h : Scalar.Opens (skipBlanks cs) s rest) :
    Value.read depth cs = .ok (.scalar s, rest) :=
  Value.read_eq_ok_iff.mpr (.scalar h)

theorem Value.read_array {values : List Value} (hopen : skipBlanks cs = '[' :: text)
    (h : ItemsRead (Value.read depth) true text values rest) :
    Value.read (depth + 1) cs = .ok (.array values, rest) :=
  Value.read_eq_ok_iff.mpr
    (.array rfl hopen h (h.length_le fun _ _ _ hread ↦ Value.length_read hread))

theorem Value.read_object {members : Members} (hopen : skipBlanks cs = '{' :: text)
    (h : MembersRead (Value.read depth) true text members rest) :
    Value.read (depth + 1) cs = .ok (.object members, rest) :=
  Value.read_eq_ok_iff.mpr
    (.object rfl hopen h (h.length_le fun _ _ _ hread ↦ Value.length_read hread))

theorem exists_itemsRead (hwhole : Whole reader depth) {as : List α}
    (h : ItemsRead reader first cs as rest) :
    ∃ values, ItemsRead (Value.read depth) first cs values rest := by
  induction h with
  | done hnext => exact ⟨[], .done hnext⟩
  | more hnext hitem _ ih =>
    obtain ⟨v, hv⟩ := hwhole _ _ _ hitem
    obtain ⟨values, hvalues⟩ := ih
    exact ⟨v :: values, .more hnext hv hvalues⟩

theorem exists_membersRead (hwhole : Whole reader depth) {as : List (String × α)}
    (h : MembersRead reader first cs as rest) :
    ∃ members, MembersRead (Value.read depth) first cs members rest := by
  induction h with
  | done hnext => exact ⟨[], .done hnext⟩
  | more hnext hcolon hvalue _ ih =>
    obtain ⟨v, hv⟩ := hwhole _ _ _ hvalue
    obtain ⟨members, hmembers⟩ := ih
    exact ⟨_, .more hnext hcolon hv hmembers⟩

/-- A fold whose every step takes a value takes the members of an object. -/
theorem exists_membersRead_of_foldMembers {σ : Type} {step : σ → String → Reader σ}
    (hstep : ∀ state name cs next rest, step state name cs = .ok (next, rest) →
      ∃ inside v, colon cs = .ok inside ∧ Value.read depth inside = .ok (v, rest))
    {fuel : List Char} {state final : σ}
    (h : foldMembers step fuel first state cs = .ok (final, rest)) :
    ∃ members, MembersRead (Value.read depth) first cs members rest := by
  induction fuel generalizing first state cs with
  | nil => simp [foldMembers] at h
  | cons c fuel ih =>
    rw [foldMembers] at h
    obtain ⟨⟨name, text⟩, hnext, h⟩ := bind_eq_ok_iff.mp h
    cases name with
    | none =>
      obtain ⟨rfl, rfl⟩ := Prod.mk.inj (Except.ok.inj h)
      exact ⟨[], .done hnext⟩
    | some name =>
      obtain ⟨⟨next, behind⟩, hread, h⟩ := bind_eq_ok_iff.mp h
      obtain ⟨inside, v, hcolon, hv⟩ := hstep _ _ _ _ _ hread
      obtain ⟨members, hmembers⟩ := ih h
      exact ⟨_, .more hnext hcolon hv hmembers⟩

end Trees

/-! ### Atoms, null, choices, lists and entries -/

section Parts

variable {α : Type} {depth : Nat}

theorem Shape.whole_atom (atom : Atom α) : Whole (Shape.atom atom).read depth := by
  intro cs a rest h
  obtain ⟨s, hscalar, _⟩ := read_atom_eq_ok_iff.mp h
  exact ⟨_, Value.read_scalar hscalar⟩

theorem Shape.whole_nullable {value : Shape α} (h : Whole value.read depth) :
    Whole (Shape.nullable value).read depth := by
  intro cs a rest ha
  by_cases hskip : ∃ text, skipBlanks cs = 'n' :: text
  · obtain ⟨text, hskip⟩ := hskip
    exact ⟨_, Value.read_scalar ((read_nullable_of_null hskip).mp ha).1⟩
  · obtain ⟨b, hb, _⟩ := (read_nullable_of_not_null hskip).mp ha
    obtain ⟨v, hv⟩ := h _ b rest hb
    exact ⟨v, Value.read_skipBlanks_iff.mp hv⟩

theorem whole_choice {variants : List (String × α)} : Whole (readChoice variants) (depth + 1) := by
  intro cs a rest ha
  obtain ⟨name, _, hchoice⟩ := readChoice_eq_ok_iff.mp ha
  cases hchoice with
  | name hopen hread =>
    refine ⟨.text name, Value.read_scalar ?_⟩
    rw [hopen]
    exact .text hread
  | key hopen hkey hcolon hnull hclose =>
    refine ⟨.object [(name, .null)], Value.read_object hopen ?_⟩
    exact .more hkey hcolon (Value.read_scalar hnull) (.done (nextMember_eq_none_iff.mpr hclose))

theorem Shape.whole_list {item : Shape α} (h : Whole item.read depth) :
    Whole (Shape.list item).read (depth + 1) := by
  intro cs as rest has
  obtain ⟨text, hopen, hitems⟩ := read_list_eq_ok_iff.mp has
  obtain ⟨values, hvalues⟩ := exists_itemsRead h (items_eq_ok_iff.mp hitems).1
  exact ⟨_, Value.read_array hopen hvalues⟩

theorem Shape.whole_entries {value : Shape α} (h : Whole value.read depth) :
    Whole (Shape.entries value).read (depth + 1) := by
  intro cs as rest has
  obtain ⟨text, hopen, hentries⟩ := read_entries_eq_ok_iff.mp has
  obtain ⟨members, hmembers⟩ := exists_membersRead h (members_eq_ok_iff.mp hentries).1
  exact ⟨_, Value.read_object hopen hmembers⟩

end Parts

/-! ### Records -/

namespace Fields

variable {depth : Nat}

/-- What is read for any of the fields is the text of a value. -/
def AllWhole (depth : Nat) : {β δ : Type} → Fields β δ → Prop
  | _, _, nil => True
  | _, _, cons _ shape _ rest => Whole shape.read depth ∧ rest.AllWhole depth

theorem exists_itemsRead_of_readItems {tooShort : Nat → Mismatch} : {β δ : Type} →
    (fields : Fields β δ) → fields.AllWhole depth → {n : Nat} → {first : Bool} →
    {cs rest : List Char} → {b : β} → fields.readItems tooShort n first cs = .ok (b, rest) →
    ∃ values, ItemsRead (Value.read depth) first cs values rest
  | _, _, nil, _, n, first, cs, rest, (), h =>
    ⟨[], .done (nextItem_eq_false_iff.mpr (readItems_nil_iff.mp h))⟩
  | _, _, cons key shape presence others, hwhole, n, first, cs, rest, (a, b), h => by
    have hstart := h
    rw [readItems] at hstart
    obtain ⟨⟨more, text⟩, hnext, _⟩ := bind_eq_ok_iff.mp hstart
    cases more with
    | false =>
      obtain ⟨_, rfl⟩ := (readItems_of_done hnext).mp h
      exact ⟨[], .done hnext⟩
    | true =>
      obtain ⟨behind, hread, hothers⟩ := (readItems_of_more hnext).mp h
      obtain ⟨v, hv⟩ := hwhole.1 _ _ _ hread
      obtain ⟨values, hvalues⟩ := others.exists_itemsRead_of_readItems hwhole.2 hothers
      exact ⟨v :: values, .more hnext hv hvalues⟩

theorem exists_value_of_readMember {refusal : String → Option Mismatch}
    (hrefusal : ∀ name, refusal name ≠ none) : {β δ : Type} → (fields : Fields β δ) →
    fields.AllWhole depth → {draft final : δ} → {name : String} → {cs rest : List Char} →
    fields.readMember refusal draft name cs = .ok (final, rest) →
    ∃ inside v, colon cs = .ok inside ∧ Value.read depth inside = .ok (v, rest)
  | _, _, nil, _, (), (), name, cs, rest, h => by
    rw [readMember] at h
    cases hname : refusal name with
    | none => exact absurd hname (hrefusal name)
    | some what => simp [hname] at h
  | _, _, cons key shape presence others, hwhole, (slot, draft), final, name, cs, rest, h => by
    rw [readMember] at h
    split_ifs at h with hname hslot
    · obtain ⟨inside, hcolon, h⟩ := bind_eq_ok_iff.mp h
      obtain ⟨a, hread, _⟩ := (bind_mapFst_eq_ok_iff (f := fun a ↦ (some a, draft))).mp h
      obtain ⟨v, hv⟩ := hwhole.1 _ _ _ hread
      exact ⟨inside, v, hcolon, hv⟩
    · obtain ⟨more, hread, _⟩ := (bind_mapFst_eq_ok_iff (f := (slot, ·))).mp h
      exact others.exists_value_of_readMember hrefusal hwhole.2 hread

end Fields

theorem Shape.whole_record {α β δ : Type} {name : String} {fields : Fields β δ} {make : β → α}
    {parts : α → β} {make_parts : ∀ a, make (parts a) = a} {depth : Nat}
    (hwhole : fields.AllWhole depth) :
    Whole (Shape.record name true fields make parts make_parts).read (depth + 1) := by
  intro cs a rest ha
  obtain ⟨text, hopen | hopen⟩ := read_record_opens ha
  · obtain ⟨b, hread, _⟩ := (read_record_array_iff hopen).mp ha
    obtain ⟨values, hvalues⟩ := fields.exists_itemsRead_of_readItems hwhole hread
    exact ⟨_, Value.read_array hopen hvalues⟩
  · obtain ⟨draft, b, hfold, _⟩ := (read_record_object_iff hopen).mp ha
    have hrefusal : ∀ name, fields.refusal true name ≠ none := by simp [Fields.refusal]
    obtain ⟨members, hmembers⟩ := exists_membersRead_of_foldMembers
      (fun _ _ _ _ _ ↦ fields.exists_value_of_readMember hrefusal hwhole) hfold
    exact ⟨_, Value.read_object hopen hmembers⟩

/-! ### Shapes -/

mutual

theorem Shape.whole : {α : Type} → (shape : Shape α) → shape.Closed → {depth : Nat} →
    shape.reach ≤ depth → Whole shape.read depth
  | _, .atom atom, _, _, _ => Shape.whole_atom atom
  | _, .nullable value, hclosed, _, hdepth => Shape.whole_nullable (value.whole hclosed hdepth)
  | _, .choice _ _ _, _, depth + 1, _ => whole_choice
  | _, .list item, hclosed, depth + 1, hdepth =>
    Shape.whole_list (item.whole hclosed (Nat.le_of_succ_le_succ hdepth))
  | _, .entries value, hclosed, depth + 1, hdepth =>
    Shape.whole_entries (value.whole hclosed (Nat.le_of_succ_le_succ hdepth))
  | _, .record _ _ fields _ _ _, hclosed, depth + 1, hdepth => by
    obtain ⟨hrecord, hfields⟩ := hclosed
    subst hrecord
    exact Shape.whole_record (fields.allWhole hfields (Nat.le_of_succ_le_succ hdepth))

theorem Fields.allWhole : {β δ : Type} → (fields : Fields β δ) → fields.Closed → {depth : Nat} →
    fields.reach ≤ depth → fields.AllWhole depth
  | _, _, .nil, _, _, _ => trivial
  | _, _, .cons _ shape _ rest, hclosed, _, hdepth =>
    ⟨shape.whole hclosed.1 (Nat.le_trans (Nat.le_max_left _ _) hdepth),
      rest.allWhole hclosed.2 (Nat.le_trans (Nat.le_max_right _ _) hdepth)⟩

end

/-- A text is parsed to what the value that it stands for means. -/
theorem Shape.parse_eq_ok_iff {α : Type} {shape : Shape α} (hclosed : shape.Closed) {text : String}
    {a : α} : shape.parse text = .ok a ↔ ∃ v, Value.Document text v ∧ shape.Means v a := by
  rw [Shape.parse, parseWith_eq_ok_iff]
  constructor
  · rintro ⟨rest, hread, hend⟩
    obtain ⟨v, hv⟩ := shape.whole hclosed (Nat.le_refl _) _ _ _ hread
    obtain ⟨before, inside, htext, hbefore, hspells⟩ := (Value.reads _).spells_of_read hv
    refine ⟨v, ⟨_, before, inside, rest, htext, hbefore, skipBlanks_eq_nil_iff.mp hend, hspells⟩, ?_⟩
    exact ((shape.follows _ _ _ _ hv a rest).mp hread).2
  · rintro ⟨v, ⟨depth, before, inside, after, htext, hbefore, hafter, hspells⟩, hmeans⟩
    have hv := (Value.reads depth).read_of_spells hbefore hspells hafter.delimited
    rw [← htext] at hv
    exact ⟨after, (shape.follows _ _ _ _ hv a after).mpr ⟨rfl, hmeans⟩,
      skipBlanks_eq_nil_iff.mpr hafter⟩

/-! ### Closed records -/

/-- The members that a value gives for some keys. An object gives its own members, whose keys are
among these and occur once; an array gives its items to the keys in their order. -/
inductive Gives (keys : List String) : Value → Members → Prop where
  | object {members : Members} (hknown : ∀ m ∈ members, m.1 ∈ keys)
    (honce : (members.map Prod.fst).Nodup) : Gives keys (.object members) members
  | array {values : List Value} (hcount : values.length ≤ keys.length) :
    Gives keys (.array values) (keys.zip values)

namespace Gives

variable {keys : List String} {v : Value} {members : Members}

theorem mem_keys (h : Gives keys v members) : ∀ m ∈ members, m.1 ∈ keys := by
  cases h with
  | object hknown _ => exact hknown
  | array _ => exact fun m hm ↦ (List.of_mem_zip hm).1

theorem nodup_keys (h : Gives keys v members) (hkeys : keys.Nodup) :
    (members.map Prod.fst).Nodup := by
  cases h with
  | object _ honce => exact honce
  | array _ =>
    rw [List.zip_eq_zip_take_min, List.map_fst_zip (by simp)]
    exact hkeys.sublist (List.take_sublist _ _)

end Gives

namespace Fields

theorem nodup_keys_of_once {β δ : Type} {fields : Fields β δ} {members : Members}
    (hknown : ∀ m ∈ members, m.1 ∈ fields.keys) (honce : fields.Once members) :
    (members.map Prod.fst).Nodup := by
  rw [List.nodup_iff_count_le_one]
  intro key
  by_cases hkey : key ∈ members.map Prod.fst
  · obtain ⟨m, hm, rfl⟩ := List.mem_map.mp hkey
    rw [Members.count_keys]
    exact honce m.1 (hknown m hm)
  · rw [List.count_eq_zero_of_not_mem hkey]
    exact Nat.zero_le 1

/-- Only the values of the fields matter. -/
theorem meansMembers_congr : {β δ : Type} → (fields : Fields β δ) → {members others : Members} →
    {b : β} → (∀ key ∈ fields.keys, members.lookup key = others.lookup key) →
    (fields.MeansMembers members b ↔ fields.MeansMembers others b)
  | _, _, nil, _, _, (), _ => Iff.rfl
  | _, _, cons key shape presence rest, members, others, (a, b), h => by
    have hrest : rest.MeansMembers (members.filter fun m ↦ m.1 ≠ key) b ↔
        rest.MeansMembers (others.filter fun m ↦ m.1 ≠ key) b := by
      refine rest.meansMembers_congr fun name hname ↦ ?_
      rw [Members.lookup_filter_ne, Members.lookup_filter_ne, h name (List.mem_cons_of_mem _ hname)]
    rw [MeansMembers, MeansMembers, h key List.mem_cons_self, hrest]

theorem meansMembers_cons_iff {α β δ : Type} {key : String} {shape : Shape α}
    {presence : Presence α} {rest : Fields β δ} (hkey : key ∉ rest.keys) {members : Members} {a : α}
    {b : β} : (cons key shape presence rest).MeansMembers members (a, b) ↔
      Holds shape.Means presence.default? (members.lookup key) a ∧ rest.MeansMembers members b := by
  have hrest : rest.MeansMembers (members.filter fun m ↦ m.1 ≠ key) b ↔
      rest.MeansMembers members b := by
    refine rest.meansMembers_congr fun name hname ↦ ?_
    have hne : name ≠ key := by
      rintro rfl
      exact hkey hname
    rw [Members.lookup_filter_ne, if_neg hne]
  rw [MeansMembers, hrest]

/-- An array stands for an object in which its items have the keys of the fields. -/
theorem meansItems_iff_zip : {β δ : Type} → (fields : Fields β δ) → fields.keys.Nodup →
    {values : List Value} → {b : β} →
    (fields.MeansItems values b ↔
      values.length ≤ fields.keys.length ∧ fields.MeansMembers (fields.keys.zip values) b)
  | _, _, nil, _, values, () => by
    rw [MeansItems, MeansMembers]
    simp [keys]
  | _, _, cons key shape presence rest, hkeys, [], (a, b) => by
    have hrest := @meansItems_iff_zip _ _ rest (List.nodup_cons.mp hkeys).2 [] b
    rw [List.zip_nil_right] at hrest
    rw [MeansItems, MeansMembers, List.zip_nil_right, hrest]
    simp [Holds]
  | _, _, cons key shape presence rest, hkeys, v :: values, (a, b) => by
    obtain ⟨hfirst, hkeys⟩ := List.nodup_cons.mp hkeys
    have hothers : ((rest.keys.zip values).filter fun m ↦ m.1 ≠ key) = rest.keys.zip values := by
      refine List.filter_eq_self.mpr fun m hm ↦ decide_eq_true ?_
      rintro rfl
      exact hfirst (List.of_mem_zip hm).1
    rw [MeansItems, keys, List.zip_cons_cons, MeansMembers, Members.lookup_cons_if, if_pos rfl,
      List.filter_cons_of_neg (by simp), hothers, rest.meansItems_iff_zip hkeys]
    simp [Holds, and_left_comm]

end Fields

theorem Shape.means_record_iff {α β δ : Type} {name : String} {fields : Fields β δ} {make : β → α}
    {parts : α → β} {make_parts : ∀ a, make (parts a) = a} (hkeys : fields.keys.Nodup) {v : Value}
    {a : α} : (Shape.record name true fields make parts make_parts).Means v a ↔
      ∃ members b, Gives fields.keys v members ∧ fields.MeansMembers members b ∧ make b = a := by
  rw [Shape.Means]
  constructor
  · rintro ⟨b, hmake, ⟨values, rfl, hvalues⟩ | ⟨members, rfl, hknown, honce, hmembers⟩⟩
    · obtain ⟨hcount, hmembers⟩ := (fields.meansItems_iff_zip hkeys).mp hvalues
      exact ⟨_, b, .array hcount, hmembers, hmake⟩
    · have hnodup := Fields.nodup_keys_of_once (hknown rfl) honce
      exact ⟨members, b, .object (hknown rfl) hnodup, hmembers, hmake⟩
  · rintro ⟨members, b, hgives, hmembers, hmake⟩
    refine ⟨b, hmake, ?_⟩
    cases hgives with
    | object hknown honce =>
      exact Or.inr ⟨members, rfl, fun _ ↦ hknown, fields.once_of_nodup honce, hmembers⟩
    | array hcount =>
      exact Or.inl ⟨_, rfl, (fields.meansItems_iff_zip hkeys).mpr ⟨hcount, hmembers⟩⟩

end ChangeDdl.Json
