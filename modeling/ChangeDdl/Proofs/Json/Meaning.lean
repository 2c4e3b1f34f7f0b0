import ChangeDdl.Json.Shape.Read
import ChangeDdl.Proofs.Json.Record
import ChangeDdl.Proofs.Json.Skim

/-!
What a value stands for when it is read directly, in the order of the text. `Shape.Means` says it by
the shape: entries keep their order and their repetitions, the fields of a record have one member at
most, and a closed record has no other members.

On a text that holds a tree, each reader goes by the meaning of the tree (`Follows`). Atoms, null,
choices, lists and entries come here, records in the module on their meaning.
-/

set_option autoImplicit false
set_option relaxedAutoImplicit false

namespace ChangeDdl.Json

/-! ### Meanings -/

/-- A field holds what its value means, or its default if it has no value. -/
def Holds {α : Type} (means : Value → α → Prop) (default : Option α) : Option Value → α → Prop
  | some v, a => means v a
  | none, a => default = some a

mutual

/-- The value stands for `a`. -/
def Shape.Means : {α : Type} → Shape α → Value → α → Prop
  | _, .atom atom, v, a => atom.accept v.found = .ok a
  | _, .nullable value, v, a =>
    v = .null ∧ a = none ∨ v ≠ .null ∧ ∃ b, value.Means v b ∧ a = some b
  | _, .choice variants _ _, v, a =>
    ∃ name, pick variants name = .ok a ∧ (v = .text name ∨ v = .object [(name, .null)])
  | _, .list item, v, as => ∃ values, v = .array values ∧ List.Forall₂ item.Means values as
  | _, .entries value, v, entries =>
    ∃ members, v = .object members ∧
      List.Forall₂ (fun m entry ↦ m.1 = entry.1 ∧ value.Means m.2 entry.2) members entries
  | _, .record _ closed fields make _ _, v, a =>
    ∃ b, make b = a ∧
      ((∃ values, v = .array values ∧ fields.MeansItems values b) ∨
        ∃ members, v = .object members ∧ (closed = true → ∀ m ∈ members, m.1 ∈ fields.keys) ∧
          fields.Once members ∧ fields.MeansMembers members b)

/-- The items of an array, in the order of the fields; the fields behind the last have defaults. -/
def Fields.MeansItems : {β δ : Type} → Fields β δ → List Value → β → Prop
  | _, _, .nil, values, () => values = []
  | _, _, .cons _ _ presence rest, [], (a, b) =>
    presence.default? = some a ∧ rest.MeansItems [] b
  | _, _, .cons _ shape _ rest, v :: values, (a, b) => shape.Means v a ∧ rest.MeansItems values b

/-- The members of an object, by the keys of the fields; a field without a member has a default. -/
def Fields.MeansMembers : {β δ : Type} → Fields β δ → Members → β → Prop
  | _, _, .nil, _, () => True
  | _, _, .cons key shape presence rest, members, (a, b) =>
    Holds shape.Means presence.default? (members.lookup key) a ∧
      rest.MeansMembers (members.filter fun m ↦ m.1 ≠ key) b

end

/-- On every text that holds a value, the reader takes the text of the value for what it means. -/
def Follows {α : Type} (reader : Reader α) (means : Value → α → Prop) : Prop :=
  ∀ depth cs v rest, Value.read depth cs = .ok (v, rest) →
    ∀ a behind, reader cs = .ok (a, behind) ↔ behind = rest ∧ means v a

theorem placed_eq_ok_iff {α : Type} {rest behind : List Char} {x : Except Mismatch α} {a : α} :
    placed rest x = .ok (a, behind) ↔ x = .ok a ∧ rest = behind := by
  cases x with
  | error what => simp [placed]
  | ok b => simp [placed]

theorem reject_ne_ok {α : Type} (expected : Expected) (cs : List Char) (p : α × List Char) :
    reject expected cs ≠ .ok p := by
  intro h
  obtain ⟨_, _, h⟩ := bind_eq_ok_iff.mp h
  simp at h

/-! ### Atoms -/

theorem Atom.accept_ne_ok {α : Type} (atom : Atom α) {found : Found} (a : α)
    (h : found = .sequence ∨ found = .map) : atom.accept found ≠ .ok a := by
  rcases h with rfl | rfl
  · cases atom <;> simp [accept, acceptText, acceptInteger32, acceptBoolean]
  · cases atom <;> simp [accept, acceptText, acceptInteger32, acceptBoolean]

theorem Shape.read_atom_eq_ok_iff {α : Type} {atom : Atom α} {cs rest : List Char} {a : α} :
    (Shape.atom atom).read cs = .ok (a, rest) ↔
      ∃ s, Scalar.Opens (skipBlanks cs) s rest ∧ atom.accept (.scalar s) = .ok a := by
  rw [Shape.read]
  refine bind_eq_ok_iff.trans ?_
  constructor
  · rintro ⟨⟨found, behind⟩, hfound, h⟩
    obtain ⟨haccept, rfl⟩ := placed_eq_ok_iff.mp h
    cases Found.read_eq_ok_iff.mp hfound with
    | scalar hscalar => exact ⟨_, hscalar, haccept⟩
    | sequence => exact absurd haccept (atom.accept_ne_ok a (Or.inl rfl))
    | map => exact absurd haccept (atom.accept_ne_ok a (Or.inr rfl))
  · rintro ⟨s, hscalar, haccept⟩
    exact ⟨_, Found.read_eq_ok_iff.mpr (.scalar hscalar), placed_eq_ok_iff.mpr ⟨haccept, rfl⟩⟩

theorem Shape.follows_atom {α : Type} (atom : Atom α) :
    Follows (Shape.atom atom).read (Shape.atom atom).Means := by
  intro depth cs v rest hv a behind
  have hopens := Value.read_eq_ok_iff.mp hv
  rw [Shape.read_atom_eq_ok_iff, Shape.Means]
  constructor
  · rintro ⟨s, hscalar, haccept⟩
    obtain ⟨rfl, rfl⟩ := hopens.eq_scalar hscalar
    exact ⟨rfl, haccept⟩
  · rintro ⟨rfl, haccept⟩
    cases hopens with
    | scalar hscalar => exact ⟨_, hscalar, haccept⟩
    | array => exact absurd haccept (atom.accept_ne_ok a (Or.inl rfl))
    | object => exact absurd haccept (atom.accept_ne_ok a (Or.inr rfl))

/-! ### Null -/

/-- A value begins with an n exactly when it is null. -/
theorem Value.Opens.eq_null_iff {depth : Nat} {cs rest : List Char} {v : Value}
    (h : Opens depth cs v rest) : v = .null ↔ ∃ text, skipBlanks cs = 'n' :: text := by
  constructor
  · rintro rfl
    cases h with
    | scalar hscalar =>
      generalize skipBlanks cs = text at hscalar
      cases hscalar with
      | null => exact ⟨_, rfl⟩
  · rintro ⟨text, hskip⟩
    cases h with
    | scalar hscalar =>
      rw [hskip] at hscalar
      cases hscalar with
      | null => rfl
      | number hc => simp at hc
    | array _ hopen => simp [hskip] at hopen
    | object _ hopen => simp [hskip] at hopen

section Nullable

variable {α : Type} {value : Shape α} {cs text rest : List Char} {a : Option α}

theorem Shape.read_nullable_of_null (hskip : skipBlanks cs = 'n' :: text) :
    (Shape.nullable value).read cs = .ok (a, rest) ↔
      Scalar.Opens (skipBlanks cs) .null rest ∧ a = none := by
  rw [Shape.read, hskip]
  refine bind_mk_eq_ok_iff.trans ?_
  constructor
  · rintro ⟨hword, rfl⟩
    exact ⟨.null hword, rfl⟩
  · rintro ⟨hscalar, rfl⟩
    cases hscalar with
    | null hword => exact ⟨hword, rfl⟩

theorem Shape.read_nullable_of_not_null (hskip : ¬ ∃ text, skipBlanks cs = 'n' :: text) :
    (Shape.nullable value).read cs = .ok (a, rest) ↔
      ∃ b, value.read (skipBlanks cs) = .ok (b, rest) ∧ some b = a := by
  have hread : (Shape.nullable value).read cs =
      value.read (skipBlanks cs) >>= fun p ↦ .ok (some p.1, p.2) := by
    rw [Shape.read]
    split
    · exact absurd ⟨_, ‹_›⟩ hskip
    · rfl
  rw [hread, bind_mapFst_eq_ok_iff]

theorem Shape.follows_nullable (h : Follows value.read value.Means) :
    Follows (Shape.nullable value).read (Shape.nullable value).Means := by
  intro depth cs v rest hv a behind
  have hopens := Value.read_eq_ok_iff.mp hv
  rw [Shape.Means]
  by_cases hnull : v = .null
  · obtain ⟨text, hskip⟩ := hopens.eq_null_iff.mp hnull
    subst hnull
    rw [read_nullable_of_null hskip]
    constructor
    · rintro ⟨hscalar, rfl⟩
      exact ⟨(hopens.eq_scalar hscalar).2.symm, Or.inl ⟨rfl, rfl⟩⟩
    · rintro ⟨rfl, ⟨_, rfl⟩ | ⟨hne, _⟩⟩
      · cases hopens with
        | scalar hscalar => exact ⟨hscalar, rfl⟩
      · exact absurd rfl hne
  · have hinner := h depth (skipBlanks cs) v rest (Value.read_skipBlanks_iff.mpr hv)
    rw [read_nullable_of_not_null (hopens.eq_null_iff.not.mp hnull)]
    constructor
    · rintro ⟨b, hb, rfl⟩
      obtain ⟨rfl, hmeans⟩ := (hinner b behind).mp hb
      exact ⟨rfl, Or.inr ⟨hnull, b, hmeans, rfl⟩⟩
    · rintro ⟨rfl, ⟨heq, _⟩ | ⟨_, b, hmeans, rfl⟩⟩
      · exact absurd heq hnull
      · exact ⟨b, (hinner b behind).mpr ⟨rfl, hmeans⟩, rfl⟩

end Nullable

/-! ### Choices -/

section Choice

variable {α : Type} {variants : List (String × α)} {cs rest : List Char} {a : α}

theorem skipNull_eq_ok_iff : skipNull cs = .ok rest ↔ Scalar.Opens (skipBlanks cs) .null rest := by
  unfold skipNull
  rw [bind_eq_ok_iff]
  constructor
  · rintro ⟨⟨found, behind⟩, hfound, h⟩
    split at h
    · rename_i heq
      obtain ⟨rfl, rfl⟩ := Prod.mk.inj heq
      obtain rfl := Except.ok.inj h
      cases Found.read_eq_ok_iff.mp hfound with
      | scalar hscalar => exact hscalar
    · simp at h
  · intro h
    exact ⟨_, Found.read_eq_ok_iff.mpr (.scalar h), rfl⟩

/-- The course of the direct reader through a choice. -/
inductive ChoiceRead (cs : List Char) : String → List Char → Prop where
  | name {text rest : List Char} {name : String} (hopen : skipBlanks cs = '"' :: text)
    (hread : Quoted.read text = .ok (name, rest)) : ChoiceRead cs name rest
  | key {text behind inside further rest : List Char} {name : String}
    (hopen : skipBlanks cs = '{' :: text)
    (hkey : nextMember true text = .ok (some name, behind)) (hcolon : colon behind = .ok inside)
    (hnull : Scalar.Opens (skipBlanks inside) .null further)
    (hclose : skipBlanks further = '}' :: rest) : ChoiceRead cs name rest

theorem choiceRead_of_readChoice (h : readChoice variants cs = .ok (a, rest)) :
    ∃ name, pick variants name = .ok a ∧ ChoiceRead cs name rest := by
  unfold readChoice at h
  split at h
  · simp at h
  · rename_i text hopen
    obtain ⟨⟨name, behind⟩, hread, h⟩ := bind_eq_ok_iff.mp h
    obtain ⟨hpick, rfl⟩ := placed_eq_ok_iff.mp h
    exact ⟨name, hpick, .name hopen hread⟩
  · rename_i text hopen
    split at h
    · simp at h
    · simp at h
    · obtain ⟨⟨name, behind⟩, hkey, h⟩ := bind_eq_ok_iff.mp h
      obtain ⟨⟨b, same⟩, hplaced, h⟩ := bind_eq_ok_iff.mp h
      obtain ⟨hpick, rfl⟩ := placed_eq_ok_iff.mp hplaced
      obtain ⟨inside, hcolon, h⟩ := bind_eq_ok_iff.mp h
      obtain ⟨further, hnull, h⟩ := bind_eq_ok_iff.mp h
      split at h
      · simp at h
      · rename_i last hclose
        obtain ⟨rfl, rfl⟩ := Prod.mk.inj (Except.ok.inj h)
        exact ⟨name, hpick, .key hopen (nextMember_true_iff.mpr hkey) hcolon
          (skipNull_eq_ok_iff.mp hnull) hclose⟩
      · simp at h
  · simp at h

theorem ChoiceRead.readChoice_eq_ok {name : String} (h : ChoiceRead cs name rest)
    (hpick : pick variants name = .ok a) : readChoice variants cs = .ok (a, rest) := by
  cases h with
  | name hopen hread =>
    rw [readChoice, hopen]
    exact bind_eq_ok_iff.mpr ⟨_, hread, placed_eq_ok_iff.mpr ⟨hpick, rfl⟩⟩
  | @key text behind inside further _ _ hopen hkey hcolon hnull hclose =>
    have hkey := nextMember_true_iff.mp hkey
    obtain ⟨after, hskip, _⟩ := memberKey_eq_ok_iff.mp hkey
    rw [hskip] at hkey
    rw [readChoice, hopen]
    simp only [hskip]
    refine bind_eq_ok_iff.mpr ⟨_, hkey, ?_⟩
    refine bind_eq_ok_iff.mpr ⟨_, placed_eq_ok_iff.mpr ⟨hpick, rfl⟩, ?_⟩
    refine bind_eq_ok_iff.mpr ⟨_, hcolon, ?_⟩
    refine bind_eq_ok_iff.mpr ⟨_, skipNull_eq_ok_iff.mpr hnull, ?_⟩
    simp only [hclose]

theorem readChoice_eq_ok_iff : readChoice variants cs = .ok (a, rest) ↔
    ∃ name, pick variants name = .ok a ∧ ChoiceRead cs name rest :=
  ⟨choiceRead_of_readChoice, fun ⟨_, hpick, h⟩ ↦ h.readChoice_eq_ok hpick⟩

theorem ChoiceRead.eq_name_or_key {depth : Nat} {name : String} {v : Value} {behind : List Char}
    (h : ChoiceRead cs name behind) (hopens : Value.Opens depth cs v rest) :
    behind = rest ∧ (v = .text name ∨ v = .object [(name, .null)]) := by
  cases h with
  | name hopen hread =>
    have hscalar : Scalar.Opens (skipBlanks cs) (.text name) behind := by
      rw [hopen]
      exact .text hread
    obtain ⟨rfl, rfl⟩ := hopens.eq_scalar hscalar
    exact ⟨rfl, Or.inl rfl⟩
  | key hopen hkey hcolon hnull hclose =>
    obtain ⟨_, found, rfl, hmembers, _⟩ := hopens.eq_object hopen
    cases hmembers with
    | done hnext => simp [hkey] at hnext
    | more hnext hinside hvalue hmore =>
      obtain ⟨hname, rfl⟩ := Prod.mk.inj (Except.ok.inj (hkey.symm.trans hnext))
      obtain rfl := Option.some.inj hname
      obtain rfl := Except.ok.inj (hcolon.symm.trans hinside)
      obtain ⟨rfl, rfl⟩ := (Value.read_eq_ok_iff.mp hvalue).eq_scalar hnull
      cases hmore with
      | done hend =>
        rw [nextMember_eq_none_iff, hclose] at hend
        exact ⟨(List.cons.inj hend).2, Or.inr rfl⟩
      | more hend =>
        obtain ⟨c, _, hskip, hc, _⟩ := nextMember_eq_some hend
        rw [hclose] at hskip
        exact absurd (List.cons.inj hskip).1.symm hc

/-- A choice is the text of a name, or of an object with this name and null. -/
theorem choiceRead_iff {depth : Nat} {name : String} {v : Value} {behind : List Char}
    (hopens : Value.Opens depth cs v rest) :
    ChoiceRead cs name behind ↔ behind = rest ∧ (v = .text name ∨ v = .object [(name, .null)]) := by
  constructor
  · intro h
    exact h.eq_name_or_key hopens
  · rintro ⟨rfl, rfl | rfl⟩
    · cases hopens with
      | scalar hscalar =>
        generalize htext : skipBlanks cs = text at hscalar
        cases hscalar with
        | text hread => exact .name htext hread
    · cases hopens with
      | object _ hopen hmembers _ =>
        cases hmembers with
        | more hkey hcolon hvalue hmore =>
          cases hmore with
          | done hclose =>
            cases Value.read_eq_ok_iff.mp hvalue with
            | scalar hnull =>
              exact .key hopen hkey hcolon hnull (nextMember_eq_none_iff.mp hclose)

theorem Shape.follows_choice {name : α → String}
    {lookup_name : ∀ a, variants.lookup (name a) = some a} :
    Follows (Shape.choice variants name lookup_name).read
      (Shape.choice variants name lookup_name).Means := by
  intro depth cs v rest hv a behind
  have hchoice : ∀ name, ChoiceRead cs name behind ↔
      behind = rest ∧ (v = .text name ∨ v = .object [(name, .null)]) :=
    fun name ↦ choiceRead_iff (Value.read_eq_ok_iff.mp hv)
  rw [Shape.read, Shape.Means, readChoice_eq_ok_iff]
  constructor
  · rintro ⟨name, hpick, h⟩
    obtain ⟨hrest, hname⟩ := (hchoice name).mp h
    exact ⟨hrest, name, hpick, hname⟩
  · rintro ⟨hrest, name, hpick, hname⟩
    exact ⟨name, hpick, (hchoice name).mpr ⟨hrest, hname⟩⟩

end Choice

/-! ### Lists and entries -/

section Loops

variable {α : Type} {reader : Reader α} {means : Value → α → Prop} {depth : Nat} {first : Bool}
  {cs rest behind : List Char}

theorem itemsRead_iff_means (hfollows : Follows reader means) {values : List Value} {as : List α}
    (h : ItemsRead (Value.read depth) first cs values rest) :
    ItemsRead reader first cs as behind ↔ behind = rest ∧ List.Forall₂ means values as := by
  induction h generalizing as with
  | @done first cs rest hnext =>
    constructor
    · intro has
      cases has with
      | done hother =>
        rw [nextItem_eq_false_iff] at hnext hother
        exact ⟨(List.cons.inj (hother.symm.trans hnext)).2, .nil⟩
      | more hother => simp [hnext] at hother
    · rintro ⟨rfl, has⟩
      cases has
      exact .done hnext
  | @more first cs text middle rest v values hnext hitem _ ih =>
    constructor
    · intro has
      cases has with
      | done hother => simp [hnext] at hother
      | more hother hread hmore =>
        obtain ⟨_, rfl⟩ := Prod.mk.inj (Except.ok.inj (hnext.symm.trans hother))
        obtain ⟨rfl, hmeans⟩ := (hfollows depth _ _ _ hitem _ _).mp hread
        obtain ⟨hrest, hothers⟩ := ih.mp hmore
        exact ⟨hrest, .cons hmeans hothers⟩
    · rintro ⟨hrest, has⟩
      cases has with
      | cons hmeans hothers =>
        have hread := (hfollows depth _ _ _ hitem _ _).mpr ⟨rfl, hmeans⟩
        exact .more hnext hread (ih.mpr ⟨hrest, hothers⟩)

theorem membersRead_iff_means (hfollows : Follows reader means) {members : Members}
    {entries : List (String × α)} (h : MembersRead (Value.read depth) first cs members rest) :
    MembersRead reader first cs entries behind ↔ behind = rest ∧
      List.Forall₂ (fun m entry ↦ m.1 = entry.1 ∧ means m.2 entry.2) members entries := by
  induction h generalizing entries with
  | @done first cs rest hnext =>
    constructor
    · intro hentries
      cases hentries with
      | done hother =>
        rw [nextMember_eq_none_iff] at hnext hother
        exact ⟨(List.cons.inj (hother.symm.trans hnext)).2, .nil⟩
      | more hother => simp [hnext] at hother
    · rintro ⟨rfl, hentries⟩
      cases hentries
      exact .done hnext
  | @more first cs text inside middle rest name v members hnext hcolon hvalue _ ih =>
    constructor
    · intro hentries
      cases hentries with
      | done hother => simp [hnext] at hother
      | more hother hinside hread hmore =>
        obtain ⟨hname, rfl⟩ := Prod.mk.inj (Except.ok.inj (hnext.symm.trans hother))
        obtain rfl := Except.ok.inj (hcolon.symm.trans hinside)
        obtain ⟨rfl, hmeans⟩ := (hfollows depth _ _ _ hvalue _ _).mp hread
        obtain ⟨hrest, hothers⟩ := ih.mp hmore
        exact ⟨hrest, .cons ⟨Option.some.inj hname, hmeans⟩ hothers⟩
    · rintro ⟨hrest, hentries⟩
      cases hentries with
      | @cons _ entry _ entries hfirst hothers =>
        obtain ⟨key, a⟩ := entry
        obtain ⟨rfl, hmeans⟩ : name = key ∧ means v a := hfirst
        have hread := (hfollows depth _ _ _ hvalue _ _).mpr ⟨rfl, hmeans⟩
        exact .more hnext hcolon hread (ih.mpr ⟨hrest, hothers⟩)

end Loops

section List

variable {α : Type} {cs rest : List Char}

theorem Shape.read_list_eq_ok_iff {item : Shape α} {as : List α} :
    (Shape.list item).read cs = .ok (as, rest) ↔
      ∃ text, skipBlanks cs = '[' :: text ∧ items item.read text = .ok (as, rest) := by
  rw [Shape.read]
  split
  · rename_i text hopen
    rw [hopen]
    constructor
    · exact fun h ↦ ⟨text, rfl, h⟩
    · rintro ⟨other, hother, h⟩
      rwa [(List.cons.inj hother).2]
  · rename_i hother
    refine iff_of_false (reject_ne_ok _ _ _) ?_
    rintro ⟨text, hopen, _⟩
    exact hother text hopen

theorem Shape.read_entries_eq_ok_iff {value : Shape α} {entries : List (String × α)} :
    (Shape.entries value).read cs = .ok (entries, rest) ↔
      ∃ text, skipBlanks cs = '{' :: text ∧ members value.read text = .ok (entries, rest) := by
  rw [Shape.read]
  split
  · rename_i text hopen
    rw [hopen]
    constructor
    · exact fun h ↦ ⟨text, rfl, h⟩
    · rintro ⟨other, hother, h⟩
      rwa [(List.cons.inj hother).2]
  · rename_i hother
    refine iff_of_false (reject_ne_ok _ _ _) ?_
    rintro ⟨text, hopen, _⟩
    exact hother text hopen

theorem Shape.follows_list {item : Shape α} (h : Follows item.read item.Means) :
    Follows (Shape.list item).read (Shape.list item).Means := by
  intro depth cs v rest hv as behind
  have hopens := Value.read_eq_ok_iff.mp hv
  rw [Shape.read_list_eq_ok_iff, Shape.Means]
  constructor
  · rintro ⟨text, hopen, hitems⟩
    obtain ⟨_, values, rfl, hvalues, _⟩ := hopens.eq_array hopen
    obtain ⟨hrest, hmeans⟩ := (itemsRead_iff_means h hvalues).mp (items_eq_ok_iff.mp hitems).1
    exact ⟨hrest, values, rfl, hmeans⟩
  · rintro ⟨hrest, values, rfl, hmeans⟩
    cases hopens with
    | array _ hopen hvalues hlength =>
      refine ⟨_, hopen, items_eq_ok_iff.mpr ⟨?_, hmeans.length_eq ▸ hlength⟩⟩
      exact (itemsRead_iff_means h hvalues).mpr ⟨hrest, hmeans⟩

theorem Shape.follows_entries {value : Shape α} (h : Follows value.read value.Means) :
    Follows (Shape.entries value).read (Shape.entries value).Means := by
  intro depth cs v rest hv entries behind
  have hopens := Value.read_eq_ok_iff.mp hv
  rw [Shape.read_entries_eq_ok_iff, Shape.Means]
  constructor
  · rintro ⟨text, hopen, hentries⟩
    obtain ⟨_, members, rfl, hmembers, _⟩ := hopens.eq_object hopen
    obtain ⟨hrest, hmeans⟩ :=
      (membersRead_iff_means h hmembers).mp (members_eq_ok_iff.mp hentries).1
    exact ⟨hrest, members, rfl, hmeans⟩
  · rintro ⟨hrest, members, rfl, hmeans⟩
    cases hopens with
    | object _ hopen hmembers hlength =>
      refine ⟨_, hopen, members_eq_ok_iff.mpr ⟨?_, hmeans.length_eq ▸ hlength⟩⟩
      exact (membersRead_iff_means h hmembers).mpr ⟨hrest, hmeans⟩

end List

end ChangeDdl.Json
