import ChangeDdl.Proofs.Json.Meaning

/-!
Records are read by their meaning, given as arrays or as objects, and with them values of every
shape (`Shape.follows`).

The members of an object come in any order. One by one each is put into its field's place, which
must be free (`Fields.Puts`); after the last, the places hold what the members mean by their keys
(`Fields.exists_putsAll_iff`).
-/

set_option autoImplicit false
set_option relaxedAutoImplicit false

namespace ChangeDdl.Json

namespace Fields

/-- Every field is read by its meaning. -/
def AllFollow : {β δ : Type} → Fields β δ → Prop
  | _, _, nil => True
  | _, _, cons _ shape _ rest => Follows shape.read shape.Means ∧ rest.AllFollow

/-! ### Arrays -/

section Arrays

variable {tooShort : Nat → Mismatch} {n depth : Nat} {first : Bool} {cs text rest : List Char}

theorem defaults_eq_ok_iff : {β δ : Type} → (fields : Fields β δ) → {n : Nat} → {b : β} →
    (fields.defaults n = .ok b ↔ fields.MeansItems [] b)
  | _, _, nil, _, () => by simp [defaults, MeansItems]
  | _, _, cons key shape presence others, n, (a, b) => by
    rw [defaults, MeansItems]
    cases presence.default? with
    | none => simp
    | some c =>
      rw [← others.defaults_eq_ok_iff (n := n + 1), Option.some.injEq]
      refine map_eq_ok_iff.trans ?_
      simp [and_comm]

section Cons

variable {α β δ : Type} {key : String} {shape : Shape α} {presence : Presence α}
  {others : Fields β δ} {a : α} {b : β} {p : α × β}

/-- Behind the last item the remaining fields have their defaults. -/
theorem readItems_of_done (hnext : nextItem first cs = .ok (false, text)) :
    (cons key shape presence others).readItems tooShort n first cs = .ok (p, rest) ↔
      (cons key shape presence others).defaults n = .ok p ∧ text = rest := by
  rw [readItems, hnext]
  cases (cons key shape presence others).defaults n with
  | error m => exact iff_of_false nofun nofun
  | ok q =>
    show Except.ok (q, text) = .ok (p, rest) ↔ Except.ok q = .ok p ∧ text = rest
    simp

theorem readItems_of_more (hnext : nextItem first cs = .ok (true, text)) :
    (cons key shape presence others).readItems tooShort n first cs = .ok ((a, b), rest) ↔
      ∃ behind, shape.read text = .ok (a, behind) ∧
        others.readItems tooShort (n + 1) false behind = .ok (b, rest) := by
  rw [readItems, bind_eq_ok_iff]
  constructor
  · rintro ⟨found, hfound, h⟩
    obtain rfl := Except.ok.inj (hnext.symm.trans hfound)
    obtain ⟨⟨first, behind⟩, hfirst, h⟩ := bind_eq_ok_iff.mp h
    obtain ⟨more, hmore, hpair⟩ := (bind_mapFst_eq_ok_iff (f := (first, ·))).mp h
    obtain ⟨rfl, rfl⟩ := Prod.mk.inj hpair
    exact ⟨behind, hfirst, hmore⟩
  · rintro ⟨behind, hfirst, hmore⟩
    exact ⟨_, hnext, bind_eq_ok_iff.mpr ⟨_, hfirst, bind_eq_ok_iff.mpr ⟨_, hmore, rfl⟩⟩⟩

end Cons

theorem readItems_nil_iff {b : Unit} :
    nil.readItems tooShort n first cs = .ok (b, rest) ↔ skipBlanks cs = ']' :: rest := by
  rw [readItems, ← closeItems_eq_ok_iff]
  exact bind_mk_eq_ok_iff.trans (and_iff_left rfl)

theorem readItems_iff_means : {β δ : Type} → (fields : Fields β δ) → fields.AllFollow →
    {n : Nat} → {first : Bool} → {cs behind : List Char} → {values : List Value} → {b : β} →
    ItemsRead (Value.read depth) first cs values rest →
    (fields.readItems tooShort n first cs = .ok (b, behind) ↔
      behind = rest ∧ fields.MeansItems values b)
  | _, _, nil, _, n, first, cs, behind, values, (), hitems => by
    rw [readItems_nil_iff, MeansItems]
    cases hitems with
    | done hnext =>
      rw [nextItem_eq_false_iff.mp hnext, List.cons.injEq]
      simp [eq_comm]
    | more hnext =>
      obtain ⟨c, _, hskip, hc, _⟩ := nextItem_eq_true hnext
      simp [hskip, hc]
  | _, _, cons key shape presence others, hfollow, n, first, cs, behind, values, (a, b),
      hitems => by
    cases hitems with
    | done hnext =>
      rw [readItems_of_done hnext, defaults_eq_ok_iff, and_comm, eq_comm]
    | more hnext hitem hmore =>
      rw [readItems_of_more hnext, MeansItems]
      constructor
      · rintro ⟨after, hread, hothers⟩
        obtain ⟨rfl, ha⟩ := (hfollow.1 depth _ _ _ hitem a after).mp hread
        obtain ⟨hrest, hb⟩ := (others.readItems_iff_means hfollow.2 hmore).mp hothers
        exact ⟨hrest, ha, hb⟩
      · rintro ⟨hrest, ha, hb⟩
        exact ⟨_, (hfollow.1 depth _ _ _ hitem a _).mpr ⟨rfl, ha⟩,
          (others.readItems_iff_means hfollow.2 hmore).mpr ⟨hrest, hb⟩⟩

end Arrays

/-! ### Members -/

/-- The member is put into the free place of its field, or is ignored. -/
def Puts (refusal : String → Option Mismatch) :
    {β δ : Type} → Fields β δ → δ → String × Value → δ → Prop
  | _, _, nil, (), m, () => refusal m.1 = none
  | _, _, cons key shape _ rest, (slot, others), m, (found, final) =>
    if m.1 = key then slot = none ∧ (∃ a, shape.Means m.2 a ∧ found = some a) ∧ final = others
    else found = slot ∧ rest.Puts refusal others m final

section Step

variable {refusal : String → Option Mismatch} {depth : Nat} {name : String} {v : Value}
  {cs inside rest : List Char}

/-- A member of the first field goes into its place, which must be free. -/
theorem readMember_first_iff {α β δ : Type} {key : String} {shape : Shape α} {presence : Presence α}
    {others : Fields β δ} (hfollow : Follows shape.read shape.Means) {slot found : Option α}
    {draft final : δ} {behind : List Char} (hcolon : colon cs = .ok inside)
    (hv : Value.read depth inside = .ok (v, rest)) :
    (cons key shape presence others).readMember refusal (slot, draft) key cs =
        .ok ((found, final), behind) ↔
      behind = rest ∧ slot = none ∧ (∃ a, shape.Means v a ∧ found = some a) ∧ final = draft := by
  rw [readMember, if_pos rfl]
  cases slot with
  | some a => simp
  | none =>
    rw [if_neg (by simp)]
    refine bind_eq_ok_iff.trans ?_
    constructor
    · rintro ⟨text, hother, h⟩
      obtain ⟨a, hread, hdraft⟩ := (bind_mapFst_eq_ok_iff (f := fun a ↦ (some a, draft))).mp h
      obtain ⟨rfl, rfl⟩ := Prod.mk.inj hdraft
      obtain rfl := Except.ok.inj (hcolon.symm.trans hother)
      obtain ⟨rfl, ha⟩ := (hfollow depth _ _ _ hv a behind).mp hread
      exact ⟨rfl, rfl, ⟨a, ha, rfl⟩, rfl⟩
    · rintro ⟨rfl, _, ⟨a, ha, rfl⟩, rfl⟩
      have hread := (hfollow depth _ _ _ hv a _).mpr ⟨rfl, ha⟩
      exact ⟨_, hcolon, bind_eq_ok_iff.mpr ⟨_, hread, rfl⟩⟩

theorem readMember_iff_puts : {β δ : Type} → (fields : Fields β δ) → fields.AllFollow →
    {draft final : δ} → {behind : List Char} → colon cs = .ok inside →
    Value.read depth inside = .ok (v, rest) →
    (fields.readMember refusal draft name cs = .ok (final, behind) ↔
      behind = rest ∧ fields.Puts refusal draft (name, v) final)
  | _, _, nil, _, (), (), behind, hcolon, hv => by
    rw [readMember, Puts]
    cases hname : refusal name with
    | some what => simp
    | none =>
      refine bind_eq_ok_iff.trans ?_
      constructor
      · rintro ⟨text, hother, h⟩
        obtain ⟨hskim, _⟩ := bind_mk_eq_ok_iff.mp h
        obtain rfl := Except.ok.inj (hcolon.symm.trans hother)
        exact ⟨Except.ok.inj (hskim.symm.trans (skim_of_read hv)), rfl⟩
      · rintro ⟨rfl, _⟩
        exact ⟨_, hcolon, bind_mk_eq_ok_iff.mpr ⟨skim_of_read hv, rfl⟩⟩
  | _, _, cons key shape presence others, hfollow, (slot, draft), (found, final), behind, hcolon,
      hv => by
    rw [Puts]
    by_cases hname : name = key
    · rw [if_pos hname, hname, readMember_first_iff hfollow.1 hcolon hv]
    · rw [readMember, if_neg hname, if_neg hname]
      refine (bind_mapFst_eq_ok_iff (f := (slot, ·))).trans ?_
      constructor
      · rintro ⟨more, hread, hdraft⟩
        obtain ⟨rfl, rfl⟩ := Prod.mk.inj hdraft
        obtain ⟨hrest, hputs⟩ := (others.readMember_iff_puts hfollow.2 hcolon hv).mp hread
        exact ⟨hrest, rfl, hputs⟩
      · rintro ⟨hrest, rfl, hputs⟩
        exact ⟨_, (others.readMember_iff_puts hfollow.2 hcolon hv).mpr ⟨hrest, hputs⟩, rfl⟩

end Step

/-- All members are put into their places. -/
def PutsAll {β δ : Type} (refusal : String → Option Mismatch) (fields : Fields β δ) :
    δ → Members → δ → Prop
  | draft, [], final => final = draft
  | draft, m :: members, final =>
    ∃ next, fields.Puts refusal draft m next ∧ fields.PutsAll refusal next members final

theorem foldMembers_iff_putsAll {β δ : Type} {fields : Fields β δ}
    {refusal : String → Option Mismatch} {depth : Nat} {first : Bool}
    {fuel cs rest behind : List Char} {members : Members} {draft final : δ}
    (hfollow : fields.AllFollow) (h : MembersRead (Value.read depth) first cs members rest)
    (hfuel : members.length < fuel.length) :
    foldMembers (fields.readMember refusal) fuel first draft cs = .ok (final, behind) ↔
      behind = rest ∧ fields.PutsAll refusal draft members final := by
  induction h generalizing fuel draft with
  | @done first cs rest hnext =>
    cases fuel with
    | nil => simp at hfuel
    | cons d fuel =>
      rw [foldMembers, hnext, PutsAll]
      show Except.ok (draft, rest) = .ok (final, behind) ↔ _
      simp only [Except.ok.injEq, Prod.mk.injEq]
      rw [and_comm, eq_comm, eq_comm (a := final)]
  | @more first cs text inside after rest name v members hnext hcolon hvalue _ ih =>
    cases fuel with
    | nil => simp at hfuel
    | cons d fuel =>
      have hmore : ∀ next, foldMembers (fields.readMember refusal) fuel false next after =
          .ok (final, behind) ↔ behind = rest ∧ fields.PutsAll refusal next members final :=
        fun next ↦ ih (Nat.lt_of_succ_lt_succ hfuel)
      rw [foldMembers, PutsAll]
      refine bind_eq_ok_iff.trans ?_
      constructor
      · rintro ⟨_, hother, hstep⟩
        obtain rfl := Except.ok.inj (hnext.symm.trans hother)
        obtain ⟨⟨next, last⟩, hread, hfold⟩ := bind_eq_ok_iff.mp hstep
        obtain ⟨rfl, hputs⟩ := (fields.readMember_iff_puts hfollow hcolon hvalue).mp hread
        obtain ⟨hrest, hothers⟩ := (hmore next).mp hfold
        exact ⟨hrest, next, hputs, hothers⟩
      · rintro ⟨hrest, next, hputs, hothers⟩
        have hread := (fields.readMember_iff_puts hfollow hcolon hvalue).mpr ⟨rfl, hputs⟩
        exact ⟨_, hnext, bind_eq_ok_iff.mpr ⟨_, hread, (hmore next).mpr ⟨hrest, hothers⟩⟩⟩

/-! ### Places -/

section Places

variable {refusal : String → Option Mismatch} {members : Members}

/-- The members of one field are put into its place. -/
def Takes {α : Type} (shape : Shape α) : Option α → Members → Option α → Prop
  | slot, [], found => found = slot
  | slot, m :: own, found => slot = none ∧ ∃ a, shape.Means m.2 a ∧ Takes shape (some a) own found

/-- The members of the first field and those of the other fields go to different places. -/
theorem putsAll_cons_iff {α β δ : Type} {key : String} {shape : Shape α} {presence : Presence α}
    {rest : Fields β δ} {slot found : Option α} {others final : δ} :
    (cons key shape presence rest).PutsAll refusal (slot, others) members (found, final) ↔
      Takes shape slot (members.filter fun m ↦ m.1 = key) found ∧
        rest.PutsAll refusal others (members.filter fun m ↦ m.1 ≠ key) final := by
  induction members generalizing slot others with
  | nil => simp [PutsAll, Takes]
  | cons m members ih =>
    rw [PutsAll]
    by_cases hm : m.1 = key
    · rw [List.filter_cons_of_pos (by simpa using hm), List.filter_cons_of_neg (by simpa using hm),
        Takes]
      constructor
      · rintro ⟨⟨next, draft⟩, hputs, hmore⟩
        rw [Puts, if_pos hm] at hputs
        obtain ⟨rfl, ⟨a, ha, rfl⟩, rfl⟩ := hputs
        obtain ⟨htakes, hothers⟩ := ih.mp hmore
        exact ⟨⟨rfl, a, ha, htakes⟩, hothers⟩
      · rintro ⟨⟨rfl, a, ha, htakes⟩, hothers⟩
        refine ⟨(some a, others), ?_, ih.mpr ⟨htakes, hothers⟩⟩
        rw [Puts, if_pos hm]
        exact ⟨rfl, ⟨a, ha, rfl⟩, rfl⟩
    · rw [List.filter_cons_of_neg (by simpa using hm), List.filter_cons_of_pos (by simpa using hm),
        PutsAll]
      constructor
      · rintro ⟨⟨next, draft⟩, hputs, hmore⟩
        rw [Puts, if_neg hm] at hputs
        obtain ⟨rfl, hputs⟩ := hputs
        obtain ⟨htakes, hothers⟩ := ih.mp hmore
        exact ⟨htakes, draft, hputs, hothers⟩
      · rintro ⟨htakes, draft, hputs, hothers⟩
        refine ⟨(slot, draft), ?_, ih.mpr ⟨htakes, hothers⟩⟩
        rw [Puts, if_neg hm]
        exact ⟨rfl, hputs⟩

theorem putsAll_nil_iff {draft final : Unit} :
    nil.PutsAll refusal draft members final ↔ ∀ m ∈ members, refusal m.1 = none := by
  induction members with
  | nil => simp [PutsAll]
  | cons m members ih =>
    rw [PutsAll, List.forall_mem_cons, ← ih]
    exact ⟨fun ⟨_, hputs, hmore⟩ ↦ ⟨hputs, hmore⟩, fun ⟨hputs, hmore⟩ ↦ ⟨(), hputs, hmore⟩⟩

/-- The place of a field holds its only member; without one the default applies. -/
theorem exists_takes_iff {α : Type} {shape : Shape α} {key : String} {default : Option α} {a : α} :
    (∃ found, Takes shape none (members.filter fun m ↦ m.1 = key) found ∧
        (found <|> default) = some a) ↔
      (members.filter fun m ↦ m.1 = key).length ≤ 1 ∧
        Holds shape.Means default (members.lookup key) a := by
  rw [Members.lookup_eq_head_filter]
  generalize members.filter (fun m ↦ m.1 = key) = own
  match own with
  | [] => simp [Takes, Holds]
  | [m] => simp [Takes, Holds]
  | _ :: _ :: _ => simp [Takes]

theorem complete_cons_iff {α β δ : Type} {key : String} {shape : Shape α} {presence : Presence α}
    {rest : Fields β δ} {slot : Option α} {draft : δ} {a : α} {b : β} :
    (cons key shape presence rest).complete (slot, draft) = .ok (a, b) ↔
      (slot <|> presence.default?) = some a ∧ rest.complete draft = .ok b := by
  rw [complete]
  cases slot <|> presence.default? with
  | none => simp [bind, Except.bind]
  | some c =>
    refine bind_eq_ok_iff.trans ?_
    simp only [Except.ok.injEq, exists_eq_left', Option.some.injEq]
    exact bind_mk_eq_ok_iff.trans and_comm

theorem once_cons_iff {α β δ : Type} {key : String} {shape : Shape α} {presence : Presence α}
    {rest : Fields β δ} :
    (cons key shape presence rest).Once members ↔
      (members.filter fun m ↦ m.1 = key).length ≤ 1 ∧
        rest.Once (members.filter fun m ↦ m.1 ≠ key) := by
  constructor
  · intro h
    exact ⟨h key List.mem_cons_self, once_filter_ne h⟩
  · rintro ⟨hown, hrest⟩ name hname
    by_cases heq : name = key
    · rwa [heq]
    · have h := hrest name ((List.mem_cons.mp hname).resolve_left heq)
      have hfilter : (members.filter fun m ↦ decide (m.1 = name) && decide (m.1 ≠ key)) =
          members.filter fun m ↦ m.1 = name := by
        refine List.filter_congr fun m _ ↦ ?_
        by_cases hm : m.1 = name <;> simp [hm, heq]
      rwa [List.filter_filter, hfilter] at h

/-- The places are filled from the members exactly when each is free for its member and no member
is refused. -/
theorem exists_putsAll_iff : {β δ : Type} → (fields : Fields β δ) → {members : Members} → {b : β} →
    ((∃ final, fields.PutsAll refusal fields.blank members final ∧ fields.complete final = .ok b) ↔
      (∀ m ∈ members, m.1 ∉ fields.keys → refusal m.1 = none) ∧ fields.Once members ∧
        fields.MeansMembers members b)
  | _, _, nil, members, () => by
    rw [MeansMembers]
    constructor
    · rintro ⟨final, hputs, _⟩
      exact ⟨fun m hm _ ↦ putsAll_nil_iff.mp hputs m hm, by simp [Once, keys], trivial⟩
    · rintro ⟨hforeign, _, _⟩
      exact ⟨(), putsAll_nil_iff.mpr fun m hm ↦ hforeign m hm (by simp [keys]), rfl⟩
  | _, _, cons key shape presence rest, members, (a, b) => by
    have hrest := @exists_putsAll_iff _ _ rest (members.filter fun m ↦ m.1 ≠ key) b
    have hfirst := @exists_takes_iff members _ shape key presence.default? a
    rw [← forall_foreign_cons_iff, once_cons_iff, MeansMembers, blank]
    constructor
    · rintro ⟨⟨found, final⟩, hputs, hcomplete⟩
      obtain ⟨htakes, hothers⟩ := putsAll_cons_iff.mp hputs
      obtain ⟨hslot, hmore⟩ := complete_cons_iff.mp hcomplete
      obtain ⟨hown, hmeans⟩ := hfirst.mp ⟨found, htakes, hslot⟩
      obtain ⟨hforeign, honce, hmembers⟩ := hrest.mp ⟨final, hothers, hmore⟩
      exact ⟨hforeign, ⟨hown, honce⟩, hmeans, hmembers⟩
    · rintro ⟨hforeign, ⟨hown, honce⟩, hmeans, hmembers⟩
      obtain ⟨found, htakes, hslot⟩ := hfirst.mpr ⟨hown, hmeans⟩
      obtain ⟨final, hothers, hmore⟩ := hrest.mpr ⟨hforeign, honce, hmembers⟩
      exact ⟨(found, final), putsAll_cons_iff.mpr ⟨htakes, hothers⟩,
        complete_cons_iff.mpr ⟨hslot, hmore⟩⟩

/-- A closed record refuses what it does not know. -/
theorem forall_refusal_iff {β δ : Type} {fields : Fields β δ} {closed : Bool} :
    (∀ m ∈ members, m.1 ∉ fields.keys → fields.refusal closed m.1 = none) ↔
      (closed = true → ∀ m ∈ members, m.1 ∈ fields.keys) := by
  cases closed with
  | false => simp [Fields.refusal]
  | true => simp [Fields.refusal]

end Places

end Fields

/-! ### Records -/

section Record

variable {α β δ : Type} {name : String} {closed : Bool} {fields : Fields β δ} {make : β → α}
  {parts : α → β} {make_parts : ∀ a, make (parts a) = a} {cs text rest : List Char} {a : α}

theorem Shape.read_record_array_iff (hopen : skipBlanks cs = '[' :: text) :
    (Shape.record name closed fields make parts make_parts).read cs = .ok (a, rest) ↔
      ∃ b, fields.readItems (fields.tooShort name) 0 true text = .ok (b, rest) ∧ make b = a := by
  rw [Shape.read, hopen]
  exact bind_mapFst_eq_ok_iff

theorem Shape.read_record_object_iff (hopen : skipBlanks cs = '{' :: text) :
    (Shape.record name closed fields make parts make_parts).read cs = .ok (a, rest) ↔
      ∃ draft b, foldMembers (fields.readMember (fields.refusal closed)) ('{' :: text) true
          fields.blank text = .ok (draft, rest) ∧
        fields.complete draft = .ok b ∧ make b = a := by
  rw [Shape.read, hopen]
  refine bind_eq_ok_iff.trans ?_
  constructor
  · rintro ⟨⟨draft, behind⟩, hfold, h⟩
    obtain ⟨b, hplaced, hmake⟩ := bind_mapFst_eq_ok_iff.mp h
    obtain ⟨hcomplete, rfl⟩ := placed_eq_ok_iff.mp hplaced
    exact ⟨draft, b, hfold, hcomplete, hmake⟩
  · rintro ⟨draft, b, hfold, hcomplete, hmake⟩
    refine ⟨_, hfold, bind_mapFst_eq_ok_iff.mpr ⟨b, ?_, hmake⟩⟩
    exact placed_eq_ok_iff.mpr ⟨hcomplete, rfl⟩

/-- A record is read from what begins with a bracket or a brace. -/
theorem Shape.read_record_opens
    (h : (Shape.record name closed fields make parts make_parts).read cs = .ok (a, rest)) :
    ∃ text, skipBlanks cs = '[' :: text ∨ skipBlanks cs = '{' :: text := by
  rw [Shape.read] at h
  split at h
  · exact ⟨_, Or.inl ‹_›⟩
  · exact ⟨_, Or.inr ‹_›⟩
  · exact absurd h (reject_ne_ok _ _ _)

theorem Shape.follows_record (hfollow : fields.AllFollow) :
    Follows (Shape.record name closed fields make parts make_parts).read
      (Shape.record name closed fields make parts make_parts).Means := by
  intro depth cs v rest hv a behind
  have hopens := Value.read_eq_ok_iff.mp hv
  rw [Shape.Means]
  constructor
  · intro ha
    obtain ⟨text, hopen | hopen⟩ := read_record_opens ha
    · obtain ⟨_, values, rfl, hitems, _⟩ := hopens.eq_array hopen
      obtain ⟨b, hread, hmake⟩ := (read_record_array_iff hopen).mp ha
      obtain ⟨hrest, hmeans⟩ := (fields.readItems_iff_means hfollow hitems).mp hread
      exact ⟨hrest, b, hmake, Or.inl ⟨values, rfl, hmeans⟩⟩
    · obtain ⟨_, members, rfl, hmembers, hlength⟩ := hopens.eq_object hopen
      obtain ⟨draft, b, hfold, hcomplete, hmake⟩ := (read_record_object_iff hopen).mp ha
      have hfuel : members.length < ('{' :: text).length := Nat.lt_succ_of_le hlength
      obtain ⟨hrest, hputs⟩ := (Fields.foldMembers_iff_putsAll hfollow hmembers hfuel).mp hfold
      obtain ⟨hforeign, honce, hmeans⟩ := fields.exists_putsAll_iff.mp ⟨draft, hputs, hcomplete⟩
      exact ⟨hrest, b, hmake, Or.inr
        ⟨members, rfl, Fields.forall_refusal_iff.mp hforeign, honce, hmeans⟩⟩
  · rintro ⟨hrest, b, hmake, ⟨values, rfl, hmeans⟩ | ⟨members, rfl, hknown, honce, hmeans⟩⟩
    · cases hopens with
      | array _ hopen hitems _ =>
        refine (read_record_array_iff hopen).mpr ⟨b, ?_, hmake⟩
        exact (fields.readItems_iff_means hfollow hitems).mpr ⟨hrest, hmeans⟩
    · cases hopens with
      | @object _ text _ _ _ hopen hmembers hlength =>
        have hfuel : members.length < ('{' :: text).length := Nat.lt_succ_of_le hlength
        obtain ⟨draft, hputs, hcomplete⟩ := fields.exists_putsAll_iff.mpr
          ⟨Fields.forall_refusal_iff.mpr hknown, honce, hmeans⟩
        have hfold :=
          (Fields.foldMembers_iff_putsAll hfollow hmembers hfuel).mpr ⟨hrest, hputs⟩
        exact (read_record_object_iff hopen).mpr ⟨draft, b, hfold, hcomplete, hmake⟩

end Record

/-! ### Shapes -/

mutual

/-- A text that holds a value is read by the meaning of the value. -/
theorem Shape.follows : {α : Type} → (shape : Shape α) → Follows shape.read shape.Means
  | _, .atom atom => Shape.follows_atom atom
  | _, .nullable value => Shape.follows_nullable value.follows
  | _, .choice _ _ _ => Shape.follows_choice
  | _, .list item => Shape.follows_list item.follows
  | _, .entries value => Shape.follows_entries value.follows
  | _, .record _ _ fields _ _ _ => Shape.follows_record fields.allFollow

theorem Fields.allFollow : {β δ : Type} → (fields : Fields β δ) → fields.AllFollow
  | _, _, .nil => trivial
  | _, _, .cons _ shape _ rest => ⟨shape.follows, rest.allFollow⟩

end

theorem Shape.parse_iff_means {α : Type} {shape : Shape α} {text : String} {v : Value}
    (hv : Value.parse text = .ok v) (a : α) : shape.parse text = .ok a ↔ shape.Means v a := by
  obtain ⟨rest, hread, hend⟩ := parseWith_eq_ok_iff.mp hv
  have hfollows := shape.follows _ _ _ _ hread
  constructor
  · intro ha
    obtain ⟨behind, hshape, _⟩ := parseWith_eq_ok_iff.mp ha
    exact ((hfollows a behind).mp hshape).2
  · intro ha
    exact parseWith_eq_ok_iff.mpr ⟨rest, (hfollows a rest).mpr ⟨rfl, ha⟩, hend⟩

end ChangeDdl.Json
