import ChangeDdl.Json.Items
import ChangeDdl.Proofs.Fallible
import Mathlib.Data.List.Basic

/-!
Lists and objects without fuel. `ItemsRead` and `MembersRead` say what a loop takes off a text, item
by item and member by member. A loop succeeds exactly when there is such a course through the text
and the fuel outlasts it (`items_eq_ok_iff`, `members_eq_ok_iff`).
-/

set_option autoImplicit false
set_option relaxedAutoImplicit false

namespace ChangeDdl.Json

/-! ### Blanks -/

theorem skipBlanks_cons_of_not_blank {c : Char} {cs : List Char} (hc : isBlank c = false) :
    skipBlanks (c :: cs) = c :: cs := by
  simp [skipBlanks, hc]

@[simp] theorem skipBlanks_skipBlanks (cs : List Char) :
    skipBlanks (skipBlanks cs) = skipBlanks cs := by
  induction cs with
  | nil => rfl
  | cons c cs ih =>
    by_cases hc : isBlank c = true
    · simpa [skipBlanks, hc] using ih
    · simp [skipBlanks, hc]

theorem length_skipBlanks (cs : List Char) : (skipBlanks cs).length ≤ cs.length :=
  (List.dropWhile_sublist _).length_le

/-! ### Separators -/

theorem nextItem_eq_false_iff {first : Bool} {cs rest : List Char} :
    nextItem first cs = .ok (false, rest) ↔ skipBlanks cs = ']' :: rest := by
  unfold nextItem
  split
  · rename_i hskip
    simp [hskip]
  · rename_i text hskip
    simp [hskip]
  · rename_i c text hc hskip
    have hne : ¬ (c :: text = ']' :: rest) := fun h ↦ hc (List.cons.inj h).1
    rw [hskip]
    refine iff_of_false (fun h ↦ ?_) hne
    split_ifs at h
    · simp at h
    · split at h <;> simp at h

/-- Another item begins right here if it is the first, and behind a comma otherwise. -/
theorem nextItem_eq_true {first : Bool} {cs text : List Char}
    (h : nextItem first cs = .ok (true, text)) :
    ∃ c behind, skipBlanks cs = c :: behind ∧ c ≠ ']' ∧
      if first then text = c :: behind else c = ',' ∧ text = skipBlanks behind := by
  unfold nextItem at h
  split at h
  · simp at h
  · simp at h
  · rename_i c behind hc hskip
    refine ⟨c, behind, hskip, hc, ?_⟩
    split_ifs at h ⊢ with hfirst hcomma
    · exact (Prod.mk.inj (Except.ok.inj h)).2.symm
    · refine ⟨hcomma, ?_⟩
      split at h
      · simp at h
      · simp at h
      · exact (Prod.mk.inj (Except.ok.inj h)).2.symm

theorem closeItems_eq_ok_iff {cs rest : List Char} :
    closeItems cs = .ok rest ↔ skipBlanks cs = ']' :: rest := by
  unfold closeItems
  split
  · rename_i hskip
    simp [hskip]
  · rename_i text hskip
    simp [hskip, eq_comm]
  · rename_i text hskip
    rw [hskip]
    refine iff_of_false (fun h ↦ ?_) (by simp)
    split at h <;> simp at h
  · rename_i _ hclose _
    exact iff_of_false (by simp) (hclose rest)

theorem memberKey_eq_ok_iff {cs text : List Char} {name : String} :
    memberKey cs = .ok (name, text) ↔
      ∃ behind, cs = '"' :: behind ∧ Quoted.read behind = .ok (name, text) := by
  unfold memberKey
  split
  · simp
  · rename_i hquote
    refine iff_of_false (by simp) ?_
    rintro ⟨behind, rfl, _⟩
    exact hquote behind rfl

theorem nextMember_eq_none_iff {first : Bool} {cs rest : List Char} :
    nextMember first cs = .ok (none, rest) ↔ skipBlanks cs = '}' :: rest := by
  unfold nextMember
  split
  · rename_i hskip
    simp [hskip]
  · rename_i text hskip
    simp [hskip]
  · rename_i c text hc hskip
    have hne : ¬ (c :: text = '}' :: rest) := fun h ↦ hc (List.cons.inj h).1
    rw [hskip]
    refine iff_of_false (fun h ↦ ?_) hne
    split_ifs at h
    · obtain ⟨_, _, h⟩ := bind_eq_ok_iff.mp h
      simp at h
    · split at h
      · simp at h
      · simp at h
      · obtain ⟨_, _, h⟩ := bind_eq_ok_iff.mp h
        simp at h

theorem nextMember_eq_some {first : Bool} {cs text : List Char} {name : String}
    (h : nextMember first cs = .ok (some name, text)) :
    ∃ c behind, skipBlanks cs = c :: behind ∧ c ≠ '}' ∧
      if first then memberKey (c :: behind) = .ok (name, text)
      else c = ',' ∧ memberKey (skipBlanks behind) = .ok (name, text) := by
  unfold nextMember at h
  split at h
  · simp at h
  · simp at h
  · rename_i c behind hc hskip
    refine ⟨c, behind, hskip, hc, ?_⟩
    split_ifs at h ⊢ with hfirst hcomma
    · obtain ⟨found, hkey, hname⟩ := bind_mapFst_eq_ok_iff.mp h
      rwa [← Option.some.inj hname]
    · refine ⟨hcomma, ?_⟩
      split at h
      · simp at h
      · simp at h
      · obtain ⟨found, hkey, hname⟩ := bind_mapFst_eq_ok_iff.mp h
        rwa [← Option.some.inj hname]

/-- The first member is looked for behind blanks only. -/
theorem nextMember_true_iff {cs text : List Char} {name : String} :
    nextMember true cs = .ok (some name, text) ↔ memberKey (skipBlanks cs) = .ok (name, text) := by
  constructor
  · intro h
    obtain ⟨c, behind, hskip, _, hkey⟩ := nextMember_eq_some h
    rw [hskip]
    exact hkey
  · intro h
    obtain ⟨behind, hskip, hread⟩ := memberKey_eq_ok_iff.mp h
    rw [nextMember, hskip]
    exact bind_mapFst_eq_ok_iff.mpr ⟨name, hread, rfl⟩

theorem colon_eq_ok_iff {cs rest : List Char} :
    colon cs = .ok rest ↔ skipBlanks cs = ':' :: rest := by
  unfold colon
  split
  · rename_i hskip
    simp [hskip]
  · rename_i text hskip
    simp [hskip, eq_comm]
  · rename_i _ hcolon
    exact iff_of_false (by simp) (hcolon rest)

variable {α : Type}

/-! ### Lists -/

/-- The items from some place in a list to its closing bracket, and what is left behind that. -/
inductive ItemsRead (item : Reader α) : Bool → List Char → List α → List Char → Prop where
  | done {first : Bool} {cs rest : List Char} (hnext : nextItem first cs = .ok (false, rest)) :
    ItemsRead item first cs [] rest
  | more {first : Bool} {cs text behind rest : List Char} {a : α} {as : List α}
    (hnext : nextItem first cs = .ok (true, text)) (hitem : item text = .ok (a, behind))
    (hrest : ItemsRead item false behind as rest) : ItemsRead item first cs (a :: as) rest

section Items

variable {item : Reader α}

theorem pushItem_eq_ok_iff {before found : List α} {cs rest : List Char} :
    pushItem item before cs = .ok (found, rest) ↔
      ∃ a, item cs = .ok (a, rest) ∧ a :: before = found :=
  bind_mapFst_eq_ok_iff (f := (· :: before))

theorem foldItems_pushItem_iff {fuel cs rest : List Char} {first : Bool} {before found : List α} :
    foldItems (pushItem item) fuel first before cs = .ok (found, rest) ↔
      ∃ as, ItemsRead item first cs as rest ∧ as.length < fuel.length ∧
        found = as.reverse ++ before := by
  induction fuel generalizing first before cs with
  | nil => simp [foldItems]
  | cons c fuel ih =>
    rw [foldItems, bind_eq_ok_iff]
    constructor
    · rintro ⟨⟨present, text⟩, hnext, h⟩
      cases present with
      | false =>
        obtain ⟨rfl, rfl⟩ := Prod.mk.inj (Except.ok.inj h)
        exact ⟨[], .done hnext, by simp, by simp⟩
      | true =>
        obtain ⟨⟨state, behind⟩, hstep, h⟩ := bind_eq_ok_iff.mp h
        obtain ⟨a, ha, rfl⟩ := pushItem_eq_ok_iff.mp hstep
        obtain ⟨as, has, hfuel, rfl⟩ := ih.mp h
        exact ⟨a :: as, .more hnext ha has, by simpa using hfuel, by simp⟩
    · rintro ⟨as, has, hfuel, rfl⟩
      cases has with
      | done hnext => exact ⟨_, hnext, rfl⟩
      | more hnext ha hmore =>
        refine ⟨_, hnext, bind_eq_ok_iff.mpr ⟨_, pushItem_eq_ok_iff.mpr ⟨_, ha, rfl⟩, ?_⟩⟩
        exact ih.mpr ⟨_, hmore, by simpa using hfuel, by simp⟩

theorem items_eq_ok_iff {cs rest : List Char} {as : List α} :
    items item cs = .ok (as, rest) ↔ ItemsRead item true cs as rest ∧ as.length ≤ cs.length := by
  refine bind_mapFst_eq_ok_iff.trans ?_
  constructor
  · rintro ⟨found, hfold, rfl⟩
    obtain ⟨as, has, hfuel, rfl⟩ := foldItems_pushItem_iff.mp hfold
    exact ⟨by simpa using has, by simpa [Nat.lt_succ_iff] using hfuel⟩
  · rintro ⟨has, hfuel⟩
    refine ⟨as.reverse, foldItems_pushItem_iff.mpr ⟨as, has, ?_, by simp⟩, by simp⟩
    simpa [Nat.lt_succ_iff] using hfuel

end Items

/-! ### Objects -/

/-- The members from some place in an object to its closing brace, and what is left behind that. -/
inductive MembersRead (value : Reader α) :
    Bool → List Char → List (String × α) → List Char → Prop where
  | done {first : Bool} {cs rest : List Char} (hnext : nextMember first cs = .ok (none, rest)) :
    MembersRead value first cs [] rest
  | more {first : Bool} {cs text inside behind rest : List Char} {name : String} {a : α}
    {as : List (String × α)} (hnext : nextMember first cs = .ok (some name, text))
    (hcolon : colon text = .ok inside) (hvalue : value inside = .ok (a, behind))
    (hrest : MembersRead value false behind as rest) :
    MembersRead value first cs ((name, a) :: as) rest

section Members

variable {value : Reader α}

theorem pushMember_eq_ok_iff {before found : List (String × α)} {name : String}
    {cs rest : List Char} :
    pushMember value before name cs = .ok (found, rest) ↔
      ∃ inside a, colon cs = .ok inside ∧ value inside = .ok (a, rest) ∧
        (name, a) :: before = found := by
  refine bind_eq_ok_iff.trans (exists_congr fun inside ↦ ?_)
  rw [exists_and_left]
  exact and_congr_right fun _ ↦ bind_mapFst_eq_ok_iff (f := fun a ↦ (name, a) :: before)

theorem foldMembers_pushMember_iff {fuel cs rest : List Char} {first : Bool}
    {before found : List (String × α)} :
    foldMembers (pushMember value) fuel first before cs = .ok (found, rest) ↔
      ∃ as, MembersRead value first cs as rest ∧ as.length < fuel.length ∧
        found = as.reverse ++ before := by
  induction fuel generalizing first before cs with
  | nil => simp [foldMembers]
  | cons c fuel ih =>
    rw [foldMembers, bind_eq_ok_iff]
    constructor
    · rintro ⟨⟨name, text⟩, hnext, h⟩
      cases name with
      | none =>
        obtain ⟨rfl, rfl⟩ := Prod.mk.inj (Except.ok.inj h)
        exact ⟨[], .done hnext, by simp, by simp⟩
      | some name =>
        obtain ⟨⟨state, behind⟩, hstep, h⟩ := bind_eq_ok_iff.mp h
        obtain ⟨inside, a, hcolon, ha, rfl⟩ := pushMember_eq_ok_iff.mp hstep
        obtain ⟨as, has, hfuel, rfl⟩ := ih.mp h
        exact ⟨(name, a) :: as, .more hnext hcolon ha has, by simpa using hfuel, by simp⟩
    · rintro ⟨as, has, hfuel, rfl⟩
      cases has with
      | done hnext => exact ⟨_, hnext, rfl⟩
      | more hnext hcolon ha hmore =>
        refine ⟨_, hnext, bind_eq_ok_iff.mpr
          ⟨_, pushMember_eq_ok_iff.mpr ⟨_, _, hcolon, ha, rfl⟩, ?_⟩⟩
        exact ih.mpr ⟨_, hmore, by simpa using hfuel, by simp⟩

theorem members_eq_ok_iff {cs rest : List Char} {as : List (String × α)} :
    members value cs = .ok (as, rest) ↔
      MembersRead value true cs as rest ∧ as.length ≤ cs.length := by
  refine bind_mapFst_eq_ok_iff.trans ?_
  constructor
  · rintro ⟨found, hfold, rfl⟩
    obtain ⟨as, has, hfuel, rfl⟩ := foldMembers_pushMember_iff.mp hfold
    exact ⟨by simpa using has, by simpa [Nat.lt_succ_iff] using hfuel⟩
  · rintro ⟨has, hfuel⟩
    refine ⟨as.reverse, foldMembers_pushMember_iff.mpr ⟨as, has, ?_, by simp⟩, by simp⟩
    simpa [Nat.lt_succ_iff] using hfuel

end Members

end ChangeDdl.Json
