import ChangeDdl.Json.Value
import Mathlib.Data.List.Forall2
import Mathlib.Data.List.Nodup
import Mathlib.Data.List.Perm.Basic

/-!
The canonical view of an object. Its keys ascend, so that no key occurs twice, and under each key
it has the last of the values that were written for it (`lookup_canonical`). When no key is
repeated, it is a permutation of the members.
-/

set_option autoImplicit false
set_option relaxedAutoImplicit false

namespace ChangeDdl.Json.Members

/-- The keys ascend. -/
def Ascending (members : Members) : Prop :=
  (members.map Prod.fst).Pairwise (· < ·)

theorem lookup_cons_if {α : Type} (key name : String) (value : α) (members : List (String × α)) :
    List.lookup name ((key, value) :: members) =
      if name = key then some value else members.lookup name := by
  by_cases hname : name = key
  · simp [hname]
  · rw [List.lookup_cons, beq_eq_false_iff_ne.mpr hname, if_neg hname]

theorem lookup_of_not_mem {α : Type} {key : String} {members : List (String × α)}
    (h : key ∉ members.map Prod.fst) : members.lookup key = none := by
  rw [List.lookup_eq_none_iff]
  intro m hm
  exact bne_iff_ne.mpr fun heq ↦ h (heq ▸ List.mem_map_of_mem hm)

theorem lookup_of_mem {α : Type} {members : List (String × α)}
    (hnodup : (members.map Prod.fst).Nodup) {m : String × α} (hm : m ∈ members) :
    members.lookup m.1 = some m.2 := by
  induction members with
  | nil => simp at hm
  | cons first members ih =>
    obtain ⟨k, v⟩ := first
    obtain ⟨hfirst, hnodup⟩ := List.nodup_cons.mp hnodup
    rw [lookup_cons_if]
    rcases List.mem_cons.mp hm with rfl | hrest
    · rw [if_pos rfl]
    · have hkey : m.1 ∈ members.map Prod.fst := List.mem_map_of_mem hrest
      have hne : m.1 ≠ k := fun heq ↦ hfirst (heq ▸ hkey)
      rw [if_neg hne, ih hnodup hrest]

/-- The order of members with distinct keys does not matter. -/
theorem lookup_perm {α : Type} {members others : List (String × α)} (h : members.Perm others)
    (hnodup : (members.map Prod.fst).Nodup) (key : String) :
    members.lookup key = others.lookup key := by
  by_cases hkey : key ∈ members.map Prod.fst
  · obtain ⟨m, hm, rfl⟩ := List.mem_map.mp hkey
    rw [lookup_of_mem hnodup hm,
      lookup_of_mem ((h.map Prod.fst).nodup_iff.mp hnodup) (h.mem_iff.mp hm)]
  · rw [lookup_of_not_mem hkey, lookup_of_not_mem (mt (h.map Prod.fst).mem_iff.mpr hkey)]

/-- An entry without another of its key behind it is found first from behind. -/
theorem lookup_reverse_of_last {α : Type} {before after : List (String × α)} {key : String}
    {value : α} (h : key ∉ after.map Prod.fst) :
    (before ++ (key, value) :: after).reverse.lookup key = some value := by
  have hafter : after.reverse.lookup key = none := by
    refine lookup_of_not_mem ?_
    rwa [List.map_reverse, List.mem_reverse]
  rw [List.reverse_append, List.reverse_cons, List.append_assoc, List.lookup_append, hafter,
    Option.none_or, List.singleton_append, lookup_cons_if, if_pos rfl]

theorem lookup_filter (keep : String → Bool) (name : String) (members : Members) :
    (members.filter fun m ↦ keep m.1).lookup name =
      if keep name then members.lookup name else none := by
  induction members with
  | nil => simp
  | cons m members ih =>
    obtain ⟨k, v⟩ := m
    rw [List.filter_cons, lookup_cons_if]
    by_cases hname : name = k
    · subst hname
      by_cases hkeep : keep name = true
      · simp only [hkeep, if_true, lookup_cons_if]
      · simp only [hkeep, ih, if_false, Bool.false_eq_true]
    · rw [if_neg hname, ← ih]
      split_ifs
      · rw [lookup_cons_if, if_neg hname]
      · rfl

theorem lookup_filter_ne (key name : String) (members : Members) :
    (members.filter fun m ↦ m.1 ≠ key).lookup name =
      if name = key then none else members.lookup name := by
  have h := lookup_filter (fun k ↦ decide (k ≠ key)) name members
  by_cases hname : name = key <;> simpa [hname] using h

theorem lookup_eq_head_filter (key : String) (members : Members) :
    members.lookup key = ((members.filter fun m ↦ m.1 = key).head?).map Prod.snd := by
  induction members with
  | nil => rfl
  | cons m members ih =>
    obtain ⟨k, v⟩ := m
    by_cases hk : key = k
    · subst hk
      simp
    · rw [lookup_cons_if, if_neg hk, ih, List.filter_cons_of_neg (by simpa using Ne.symm hk)]

theorem count_keys (key : String) (members : Members) :
    (members.map Prod.fst).count key = (members.filter fun m ↦ m.1 = key).length := by
  have hfilter : (members.filter fun m ↦ m.1 = key).map Prod.fst =
      (members.map Prod.fst).filter (· == key) := by
    rw [List.filter_map]
    exact congrArg _ (List.filter_congr fun m _ ↦ Bool.eq_iff_iff.mpr (by simp))
  rw [List.count_eq_length_filter, ← hfilter, List.length_map]

theorem length_filter_le_one {members : Members} (h : (members.map Prod.fst).Nodup)
    (key : String) : (members.filter fun m ↦ m.1 = key).length ≤ 1 := by
  rw [← count_keys]
  exact List.nodup_iff_count_le_one.mp h key

/-- The last member of a key that occurs once is the first. -/
theorem last?_eq_lookup {key : String} {members : Members}
    (h : (members.filter fun m ↦ m.1 = key).length ≤ 1) :
    last? key members = members.lookup key := by
  rw [last?, lookup_eq_head_filter, lookup_eq_head_filter, List.filter_reverse]
  generalize members.filter (fun m ↦ m.1 = key) = own at h ⊢
  match own with
  | [] => rfl
  | [m] => rfl
  | _ :: _ :: _ => simp at h

theorem last?_append (key : String) (members others : Members) :
    last? key (members ++ others) = (last? key others).or (last? key members) := by
  rw [last?, List.reverse_append, List.lookup_append]
  rfl

theorem last?_cons (key : String) (m : String × Value) (members : Members) :
    last? key (m :: members) = (last? key members).or (if key = m.1 then some m.2 else none) := by
  rw [← List.singleton_append, last?_append]
  exact congrArg _ (lookup_cons_if m.1 key m.2 [])

/-- A key that some member has, has a last value. -/
theorem exists_last?_eq_some {key : String} {members : Members}
    (h : key ∈ members.map Prod.fst) : ∃ v, last? key members = some v := by
  obtain ⟨m, hm, rfl⟩ := List.mem_map.mp h
  rw [← Option.isSome_iff_exists, last?, List.lookup_isSome_iff]
  exact ⟨m, List.mem_reverse.mpr hm, beq_self_eq_true m.1⟩

theorem lookup_insert (key name : String) (value : Value) (members : Members) :
    (members.insert key value).lookup name =
      if name = key then some value else members.lookup name := by
  induction members with
  | nil => exact lookup_cons_if key name value []
  | cons m members ih =>
    obtain ⟨k, v⟩ := m
    by_cases hsame : key = k
    · subst hsame
      rw [insert, if_pos rfl, lookup_cons_if, lookup_cons_if]
      split_ifs <;> rfl
    · by_cases hless : key < k
      · rw [insert, if_neg hsame, if_pos hless, lookup_cons_if]
      · rw [insert, if_neg hsame, if_neg hless, lookup_cons_if, lookup_cons_if, ih]
        by_cases hname : name = k
        · have hne : ¬ name = key := fun h ↦ hsame (h.symm.trans hname)
          rw [if_pos hname, if_neg hne, if_pos hname]
        · rw [if_neg hname, if_neg hname]

theorem lookup_canonical (key : String) (members : Members) :
    (canonical members).lookup key = last? key members := by
  have hfold : ∀ (members kept : Members),
      (members.foldl (fun kept m ↦ insert m.1 m.2 kept) kept).lookup key =
        (last? key members).or (kept.lookup key) := by
    intro members
    induction members with
    | nil => simp [last?]
    | cons m members ih =>
      intro kept
      rw [List.foldl_cons, ih, lookup_insert, last?_cons, Option.or_assoc]
      by_cases hkey : key = m.1 <;> simp [hkey]
  have h := hfold members []
  rwa [List.lookup_nil, Option.or_none] at h

theorem mem_keys_canonical_iff (key : String) (members : Members) :
    key ∈ (canonical members).map Prod.fst ↔ key ∈ members.map Prod.fst := by
  have hsome : ∀ others : Members, key ∈ others.map Prod.fst ↔ (others.lookup key).isSome := by
    intro others
    rw [List.lookup_isSome_iff, List.mem_map]
    exact exists_congr fun m ↦ and_congr_right fun _ ↦ by rw [beq_iff_eq, eq_comm]
  rw [hsome, lookup_canonical, last?, ← hsome, List.map_reverse, List.mem_reverse]

theorem mem_keys_insert {key name : String} {value : Value} {members : Members}
    (h : name ∈ (members.insert key value).map Prod.fst) :
    name = key ∨ name ∈ members.map Prod.fst := by
  induction members with
  | nil => simpa [insert] using h
  | cons m members ih =>
    obtain ⟨k, v⟩ := m
    rw [insert] at h
    split_ifs at h with hsame hless
    · rcases List.mem_cons.mp h with h | h
      · exact Or.inl h
      · exact Or.inr (List.mem_cons_of_mem _ h)
    · exact List.mem_cons.mp h
    · rcases List.mem_cons.mp h with h | h
      · exact Or.inr (h ▸ List.mem_cons_self)
      · exact (ih h).imp_right (List.mem_cons_of_mem _)

theorem ascending_insert {key : String} {value : Value} {members : Members}
    (h : Ascending members) : Ascending (members.insert key value) := by
  induction members with
  | nil => simp [Ascending, insert]
  | cons m members ih =>
    obtain ⟨k, v⟩ := m
    obtain ⟨hfirst, hrest⟩ := List.pairwise_cons.mp h
    rw [insert]
    split_ifs with hsame hless
    · subst hsame
      exact h
    · refine List.pairwise_cons.mpr ⟨fun name hname ↦ ?_, h⟩
      rcases List.mem_cons.mp hname with rfl | hname
      · exact hless
      · exact String.lt_trans hless (hfirst name hname)
    · refine List.pairwise_cons.mpr ⟨fun name hname ↦ ?_, ih hrest⟩
      rcases mem_keys_insert hname with rfl | hname
      · by_contra hle
        exact hsame (String.le_antisymm (String.not_lt.mp hle) (String.not_lt.mp hless))
      · exact hfirst name hname

theorem ascending_canonical (members : Members) : Ascending (canonical members) := by
  have hfold : ∀ (members kept : Members), Ascending kept →
      Ascending (members.foldl (fun kept m ↦ insert m.1 m.2 kept) kept) := by
    intro members
    induction members with
    | nil => exact fun kept hkept ↦ hkept
    | cons m members ih => exact fun kept hkept ↦ ih _ (ascending_insert hkept)
  exact hfold members [] List.Pairwise.nil

theorem nodup_keys_canonical (members : Members) : ((canonical members).map Prod.fst).Nodup :=
  (ascending_canonical members).imp String.ne_of_lt

theorem insert_perm {key : String} {value : Value} {members : Members}
    (h : key ∉ members.map Prod.fst) :
    (members.insert key value).Perm ((key, value) :: members) := by
  induction members with
  | nil => exact List.Perm.refl _
  | cons m members ih =>
    obtain ⟨k, v⟩ := m
    obtain ⟨hne, hrest⟩ := not_or.mp (List.mem_cons.not.mp h)
    rw [insert, if_neg hne]
    split_ifs
    · exact List.Perm.refl _
    · exact ((ih hrest).cons (k, v)).trans (List.Perm.swap _ _ _)

/-- Without repeated keys nothing is dropped. -/
theorem canonical_perm {members : Members} (h : (members.map Prod.fst).Nodup) :
    (canonical members).Perm members := by
  have hfold : ∀ (members kept : Members), ((members ++ kept).map Prod.fst).Nodup →
      (members.foldl (fun kept m ↦ insert m.1 m.2 kept) kept).Perm
        (members ++ kept) := by
    intro members
    induction members with
    | nil => exact fun kept _ ↦ List.Perm.refl _
    | cons m members ih =>
      intro kept hnodup
      obtain ⟨k, v⟩ := m
      have hfresh : k ∉ kept.map Prod.fst := by
        rw [List.cons_append, List.map_cons, List.nodup_cons, List.map_append] at hnodup
        exact fun hmem ↦ hnodup.1 (List.mem_append_right _ hmem)
      have hinsert : (insert k v kept).Perm ((k, v) :: kept) := insert_perm hfresh
      have hmiddle : (members ++ insert k v kept).Perm ((k, v) :: members ++ kept) :=
        (hinsert.append_left members).trans List.perm_middle
      exact (ih _ ((hmiddle.map Prod.fst).nodup_iff.mpr hnodup)).trans hmiddle
  have hperm := hfold members [] (by simpa using h)
  rwa [List.append_nil] at hperm

/-! ### Equal views -/

/-- The first key of members in ascending order is less than any other that has a value. -/
theorem lt_of_lookup {k key : String} {v value : Value} {members : Members}
    (h : Ascending ((k, v) :: members)) (hne : key ≠ k)
    (hkey : List.lookup key ((k, v) :: members) = some value) : k < key := by
  rw [lookup_cons_if, if_neg hne] at hkey
  by_contra hle
  have hmem : key ∉ members.map Prod.fst := fun hmem ↦ hle ((List.pairwise_cons.mp h).1 key hmem)
  rw [lookup_of_not_mem hmem] at hkey
  simp at hkey

/-- Members in ascending order are told apart by the values of their keys. -/
theorem eq_of_lookup {members others : Members} (hmembers : Ascending members)
    (hothers : Ascending others) (h : ∀ key, members.lookup key = others.lookup key) :
    members = others := by
  induction members generalizing others with
  | nil =>
    cases others with
    | nil => rfl
    | cons n others =>
      have hn := h n.1
      rw [List.lookup_nil, lookup_cons_if, if_pos rfl] at hn
      simp at hn
  | cons m members ih =>
    obtain ⟨k, v⟩ := m
    have hself : List.lookup k ((k, v) :: members) = some v := by rw [lookup_cons_if, if_pos rfl]
    cases others with
    | nil =>
      rw [h k] at hself
      simp at hself
    | cons n others =>
      obtain ⟨l, w⟩ := n
      have hother : List.lookup l ((l, w) :: others) = some w := by rw [lookup_cons_if, if_pos rfl]
      have hkey : k = l := by
        by_contra hne
        have hless := lt_of_lookup hmembers (Ne.symm hne) ((h l).trans hother)
        exact String.lt_asymm hless (lt_of_lookup hothers hne ((h k).symm.trans hself))
      subst hkey
      obtain rfl := Option.some.inj (hself.symm.trans ((h k).trans hother))
      obtain ⟨hfirst, hmembers⟩ := List.pairwise_cons.mp hmembers
      obtain ⟨hlast, hothers⟩ := List.pairwise_cons.mp hothers
      refine congrArg _ (ih hmembers hothers fun key ↦ ?_)
      by_cases hkey : key = k
      · subst hkey
        rw [lookup_of_not_mem fun hmem ↦ String.lt_irrefl key (hfirst key hmem),
          lookup_of_not_mem fun hmem ↦ String.lt_irrefl key (hlast key hmem)]
      · have hlookup := h key
        rwa [lookup_cons_if, if_neg hkey, lookup_cons_if, if_neg hkey] at hlookup

/-- The canonical view is known from the last value of every key. -/
theorem canonical_congr {members others : Members}
    (h : ∀ key, last? key members = last? key others) : canonical members = canonical others := by
  refine eq_of_lookup (ascending_canonical members) (ascending_canonical others) fun key ↦ ?_
  rw [lookup_canonical, lookup_canonical, h]

/-- Some keys are left out as well before as after the canonical view is taken. -/
theorem canonical_filter (keep : String → Bool) (members : Members) :
    canonical (members.filter fun m ↦ keep m.1) =
      (canonical members).filter fun m ↦ keep m.1 := by
  have hascending : Ascending ((canonical members).filter fun m ↦ keep m.1) :=
    List.Pairwise.sublist (List.filter_sublist.map Prod.fst) (ascending_canonical members)
  refine eq_of_lookup (ascending_canonical _) hascending fun key ↦ ?_
  rw [lookup_canonical, last?, ← List.filter_reverse, lookup_filter, lookup_filter,
    lookup_canonical, last?]

section Related

variable {R : String × Value → String × Value → Prop} {members others : Members}

theorem insert_forall₂ (hkeys : ∀ m n, R m n → m.1 = n.1) {key : String} {v w : Value}
    (hvalue : R (key, v) (key, w)) (h : List.Forall₂ R members others) :
    List.Forall₂ R (members.insert key v) (others.insert key w) := by
  induction h with
  | nil => exact .cons hvalue .nil
  | @cons m n members others hfirst hmore ih =>
    obtain ⟨k, a⟩ := m
    obtain ⟨l, b⟩ := n
    obtain rfl : k = l := hkeys _ _ hfirst
    rw [insert, insert]
    split_ifs
    · exact .cons hvalue hmore
    · exact .cons hvalue (.cons hfirst hmore)
    · exact .cons hfirst ih

/-- Related members have related canonical views. -/
theorem canonical_forall₂ (hkeys : ∀ m n, R m n → m.1 = n.1)
    (h : List.Forall₂ R members others) :
    List.Forall₂ R (canonical members) (canonical others) := by
  have hfold : ∀ kept more, List.Forall₂ R kept more →
      List.Forall₂ R (members.foldl (fun kept m ↦ insert m.1 m.2 kept) kept)
        (others.foldl (fun kept m ↦ insert m.1 m.2 kept) more) := by
    induction h with
    | nil => exact fun _ _ hkept ↦ hkept
    | @cons m n members others hfirst _ ih =>
      obtain ⟨k, a⟩ := m
      obtain ⟨l, b⟩ := n
      obtain rfl : k = l := hkeys _ _ hfirst
      exact fun kept more hkept ↦ ih _ _ (insert_forall₂ hkeys hfirst hkept)
  exact hfold [] [] .nil

end Related

end ChangeDdl.Json.Members
