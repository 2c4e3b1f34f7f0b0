import Mathlib.Data.List.Forall2

/-!
Chains of steps that can fail. A chain succeeds when each step does; a traversal succeeds with the
results of its steps, one for each item, and goes the same way over items that no step tells apart.
-/

set_option autoImplicit false
set_option relaxedAutoImplicit false

namespace ChangeDdl

variable {α β ε : Type}

theorem bind_eq_ok_iff {x : Except ε α} {f : α → Except ε β} {b : β} :
    (x >>= f) = .ok b ↔ ∃ a, x = .ok a ∧ f a = .ok b := by
  cases x with
  | error e => simp [bind, Except.bind]
  | ok a => simp [bind, Except.bind]

/-- The first part of a result is turned into another and the second is kept. -/
theorem bind_mapFst_eq_ok_iff {σ : Type} {x : Except ε (α × σ)} {f : α → β} {b : β} {s : σ} :
    (x >>= fun p ↦ .ok (f p.1, p.2)) = .ok (b, s) ↔ ∃ a, x = .ok (a, s) ∧ f a = b := by
  rw [bind_eq_ok_iff]
  constructor
  · rintro ⟨⟨a, t⟩, ha, h⟩
    obtain ⟨hb, rfl⟩ := Prod.mk.inj (Except.ok.inj h)
    exact ⟨a, ha, hb⟩
  · rintro ⟨a, ha, rfl⟩
    exact ⟨(a, s), ha, rfl⟩

/-- A result is put beside another. -/
theorem bind_mk_eq_ok_iff {σ : Type} {x : Except ε σ} {a b : β} {s : σ} :
    (x >>= fun t ↦ .ok (a, t)) = .ok (b, s) ↔ x = .ok s ∧ a = b := by
  rw [bind_eq_ok_iff]
  constructor
  · rintro ⟨t, ht, h⟩
    obtain ⟨hb, rfl⟩ := Prod.mk.inj (Except.ok.inj h)
    exact ⟨ht, hb⟩
  · rintro ⟨hs, rfl⟩
    exact ⟨s, hs, rfl⟩

theorem bind_eq_error_iff {x : Except ε α} {f : α → Except ε β} {e : ε} :
    (x >>= f) = .error e ↔ x = .error e ∨ ∃ a, x = .ok a ∧ f a = .error e := by
  cases x with
  | error what => simp [bind, Except.bind]
  | ok a => simp [bind, Except.bind]

theorem map_eq_ok_iff {x : Except ε α} {f : α → β} {b : β} :
    x.map f = .ok b ↔ ∃ a, x = .ok a ∧ f a = b := by
  cases x with
  | error e => simp [Except.map]
  | ok a => simp [Except.map]

theorem mapError_eq_ok_iff {δ : Type} {x : Except ε α} {f : ε → δ} {a : α} :
    x.mapError f = .ok a ↔ x = .ok a := by
  cases x with
  | error e => exact iff_of_false nofun nofun
  | ok b =>
    constructor
    · intro h
      rw [Except.ok.inj h]
    · intro h
      rw [Except.ok.inj h]
      rfl

theorem mapError_eq_error_iff {δ : Type} {x : Except ε α} {f : ε → δ} {e : δ} :
    x.mapError f = .error e ↔ ∃ what, x = .error what ∧ f what = e := by
  cases x with
  | error what => simp [Except.mapError]
  | ok a => simp [Except.mapError]

theorem mapM_eq_ok_iff {f : α → Except ε β} {as : List α} {bs : List β} :
    as.mapM f = .ok bs ↔ as.map f = bs.map .ok := by
  induction as generalizing bs with
  | nil => simp [pure, Except.pure, eq_comm]
  | cons a rest ih =>
    rw [List.mapM_cons, bind_eq_ok_iff]
    constructor
    · rintro ⟨b, hfirst, h⟩
      obtain ⟨more, hrest, hbs⟩ := bind_eq_ok_iff.mp h
      obtain rfl : b :: more = bs := Except.ok.inj hbs
      rw [List.map_cons, List.map_cons, hfirst, ih.mp hrest]
    · intro h
      cases bs with
      | nil => simp at h
      | cons b more =>
        obtain ⟨hfirst, hrest⟩ := List.cons.inj h
        exact ⟨b, hfirst, bind_eq_ok_iff.mpr ⟨more, ih.mpr hrest, rfl⟩⟩

/-- The results in front of an item, of the item and behind it. -/
theorem mapM_append_cons_eq_ok_iff {f : α → Except ε β} {before after : List α} {a : α}
    {results : List β} :
    (before ++ a :: after).mapM f = .ok results ↔ ∃ first b last, before.mapM f = .ok first ∧
      f a = .ok b ∧ after.mapM f = .ok last ∧ first ++ b :: last = results := by
  simp only [mapM_eq_ok_iff]
  rw [List.map_append, List.map_cons]
  constructor
  · intro h
    obtain ⟨first, more, rfl, hfirst, hmore⟩ := List.append_eq_map_iff.mp h
    obtain ⟨b, last, rfl, hb, hlast⟩ := List.map_eq_cons_iff.mp hmore
    exact ⟨first, b, last, hfirst.symm, hb.symm, hlast.symm, rfl⟩
  · rintro ⟨first, b, last, hfirst, hb, hlast, rfl⟩
    rw [hfirst, hb, hlast, List.map_append, List.map_cons]

/-- A traversal fails with the error of one of its steps. -/
theorem exists_of_mapM_eq_error {f : α → Except ε β} {as : List α} {e : ε}
    (h : as.mapM f = .error e) : ∃ a ∈ as, f a = .error e := by
  induction as with
  | nil => exact nomatch h
  | cons a rest ih =>
    rw [List.mapM_cons] at h
    obtain hfirst | ⟨b, _, h⟩ := bind_eq_error_iff.mp h
    · exact ⟨a, List.mem_cons_self, hfirst⟩
    · obtain hrest | ⟨_, _, h⟩ := bind_eq_error_iff.mp h
      · obtain ⟨failed, hmem, hfailed⟩ := ih hrest
        exact ⟨failed, List.mem_cons_of_mem a hmem, hfailed⟩
      · exact nomatch h

/-- A traversal with a step that fails does not succeed. -/
theorem exists_mapM_eq_error {f : α → Except ε β} {as : List α} {a : α} {e : ε} (ha : a ∈ as)
    (h : f a = .error e) : ∃ what, as.mapM f = .error what := by
  cases hrun : as.mapM f with
  | error what => exact ⟨what, rfl⟩
  | ok bs =>
    have hsteps := mapM_eq_ok_iff.mp hrun
    have hstep : f a ∈ bs.map .ok := hsteps ▸ List.mem_map_of_mem ha
    rw [h] at hstep
    simp at hstep

theorem mapM_congr {f : α → Except ε β} {as others : List α}
    (h : List.Forall₂ (fun a b ↦ f a = f b) as others) : as.mapM f = others.mapM f := by
  induction h with
  | nil => rfl
  | cons hfirst _ ih => rw [List.mapM_cons, List.mapM_cons, hfirst, ih]

theorem foldlM_congr {f : β → α → Except ε β} {as others : List α}
    (h : List.Forall₂ (fun a b ↦ ∀ state, f state a = f state b) as others) (state : β) :
    as.foldlM f state = others.foldlM f state := by
  induction h generalizing state with
  | nil => rfl
  | cons hfirst _ ih =>
    rw [List.foldlM_cons, List.foldlM_cons, hfirst]
    exact bind_congr fun next ↦ ih next

/-- In a run that succeeds every item makes a step that succeeds. -/
theorem exists_of_foldlM_eq_ok {f : β → α → Except ε β} {as : List α} {a : α}
    (ha : a ∈ as) {state last : β} (h : as.foldlM f state = .ok last) :
    ∃ before after, f before a = .ok after := by
  induction as generalizing state with
  | nil => simp at ha
  | cons b as ih =>
    rw [List.foldlM_cons] at h
    obtain ⟨next, hfirst, hrest⟩ := bind_eq_ok_iff.mp h
    rcases List.mem_cons.mp ha with rfl | ha
    · exact ⟨state, next, hfirst⟩
    · exact ih ha hrest

end ChangeDdl
