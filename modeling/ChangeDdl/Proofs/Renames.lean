import Mathlib.Data.List.Induction
import ChangeDdl.Proofs.Distinct
import ChangeDdl.Proofs.Json.Members
import ChangeDdl.Renames

/-!
What a table of new names holds. Its names are those of the list it is made from, each at the place
where it stands first, and each has the target that stands for it last.
-/

set_option autoImplicit false
set_option relaxedAutoImplicit false

namespace ChangeDdl.Renames

open Json.Members (lookup_cons_if lookup_of_not_mem)

theorem lookup_put (entries : List (String × String)) (name target key : String) :
    (put entries name target).lookup key =
      if key = name then some target else entries.lookup key := by
  induction entries with
  | nil => exact lookup_cons_if name key target []
  | cons entry rest ih =>
    obtain ⟨n, t⟩ := entry
    rw [put, lookup_cons_if]
    by_cases hsame : n = name
    · rw [if_pos hsame, lookup_cons_if, hsame]
      split_ifs <;> rfl
    · rw [if_neg hsame, lookup_cons_if, ih]
      by_cases hkey : key = n
      · rw [if_pos hkey, if_neg (hkey ▸ hsame), if_pos hkey]
      · rw [if_neg hkey, if_neg hkey]

theorem ofList_append (names : List (String × String)) (entry : String × String) :
    ofList (names ++ [entry]) = (ofList names).insert entry.1 entry.2 :=
  List.foldl_append

theorem keys_ofList (names : List (String × String)) :
    (ofList names).entries.map Prod.fst = (names.map Prod.fst).eraseDups := by
  induction names using List.reverseRecOn with
  | nil => rfl
  | append_singleton names entry ih =>
    rw [ofList_append, insert, keys_put, ih, List.map_append, List.map_singleton]
    by_cases hname : entry.1 ∈ names.map Prod.fst
    · rw [if_pos (List.mem_eraseDups.mpr hname), eraseDups_append_cons_of_mem hname,
        List.append_nil]
    · rw [if_neg (mt List.mem_eraseDups.mp hname), eraseDups_concat_of_not_mem hname]

theorem lookup_ofList (names : List (String × String)) (key : String) :
    (ofList names).entries.lookup key = names.reverse.lookup key := by
  induction names using List.reverseRecOn with
  | nil => rfl
  | append_singleton names entry ih =>
    obtain ⟨name, target⟩ := entry
    rw [ofList_append, insert, lookup_put, ih, List.reverse_append]
    exact (lookup_cons_if name key target names.reverse).symm

/-- Entries without repeated names are told apart by their names and targets. -/
theorem entries_ext {entries others : List (String × String)}
    (hnodup : (entries.map Prod.fst).Nodup) (hkeys : entries.map Prod.fst = others.map Prod.fst)
    (hlookup : ∀ key, entries.lookup key = others.lookup key) : entries = others := by
  induction entries generalizing others with
  | nil => exact (List.map_eq_nil_iff.mp hkeys.symm).symm
  | cons entry entries ih =>
    cases others with
    | nil => simp at hkeys
    | cons other others =>
      obtain ⟨name, target⟩ := entry
      obtain ⟨n, t⟩ := other
      obtain ⟨rfl, hmore⟩ : name = n ∧ entries.map Prod.fst = others.map Prod.fst := by
        simpa using hkeys
      obtain ⟨hfirst, hnodup⟩ := List.nodup_cons.mp hnodup
      have htarget := hlookup name
      rw [lookup_cons_if, lookup_cons_if, if_pos rfl, if_pos rfl] at htarget
      obtain rfl := Option.some.inj htarget
      refine congrArg _ (ih hnodup hmore fun key ↦ ?_)
      by_cases hkey : key = name
      · rw [hkey, lookup_of_not_mem hfirst, lookup_of_not_mem (hmore ▸ hfirst)]
      · have h := hlookup key
        rwa [lookup_cons_if, lookup_cons_if, if_neg hkey, if_neg hkey] at h

/-- A table is the table of a list exactly when it has the names of the list in order of their first
appearance, each with the target of its last appearance. -/
theorem eq_ofList_iff {r : Renames} {names : List (String × String)} :
    r = ofList names ↔ r.entries.map Prod.fst = (names.map Prod.fst).eraseDups ∧
      ∀ key, r.entries.lookup key = names.reverse.lookup key := by
  constructor
  · rintro rfl
    exact ⟨keys_ofList names, lookup_ofList names⟩
  · rintro ⟨hkeys, hlookup⟩
    have hentries : r.entries = (ofList names).entries := by
      refine entries_ext r.nodup_keys ?_ fun key ↦ ?_
      · rw [hkeys, keys_ofList]
      · rw [hlookup, lookup_ofList]
    rw [← ofList_entries r, hentries, ofList_entries]

end ChangeDdl.Renames
