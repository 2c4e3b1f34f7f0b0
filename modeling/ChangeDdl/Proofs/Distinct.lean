import Mathlib.Data.List.Basic

/-!
Lists with their repeats dropped. Of equal members the first is kept, so a member behind an equal
one makes no difference (`eraseDups_append_cons_of_mem`).
-/

set_option autoImplicit false
set_option relaxedAutoImplicit false

namespace ChangeDdl

variable {α : Type} [DecidableEq α]

/-- Dropping repeats commutes with an injective map. -/
theorem eraseDups_map_of_injective {β : Type} [DecidableEq β] {f : α → β}
    (hf : Function.Injective f) (as : List α) : (as.map f).eraseDups = as.eraseDups.map f := by
  cases as with
  | nil => rfl
  | cons a rest =>
    have hfilter : (rest.map f).filter (fun b ↦ !b == f a) =
        (rest.filter fun b ↦ !b == a).map f := by
      rw [List.filter_map]
      congr 2
      funext b
      simp [hf.eq_iff]
    rw [List.map_cons, List.eraseDups_cons, List.eraseDups_cons, List.map_cons, hfilter,
      eraseDups_map_of_injective hf]
termination_by as.length
decreasing_by exact Nat.lt_succ_of_le (List.length_filter_le _ _)

theorem eraseDups_eraseDups (as : List α) :
    as.eraseDups.eraseDups = as.eraseDups := by
  cases as with
  | nil => rfl
  | cons a rest =>
    have hkept : (rest.filter fun b ↦ !b == a).eraseDups.filter (fun b ↦ !b == a) =
        (rest.filter fun b ↦ !b == a).eraseDups := by
      rw [List.filter_eq_self]
      intro b hb
      exact (List.mem_filter.mp (List.mem_eraseDups.mp hb)).2
    rw [List.eraseDups_cons, List.eraseDups_cons, hkept, eraseDups_eraseDups]
termination_by as.length
decreasing_by exact Nat.lt_succ_of_le (List.length_filter_le _ _)

theorem eraseDups_of_nodup {as : List α} (h : as.Nodup) :
    as.eraseDups = as := by
  induction as with
  | nil => rfl
  | cons a rest ih =>
    obtain ⟨ha, hrest⟩ := List.nodup_cons.mp h
    have hkept : rest.filter (fun b ↦ !b == a) = rest := by
      rw [List.filter_eq_self]
      intro b hb
      simpa using fun hba : b = a ↦ ha (hba ▸ hb)
    rw [List.eraseDups_cons, hkept, ih hrest]

theorem eraseDups_eq_nil_iff (as : List α) :
    as.eraseDups = [] ↔ as = [] := by
  cases as <;> simp [List.eraseDups_cons]

/-- A member that occurs further left is dropped. -/
theorem eraseDups_append_cons_of_mem {before after : List α} {a : α} (h : a ∈ before) :
    (before ++ a :: after).eraseDups = (before ++ after).eraseDups := by
  rw [List.eraseDups_append, List.eraseDups_append]
  simp [List.removeAll, h]

theorem eraseDups_concat_of_not_mem {as : List α} {a : α} (h : a ∉ as) :
    (as ++ [a]).eraseDups = as.eraseDups ++ [a] := by
  rw [List.eraseDups_append]
  simp [List.removeAll, h, List.eraseDups_cons]

end ChangeDdl
