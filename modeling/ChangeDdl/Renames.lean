/-!
Renaming columns by a table. A name has at most one entry; an entry keeps its place when it is
changed, and names without an entry stay as they are.
-/

set_option autoImplicit false
set_option relaxedAutoImplicit false

namespace ChangeDdl

structure Renames where
  entries : List (String × String)
  nodup_keys : (entries.map Prod.fst).Nodup

namespace Renames

/-- Changes the entry of a name, or appends one. -/
def put (entries : List (String × String)) (name target : String) : List (String × String) :=
  match entries with
  | [] => [(name, target)]
  | (n, t) :: rest =>
    if n = name then (name, target) :: rest else (n, t) :: put rest name target

theorem keys_put (entries : List (String × String)) (name target : String) :
    (put entries name target).map Prod.fst =
      if name ∈ entries.map Prod.fst then entries.map Prod.fst
      else entries.map Prod.fst ++ [name] := by
  induction entries with
  | nil => simp [put]
  | cons entry rest ih =>
    obtain ⟨n, t⟩ := entry
    by_cases h : n = name
    · simp [put, h]
    · have hne : ¬ name = n := fun heq => h heq.symm
      simp only [put, if_neg h, List.map_cons, ih, List.mem_cons, hne, false_or]
      split <;> simp

theorem put_of_not_mem {entries : List (String × String)} {name : String} (target : String)
    (h : name ∉ entries.map Prod.fst) : put entries name target = entries ++ [(name, target)] := by
  induction entries with
  | nil => rfl
  | cons entry rest ih =>
    obtain ⟨n, t⟩ := entry
    simp only [List.map_cons, List.mem_cons, not_or] at h
    have hne : ¬ n = name := fun heq => h.1 heq.symm
    simp [put, hne, ih h.2]

theorem nodup_put {entries : List (String × String)} (name target : String)
    (h : (entries.map Prod.fst).Nodup) : ((put entries name target).map Prod.fst).Nodup := by
  rw [keys_put]
  split
  · exact h
  · rename_i hmem
    rw [List.nodup_append]
    refine ⟨h, by simp, ?_⟩
    intro a ha b hb heq
    simp only [List.mem_singleton] at hb
    exact hmem (hb ▸ heq ▸ ha)

def empty : Renames := ⟨[], List.nodup_nil⟩

def insert (r : Renames) (name target : String) : Renames :=
  ⟨put r.entries name target, nodup_put name target r.nodup_keys⟩

/-- The table of a list of entries, a later one for the same name replacing an earlier one. -/
def ofList (entries : List (String × String)) : Renames :=
  entries.foldl (fun r entry => r.insert entry.1 entry.2) empty

def size (r : Renames) : Nat :=
  r.entries.length

def isEmpty (r : Renames) : Bool :=
  r.entries.isEmpty

/-- The name that a column gets. -/
def apply (r : Renames) (name : String) : String :=
  (r.entries.lookup name).getD name

theorem entries_foldl_insert (r : Renames) (entries : List (String × String))
    (h : ((r.entries ++ entries).map Prod.fst).Nodup) :
    (entries.foldl (fun r entry => r.insert entry.1 entry.2) r).entries = r.entries ++ entries := by
  induction entries generalizing r with
  | nil => simp
  | cons entry rest ih =>
    have hmem : entry.1 ∉ r.entries.map Prod.fst := by
      intro hmem
      rw [List.map_append, List.nodup_append] at h
      exact h.2.2 _ hmem entry.1 (by simp) rfl
    have hput : (r.insert entry.1 entry.2).entries = r.entries ++ [entry] :=
      put_of_not_mem entry.2 hmem
    rw [List.foldl_cons, ih, hput]
    · simp
    · rw [hput]
      simpa using h

theorem ofList_entries (r : Renames) : ofList r.entries = r := by
  obtain ⟨entries, h⟩ := r
  have : (ofList entries).entries = entries := by
    simpa [ofList, empty] using entries_foldl_insert empty entries (by simpa [empty] using h)
  cases hr : ofList entries
  simp_all

end Renames

end ChangeDdl
