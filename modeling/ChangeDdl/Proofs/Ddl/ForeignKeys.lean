import ChangeDdl.Proofs.Ddl.ColumnLists

/-!
The two lists of a foreign key. The referring columns alone decide whether both specs are split, but
for these columns themselves that makes no difference: a spec without a comma is a single name. The
choice is seen on the referenced side only, and there only if the spec has a comma and that of the
referring columns has none: then the whole spec is one name (`foreignKeyClause_lists`).

A spec has one name more than it has commas (`ColumnSpec.splits_names`). So the lists are of one
length unless the referring columns are several and the specs differ in their number of commas.
-/

set_option autoImplicit false
set_option relaxedAutoImplicit false

namespace ChangeDdl

theorem length_pieces (separator : Char) (text : List Char) :
    (Text.pieces separator text).length = text.count separator + 1 := by
  fun_induction Text.pieces separator text with
  | case1 => rfl
  | case2 rest ih => simp [ih]
  | case3 c rest hc hpieces ih => simp [hpieces] at ih
  | case4 c rest hc piece more hpieces ih =>
    rw [hpieces] at ih
    simpa [List.count_cons_of_ne hc] using ih

theorem not_mem_of_mem_pieces {separator : Char} {text piece : List Char}
    (h : piece ∈ Text.pieces separator text) : separator ∉ piece := by
  fun_induction Text.pieces separator text generalizing piece with
  | case1 =>
    rw [List.mem_singleton.mp h]
    exact List.not_mem_nil
  | case2 rest ih =>
    rcases List.mem_cons.mp h with rfl | hrest
    · exact List.not_mem_nil
    · exact ih hrest
  | case3 c rest hc hpieces ih =>
    rw [List.mem_singleton.mp h]
    simpa using Ne.symm hc
  | case4 c rest hc first more hpieces ih =>
    rw [hpieces] at ih
    rcases List.mem_cons.mp h with rfl | hmore
    · exact List.not_mem_cons_of_ne_of_not_mem (Ne.symm hc) (ih List.mem_cons_self)
    · exact ih (List.mem_cons_of_mem _ hmore)

/-! ### The names of a spec -/

/-- The number of commas in a spec. -/
def ColumnSpec.commas (spec : String) : Nat := spec.toList.count ','

namespace ColumnSpec

/-- These names are what stands between the commas of the spec, even if it is empty. -/
structure Splits (spec : String) (names : List String) : Prop where
  length : names.length = commas spec + 1
  comma : ∀ name ∈ names, ',' ∉ name.toList
  joined : ",".intercalate names = spec

theorem splits_names (spec : String) : Splits spec (names spec) where
  length := by rw [names, Text.split, List.length_map, length_pieces, commas]
  comma := by
    rw [names, Text.split, List.forall_mem_map]
    intro piece hpiece
    rw [String.toList_ofList]
    exact not_mem_of_mem_pieces hpiece
  joined := by
    rw [← String.toList_inj, String.toList_intercalate]
    exact intercalate_names spec

/-- There is one way only to take a spec apart. -/
theorem splits_iff {spec : String} {texts : List String} :
    Splits spec texts ↔ texts = names spec := by
  refine ⟨fun h ↦ ?_, fun h ↦ h ▸ splits_names spec⟩
  have htexts : texts ≠ [] := by
    rintro rfl
    exact absurd h.length (by simp)
  have hspec : spec.toList = [','].intercalate (texts.map String.toList) := by
    rw [← h.joined, String.toList_intercalate]
    rfl
  exact (Text.split_eq_of_intercalate hspec htexts h.comma).symm

theorem commas_eq_zero_iff {spec : String} : commas spec = 0 ↔ ',' ∉ spec.toList :=
  List.count_eq_zero

theorem isComposite_iff {spec : String} : isComposite spec ↔ ',' ∈ spec.toList :=
  List.contains_iff_mem

theorem isComposite_eq_false_iff {spec : String} : isComposite spec = false ↔ ',' ∉ spec.toList :=
  Bool.eq_false_iff.trans isComposite_iff.not

end ColumnSpec

/-! ### The lists of a key -/

namespace ForeignKey

/-- The spec of the referenced columns has a comma and that of the referring columns has none. -/
def RefersWhole (key : ForeignKey) : Prop :=
  ',' ∉ key.columns.toList ∧ ',' ∈ key.referencedColumns.toList

instance (key : ForeignKey) : Decidable key.RefersWhole := inferInstanceAs (Decidable (_ ∧ _))

/-- The columns that refer. -/
def referringNames (key : ForeignKey) : List String := ColumnSpec.names key.columns

/-- The columns that are referred to, as the key is written. -/
def referencedNames (key : ForeignKey) : List String :=
  if key.RefersWhole then [key.referencedColumns] else ColumnSpec.names key.referencedColumns

end ForeignKey

namespace Dialect

variable (d : Dialect)

theorem listed_singleton (name : String) : d.listed [name] = d.quoted name := rfl

/-- The clause of a key with these lists for the referring and for the referenced columns. -/
def referenceClause (key : ForeignKey) (referring referenced : String) : String :=
  d.clause ("CONSTRAINT " ++ d.quoted key.name ++ " FOREIGN KEY " ++ bracketed referring ++
    " REFERENCES " ++ d.qualified key.referencedSchema key.referencedTable ++ " " ++
    bracketed referenced)

/-- A spec without a comma is quoted whole, split or not. -/
theorem splitSpec_of_not_mem {spec : String} (h : ',' ∉ spec.toList) :
    d.splitSpec spec = d.quoted spec := by
  have hsingle := ColumnSpec.isComposite_eq_false_iff.mpr h
  rw [splitSpec, ColumnSpec.names_of_not_isComposite hsingle, listed_singleton]

theorem foreignKeyClause_of_not_mem {key : ForeignKey} (h : ',' ∉ key.columns.toList) :
    d.foreignKeyClause key =
      d.referenceClause key (d.quoted key.columns) (d.quoted key.referencedColumns) := by
  have hsingle := ColumnSpec.isComposite_eq_false_iff.mpr h
  unfold foreignKeyClause
  simp only [hsingle, Bool.false_eq_true, if_false]
  rfl

theorem foreignKeyClause_eq_referenceClause (key : ForeignKey) :
    d.foreignKeyClause key = d.referenceClause key (d.splitSpec key.columns)
      (if key.RefersWhole then d.quoted key.referencedColumns
        else d.splitSpec key.referencedColumns) := by
  by_cases hreferring : ',' ∈ key.columns.toList
  · have hsplit : ¬ key.RefersWhole := fun h ↦ h.1 hreferring
    rw [d.foreignKeyClause_of_isComposite (ColumnSpec.isComposite_iff.mpr hreferring),
      if_neg hsplit]
    rfl
  · rw [d.foreignKeyClause_of_not_mem hreferring, d.splitSpec_of_not_mem hreferring]
    split_ifs with hwhole
    · rfl
    · have hreferenced : ',' ∉ key.referencedColumns.toList := fun h ↦ hwhole ⟨hreferring, h⟩
      rw [d.splitSpec_of_not_mem hreferenced]

theorem listed_referencedNames (key : ForeignKey) : d.listed key.referencedNames =
    if key.RefersWhole then d.quoted key.referencedColumns
    else d.splitSpec key.referencedColumns := by
  unfold ForeignKey.referencedNames
  split_ifs <;> rfl

end Dialect

theorem ForeignKey.length_names_eq_iff (key : ForeignKey) :
    key.referringNames.length = key.referencedNames.length ↔ ',' ∉ key.columns.toList ∨
      ColumnSpec.commas key.columns = ColumnSpec.commas key.referencedColumns := by
  have hreferring : key.referringNames.length = ColumnSpec.commas key.columns + 1 :=
    (ColumnSpec.splits_names key.columns).length
  have hreferenced := (ColumnSpec.splits_names key.referencedColumns).length
  rw [hreferring, referencedNames, ← ColumnSpec.commas_eq_zero_iff]
  split_ifs with hwhole
  · have hnone := ColumnSpec.commas_eq_zero_iff.mpr hwhole.1
    simp [hnone]
  · rw [RefersWhole, ← ColumnSpec.commas_eq_zero_iff, not_and,
      ← ColumnSpec.commas_eq_zero_iff] at hwhole
    rw [hreferenced]
    omega

/-- The clause of a foreign key is the one with both specs split, but that the spec of the
referenced columns stays whole if it has a comma and the other none. Splitting a spec quotes what
stands between its commas, and the spec can be taken apart in no other way. So the two lists of a
key have the same length if and only if the referring columns have no comma or both specs have
equally many. -/
theorem foreignKeyClause_lists (d : Dialect) (key : ForeignKey) :
    d.foreignKeyClause key = d.referenceClause key (d.splitSpec key.columns)
        (if key.RefersWhole then d.quoted key.referencedColumns
          else d.splitSpec key.referencedColumns) ∧
      d.foreignKeyClause key =
        d.referenceClause key (d.listed key.referringNames) (d.listed key.referencedNames) ∧
      (∀ spec, d.splitSpec spec = d.listSeparator.intercalate
          ((ColumnSpec.names spec).map d.quoted) ∧
        ∀ texts, ColumnSpec.Splits spec texts ↔ texts = ColumnSpec.names spec) ∧
      (key.referringNames.length = key.referencedNames.length ↔
        ',' ∉ key.columns.toList ∨
          ColumnSpec.commas key.columns = ColumnSpec.commas key.referencedColumns) := by
  refine ⟨d.foreignKeyClause_eq_referenceClause key, ?_, ?_, key.length_names_eq_iff⟩
  · rw [d.foreignKeyClause_eq_referenceClause key, d.listed_referencedNames]
    rfl
  · exact fun spec ↦ ⟨rfl, fun _ ↦ ColumnSpec.splits_iff⟩

end ChangeDdl
