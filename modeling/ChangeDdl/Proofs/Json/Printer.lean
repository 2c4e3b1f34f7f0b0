import ChangeDdl.Json.Printer
import ChangeDdl.Proofs.Json.Document
import ChangeDdl.Proofs.Json.Numeral
import ChangeDdl.Proofs.Json.Quoted

/-!
Printing a value and reading it back (`Value.read_write`). The value must not nest deeper than the
reader goes, and its numbers must be integers of 64 bits: `Value.Fits`.
-/

set_option autoImplicit false
set_option relaxedAutoImplicit false

namespace ChangeDdl.Json

open Numeral

/-! ### Scalars -/

/-- A scalar whose text stands for it exactly. -/
def Scalar.Exact : Scalar → Prop
  | .number (.integer n) => FitsWord n
  | .number (.real _) => False
  | _ => True

/-- A text that begins with neither a blank nor a closing bracket. -/
def Starts (text : List Char) : Prop :=
  ∃ c rest, text = c :: rest ∧ isBlank c = false ∧ c ≠ ']'

theorem Starts.append {text : List Char} (h : Starts text) (rest : List Char) :
    Starts (text ++ rest) := by
  obtain ⟨c, more, rfl, hc⟩ := h
  exact ⟨c, more ++ rest, rfl, hc⟩

theorem Starts.skipBlanks {text : List Char} (h : Starts text) :
    Json.skipBlanks text = text := by
  obtain ⟨c, more, rfl, hc, _⟩ := h
  exact skipBlanks_cons_of_not_blank hc

theorem starts_of_sign_or_digit {c : Char} (hc : c = '-' ∨ c.isDigit = true) (rest : List Char) :
    Starts (c :: rest) := by
  have hother : ∀ d : Char, d ≠ '-' → d.isDigit = false → c ≠ d :=
    fun d hsign hdigit ↦ ne_of_sign_or_digit hc hsign hdigit
  refine ⟨c, rest, rfl, ?_, hother ']' (by decide) (by decide)⟩
  simp only [isBlank, Bool.or_eq_false_iff, decide_eq_false_iff_not]
  exact ⟨⟨⟨hother ' ' (by decide) (by decide), hother '\n' (by decide) (by decide)⟩,
    hother '\t' (by decide) (by decide)⟩, hother '\r' (by decide) (by decide)⟩

/-- An integer begins with its sign or with a digit. -/
theorem toList_integer (n : Int) :
    ∃ c rest, (Decimal.integer n).toList = c :: rest ∧ (c = '-' ∨ c.isDigit = true) := by
  have hnil : Nat.toDigits 10 n.natAbs ≠ [] := Nat.toDigits_ne_nil
  obtain ⟨c, digits, hcons⟩ := List.exists_cons_of_ne_nil hnil
  have hdigit : c.isDigit = true :=
    Nat.isDigit_of_mem_toDigits (by decide) (by decide) (hcons ▸ List.mem_cons_self)
  unfold Decimal.integer Decimal.natural
  split_ifs
  · exact ⟨'-', c :: digits, by simp [hcons], Or.inl rfl⟩
  · exact ⟨c, digits, by simp [hcons], Or.inr hdigit⟩

namespace Scalar

theorem starts_write {s : Scalar} (hs : s.Exact) : Starts s.write := by
  cases s with
  | null => exact ⟨'n', _, rfl, by decide, by decide⟩
  | boolean b => cases b <;> exact ⟨_, _, rfl, by decide, by decide⟩
  | text s => exact ⟨'"', _, rfl, by decide, by decide⟩
  | number n =>
    cases n with
    | real x => exact hs.elim
    | integer n =>
      obtain ⟨c, rest, hcons, hc⟩ := toList_integer n
      have hstarts : Starts (Decimal.integer n).toList :=
        hcons ▸ starts_of_sign_or_digit hc rest
      exact hstarts

theorem read_write {s : Scalar} {rest : List Char} (hs : s.Exact) (hrest : Delimited rest) :
    read (s.write ++ rest) = .ok (s, rest) := by
  cases s with
  | null => rfl
  | boolean b => cases b <;> rfl
  | text s =>
    have hchars : Scalar.write (.text s) ++ rest =
        '"' :: (s.toList.flatMap Quoted.writeChar ++ '"' :: rest) := by
      simp [Scalar.write, Quoted.write]
    rw [hchars]
    exact bind_eq_ok_iff.mpr ⟨_, Quoted.read_write s rest, rfl⟩
  | number n =>
    cases n with
    | real x => exact hs.elim
    | integer n =>
      obtain ⟨c, more, hcons, hc⟩ := toList_integer n
      have hread := read_integer hs hrest
      have hchars : Scalar.write (.number (.integer n)) ++ rest = c :: (more ++ rest) := by
        rw [← List.cons_append, ← hcons]
        rfl
      rw [hcons, List.cons_append] at hread
      rw [hchars]
      exact read_eq_ok_iff.mpr (.number hc hread)

end Scalar

/-! ### Separators -/

theorem nextItem_first {text : List Char} (h : Starts text) :
    nextItem true text = .ok (true, text) := by
  have hskip := h.skipBlanks
  obtain ⟨c, rest, rfl, _, hc⟩ := h
  rw [nextItem, hskip]
  simp

theorem nextItem_comma {text : List Char} (h : Starts text) :
    nextItem false (',' :: text) = .ok (true, text) := by
  have hskip := h.skipBlanks
  obtain ⟨c, rest, rfl, _, hc⟩ := h
  have hcomma : skipBlanks (',' :: c :: rest) = ',' :: c :: rest :=
    skipBlanks_cons_of_not_blank (by decide)
  rw [nextItem, hcomma]
  simp [hskip, hc]

theorem nextMember_first (name : String) (rest : List Char) :
    nextMember true (Quoted.write name ++ rest) = .ok (some name, rest) := by
  have hchars : Quoted.write name ++ rest =
      '"' :: (name.toList.flatMap Quoted.writeChar ++ '"' :: rest) := by
    simp [Quoted.write]
  have hskip : skipBlanks (Quoted.write name ++ rest) = Quoted.write name ++ rest := by
    rw [hchars]
    exact skipBlanks_cons_of_not_blank (by decide)
  rw [nextMember, hskip, hchars]
  exact bind_eq_ok_iff.mpr ⟨_, Quoted.read_write name rest, rfl⟩

theorem nextMember_comma (name : String) (rest : List Char) :
    nextMember false (',' :: (Quoted.write name ++ rest)) = .ok (some name, rest) := by
  have hchars : Quoted.write name ++ rest =
      '"' :: (name.toList.flatMap Quoted.writeChar ++ '"' :: rest) := by
    simp [Quoted.write]
  have hcomma : skipBlanks (',' :: (Quoted.write name ++ rest)) =
      ',' :: (Quoted.write name ++ rest) := skipBlanks_cons_of_not_blank (by decide)
  have hskip : skipBlanks (Quoted.write name ++ rest) = Quoted.write name ++ rest := by
    rw [hchars]
    exact skipBlanks_cons_of_not_blank (by decide)
  rw [nextMember, hcomma]
  simp only [hchars]
  exact bind_eq_ok_iff.mpr ⟨_, Quoted.read_write name rest, rfl⟩

/-! ### Lists and objects -/

namespace Value

/-- The value nests at most this deep, and its scalars have texts of their own. -/
inductive Fits : Nat → Value → Prop where
  | scalar {depth : Nat} {s : Scalar} (hs : s.Exact) : Fits depth (.scalar s)
  | array {depth : Nat} {values : List Value} (hvalues : ∀ v ∈ values, Fits depth v) :
    Fits (depth + 1) (.array values)
  | object {depth : Nat} {members : Members} (hmembers : ∀ m ∈ members, Fits depth m.2) :
    Fits (depth + 1) (.object members)

theorem starts_write {depth : Nat} {v : Value} (hv : Fits depth v) : Starts v.write := by
  cases hv with
  | scalar hs => exact Scalar.starts_write hs
  | array => exact ⟨'[', _, rfl, by decide, by decide⟩
  | object => exact ⟨'{', _, rfl, by decide, by decide⟩

/-- The value is read back in front of anything that does not continue a numeral. -/
def ReadsBack (depth : Nat) (v : Value) : Prop :=
  ∀ rest, Delimited rest → read depth (v.write ++ rest) = .ok (v, rest)

section Contents

variable {depth : Nat} {rest : List Char}

theorem delimited_writeMoreItems (values : List Value) :
    Delimited (writeMoreItems values ++ ']' :: rest) := by
  cases values <;> simp [Delimited, writeMoreItems]

theorem delimited_writeMoreMembers (members : Members) :
    Delimited (writeMoreMembers members ++ '}' :: rest) := by
  rcases members with _ | ⟨⟨name, v⟩, members⟩ <;> simp [Delimited, writeMoreMembers]

theorem itemsRead_writeMoreItems {values : List Value} (hfits : ∀ v ∈ values, Fits depth v)
    (hread : ∀ v ∈ values, ReadsBack depth v) :
    ItemsRead (read depth) false (writeMoreItems values ++ ']' :: rest) values rest := by
  induction values with
  | nil => exact .done rfl
  | cons v values ih =>
    have hmore := ih (fun w hw ↦ hfits w (List.mem_cons_of_mem _ hw))
      (fun w hw ↦ hread w (List.mem_cons_of_mem _ hw))
    have hstarts := starts_write (hfits v List.mem_cons_self)
    rw [writeMoreItems, List.cons_append, List.append_assoc]
    exact .more (nextItem_comma (hstarts.append _))
      (hread v List.mem_cons_self _ (delimited_writeMoreItems values)) hmore

theorem itemsRead_writeItems {values : List Value} (hfits : ∀ v ∈ values, Fits depth v)
    (hread : ∀ v ∈ values, ReadsBack depth v) :
    ItemsRead (read depth) true (writeItems values ++ ']' :: rest) values rest := by
  cases values with
  | nil => exact .done rfl
  | cons v values =>
    have hstarts := starts_write (hfits v List.mem_cons_self)
    rw [writeItems, List.append_assoc]
    exact .more (nextItem_first (hstarts.append _))
      (hread v List.mem_cons_self _ (delimited_writeMoreItems values))
      (itemsRead_writeMoreItems (fun w hw ↦ hfits w (List.mem_cons_of_mem _ hw))
        (fun w hw ↦ hread w (List.mem_cons_of_mem _ hw)))

theorem membersRead_writeMoreMembers {members : Members}
    (hread : ∀ m ∈ members, ReadsBack depth m.2) :
    MembersRead (read depth) false (writeMoreMembers members ++ '}' :: rest) members rest := by
  induction members with
  | nil => exact .done rfl
  | cons m members ih =>
    obtain ⟨name, v⟩ := m
    have hmore := ih fun w hw ↦ hread w (List.mem_cons_of_mem _ hw)
    rw [writeMoreMembers, List.cons_append, List.append_assoc, List.cons_append, List.append_assoc]
    exact .more (nextMember_comma name _) rfl
      (hread (name, v) List.mem_cons_self _ (delimited_writeMoreMembers members)) hmore

theorem membersRead_writeMembers {members : Members}
    (hread : ∀ m ∈ members, ReadsBack depth m.2) :
    MembersRead (read depth) true (writeMembers members ++ '}' :: rest) members rest := by
  cases members with
  | nil => exact .done rfl
  | cons m members =>
    obtain ⟨name, v⟩ := m
    rw [writeMembers, List.append_assoc, List.cons_append, List.append_assoc]
    exact .more (nextMember_first name _) rfl
      (hread (name, v) List.mem_cons_self _ (delimited_writeMoreMembers members))
      (membersRead_writeMoreMembers fun w hw ↦ hread w (List.mem_cons_of_mem _ hw))

end Contents

/-- Every item and every member takes a character at least. -/
theorem length_le_length_writeItems {depth : Nat} {values : List Value}
    (hfits : ∀ v ∈ values, Fits depth v) : values.length ≤ (writeItems values).length := by
  have hmore : ∀ values : List Value, values.length ≤ (writeMoreItems values).length := by
    intro values
    induction values with
    | nil => simp
    | cons v values ih =>
      simp only [writeMoreItems, List.length_cons, List.length_append]
      omega
  cases values with
  | nil => simp
  | cons v values =>
    obtain ⟨c, text, htext, _⟩ := starts_write (hfits v List.mem_cons_self)
    have hrest := hmore values
    simp only [writeItems, htext, List.length_cons, List.length_append]
    omega

theorem length_le_length_writeMembers (members : Members) :
    members.length ≤ (writeMembers members).length := by
  have hmore : ∀ members : Members, members.length ≤ (writeMoreMembers members).length := by
    intro members
    induction members with
    | nil => simp
    | cons m members ih =>
      obtain ⟨name, v⟩ := m
      simp only [writeMoreMembers, List.length_cons, List.length_append]
      omega
  rcases members with _ | ⟨⟨name, v⟩, members⟩
  · simp
  · have hrest := hmore members
    simp only [writeMembers, List.length_cons, List.length_append]
    omega

/-- A value is read back as it was written. -/
theorem read_write {depth : Nat} {v : Value} (hv : Fits depth v) : ReadsBack depth v := by
  induction hv with
  | scalar hs =>
    intro rest hrest
    have hstarts := (Scalar.starts_write hs).append rest
    refine read_eq_ok_iff.mpr (.scalar ?_)
    rw [write, hstarts.skipBlanks, ← Scalar.read_eq_ok_iff]
    exact Scalar.read_write hs hrest
  | @array depth values hvalues ih =>
    intro rest _
    have hopen : skipBlanks ((array values).write ++ rest) =
        '[' :: (writeItems values ++ ']' :: rest) := by
      rw [write, List.cons_append, List.append_assoc]
      exact skipBlanks_cons_of_not_blank (by decide)
    have hlength := length_le_length_writeItems hvalues
    refine read_eq_ok_iff.mpr (.array rfl hopen (itemsRead_writeItems hvalues ih) ?_)
    rw [List.length_append]
    omega
  | @object depth members hmembers ih =>
    intro rest _
    have hopen : skipBlanks ((object members).write ++ rest) =
        '{' :: (writeMembers members ++ '}' :: rest) := by
      rw [write, List.cons_append, List.append_assoc]
      exact skipBlanks_cons_of_not_blank (by decide)
    have hlength := length_le_length_writeMembers members
    refine read_eq_ok_iff.mpr (.object rfl hopen (membersRead_writeMembers ih) ?_)
    rw [List.length_append]
    omega

/-- A printed value is parsed to what it was. -/
theorem parse_print {v : Value} (hv : Fits depthLimit v) : parse v.print = .ok v := by
  have hread : read depthLimit v.write = .ok (v, []) := by
    simpa using read_write hv [] (by simp [Delimited])
  rw [parse, parseWith_eq_ok_iff, print, String.toList_ofList]
  exact ⟨[], hread, rfl⟩

end Value

end ChangeDdl.Json
