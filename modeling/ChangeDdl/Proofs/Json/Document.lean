import ChangeDdl.Json.Document
import ChangeDdl.Proofs.Json.Items
import Mathlib.Data.List.Basic

/-!
What the readers of a JSON text take in. `Value.Opens` lists the ways in which a value can begin:
as a scalar, with a bracket or with a brace. `Scalar.Opens` does the same for scalars.
-/

set_option autoImplicit false
set_option relaxedAutoImplicit false

namespace ChangeDdl.Json

/-! ### Texts -/

/-- A text is read when the reader succeeds on it and leaves nothing but blanks. -/
theorem parseWith_eq_ok_iff {α : Type} {reader : Reader α} {text : String} {a : α} :
    parseWith reader text = .ok a ↔
      ∃ rest, reader text.toList = .ok (a, rest) ∧ skipBlanks rest = [] := by
  have hall : parseWith reader text = .ok a ↔ readAll reader text.toList = .ok a := by
    rw [parseWith]
    cases readAll reader text.toList <;> simp
  rw [hall, readAll, bind_eq_ok_iff]
  constructor
  · rintro ⟨⟨b, rest⟩, hread, h⟩
    dsimp only at h
    split at h
    · rename_i hend
      obtain rfl := Except.ok.inj h
      exact ⟨rest, hread, hend⟩
    · simp at h
  · rintro ⟨rest, hread, hend⟩
    exact ⟨(a, rest), hread, by simp only [hend]⟩

/-! ### Values -/

theorem ne_of_sign_or_digit {c d : Char} (hc : c = '-' ∨ c.isDigit = true) (hsign : d ≠ '-')
    (hdigit : d.isDigit = false) : c ≠ d := by
  rintro rfl
  rcases hc with hc | hc
  · exact hsign hc
  · simp [hdigit] at hc

/-- How a scalar begins, what it is and what it leaves of the text. -/
inductive Scalar.Opens : List Char → Scalar → List Char → Prop where
  | null {text rest : List Char} (hword : word ['u', 'l', 'l'] text = .ok rest) :
    Opens ('n' :: text) .null rest
  | yes {text rest : List Char} (hword : word ['r', 'u', 'e'] text = .ok rest) :
    Opens ('t' :: text) (.boolean true) rest
  | no {text rest : List Char} (hword : word ['a', 'l', 's', 'e'] text = .ok rest) :
    Opens ('f' :: text) (.boolean false) rest
  | text {text rest : List Char} {s : String} (hread : Quoted.read text = .ok (s, rest)) :
    Opens ('"' :: text) (.text s) rest
  | number {c : Char} {text rest : List Char} {n : Number} (hc : c = '-' ∨ c.isDigit = true)
    (hread : Numeral.read (c :: text) = .ok (n, rest)) : Opens (c :: text) (.number n) rest

theorem Scalar.read_eq_ok_iff {cs rest : List Char} {s : Scalar} :
    Scalar.read cs = .ok (s, rest) ↔ Opens cs s rest := by
  constructor
  · intro h
    unfold Scalar.read at h
    split at h
    · simp at h
    · obtain ⟨hword, rfl⟩ := bind_mk_eq_ok_iff.mp h
      exact .null hword
    · obtain ⟨hword, rfl⟩ := bind_mk_eq_ok_iff.mp h
      exact .yes hword
    · obtain ⟨hword, rfl⟩ := bind_mk_eq_ok_iff.mp h
      exact .no hword
    · obtain ⟨name, hread, rfl⟩ := bind_mapFst_eq_ok_iff.mp h
      exact .text hread
    · split_ifs at h with hc
      obtain ⟨n, hread, rfl⟩ := bind_mapFst_eq_ok_iff.mp h
      exact .number hc hread
  · intro h
    cases h with
    | null hword => exact bind_mk_eq_ok_iff.mpr ⟨hword, rfl⟩
    | yes hword => exact bind_mk_eq_ok_iff.mpr ⟨hword, rfl⟩
    | no hword => exact bind_mk_eq_ok_iff.mpr ⟨hword, rfl⟩
    | text hread => exact bind_mapFst_eq_ok_iff.mpr ⟨_, hread, rfl⟩
    | number hc hread =>
      rw [Scalar.read, if_pos hc]
      · exact bind_mapFst_eq_ok_iff.mpr ⟨_, hread, rfl⟩
      all_goals exact ne_of_sign_or_digit hc (by decide) (by decide)

/-- A bracket or a brace begins no scalar. -/
theorem Scalar.Opens.head_ne {c : Char} {cs rest : List Char} {s : Scalar}
    (h : Opens (c :: cs) s rest) : c ≠ '[' ∧ c ≠ '{' := by
  cases h with
  | number hc _ =>
    exact ⟨ne_of_sign_or_digit hc (by decide) (by decide),
      ne_of_sign_or_digit hc (by decide) (by decide)⟩
  | _ => exact ⟨by decide, by decide⟩

theorem Scalar.Opens.unique {cs rest behind : List Char} {s other : Scalar}
    (h : Opens cs s rest) (hother : Opens cs other behind) : s = other ∧ rest = behind := by
  rw [← read_eq_ok_iff] at h hother
  exact Prod.mk.inj (Except.ok.inj (h.symm.trans hother))

/-- What shows of a value at its first character. -/
inductive Found.Opens (cs : List Char) : Found → List Char → Prop where
  | scalar {s : Scalar} {rest : List Char} (hscalar : Scalar.Opens (skipBlanks cs) s rest) :
    Opens cs (.scalar s) rest
  | sequence {text : List Char} (hopen : skipBlanks cs = '[' :: text) :
    Opens cs .sequence ('[' :: text)
  | map {text : List Char} (hopen : skipBlanks cs = '{' :: text) : Opens cs .map ('{' :: text)

theorem Found.read_eq_ok_iff {cs rest : List Char} {found : Found} :
    Found.read cs = .ok (found, rest) ↔ Opens cs found rest := by
  constructor
  · intro h
    unfold Found.read at h
    split at h
    · rename_i text hopen
      obtain ⟨rfl, rfl⟩ := Prod.mk.inj (Except.ok.inj h)
      exact .sequence hopen
    · rename_i text hopen
      obtain ⟨rfl, rfl⟩ := Prod.mk.inj (Except.ok.inj h)
      exact .map hopen
    · obtain ⟨s, hscalar, rfl⟩ := bind_mapFst_eq_ok_iff.mp h
      exact .scalar (Scalar.read_eq_ok_iff.mp hscalar)
  · intro h
    cases h with
    | scalar hscalar =>
      unfold Found.read
      split
      case h_3 => exact bind_mapFst_eq_ok_iff.mpr ⟨_, Scalar.read_eq_ok_iff.mpr hscalar, rfl⟩
      all_goals
        rename_i hopen
        rw [hopen] at hscalar
        have hne := hscalar.head_ne
        simp at hne
    | sequence hopen =>
      rw [Found.read, hopen]
      rfl
    | map hopen =>
      rw [Found.read, hopen]
      rfl

namespace Value

/-- How a value begins, what it holds and what it leaves of the text. -/
inductive Opens (depth : Nat) (cs : List Char) : Value → List Char → Prop where
  | scalar {s : Scalar} {rest : List Char} (hscalar : Scalar.Opens (skipBlanks cs) s rest) :
    Opens depth cs (.scalar s) rest
  | array {inner : Nat} {text rest : List Char} {values : List Value} (hdepth : depth = inner + 1)
    (hopen : skipBlanks cs = '[' :: text) (hitems : ItemsRead (read inner) true text values rest)
    (hlength : values.length ≤ text.length) : Opens depth cs (.array values) rest
  | object {inner : Nat} {text rest : List Char} {found : Members} (hdepth : depth = inner + 1)
    (hopen : skipBlanks cs = '{' :: text) (hmembers : MembersRead (read inner) true text found rest)
    (hlength : found.length ≤ text.length) : Opens depth cs (.object found) rest

/-- A value is read by the way in which it begins. -/
theorem read_eq_ok_iff {depth : Nat} {cs rest : List Char} {v : Value} :
    read depth cs = .ok (v, rest) ↔ Opens depth cs v rest := by
  constructor
  · intro h
    unfold read at h
    split at h
    · rename_i inner text hopen
      obtain ⟨values, hitems, rfl⟩ := bind_mapFst_eq_ok_iff.mp h
      obtain ⟨hitems, hlength⟩ := items_eq_ok_iff.mp hitems
      exact .array rfl hopen hitems hlength
    · rename_i inner text hopen
      obtain ⟨found, hmembers, rfl⟩ := bind_mapFst_eq_ok_iff.mp h
      obtain ⟨hmembers, hlength⟩ := members_eq_ok_iff.mp hmembers
      exact .object rfl hopen hmembers hlength
    · simp at h
    · simp at h
    · obtain ⟨s, hscalar, rfl⟩ := bind_mapFst_eq_ok_iff.mp h
      exact .scalar (Scalar.read_eq_ok_iff.mp hscalar)
  · intro h
    cases h with
    | scalar hscalar =>
      -- The text begins with neither bracket, so that the last case of the reader applies.
      unfold read
      split
      case h_5 => exact bind_mapFst_eq_ok_iff.mpr ⟨_, Scalar.read_eq_ok_iff.mpr hscalar, rfl⟩
      all_goals
        rename_i hopen
        rw [hopen] at hscalar
        have hne := hscalar.head_ne
        simp at hne
    | array hdepth hopen hitems hlength =>
      subst hdepth
      unfold read
      rw [hopen]
      exact bind_mapFst_eq_ok_iff.mpr ⟨_, items_eq_ok_iff.mpr ⟨hitems, hlength⟩, rfl⟩
    | object hdepth hopen hmembers hlength =>
      subst hdepth
      unfold read
      rw [hopen]
      exact bind_mapFst_eq_ok_iff.mpr ⟨_, members_eq_ok_iff.mpr ⟨hmembers, hlength⟩, rfl⟩

/-- Blanks in front of a value do not matter. -/
theorem read_skipBlanks_iff {depth : Nat} {cs rest : List Char} {v : Value} :
    read depth (skipBlanks cs) = .ok (v, rest) ↔ read depth cs = .ok (v, rest) := by
  rw [read_eq_ok_iff, read_eq_ok_iff]
  constructor
  · intro h
    cases h with
    | scalar hscalar => exact .scalar (by rwa [skipBlanks_skipBlanks] at hscalar)
    | array hdepth hopen => exact .array hdepth (by rwa [skipBlanks_skipBlanks] at hopen) ‹_› ‹_›
    | object hdepth hopen => exact .object hdepth (by rwa [skipBlanks_skipBlanks] at hopen) ‹_› ‹_›
  · intro h
    cases h with
    | scalar hscalar => exact .scalar (by rwa [skipBlanks_skipBlanks])
    | array hdepth hopen => exact .array hdepth (by rwa [skipBlanks_skipBlanks]) ‹_› ‹_›
    | object hdepth hopen => exact .object hdepth (by rwa [skipBlanks_skipBlanks]) ‹_› ‹_›

/-- A value that begins as a scalar is that scalar. -/
theorem Opens.eq_scalar {depth : Nat} {cs rest behind : List Char} {v : Value} {s : Scalar}
    (h : Opens depth cs v rest) (hscalar : Scalar.Opens (skipBlanks cs) s behind) :
    v = .scalar s ∧ rest = behind := by
  cases h with
  | scalar hother =>
    obtain ⟨rfl, rfl⟩ := hother.unique hscalar
    exact ⟨rfl, rfl⟩
  | array _ hopen =>
    rw [hopen] at hscalar
    exact absurd rfl hscalar.head_ne.1
  | object _ hopen =>
    rw [hopen] at hscalar
    exact absurd rfl hscalar.head_ne.2

theorem Opens.eq_array {depth : Nat} {cs text rest : List Char} {v : Value}
    (h : Opens depth cs v rest) (hopen : skipBlanks cs = '[' :: text) :
    ∃ inner values, v = .array values ∧ ItemsRead (read inner) true text values rest ∧
      values.length ≤ text.length := by
  cases h with
  | scalar hscalar =>
    rw [hopen] at hscalar
    exact absurd rfl hscalar.head_ne.1
  | object _ hother => simp [hopen] at hother
  | array _ hother hitems hlength =>
    obtain rfl := (List.cons.inj (hopen.symm.trans hother)).2
    exact ⟨_, _, rfl, hitems, hlength⟩

theorem Opens.eq_object {depth : Nat} {cs text rest : List Char} {v : Value}
    (h : Opens depth cs v rest) (hopen : skipBlanks cs = '{' :: text) :
    ∃ inner found, v = .object found ∧ MembersRead (read inner) true text found rest ∧
      found.length ≤ text.length := by
  cases h with
  | scalar hscalar =>
    rw [hopen] at hscalar
    exact absurd rfl hscalar.head_ne.2
  | array _ hother => simp [hopen] at hother
  | object _ hother hmembers hlength =>
    obtain rfl := (List.cons.inj (hopen.symm.trans hother)).2
    exact ⟨_, _, rfl, hmembers, hlength⟩

end Value

end ChangeDdl.Json
