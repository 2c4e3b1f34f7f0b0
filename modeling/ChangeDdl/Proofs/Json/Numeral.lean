import ChangeDdl.Json.Document
import ChangeDdl.Proofs.Fallible
import Mathlib.Data.List.Basic

/-!
Numerals. An integer that fits 64 bits is read as it was written (`read_integer`), as long as what
follows does not continue the numeral. A numeral that is read can be passed over (`skim_of_read`):
the digits that the reader drops are those that the skipper has yet to pass.
-/

set_option autoImplicit false
set_option relaxedAutoImplicit false

namespace ChangeDdl.Json.Numeral

/-! ### Reading what is written -/

/-- A text that does not continue a numeral in front of it. -/
def Delimited (rest : List Char) : Prop :=
  ∀ c ∈ rest.head?, c.isDigit = false ∧ c ≠ '.' ∧ c ≠ 'e' ∧ c ≠ 'E'

/-- An integer that 64 bits hold, with or without a sign. -/
def FitsWord (n : Int) : Prop := Int64.minValue.toInt ≤ n ∧ n < UInt64.size

theorem Delimited.startsWithDigit {rest : List Char} (h : Delimited rest) :
    startsWithDigit rest = false := by
  cases rest with
  | nil => rfl
  | cons c rest => exact (h c rfl).1

theorem le_ofDigitChars (digits : List Char) (n : Nat) : n ≤ Nat.ofDigitChars 10 digits n := by
  induction digits generalizing n with
  | nil => simp
  | cons c digits ih =>
    have hmore := ih (10 * n + (c.toNat - '0'.toNat))
    rw [Nat.ofDigitChars_cons]
    omega

/-- Digits are taken in as long as the number stays below the limit. -/
theorem absorb_append {limit n : Nat} {digits rest : List Char}
    (hdigits : ∀ c ∈ digits, c.isDigit = true) (hrest : Numeral.startsWithDigit rest = false)
    (hlimit : Nat.ofDigitChars 10 digits n < limit) :
    absorb limit n (digits ++ rest) = (Nat.ofDigitChars 10 digits n, rest) := by
  induction digits generalizing n with
  | nil =>
    cases rest with
    | nil => simp [absorb]
    | cons c rest =>
      have hc : c.isDigit = false := hrest
      simp [absorb, hc]
  | cons c digits ih =>
    rw [Nat.ofDigitChars_cons] at hlimit
    have hnext : n * 10 + digitValue c = 10 * n + (c.toNat - '0'.toNat) := by
      have hzero : '0'.toNat = 48 := rfl
      rw [digitValue, hzero]
      omega
    have hbelow := Nat.lt_of_le_of_lt (le_ofDigitChars digits _) hlimit
    rw [List.cons_append, absorb, hnext, hdigits c List.mem_cons_self, Nat.ofDigitChars_cons,
      if_pos (by simpa using hbelow)]
    exact ih (fun d hd ↦ hdigits d (List.mem_cons_of_mem _ hd)) hlimit

/-- The decimal digits of a positive number do not begin with a zero. -/
theorem head_toDigits_ne_zero {n : Nat} (hn : 0 < n) : (Nat.toDigits 10 n).head? ≠ some '0' := by
  induction n using Nat.strongRecOn with
  | ind n ih =>
    rw [Nat.toDigits_eq_if (by decide)]
    split_ifs with hsmall
    · have hdigit : n.digitChar ≠ '0' := by
        rw [ne_eq, Nat.digitChar_eq_zero]
        omega
      simpa using hdigit
    · have hhead := ih (n / 10) (by omega) (by omega)
      have hnil : Nat.toDigits 10 (n / 10) ≠ [] := Nat.toDigits_ne_nil
      rwa [List.head?_append_of_ne_nil _ hnil]

theorem integerPart_natural {n : Nat} {rest : List Char} (hn : n < UInt64.size)
    (hrest : Delimited rest) :
    integerPart (Nat.toDigits 10 n ++ rest) = .ok (⟨n, 0, true⟩, rest) := by
  have hdigits : ∀ c ∈ Nat.toDigits 10 n, c.isDigit = true :=
    fun c hc ↦ Nat.isDigit_of_mem_toDigits (by decide) (by decide) hc
  have hend := hrest.startsWithDigit
  by_cases hzero : n = 0
  · subst hzero
    simp [integerPart, hend]
  · have hnil : Nat.toDigits 10 n ≠ [] := Nat.toDigits_ne_nil
    obtain ⟨c, digits, hcons⟩ := List.exists_cons_of_ne_nil hnil
    have hc : c ≠ '0' := by
      have hhead := head_toDigits_ne_zero (Nat.pos_of_ne_zero hzero)
      simpa [hcons] using hhead
    have habsorb : absorb UInt64.size 0 (Nat.toDigits 10 n ++ rest) = (n, rest) := by
      have hvalue : Nat.ofDigitChars 10 (Nat.toDigits 10 n) 0 = n := Nat.ofDigitChars_ten_toDigits
      rw [absorb_append hdigits hend (by rwa [hvalue]), hvalue]
    have hcount : digitCount rest = 0 ∧ skipDigits rest = rest := by
      cases rest with
      | nil => exact ⟨rfl, rfl⟩
      | cons d rest =>
        have hd : d.isDigit = false := hend
        simp [digitCount, skipDigits, hd]
    rw [hcons] at habsorb hdigits ⊢
    rw [List.cons_append] at habsorb ⊢
    rw [integerPart]
    · rw [if_pos (hdigits c List.mem_cons_self), habsorb]
      simp [hcount, hend]
    · exact hc

theorem unsigned_natural {n : Nat} {negative : Bool} {value : Int} {rest : List Char}
    (hn : n < UInt64.size) (hvalue : integer? negative n = some value) (hrest : Delimited rest) :
    unsigned negative (Nat.toDigits 10 n ++ rest) = .ok (.integer value, rest) := by
  have hfraction : fractionPart ⟨n, 0, true⟩ rest = .ok (⟨n, 0, true⟩, rest) := by
    unfold fractionPart
    split
    · exact absurd rfl (hrest '.' rfl).2.1
    · rfl
  have hexponent : exponentPart ⟨n, 0, true⟩ rest = .ok (⟨n, 0, true⟩, rest) := by
    unfold exponentPart
    split
    · rfl
    · rename_i c rest
      have hc : ¬ (c = 'e' ∨ c = 'E') := not_or.mpr (hrest c rfl).2.2
      rw [if_neg hc]
  refine bind_eq_ok_iff.mpr ⟨_, integerPart_natural hn hrest, ?_⟩
  refine bind_eq_ok_iff.mpr ⟨_, hfraction, ?_⟩
  refine bind_eq_ok_iff.mpr ⟨_, hexponent, ?_⟩
  simp [value?, hvalue]

/-- An integer is read as it was written. -/
theorem read_integer {n : Int} {rest : List Char} (hn : FitsWord n) (hrest : Delimited rest) :
    read ((Decimal.integer n).toList ++ rest) = .ok (.integer n, rest) := by
  obtain ⟨hlow, hhigh⟩ := hn
  have hmin : Int64.minValue.toInt = -9223372036854775808 := rfl
  have hsize : UInt64.size = 18446744073709551616 := rfl
  have hchars : (Decimal.integer n).toList =
      (if n < 0 then ['-'] else []) ++ Nat.toDigits 10 n.natAbs := by
    unfold Decimal.integer Decimal.natural
    split_ifs <;> simp
  have hsmall : n.natAbs < UInt64.size := by omega
  rw [hchars]
  split_ifs with hsign
  · have hvalue : integer? true n.natAbs = some n := by
      have hword : Nat.pow 2 63 = 9223372036854775808 := rfl
      have hbound : 0 < n.natAbs ∧ n.natAbs ≤ Nat.pow 2 63 := by omega
      have habs : -(n.natAbs : Int) = n := by omega
      rw [integer?, if_pos rfl, if_pos hbound, habs]
    exact unsigned_natural hsmall hvalue hrest
  · have hvalue : integer? false n.natAbs = some n := by
      have habs : (n.natAbs : Int) = n := by omega
      simp [integer?, habs]
    have hnil : Nat.toDigits 10 n.natAbs ≠ [] := Nat.toDigits_ne_nil
    obtain ⟨c, digits, hcons⟩ := List.exists_cons_of_ne_nil hnil
    have hc : c ≠ '-' := by
      rintro rfl
      have hdigit : '-'.isDigit = true :=
        Nat.isDigit_of_mem_toDigits (by decide) (by decide) (hcons ▸ List.mem_cons_self)
      simp at hdigit
    have hread : read ([] ++ Nat.toDigits 10 n.natAbs ++ rest) =
        unsigned false (Nat.toDigits 10 n.natAbs ++ rest) := by
      rw [List.nil_append, hcons, List.cons_append, read]
      exact fun _ h ↦ hc (List.cons.inj h).1
    rw [hread]
    exact unsigned_natural hsmall hvalue hrest

/-! ### Passing over what is read -/

theorem length_skipDigits (cs : List Char) : (skipDigits cs).length ≤ cs.length :=
  (List.dropWhile_sublist _).length_le

theorem skipDigits_of_not_digit {cs : List Char} (h : startsWithDigit cs = false) :
    skipDigits cs = cs := by
  cases cs with
  | nil => rfl
  | cons c cs =>
    have hc : c.isDigit = false := h
    simp [skipDigits, hc]

/-- Digits that are taken in are digits that are passed over. -/
theorem skipDigits_absorb (limit n : Nat) (cs : List Char) :
    skipDigits (absorb limit n cs).2 = skipDigits cs := by
  induction cs generalizing n with
  | nil => rfl
  | cons c cs ih =>
    rw [absorb]
    split_ifs with hc
    · have hdigit : c.isDigit = true := (Bool.and_eq_true_iff.mp hc).1
      rw [ih]
      simp [skipDigits, hdigit]
    · rfl

theorem integerPart_eq_ok {cs rest : List Char} {p : Parts} (h : integerPart cs = .ok (p, rest)) :
    skimInteger cs = .ok rest ∧ rest.length < cs.length := by
  unfold integerPart at h
  split at h
  · simp at h
  · rename_i text
    split_ifs at h with hdigit
    obtain ⟨_, rfl⟩ := Prod.mk.inj (Except.ok.inj h)
    refine ⟨?_, by simp⟩
    rw [skimInteger, if_neg hdigit]
  · rename_i c text hzero
    split_ifs at h with hc
    have habsorb := skipDigits_absorb UInt64.size 0 (c :: text)
    have hskip : skipDigits (c :: text) = skipDigits text := by simp [skipDigits, hc]
    have hlength := length_skipDigits text
    generalize absorb UInt64.size 0 (c :: text) = taken at h habsorb
    obtain ⟨_, rfl⟩ := Prod.mk.inj (Except.ok.inj h)
    rw [habsorb]
    refine ⟨?_, by rw [hskip, List.length_cons]; omega⟩
    rw [skimInteger, skimDigits]
    · exact if_pos hc
    · exact fun _ heq ↦ hzero (List.cons.inj heq).1

theorem fractionPart_eq_ok {cs rest : List Char} {p q : Parts}
    (h : fractionPart p cs = .ok (q, rest)) :
    skimFraction cs = .ok rest ∧ rest.length ≤ cs.length := by
  unfold fractionPart at h
  split at h
  · rename_i text
    split_ifs at h with hdigit
    have habsorb := skipDigits_absorb UInt64.size p.significand text
    have hlength := length_skipDigits text
    generalize absorb UInt64.size p.significand text = taken at h habsorb
    obtain ⟨_, rfl⟩ := Prod.mk.inj (Except.ok.inj h)
    rw [habsorb]
    refine ⟨?_, by rw [List.length_cons]; omega⟩
    rw [skimFraction, skimDigits, if_pos hdigit]
  · rename_i hpoint
    obtain ⟨_, rfl⟩ := Prod.mk.inj (Except.ok.inj h)
    refine ⟨?_, Nat.le_refl _⟩
    rw [skimFraction]
    exact hpoint

theorem exponentDigits_eq_ok {cs rest : List Char} {p q : Parts} {negative : Bool}
    (h : exponentDigits p negative cs = .ok (q, rest)) :
    skimDigits cs = .ok rest ∧ rest.length ≤ cs.length := by
  unfold exponentDigits at h
  split at h
  · simp at h
  · rename_i c text
    by_cases hc : c.isDigit = true
    · have hrest : rest = skipDigits (c :: text) := by
        rw [if_pos hc] at h
        rw [← skipDigits_absorb (Nat.pow 2 31) 0 (c :: text)]
        generalize absorb (Nat.pow 2 31) 0 (c :: text) = taken at h ⊢
        dsimp only at h
        by_cases hmore : startsWithDigit taken.2 = true
        · rw [if_pos hmore] at h
          split_ifs at h
          exact (Prod.mk.inj (Except.ok.inj h)).2.symm
        · rw [if_neg hmore] at h
          rw [skipDigits_of_not_digit (by simpa using hmore)]
          exact (Prod.mk.inj (Except.ok.inj h)).2.symm
      rw [hrest, skimDigits]
      exact ⟨if_pos hc, length_skipDigits _⟩
    · rw [if_neg hc] at h
      simp at h

theorem exponentPart_eq_ok {cs rest : List Char} {p q : Parts}
    (h : exponentPart p cs = .ok (q, rest)) :
    skimExponent cs = .ok rest ∧ rest.length ≤ cs.length := by
  unfold exponentPart at h
  split at h
  · obtain ⟨_, rfl⟩ := Prod.mk.inj (Except.ok.inj h)
    exact ⟨rfl, Nat.le_refl _⟩
  · rename_i c text
    split_ifs at h with hc
    · have hsign : (exponentSign text).2.length ≤ text.length := by
        unfold exponentSign
        split <;> simp
      have hdigits : exponentDigits p (exponentSign text).1 (exponentSign text).2 =
          .ok (q, rest) := h
      obtain ⟨hskim, hlength⟩ := exponentDigits_eq_ok hdigits
      rw [skimExponent, if_pos hc]
      exact ⟨hskim, by rw [List.length_cons]; omega⟩
    · obtain ⟨_, rfl⟩ := Prod.mk.inj (Except.ok.inj h)
      rw [skimExponent, if_neg hc]
      exact ⟨rfl, Nat.le_refl _⟩

theorem unsigned_eq_ok {cs rest : List Char} {negative : Bool} {n : Number}
    (h : unsigned negative cs = .ok (n, rest)) :
    (skimInteger cs >>= fun rest ↦ skimFraction rest >>= skimExponent) = .ok rest ∧
      rest.length < cs.length := by
  obtain ⟨⟨p, behind⟩, hinteger, hp⟩ := bind_eq_ok_iff.mp h
  obtain ⟨⟨q, further⟩, hfraction, hq⟩ := bind_eq_ok_iff.mp hp
  obtain ⟨⟨r, last⟩, hexponent, hr⟩ := bind_eq_ok_iff.mp hq
  have hlast : last = rest := by
    dsimp only at hr
    split at hr
    · exact (Prod.mk.inj (Except.ok.inj hr)).2
    · simp at hr
  obtain ⟨hskimInteger, hlengthInteger⟩ := integerPart_eq_ok hinteger
  obtain ⟨hskimFraction, hlengthFraction⟩ := fractionPart_eq_ok hfraction
  obtain ⟨hskimExponent, hlengthExponent⟩ := exponentPart_eq_ok hexponent
  subst hlast
  refine ⟨bind_eq_ok_iff.mpr ⟨behind, hskimInteger, ?_⟩, by omega⟩
  exact bind_eq_ok_iff.mpr ⟨further, hskimFraction, hskimExponent⟩

/-- What is read as a number can be passed over, to the same place. -/
theorem skim_of_read {cs rest : List Char} {n : Number} (h : read cs = .ok (n, rest)) :
    skim cs = .ok rest ∧ rest.length < cs.length := by
  unfold read at h
  split at h
  · obtain ⟨hskim, hlength⟩ := unsigned_eq_ok h
    exact ⟨hskim, by rw [List.length_cons]; omega⟩
  · rename_i hsign
    obtain ⟨hskim, hlength⟩ := unsigned_eq_ok h
    have hhead : cs.head? ≠ some '-' := by
      cases cs with
      | nil => simp
      | cons c cs =>
        rintro heq
        exact hsign cs (by rw [Option.some.inj heq])
    refine ⟨?_, hlength⟩
    rw [skim, if_neg hhead]
    exact hskim

end ChangeDdl.Json.Numeral
