import ChangeDdl.Proofs.Json.Grammar.Numeral

/-!
Numerals that stand for integers: those without fraction and exponent, a zero with a sign excepted.
Such a numeral has one value (`Integral.unique`) and is the only way to write it, so it comes back
from the decimal printer digit by digit (`Integral.eq_integer`). Up to 64 bits these are the
numerals that are read as integers (`spells_integer_iff`); the digits of longer ones are not all
taken in, and any other numeral is a real.
-/

set_option autoImplicit false
set_option relaxedAutoImplicit false

namespace ChangeDdl.Json.Numeral

/-- A numeral without fraction and exponent and its value. A negative zero is none. -/
inductive Integral : List Char → Int → Prop where
  | natural {whole : List Char} (hwhole : Whole whole) :
    Integral whole (Nat.ofDigitChars 10 whole 0)
  | negative {whole : List Char} (hwhole : Whole whole) (hzero : whole ≠ ['0']) :
    Integral ('-' :: whole) (-(Nat.ofDigitChars 10 whole 0 : Int))

/-! ### Digits and values -/

/-- The value of a digit is its place after the zero. -/
theorem digitChar_of_isDigit {c : Char} (hc : c.isDigit = true) :
    c.toNat - '0'.toNat < 10 ∧ (c.toNat - '0'.toNat).digitChar = c := by
  obtain ⟨hlow, hhigh⟩ := Char.isDigit_iff_toNat.mp hc
  have hzero : '0'.toNat = 48 := rfl
  have hnine : '9'.toNat = 57 := rfl
  have hsmall : c.toNat - '0'.toNat < 10 := by omega
  refine ⟨hsmall, Char.toNat_inj.mp ?_⟩
  rw [Nat.toNat_digitChar_of_lt_ten hsmall]
  omega

theorem digit_pos {c : Char} (hc : c.isDigit = true) (hfirst : c ≠ '0') :
    0 < c.toNat - '0'.toNat := by
  rw [Nat.pos_iff_ne_zero]
  intro hnone
  have hchar := (digitChar_of_isDigit hc).2
  rw [hnone] at hchar
  exact hfirst hchar.symm

theorem toDigits_ofDigitChars_append {digits : List Char} {n : Nat} (hn : 0 < n)
    (hdigits : ∀ c ∈ digits, c.isDigit = true) :
    Nat.toDigits 10 (Nat.ofDigitChars 10 digits n) = Nat.toDigits 10 n ++ digits := by
  induction digits generalizing n with
  | nil => rw [Nat.ofDigitChars_nil, List.append_nil]
  | cons c digits ih =>
    obtain ⟨hc, hmore⟩ := List.forall_mem_cons.mp hdigits
    obtain ⟨hsmall, hchar⟩ := digitChar_of_isDigit hc
    have hstep : Nat.toDigits 10 (10 * n + (c.toNat - '0'.toNat)) = Nat.toDigits 10 n ++ [c] := by
      rw [← Nat.toDigits_append_toDigits (by decide) hn hsmall, Nat.toDigits_of_lt_base hsmall,
        hchar]
    rw [Nat.ofDigitChars_cons, ih (by omega) hmore, hstep, List.append_assoc,
      List.singleton_append]

theorem Whole.ofDigitChars_pos {whole : List Char} (h : Whole whole) (hzero : whole ≠ ['0']) :
    0 < Nat.ofDigitChars 10 whole 0 := by
  cases h with
  | zero => exact absurd rfl hzero
  | @digits c cs hfirst hdigits =>
    have hpos := digit_pos (hdigits.2 c List.mem_cons_self) hfirst
    have hle := le_ofDigitChars cs (10 * 0 + (c.toNat - '0'.toNat))
    rw [Nat.ofDigitChars_cons]
    omega

/-- Without leading zeros, the digits of a number are those that it was read from. -/
theorem Whole.toDigits_ofDigitChars {whole : List Char} (h : Whole whole) :
    Nat.toDigits 10 (Nat.ofDigitChars 10 whole 0) = whole := by
  cases h with
  | zero => rfl
  | @digits c cs hfirst hdigits =>
    obtain ⟨hc, hmore⟩ := List.forall_mem_cons.mp hdigits.2
    obtain ⟨hsmall, hchar⟩ := digitChar_of_isDigit hc
    rw [Nat.ofDigitChars_cons, Nat.mul_zero, Nat.zero_add,
      toDigits_ofDigitChars_append (digit_pos hc hfirst) hmore, Nat.toDigits_of_lt_base hsmall,
      hchar, List.singleton_append]

/-! ### Integers as they are written -/

variable {token : List Char} {n : Int}

theorem Integral.form (h : Integral token n) : Form token := by
  cases h with
  | natural hwhole =>
    have hform : Form ([] ++ (token ++ ([] ++ []))) := .mk (.inl rfl) hwhole .absent .absent
    simpa using hform
  | @negative whole hwhole _ =>
    have hform : Form (['-'] ++ (whole ++ ([] ++ []))) := .mk (.inr rfl) hwhole .absent .absent
    simpa using hform

theorem Whole.ne_minus_cons {whole : List Char} (h : Whole whole) (cs : List Char) :
    whole ≠ '-' :: cs := by
  rintro rfl
  cases h with
  | digits _ hdigits => exact absurd (hdigits.2 '-' List.mem_cons_self) (by decide)

theorem Integral.unique {m : Int} (h : Integral token n) (hother : Integral token m) : n = m := by
  cases h with
  | natural hwhole =>
    cases hother with
    | natural => rfl
    | negative => exact absurd rfl (hwhole.ne_minus_cons _)
  | negative =>
    cases hother with
    | natural hwhole => exact absurd rfl (hwhole.ne_minus_cons _)
    | negative => rfl

theorem Integral.eq_integer (h : Integral token n) : token = (Decimal.integer n).toList := by
  cases h with
  | natural hwhole =>
    have hsign : ¬ ((Nat.ofDigitChars 10 token 0 : Int) < 0) := by omega
    rw [Decimal.integer, if_neg hsign, Decimal.natural, Int.natAbs_natCast,
      hwhole.toDigits_ofDigitChars]
    simp
  | @negative whole hwhole hzero =>
    have hpos := hwhole.ofDigitChars_pos hzero
    have hsign : -(Nat.ofDigitChars 10 whole 0 : Int) < 0 := by omega
    rw [Decimal.integer, if_pos hsign, Decimal.natural, Int.natAbs_neg, Int.natAbs_natCast,
      hwhole.toDigits_ofDigitChars]
    simp

theorem whole_toDigits (n : Nat) : Whole (Nat.toDigits 10 n) := by
  have hdigits : ∀ c ∈ Nat.toDigits 10 n, c.isDigit = true :=
    fun c hc ↦ Nat.isDigit_of_mem_toDigits (by decide) (by decide) hc
  rcases Nat.eq_zero_or_pos n with rfl | hpos
  · exact .zero
  · have hhead := head_toDigits_ne_zero hpos
    have hnil : Nat.toDigits 10 n ≠ [] := Nat.toDigits_ne_nil
    obtain ⟨c, digits, hcons⟩ := List.exists_cons_of_ne_nil hnil
    rw [hcons] at hdigits hhead ⊢
    exact .digits (by simpa using hhead) ⟨by simp, hdigits⟩

theorem integral_integer (n : Int) : Integral (Decimal.integer n).toList n := by
  have hvalue : Nat.ofDigitChars 10 (Nat.toDigits 10 n.natAbs) 0 = n.natAbs :=
    Nat.ofDigitChars_ten_toDigits
  have hwhole := whole_toDigits n.natAbs
  by_cases hsign : n < 0
  · have hpos : 0 < n.natAbs := Int.natAbs_pos.mpr (Int.ne_of_lt hsign)
    have hzero : Nat.toDigits 10 n.natAbs ≠ ['0'] := by
      intro hzero
      have hhead := head_toDigits_ne_zero hpos
      rw [hzero] at hhead
      exact hhead rfl
    have hnumeral := Integral.negative hwhole hzero
    rw [hvalue, Int.ofNat_natAbs_of_nonpos (Int.le_of_lt hsign), Int.neg_neg] at hnumeral
    simpa [Decimal.integer, Decimal.natural, hsign] using hnumeral
  · have hnumeral := Integral.natural hwhole
    rw [hvalue, Int.natAbs_of_nonneg (Int.not_lt.mp hsign)] at hnumeral
    simpa [Decimal.integer, Decimal.natural, hsign] using hnumeral

/-- The numeral of an integer is what is written for it. -/
theorem integral_iff : Integral token n ↔ token = (Decimal.integer n).toList := by
  constructor
  · exact Integral.eq_integer
  · rintro rfl
    exact integral_integer n

/-! ### Integers as they are read -/

section Plain

variable {cs rest : List Char} {p q : Parts}

/-- All digits have been taken in if none is left. -/
theorem absorb_eq_nil {limit m n : Nat} {digits : List Char} (h : absorb limit m digits = (n, [])) :
    n = Nat.ofDigitChars 10 digits m := by
  induction digits generalizing m with
  | nil => rw [Nat.ofDigitChars_nil, (Prod.mk.inj h).1]
  | cons c digits ih =>
    have hnext : m * 10 + digitValue c = 10 * m + (c.toNat - '0'.toNat) := by
      rw [digitValue, Nat.mul_comm]
      rfl
    rw [absorb, hnext] at h
    split_ifs at h
    · rw [Nat.ofDigitChars_cons]
      exact ih h
    · simp at h

theorem significand_of_plain {whole : List Char} (hwhole : Whole whole)
    (hrest : startsWithDigit rest = false) (h : integerPart (whole ++ rest) = .ok (p, cs))
    (hplain : p.plain = true) : cs = rest ∧ p.significand = Nat.ofDigitChars 10 whole 0 := by
  cases hwhole with
  | zero =>
    rw [List.cons_append, List.nil_append, integerPart, if_neg (by simp [hrest])] at h
    obtain ⟨rfl, rfl⟩ := Prod.mk.inj (Except.ok.inj h)
    exact ⟨rfl, rfl⟩
  | @digits c digits hfirst hdigits =>
    have habsorb := absorb_row UInt64.size 0 (c :: digits) hrest
    have hleft := (suffix_absorb UInt64.size 0 (c :: digits)).subset
    generalize hparts : absorb UInt64.size 0 (c :: digits) = parts at habsorb hleft
    have hall : ∀ d ∈ parts.2, d.isDigit = true := fun d hd ↦ hdigits.2 d (hleft hd)
    rw [List.cons_append] at h habsorb
    rw [integerPart, if_pos (hdigits.2 c List.mem_cons_self), habsorb] at h
    · obtain ⟨rfl, rfl⟩ := Prod.mk.inj (Except.ok.inj h)
      have hnone : parts.2 = [] := by simpa [startsWithDigit_append hall hrest] using hplain
      have htaken : absorb UInt64.size 0 (c :: digits) = (parts.1, []) := by rw [hparts, ← hnone]
      exact ⟨skipDigits_append hall hrest, absorb_eq_nil htaken⟩
    · exact hfirst

/-- A number with a fraction is not plain. -/
theorem eq_of_plain_fraction (h : fractionPart p cs = .ok (q, rest)) (hplain : q.plain = true) :
    q = p ∧ rest = cs := by
  unfold fractionPart at h
  split at h
  · split_ifs at h
    obtain ⟨rfl, _⟩ := Prod.mk.inj (Except.ok.inj h)
    simp at hplain
  · obtain ⟨rfl, rfl⟩ := Prod.mk.inj (Except.ok.inj h)
    exact ⟨rfl, rfl⟩

theorem plain_exponentDigits {negative : Bool} (h : exponentDigits p negative cs = .ok (q, rest)) :
    q.plain = false := by
  unfold exponentDigits at h
  split at h
  · simp at h
  · dsimp only at h
    split_ifs at h <;> obtain ⟨rfl, _⟩ := Prod.mk.inj (Except.ok.inj h) <;> rfl

/-- A number with an exponent is not plain. -/
theorem eq_of_plain_exponent (h : exponentPart p cs = .ok (q, rest)) (hplain : q.plain = true) :
    q = p ∧ rest = cs := by
  unfold exponentPart at h
  split at h
  · obtain ⟨rfl, rfl⟩ := Prod.mk.inj (Except.ok.inj h)
    exact ⟨rfl, rfl⟩
  · split_ifs at h
    · have hdigits := plain_exponentDigits h
      rw [hplain] at hdigits
      exact nomatch hdigits
    · obtain ⟨rfl, rfl⟩ := Prod.mk.inj (Except.ok.inj h)
      exact ⟨rfl, rfl⟩

theorem plain_of_value {negative : Bool} (h : value? negative p = some (.integer n)) :
    p.plain = true ∧ integer? negative p.significand = some n := by
  unfold value? at h
  split at h
  · rename_i m hm
    obtain rfl := Number.integer.inj (Option.some.inj h)
    split_ifs at hm with hplain
    exact ⟨hplain, hm⟩
  · obtain ⟨x, _, hx⟩ := Option.map_eq_some_iff.mp h
    exact nomatch hx

/-- What is read as an integer is a whole part with nothing behind it. -/
theorem integer?_of_unsigned {negative : Bool} {whole : List Char} (hwhole : Whole whole)
    (hrest : startsWithDigit rest = false)
    (h : unsigned negative (whole ++ rest) = .ok (.integer n, [])) :
    rest = [] ∧ integer? negative (Nat.ofDigitChars 10 whole 0) = some n := by
  obtain ⟨⟨p, inside⟩, hinteger, h⟩ := bind_eq_ok_iff.mp h
  obtain ⟨⟨q, behind⟩, hfraction, h⟩ := bind_eq_ok_iff.mp h
  obtain ⟨⟨r, last⟩, hexponent, h⟩ := bind_eq_ok_iff.mp h
  obtain ⟨hvalue, rfl⟩ : value? negative r = some (.integer n) ∧ last = [] := by
    dsimp only at h
    split at h
    · rename_i m hm
      obtain ⟨rfl, rfl⟩ := Prod.mk.inj (Except.ok.inj h)
      exact ⟨hm, rfl⟩
    · simp at h
  obtain ⟨hplain, hinteger?⟩ := plain_of_value hvalue
  obtain ⟨rfl, rfl⟩ := eq_of_plain_exponent hexponent hplain
  obtain ⟨rfl, rfl⟩ := eq_of_plain_fraction hfraction hplain
  obtain ⟨rfl, hsignificand⟩ := significand_of_plain hwhole hrest hinteger hplain
  exact ⟨rfl, hsignificand ▸ hinteger?⟩

end Plain

theorem startsWithDigit_parts {fraction exponent : List Char} (hfraction : Fraction fraction)
    (hexponent : Exponent exponent) : startsWithDigit (fraction ++ exponent) = false := by
  cases hfraction with
  | absent =>
    cases hexponent with
    | absent => rfl
    | present hmark => rcases hmark with rfl | rfl <;> rfl
  | present => rfl

theorem integral_of_spells (h : Spells token (.integer n)) : Integral token n := by
  obtain ⟨hform, hread⟩ := h
  cases hform with
  | @mk sign whole fraction exponent hsign hwhole hfraction hexponent =>
    have hrest := startsWithDigit_parts hfraction hexponent
    rcases hsign with rfl | rfl
    · rw [List.nil_append, hwhole.read_append] at hread
      obtain ⟨hnil, hvalue⟩ := integer?_of_unsigned hwhole hrest hread
      obtain rfl := Option.some.inj hvalue
      rw [hnil, List.nil_append, List.append_nil]
      exact .natural hwhole
    · obtain ⟨hnil, hvalue⟩ := integer?_of_unsigned hwhole hrest hread
      rw [integer?, if_pos rfl] at hvalue
      split_ifs at hvalue with hpos
      obtain rfl := Option.some.inj hvalue
      rw [hnil, List.append_nil, List.singleton_append]
      refine .negative hwhole fun hzero ↦ ?_
      rw [hzero] at hpos
      exact absurd hpos.1 (by decide)

/-- Among the numerals, those for integers are read as integers, as far as 64 bits reach. -/
theorem spells_integer_iff (hn : FitsWord n) : Spells token (.integer n) ↔ Integral token n := by
  refine ⟨integral_of_spells, fun h ↦ ⟨h.form, ?_⟩⟩
  have hnil : Delimited [] := by simp [Delimited]
  have hread := read_integer hn hnil
  rwa [List.append_nil, ← h.eq_integer] at hread

end ChangeDdl.Json.Numeral
