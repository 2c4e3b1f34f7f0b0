import ChangeDdl.Proofs.Json.Numeral
import Mathlib.Data.List.TakeWhile

/-!
The grammar of numerals: a sign, a whole part without leading zeros, and then a fraction and an
exponent, either of which may be absent. Whether a numeral is read as a number, and as which one,
depends on nothing but the numeral (`unsigned_append`), as long as what follows does not continue
it. Hence the reader takes a numeral off the text and nothing else (`exists_spells_of_read`).
-/

set_option autoImplicit false
set_option relaxedAutoImplicit false

namespace ChangeDdl.Json.Numeral

/-- Digits, of which there is one at least. -/
def Digits (cs : List Char) : Prop :=
  cs ≠ [] ∧ ∀ c ∈ cs, c.isDigit = true

/-- A zero stands alone. -/
inductive Whole : List Char → Prop where
  | zero : Whole ['0']
  | digits {c : Char} {cs : List Char} (hfirst : c ≠ '0') (hdigits : Digits (c :: cs)) :
    Whole (c :: cs)

inductive Fraction : List Char → Prop where
  | absent : Fraction []
  | present {cs : List Char} (hdigits : Digits cs) : Fraction ('.' :: cs)

inductive Exponent : List Char → Prop where
  | absent : Exponent []
  | present {mark : Char} {sign cs : List Char} (hmark : mark = 'e' ∨ mark = 'E')
    (hsign : sign = [] ∨ sign = ['+'] ∨ sign = ['-']) (hdigits : Digits cs) :
    Exponent (mark :: (sign ++ cs))

inductive Form : List Char → Prop where
  | mk {sign whole fraction exponent : List Char} (hsign : sign = [] ∨ sign = ['-'])
    (hwhole : Whole whole) (hfraction : Fraction fraction) (hexponent : Exponent exponent) :
    Form (sign ++ (whole ++ (fraction ++ exponent)))

/-- A numeral and the number that it stands for. A numeral out of range stands for none. -/
def Spells (numeral : List Char) (n : Number) : Prop :=
  Form numeral ∧ read numeral = .ok (n, [])

/-! ### Rows of digits -/

section Rows

variable {digits rest : List Char}

theorem skipDigits_append (hdigits : ∀ c ∈ digits, c.isDigit = true)
    (hrest : startsWithDigit rest = false) : skipDigits (digits ++ rest) = rest := by
  rw [skipDigits, List.dropWhile_append_of_pos hdigits]
  exact skipDigits_of_not_digit hrest

theorem digitCount_append (hdigits : ∀ c ∈ digits, c.isDigit = true)
    (hrest : startsWithDigit rest = false) : digitCount (digits ++ rest) = digits.length := by
  have hnone : rest.takeWhile Char.isDigit = [] := by
    cases rest with
    | nil => rfl
    | cons c rest =>
      have hc : c.isDigit = false := hrest
      simp [hc]
  rw [digitCount, List.takeWhile_append_of_pos hdigits, hnone, List.append_nil]

theorem startsWithDigit_append (hdigits : ∀ c ∈ digits, c.isDigit = true)
    (hrest : startsWithDigit rest = false) :
    startsWithDigit (digits ++ rest) = !digits.isEmpty := by
  cases digits with
  | nil => exact hrest
  | cons c digits => exact hdigits c List.mem_cons_self

theorem suffix_absorb (limit n : Nat) (cs : List Char) : (absorb limit n cs).2 <:+ cs := by
  induction cs generalizing n with
  | nil => exact List.suffix_refl _
  | cons c cs ih =>
    rw [absorb]
    split_ifs
    · exact (ih _).trans (List.suffix_cons c cs)
    · exact List.suffix_refl _

/-- What follows a row of digits is left alone. -/
theorem absorb_row (limit n : Nat) (digits : List Char) (hrest : startsWithDigit rest = false) :
    absorb limit n (digits ++ rest) =
      ((absorb limit n digits).1, (absorb limit n digits).2 ++ rest) := by
  induction digits generalizing n with
  | nil =>
    cases rest with
    | nil => rfl
    | cons c rest =>
      have hc : c.isDigit = false := hrest
      simp [absorb, hc]
  | cons c digits ih =>
    rw [List.cons_append, absorb, absorb]
    split_ifs
    · exact ih _
    · rfl

theorem Digits.startsWithDigit_append (h : Digits digits) (rest : List Char) :
    startsWithDigit (digits ++ rest) = true := by
  obtain ⟨hne, hdigits⟩ := h
  cases digits with
  | nil => exact absurd rfl hne
  | cons c digits => exact hdigits c List.mem_cons_self

end Rows

/-! ### The parts of a numeral -/

/-- The rest of the text does not continue a numeral with this fraction and this exponent. -/
structure Ends (fraction exponent rest : List Char) : Prop where
  digit : startsWithDigit rest = false
  point : fraction = [] → exponent = [] → rest.head? ≠ some '.'
  mark : exponent = [] → ∀ c ∈ rest.head?, ¬ (c = 'e' ∨ c = 'E')

theorem Delimited.ends {rest : List Char} (h : Delimited rest) (fraction exponent : List Char) :
    Ends fraction exponent rest where
  digit := h.startsWithDigit
  point _ _ hhead := (h '.' hhead).2.1 rfl
  mark _ c hc := not_or.mpr (h c hc).2.2

theorem Whole.integerPart_append {whole : List Char} (h : Whole whole) :
    ∃ p, ∀ rest, startsWithDigit rest = false → integerPart (whole ++ rest) = .ok (p, rest) := by
  cases h with
  | zero =>
    refine ⟨⟨0, 0, true⟩, fun rest hrest ↦ ?_⟩
    simp [integerPart, hrest]
  | @digits c cs hfirst hdigits =>
    have hleft := (suffix_absorb UInt64.size 0 (c :: cs)).subset
    generalize hparts : absorb UInt64.size 0 (c :: cs) = parts at hleft
    have hall : ∀ d ∈ parts.2, d.isDigit = true := fun d hd ↦ hdigits.2 d (hleft hd)
    refine ⟨⟨parts.1, parts.2.length, !!parts.2.isEmpty⟩, fun rest hrest ↦ ?_⟩
    have habsorb := absorb_row UInt64.size 0 (c :: cs) hrest
    rw [hparts, List.cons_append] at habsorb
    rw [List.cons_append, integerPart]
    · rw [if_pos (hdigits.2 c List.mem_cons_self), habsorb]
      simp only [digitCount_append hall hrest, startsWithDigit_append hall hrest,
        skipDigits_append hall hrest]
    · exact hfirst

theorem Fraction.fractionPart_append {fraction : List Char} (h : Fraction fraction) (p : Parts) :
    ∃ q, ∀ rest, startsWithDigit rest = false → (fraction = [] → rest.head? ≠ some '.') →
      fractionPart p (fraction ++ rest) = .ok (q, rest) := by
  cases h with
  | absent =>
    refine ⟨p, fun rest _ hpoint ↦ ?_⟩
    rw [List.nil_append]
    unfold fractionPart
    split
    · exact absurd rfl (hpoint rfl)
    · rfl
  | @present cs hdigits =>
    have hleft := (suffix_absorb UInt64.size p.significand cs).subset
    generalize hparts : absorb UInt64.size p.significand cs = parts at hleft
    have hall : ∀ d ∈ parts.2, d.isDigit = true := fun d hd ↦ hdigits.2 d (hleft hd)
    refine ⟨⟨parts.1, p.exponent - ((cs.length : Int) - parts.2.length), false⟩,
      fun rest hrest _ ↦ ?_⟩
    have habsorb := absorb_row UInt64.size p.significand cs hrest
    rw [hparts] at habsorb
    rw [List.cons_append, fractionPart, if_pos (hdigits.startsWithDigit_append rest), habsorb]
    simp only [digitCount_append hall hrest, digitCount_append hdigits.2 hrest,
      skipDigits_append hall hrest]

theorem exponentSign_append {sign cs : List Char} (hsign : sign = [] ∨ sign = ['+'] ∨ sign = ['-'])
    (hcs : Digits cs) :
    ∃ negative, ∀ rest, exponentSign (sign ++ cs ++ rest) = (negative, cs ++ rest) := by
  obtain ⟨hne, hdigits⟩ := hcs
  rcases hsign with rfl | rfl | rfl
  · refine ⟨false, fun rest ↦ ?_⟩
    cases cs with
    | nil => exact absurd rfl hne
    | cons c cs =>
      have hc := hdigits c List.mem_cons_self
      show exponentSign (c :: (cs ++ rest)) = (false, c :: (cs ++ rest))
      unfold exponentSign
      split
      · rename_i heq
        simp [(List.cons.inj heq).1] at hc
      · rename_i heq
        simp [(List.cons.inj heq).1] at hc
      · rfl
  · exact ⟨false, fun rest ↦ rfl⟩
  · exact ⟨true, fun rest ↦ rfl⟩

theorem exponentDigits_append {cs : List Char} (hcs : Digits cs) (p : Parts) (negative : Bool) :
    (∃ q, ∀ rest, startsWithDigit rest = false →
        exponentDigits p negative (cs ++ rest) = .ok (q, rest)) ∨
      ∀ rest, startsWithDigit rest = false →
        ∃ fault, exponentDigits p negative (cs ++ rest) = .error fault := by
  obtain ⟨hne, hdigits⟩ := hcs
  obtain ⟨c, more, rfl⟩ := List.exists_cons_of_ne_nil hne
  have hleft := (suffix_absorb (Nat.pow 2 31) 0 (c :: more)).subset
  generalize hparts : absorb (Nat.pow 2 31) 0 (c :: more) = parts at hleft
  have hall : ∀ d ∈ parts.2, d.isDigit = true := fun d hd ↦ hdigits d (hleft hd)
  have hread : ∀ rest, startsWithDigit rest = false →
      exponentDigits p negative (c :: more ++ rest) =
        if parts.2 ≠ [] then
          if p.significand ≠ 0 ∧ negative = false then
            .error (.upon .numberOutOfRange (parts.2 ++ rest))
          else .ok (⟨0, 0, false⟩, rest)
        else .ok (⟨p.significand,
          if negative then p.exponent - parts.1 else p.exponent + parts.1, false⟩, rest) := by
    intro rest hrest
    have habsorb := absorb_row (Nat.pow 2 31) 0 (c :: more) hrest
    rw [hparts, List.cons_append] at habsorb
    rw [List.cons_append, exponentDigits, if_pos (hdigits c List.mem_cons_self), habsorb]
    simp only [startsWithDigit_append hall hrest, skipDigits_append hall hrest]
    by_cases hnone : parts.2 = []
    · simp [hnone]
    · simp [hnone]
  by_cases hnone : parts.2 = []
  · simp only [hnone, ne_eq, not_true_eq_false, if_false] at hread
    exact Or.inl ⟨_, hread⟩
  · simp only [hnone, ne_eq, not_false_eq_true, if_true] at hread
    by_cases hrange : ¬ p.significand = 0 ∧ negative = false
    · simp only [if_pos hrange] at hread
      exact Or.inr fun rest hrest ↦ ⟨_, hread rest hrest⟩
    · simp only [if_neg hrange] at hread
      exact Or.inl ⟨_, hread⟩

theorem Exponent.exponentPart_append {exponent : List Char} (h : Exponent exponent) (p : Parts) :
    (∃ q, ∀ rest, startsWithDigit rest = false →
        (exponent = [] → ∀ c ∈ rest.head?, ¬ (c = 'e' ∨ c = 'E')) →
        exponentPart p (exponent ++ rest) = .ok (q, rest)) ∨
      ∀ rest, startsWithDigit rest = false →
        ∃ fault, exponentPart p (exponent ++ rest) = .error fault := by
  cases h with
  | absent =>
    refine Or.inl ⟨p, fun rest _ hmark ↦ ?_⟩
    cases rest with
    | nil => rfl
    | cons c rest => rw [List.nil_append, exponentPart, if_neg (hmark rfl c rfl)]
  | @present mark sign cs hmark hsign hdigits =>
    obtain ⟨negative, hnegative⟩ := exponentSign_append hsign hdigits
    have hread : ∀ rest, exponentPart p (mark :: (sign ++ cs) ++ rest) =
        exponentDigits p negative (cs ++ rest) := by
      intro rest
      rw [List.cons_append, exponentPart, if_pos hmark, hnegative]
    simp only [hread]
    exact (exponentDigits_append hdigits p negative).imp_left
      fun ⟨q, hq⟩ ↦ ⟨q, fun rest hrest _ ↦ hq rest hrest⟩

/-! ### Whole numerals -/

section Parts

variable {negative : Bool} {cs inside behind : List Char} {p q : Parts}

theorem unsigned_of_exponent_fault {fault : Fault} (hwhole : integerPart cs = .ok (p, inside))
    (hfraction : fractionPart p inside = .ok (q, behind))
    (hexponent : exponentPart q behind = .error fault) : unsigned negative cs = .error fault := by
  simp only [unsigned, hwhole, hfraction, hexponent, bind, Except.bind]

variable {r : Parts} {rest : List Char} (hwhole : integerPart cs = .ok (p, inside))
  (hfraction : fractionPart p inside = .ok (q, behind))
  (hexponent : exponentPart q behind = .ok (r, rest))

include hwhole hfraction hexponent

theorem unsigned_of_value {n : Number} (hvalue : value? negative r = some n) :
    unsigned negative cs = .ok (n, rest) := by
  simp only [unsigned, hwhole, hfraction, hexponent, hvalue, bind, Except.bind]

theorem unsigned_of_outOfRange (hvalue : value? negative r = none) :
    unsigned negative cs = .error (.before .numberOutOfRange rest) := by
  simp only [unsigned, hwhole, hfraction, hexponent, hvalue, bind, Except.bind]

end Parts

section Unsigned

variable {whole fraction exponent : List Char}

/-- A numeral stands for one number, or is out of range, whatever comes after it. -/
theorem unsigned_append (hwhole : Whole whole) (hfraction : Fraction fraction)
    (hexponent : Exponent exponent) (negative : Bool) :
    (∃ n, ∀ rest, Ends fraction exponent rest →
        unsigned negative (whole ++ (fraction ++ (exponent ++ rest))) = .ok (n, rest)) ∨
      ∀ rest, Ends fraction exponent rest →
        ∃ fault, unsigned negative (whole ++ (fraction ++ (exponent ++ rest))) = .error fault := by
  obtain ⟨p, hp⟩ := hwhole.integerPart_append
  obtain ⟨q, hq⟩ := hfraction.fractionPart_append p
  have hexponentEnd : ∀ rest, Ends fraction exponent rest →
      startsWithDigit (exponent ++ rest) = false ∧
        (fraction = [] → (exponent ++ rest).head? ≠ some '.') := by
    intro rest hends
    cases hexponent with
    | absent => exact ⟨hends.digit, fun hnone ↦ hends.point hnone rfl⟩
    | present hmark => rcases hmark with rfl | rfl <;> exact ⟨rfl, by simp⟩
  have hfractionEnd : ∀ rest, Ends fraction exponent rest →
      startsWithDigit (fraction ++ (exponent ++ rest)) = false := by
    intro rest hends
    cases hfraction with
    | absent => exact (hexponentEnd rest hends).1
    | present => rfl
  have hfractionPart : ∀ rest, Ends fraction exponent rest →
      fractionPart p (fraction ++ (exponent ++ rest)) = .ok (q, exponent ++ rest) :=
    fun rest hends ↦ hq _ (hexponentEnd rest hends).1 (hexponentEnd rest hends).2
  rcases hexponent.exponentPart_append q with ⟨r, hr⟩ | hrange
  · cases hvalue : value? negative r with
    | some n =>
      exact Or.inl ⟨n, fun rest hends ↦ unsigned_of_value (hp _ (hfractionEnd rest hends))
        (hfractionPart rest hends) (hr rest hends.digit hends.mark) hvalue⟩
    | none =>
      exact Or.inr fun rest hends ↦ ⟨_, unsigned_of_outOfRange (hp _ (hfractionEnd rest hends))
        (hfractionPart rest hends) (hr rest hends.digit hends.mark) hvalue⟩
  · refine Or.inr fun rest hends ↦ ?_
    obtain ⟨fault, hfault⟩ := hrange rest hends.digit
    exact ⟨fault, unsigned_of_exponent_fault (hp _ (hfractionEnd rest hends))
      (hfractionPart rest hends) hfault⟩

end Unsigned

/-- A whole part begins with a digit and not with a sign. -/
theorem Whole.read_append {whole : List Char} (h : Whole whole) (more : List Char) :
    read (whole ++ more) = unsigned false (whole ++ more) := by
  have hsign : ∀ rest, whole ++ more ≠ '-' :: rest := by
    cases h with
    | zero => simp
    | @digits c cs _ hdigits =>
      rintro rest heq
      have hc := hdigits.2 c List.mem_cons_self
      simp [(List.cons.inj heq).1] at hc
  unfold read
  split
  · rename_i heq
    exact absurd heq (hsign _)
  · rfl

theorem form_append {sign whole fraction exponent : List Char} (hsign : sign = [] ∨ sign = ['-'])
    (hwhole : Whole whole) (hfraction : Fraction fraction) (hexponent : Exponent exponent) :
    (∃ n, ∀ rest, Ends fraction exponent rest →
        read (sign ++ (whole ++ (fraction ++ (exponent ++ rest)))) = .ok (n, rest)) ∨
      ∀ rest, Ends fraction exponent rest →
        ∃ fault, read (sign ++ (whole ++ (fraction ++ (exponent ++ rest)))) = .error fault := by
  rcases hsign with rfl | rfl
  · simp only [List.nil_append, hwhole.read_append]
    exact unsigned_append hwhole hfraction hexponent false
  · exact unsigned_append hwhole hfraction hexponent true

/-- A numeral is read in front of anything that does not continue it. -/
theorem read_of_spells {numeral rest : List Char} {n : Number} (h : Spells numeral n)
    (hrest : Delimited rest) : read (numeral ++ rest) = .ok (n, rest) := by
  obtain ⟨hform, hread⟩ := h
  cases hform with
  | @mk sign whole fraction exponent hsign hwhole hfraction hexponent =>
    have hnil : Delimited [] := by simp [Delimited]
    simp only [List.append_assoc]
    rcases form_append hsign hwhole hfraction hexponent with ⟨m, hm⟩ | hrange
    · have halone := hm [] (hnil.ends fraction exponent)
      rw [List.append_nil] at halone
      obtain rfl := (Prod.mk.inj (Except.ok.inj (halone.symm.trans hread))).1
      exact hm rest (hrest.ends fraction exponent)
    · obtain ⟨fault, hfault⟩ := hrange [] (hnil.ends fraction exponent)
      rw [List.append_nil, hread] at hfault
      simp at hfault

/-! ### What the reader takes in -/

section Taken

variable {cs rest : List Char}

theorem startsWithDigit_skipDigits (cs : List Char) : startsWithDigit (skipDigits cs) = false := by
  have hhead := List.head?_dropWhile_not Char.isDigit cs
  rw [← skipDigits] at hhead
  cases hskip : skipDigits cs with
  | nil => rfl
  | cons c rest =>
    rw [hskip] at hhead
    exact hhead

theorem exists_digits_of_skimDigits (h : skimDigits cs = .ok rest) :
    ∃ digits, cs = digits ++ rest ∧ Digits digits ∧ startsWithDigit rest = false := by
  rw [skimDigits] at h
  split_ifs at h with hdigit
  obtain rfl := Except.ok.inj h
  refine ⟨cs.takeWhile Char.isDigit, List.takeWhile_append_dropWhile.symm, ⟨?_, ?_⟩,
    startsWithDigit_skipDigits cs⟩
  · cases cs with
    | nil => simp [startsWithDigit] at hdigit
    | cons c cs =>
      have hc : c.isDigit = true := hdigit
      simp [hc]
  · exact fun c hc ↦ List.mem_takeWhile_imp hc

theorem exists_whole_of_skimInteger (h : skimInteger cs = .ok rest) :
    ∃ whole, cs = whole ++ rest ∧ Whole whole ∧ startsWithDigit rest = false := by
  unfold skimInteger at h
  split at h
  · split_ifs at h with hdigit
    obtain rfl := Except.ok.inj h
    exact ⟨['0'], rfl, .zero, by simpa using hdigit⟩
  · rename_i hzero
    obtain ⟨digits, rfl, hdigits, hrest⟩ := exists_digits_of_skimDigits h
    refine ⟨digits, rfl, ?_, hrest⟩
    obtain ⟨c, more, rfl⟩ := List.exists_cons_of_ne_nil hdigits.1
    refine .digits ?_ hdigits
    rintro rfl
    exact hzero _ rfl

theorem exists_fraction_of_skimFraction (h : skimFraction cs = .ok rest)
    (hcs : startsWithDigit cs = false) :
    ∃ fraction, cs = fraction ++ rest ∧ Fraction fraction ∧ startsWithDigit rest = false ∧
      (fraction = [] → rest.head? ≠ some '.') := by
  unfold skimFraction at h
  split at h
  · obtain ⟨digits, rfl, hdigits, hrest⟩ := exists_digits_of_skimDigits h
    exact ⟨'.' :: digits, rfl, .present hdigits, hrest, by simp⟩
  · rename_i hpoint
    obtain rfl := Except.ok.inj h
    refine ⟨[], rfl, .absent, hcs, fun _ hhead ↦ ?_⟩
    obtain ⟨more, rfl⟩ := List.head?_eq_some_iff.mp hhead
    exact hpoint more rfl

theorem exponentSign_eq (cs : List Char) :
    ∃ sign, cs = sign ++ (exponentSign cs).2 ∧ (sign = [] ∨ sign = ['+'] ∨ sign = ['-']) := by
  unfold exponentSign
  split
  · exact ⟨['+'], rfl, by simp⟩
  · exact ⟨['-'], rfl, by simp⟩
  · exact ⟨[], rfl, by simp⟩

theorem exists_exponent_of_skimExponent (h : skimExponent cs = .ok rest)
    (hcs : startsWithDigit cs = false) :
    ∃ exponent, cs = exponent ++ rest ∧ Exponent exponent ∧ startsWithDigit rest = false ∧
      (exponent = [] → ∀ c ∈ rest.head?, ¬ (c = 'e' ∨ c = 'E')) := by
  unfold skimExponent at h
  split at h
  · obtain rfl := Except.ok.inj h
    exact ⟨[], rfl, .absent, rfl, by simp⟩
  · rename_i mark more
    split_ifs at h with hmark
    · obtain ⟨sign, hmore, hsign⟩ := exponentSign_eq more
      obtain ⟨digits, hdigits, hform, hrest⟩ := exists_digits_of_skimDigits h
      rw [hdigits] at hmore
      refine ⟨mark :: (sign ++ digits), ?_, .present hmark hsign hform, hrest, by simp⟩
      rw [hmore, List.cons_append, List.append_assoc]
    · obtain rfl := Except.ok.inj h
      refine ⟨[], rfl, .absent, hcs, fun _ c hc ↦ ?_⟩
      obtain rfl := Option.some.inj hc
      exact hmark

/-- The course of the reader through a numeral without its sign. -/
theorem exists_form_of_unsigned {negative : Bool} {n : Number}
    (h : unsigned negative cs = .ok (n, rest)) :
    ∃ whole fraction exponent, cs = whole ++ (fraction ++ (exponent ++ rest)) ∧ Whole whole ∧
      Fraction fraction ∧ Exponent exponent ∧ Ends fraction exponent rest := by
  obtain ⟨hskim, _⟩ := unsigned_eq_ok h
  obtain ⟨behind, hinteger, hskim⟩ := bind_eq_ok_iff.mp hskim
  obtain ⟨further, hfraction, hexponent⟩ := bind_eq_ok_iff.mp hskim
  obtain ⟨whole, rfl, hwhole, hdigit⟩ := exists_whole_of_skimInteger hinteger
  obtain ⟨fraction, rfl, hform, hdigit, hpoint⟩ := exists_fraction_of_skimFraction hfraction hdigit
  obtain ⟨exponent, rfl, hmarked, hdigit, hmark⟩ := exists_exponent_of_skimExponent hexponent hdigit
  refine ⟨whole, fraction, exponent, rfl, hwhole, hform, hmarked, hdigit, ?_, hmark⟩
  rintro hnone rfl
  exact hpoint hnone

/-- What the reader takes off a text is a numeral. -/
theorem exists_spells_of_read {n : Number} (h : read cs = .ok (n, rest)) :
    ∃ numeral, cs = numeral ++ rest ∧ Spells numeral n := by
  have hnil : Delimited [] := by simp [Delimited]
  obtain ⟨sign, whole, fraction, exponent, hcs, hsign, hwhole, hfraction, hexponent, hends⟩ :
      ∃ sign whole fraction exponent, cs = sign ++ (whole ++ (fraction ++ (exponent ++ rest))) ∧
        (sign = [] ∨ sign = ['-']) ∧ Whole whole ∧ Fraction fraction ∧ Exponent exponent ∧
          Ends fraction exponent rest := by
    unfold read at h
    split at h
    · obtain ⟨whole, fraction, exponent, rfl, hparts⟩ := exists_form_of_unsigned h
      exact ⟨['-'], whole, fraction, exponent, rfl, Or.inr rfl, hparts⟩
    · obtain ⟨whole, fraction, exponent, rfl, hparts⟩ := exists_form_of_unsigned h
      exact ⟨[], whole, fraction, exponent, rfl, Or.inl rfl, hparts⟩
  rw [hcs] at h
  refine ⟨sign ++ (whole ++ (fraction ++ exponent)), by simpa using hcs,
    .mk hsign hwhole hfraction hexponent, ?_⟩
  rcases form_append hsign hwhole hfraction hexponent with ⟨m, hm⟩ | hrange
  · obtain rfl := (Prod.mk.inj (Except.ok.inj ((hm rest hends).symm.trans h))).1
    simpa using hm [] (hnil.ends fraction exponent)
  · obtain ⟨fault, hfault⟩ := hrange rest hends
    rw [h] at hfault
    simp at hfault

end Taken

end ChangeDdl.Json.Numeral
