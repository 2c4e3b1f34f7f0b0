import ChangeDdl.Proofs.Json.Quoted

/-!
The grammar of quoted texts. `Spells` lists the ways to write a character between quotes: as it is,
with a letter behind a backslash, with the digits of its unit, or as a pair of surrogates. What the
reader takes in is exactly a row of such spellings up to the closing quote (`read_eq_ok_iff`).
-/

set_option autoImplicit false
set_option relaxedAutoImplicit false

namespace ChangeDdl.Json.Quoted

/-- Four hexadecimal digits and the unit that they stand for. -/
def Quad (quad : List Char) (unit : Nat) : Prop :=
  quad.length = 4 ∧ ∃ digits, quad.mapM hexValue = some digits ∧
    digits.foldl (fun n digit ↦ 16 * n + digit) 0 = unit

/-- A surrogate stands for a character only together with its other half. -/
inductive Spells : List Char → Char → Prop where
  | plain {c : Char} (hquote : c ≠ '"') (hbackslash : c ≠ '\\') (hcontrol : ¬ c < ' ') :
    Spells [c] c
  | letter {letter meant : Char} (hmeant : letterEscape letter = some meant) :
    Spells ['\\', letter] meant
  | unit {quad : List Char} {unit : Nat} (hquad : Quad quad unit)
    (hleading : isLeading unit = false) (htrailing : isTrailing unit = false) :
    Spells ('\\' :: 'u' :: quad) (Char.ofNat unit)
  | pair {first second : List Char} {leading trailing : Nat} (hfirst : Quad first leading)
    (hleading : isLeading leading = true) (hsecond : Quad second trailing)
    (htrailing : isTrailing trailing = true) :
    Spells ('\\' :: 'u' :: (first ++ '\\' :: 'u' :: second))
      (Char.ofNat (0x10000 + (leading - 0xD800) * 0x400 + (trailing - 0xDC00)))

/-- What stands between the quotes, and the text it spells. -/
inductive Body : List Char → List Char → Prop where
  | nil : Body [] []
  | cons {spelled more text : List Char} {c : Char} (hspells : Spells spelled c)
    (hmore : Body more text) : Body (spelled ++ more) (c :: text)

/-- A quoted text and what it says. -/
def Says (quoted : List Char) (s : String) : Prop :=
  ∃ body, quoted = '"' :: (body ++ ['"']) ∧ Body body s.toList

/-! ### Escapes -/

theorem utf8Size_of_hexValue {c : Char} {n : Nat} (h : hexValue c = some n) :
    c.utf8Size = 1 := by
  have hsmall : c.toNat < 128 := by
    unfold hexValue at h
    split_ifs at h with hdigit hlower hupper
    · have hlast : c.toNat ≤ '9'.toNat := (Char.isDigit_iff_toNat.mp hdigit).2
      exact Nat.lt_of_le_of_lt hlast (by decide)
    · have hlast : c.toNat ≤ 'f'.toNat := hlower.2
      exact Nat.lt_of_le_of_lt hlast (by decide)
    · have hlast : c.toNat ≤ 'F'.toNat := hupper.2
      exact Nat.lt_of_le_of_lt hlast (by decide)
  exact Char.utf8Size_eq_one_iff.mpr (UInt32.le_iff_toNat_le.mpr (Nat.le_of_lt_succ hsmall))

theorem byteCount_of_hexValues {quad : List Char} {digits : List Nat}
    (h : quad.mapM hexValue = some digits) : byteCount quad = quad.length := by
  induction quad generalizing digits with
  | nil => rfl
  | cons c quad ih =>
    rw [List.mapM_cons] at h
    obtain ⟨n, hn, h⟩ := Option.bind_eq_some_iff.mp h
    obtain ⟨more, hmore, _⟩ := Option.bind_eq_some_iff.mp h
    have hrest := ih hmore
    show c.utf8Size + byteCount quad = quad.length + 1
    rw [utf8Size_of_hexValue hn, hrest, Nat.add_comm]

theorem hexQuad_eq_ok_iff {cs rest : List Char} {unit : Nat} :
    hexQuad cs = .ok (unit, rest) ↔ ∃ quad, cs = quad ++ rest ∧ Quad quad unit := by
  constructor
  · intro h
    unfold hexQuad at h
    dsimp only at h
    split_ifs at h with hcount
    split at h
    · rename_i digits hdigits
      obtain ⟨rfl, rfl⟩ := Prod.mk.inj (Except.ok.inj h)
      have hlength : (cs.take 4).length = 4 := by
        have hle : (cs.take 4).length ≤ 4 := List.length_take_le 4 cs
        rw [byteCount_of_hexValues hdigits] at hcount
        omega
      exact ⟨cs.take 4, (List.take_append_drop 4 cs).symm, hlength, digits, hdigits, rfl⟩
    · simp at h
  · rintro ⟨quad, rfl, hlength, digits, hdigits, rfl⟩
    have htake : (quad ++ rest).take 4 = quad := by rw [← hlength, List.take_left]
    have hdrop : (quad ++ rest).drop 4 = rest := by rw [← hlength, List.drop_left]
    have hcount : ¬ byteCount quad < 4 := by
      rw [byteCount_of_hexValues hdigits, hlength]
      omega
    simp only [hexQuad, htake, hdrop, if_neg hcount, hdigits]

theorem secondHalf_eq_ok_iff {cs rest : List Char} :
    secondHalf cs = .ok rest ↔ cs = '\\' :: 'u' :: rest := by
  constructor
  · exact secondHalf_eq_ok
  · rintro rfl
    rfl

theorem not_isTrailing_of_isLeading {unit : Nat} (h : isLeading unit = true) :
    isTrailing unit = false := by
  simp only [isLeading, isTrailing, Bool.and_eq_true, Bool.and_eq_false_iff, decide_eq_true_eq,
    decide_eq_false_iff_not] at h ⊢
  omega

theorem unicodeEscape_eq_ok_iff {cs rest : List Char} {c : Char} :
    unicodeEscape cs = .ok (c, rest) ↔
      ∃ digits, cs = digits ++ rest ∧ Spells ('\\' :: 'u' :: digits) c := by
  constructor
  · intro h
    obtain ⟨⟨unit, behind⟩, hquad, hunit⟩ := bind_eq_ok_iff.mp h
    obtain ⟨first, rfl, hfirst⟩ := hexQuad_eq_ok_iff.mp hquad
    dsimp only at hunit
    split_ifs at hunit with htrailing hleading
    · obtain ⟨half, hhalf, hpair⟩ := bind_eq_ok_iff.mp hunit
      obtain rfl := secondHalf_eq_ok_iff.mp hhalf
      obtain ⟨⟨other, last⟩, hother, hlast⟩ := bind_eq_ok_iff.mp hpair
      obtain ⟨second, rfl, hsecond⟩ := hexQuad_eq_ok_iff.mp hother
      split_ifs at hlast with hpaired
      obtain ⟨rfl, rfl⟩ := Prod.mk.inj (Except.ok.inj hlast)
      exact ⟨first ++ '\\' :: 'u' :: second, by simp, .pair hfirst hleading hsecond hpaired⟩
    · obtain ⟨rfl, rfl⟩ := Prod.mk.inj (Except.ok.inj hunit)
      exact ⟨first, rfl, .unit hfirst (by simpa using hleading) (by simpa using htrailing)⟩
  · rintro ⟨digits, rfl, hspells⟩
    cases hspells with
    | letter hmeant => simp [letterEscape] at hmeant
    | unit hquad hleading htrailing =>
      refine bind_eq_ok_iff.mpr ⟨_, hexQuad_eq_ok_iff.mpr ⟨_, rfl, hquad⟩, ?_⟩
      simp [hleading, htrailing]
    | pair hfirst hleading hsecond htrailing =>
      rw [List.append_assoc]
      refine bind_eq_ok_iff.mpr ⟨_, hexQuad_eq_ok_iff.mpr ⟨_, rfl, hfirst⟩, ?_⟩
      dsimp only
      rw [not_isTrailing_of_isLeading hleading, if_neg (by simp), if_pos hleading]
      refine bind_eq_ok_iff.mpr ⟨_, secondHalf_eq_ok_iff.mpr rfl, ?_⟩
      refine bind_eq_ok_iff.mpr ⟨_, hexQuad_eq_ok_iff.mpr ⟨_, rfl, hsecond⟩, ?_⟩
      simp [htrailing]

theorem escape_eq_ok_iff {cs rest : List Char} {c : Char} :
    escape cs = .ok (c, rest) ↔ ∃ spelled, cs = spelled ++ rest ∧ Spells ('\\' :: spelled) c := by
  constructor
  · intro h
    unfold escape at h
    split at h
    · simp at h
    · obtain ⟨digits, rfl, hspells⟩ := unicodeEscape_eq_ok_iff.mp h
      exact ⟨'u' :: digits, rfl, hspells⟩
    · rename_i letter text _
      split at h
      · rename_i meant hmeant
        obtain ⟨rfl, rfl⟩ := Prod.mk.inj (Except.ok.inj h)
        exact ⟨[letter], rfl, .letter hmeant⟩
      · simp at h
  · rintro ⟨spelled, rfl, hspells⟩
    have hunicode : ∀ digits, spelled = 'u' :: digits →
        escape (spelled ++ rest) = .ok (c, rest) := by
      rintro digits rfl
      exact unicodeEscape_eq_ok_iff.mpr ⟨digits, rfl, hspells⟩
    cases hspells with
    | plain _ hbackslash => exact absurd rfl hbackslash
    | unit => exact hunicode _ rfl
    | pair => exact hunicode _ rfl
    | @letter letter _ hmeant =>
      rw [List.singleton_append, escape]
      · rw [hmeant]
      · rintro rfl
        simp [letterEscape] at hmeant

/-! ### Characters -/

theorem character_eq_some_iff {cs rest : List Char} {c : Char} :
    character cs = .ok (some c, rest) ↔ ∃ spelled, cs = spelled ++ rest ∧ Spells spelled c := by
  constructor
  · intro h
    unfold character at h
    split at h
    · simp at h
    · simp at h
    · obtain ⟨d, hescape, hc⟩ := bind_mapFst_eq_ok_iff.mp h
      obtain ⟨spelled, rfl, hspells⟩ := escape_eq_ok_iff.mp hescape
      exact ⟨'\\' :: spelled, rfl, Option.some.inj hc ▸ hspells⟩
    · rename_i d text hquote hbackslash
      split_ifs at h with hcontrol
      obtain ⟨hc, rfl⟩ := Prod.mk.inj (Except.ok.inj h)
      exact ⟨[d], rfl, Option.some.inj hc ▸ .plain hquote hbackslash hcontrol⟩
  · rintro ⟨spelled, rfl, hspells⟩
    have hescape : ∀ behind, spelled = '\\' :: behind →
        character (spelled ++ rest) = .ok (some c, rest) := by
      rintro behind rfl
      exact character_escape (escape_eq_ok_iff.mpr ⟨behind, rfl, hspells⟩)
    cases hspells with
    | letter => exact hescape _ rfl
    | unit => exact hescape _ rfl
    | pair => exact hescape _ rfl
    | plain hquote hbackslash hcontrol =>
      rw [List.singleton_append, character]
      · rw [if_neg hcontrol]
      · exact hquote
      · exact hbackslash

theorem Spells.ne_nil {spelled : List Char} {c : Char} (h : Spells spelled c) : spelled ≠ [] := by
  cases h <;> simp

/-! ### Texts -/

theorem Body.length_le {body text : List Char} (h : Body body text) :
    text.length ≤ body.length := by
  induction h with
  | nil => exact Nat.le_refl _
  | cons hspells _ ih =>
    have hpos := List.length_pos_iff.mpr hspells.ne_nil
    rw [List.length_cons, List.length_append]
    omega

/-- The loop ends at the closing quote, if it has fuel for every character of the text. -/
theorem characters_of_body {body text : List Char} (h : Body body text) (fuel before rest : List Char)
    (hfuel : text.length < fuel.length) :
    characters fuel before (body ++ '"' :: rest) = .ok (before.reverse ++ text, rest) := by
  induction h generalizing fuel before with
  | nil =>
    cases fuel with
    | nil => simp at hfuel
    | cons d fuel => exact bind_eq_ok_iff.mpr ⟨(none, rest), rfl, by simp⟩
  | @cons spelled more text c hspells _ ih =>
    cases fuel with
    | nil => simp at hfuel
    | cons d fuel =>
      have hmore := ih fuel (c :: before) (by simpa using hfuel)
      rw [List.append_assoc]
      refine bind_eq_ok_iff.mpr ⟨(some c, more ++ '"' :: rest), ?_, ?_⟩
      · exact character_eq_some_iff.mpr ⟨spelled, rfl, hspells⟩
      · simpa using hmore

theorem body_of_characters {fuel before cs found rest : List Char}
    (h : characters fuel before cs = .ok (found, rest)) :
    ∃ body text, cs = body ++ '"' :: rest ∧ Body body text ∧ found = before.reverse ++ text := by
  induction fuel generalizing before cs with
  | nil => simp [characters] at h
  | cons d fuel ih =>
    obtain ⟨⟨next, behind⟩, hnext, hmore⟩ := bind_eq_ok_iff.mp h
    cases next with
    | none =>
      obtain ⟨rfl, rfl⟩ := Prod.mk.inj (Except.ok.inj hmore)
      exact ⟨[], [], character_eq_none hnext, .nil, by simp⟩
    | some c =>
      obtain ⟨spelled, rfl, hspells⟩ := character_eq_some_iff.mp hnext
      obtain ⟨body, text, rfl, hbody, rfl⟩ := ih hmore
      exact ⟨spelled ++ body, c :: text, by simp, .cons hspells hbody, by simp⟩

/-- Behind its opening quote, a text is read as what its characters spell. -/
theorem read_eq_ok_iff {cs rest : List Char} {s : String} :
    read cs = .ok (s, rest) ↔ ∃ body, cs = body ++ '"' :: rest ∧ Body body s.toList := by
  constructor
  · intro h
    obtain ⟨found, hfound, rfl⟩ := bind_mapFst_eq_ok_iff.mp h
    obtain ⟨body, text, rfl, hbody, rfl⟩ := body_of_characters hfound
    exact ⟨body, rfl, by simpa using hbody⟩
  · rintro ⟨body, rfl, hbody⟩
    have hlength := hbody.length_le
    refine bind_eq_ok_iff.mpr ⟨_, characters_of_body hbody _ [] rest ?_, by simp⟩
    rw [List.length_cons, List.length_append]
    omega

end ChangeDdl.Json.Quoted
