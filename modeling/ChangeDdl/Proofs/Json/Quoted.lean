import ChangeDdl.Json.Quoted
import ChangeDdl.Proofs.Fallible
import Mathlib.Data.List.Basic

/-!
Quoted texts. Whatever is written is read back (`read_write`), since every character that has a
meaning of its own between quotes is escaped. Whatever is read can be passed over as well
(`skim_of_read`), although a pair of surrogates is one character to the reader and two escapes to
the skipper.
-/

set_option autoImplicit false
set_option relaxedAutoImplicit false

namespace ChangeDdl.Json.Quoted

/-! ### Reading what is written -/

theorem hexValue_hexDigit {n : Nat} (h : n < 16) : hexValue (hexDigit n) = some n := by
  have hall : ∀ n < 16, hexValue (hexDigit n) = some n := by decide
  exact hall n h

theorem utf8Size_hexDigit {n : Nat} (h : n < 16) : (hexDigit n).utf8Size = 1 := by
  have hall : ∀ n < 16, (hexDigit n).utf8Size = 1 := by decide
  exact hall n h

/-- The four digits of a control character. -/
theorem hexQuad_control {n : Nat} (h : n < 256) (rest : List Char) :
    hexQuad ('0' :: '0' :: hexDigit (n / 16) :: hexDigit (n % 16) :: rest) = .ok (n, rest) := by
  have hhigh : n / 16 < 16 := by omega
  have hlow : n % 16 < 16 := by omega
  have hcount : byteCount ['0', '0', hexDigit (n / 16), hexDigit (n % 16)] = 4 := by
    simp [byteCount, utf8Size_hexDigit hhigh, utf8Size_hexDigit hlow]
    decide
  have hzero : hexValue '0' = some 0 := by decide
  have hvalue : 16 * (n / 16) + n % 16 = n := by omega
  simp [hexQuad, hcount, hzero, hexValue_hexDigit hhigh, hexValue_hexDigit hlow, hvalue]

/-- An escaped character is the character that was written. -/
theorem character_escape {c : Char} {cs rest : List Char} (h : escape cs = .ok (c, rest)) :
    character ('\\' :: cs) = .ok (some c, rest) :=
  bind_eq_ok_iff.mpr ⟨(c, rest), h, rfl⟩

theorem escape_control {c : Char} (hc : c < ' ') (rest : List Char) :
    escape ('u' :: '0' :: '0' :: hexDigit (c.toNat / 16) :: hexDigit (c.toNat % 16) :: rest) =
      .ok (c, rest) := by
  have hsmall : c.toNat < 32 := hc
  have hlone : isTrailing c.toNat = false := by
    simp only [isTrailing, Bool.and_eq_false_iff, decide_eq_false_iff_not]
    omega
  have hunpaired : isLeading c.toNat = false := by
    simp only [isLeading, Bool.and_eq_false_iff, decide_eq_false_iff_not]
    omega
  have hquad := hexQuad_control (show c.toNat < 256 by omega) rest
  refine bind_eq_ok_iff.mpr ⟨(c.toNat, rest), hquad, ?_⟩
  simp [hlone, hunpaired, Char.ofNat_toNat]

/-- Every character is read as it was written. -/
theorem character_writeChar (c : Char) (rest : List Char) :
    character (writeChar c ++ rest) = .ok (some c, rest) := by
  unfold writeChar
  split
  case isTrue hquote => exact character_escape (by rw [hquote]; rfl)
  case isFalse hquote =>
  split
  case isTrue hbackslash => exact character_escape (by rw [hbackslash]; rfl)
  case isFalse hbackslash =>
  split
  case isTrue hbackspace => exact character_escape (by rw [hbackspace]; rfl)
  split
  case isTrue hfeed => exact character_escape (by rw [hfeed]; rfl)
  split
  case isTrue hline => exact character_escape (by rw [hline]; rfl)
  split
  case isTrue hreturn => exact character_escape (by rw [hreturn]; rfl)
  split
  case isTrue htab => exact character_escape (by rw [htab]; rfl)
  split
  case isTrue hcontrol => exact character_escape (escape_control hcontrol rest)
  case isFalse hcontrol =>
    rw [List.singleton_append, character]
    · rw [if_neg hcontrol]
    · exact hquote
    · exact hbackslash

/-- The characters of a text up to the closing quote, with enough fuel for each of them. -/
theorem characters_write (text before rest fuel : List Char) (hfuel : text.length < fuel.length) :
    characters fuel before (text.flatMap writeChar ++ '"' :: rest) =
      .ok (before.reverse ++ text, rest) := by
  induction text generalizing before fuel with
  | nil =>
    cases fuel with
    | nil => simp at hfuel
    | cons c fuel => simp [characters, character, bind, Except.bind]
  | cons c text ih =>
    cases fuel with
    | nil => simp at hfuel
    | cons d fuel =>
      have hmore : text.length < fuel.length := by simpa using hfuel
      rw [List.flatMap_cons, List.append_assoc, characters]
      refine bind_eq_ok_iff.mpr ⟨_, character_writeChar c _, ?_⟩
      show characters fuel (c :: before) _ = _
      rw [ih (c :: before) fuel hmore]
      simp

theorem writeChar_ne_nil (c : Char) : writeChar c ≠ [] := by
  intro hnil
  have hread := character_writeChar c []
  rw [hnil] at hread
  exact nomatch hread

theorem length_le_length_write (text : List Char) :
    text.length ≤ (text.flatMap writeChar).length := by
  induction text with
  | nil => simp
  | cons c text ih =>
    have hpos : 0 < (writeChar c).length := List.length_pos_iff.mpr (writeChar_ne_nil c)
    rw [List.flatMap_cons, List.length_append, List.length_cons]
    omega

/-- A written text is read back behind its opening quote. -/
theorem read_write (s : String) (rest : List Char) :
    read (s.toList.flatMap writeChar ++ '"' :: rest) = .ok (s, rest) := by
  have hlength := length_le_length_write s.toList
  refine bind_eq_ok_iff.mpr ⟨_, characters_write s.toList [] rest _ ?_, ?_⟩
  · rw [List.length_cons, List.length_append]
    omega
  · simp

/-! ### Passing over what is read -/

theorem length_hexQuad {cs rest : List Char} {unit : Nat} (h : hexQuad cs = .ok (unit, rest)) :
    rest.length ≤ cs.length := by
  unfold hexQuad at h
  dsimp only at h
  split_ifs at h
  split at h
  · obtain ⟨_, rfl⟩ := Prod.mk.inj (Except.ok.inj h)
    rw [List.length_drop]
    omega
  · simp at h

/-- One step of the skipper over a part of a text that is not its end. -/
def Skims (cs rest : List Char) : Prop :=
  skimCharacter cs = .ok (true, rest) ∧ rest.length < cs.length

theorem skims_unicode {cs rest : List Char} {unit : Nat} (h : hexQuad cs = .ok (unit, rest)) :
    Skims ('\\' :: 'u' :: cs) rest := by
  have hlength := length_hexQuad h
  refine ⟨bind_eq_ok_iff.mpr ⟨rest, bind_eq_ok_iff.mpr ⟨_, h, rfl⟩, rfl⟩, ?_⟩
  simp only [List.length_cons]
  omega

theorem secondHalf_eq_ok {cs rest : List Char} (h : secondHalf cs = .ok rest) :
    cs = '\\' :: 'u' :: rest := by
  unfold secondHalf at h
  split at h
  · simp at h
  · simp at h
  · rw [Except.ok.inj h]
  · simp at h
  · simp at h

/-- What is one character to the reader takes the skipper one step or two. -/
theorem skims_of_escape {c : Char} {cs rest : List Char} (h : escape cs = .ok (c, rest)) :
    Skims ('\\' :: cs) rest ∨ ∃ between, Skims ('\\' :: cs) between ∧ Skims between rest := by
  unfold escape at h
  split at h
  · simp at h
  · rename_i text
    obtain ⟨⟨unit, behind⟩, hquad, h⟩ := bind_eq_ok_iff.mp h
    have hfirst := skims_unicode hquad
    simp only at h
    split_ifs at h with htrailing hleading
    · obtain ⟨half, hhalf, hpair⟩ := bind_eq_ok_iff.mp h
      obtain ⟨⟨second, last⟩, hsecond, hlast⟩ := bind_eq_ok_iff.mp hpair
      obtain rfl := secondHalf_eq_ok hhalf
      split_ifs at hlast
      obtain ⟨_, rfl⟩ := Prod.mk.inj (Except.ok.inj hlast)
      exact Or.inr ⟨_, hfirst, skims_unicode hsecond⟩
    · obtain ⟨_, rfl⟩ := Prod.mk.inj (Except.ok.inj h)
      exact Or.inl hfirst
  · rename_i d text hd
    split at h
    · rename_i meant hmeant
      obtain ⟨_, rfl⟩ := Prod.mk.inj (Except.ok.inj h)
      have hskim : skimEscape (d :: text) = .ok text := by
        rw [skimEscape, hmeant]
        · rfl
        · exact hd
      refine Or.inl ⟨bind_eq_ok_iff.mpr ⟨text, hskim, rfl⟩, ?_⟩
      simp only [List.length_cons]
      omega
    · simp at h

theorem skims_of_character {c : Char} {cs rest : List Char}
    (h : character cs = .ok (some c, rest)) :
    Skims cs rest ∨ ∃ between, Skims cs between ∧ Skims between rest := by
  unfold character at h
  split at h
  · simp at h
  · simp at h
  · obtain ⟨d, hescape, _⟩ := bind_mapFst_eq_ok_iff.mp h
    exact skims_of_escape hescape
  · rename_i d text hquote hbackslash
    split_ifs at h with hcontrol
    obtain ⟨_, rfl⟩ := Prod.mk.inj (Except.ok.inj h)
    refine Or.inl ⟨?_, by simp⟩
    rw [skimCharacter, if_neg hcontrol]
    · exact hquote
    · exact hbackslash

theorem character_eq_none {cs rest : List Char} (h : character cs = .ok (none, rest)) :
    cs = '"' :: rest := by
  unfold character at h
  split at h
  · simp at h
  · rw [(Prod.mk.inj (Except.ok.inj h)).2]
  · obtain ⟨⟨d, behind⟩, _, h⟩ := bind_eq_ok_iff.mp h
    simp at h
  · split_ifs at h
    simp at h

theorem skimCharacters_of_skims {fuel cs rest : List Char} {c : Char} (h : Skims cs rest) :
    skimCharacters (c :: fuel) cs = skimCharacters fuel rest := by
  rw [skimCharacters, h.1]
  rfl

/-- The skipper gets to the end of every text that the reader gets to the end of, if it has fuel
for every character. -/
theorem skimCharacters_of_characters {fuel before cs text rest : List Char}
    (h : characters fuel before cs = .ok (text, rest)) :
    rest.length < cs.length ∧
      ∀ more : List Char, cs.length < more.length → skimCharacters more cs = .ok rest := by
  induction fuel generalizing before cs with
  | nil => simp [characters] at h
  | cons d fuel ih =>
    rw [characters] at h
    obtain ⟨⟨next, behind⟩, hnext, hmore⟩ := bind_eq_ok_iff.mp h
    cases next with
    | none =>
      obtain ⟨_, rfl⟩ := Prod.mk.inj (Except.ok.inj hmore)
      obtain rfl := character_eq_none hnext
      refine ⟨by simp, fun more hlength ↦ ?_⟩
      cases more with
      | nil => simp at hlength
      | cons e more => rfl
    | some c =>
      obtain ⟨hshorter, hskim⟩ := ih hmore
      rcases skims_of_character hnext with hstep | ⟨between, hfirst, hsecond⟩
      · have hstepLength := hstep.2
        refine ⟨by omega, fun more hlength ↦ ?_⟩
        cases more with
        | nil => simp at hlength
        | cons e more =>
          rw [List.length_cons] at hlength
          rw [skimCharacters_of_skims hstep]
          exact hskim more (by omega)
      · have hfirstLength := hfirst.2
        have hsecondLength := hsecond.2
        refine ⟨by omega, fun more hlength ↦ ?_⟩
        match more with
        | [] => simp at hlength
        | [e] =>
          rw [List.length_singleton] at hlength
          omega
        | e :: f :: more =>
          rw [List.length_cons, List.length_cons] at hlength
          rw [skimCharacters_of_skims hfirst, skimCharacters_of_skims hsecond]
          exact hskim more (by omega)

theorem length_read {cs rest : List Char} {s : String} (h : read cs = .ok (s, rest)) :
    rest.length < cs.length := by
  obtain ⟨text, htext, _⟩ := bind_mapFst_eq_ok_iff.mp h
  exact (skimCharacters_of_characters htext).1

/-- What is read as a text can be passed over, to the same place. -/
theorem skim_of_read {cs rest : List Char} {s : String} (h : read cs = .ok (s, rest)) :
    skim cs = .ok rest := by
  obtain ⟨text, htext, _⟩ := bind_mapFst_eq_ok_iff.mp h
  exact (skimCharacters_of_characters htext).2 _ (by simp)

end ChangeDdl.Json.Quoted
