import ChangeDdl.Json.Skim
import ChangeDdl.Proofs.Json.Document
import ChangeDdl.Proofs.Json.Numeral
import ChangeDdl.Proofs.Json.Quoted

/-!
Passing over a value that could also be read. The skipper is laxer than the reader of values, and
where the reader succeeds the skipper stops at the same place (`skim_of_read`). Its fuel is the text
itself, which suffices because every reader returns a shorter text than it was given.
-/

set_option autoImplicit false
set_option relaxedAutoImplicit false

namespace ChangeDdl.Json

/-! ### Lengths -/

theorem length_word {letters cs rest : List Char} (h : word letters cs = .ok rest) :
    rest.length ≤ cs.length := by
  induction letters generalizing cs with
  | nil =>
    rw [word] at h
    exact Nat.le_of_eq (congrArg List.length (Except.ok.inj h).symm)
  | cons letter letters ih =>
    cases cs with
    | nil => simp [word] at h
    | cons c cs =>
      rw [word] at h
      split_ifs at h
      have hlength := ih h
      rw [List.length_cons]
      omega

theorem Scalar.Opens.length {cs rest : List Char} {s : Scalar} (h : Opens cs s rest) :
    rest.length < cs.length := by
  cases h with
  | null hword => exact Nat.lt_succ_of_le (length_word hword)
  | yes hword => exact Nat.lt_succ_of_le (length_word hword)
  | no hword => exact Nat.lt_succ_of_le (length_word hword)
  | text hread => exact Nat.lt_succ_of_lt (Quoted.length_read hread)
  | number _ hread => exact (Numeral.skim_of_read hread).2

theorem length_nextItem {first found : Bool} {cs rest : List Char}
    (h : nextItem first cs = .ok (found, rest)) : rest.length ≤ cs.length := by
  have hblanks := length_skipBlanks cs
  cases found with
  | false =>
    rw [nextItem_eq_false_iff.mp h, List.length_cons] at hblanks
    omega
  | true =>
    obtain ⟨c, behind, hskip, _, hnext⟩ := nextItem_eq_true h
    rw [hskip, List.length_cons] at hblanks
    have hbehind := length_skipBlanks behind
    split_ifs at hnext
    · rw [hnext, List.length_cons]
      omega
    · rw [hnext.2]
      omega

theorem length_memberKey {cs rest : List Char} {name : String}
    (h : memberKey cs = .ok (name, rest)) : rest.length ≤ cs.length := by
  obtain ⟨behind, rfl, hread⟩ := memberKey_eq_ok_iff.mp h
  have hlength := Quoted.length_read hread
  rw [List.length_cons]
  omega

theorem length_nextMember {first : Bool} {name : Option String} {cs rest : List Char}
    (h : nextMember first cs = .ok (name, rest)) : rest.length ≤ cs.length := by
  have hblanks := length_skipBlanks cs
  cases name with
  | none =>
    rw [nextMember_eq_none_iff.mp h, List.length_cons] at hblanks
    omega
  | some name =>
    obtain ⟨c, behind, hskip, _, hnext⟩ := nextMember_eq_some h
    rw [hskip, List.length_cons] at hblanks
    have hbehind := length_skipBlanks behind
    split_ifs at hnext
    · have hkey := length_memberKey hnext
      rw [List.length_cons] at hkey
      omega
    · have hkey := length_memberKey hnext.2
      omega

theorem length_colon {cs rest : List Char} (h : colon cs = .ok rest) :
    rest.length ≤ cs.length := by
  have hblanks := length_skipBlanks cs
  rw [colon_eq_ok_iff.mp h, List.length_cons] at hblanks
  omega

section Loops

variable {α : Type} {reader : Reader α} {first : Bool} {cs rest : List Char}

theorem ItemsRead.length {as : List α} (h : ItemsRead reader first cs as rest)
    (hreader : ∀ cs a rest, reader cs = .ok (a, rest) → rest.length ≤ cs.length) :
    rest.length ≤ cs.length := by
  induction h with
  | done hnext => exact length_nextItem hnext
  | more hnext hitem _ ih =>
    have htext := length_nextItem hnext
    have hbehind := hreader _ _ _ hitem
    omega

theorem MembersRead.length {as : List (String × α)} (h : MembersRead reader first cs as rest)
    (hreader : ∀ cs a rest, reader cs = .ok (a, rest) → rest.length ≤ cs.length) :
    rest.length ≤ cs.length := by
  induction h with
  | done hnext => exact length_nextMember hnext
  | more hnext hcolon hvalue _ ih =>
    have htext := length_nextMember hnext
    have hinside := length_colon hcolon
    have hbehind := hreader _ _ _ hvalue
    omega

end Loops

/-- A value takes at least one character. -/
theorem Value.length_read {depth : Nat} {cs rest : List Char} {v : Value}
    (h : read depth cs = .ok (v, rest)) : rest.length < cs.length := by
  induction depth using Nat.strongRecOn generalizing cs rest v with
  | ind depth ih =>
    have hblanks := length_skipBlanks cs
    have hinner : ∀ inner < depth, ∀ cs v rest, read inner cs = .ok (v, rest) →
        rest.length ≤ cs.length :=
      fun inner hless cs v rest h ↦ Nat.le_of_lt (ih inner hless h)
    cases read_eq_ok_iff.mp h with
    | scalar hscalar =>
      have hlength := hscalar.length
      omega
    | array hdepth hopen hitems _ =>
      have hlength := hitems.length (hinner _ (by omega))
      rw [hopen, List.length_cons] at hblanks
      omega
    | object hdepth hopen hmembers _ =>
      have hlength := hmembers.length (hinner _ (by omega))
      rw [hopen, List.length_cons] at hblanks
      omega

/-! ### Skimming -/

theorem skimScalar_of_opens {cs rest : List Char} {s : Scalar} (h : Scalar.Opens cs s rest) :
    skimScalar cs = .ok rest := by
  cases h with
  | null hword => exact hword
  | yes hword => exact hword
  | no hword => exact hword
  | text hread => exact Quoted.skim_of_read hread
  | number hc hread =>
    rw [skimScalar, if_pos hc]
    · exact (Numeral.skim_of_read hread).1
    all_goals exact ne_of_sign_or_digit hc (by decide) (by decide)

theorem skimWith_of_skipBlanks {fuel cs rest : List Char}
    (h : skimWith fuel (skipBlanks cs) = .ok rest) : skimWith fuel cs = .ok rest := by
  cases fuel with
  | nil => simp [skimWith] at h
  | cons c fuel => rwa [skimWith, skipBlanks_skipBlanks, ← skimWith] at h

section Loops

variable {α : Type} {reader : Reader α} {value : Skipper} {limit : Nat}

theorem skimItems_of_cons {first : Bool} {c d : Char} {fuel cs after : List Char}
    (hskip : skipBlanks cs = c :: after) (hc : c ≠ ']') :
    skimItems value (d :: fuel) first cs =
      if first then value (c :: after) >>= skimItems value fuel false
      else if c = ',' then value after >>= skimItems value fuel false
      else .error (.upon .expectedCommaOrBracket (c :: after)) := by
  rw [skimItems, hskip]
  split
  · rename_i hnil
    simp at hnil
  · rename_i heq
    exact absurd (List.cons.inj heq).1 hc
  · rename_i heq
    obtain ⟨rfl, rfl⟩ := List.cons.inj heq
    rfl

/-- The loops of the skipper keep up with those of the reader, if the skipper itself does on texts
below some length. -/
theorem skimItems_of_itemsRead {first : Bool} {fuel cs rest : List Char} {as : List α}
    (h : ItemsRead reader first cs as rest)
    (hreader : ∀ cs a rest, reader cs = .ok (a, rest) → rest.length ≤ cs.length)
    (hvalue : ∀ cs a rest, reader cs = .ok (a, rest) → cs.length < limit → value cs = .ok rest)
    (hblanks : ∀ cs rest, value (skipBlanks cs) = .ok rest → value cs = .ok rest)
    (hcs : cs.length < limit) (hfuel : as.length < fuel.length) :
    skimItems value fuel first cs = .ok rest := by
  induction h generalizing fuel with
  | done hnext =>
    cases fuel with
    | nil => simp at hfuel
    | cons d fuel =>
      rw [skimItems, nextItem_eq_false_iff.mp hnext]
      rfl
  | @more first cs text behind rest a as hnext hitem _ ih =>
    cases fuel with
    | nil => simp at hfuel
    | cons d fuel =>
      have htext := length_nextItem hnext
      have hbehind := hreader _ _ _ hitem
      have hskim := hvalue _ _ _ hitem (by omega)
      have hmore := ih (by omega) (Nat.lt_of_succ_lt_succ hfuel)
      obtain ⟨c, after, hskip, hc, hplace⟩ := nextItem_eq_true hnext
      rw [skimItems_of_cons hskip hc]
      split_ifs at hplace ⊢ with hfirst hcomma
      · rw [hplace] at hskim
        exact bind_eq_ok_iff.mpr ⟨_, hskim, hmore⟩
      · rw [hplace.2] at hskim
        exact bind_eq_ok_iff.mpr ⟨_, hblanks _ _ hskim, hmore⟩
      · exact absurd hplace.1 hcomma

theorem skimMember_of_memberKey {cs text inside rest : List Char} {name : String}
    (hkey : memberKey (skipBlanks cs) = .ok (name, text)) (hcolon : colon text = .ok inside)
    (hvalue : value inside = .ok rest) : skimMember value cs = .ok rest := by
  obtain ⟨behind, hskip, hread⟩ := memberKey_eq_ok_iff.mp hkey
  rw [skimMember, hskip]
  refine bind_eq_ok_iff.mpr ⟨text, Quoted.skim_of_read hread, ?_⟩
  exact bind_eq_ok_iff.mpr ⟨inside, hcolon, hvalue⟩

theorem skimMembers_of_cons {first : Bool} {c d : Char} {fuel cs after : List Char}
    (hskip : skipBlanks cs = c :: after) (hc : c ≠ '}') :
    skimMembers value (d :: fuel) first cs =
      if first then skimMember value (c :: after) >>= skimMembers value fuel false
      else if c = ',' then skimMember value after >>= skimMembers value fuel false
      else .error (.upon .expectedCommaOrBrace (c :: after)) := by
  rw [skimMembers, hskip]
  split
  · rename_i hnil
    simp at hnil
  · rename_i heq
    exact absurd (List.cons.inj heq).1 hc
  · rename_i heq
    obtain ⟨rfl, rfl⟩ := List.cons.inj heq
    rfl

theorem skimMembers_of_membersRead {first : Bool} {fuel cs rest : List Char}
    {as : List (String × α)} (h : MembersRead reader first cs as rest)
    (hreader : ∀ cs a rest, reader cs = .ok (a, rest) → rest.length ≤ cs.length)
    (hvalue : ∀ cs a rest, reader cs = .ok (a, rest) → cs.length < limit → value cs = .ok rest)
    (hcs : cs.length < limit) (hfuel : as.length < fuel.length) :
    skimMembers value fuel first cs = .ok rest := by
  induction h generalizing fuel with
  | done hnext =>
    cases fuel with
    | nil => simp at hfuel
    | cons d fuel =>
      rw [skimMembers, nextMember_eq_none_iff.mp hnext]
      rfl
  | @more first cs text inside behind rest name a as hnext hcolon hread _ ih =>
    cases fuel with
    | nil => simp at hfuel
    | cons d fuel =>
      have htext := length_nextMember hnext
      have hinside := length_colon hcolon
      have hbehind := hreader _ _ _ hread
      have hskim := hvalue _ _ _ hread (by omega)
      have hmore := ih (by omega) (Nat.lt_of_succ_lt_succ hfuel)
      obtain ⟨c, after, hskip, hc, hplace⟩ := nextMember_eq_some hnext
      rw [skimMembers_of_cons hskip hc]
      split_ifs at hplace ⊢ with hfirst hcomma
      · rw [← hskip, ← skipBlanks_skipBlanks] at hplace
        rw [← hskip]
        exact bind_eq_ok_iff.mpr ⟨_, skimMember_of_memberKey hplace hcolon hskim, hmore⟩
      · exact bind_eq_ok_iff.mpr ⟨_, skimMember_of_memberKey hplace.2 hcolon hskim, hmore⟩
      · exact absurd hplace.1 hcomma

end Loops

/-- A value that is read can be passed over with as much fuel as it has characters. -/
theorem skimWith_of_read {depth : Nat} {fuel cs rest : List Char} {v : Value}
    (h : Value.read depth cs = .ok (v, rest)) (hfuel : cs.length < fuel.length) :
    skimWith fuel cs = .ok rest := by
  induction depth using Nat.strongRecOn generalizing fuel cs rest v with
  | ind depth ih =>
    cases fuel with
    | nil => simp at hfuel
    | cons c fuel =>
      rw [List.length_cons] at hfuel
      have hblanks := length_skipBlanks cs
      have hreader : ∀ inner, ∀ cs v rest, Value.read inner cs = .ok (v, rest) →
          rest.length ≤ cs.length :=
        fun inner cs v rest h ↦ Nat.le_of_lt (Value.length_read h)
      have hvalue : ∀ inner < depth, ∀ cs v rest, Value.read inner cs = .ok (v, rest) →
          cs.length < fuel.length → skimWith fuel cs = .ok rest :=
        fun inner hless cs v rest h hlength ↦ ih inner hless h hlength
      cases Value.read_eq_ok_iff.mp h with
      | scalar hscalar =>
        rw [skimWith]
        split
        · rename_i hopen
          rw [hopen] at hscalar
          exact absurd rfl hscalar.head_ne.1
        · rename_i hopen
          rw [hopen] at hscalar
          exact absurd rfl hscalar.head_ne.2
        · exact skimScalar_of_opens hscalar
      | array hdepth hopen hitems hcount =>
        rw [hopen, List.length_cons] at hblanks
        rw [skimWith, hopen]
        exact skimItems_of_itemsRead hitems (hreader _) (hvalue _ (by omega))
          (fun cs rest ↦ skimWith_of_skipBlanks) (by omega) (by omega)
      | object hdepth hopen hmembers hcount =>
        rw [hopen, List.length_cons] at hblanks
        rw [skimWith, hopen]
        exact skimMembers_of_membersRead hmembers (hreader _) (hvalue _ (by omega))
          (by omega) (by omega)

/-- What is read as a value can be passed over, to the same place. -/
theorem skim_of_read {depth : Nat} {cs rest : List Char} {v : Value}
    (h : Value.read depth cs = .ok (v, rest)) : skim cs = .ok rest :=
  skimWith_of_read h (by simp)

end ChangeDdl.Json
