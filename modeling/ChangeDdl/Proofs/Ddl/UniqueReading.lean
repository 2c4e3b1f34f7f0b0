import ChangeDdl.Proofs.Ddl.Clauses
import Mathlib.Data.List.Infix

/-!
Reading a statement of the standard dialect back, piece by piece. Each lemma here takes two texts
that begin with pieces of one kind and are equal, and concludes that the pieces agree and that what
follows them is equal. Names end at their quote (`quotedChars_append_inj`); free text ends at the
end of its line, which nothing inside it can be (`freeText_append_inj`); a list of pieces is read
from its separators (`intercalate_append_inj`).
-/

set_option autoImplicit false
set_option relaxedAutoImplicit false

namespace ChangeDdl

/-! ### Where a piece ends -/

/-- A piece that avoids some characters ends where the first of them stands. -/
theorem append_inj_of_ends (stop : Char → Prop) {u v r s : List Char} (hu : ∀ c ∈ u, ¬ stop c)
    (hv : ∀ c ∈ v, ¬ stop c) (hr : ∀ c ∈ r.head?, stop c) (hs : ∀ c ∈ s.head?, stop c)
    (h : u ++ r = v ++ s) : u = v ∧ r = s := by
  induction u generalizing v with
  | nil =>
    cases v with
    | nil => exact ⟨rfl, h⟩
    | cons d v =>
      have hstop : stop d := hr d (by simp [show r = d :: (v ++ s) from h])
      exact absurd hstop (hv d List.mem_cons_self)
  | cons c u ih =>
    cases v with
    | nil =>
      have hstop : stop c := hs c (by simp [show s = c :: (u ++ r) from h.symm])
      exact absurd hstop (hu c List.mem_cons_self)
    | cons d v =>
      obtain ⟨rfl, htail⟩ := List.cons.inj h
      obtain ⟨rfl, hrest⟩ := ih (fun c hc ↦ hu c (List.mem_cons_of_mem _ hc))
        (fun c hc ↦ hv c (List.mem_cons_of_mem _ hc)) htail
      exact ⟨rfl, hrest⟩

/-- A word that first occurs behind two pieces occurs behind equal ones. -/
theorem append_inj_of_first {word u v r s : List Char}
    (hu : ¬ word <:+: u ++ word.dropLast) (hv : ¬ word <:+: v ++ word.dropLast)
    (h : u ++ (word ++ r) = v ++ (word ++ s)) : u = v ∧ r = s := by
  have hmiss : ∀ {u z r s : List Char}, ¬ word <:+: (u ++ z) ++ word.dropLast →
      word ++ r = z ++ (word ++ s) → z = [] := by
    intro u z r s hoccurs heq
    by_contra hz
    refine hoccurs ?_
    have hlength : word.length ≤ (z ++ word.dropLast).length := by
      have := List.length_pos_iff.mpr hz
      simp only [List.length_append, List.length_dropLast]
      omega
    have hprefix : z ++ word.dropLast <+: z ++ (word ++ s) := by
      rw [List.prefix_append_right_inj]
      exact (List.dropLast_prefix word).trans (List.prefix_append _ _)
    have hfront : word <+: z ++ word.dropLast :=
      List.prefix_of_prefix_length_le (heq ▸ List.prefix_append word r) hprefix hlength
    rw [List.append_assoc]
    exact hfront.isInfix.trans (List.suffix_append _ _).isInfix
  rcases List.append_eq_append_iff.mp h with ⟨z, rfl, hz⟩ | ⟨z, rfl, hz⟩
  · obtain rfl := hmiss hv hz
    exact ⟨(List.append_nil u).symm, List.append_cancel_left hz⟩
  · obtain rfl := hmiss hu hz
    exact ⟨List.append_nil v, (List.append_cancel_left hz).symm⟩

/-- An occurrence of a word does not reach over a character that the word lacks. -/
theorem infix_append_cons {word u v : List Char} {c : Char} (hc : c ∉ word)
    (h : word <:+: u ++ c :: v) : word <:+: u ∨ word <:+: v := by
  obtain ⟨before, after, h⟩ := h
  rw [List.append_assoc] at h
  rcases List.append_eq_append_iff.mp h with ⟨z, hz, hz'⟩ | ⟨z, rfl, hz⟩
  · rcases List.append_eq_append_iff.mp hz' with ⟨y, rfl, _⟩ | ⟨y, rfl, hy⟩
    · left
      exact ⟨before, y, by rw [hz, List.append_assoc]⟩
    · cases y with
      | nil =>
        left
        exact ⟨before, [], by simp [hz]⟩
      | cons d y =>
        have hd : c = d := (List.cons.inj hy).1
        exact absurd (by simp [hd]) hc
  · cases z with
    | nil =>
      cases word with
      | nil => exact Or.inl (List.nil_infix)
      | cons d word =>
        have hd : c = d := (List.cons.inj hz).1
        exact absurd (by simp [hd]) hc
    | cons d z =>
      right
      exact ⟨z, after, by rw [List.append_assoc]; exact ((List.cons.inj hz).2).symm⟩

/-- Pieces joined by a separator are read one after the other, if each can be read in front of
whatever may follow it and the separator cannot be taken for the end. -/
theorem intercalate_append_inj {α κ : Type} (key : α → κ) (Follows : List Char → Prop)
    {write : α → List Char} {separator : List Char} {as bs : List α} {r s : List Char}
    (hpiece : ∀ a ∈ as, ∀ b ∈ bs, ∀ r s, Follows r → Follows s →
      write a ++ r = write b ++ s → key a = key b ∧ r = s)
    (hmore : ∀ a r, Follows (separator ++ write a ++ r))
    (hr : Follows r) (hs : Follows s) (hend : ∀ t, separator ++ t ≠ r ∧ separator ++ t ≠ s)
    (has : as ≠ []) (hbs : bs ≠ [])
    (h : separator.intercalate (as.map write) ++ r = separator.intercalate (bs.map write) ++ s) :
    as.map key = bs.map key ∧ r = s := by
  have hfollows : ∀ (rest : List α) {r : List Char}, Follows r →
      Follows ((rest.map write).flatMap (fun next ↦ separator ++ next) ++ r) := by
    intro rest r hr
    cases rest with
    | nil => exact hr
    | cons a rest => simpa using hmore a ((rest.map write).flatMap (separator ++ ·) ++ r)
  obtain ⟨a, as, rfl⟩ := List.exists_cons_of_ne_nil has
  obtain ⟨b, bs, rfl⟩ := List.exists_cons_of_ne_nil hbs
  simp only [List.map_cons, intercalate_cons, List.append_assoc] at h
  clear has hbs
  induction as generalizing a b bs with
  | nil =>
    obtain ⟨hkey, hrest⟩ := hpiece a (by simp) b (by simp) _ _ hr (hfollows bs hs) h
    cases bs with
    | nil => exact ⟨by simp [hkey], hrest⟩
    | cons b' bs => exact absurd hrest.symm (by simpa using (hend _).1)
  | cons a' as ih =>
    obtain ⟨hkey, hrest⟩ :=
      hpiece a (by simp) b (by simp) _ _ (hfollows (a' :: as) hr) (hfollows bs hs) h
    cases bs with
    | nil => exact absurd hrest (by simpa using (hend _).2)
    | cons b' bs =>
      obtain ⟨hkeys, hend⟩ := ih a' b' bs
        (fun c hc d hd ↦ hpiece c (List.mem_cons_of_mem _ hc) d (List.mem_cons_of_mem _ hd))
        (by simpa using hrest)
      exact ⟨by rw [List.map_cons, hkey, hkeys, ← List.map_cons], hend⟩

/-! ### Names and free text -/

/-- Free text that stays on its line and in its statement. -/
def OneLine (text : String) : Prop := ∀ c ∈ text.toList, c ≠ '\n' ∧ c ≠ ';'

instance (text : String) : Decidable (OneLine text) := List.decidableBAll _ _

/-- The rest of a text at the end of a line or of a statement. -/
def EndsLine (rest : List Char) : Prop := ∀ c ∈ rest.head?, c = '\n' ∨ c = ';'

theorem quotedChars_append_inj {first second : String} {r s : List Char} (hfirst : Unquoted first)
    (hsecond : Unquoted second) (h : quotedChars first ++ r = quotedChars second ++ s) :
    first = second ∧ r = s := by
  have hchars : first.toList ++ '"' :: r = second.toList ++ '"' :: s := by
    simpa [quotedChars] using h
  obtain ⟨hname, hrest⟩ := append_inj_of_ends (· = '"') (fun c hc heq ↦ hfirst (heq ▸ hc))
    (fun c hc heq ↦ hsecond (heq ▸ hc)) (by simp) (by simp) hchars
  exact ⟨String.toList_inj.mp hname, (List.cons.inj hrest).2⟩

/-- Quoted names in a list, up to its closing bracket. -/
theorem quotedNames_append_inj {first second : List String} {r s : List Char}
    (hfirst : ∀ name ∈ first, Unquoted name) (hsecond : ∀ name ∈ second, Unquoted name)
    (hfirstNil : first ≠ []) (hsecondNil : second ≠ [])
    (h : [',', ' '].intercalate (first.map quotedChars) ++ ')' :: r =
      [',', ' '].intercalate (second.map quotedChars) ++ ')' :: s) : first = second ∧ r = s := by
  obtain ⟨hnames, hrest⟩ := intercalate_append_inj id (fun _ ↦ True)
    (fun a ha b hb _ _ _ _ h ↦ quotedChars_append_inj (hfirst a ha) (hsecond b hb) h)
    (fun _ _ ↦ trivial) trivial trivial (by simp) hfirstNil hsecondNil h
  exact ⟨by simpa using hnames, (List.cons.inj hrest).2⟩

/-- Free text and the character behind it, up to the end of the line. -/
theorem freeText_append_inj {u v r s : List Char} {x y : Char}
    (hu : ∀ c ∈ u, c ≠ '\n' ∧ c ≠ ';') (hv : ∀ c ∈ v, c ≠ '\n' ∧ c ≠ ';')
    (hx : x ≠ '\n' ∧ x ≠ ';') (hy : y ≠ '\n' ∧ y ≠ ';') (hr : EndsLine r) (hs : EndsLine s)
    (h : u ++ x :: r = v ++ y :: s) : u = v ∧ x = y ∧ r = s := by
  have hinside : ∀ {w : List Char} {z : Char}, (∀ c ∈ w, c ≠ '\n' ∧ c ≠ ';') →
      z ≠ '\n' ∧ z ≠ ';' → ∀ c ∈ w ++ [z], ¬ (c = '\n' ∨ c = ';') := by
    intro w z hw hz c hc
    rw [not_or]
    rcases List.mem_append.mp hc with hc | hc
    · exact hw c hc
    · rwa [List.mem_singleton.mp hc]
  obtain ⟨htext, hrest⟩ := append_inj_of_ends (fun c ↦ c = '\n' ∨ c = ';')
    (hinside hu hx) (hinside hv hy) hr hs (by simpa using h)
  obtain ⟨huv, hxy⟩ := List.append_inj' htext rfl
  exact ⟨huv, by simpa using hxy, hrest⟩

/-! ### Column specs -/

theorem specChars_append_inj {composite : Bool} {first second : String} {r s : List Char}
    (hfirst : Unquoted first) (hsecond : Unquoted second)
    (h : specChars composite first ++ ')' :: r = specChars composite second ++ ')' :: s) :
    first = second ∧ r = s := by
  unfold specChars at h
  cases composite with
  | false =>
    obtain ⟨hname, hrest⟩ := quotedChars_append_inj hfirst hsecond h
    exact ⟨hname, (List.cons.inj hrest).2⟩
  | true =>
    obtain ⟨hnames, hrest⟩ := quotedNames_append_inj
      (fun name hname hquote ↦ hfirst (ColumnSpec.mem_of_mem_names hname hquote))
      (fun name hname hquote ↦ hsecond (ColumnSpec.mem_of_mem_names hname hquote))
      (ColumnSpec.names_ne_nil first) (ColumnSpec.names_ne_nil second) h
    exact ⟨ColumnSpec.names_injective hnames, hrest⟩

/-! ### Columns -/

/-- A column whose type, length, default and nullability can be told apart. -/
structure Column.Readable (c : Column) : Prop where
  name : Unquoted c.name
  type_oneLine : OneLine c.typeName
  type_bracket : '(' ∉ c.typeName.toList
  type_default : ¬ "DEFAULT".toList <:+: c.typeName.toList
  type_null : ¬ "NULL".toList <:+: c.typeName.toList
  default_oneLine : ∀ e ∈ c.defaultExpression, OneLine e
  default_notNull : ∀ e ∈ c.defaultExpression, ¬ " NOT NULL".toList <:+ e.toList

instance (c : Column) : Decidable c.Readable :=
  decidable_of_iff (Unquoted c.name ∧ OneLine c.typeName ∧ '(' ∉ c.typeName.toList ∧
      ¬ "DEFAULT".toList <:+: c.typeName.toList ∧ ¬ "NULL".toList <:+: c.typeName.toList ∧
      (∀ e ∈ c.defaultExpression, OneLine e) ∧
      ∀ e ∈ c.defaultExpression, ¬ " NOT NULL".toList <:+ e.toList)
    ⟨fun ⟨h₁, h₂, h₃, h₄, h₅, h₆, h₇⟩ ↦ ⟨h₁, h₂, h₃, h₄, h₅, h₆, h₇⟩,
      fun ⟨h₁, h₂, h₃, h₄, h₅, h₆, h₇⟩ ↦ ⟨h₁, h₂, h₃, h₄, h₅, h₆, h₇⟩⟩

namespace Column

theorem toInt_pos_of_normal {c : Column} {n : Int32} (h : c.normal.length = some n) :
    0 < n.toInt := by
  obtain ⟨_, hn⟩ := Option.filter_eq_some_iff.mp h
  have hpos : (0 : Int32) < n := by simpa using hn
  simpa using Int32.lt_iff_toInt_lt.mp hpos

/-- The length adds no occurrence of a word to a type. -/
theorem not_infix_type_length {c : Column} {word : List Char}
    (hword : ¬ word <:+: c.typeName.toList) (hletter : ∃ x ∈ word, x ≠ ')' ∧ x.isDigit = false)
    (hbracket : '(' ∉ word) : ¬ word <:+: c.typeName.toList ++ c.lengthText.toList := by
  intro hoccurs
  rw [toList_lengthText] at hoccurs
  cases hlength : c.normal.length with
  | none => exact hword (by simpa [hlength] using hoccurs)
  | some n =>
    rw [hlength, Option.elim_some] at hoccurs
    rcases infix_append_cons hbracket hoccurs with hoccurs | hoccurs
    · exact hword hoccurs
    · obtain ⟨x, hx, hne, hdigit⟩ := hletter
      rcases List.mem_append.mp (hoccurs.subset hx) with hmem | hmem
      · have := Nat.isDigit_of_mem_toDigits (by decide) (by decide) hmem
        simp [hdigit] at this
      · exact hne (List.mem_singleton.mp hmem)

theorem type_length_inj {c d : Column} (hc : c.Readable) (hd : d.Readable)
    (h : c.typeName.toList ++ c.lengthText.toList = d.typeName.toList ++ d.lengthText.toList) :
    c.typeName = d.typeName ∧ c.normal.length = d.normal.length := by
  have hends : ∀ c : Column, ∀ x ∈ c.lengthText.toList.head?, x = '(' := by
    intro c x hx
    rw [toList_lengthText] at hx
    cases hlength : c.normal.length with
    | none => simp [hlength] at hx
    | some n => simpa [hlength, eq_comm] using hx
  obtain ⟨htype, hlength⟩ := append_inj_of_ends (· = '(')
    (fun x hx heq ↦ hc.type_bracket (heq ▸ hx)) (fun x hx heq ↦ hd.type_bracket (heq ▸ hx))
    (hends c) (hends d) h
  refine ⟨String.toList_inj.mp htype, ?_⟩
  rw [toList_lengthText, toList_lengthText] at hlength
  cases hlengthC : c.normal.length with
  | none => cases hlengthD : d.normal.length <;> simp_all
  | some n =>
    cases hlengthD : d.normal.length with
    | none => simp_all
    | some m =>
      simp only [hlengthC, hlengthD, Option.elim_some, List.cons.injEq, List.append_cancel_right_eq,
        true_and] at hlength
      have habs : n.toInt.natAbs = m.toInt.natAbs := by
        rw [← Nat.ofDigitChars_ten_toDigits (n := n.toInt.natAbs), hlength,
          Nat.ofDigitChars_ten_toDigits]
      have hn := toInt_pos_of_normal hlengthC
      have hm := toInt_pos_of_normal hlengthD
      rw [Int32.toInt_inj.mp (by omega : n.toInt = m.toInt)]

/-- The default is there exactly when its keyword is. -/
theorem default_infix_tailChars_iff {c : Column} (hc : c.Readable) :
    "DEFAULT".toList <:+: c.tailChars ↔ c.normal.defaultExpression.isSome := by
  have htype := not_infix_type_length hc.type_default ⟨'D', by simp, by decide⟩ (by decide)
  cases hdefault : c.normal.defaultExpression with
  | some e =>
    simp only [Option.isSome_some, iff_true]
    refine ⟨c.typeName.toList ++ c.lengthText.toList ++ [' '],
      ' ' :: (e.toList ++ c.nullabilityText.toList), ?_⟩
    simp [tailChars, toList_defaultText, hdefault]
  | none =>
    simp only [Option.isSome_none, Bool.false_eq_true, iff_false]
    intro hoccurs
    rw [tailChars, toList_defaultText, hdefault, toList_nullabilityText, Option.elim_none,
      List.nil_append, ← List.append_assoc] at hoccurs
    split_ifs at hoccurs
    · exact htype (by simpa using hoccurs)
    · have hspace : " NOT NULL".toList = ' ' :: "NOT NULL".toList := by simp
      rw [hspace] at hoccurs
      rcases infix_append_cons (by decide) hoccurs with hoccurs | hoccurs
      · exact htype hoccurs
      · simp [List.infix_cons_iff] at hoccurs

/-- A default and the nullability behind it, which no default ends with. -/
theorem default_nullability_inj {c d : Column} {e f : String} (hc : c.Readable) (hd : d.Readable)
    (he : c.normal.defaultExpression = some e) (hf : d.normal.defaultExpression = some f)
    (h : e.toList ++ c.nullabilityText.toList = f.toList ++ d.nullabilityText.toList) :
    e = f ∧ c.optional = d.optional := by
  have hdefaultC := hc.default_notNull e (Option.filter_eq_some_iff.mp he).1
  have hdefaultD := hd.default_notNull f (Option.filter_eq_some_iff.mp hf).1
  rw [toList_nullabilityText, toList_nullabilityText] at h
  cases hoptC : c.optional <;> cases hoptD : d.optional <;>
    simp only [hoptC, hoptD, if_true, if_false, Bool.false_eq_true, List.append_nil] at h
  · exact ⟨String.toList_inj.mp (List.append_cancel_right h), rfl⟩
  · exact absurd ⟨_, h⟩ hdefaultD
  · exact absurd ⟨_, h.symm⟩ hdefaultC
  · exact ⟨String.toList_inj.mp h, rfl⟩

/-- A type, its length and the nullability behind it, whose keyword is in no type. -/
theorem type_nullability_inj {c d : Column} (hc : c.Readable) (hd : d.Readable)
    (h : c.typeName.toList ++ c.lengthText.toList ++ c.nullabilityText.toList =
      d.typeName.toList ++ d.lengthText.toList ++ d.nullabilityText.toList) :
    c.typeName.toList ++ c.lengthText.toList = d.typeName.toList ++ d.lengthText.toList ∧
      c.optional = d.optional := by
  have hmissing : ∀ {c : Column}, c.Readable → ∀ before : List Char,
      c.typeName.toList ++ c.lengthText.toList ≠ before ++ " NOT NULL".toList := by
    intro c hc before heq
    refine not_infix_type_length hc.type_null ⟨'N', by simp, by decide⟩ (by decide) ?_
    rw [heq]
    exact ⟨before ++ " NOT ".toList, [], by simp⟩
  rw [toList_nullabilityText, toList_nullabilityText] at h
  cases hoptC : c.optional <;> cases hoptD : d.optional <;>
    simp only [hoptC, hoptD, if_true, if_false, Bool.false_eq_true, List.append_nil] at h
  · exact ⟨List.append_cancel_right h, rfl⟩
  · exact absurd h.symm (hmissing hd _)
  · exact absurd h (hmissing hc _)
  · exact ⟨h, rfl⟩

/-- What stands behind the name of a column determines everything that is written of it. -/
theorem tailChars_inj {c d : Column} (hc : c.Readable) (hd : d.Readable)
    (h : c.tailChars = d.tailChars) :
    c.typeName = d.typeName ∧ c.normal.length = d.normal.length ∧
      c.normal.defaultExpression = d.normal.defaultExpression ∧ c.optional = d.optional := by
  have hsome : c.normal.defaultExpression.isSome ↔ d.normal.defaultExpression.isSome := by
    rw [← default_infix_tailChars_iff hc, h, default_infix_tailChars_iff hd]
  cases hdefaultC : c.normal.defaultExpression with
  | none =>
    cases hdefaultD : d.normal.defaultExpression with
    | some f => simp [hdefaultC, hdefaultD] at hsome
    | none =>
      rw [tailChars, tailChars, toList_defaultText, toList_defaultText, hdefaultC, hdefaultD,
        Option.elim_none, List.nil_append, List.nil_append, ← List.append_assoc,
        ← List.append_assoc] at h
      obtain ⟨hfront, hoptional⟩ := type_nullability_inj hc hd h
      obtain ⟨htype, hlength⟩ := type_length_inj hc hd hfront
      exact ⟨htype, hlength, rfl, hoptional⟩
  | some e =>
    cases hdefaultD : d.normal.defaultExpression with
    | none => simp [hdefaultC, hdefaultD] at hsome
    | some f =>
      have hfirst : ∀ {c : Column}, c.Readable → ¬ "DEFAULT".toList <:+:
          (c.typeName.toList ++ c.lengthText.toList ++ [' ']) ++ "DEFAULT".toList.dropLast := by
        intro c hc hoccurs
        rw [List.append_assoc, List.singleton_append] at hoccurs
        rcases infix_append_cons (by decide) hoccurs with hoccurs | hoccurs
        · exact not_infix_type_length hc.type_default ⟨'D', by simp, by decide⟩ (by decide) hoccurs
        · simp [List.infix_cons_iff] at hoccurs
      have hsplit : ∀ {c : Column} {e : String}, c.normal.defaultExpression = some e →
          c.tailChars = (c.typeName.toList ++ c.lengthText.toList ++ [' ']) ++
            ("DEFAULT".toList ++ ' ' :: (e.toList ++ c.nullabilityText.toList)) := by
        intro c e he
        simp [tailChars, toList_defaultText, he]
      rw [hsplit hdefaultC, hsplit hdefaultD] at h
      obtain ⟨hfront, hrest⟩ := append_inj_of_first (hfirst hc) (hfirst hd) h
      obtain ⟨htype, hlength⟩ := type_length_inj hc hd (List.append_cancel_right hfront)
      obtain ⟨rfl, hoptional⟩ := default_nullability_inj hc hd hdefaultC hdefaultD
        (List.cons.inj hrest).2
      exact ⟨htype, hlength, rfl, hoptional⟩

/-- A readable column stays on its line. -/
theorem mem_tailChars {c : Column} (hc : c.Readable) {x : Char} (hx : x ∈ c.tailChars) :
    x ≠ '\n' ∧ x ≠ ';' := by
  simp only [tailChars, List.mem_append] at hx
  rcases hx with hx | hx | hx | hx
  · exact hc.type_oneLine x hx
  · rcases mem_lengthText hx with rfl | rfl | hdigit
    · decide
    · decide
    · exact ⟨fun h ↦ by simp [h] at hdigit, fun h ↦ by simp [h] at hdigit⟩
  · rw [toList_defaultText] at hx
    cases hdefault : c.normal.defaultExpression with
    | none => simp [hdefault] at hx
    | some e =>
      rw [hdefault, Option.elim_some, List.mem_append] at hx
      rcases hx with hx | hx
      · refine ⟨fun h ↦ ?_, fun h ↦ ?_⟩ <;> simp [h] at hx
      · exact hc.default_oneLine e (Option.filter_eq_some_iff.mp hdefault).1 x hx
  · rw [toList_nullabilityText] at hx
    split_ifs at hx
    · simp at hx
    · refine ⟨fun h ↦ ?_, fun h ↦ ?_⟩ <;> simp [h] at hx

end Column

/-! ### Clauses -/

namespace Clause

/-- A clause whose parts can be told apart. -/
def Readable : Clause → Prop := Clause.Admissible Column.Readable OneLine

/-- A clause as it is written. -/
def normal : Clause → Clause
  | column c => column c.normal
  | clause => clause

/-- What stands behind a clause: a comma or the closing bracket, and there the line or the
statement ends. -/
def Follows (rest : List Char) : Prop :=
  ∃ x r, rest = x :: r ∧ (x = ',' ∨ x = ')') ∧ EndsLine r

theorem constraint_append_inj {first second : String} {r s : List Char} (hfirst : Unquoted first)
    (hsecond : Unquoted second)
    (h : "\n\tCONSTRAINT ".toList ++ (quotedChars first ++ r) =
      "\n\tCONSTRAINT ".toList ++ (quotedChars second ++ s)) : first = second ∧ r = s :=
  quotedChars_append_inj hfirst hsecond (List.append_cancel_left h)

theorem column_append_inj {c d : Column} (hc : c.Readable) (hd : d.Readable) {r s : List Char}
    (hr : Follows r) (hs : Follows s) (h : (column c).chars ++ r = (column d).chars ++ s) :
    c.normal = d.normal ∧ r = s := by
  obtain ⟨x, r, rfl, hx, hr⟩ := hr
  obtain ⟨y, s, rfl, hy, hs⟩ := hs
  have hseparator : ∀ x : Char, x = ',' ∨ x = ')' → x ≠ '\n' ∧ x ≠ ';' := by
    rintro x (rfl | rfl) <;> decide
  simp only [chars_column, List.cons_append, List.append_assoc, List.cons.injEq, true_and] at h
  obtain ⟨hname, h⟩ := quotedChars_append_inj hc.name hd.name h
  obtain ⟨htail, hxy, hrest⟩ := freeText_append_inj (fun _ ↦ Column.mem_tailChars hc)
    (fun _ ↦ Column.mem_tailChars hd) (hseparator x hx) (hseparator y hy) hr hs (List.cons.inj h).2
  obtain ⟨htype, hlength, hdefault, hoptional⟩ := Column.tailChars_inj hc hd htail
  refine ⟨?_, by rw [hxy, hrest]⟩
  simp only [Column.normal] at hlength hdefault ⊢
  rw [hname, htype, hlength, hdefault, hoptional]

theorem primaryKey_append_inj {names others : List String} (hnames : (primaryKey names).Readable)
    (hothers : (primaryKey others).Readable) {r s : List Char}
    (h : (primaryKey names).chars ++ r = (primaryKey others).chars ++ s) :
    names = others ∧ r = s := by
  simp only [chars_primaryKey, List.append_assoc, List.cons_append, List.nil_append] at h
  obtain ⟨hlist, hrest⟩ := quotedNames_append_inj hnames.2 hothers.2 hnames.1 hothers.1
    (List.append_cancel_left h)
  exact ⟨hlist, (List.cons.inj hrest).2⟩

theorem unique_append_inj {u v : UniqueConstraint} (hu : (unique u).Readable)
    (hv : (unique v).Readable) {r s : List Char}
    (h : (unique u).chars ++ r = (unique v).chars ++ s) : u = v ∧ r = s := by
  simp only [chars_unique, List.append_assoc, List.cons_append, List.nil_append] at h
  obtain ⟨hname, h⟩ := constraint_append_inj hu.1 hv.1 h
  obtain ⟨hcolumn, h⟩ := quotedChars_append_inj hu.2 hv.2 (List.append_cancel_left h)
  refine ⟨?_, (List.cons.inj h).2⟩
  cases u
  cases v
  simp_all

theorem check_append_inj {c d : CheckConstraint} (hc : (check c).Readable)
    (hd : (check d).Readable) {r s : List Char} (hr : Follows r) (hs : Follows s)
    (h : (check c).chars ++ r = (check d).chars ++ s) : c = d ∧ r = s := by
  obtain ⟨x, r, rfl, hx, hr⟩ := hr
  obtain ⟨y, s, rfl, hy, hs⟩ := hs
  have hbehind : ∀ {e : CheckConstraint}, OneLine e.condition →
      ∀ z ∈ e.condition.toList ++ [')'], z ≠ '\n' ∧ z ≠ ';' := by
    intro e he z hz
    rcases List.mem_append.mp hz with hz | hz
    · exact he z hz
    · rw [List.mem_singleton.mp hz]
      decide
  simp only [chars_check, List.append_assoc] at h
  obtain ⟨hname, h⟩ := constraint_append_inj hc.1 hd.1 h
  have h := List.append_cancel_left h
  simp only [← List.append_assoc] at h
  obtain ⟨hcondition, hxy, hrest⟩ := freeText_append_inj (hbehind hc.2) (hbehind hd.2)
    (by rcases hx with rfl | rfl <;> decide) (by rcases hy with rfl | rfl <;> decide) hr hs h
  have hcondition := String.toList_inj.mp (List.append_cancel_right hcondition)
  refine ⟨?_, by rw [hxy, hrest]⟩
  cases c
  cases d
  simp_all

theorem foreignKey_append_inj {k l : ForeignKey} (hk : (foreignKey k).Readable)
    (hl : (foreignKey l).Readable) {r s : List Char}
    (h : (foreignKey k).chars ++ r = (foreignKey l).chars ++ s) : k = l ∧ r = s := by
  obtain ⟨hkName, hkColumns, hkSchema, hkTable, hkReferenced⟩ := hk
  obtain ⟨hlName, hlColumns, hlSchema, hlTable, hlReferenced⟩ := hl
  simp only [chars_foreignKey, List.append_assoc, List.cons_append, List.nil_append] at h
  obtain ⟨hname, h⟩ := constraint_append_inj hkName hlName h
  have hbracket : ") REFERENCES ".toList = ')' :: " REFERENCES ".toList := by simp
  rw [hbracket, List.cons_append] at h
  obtain ⟨hcolumns, h⟩ :=
    specChars_append_inj hkColumns hlColumns (List.append_cancel_left h)
  obtain ⟨hschema, h⟩ := quotedChars_append_inj hkSchema hlSchema (List.append_cancel_left h)
  obtain ⟨htable, h⟩ := quotedChars_append_inj hkTable hlTable (List.cons.inj h).2
  rw [hcolumns] at h
  obtain ⟨hreferenced, h⟩ :=
    specChars_append_inj hkReferenced hlReferenced (List.append_cancel_left h)
  refine ⟨?_, h⟩
  cases k
  cases l
  simp_all

theorem unique_chars_ne_check {u : UniqueConstraint} {c : CheckConstraint}
    (hu : (unique u).Readable) (hc : (check c).Readable) {r s : List Char} :
    (unique u).chars ++ r ≠ (check c).chars ++ s := by
  intro h
  simp only [chars_unique, chars_check, List.append_assoc] at h
  simpa using (constraint_append_inj hu.1 hc.1 h).2

theorem unique_chars_ne_foreignKey {u : UniqueConstraint} {k : ForeignKey}
    (hu : (unique u).Readable) (hk : (foreignKey k).Readable) {r s : List Char} :
    (unique u).chars ++ r ≠ (foreignKey k).chars ++ s := by
  intro h
  simp only [chars_unique, chars_foreignKey, List.append_assoc] at h
  simpa using (constraint_append_inj hu.1 hk.1 h).2

theorem check_chars_ne_foreignKey {c : CheckConstraint} {k : ForeignKey}
    (hc : (check c).Readable) (hk : (foreignKey k).Readable) {r s : List Char} :
    (check c).chars ++ r ≠ (foreignKey k).chars ++ s := by
  intro h
  simp only [chars_check, chars_foreignKey, List.append_assoc] at h
  simpa using (constraint_append_inj hc.1 hk.1 h).2

/-- A clause shows its kind and, in front of anything that may follow it, its content. -/
theorem chars_append_inj {a b : Clause} (ha : a.Readable) (hb : b.Readable) {r s : List Char}
    (hr : Follows r) (hs : Follows s) (h : a.chars ++ r = b.chars ++ s) :
    a.normal = b.normal ∧ r = s := by
  cases a with
  | column c =>
    cases b with
    | column d =>
      obtain ⟨hcolumn, hrest⟩ := column_append_inj ha hb hr hs h
      exact ⟨congrArg column hcolumn, hrest⟩
    | _ =>
      simp [chars_column, chars_primaryKey, chars_unique, chars_check, chars_foreignKey,
        quotedChars] at h
  | primaryKey names =>
    cases b with
    | primaryKey others =>
      obtain ⟨rfl, hrest⟩ := primaryKey_append_inj ha hb h
      exact ⟨rfl, hrest⟩
    | _ =>
      simp [chars_column, chars_primaryKey, chars_unique, chars_check, chars_foreignKey,
        quotedChars] at h
  | unique u =>
    cases b with
    | unique v =>
      obtain ⟨rfl, hrest⟩ := unique_append_inj ha hb h
      exact ⟨rfl, hrest⟩
    | check d => exact absurd h (unique_chars_ne_check ha hb)
    | foreignKey l => exact absurd h (unique_chars_ne_foreignKey ha hb)
    | _ => simp [chars_column, chars_primaryKey, chars_unique, quotedChars] at h
  | check c =>
    cases b with
    | check d =>
      obtain ⟨rfl, hrest⟩ := check_append_inj ha hb hr hs h
      exact ⟨rfl, hrest⟩
    | unique v => exact absurd h.symm (unique_chars_ne_check hb ha)
    | foreignKey l => exact absurd h (check_chars_ne_foreignKey ha hb)
    | _ => simp [chars_column, chars_primaryKey, chars_check, quotedChars] at h
  | foreignKey k =>
    cases b with
    | foreignKey l =>
      obtain ⟨rfl, hrest⟩ := foreignKey_append_inj ha hb h
      exact ⟨rfl, hrest⟩
    | unique v => exact absurd h.symm (unique_chars_ne_foreignKey hb ha)
    | check d => exact absurd h.symm (check_chars_ne_foreignKey hb ha)
    | _ => simp [chars_column, chars_primaryKey, chars_foreignKey, quotedChars] at h

/-- The clauses of a statement are read one after the other up to its closing bracket. -/
theorem intercalate_chars_append_inj {as bs : List Clause} (has : ∀ a ∈ as, a.Readable)
    (hbs : ∀ b ∈ bs, b.Readable) {r s : List Char} (hr : EndsLine r) (hs : EndsLine s)
    (h : [','].intercalate (as.map chars) ++ ')' :: r =
      [','].intercalate (bs.map chars) ++ ')' :: s) :
    as.map normal = bs.map normal ∧ r = s := by
  have hfirst : ∀ (a : Clause) (rest : List Clause) (r s : List Char),
      ')' :: r ≠ [','].intercalate ((a :: rest).map chars) ++ s := by
    intro a rest r s heq
    obtain ⟨behind, hchars⟩ := chars_eq_newline a
    rw [List.map_cons, intercalate_cons, hchars] at heq
    simp at heq
  by_cases hasNil : as = []
  · subst hasNil
    cases bs with
    | nil => exact ⟨rfl, by simpa using h⟩
    | cons b rest => exact absurd (by simpa using h) (hfirst b rest r (')' :: s))
  · by_cases hbsNil : bs = []
    · obtain ⟨a, rest, rfl⟩ := List.exists_cons_of_ne_nil hasNil
      exact absurd (by simpa [hbsNil] using h.symm) (hfirst a rest s (')' :: r))
    · obtain ⟨hclauses, hrest⟩ := intercalate_append_inj normal Follows
        (fun a ha b hb _ _ ↦ chars_append_inj (has a ha) (hbs b hb))
        (fun a r ↦ ⟨',', a.chars ++ r, rfl, Or.inl rfl, by
          obtain ⟨behind, hchars⟩ := chars_eq_newline a
          simp [EndsLine, hchars]⟩)
        ⟨')', r, rfl, Or.inr rfl, hr⟩ ⟨')', s, rfl, Or.inr rfl, hs⟩ (by simp) hasNil hbsNil h
      exact ⟨hclauses, (List.cons.inj hrest).2⟩

end Clause

end ChangeDdl
