import ChangeDdl.Proofs.Json.Extension

/-!
Values and texts with a gap. A gap is a place in a value, given by everything around it; its texts
are pairs of what stands in front of the place and what stands behind it (`Gap.Around`). The texts
of a value with a scalar in the gap are those of the scalar, put between such a pair
(`Gap.Around.parse_fill`, `Gap.exists_around_of_parse`). A reader that gets through the whole text
has got through what was put there (`Gap.Around.exists_read`), so what no reader can read makes the
whole unreadable.
-/

set_option autoImplicit false
set_option relaxedAutoImplicit false

namespace ChangeDdl.Json

open Numeral (Delimited)

/-- A place in a value. -/
inductive Gap where
  | here
  | item (before : List Value) (gap : Gap) (after : List Value)
  | member (before : Members) (key : String) (gap : Gap) (after : Members)

namespace Gap

/-- The value with another value in this place. -/
def fill : Gap → Value → Value
  | here, v => v
  | item before gap after, v => .array (before ++ gap.fill v :: after)
  | member before key gap after, v => .object (before ++ (key, gap.fill v) :: after)

/-- A place in a value that itself stands in a gap. -/
def comp : Gap → Gap → Gap
  | here, inner => inner
  | item before gap after, inner => item before (gap.comp inner) after
  | member before key gap after, inner => member before key (gap.comp inner) after

theorem fill_comp (outer inner : Gap) (v : Value) :
    (outer.comp inner).fill v = outer.fill (inner.fill v) := by
  induction outer with
  | here => rfl
  | item before gap after ih => rw [comp, fill, fill, ih]
  | member before key gap after ih => rw [comp, fill, fill, ih]

/-- A value that has a text wherever another has one can replace it. -/
theorem spellable_fill (gap : Gap) {v w : Value} {depth : Nat}
    (h : ∀ {depth : Nat}, w.Spellable depth → v.Spellable depth)
    (hw : (gap.fill w).Spellable depth) : (gap.fill v).Spellable depth := by
  induction gap generalizing depth with
  | here => exact h hw
  | item before gap after ih => exact hw.array_replace ih
  | member before key gap after ih => exact hw.object_replace ih

end Gap

/-! ### Pieces around a gap -/

section Pieces

variable {α : Type}

/-- Pieces with a comma behind each of them. -/
inductive Leading (piece : List Char → α → Prop) : List Char → List α → Prop where
  | nil : Leading piece [] []
  | cons {cs rest : List Char} {a : α} {as : List α} (hpiece : piece cs a)
    (hmore : Leading piece rest as) : Leading piece (cs ++ ',' :: rest) (a :: as)

/-- Pieces with a comma in front of each of them. -/
inductive Trailing (piece : List Char → α → Prop) : List Char → List α → Prop where
  | nil : Trailing piece [] []
  | cons {cs rest : List Char} {a : α} {as : List α} (hpiece : piece cs a)
    (hmore : Trailing piece rest as) : Trailing piece (',' :: (cs ++ rest)) (a :: as)

variable {piece : List Char → α → Prop} {lead trail cs : List Char} {before after : List α} {a : α}

theorem Trailing.sequence (h : Trailing piece trail after) (hpiece : piece cs a) :
    Sequence piece (cs ++ trail) (a :: after) := by
  induction h generalizing cs a with
  | nil =>
    rw [List.append_nil]
    exact .one hpiece
  | cons hnext _ ih => exact .more hpiece (ih hnext)

theorem Leading.sequence {as : List α} (h : Leading piece lead before)
    (hsequence : Sequence piece cs as) : Sequence piece (lead ++ cs) (before ++ as) := by
  induction h with
  | nil => exact hsequence
  | cons hpiece _ ih =>
    rw [List.append_assoc, List.cons_append]
    exact .more hpiece ih

/-- A piece between those around it. -/
theorem contents_of_around (hlead : Leading piece lead before) (hpiece : piece cs a)
    (htrail : Trailing piece trail after) :
    Contents piece (lead ++ (cs ++ trail)) (before ++ a :: after) :=
  Or.inr (hlead.sequence (htrail.sequence hpiece))

theorem Sequence.exists_trailing (h : Sequence piece cs (a :: after)) :
    ∃ inside trail, cs = inside ++ trail ∧ piece inside a ∧ Trailing piece trail after := by
  induction after generalizing cs a with
  | nil =>
    cases h with
    | one hpiece => exact ⟨cs, [], (List.append_nil cs).symm, hpiece, .nil⟩
    | more _ hmore => cases hmore
  | cons b after ih =>
    cases h with
    | more hpiece hmore =>
      obtain ⟨inside, trail, rfl, hnext, htrail⟩ := ih hmore
      exact ⟨_, _, rfl, hpiece, .cons hnext htrail⟩

theorem Sequence.exists_around (h : Sequence piece cs (before ++ a :: after)) :
    ∃ lead inside trail, cs = lead ++ (inside ++ trail) ∧ Leading piece lead before ∧
      piece inside a ∧ Trailing piece trail after := by
  induction before generalizing cs with
  | nil =>
    obtain ⟨inside, trail, rfl, hpiece, htrail⟩ := h.exists_trailing
    exact ⟨[], inside, trail, rfl, .nil, hpiece, htrail⟩
  | cons b before ih =>
    rw [List.cons_append] at h
    generalize hothers : before ++ a :: after = others at h
    cases h with
    | one => simp at hothers
    | more hfirst hmore =>
      subst hothers
      obtain ⟨lead, inside, trail, rfl, hlead, hpiece, htrail⟩ := ih hmore
      exact ⟨_, inside, trail, by simp, .cons hfirst hlead, hpiece, htrail⟩

/-- What follows a piece does not continue a numeral. -/
theorem Trailing.delimited_append (h : Trailing piece trail after) {rest : List Char}
    (hrest : Delimited rest) : Delimited (trail ++ rest) := by
  cases h with
  | nil => exact hrest
  | cons => simp [Delimited]

end Pieces

section Loops

variable {α : Type} {reader : Reader α} {spells : List Char → α → Prop} {first : Bool}
  {front lead cs rest : List Char}

/-- The items in front of a gap are read before it. -/
theorem exists_itemsRead_behind {before values : List α} (hreads : Reads reader spells)
    (hlead : Leading (Between spells) lead before) (hfront : Front first front)
    (h : ItemsRead reader first (front ++ (lead ++ cs)) values rest) :
    ∃ first front values, Front first front ∧ ItemsRead reader first (front ++ cs) values rest := by
  induction hlead generalizing first front values with
  | nil => exact ⟨first, front, values, hfront, h⟩
  | @cons _ more a as hpiece _ ih =>
    obtain ⟨blanks, text, after, rfl, hblanks, hafter, htext⟩ := hpiece
    simp only [List.append_assoc, List.cons_append] at h
    have hend : Delimited (',' :: (more ++ cs)) := by simp [Delimited]
    have hread := hreads.read_of_spells blank_nil htext (hafter.delimited_append hend)
    have hnext := nextItem_front hfront hblanks
      ((hreads.starts htext).append (after ++ ',' :: (more ++ cs)))
    cases h with
    | done hclose =>
      rw [hnext] at hclose
      simp at hclose
    | more hother hitem hrest =>
      obtain rfl := (Prod.mk.inj (Except.ok.inj (hnext.symm.trans hother))).2
      obtain rfl := (Prod.mk.inj (Except.ok.inj (hread.symm.trans hitem))).2
      have hcomma : Front false (after ++ [',']) := ⟨after, hafter, rfl⟩
      exact ih hcomma (by simpa using hrest)

theorem exists_read_of_itemsRead {values : List α} (hfront : Front first front)
    (hstarts : Starts (skipBlanks cs))
    (h : ItemsRead reader first (front ++ cs) values rest) :
    ∃ p, reader (skipBlanks cs) = .ok p := by
  obtain ⟨blanks, hcs, hblanks⟩ := exists_blank_of_skipBlanks cs
  have hnext := nextItem_front hfront hblanks hstarts
  rw [← hcs] at hnext
  cases h with
  | done hclose =>
    rw [hnext] at hclose
    simp at hclose
  | more hother hitem _ =>
    obtain rfl := (Prod.mk.inj (Except.ok.inj (hnext.symm.trans hother))).2
    exact ⟨_, hitem⟩

/-- The members in front of a gap are read before it. -/
theorem exists_membersRead_behind {before values : List (String × α)}
    (hreads : Reads reader spells) (hlead : Leading (Keyed spells) lead before)
    (hfront : Front first front)
    (h : MembersRead reader first (front ++ (lead ++ cs)) values rest) :
    ∃ first front values, Front first front ∧
      MembersRead reader first (front ++ cs) values rest := by
  induction hlead generalizing first front values with
  | nil => exact ⟨first, front, values, hfront, h⟩
  | @cons _ more m as hpiece _ ih =>
    obtain ⟨blanks, quoted, between, _, rfl, hblanks, hbetween, hquoted, hvalue⟩ := hpiece
    obtain ⟨inner, text, after, rfl, hinner, hafter, htext⟩ := hvalue
    simp only [List.append_assoc, List.cons_append] at h
    have hend : Delimited (',' :: (more ++ cs)) := by simp [Delimited]
    have hread := hreads.read_of_spells hinner htext (hafter.delimited_append hend)
    have hnext := nextMember_front hfront hblanks hquoted
      (between ++ ':' :: (inner ++ (text ++ (after ++ ',' :: (more ++ cs)))))
    cases h with
    | done hclose =>
      rw [hnext] at hclose
      simp at hclose
    | more hother hcolon hitem hrest =>
      obtain rfl := (Prod.mk.inj (Except.ok.inj (hnext.symm.trans hother))).2
      obtain rfl := Except.ok.inj ((colon_closing hbetween).symm.trans hcolon)
      obtain rfl := (Prod.mk.inj (Except.ok.inj (hread.symm.trans hitem))).2
      have hcomma : Front false (after ++ [',']) := ⟨after, hafter, rfl⟩
      exact ih hcomma (by simpa using hrest)

theorem exists_read_of_membersRead {blanks quoted between : List Char} {key : String}
    {values : List (String × α)} (hfront : Front first front) (hblanks : Blank blanks)
    (hquoted : Quoted.Says quoted key) (hbetween : Blank between)
    (h : MembersRead reader first
      (front ++ (blanks ++ (quoted ++ (between ++ ':' :: cs)))) values rest) :
    ∃ p, reader cs = .ok p := by
  have hnext := nextMember_front hfront hblanks hquoted (between ++ ':' :: cs)
  cases h with
  | done hclose =>
    rw [hnext] at hclose
    simp at hclose
  | more hother hcolon hitem _ =>
    obtain rfl := (Prod.mk.inj (Except.ok.inj (hnext.symm.trans hother))).2
    obtain rfl := Except.ok.inj ((colon_closing hbetween).symm.trans hcolon)
    exact ⟨_, hitem⟩

end Loops

namespace Value

variable {depth : Nat} {v : Value}

theorem between_of_read (text : String) (h : read depth text.toList = .ok (v, [])) :
    Between (Spells depth) text.toList v := by
  obtain ⟨before, inside, htext, hbefore, hspells⟩ := (reads depth).spells_of_read h
  exact ⟨before, inside, [], htext, hbefore, blank_nil, hspells⟩

theorem keyed_of_read {blanks : List Char} (hblanks : Blank blanks) (key text : String)
    (h : read depth text.toList = .ok (v, [])) :
    Keyed (Spells depth) (blanks ++ (Quoted.write key ++ ':' :: text.toList)) (key, v) :=
  ⟨_, _, [], _, rfl, hblanks, blank_nil, Quoted.says_write key, between_of_read text h⟩

end Value

/-! ### Texts around a gap -/

/-- The texts in front of a gap and behind it, in a text of a value that nests at most `depth`
deep. -/
inductive Gap.Around : Nat → List Char → List Char → Gap → Prop where
  | here {depth : Nat} {front back : List Char} (hfront : Blank front) (hback : Blank back) :
    Around depth front back .here
  | item {depth : Nat} {blanks lead front back trail more : List Char} {before after : List Value}
    {gap : Gap} (hblanks : Blank blanks)
    (hlead : Leading (Between (Value.Spells depth)) lead before) (h : Around depth front back gap)
    (htrail : Trailing (Between (Value.Spells depth)) trail after) (hmore : Blank more) :
    Around (depth + 1) (blanks ++ '[' :: (lead ++ front)) (back ++ (trail ++ ']' :: more))
      (.item before gap after)
  | member {depth : Nat} {blanks lead inner quoted between front back trail more : List Char}
    {before after : Members} {key : String} {gap : Gap} (hblanks : Blank blanks)
    (hlead : Leading (Keyed (Value.Spells depth)) lead before) (hinner : Blank inner)
    (hquoted : Quoted.Says quoted key) (hbetween : Blank between) (h : Around depth front back gap)
    (htrail : Trailing (Keyed (Value.Spells depth)) trail after) (hmore : Blank more) :
    Around (depth + 1)
      (blanks ++ '{' :: (lead ++ (inner ++ (quoted ++ (between ++ ':' :: front)))))
      (back ++ (trail ++ '}' :: more)) (.member before key gap after)

section Brackets

variable {depth : Nat} {cs text rest : List Char} {v : Value}

theorem Value.itemsRead_of_read (hopen : skipBlanks cs = '[' :: text)
    (h : read (depth + 1) cs = .ok (v, rest)) :
    ∃ values, ItemsRead (read depth) true text values rest := by
  unfold read at h
  rw [hopen] at h
  obtain ⟨values, hitems, _⟩ := bind_mapFst_eq_ok_iff.mp h
  exact ⟨values, (items_eq_ok_iff.mp hitems).1⟩

theorem Value.membersRead_of_read (hopen : skipBlanks cs = '{' :: text)
    (h : read (depth + 1) cs = .ok (v, rest)) :
    ∃ found, MembersRead (read depth) true text found rest := by
  unfold read at h
  rw [hopen] at h
  obtain ⟨found, hmembers, _⟩ := bind_mapFst_eq_ok_iff.mp h
  exact ⟨found, (members_eq_ok_iff.mp hmembers).1⟩

end Brackets

namespace Gap.Around

variable {depth : Nat} {front back rest : List Char} {gap : Gap}

theorem between (h : Around depth front back gap) {text : List Char} {s : Scalar}
    (htext : s.Spells text) :
    Between (Value.Spells depth) (front ++ (text ++ back)) (gap.fill (.scalar s)) := by
  induction h with
  | here hfront hback =>
    exact ⟨_, _, _, rfl, hfront, hback, Value.spells_scalar_iff.mpr htext⟩
  | @item depth blanks lead front back trail more _ _ _ hblanks hlead _ htrail hmore ih =>
    refine ⟨blanks, '[' :: (lead ++ ((front ++ (text ++ back)) ++ trail) ++ [']']), more, ?_,
      hblanks, hmore, ?_⟩
    · simp
    · exact Value.spells_array_iff.mpr ⟨depth, _, rfl, rfl, contents_of_around hlead ih htrail⟩
  | @member depth blanks lead inner quoted between front back trail more _ _ key gap hblanks hlead
      hinner hquoted hbetween _ htrail hmore ih =>
    have hkeyed : Keyed (Value.Spells depth)
        (inner ++ (quoted ++ (between ++ ':' :: (front ++ (text ++ back)))))
        (key, gap.fill (.scalar s)) :=
      ⟨_, _, _, _, rfl, hinner, hbetween, hquoted, ih⟩
    refine ⟨blanks, '{' :: (lead ++
      ((inner ++ (quoted ++ (between ++ ':' :: (front ++ (text ++ back))))) ++ trail) ++ ['}']),
      more, ?_, hblanks, hmore, ?_⟩
    · simp
    · exact Value.spells_object_iff.mpr
        ⟨depth, _, rfl, rfl, contents_of_around hlead hkeyed htrail⟩

/-- Every text with a scalar in a gap is one around it. -/
theorem exists_of_between {cs : List Char} {s : Scalar}
    (h : Between (Value.Spells depth) cs (gap.fill (.scalar s))) :
    ∃ front text back, cs = front ++ (text ++ back) ∧ Around depth front back gap ∧
      s.Spells text := by
  induction gap generalizing depth cs with
  | here =>
    obtain ⟨front, text, back, rfl, hfront, hback, htext⟩ := h
    exact ⟨front, text, back, rfl, .here hfront hback, Value.spells_scalar_iff.mp htext⟩
  | item before gap after ih =>
    obtain ⟨blanks, _, more, rfl, hblanks, hmore, harray⟩ := h
    obtain ⟨inner, inside, rfl, rfl, hcontents⟩ := Value.spells_array_iff.mp harray
    have hsequence := hcontents.resolve_left fun hnone ↦ by simp at hnone
    obtain ⟨lead, piece, trail, rfl, hlead, hpiece, htrail⟩ := hsequence.exists_around
    obtain ⟨front, text, back, rfl, hgap, htext⟩ := ih hpiece
    exact ⟨_, text, _, by simp, .item hblanks hlead hgap htrail hmore, htext⟩
  | member before key gap after ih =>
    obtain ⟨blanks, _, more, rfl, hblanks, hmore, hobject⟩ := h
    obtain ⟨depth, inside, rfl, rfl, hcontents⟩ := Value.spells_object_iff.mp hobject
    have hsequence := hcontents.resolve_left fun hnone ↦ by simp at hnone
    obtain ⟨lead, piece, trail, rfl, hlead, hpiece, htrail⟩ := hsequence.exists_around
    obtain ⟨inner, quoted, between, value, rfl, hinner, hbetween, hquoted, hvalue⟩ := hpiece
    obtain ⟨front, text, back, rfl, hgap, htext⟩ := ih hvalue
    exact ⟨_, text, _, by simp,
      .member hblanks hlead hinner hquoted hbetween hgap htrail hmore, htext⟩

/-- What follows a gap does not continue a numeral in it. -/
theorem delimited_append (h : Around depth front back gap) (hrest : Delimited rest) :
    Delimited (back ++ rest) := by
  induction h generalizing rest with
  | here _ hback => exact hback.delimited_append hrest
  | @item _ _ _ _ _ _ more _ _ _ _ _ _ htrail _ ih =>
    have hclose : Delimited (']' :: (more ++ rest)) := by simp [Delimited]
    have hafter := ih (htrail.delimited_append hclose)
    simpa using hafter
  | @member _ _ _ _ _ _ _ _ _ more _ _ _ _ _ _ _ _ _ _ htrail _ ih =>
    have hclose : Delimited ('}' :: (more ++ rest)) := by simp [Delimited]
    have hafter := ih (htrail.delimited_append hclose)
    simpa using hafter

variable {text : List Char}

theorem starts_skipBlanks (h : Around depth front back gap) (htext : Starts text) :
    Starts (skipBlanks (front ++ text)) := by
  cases h with
  | here hfront _ =>
    rw [skipBlanks_blank_append hfront, htext.skipBlanks]
    exact htext
  | item hblanks =>
    rw [List.append_assoc, List.cons_append, skipBlanks_closing hblanks (by decide)]
    exact ⟨'[', _, rfl, by decide, by decide⟩
  | member hblanks =>
    rw [List.append_assoc, List.cons_append, skipBlanks_closing hblanks (by decide)]
    exact ⟨'{', _, rfl, by decide, by decide⟩

/-- To get through the whole text a reader has to read what stands in the gap. -/
theorem exists_read (h : Around depth front back gap) (htext : Starts text)
    {p : Value × List Char} (hread : Value.read depth (front ++ text) = .ok p) :
    ∃ inner p, Value.read inner text = .ok p := by
  have hfirst : Front true [] := rfl
  induction h generalizing p with
  | @here depth _ _ hfront _ =>
    refine ⟨depth, p, ?_⟩
    rw [← Value.read_skipBlanks_iff, skipBlanks_blank_append hfront, htext.skipBlanks] at hread
    exact hread
  | @item depth _ _ _ _ _ _ _ _ _ hblanks hlead h _ _ ih =>
    rw [List.append_assoc, List.cons_append, List.append_assoc] at hread
    obtain ⟨values, hitems⟩ :=
      Value.itemsRead_of_read (skipBlanks_closing hblanks (by decide)) hread
    obtain ⟨first, comma, others, hcomma, hitems⟩ :=
      exists_itemsRead_behind (Value.reads depth) hlead hfirst hitems
    obtain ⟨q, hq⟩ := exists_read_of_itemsRead hcomma (h.starts_skipBlanks htext) hitems
    exact ih (Value.read_skipBlanks_iff.mp hq)
  | @member depth _ _ _ _ _ _ _ _ _ _ _ _ _ hblanks hlead hinner hquoted hbetween _ _ _ ih =>
    simp only [List.append_assoc, List.cons_append] at hread
    obtain ⟨values, hmembers⟩ :=
      Value.membersRead_of_read (skipBlanks_closing hblanks (by decide)) hread
    obtain ⟨first, comma, others, hcomma, hmembers⟩ :=
      exists_membersRead_behind (Value.reads depth) hlead hfirst hmembers
    obtain ⟨q, hq⟩ := exists_read_of_membersRead hcomma hinner hquoted hbetween hmembers
    exact ih hq

end Gap.Around

/-! ### Numerals in a gap -/

/-- A numeral that is read stands for a number, whatever comes after it. -/
theorem Numeral.exists_spells {token rest behind : List Char} {n : Number} (hform : Form token)
    (hrest : Delimited rest) (hread : read (token ++ rest) = .ok (n, behind)) :
    ∃ n, Spells token n := by
  have hnil : Delimited [] := by simp [Delimited]
  obtain ⟨hsign, hwhole, hfraction, hexponent⟩ := id hform
  simp only [List.append_assoc] at hread
  rcases form_append hsign hwhole hfraction hexponent with ⟨m, hm⟩ | hrange
  · refine ⟨m, hform, ?_⟩
    simpa using hm [] (hnil.ends _ _)
  · obtain ⟨fault, hfault⟩ := hrange rest (hrest.ends _ _)
    rw [hread] at hfault
    cases hfault

/-- A value that begins with a sign or a digit is a number. -/
theorem Value.exists_numeral_of_read {depth : Nat} {c : Char} {cs : List Char}
    (hc : c = '-' ∨ c.isDigit = true) {p : Value × List Char}
    (hread : read depth (c :: cs) = .ok p) :
    ∃ n rest, Numeral.read (c :: cs) = .ok (n, rest) := by
  obtain ⟨v, rest⟩ := p
  have hskip : skipBlanks (c :: cs) = c :: cs := (starts_of_sign_or_digit hc cs).skipBlanks
  cases read_eq_ok_iff.mp hread with
  | scalar hscalar =>
    rw [hskip] at hscalar
    cases hscalar with
    | number _ hnumeral => exact ⟨_, _, hnumeral⟩
    | _ => exact absurd hc (by decide)
  | array _ hopen =>
    rw [hskip] at hopen
    exact absurd (List.cons.inj hopen).1 (ne_of_sign_or_digit hc (by decide) (by decide))
  | object _ hopen =>
    rw [hskip] at hopen
    exact absurd (List.cons.inj hopen).1 (ne_of_sign_or_digit hc (by decide) (by decide))

/-- In every text of a value with a scalar in a gap, the scalar has its place. -/
theorem Gap.exists_around_of_parse {text : String} {gap : Gap} {s : Scalar}
    (hparse : Value.parse text = .ok (gap.fill (.scalar s))) : ∃ front inside back : String,
      text = front ++ inside ++ back ∧ gap.Around Value.depthLimit front.toList back.toList ∧
        s.Spells inside.toList := by
  obtain ⟨front, inside, back, htext, haround, hinside⟩ :=
    Gap.Around.exists_of_between (Value.parse_eq_ok_iff.mp hparse)
  refine ⟨String.ofList front, String.ofList inside, String.ofList back, ?_, ?_, ?_⟩
  · rw [← String.toList_inj, htext]
    simp
  · simpa using haround
  · simpa using hinside

section Texts

variable {front back text : String} {gap : Gap}
  (h : gap.Around Value.depthLimit front.toList back.toList)

include h

theorem Gap.Around.parse_fill {s : Scalar} (htext : s.Spells text.toList) :
    Value.parse (front ++ text ++ back) = .ok (gap.fill (.scalar s)) := by
  rw [Value.parse_eq_ok_iff, String.toList_append, String.toList_append, List.append_assoc]
  exact h.between htext

/-- In a text that is parsed, a numeral in a gap stands for a number. -/
theorem Gap.Around.exists_spells (hform : Numeral.Form text.toList) {v : Value}
    (hparse : Value.parse (front ++ text ++ back) = .ok v) :
    ∃ n, Numeral.Spells text.toList n := by
  have hnil : Delimited [] := by simp [Delimited]
  have hback := h.delimited_append hnil
  rw [List.append_nil] at hback
  obtain ⟨c, cs, htext, hc⟩ := hform.head
  obtain ⟨rest, hread, _⟩ := parseWith_eq_ok_iff.mp hparse
  rw [String.toList_append, String.toList_append, List.append_assoc] at hread
  have hstarts : Starts (text.toList ++ back.toList) := by
    rw [htext]
    exact starts_of_sign_or_digit hc (cs ++ back.toList)
  obtain ⟨inner, p, hinner⟩ := h.exists_read hstarts hread
  rw [htext, List.cons_append] at hinner
  obtain ⟨n, behind, hnumeral⟩ := Value.exists_numeral_of_read hc hinner
  rw [← List.cons_append, ← htext] at hnumeral
  exact Numeral.exists_spells hform hback hnumeral

end Texts

end ChangeDdl.Json
