import Mathlib.Data.List.TakeWhile
import ChangeDdl.Proofs.Json.Grammar.Quoted
import ChangeDdl.Proofs.Json.Printer

/-!
The grammar of what stands between brackets: pieces with commas between them, each piece an item or
a key with its value, and blanks around everything. A loop of the reader goes by this grammar as
soon as the reader of its items goes by theirs (`itemsRead_iff_contents`,
`membersRead_iff_contents`).
-/

set_option autoImplicit false
set_option relaxedAutoImplicit false

namespace ChangeDdl.Json

open Numeral (Delimited)

def Blank (cs : List Char) : Prop :=
  ∀ c ∈ cs, isBlank c = true

section Pieces

variable {α : Type}

/-- A text between blanks. -/
def Between (spells : List Char → α → Prop) (cs : List Char) (a : α) : Prop :=
  ∃ before text after, cs = before ++ (text ++ after) ∧ Blank before ∧ Blank after ∧ spells text a

/-- A key, a colon and a value. -/
def Keyed (spells : List Char → α → Prop) (cs : List Char) (m : String × α) : Prop :=
  ∃ before quoted between inside, cs = before ++ (quoted ++ (between ++ ':' :: inside)) ∧
    Blank before ∧ Blank between ∧ Quoted.Says quoted m.1 ∧ Between spells inside m.2

/-- One piece or more, with a comma between two of them. -/
inductive Sequence (piece : List Char → α → Prop) : List Char → List α → Prop where
  | one {cs : List Char} {a : α} (hpiece : piece cs a) : Sequence piece cs [a]
  | more {cs rest : List Char} {a : α} {as : List α} (hpiece : piece cs a)
    (hmore : Sequence piece rest as) : Sequence piece (cs ++ ',' :: rest) (a :: as)

/-- What stands between two brackets. -/
def Contents (piece : List Char → α → Prop) (cs : List Char) (as : List α) : Prop :=
  Blank cs ∧ as = [] ∨ Sequence piece cs as

end Pieces

/-! ### Blanks -/

section Blanks

variable {before cs rest : List Char}

theorem blank_nil : Blank [] := by simp [Blank]

theorem blank_append_iff : Blank (before ++ cs) ↔ Blank before ∧ Blank cs :=
  List.forall_mem_append

theorem skipBlanks_blank_append (h : Blank before) (cs : List Char) :
    skipBlanks (before ++ cs) = skipBlanks cs :=
  List.dropWhile_append_of_pos h

theorem skipBlanks_eq_nil_iff : skipBlanks cs = [] ↔ Blank cs :=
  List.dropWhile_eq_nil_iff

theorem exists_blank_of_skipBlanks (cs : List Char) :
    ∃ before, cs = before ++ skipBlanks cs ∧ Blank before :=
  ⟨cs.takeWhile isBlank, List.takeWhile_append_dropWhile.symm,
    fun _ hc ↦ List.mem_takeWhile_imp hc⟩

/-- A blank does not continue a numeral. -/
theorem Blank.delimited_append (h : Blank cs) (hrest : Delimited rest) :
    Delimited (cs ++ rest) := by
  cases cs with
  | nil => exact hrest
  | cons c cs =>
    intro d hd
    obtain rfl := Option.some.inj hd
    have hc := h c List.mem_cons_self
    simp only [isBlank, Bool.or_eq_true, decide_eq_true_eq] at hc
    rcases hc with ((rfl | rfl) | rfl) | rfl <;> decide

theorem Blank.delimited (h : Blank cs) : Delimited cs := by
  have hnil : Delimited [] := by simp [Delimited]
  simpa using h.delimited_append hnil

end Blanks

/-! ### Loops -/

/-- A reader takes in what a grammar allows, with the blanks in front of it. -/
structure Reads {α : Type} (reader : Reader α) (spells : List Char → α → Prop) : Prop where
  starts {text : List Char} {a : α} : spells text a → Starts text
  read_of_spells {before text rest : List Char} {a : α} : Blank before → spells text a →
    Delimited rest → reader (before ++ (text ++ rest)) = .ok (a, rest)
  spells_of_read {cs rest : List Char} {a : α} : reader cs = .ok (a, rest) →
    ∃ before text, cs = before ++ (text ++ rest) ∧ Blank before ∧ spells text a

/-- What stands in front of a piece: nothing, or the comma behind the piece before it. -/
def Front (first : Bool) (front : List Char) : Prop :=
  if first then front = [] else ∃ before, Blank before ∧ front = before ++ [',']

section Loops

variable {α : Type} {first : Bool} {front before cs rest : List Char}

theorem nextItem_front {text : List Char} (hfront : Front first front) (hbefore : Blank before)
    (htext : Starts text) : nextItem first (front ++ (before ++ text)) = .ok (true, text) := by
  have hskip : skipBlanks (before ++ text) = text := by
    rw [skipBlanks_blank_append hbefore, htext.skipBlanks]
  obtain ⟨c, more, rfl, _, hc⟩ := htext
  cases first with
  | true =>
    obtain rfl : front = [] := hfront
    rw [List.nil_append, nextItem, hskip]
    simp
  | false =>
    obtain ⟨blanks, hblanks, rfl⟩ : ∃ blanks, Blank blanks ∧ front = blanks ++ [','] := hfront
    have hcomma : skipBlanks (',' :: (before ++ c :: more)) = ',' :: (before ++ c :: more) :=
      skipBlanks_cons_of_not_blank (by decide)
    rw [List.append_assoc, List.singleton_append, nextItem, skipBlanks_blank_append hblanks, hcomma]
    simp [hskip, hc]

theorem exists_front_of_nextItem {text : List Char} (h : nextItem first cs = .ok (true, text)) :
    ∃ front before, cs = front ++ (before ++ text) ∧ Front first front ∧ Blank before := by
  obtain ⟨c, behind, hskip, _, hnext⟩ := nextItem_eq_true h
  obtain ⟨before, hcs, hbefore⟩ := exists_blank_of_skipBlanks cs
  rw [hskip] at hcs
  cases first with
  | true => exact ⟨[], before, by rw [hnext]; exact hcs, rfl, hbefore⟩
  | false =>
    obtain ⟨rfl, rfl⟩ : c = ',' ∧ text = skipBlanks behind := hnext
    obtain ⟨inner, hbehind, hinner⟩ := exists_blank_of_skipBlanks behind
    refine ⟨before ++ [','], inner, ?_, ⟨before, hbefore, rfl⟩, hinner⟩
    rw [← hbehind, List.append_assoc, List.singleton_append]
    exact hcs

theorem nextMember_front {quoted : List Char} {name : String} (hfront : Front first front)
    (hbefore : Blank before) (hquoted : Quoted.Says quoted name) (rest : List Char) :
    nextMember first (front ++ (before ++ (quoted ++ rest))) = .ok (some name, rest) := by
  obtain ⟨body, rfl, hbody⟩ := hquoted
  have hchars : '"' :: (body ++ ['"']) ++ rest = '"' :: (body ++ '"' :: rest) := by simp
  have hread : Quoted.read (body ++ '"' :: rest) = .ok (name, rest) :=
    Quoted.read_eq_ok_iff.mpr ⟨body, rfl, hbody⟩
  have hskip : skipBlanks (before ++ '"' :: (body ++ '"' :: rest)) =
      '"' :: (body ++ '"' :: rest) := by
    rw [skipBlanks_blank_append hbefore]
    exact skipBlanks_cons_of_not_blank (by decide)
  rw [hchars]
  cases first with
  | true =>
    obtain rfl : front = [] := hfront
    rw [List.nil_append, nextMember_true_iff, hskip]
    exact hread
  | false =>
    obtain ⟨blanks, hblanks, rfl⟩ : ∃ blanks, Blank blanks ∧ front = blanks ++ [','] := hfront
    generalize before ++ '"' :: (body ++ '"' :: rest) = text at hskip
    have hcomma : skipBlanks (',' :: text) = ',' :: text :=
      skipBlanks_cons_of_not_blank (by decide)
    rw [List.append_assoc, List.singleton_append, nextMember, skipBlanks_blank_append hblanks,
      hcomma]
    have hkey : memberKey ('"' :: (body ++ '"' :: rest)) = .ok (name, rest) := hread
    simp [hskip, hkey, bind, Except.bind]

theorem exists_front_of_nextMember {text : List Char} {name : String}
    (h : nextMember first cs = .ok (some name, text)) :
    ∃ front before quoted, cs = front ++ (before ++ (quoted ++ text)) ∧ Front first front ∧
      Blank before ∧ Quoted.Says quoted name := by
  have hkey : ∀ cs, memberKey cs = .ok (name, text) →
      ∃ quoted, cs = quoted ++ text ∧ Quoted.Says quoted name := by
    intro cs h
    obtain ⟨behind, rfl, hread⟩ := memberKey_eq_ok_iff.mp h
    obtain ⟨body, rfl, hbody⟩ := Quoted.read_eq_ok_iff.mp hread
    exact ⟨'"' :: (body ++ ['"']), by simp, body, rfl, hbody⟩
  obtain ⟨c, behind, hskip, _, hnext⟩ := nextMember_eq_some h
  obtain ⟨before, hcs, hbefore⟩ := exists_blank_of_skipBlanks cs
  rw [hskip] at hcs
  cases first with
  | true =>
    obtain ⟨quoted, hquoted, hsays⟩ := hkey _ hnext
    exact ⟨[], before, quoted, by rw [← hquoted]; exact hcs, rfl, hbefore, hsays⟩
  | false =>
    obtain ⟨rfl, hnext⟩ : c = ',' ∧ memberKey (skipBlanks behind) = .ok (name, text) := hnext
    obtain ⟨quoted, hquoted, hsays⟩ := hkey _ hnext
    obtain ⟨inner, hbehind, hinner⟩ := exists_blank_of_skipBlanks behind
    refine ⟨before ++ [','], inner, quoted, ?_, ⟨before, hbefore, rfl⟩, hinner, hsays⟩
    rw [← hquoted, ← hbehind, List.append_assoc, List.singleton_append]
    exact hcs

end Loops

section Contents

variable {α : Type} {reader : Reader α} {spells : List Char → α → Prop} {first : Bool}
  {front cs rest : List Char}

theorem skipBlanks_closing {before : List Char} {c : Char} (h : Blank before)
    (hc : isBlank c = false) : skipBlanks (before ++ c :: rest) = c :: rest := by
  rw [skipBlanks_blank_append h, skipBlanks_cons_of_not_blank hc]

theorem exists_blank_of_closing {c : Char} (h : skipBlanks cs = c :: rest) :
    ∃ before, cs = before ++ c :: rest ∧ Blank before := by
  obtain ⟨before, hcs, hbefore⟩ := exists_blank_of_skipBlanks cs
  exact ⟨before, by rwa [h] at hcs, hbefore⟩

theorem colon_closing {between : List Char} (h : Blank between) :
    colon (between ++ ':' :: rest) = .ok rest :=
  colon_eq_ok_iff.mpr (skipBlanks_closing h (by decide))

theorem itemsRead_of_sequence {as : List α} (hreads : Reads reader spells)
    (h : Sequence (Between spells) cs as) (hfront : Front first front) :
    ItemsRead reader first (front ++ (cs ++ ']' :: rest)) as rest := by
  induction h generalizing first front with
  | one hpiece =>
    obtain ⟨before, text, after, rfl, hbefore, hafter, htext⟩ := hpiece
    have hend : Delimited (']' :: rest) := by simp [Delimited]
    have hnext := nextItem_front hfront hbefore ((hreads.starts htext).append (after ++ ']' :: rest))
    have hread := hreads.read_of_spells blank_nil htext (hafter.delimited_append hend)
    simp only [List.append_assoc]
    exact .more hnext hread
      (.done (nextItem_eq_false_iff.mpr (skipBlanks_closing hafter (by decide))))
  | @more _ inside a as hpiece _ ih =>
    obtain ⟨before, text, after, rfl, hbefore, hafter, htext⟩ := hpiece
    have hend : Delimited (',' :: (inside ++ ']' :: rest)) := by simp [Delimited]
    have hnext := nextItem_front hfront hbefore
      ((hreads.starts htext).append (after ++ ',' :: (inside ++ ']' :: rest)))
    have hread := hreads.read_of_spells blank_nil htext (hafter.delimited_append hend)
    have hmore := @ih false (after ++ [',']) ⟨after, hafter, rfl⟩
    rw [List.append_assoc, List.singleton_append] at hmore
    simp only [List.append_assoc, List.cons_append]
    exact .more hnext hread hmore

theorem sequence_of_itemsRead {as : List α} (hreads : Reads reader spells)
    (h : ItemsRead reader first cs as rest) :
    (as = [] ∧ ∃ before, cs = before ++ ']' :: rest ∧ Blank before) ∨
      ∃ front inside, cs = front ++ (inside ++ ']' :: rest) ∧ Front first front ∧
        Sequence (Between spells) inside as := by
  induction h with
  | done hnext => exact Or.inl ⟨rfl, exists_blank_of_closing (nextItem_eq_false_iff.mp hnext)⟩
  | more hnext hitem _ ih =>
    obtain ⟨front, before, rfl, hfront, hbefore⟩ := exists_front_of_nextItem hnext
    obtain ⟨inner, text, rfl, hinner, htext⟩ := hreads.spells_of_read hitem
    have hblank := blank_append_iff.mpr ⟨hbefore, hinner⟩
    right
    rcases ih with ⟨rfl, after, rfl, hafter⟩ | ⟨_, inside, rfl, ⟨after, hafter, rfl⟩, hmore⟩
    · refine ⟨front, before ++ inner ++ (text ++ after), by simp, hfront, .one ?_⟩
      exact ⟨_, _, _, rfl, hblank, hafter, htext⟩
    · refine ⟨front, before ++ inner ++ (text ++ after) ++ ',' :: inside, by simp, hfront,
        .more ?_ hmore⟩
      exact ⟨_, _, _, rfl, hblank, hafter, htext⟩

theorem itemsRead_iff_contents {as : List α} (hreads : Reads reader spells) :
    ItemsRead reader true cs as rest ↔
      ∃ inside, cs = inside ++ ']' :: rest ∧ Contents (Between spells) inside as := by
  constructor
  · intro h
    rcases sequence_of_itemsRead hreads h with ⟨rfl, before, rfl, hbefore⟩ |
      ⟨_, inside, rfl, rfl, hinside⟩
    · exact ⟨before, rfl, Or.inl ⟨hbefore, rfl⟩⟩
    · exact ⟨inside, rfl, Or.inr hinside⟩
  · rintro ⟨inside, rfl, ⟨hblank, rfl⟩ | hinside⟩
    · exact .done (nextItem_eq_false_iff.mpr (skipBlanks_closing hblank (by decide)))
    · have hfront : Front true [] := rfl
      exact itemsRead_of_sequence hreads hinside hfront

theorem membersRead_of_sequence {as : List (String × α)} (hreads : Reads reader spells)
    (h : Sequence (Keyed spells) cs as) (hfront : Front first front) :
    MembersRead reader first (front ++ (cs ++ '}' :: rest)) as rest := by
  induction h generalizing first front with
  | @one _ m hpiece =>
    obtain ⟨before, quoted, between, _, rfl, hbefore, hbetween, hquoted, hvalue⟩ := hpiece
    obtain ⟨inner, text, after, rfl, hinner, hafter, htext⟩ := hvalue
    have hend : Delimited ('}' :: rest) := by simp [Delimited]
    have hnext := nextMember_front hfront hbefore hquoted
      (between ++ ':' :: (inner ++ (text ++ (after ++ '}' :: rest))))
    have hread := hreads.read_of_spells hinner htext (hafter.delimited_append hend)
    simp only [List.append_assoc, List.cons_append]
    exact .more hnext (colon_closing hbetween) hread
      (.done (nextMember_eq_none_iff.mpr (skipBlanks_closing hafter (by decide))))
  | @more _ inside m as hpiece _ ih =>
    obtain ⟨before, quoted, between, _, rfl, hbefore, hbetween, hquoted, hvalue⟩ := hpiece
    obtain ⟨inner, text, after, rfl, hinner, hafter, htext⟩ := hvalue
    have hend : Delimited (',' :: (inside ++ '}' :: rest)) := by simp [Delimited]
    have hnext := nextMember_front hfront hbefore hquoted
      (between ++ ':' :: (inner ++ (text ++ (after ++ ',' :: (inside ++ '}' :: rest)))))
    have hread := hreads.read_of_spells hinner htext (hafter.delimited_append hend)
    have hmore := @ih false (after ++ [',']) ⟨after, hafter, rfl⟩
    rw [List.append_assoc, List.singleton_append] at hmore
    simp only [List.append_assoc, List.cons_append]
    exact .more hnext (colon_closing hbetween) hread hmore

theorem sequence_of_membersRead {as : List (String × α)} (hreads : Reads reader spells)
    (h : MembersRead reader first cs as rest) :
    (as = [] ∧ ∃ before, cs = before ++ '}' :: rest ∧ Blank before) ∨
      ∃ front inside, cs = front ++ (inside ++ '}' :: rest) ∧ Front first front ∧
        Sequence (Keyed spells) inside as := by
  induction h with
  | done hnext => exact Or.inl ⟨rfl, exists_blank_of_closing (nextMember_eq_none_iff.mp hnext)⟩
  | more hnext hcolon hvalue _ ih =>
    obtain ⟨front, before, quoted, rfl, hfront, hbefore, hquoted⟩ := exists_front_of_nextMember hnext
    obtain ⟨between, rfl, hbetween⟩ := exists_blank_of_closing (colon_eq_ok_iff.mp hcolon)
    obtain ⟨inner, text, rfl, hinner, htext⟩ := hreads.spells_of_read hvalue
    right
    rcases ih with ⟨rfl, after, rfl, hafter⟩ | ⟨_, inside, rfl, ⟨after, hafter, rfl⟩, hmore⟩
    · refine ⟨front, before ++ (quoted ++ (between ++ ':' :: (inner ++ (text ++ after)))), by simp,
        hfront, .one ?_⟩
      exact ⟨_, _, _, _, rfl, hbefore, hbetween, hquoted, _, _, _, rfl, hinner, hafter, htext⟩
    · refine ⟨front,
        before ++ (quoted ++ (between ++ ':' :: (inner ++ (text ++ after)))) ++ ',' :: inside,
        by simp, hfront, .more ?_ hmore⟩
      exact ⟨_, _, _, _, rfl, hbefore, hbetween, hquoted, _, _, _, rfl, hinner, hafter, htext⟩

theorem membersRead_iff_contents {as : List (String × α)} (hreads : Reads reader spells) :
    MembersRead reader true cs as rest ↔
      ∃ inside, cs = inside ++ '}' :: rest ∧ Contents (Keyed spells) inside as := by
  constructor
  · intro h
    rcases sequence_of_membersRead hreads h with ⟨rfl, before, rfl, hbefore⟩ |
      ⟨_, inside, rfl, rfl, hinside⟩
    · exact ⟨before, rfl, Or.inl ⟨hbefore, rfl⟩⟩
    · exact ⟨inside, rfl, Or.inr hinside⟩
  · rintro ⟨inside, rfl, ⟨hblank, rfl⟩ | hinside⟩
    · exact .done (nextMember_eq_none_iff.mpr (skipBlanks_closing hblank (by decide)))
    · have hfront : Front true [] := rfl
      exact membersRead_of_sequence hreads hinside hfront

end Contents

/-! ### Texts of pieces -/

section Parts

variable {α : Type} {spells piece : List Char → α → Prop} {as : List α}

theorem Sequence.exists_piece {cs : List Char} (h : Sequence piece cs as) :
    ∀ a ∈ as, ∃ text, piece text a := by
  induction h with
  | one hpiece => exact fun a ha ↦ ⟨_, List.mem_singleton.mp ha ▸ hpiece⟩
  | more hpiece _ ih => exact List.forall_mem_cons.mpr ⟨⟨_, hpiece⟩, ih⟩

theorem exists_sequence {a : α} (hpieces : ∀ b ∈ a :: as, ∃ text, piece text b) :
    ∃ cs, Sequence piece cs (a :: as) := by
  induction as generalizing a with
  | nil =>
    obtain ⟨text, htext⟩ := hpieces a List.mem_cons_self
    exact ⟨text, .one htext⟩
  | cons b as ih =>
    obtain ⟨⟨text, htext⟩, hmore⟩ := List.forall_mem_cons.mp hpieces
    obtain ⟨rest, hrest⟩ := ih hmore
    exact ⟨text ++ ',' :: rest, .more htext hrest⟩

/-- Pieces can be strung together whenever each of them has a text. -/
theorem exists_contents_iff : (∃ cs, Contents piece cs as) ↔ ∀ a ∈ as, ∃ text, piece text a := by
  constructor
  · rintro ⟨cs, ⟨_, rfl⟩ | h⟩
    · simp
    · exact h.exists_piece
  · intro hpieces
    cases as with
    | nil => exact ⟨[], Or.inl ⟨blank_nil, rfl⟩⟩
    | cons a as =>
      obtain ⟨cs, hcs⟩ := exists_sequence hpieces
      exact ⟨cs, Or.inr hcs⟩

theorem between_of_spells {text : List Char} {a : α} (h : spells text a) :
    Between spells text a :=
  ⟨[], text, [], by simp, blank_nil, blank_nil, h⟩

theorem exists_between_iff {a : α} : (∃ cs, Between spells cs a) ↔ ∃ text, spells text a := by
  constructor
  · rintro ⟨cs, _, text, _, _, _, _, htext⟩
    exact ⟨text, htext⟩
  · rintro ⟨text, htext⟩
    exact ⟨text, between_of_spells htext⟩

end Parts

theorem Quoted.body_flatMap_writeChar (text : List Char) :
    Body (text.flatMap writeChar) text := by
  induction text with
  | nil => exact .nil
  | cons c text ih =>
    obtain ⟨spelled, hspelled, hspells⟩ :=
      character_eq_some_iff.mp (character_writeChar c [])
    rw [List.append_cancel_right hspelled.symm] at hspells
    exact .cons hspells ih

/-- Every text can be quoted. -/
theorem Quoted.says_write (s : String) : Says (write s) s :=
  ⟨s.toList.flatMap writeChar, rfl, body_flatMap_writeChar s.toList⟩

/-! ### Texts by another grammar -/

section Imp

variable {α : Type} {piece other spells meant : List Char → α → Prop} {cs : List Char}

theorem Sequence.imp {as : List α} (h : Sequence piece cs as)
    (himp : ∀ a ∈ as, ∀ text, piece text a → other text a) : Sequence other cs as := by
  induction h with
  | one hpiece => exact .one (himp _ List.mem_cons_self _ hpiece)
  | more hpiece _ ih =>
    obtain ⟨hfirst, hmore⟩ := List.forall_mem_cons.mp himp
    exact .more (hfirst _ hpiece) (ih hmore)

theorem Contents.imp {as : List α} (h : Contents piece cs as)
    (himp : ∀ a ∈ as, ∀ text, piece text a → other text a) : Contents other cs as := by
  rw [Contents] at h ⊢
  exact h.imp_right fun h ↦ h.imp himp

theorem Between.imp {a : α} (h : Between spells cs a) (himp : ∀ text, spells text a → meant text a) :
    Between meant cs a := by
  obtain ⟨before, text, after, hcs, hbefore, hafter, htext⟩ := h
  exact ⟨before, text, after, hcs, hbefore, hafter, himp text htext⟩

theorem Keyed.imp {m : String × α} (h : Keyed spells cs m)
    (himp : ∀ text, spells text m.2 → meant text m.2) : Keyed meant cs m := by
  obtain ⟨before, quoted, between, inside, hcs, hbefore, hbetween, hquoted, hinside⟩ := h
  exact ⟨before, quoted, between, inside, hcs, hbefore, hbetween, hquoted, hinside.imp himp⟩

end Imp

theorem exists_keyed_iff {α : Type} {spells : List Char → α → Prop} {m : String × α} :
    (∃ cs, Keyed spells cs m) ↔ ∃ text, spells text m.2 := by
  constructor
  · rintro ⟨cs, _, _, _, inside, _, _, _, _, hinside⟩
    exact exists_between_iff.mp ⟨inside, hinside⟩
  · rintro ⟨text, htext⟩
    exact ⟨Quoted.write m.1 ++ ':' :: text, [], Quoted.write m.1, [], text, by simp, blank_nil,
      blank_nil, Quoted.says_write m.1, between_of_spells htext⟩

end ChangeDdl.Json
