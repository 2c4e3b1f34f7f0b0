import ChangeDdl.Ddl.Name
import Mathlib.Data.List.Infix

/-!
Brackets, quotes and separators in a text. A cursor counts how many brackets are open, and brackets
between double quotes do not count. `splitTop` cuts a text at a separator that stands outside of
all brackets and quotes, and `enclosed` finds the first bracket and the one that closes it.

A text is `Balanced` when the count never falls below zero and both brackets and quotes are closed
at the end, and `Solid` when it is not cut at a separator either. Solid texts are put together by
`Solid.append`, `Solid.bracketed` and `Solid.quotes`; joining them with the separator and splitting
again gives them back (`splitTop_intercalate`).
-/

set_option autoImplicit false
set_option relaxedAutoImplicit false

namespace ChangeDdl

/-! ### The cursor -/

/-- The number of open brackets, and whether a quote is open. -/
@[ext]
structure Cursor where
  depth : Int
  quoted : Bool
deriving DecidableEq

namespace Cursor

/-- Outside of all brackets and quotes. -/
def top : Cursor := ⟨0, false⟩

def step (p : Cursor) (c : Char) : Cursor :=
  if c = '"' then { p with quoted := !p.quoted }
  else if p.quoted then p
  else if c = '(' then { p with depth := p.depth + 1 }
  else if c = ')' then { p with depth := p.depth - 1 }
  else p

def run (p : Cursor) (text : List Char) : Cursor := text.foldl step p

/-- One bracket further in. -/
def deeper (p : Cursor) : Cursor := { p with depth := p.depth + 1 }

@[simp] theorem run_nil (p : Cursor) : p.run [] = p := rfl

@[simp] theorem run_cons (p : Cursor) (c : Char) (rest : List Char) :
    p.run (c :: rest) = (p.step c).run rest := rfl

@[simp] theorem run_append (p : Cursor) (before after : List Char) :
    p.run (before ++ after) = (p.run before).run after :=
  List.foldl_append

theorem deeper_injective : Function.Injective deeper := by
  intro p q h
  obtain ⟨hdepth, hquoted⟩ := Cursor.ext_iff.mp h
  simp only [deeper] at hdepth hquoted
  exact Cursor.ext (by omega) hquoted

theorem step_deeper (p : Cursor) (c : Char) : p.deeper.step c = (p.step c).deeper := by
  have hclose : p.depth + 1 - 1 = p.depth - 1 + 1 := by omega
  by_cases hquote : c = '"'
  · simp [step, deeper, hquote]
  · by_cases hquoted : p.quoted = true
    · simp [step, deeper, hquote, hquoted]
    · by_cases hopen : c = '('
      · simp [step, deeper, hquoted, hopen]
      · by_cases hend : c = ')' <;> simp [step, deeper, hquote, hquoted, hopen, hend, hclose]

theorem run_deeper (p : Cursor) (text : List Char) : p.deeper.run text = (p.run text).deeper := by
  induction text generalizing p with
  | nil => rfl
  | cons c rest ih => rw [run_cons, run_cons, step_deeper, ih]

end Cursor

open Cursor

/-! ### Balanced and solid texts -/

/-- Quotes and brackets are closed, and no bracket is closed that is not open. -/
structure Balanced (text : List Char) : Prop where
  depth_nonneg : ∀ before after, text = before ++ after → 0 ≤ (top.run before).depth
  run_top : top.run text = top

/-- A balanced text in which the separator stands in brackets or quotes only. -/
structure Solid (separator : Char) (text : List Char) : Prop extends Balanced text where
  uncut : ∀ before after, text = before ++ separator :: after → top.run before ≠ top

instance (text : List Char) : Decidable (Balanced text) :=
  decidable_of_iff ((∀ before ∈ text.inits, 0 ≤ (top.run before).depth) ∧ top.run text = top) <| by
    constructor
    · rintro ⟨hdepth, htop⟩
      exact ⟨fun before after h ↦ hdepth before ((List.mem_inits _ _).mpr ⟨after, h.symm⟩), htop⟩
    · rintro ⟨hdepth, htop⟩
      refine ⟨fun before hbefore ↦ ?_, htop⟩
      obtain ⟨after, h⟩ := (List.mem_inits _ _).mp hbefore
      exact hdepth before after h.symm

instance (separator : Char) (text : List Char) : Decidable (Solid separator text) :=
  decidable_of_iff (Balanced text ∧
      ∀ before ∈ text.inits, before ++ [separator] <+: text → top.run before ≠ top) <| by
    constructor
    · rintro ⟨hbalanced, huncut⟩
      refine ⟨hbalanced, fun before after h ↦ ?_⟩
      exact huncut before ((List.mem_inits _ _).mpr ⟨_, h.symm⟩) ⟨after, by simp [h]⟩
    · rintro ⟨hbalanced, huncut⟩
      refine ⟨hbalanced, fun before _ ⟨after, h⟩ ↦ huncut before after ?_⟩
      rw [← h, List.append_assoc]
      rfl

namespace Balanced

variable {text other : List Char}

theorem nil : Balanced [] where
  depth_nonneg := by
    intro before after h
    simp [(List.append_eq_nil_iff.mp h.symm).1, top]
  run_top := rfl

theorem append (htext : Balanced text) (hother : Balanced other) : Balanced (text ++ other) where
  depth_nonneg := by
    intro before after h
    rcases List.append_eq_append_iff.mp h with ⟨z, rfl, hz⟩ | ⟨z, hz, _⟩
    · rw [run_append, htext.run_top]
      exact hother.depth_nonneg z after hz
    · exact htext.depth_nonneg before z hz
  run_top := by rw [run_append, htext.run_top, hother.run_top]

theorem intercalate {between : List Char} (hbetween : Balanced between)
    {pieces : List (List Char)} (hpieces : ∀ piece ∈ pieces, Balanced piece) :
    Balanced (between.intercalate pieces) := by
  induction pieces with
  | nil => exact nil
  | cons piece more ih =>
    have hmore := ih fun next hnext ↦ hpieces next (List.mem_cons_of_mem _ hnext)
    have hpiece := hpieces piece List.mem_cons_self
    cases more with
    | nil => simpa using hpiece
    | cons next more =>
      rw [List.intercalate_cons_cons]
      exact (hpiece.append hbetween).append hmore

/-- Inside a pair of brackets a balanced text never closes the outer one. -/
theorem depth_deeper (htext : Balanced text) {before after : List Char}
    (h : text = before ++ after) : 1 ≤ (top.deeper.run before).depth := by
  have := htext.depth_nonneg before after h
  rw [run_deeper]
  simp only [deeper]
  omega

end Balanced

namespace Solid

variable {separator : Char} {text other : List Char}

theorem nil : Solid separator [] where
  toBalanced := Balanced.nil
  uncut := by simp

theorem append (htext : Solid separator text) (hother : Solid separator other) :
    Solid separator (text ++ other) where
  toBalanced := htext.toBalanced.append hother.toBalanced
  uncut := by
    intro before after h
    rcases List.append_eq_append_iff.mp h with ⟨z, rfl, hz⟩ | ⟨z, hz, hz'⟩
    · rw [run_append, htext.run_top]
      exact hother.uncut z after hz
    · cases z with
      | nil =>
        have := hother.uncut [] after (by simpa using hz'.symm)
        exact absurd rfl this
      | cons c z =>
        obtain ⟨rfl, _⟩ := List.cons.inj hz'
        exact htext.uncut before z hz

/-- Plain text, without brackets, quotes and separators. -/
theorem plain (h : ∀ c ∈ text, c ≠ '"' ∧ c ≠ '(' ∧ c ≠ ')' ∧ c ≠ separator) :
    Solid separator text := by
  induction text with
  | nil => exact nil
  | cons c rest ih =>
    obtain ⟨hquote, hopen, hclose, hseparator⟩ := h c List.mem_cons_self
    have hstep : top.step c = top := by simp [step, top, hquote, hopen, hclose]
    have hsingle : Solid separator [c] := by
      refine ⟨⟨fun before after hsplit ↦ ?_, hstep⟩, fun before after hsplit ↦ ?_⟩
      · cases before with
        | nil => simp [top]
        | cons d before =>
          obtain ⟨rfl, hrest⟩ := List.cons.inj hsplit
          rw [(List.append_eq_nil_iff.mp hrest.symm).1, run_cons, hstep]
          simp [top]
      · cases before with
        | nil => exact absurd (List.cons.inj hsplit).1 hseparator
        | cons d before => simp at hsplit
    exact hsingle.append (ih fun d hd ↦ h d (List.mem_cons_of_mem _ hd))

/-- A text between an opening and a closing character that keep the cursor away from the top. -/
theorem wrapped {opening closing : Char} (hopening : separator ≠ opening)
    (hinside : ∀ before after, text = before ++ after →
      0 ≤ ((top.step opening).run before).depth ∧ (top.step opening).run before ≠ top)
    (hclosing : ((top.step opening).run text).step closing = top) :
    Solid separator (opening :: (text ++ [closing])) := by
  have hend : top.run (opening :: (text ++ [closing])) = top := by
    rw [run_cons, run_append]
    exact hclosing
  have hproper : ∀ before c after, text ++ [closing] = before ++ c :: after →
      ∃ rest, text = before ++ rest := by
    intro before c after hsplit
    rcases List.append_eq_append_iff.mp hsplit with ⟨z, hz, hz'⟩ | ⟨z, hz, _⟩
    · obtain rfl : z = [] := by
        have := congrArg List.length hz'
        simp only [List.length_cons, List.length_nil, List.length_append] at this
        exact List.eq_nil_of_length_eq_zero (by omega)
      exact ⟨[], by simp [hz]⟩
    · exact ⟨z, hz⟩
  refine ⟨⟨fun before after hsplit ↦ ?_, hend⟩, fun before after hsplit ↦ ?_⟩
  · cases before with
    | nil => simp [top]
    | cons c before =>
      cases after with
      | nil =>
        rw [List.append_nil] at hsplit
        rw [← hsplit, hend]
        simp [top]
      | cons d after =>
        obtain ⟨rfl, hrest⟩ := List.cons.inj hsplit
        obtain ⟨rest, hrest⟩ := hproper before d after hrest
        exact (hinside before rest hrest).1
  · cases before with
    | nil => exact absurd (List.cons.inj hsplit).1.symm hopening
    | cons c before =>
      obtain ⟨rfl, hrest⟩ := List.cons.inj hsplit
      obtain ⟨rest, hrest⟩ := hproper before separator after hrest
      exact (hinside before rest hrest).2

/-- A balanced text in brackets is not cut, whatever it holds. -/
theorem bracketed (htext : Balanced text) (hseparator : separator ≠ '(') :
    Solid separator ('(' :: (text ++ [')'])) := by
  have hopening : top.step '(' = top.deeper := rfl
  refine wrapped hseparator (fun before after hsplit ↦ ?_) ?_
  · have hdepth := htext.depth_deeper hsplit
    rw [hopening]
    refine ⟨by omega, fun heq ↦ ?_⟩
    rw [heq] at hdepth
    simp [top] at hdepth
  · rw [hopening, run_deeper, htext.run_top]
    rfl

/-- Anything but a quote can stand between quotes. -/
theorem quotes (htext : '"' ∉ text) (hseparator : separator ≠ '"') :
    Solid separator ('"' :: (text ++ ['"'])) := by
  have hinside : ∀ before, '"' ∉ before → (top.step '"').run before = top.step '"' := by
    intro before hbefore
    induction before with
    | nil => rfl
    | cons c rest ih =>
      obtain ⟨hc, hrest⟩ := not_or.mp (List.mem_cons.not.mp hbefore)
      have hne : ¬ c = '"' := fun h ↦ hc h.symm
      have hstep : (top.step '"').step c = top.step '"' := by
        simp [step, top, hne]
      rw [run_cons, hstep, ih hrest]
  refine wrapped hseparator (fun before after hsplit ↦ ?_) ?_
  · rw [hinside before fun hmem ↦ htext (hsplit ▸ List.mem_append_left _ hmem)]
    simp [step, top]
  · rw [hinside text htext]
    rfl

end Solid

/-! ### Cutting -/

/-- Cuts a text at the separators that stand outside of all brackets and quotes. -/
def cutFrom (separator : Char) : Cursor → List Char → List (List Char)
  | _, [] => [[]]
  | p, c :: rest =>
    if c = separator ∧ p = top then [] :: cutFrom separator p rest
    else
      match cutFrom separator (p.step c) rest with
      | [] => [[c]]
      | piece :: more => (c :: piece) :: more

/-- The pieces between the separators outside of all brackets and quotes. -/
def splitTop (separator : Char) (text : String) : List String :=
  (cutFrom separator top text.toList).map String.ofList

/-- The text up to the bracket that closes the one in front of it, and the text behind that. -/
def closing : Cursor → List Char → Option (List Char × List Char)
  | _, [] => none
  | p, c :: rest =>
    if c = ')' ∧ p = top.deeper then some ([], rest)
    else (closing (p.step c) rest).map fun (inside, behind) ↦ (c :: inside, behind)

/-- The text in the first bracket outside of all quotes, and the text behind that bracket. -/
def opening : Cursor → List Char → Option (List Char × List Char)
  | _, [] => none
  | p, c :: rest =>
    if c = '(' ∧ p = top then closing (p.step c) rest else opening (p.step c) rest

/-- The text between the first bracket and the one that closes it, and the text behind. -/
def enclosed (text : String) : Option (String × String) :=
  (opening top text.toList).map fun (inside, behind) ↦
    (String.ofList inside, String.ofList behind)

section Cutting

variable {separator : Char} {text rest : List Char}

/-- A text without a cut goes to the front of the first piece. -/
theorem cutFrom_append {p : Cursor}
    (huncut : ∀ before after, text = before ++ separator :: after → p.run before ≠ top)
    {piece : List Char} {more : List (List Char)}
    (hrest : cutFrom separator (p.run text) rest = piece :: more) :
    cutFrom separator p (text ++ rest) = (text ++ piece) :: more := by
  induction text generalizing p with
  | nil => exact hrest
  | cons c text ih =>
    have hcut : ¬ (c = separator ∧ p = top) := by
      rintro ⟨rfl, rfl⟩
      exact huncut [] text rfl rfl
    have hpieces := ih (p := p.step c)
      (fun before after hsplit ↦ huncut (c :: before) after (by rw [hsplit]; rfl)) hrest
    rw [List.cons_append, cutFrom, if_neg hcut, hpieces]
    rfl

theorem cutFrom_intercalate {pieces : List (List Char)} (hnil : pieces ≠ [])
    (hpieces : ∀ piece ∈ pieces, Solid separator piece) :
    cutFrom separator top ([separator].intercalate pieces) = pieces := by
  induction pieces with
  | nil => exact absurd rfl hnil
  | cons piece more ih =>
    have hpiece := hpieces piece List.mem_cons_self
    cases more with
    | nil =>
      have hend : cutFrom separator (top.run piece) [] = [[]] := rfl
      simpa using cutFrom_append hpiece.uncut hend
    | cons next more =>
      have hmore := ih (by simp) fun piece hpiece ↦ hpieces piece (List.mem_cons_of_mem _ hpiece)
      have hcut : cutFrom separator (top.run piece)
          (separator :: [separator].intercalate (next :: more)) = [] :: next :: more := by
        rw [hpiece.run_top, cutFrom, if_pos ⟨rfl, rfl⟩, hmore]
      simpa using cutFrom_append hpiece.uncut hcut

/-- Solid pieces joined by their separator are found again. -/
theorem splitTop_intercalate {pieces : List String} (hnil : pieces ≠ [])
    (hpieces : ∀ piece ∈ pieces, Solid separator piece.toList) {text : String}
    (htext : text.toList = [separator].intercalate (pieces.map String.toList)) :
    splitTop separator text = pieces := by
  rw [splitTop, htext, cutFrom_intercalate (by simpa using hnil) (by simpa using hpieces),
    List.map_map]
  simp [Function.comp_def]

/-- The closing bracket behind a text that does not get back to the first bracket itself. -/
theorem closing_append_of_run {p : Cursor}
    (hinside : ∀ before after, text = before ++ ')' :: after → p.run before ≠ top.deeper)
    (hend : p.run text = top.deeper) : closing p (text ++ ')' :: rest) = some (text, rest) := by
  induction text generalizing p with
  | nil => rw [List.nil_append, closing, if_pos ⟨rfl, hend⟩]
  | cons c text ih =>
    have hclose : ¬ (c = ')' ∧ p = top.deeper) := by
      rintro ⟨rfl, rfl⟩
      exact hinside [] text rfl rfl
    have hrest : closing (p.step c) (text ++ ')' :: rest) = some (text, rest) :=
      ih (fun before after hsplit ↦ hinside (c :: before) after (by rw [hsplit]; rfl)) hend
    rw [List.cons_append, closing, if_neg hclose, hrest]
    rfl

/-- A balanced text in brackets ends at the bracket that was opened in front of it. -/
theorem closing_append (htext : Balanced text) :
    closing top.deeper (text ++ ')' :: rest) = some (text, rest) := by
  refine closing_append_of_run (fun before after hsplit heq ↦ ?_) ?_
  · -- One more bracket closed here would leave the balanced text below zero.
    have hdepth := htext.depth_nonneg (before ++ [')']) after (by simp [hsplit])
    rw [run_deeper] at heq
    have htop : top.run before = top := deeper_injective heq
    rw [run_append, htop] at hdepth
    simp [step, top] at hdepth
  · rw [run_deeper, htext.run_top]

/-- The first bracket stands behind a text without brackets, and a balanced text follows it. -/
theorem opening_append {head : List Char} (hhead : Solid '(' head) (htext : Balanced text) :
    opening top (head ++ '(' :: (text ++ ')' :: rest)) = some (text, rest) := by
  have hopening : ∀ p : Cursor,
      (∀ before after, head = before ++ '(' :: after → p.run before ≠ top) → p.run head = top →
      opening p (head ++ '(' :: (text ++ ')' :: rest)) = some (text, rest) := by
    clear hhead
    induction head with
    | nil =>
      intro p _ hend
      obtain rfl : p = top := hend
      rw [List.nil_append, opening, if_pos ⟨rfl, rfl⟩]
      exact closing_append htext
    | cons c head ih =>
      intro p huncut hend
      have hopen : ¬ (c = '(' ∧ p = top) := by
        rintro ⟨rfl, rfl⟩
        exact huncut [] head rfl rfl
      rw [List.cons_append, opening, if_neg hopen]
      exact ih (p.step c)
        (fun before after hsplit ↦ huncut (c :: before) after (by rw [hsplit]; rfl)) hend
  exact hopening top hhead.uncut hhead.run_top

end Cutting

end ChangeDdl
