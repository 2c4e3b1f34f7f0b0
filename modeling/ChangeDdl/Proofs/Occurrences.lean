import Mathlib.Data.List.Infix

/-!
The places at which a word occurs in a text. Where two texts meet and the first ends in a character
that the word lacks, or the second begins with one, no occurrence reaches over the joint
(`Parted.sides`), so the occurrences on the two sides add up (`Parted.occurrences_append`).
-/

set_option autoImplicit false
set_option relaxedAutoImplicit false

namespace ChangeDdl

/-- The number of places from which on a text goes on with the word. -/
def occurrences (word text : List Char) : Nat :=
  text.tails.countP fun rest ↦ word <+: rest

/-- No occurrence of the word reaches over the joint of the two texts. -/
def Parted (word u v : List Char) : Prop :=
  (∀ c ∈ u.getLast?, c ∉ word) ∨ ∀ c ∈ v.head?, c ∉ word

section Joints

variable {word u v : List Char}

theorem occurrences_eq_zero_iff : occurrences word u = 0 ↔ ¬ word <:+: u := by
  simp only [occurrences, List.countP_eq_zero, List.mem_tails, decide_eq_true_eq,
    List.infix_iff_prefix_suffix, not_exists, not_and]
  exact ⟨fun h rest hword hrest ↦ h rest hrest hword, fun h rest hrest hword ↦ h rest hword hrest⟩

/-- A word that lacks a character ends in front of it if it begins there. -/
theorem prefix_of_prefix_append_cons {c : Char} (hc : c ∉ word) (h : word <+: u ++ c :: v) :
    word <+: u := by
  refine List.prefix_of_prefix_length_le h (List.prefix_append u _) ?_
  by_contra hlength
  have hjoint : u ++ [c] <+: u ++ c :: v := ⟨v, by simp⟩
  have hreach : u ++ [c] <+: word :=
    List.prefix_of_prefix_length_le hjoint h (by simpa [Nat.succ_le_iff] using hlength)
  exact hc (hreach.subset (by simp))

namespace Parted

theorem prefix_of_append (h : Parted word u v) (hu : u ≠ []) (hbegins : word <+: u ++ v) :
    word <+: u := by
  rcases h with hlast | hhead
  · obtain ⟨front, c, rfl⟩ := (List.eq_nil_or_concat' u).resolve_left hu
    rw [List.append_assoc] at hbegins
    exact (prefix_of_prefix_append_cons (hlast c (by simp)) hbegins).trans (List.prefix_append _ _)
  · cases v with
    | nil => simpa using hbegins
    | cons c v => exact prefix_of_prefix_append_cons (hhead c rfl) hbegins

theorem tail {c : Char} (h : Parted word (c :: u) v) : Parted word u v := by
  refine h.imp_left fun hlast d hd ↦ hlast d ?_
  cases u with
  | nil => simp at hd
  | cons => simpa using hd

/-- An occurrence of the word lies on one side of the joint. -/
theorem sides (h : Parted word u v) {before after : List Char}
    (heq : u ++ v = before ++ (word ++ after)) :
    (∃ more, before = u ++ more ∧ v = more ++ (word ++ after)) ∨
      ∃ inside, u = before ++ (word ++ inside) ∧ after = inside ++ v := by
  induction u generalizing before with
  | nil => exact Or.inl ⟨before, rfl, heq⟩
  | cons c u ih =>
    cases before with
    | nil =>
      have hbegins : word <+: (c :: u) ++ v := ⟨after, heq.symm⟩
      obtain ⟨inside, hinside⟩ := h.prefix_of_append (by simp) hbegins
      rw [← hinside, List.nil_append, List.append_assoc] at heq
      exact Or.inr ⟨inside, hinside.symm, (List.append_cancel_left heq).symm⟩
    | cons d before =>
      simp only [List.cons_append, List.cons.injEq] at heq
      obtain ⟨rfl, heq⟩ := heq
      rcases ih h.tail heq with ⟨more, rfl, hv⟩ | ⟨inside, rfl, hafter⟩
      · exact Or.inl ⟨more, rfl, hv⟩
      · exact Or.inr ⟨inside, rfl, hafter⟩

theorem occurrences_append (h : Parted word u v) (hword : word ≠ []) :
    occurrences word (u ++ v) = occurrences word u + occurrences word v := by
  induction u with
  | nil => simp [occurrences, hword]
  | cons c u ih =>
    have hfirst : word <+: c :: (u ++ v) ↔ word <+: c :: u :=
      ⟨h.prefix_of_append (by simp), fun hu ↦ hu.trans (List.prefix_append (c :: u) v)⟩
    have hrest := ih h.tail
    simp only [occurrences] at hrest ⊢
    rw [List.cons_append, List.tails_cons, List.tails_cons, List.countP_cons, List.countP_cons,
      hrest]
    simp only [hfirst]
    omega

end Parted

end Joints

end ChangeDdl
