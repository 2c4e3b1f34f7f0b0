import ChangeDdl.Proofs.Fallible
import ChangeDdl.Ddl.Statement

/-!
Writing the changes of an event by their kinds is all or nothing, and it composes. The first failure
among the statements is that of an alteration, whichever one it is, so the error says nothing about
the place (`synthesize_eq_error_iff`); without alterations every change has its own statement, and
these are joined (`synthesize_eq_ok_iff`). Joined texts of two lists compose, with the separator
between two parts only if neither is empty (`composed_intercalate`), for either way of writing an
event.
-/

set_option autoImplicit false
set_option relaxedAutoImplicit false

namespace ChangeDdl

/-! ### Joined parts -/

/-- The text for a list in two parts, from the texts for the parts. -/
structure Composed {α : Type} (separator : String) (xs ys : List α) (first second text : String) :
    Prop where
  both : xs ≠ [] → ys ≠ [] → text = first ++ separator ++ second
  left_empty : xs = [] → text = second
  right_empty : ys = [] → text = first

theorem composed_intercalate {α : Type} (separator : String) (write : α → String) (xs ys : List α) :
    Composed separator xs ys (separator.intercalate (xs.map write))
      (separator.intercalate (ys.map write)) (separator.intercalate ((xs ++ ys).map write)) where
  both hxs hys := by
    rw [List.map_append]
    exact String.intercalate_append_of_ne_nil (by simpa using hxs) (by simpa using hys)
  left_empty hxs := by rw [hxs, List.nil_append]
  right_empty hys := by rw [hys, List.append_nil]

/-! ### Statements by kind -/

/-- Two changes of one kind that differ at most in what a removal would have defined. -/
def TableChange.SameButDropped (change other : TableChange) : Prop :=
  change.kind = other.kind ∧ (change.kind = .drop ∨ change.table = other.table)

namespace Synthesizer

variable (s : Synthesizer)

/-- The statement for a change that is no alteration. -/
def written (source : Source) (change : TableChange) : String :=
  if change.kind = .drop then s.dropTable source else s.createTable source change.table

theorem statement_of_ne_alter {source : Source} {change : TableChange}
    (hkind : change.kind ≠ .alter) : s.statement source change = .ok (s.written source change) := by
  unfold statement written
  cases h : change.kind with
  | create => rfl
  | alter => exact absurd h hkind
  | drop => rfl

theorem statement_eq_error_iff {source : Source} {change : TableChange} {err : Error} :
    s.statement source change = .error err ↔ change.kind = .alter ∧
      err = .unsupportedChange .alter (s.dialect.qualified source.schema source.table) := by
  constructor
  · intro h
    have hkind : change.kind = .alter := by
      by_contra hne
      rw [statement_of_ne_alter s hne] at h
      exact nomatch h
    refine ⟨hkind, ?_⟩
    rw [statement, hkind] at h
    exact (Except.error.inj h).symm
  · rintro ⟨hkind, rfl⟩
    rw [statement, hkind]
    rfl

/-! ### Events by kind -/

variable {e : ChangeEvent}

theorem synthesize_of_no_alter (h : ∀ change ∈ e.changes, change.kind ≠ .alter) :
    s.synthesize e =
      .ok (s.dialect.statementSeparator.intercalate (e.changes.map (s.written e.source))) := by
  have hstatements : e.changes.mapM (s.statement e.source) =
      .ok (e.changes.map (s.written e.source)) := by
    rw [mapM_eq_ok_iff, List.map_map]
    exact List.map_congr_left fun change hchange ↦ s.statement_of_ne_alter (h change hchange)
  unfold synthesize
  rw [hstatements]
  rfl

theorem synthesize_eq_error_iff {err : Error} :
    s.synthesize e = .error err ↔ (∃ change ∈ e.changes, change.kind = .alter) ∧
      err = .unsupportedChange .alter (s.dialect.qualified e.source.schema e.source.table) := by
  constructor
  · intro h
    obtain hstatements | ⟨_, _, hjoined⟩ := bind_eq_error_iff.mp h
    · obtain ⟨change, hchange, hfailed⟩ := exists_of_mapM_eq_error hstatements
      obtain ⟨hkind, rfl⟩ := s.statement_eq_error_iff.mp hfailed
      exact ⟨⟨change, hchange, hkind⟩, rfl⟩
    · exact nomatch hjoined
  · rintro ⟨⟨change, hchange, hkind⟩, rfl⟩
    have hfailed : s.statement e.source change = .error
        (.unsupportedChange .alter (s.dialect.qualified e.source.schema e.source.table)) :=
      s.statement_eq_error_iff.mpr ⟨hkind, rfl⟩
    obtain ⟨err, herr⟩ := exists_mapM_eq_error hchange hfailed
    -- The traversal stops at the first alteration, which need not be this one.
    obtain ⟨other, _, hother⟩ := exists_of_mapM_eq_error herr
    obtain ⟨-, rfl⟩ := s.statement_eq_error_iff.mp hother
    exact bind_eq_error_iff.mpr (.inl herr)

theorem synthesize_eq_ok_iff {text : String} :
    s.synthesize e = .ok text ↔ (∀ change ∈ e.changes, change.kind ≠ .alter) ∧
      text = s.dialect.statementSeparator.intercalate (e.changes.map (s.written e.source)) := by
  constructor
  · intro h
    have hkinds : ∀ change ∈ e.changes, change.kind ≠ .alter := by
      intro change hchange hkind
      have herror := s.synthesize_eq_error_iff.mpr ⟨⟨change, hchange, hkind⟩, rfl⟩
      rw [h] at herror
      exact nomatch herror
    rw [synthesize_of_no_alter s hkinds] at h
    exact ⟨hkinds, (Except.ok.inj h).symm⟩
  · rintro ⟨hkinds, rfl⟩
    exact s.synthesize_of_no_alter hkinds

theorem synthesize_of_create (h : ∀ change ∈ e.changes, change.kind = .create) :
    s.synthesize e = .ok (s.convert e) := by
  have hkinds : ∀ change ∈ e.changes, change.kind ≠ .alter := by
    intro change hchange
    simp [h change hchange]
  have hcreations : e.changes.map (s.written e.source) =
      e.changes.map fun change ↦ s.createTable e.source change.table :=
    List.map_congr_left fun change hchange ↦ if_neg (by simp [h change hchange])
  rw [synthesize_of_no_alter s hkinds, hcreations]
  rfl

/-- A removal is written from the source of the event alone. -/
theorem statement_sameButDropped {source : Source} {change other : TableChange}
    (h : change.SameButDropped other) : s.statement source change = s.statement source other := by
  obtain ⟨hkind, hdrop | htable⟩ := h
  · rw [statement, statement, ← hkind, hdrop]
    rfl
  · rw [statement, statement, ← hkind, htable]

/-! ### Two parts of an event -/

/-- Writing by kinds fails exactly on an alteration, always with the same error, and otherwise gives
the texts of the parts joined. It agrees with conversion where everything is created and does not
see what a removal carries. Conversion composes alike and does not see the kinds. -/
theorem dispatch_composes (source : Source) (xs ys : List TableChange) :
    ((∃ err, s.synthesize ⟨source, xs ++ ys⟩ = .error err) ↔
        ∃ change ∈ xs ++ ys, change.kind = .alter) ∧
      (∀ err, s.synthesize ⟨source, xs ++ ys⟩ = .error err →
        err = .unsupportedChange .alter (s.dialect.qualified source.schema source.table)) ∧
      (∀ text, s.synthesize ⟨source, xs ++ ys⟩ = .ok text → ∃ first second,
        s.synthesize ⟨source, xs⟩ = .ok first ∧ s.synthesize ⟨source, ys⟩ = .ok second ∧
          Composed s.dialect.statementSeparator xs ys first second text) ∧
      ((∀ change ∈ xs, change.kind = .create) →
        s.synthesize ⟨source, xs⟩ = .ok (s.convert ⟨source, xs⟩)) ∧
      (List.Forall₂ TableChange.SameButDropped xs ys →
        s.synthesize ⟨source, xs⟩ = s.synthesize ⟨source, ys⟩) ∧
      Composed s.dialect.statementSeparator xs ys (s.convert ⟨source, xs⟩)
        (s.convert ⟨source, ys⟩) (s.convert ⟨source, xs ++ ys⟩) ∧
      (xs.map TableChange.table = ys.map TableChange.table →
        s.convert ⟨source, xs⟩ = s.convert ⟨source, ys⟩) := by
  refine ⟨⟨?_, ?_⟩, fun err herr ↦ (s.synthesize_eq_error_iff.mp herr).2, fun text htext ↦ ?_,
    s.synthesize_of_create (e := ⟨source, xs⟩), fun hsame ↦ ?_, composed_intercalate _ _ xs ys,
    fun htables ↦ ?_⟩
  · rintro ⟨err, herr⟩
    exact (s.synthesize_eq_error_iff.mp herr).1
  · intro halter
    exact ⟨_, s.synthesize_eq_error_iff.mpr ⟨halter, rfl⟩⟩
  · obtain ⟨hkinds, rfl⟩ := s.synthesize_eq_ok_iff.mp htext
    have hfirst := s.synthesize_of_no_alter (e := ⟨source, xs⟩) fun change hchange ↦
      hkinds change (List.mem_append_left ys hchange)
    have hsecond := s.synthesize_of_no_alter (e := ⟨source, ys⟩) fun change hchange ↦
      hkinds change (List.mem_append_right xs hchange)
    exact ⟨_, _, hfirst, hsecond, composed_intercalate _ _ xs ys⟩
  · have hstatements : xs.mapM (s.statement source) = ys.mapM (s.statement source) :=
      mapM_congr (hsame.imp fun _ _ ↦ s.statement_sameButDropped)
    unfold synthesize
    exact congrArg (· >>= _) hstatements
  · rw [convert_eq_map_table, convert_eq_map_table, htables]

end Synthesizer

end ChangeDdl
