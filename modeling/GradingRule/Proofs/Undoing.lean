/-
Edits are all or nothing.  An addition that is refused leaves the draft as it
was.  One that is carried out adds a single term, even if the sequence then has
no expression, and undoing takes back that term and nothing else.
-/
import GradingRule.Proofs.Drafting

namespace GradingRule

namespace Draft

/-- The draft with these terms in the place of its own. -/
def withTerms (draft : Draft) (terms : List Term) : Draft :=
  { draft with sequence := ⟨terms⟩ }

/-- A preview is never a refusal. -/
theorem preview_eq_ok_or_sequence_fault (draft : Draft) :
    (∃ expression, draft.preview = .ok expression) ∨
      ∃ fault, draft.preview = .error (.sequence fault) := by
  rw [preview]
  cases draft.sequence.synthesize with
  | ok expression => exact .inl ⟨expression, rfl⟩
  | error fault => exact .inr ⟨fault, rfl⟩

theorem preview_of_terms_eq_nil {draft : Draft} (h : draft.sequence.terms = []) :
    draft.preview = .ok [] := by
  obtain ⟨session, limits, terms⟩ := draft
  obtain rfl : terms = .empty := by rw [Sequence.empty, ← h]
  rfl

/-- An edit that asks for a new term is refused or adds one at the end. -/
theorem Step.refused_or_added {draft next : Draft} {edit : Edit}
    {answer : Option (Except Failure Text)} (h : draft.Step edit next answer)
    (hadds : edit.adds = true) :
    (∃ cause, next = draft ∧ answer = some (.error (.rejected cause))) ∨
      ∃ operator body, next = draft.withTerms (draft.sequence.push operator body).terms ∧
        answer = some next.preview := by
  cases h with
  | refused cause hedit => exact .inl ⟨cause, rfl, rfl⟩
  | @added _ operator body htakes => exact .inr ⟨operator, body, rfl, rfl⟩
  | nothingUndone hpop => exact absurd hadds (by decide)
  | undone hpop => exact absurd hadds (by decide)
  | cleared => exact absurd hadds (by decide)
  | previewed => exact absurd hadds (by decide)
  | accepted hpreview => exact absurd hadds (by decide)
  | kept hpreview => exact absurd hadds (by decide)

theorem apply_undo_of_terms_eq_append {draft : Draft} {front : List Term} {last : Term}
    (h : draft.sequence.terms = front ++ [last]) :
    draft.apply .undo = (draft.withTerms front, some (draft.withTerms front).preview) := by
  have hpop : draft.sequence.pop? = some (last, ⟨front⟩) := Sequence.pop?_eq_some_iff.2 h
  simp only [apply, undo, hpop, revise, Prod.map_apply, id]
  rfl

theorem apply_undo_of_terms_eq_nil {draft : Draft} (h : draft.sequence.terms = []) :
    draft.apply .undo = (draft, some (.error (.rejected .nothingToUndo))) := by
  have hpop : draft.sequence.pop? = none := by simp [Sequence.pop?, h]
  simp only [apply, undo, hpop, refuse, Prod.map_apply, id]

/-- Undoing an addition restores the draft, and so its preview. -/
theorem apply_undo_withTerms_append (draft : Draft) (term : Term) :
    (draft.withTerms (draft.sequence.terms ++ [term])).apply .undo =
      (draft, some draft.preview) :=
  apply_undo_of_terms_eq_append rfl

/-- Only a draft that has terms can fail to be accepted, as the empty one has the
empty expression. -/
theorem accepted_or_kept (draft : Draft) :
    (∃ expression, draft.preview = .ok expression ∧
        draft.apply .accept = (draft.withTerms [], some (.ok expression))) ∨
      ∃ fault, draft.preview = .error fault ∧ draft.sequence.terms ≠ [] ∧
        draft.apply .accept = (draft, some (.error fault)) := by
  cases hpreview : draft.preview with
  | ok expression =>
      refine .inl ⟨expression, rfl, ?_⟩
      simp only [apply, accept, hpreview, Prod.map_apply, id]
      rfl
  | error fault =>
      refine .inr ⟨fault, rfl, ?_, ?_⟩
      · intro hnil
        rw [preview_of_terms_eq_nil hnil] at hpreview
        exact absurd hpreview (by simp)
      · simp only [apply, accept, hpreview, Prod.map_apply, id]

theorem Step.session_eq {draft next : Draft} {edit : Edit}
    {answer : Option (Except Failure Text)} (h : draft.Step edit next answer) :
    next.session = draft.session := by
  cases h <;> rfl

theorem run_session_and_limits (draft : Draft) (edits : List Edit) :
    (draft.run edits).session = draft.session ∧
      (draft.run edits).limits = draft.limits := by
  induction edits using List.reverseRecOn with
  | nil => exact ⟨rfl, rfl⟩
  | append_singleton front last ih =>
      have hstep := (draft.run front).step_apply last
      rw [run_append_singleton]
      exact ⟨hstep.session_eq.trans ih.1, hstep.limits_eq.trans ih.2⟩

/-- What every edit does to a draft in which there is an id left.  An addition is
refused without a trace or adds one term, whether or not there is an expression
then, and undoing it restores the draft with its preview.  Undoing removes the
last term of a draft, if there is one.  Accepting answers with the preview and
empties the draft exactly if that is an expression.  Session and limits stay. -/
theorem apply_atomic (draft : Draft) (hsize : draft.sequence.size + 1 < UInt32.size) :
    (∀ edit : Edit, edit.adds = true →
      (∃ cause, draft.apply edit = (draft, some (.error (.rejected cause)))) ∨
        ∃ term answer,
          draft.apply edit =
              (draft.withTerms (draft.sequence.terms ++ [term]), some answer) ∧
            ((∃ expression, answer = .ok expression) ∨
              ∃ fault, answer = .error (.sequence fault)) ∧
            term.id.number = draft.sequence.size + 1 ∧
            (draft.apply edit).1.apply .undo = (draft, some draft.preview)) ∧
      (∀ front last, draft.sequence.terms = front ++ [last] →
        draft.apply .undo = (draft.withTerms front, some (draft.withTerms front).preview)) ∧
      (draft.sequence.terms = [] →
        draft.apply .undo = (draft, some (.error (.rejected .nothingToUndo)))) ∧
      ((∃ expression, draft.preview = .ok expression ∧
          draft.apply .accept = (draft.withTerms [], some (.ok expression))) ∨
        ∃ fault, draft.preview = .error fault ∧ draft.sequence.terms ≠ [] ∧
          draft.apply .accept = (draft, some (.error fault))) ∧
      ∀ edits, (draft.run edits).session = draft.session ∧
        (draft.run edits).limits = draft.limits := by
  refine ⟨?_, fun _ _ => apply_undo_of_terms_eq_append, apply_undo_of_terms_eq_nil,
    draft.accepted_or_kept, draft.run_session_and_limits⟩
  intro edit hadds
  rcases (draft.step_apply edit).refused_or_added hadds with
    ⟨cause, hnext, hanswer⟩ | ⟨operator, body, hnext, hanswer⟩
  · exact .inl ⟨cause, Prod.ext hnext hanswer⟩
  · refine .inr ⟨⟨draft.sequence.nextId, operator, body⟩, (draft.apply edit).1.preview,
      Prod.ext hnext hanswer, preview_eq_ok_or_sequence_fault _,
      Sequence.nextId_number hsize, ?_⟩
    rw [hnext]
    exact draft.apply_undo_withTerms_append _

end Draft

namespace UndoingWitness

/-- Two alternatives, as many as there may be. -/
def draft : Draft :=
  (Draft.start ⟨0⟩ {}).run
    [.word .and "ox".toList, .word .or "cow".toList, .word .or "bull".toList]

/-- One alternative too many is kept without an expression, and can be undone. -/
theorem apply_atomic_third_alternative :
    draft.sequence.size + 1 < UInt32.size ∧ (Edit.word .or "calf".toList).adds = true ∧
      (draft.apply (.word .or "calf".toList)).2 =
        some (.error (.sequence (.tooManyDisjunctions 3 2))) ∧
      (draft.apply (.word .or "calf".toList)).1.apply .undo = (draft, some draft.preview) := by
  have hsize : draft.sequence.size + 1 < UInt32.size := by decide
  have hanswer : (draft.apply (.word .or "calf".toList)).2 =
      some (.error (.sequence (.tooManyDisjunctions 3 2))) := rfl
  refine ⟨hsize, rfl, hanswer, ?_⟩
  rcases (Draft.apply_atomic draft hsize).1 (.word .or "calf".toList) rfl with
    ⟨cause, hrefused⟩ | ⟨term, answer, -, -, -, hundo⟩
  · rw [hrefused] at hanswer
    simp at hanswer
  · exact hundo

end UndoingWitness

end GradingRule
