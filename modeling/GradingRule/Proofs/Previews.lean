/-
What drafts answer.  A draft never holds anything worse than too many
disjunctions, however it was edited, so that is the only fault of its sequence
that a preview or any other answer can report.
-/
import GradingRule.Proofs.Drafting
import GradingRule.Proofs.Gate

namespace GradingRule

namespace Sequence

/-- A coherent sequence has an expression if it has few enough disjunctions. -/
theorem Coherent.exists_synthesize_eq_ok {sequence : Sequence} (h : sequence.Coherent)
    (hcount : sequence.tagCount .or ≤ maxDisjunctions) :
    ∃ expression, sequence.synthesize = .ok expression := by
  have hvalidate := validate_eq_ok_iff.2 ⟨h, hcount⟩
  obtain ⟨fragments, shape, hfragments, hshape⟩ := exists_fragments_and_shape hvalidate
  exact ⟨_, synthesize_eq_ok_render hvalidate hfragments hshape⟩

theorem Coherent.synthesize_eq_tooManyDisjunctions {sequence : Sequence}
    (h : sequence.Coherent) (hcount : maxDisjunctions < sequence.tagCount .or) :
    sequence.synthesize =
      .error (.tooManyDisjunctions (sequence.tagCount .or) maxDisjunctions) := by
  apply synthesize_eq_error_of_validate
  rw [validate_eq_error_iff, h.fault?_eq, if_pos hcount]

end Sequence

namespace Draft

theorem exists_preview_eq_ok_iff {draft : Draft} (h : draft.sequence.Coherent) :
    (∃ expression, draft.preview = .ok expression) ↔
      draft.sequence.tagCount .or ≤ maxDisjunctions := by
  constructor
  · rintro ⟨expression, hpreview⟩
    by_contra hcount
    rw [preview, h.synthesize_eq_tooManyDisjunctions (Nat.lt_of_not_le hcount)] at hpreview
    exact absurd hpreview (by simp [Except.mapError])
  · intro hcount
    obtain ⟨expression, hexpression⟩ := h.exists_synthesize_eq_ok hcount
    exact ⟨expression, by rw [preview, hexpression]; rfl⟩

theorem preview_eq_tooManyDisjunctions {draft : Draft} (h : draft.sequence.Coherent)
    (hcount : maxDisjunctions < draft.sequence.tagCount .or) :
    draft.preview =
      .error (.sequence (.tooManyDisjunctions (draft.sequence.tagCount .or) maxDisjunctions)) := by
  rw [preview, h.synthesize_eq_tooManyDisjunctions hcount]
  rfl

/-- A fault of a sequence in an answer is that of the draft after the edit. -/
theorem Step.preview_eq_of_sequence_fault {draft next : Draft} {edit : Edit}
    {fault : SequenceFault} (h : draft.Step edit next (some (.error (.sequence fault)))) :
    next.preview = .error (.sequence fault) := by
  rcases h.answer_cases with hnone | ⟨cause, hrefused⟩ | hnext | ⟨expression, -, hok⟩
  · simp at hnone
  · simp at hrefused
  · exact (Option.some.inj hnext).symm
  · simp at hok

/-- An edit adds one term at most. -/
theorem Step.size_le {draft next : Draft} {edit : Edit}
    {answer : Option (Except Failure Text)} (h : draft.Step edit next answer) :
    next.sequence.size ≤ draft.sequence.size + 1 := by
  cases h with
  | refused cause hadds => exact Nat.le_succ _
  | added htakes => exact Nat.le_of_eq (Sequence.size_push _ _ _)
  | nothingUndone hpop => exact Nat.le_succ _
  | undone hpop =>
      have hterms := Sequence.pop?_eq_some_iff.1 hpop
      simp only [Sequence.size, hterms, List.length_append]
      omega
  | cleared => exact Nat.zero_le _
  | previewed => exact Nat.le_succ _
  | accepted hpreview => exact Nat.zero_le _
  | kept hpreview => exact Nat.le_succ _

theorem size_run_le (draft : Draft) (edits : List Edit) :
    (draft.run edits).sequence.size ≤ draft.sequence.size + edits.length := by
  induction edits using List.reverseRecOn with
  | nil => exact Nat.le_refl _
  | append_singleton front last ih =>
      have hstep := ((draft.run front).step_apply last).size_le
      rw [run_append_singleton, List.length_append, List.length_singleton]
      omega

/-- It takes 2^32 edits to run out of ids. -/
theorem staysInRange_start (session : SessionId) (limits : Limits) {edits : List Edit}
    (h : edits.length < UInt32.size) : (start session limits).StaysInRange edits := by
  intro made hmade
  have hsize := (start session limits).size_run_le made
  have hlength := hmade.length_le
  have hstart : (start session limits).sequence.size = 0 := rfl
  omega

theorem coherent_run (session : SessionId) (limits : Limits) {edits : List Edit}
    (h : (start session limits).StaysInRange edits) :
    ((start session limits).run edits).sequence.Coherent :=
  (run_draftable (Sequence.draftable_empty limits) h).2.coherent

/-- However a draft was edited, its preview fails for too many disjunctions only,
and no edit on the way has reported any other fault of the sequence. -/
theorem preview_run (session : SessionId) (limits : Limits) (edits : List Edit)
    (h : (start session limits).StaysInRange edits) :
    ((∃ expression, ((start session limits).run edits).preview = .ok expression) ↔
        ((start session limits).run edits).sequence.tagCount .or ≤ 2) ∧
      (2 < ((start session limits).run edits).sequence.tagCount .or →
        ((start session limits).run edits).preview =
          .error (.sequence (.tooManyDisjunctions
            (((start session limits).run edits).sequence.tagCount .or) 2))) ∧
      ∀ made edit fault, made ++ [edit] <+: edits →
        (((start session limits).run made).apply edit).2 =
          some (.error (.sequence fault)) →
        fault = .tooManyDisjunctions
          (((start session limits).run (made ++ [edit])).sequence.tagCount .or) 2 := by
  have hcoherent := coherent_run session limits h
  refine ⟨exists_preview_eq_ok_iff hcoherent, preview_eq_tooManyDisjunctions hcoherent, ?_⟩
  intro made edit fault hmade hanswer
  have hstep := ((start session limits).run made).step_apply edit
  rw [hanswer, ← run_append_singleton] at hstep
  have hpreview := hstep.preview_eq_of_sequence_fault
  have hrange : (start session limits).StaysInRange (made ++ [edit]) :=
    fun before hbefore => h before (hbefore.trans hmade)
  have hafter := coherent_run session limits hrange
  by_cases hcount :
      ((start session limits).run (made ++ [edit])).sequence.tagCount .or ≤ maxDisjunctions
  · obtain ⟨expression, hexpression⟩ := (exists_preview_eq_ok_iff hafter).2 hcount
    rw [hexpression] at hpreview
    exact absurd hpreview (by simp)
  · rw [preview_eq_tooManyDisjunctions hafter (Nat.lt_of_not_le hcount)] at hpreview
    exact (Failure.sequence.inj (Except.error.inj hpreview)).symm

end Draft

namespace PreviewsWitness

/-- Three alternatives, one too many, and a fourth. -/
def edits : List Edit :=
  [.word .and "a".toList, .word .or "b".toList, .word .or "c".toList,
    .word .or "d".toList, .accept]

def draft (edits : List Edit) : Draft :=
  (Draft.start ⟨0⟩ {}).run edits

theorem preview_run_accept :
    (Draft.start ⟨0⟩ {}).StaysInRange edits ∧
      2 < (draft edits).sequence.tagCount .or ∧
      (draft edits).preview = .error (.sequence (.tooManyDisjunctions 3 2)) ∧
      ∀ fault, ((draft (edits.take 4)).apply .accept).2 = some (.error (.sequence fault)) →
        fault = .tooManyDisjunctions 3 2 := by
  have hrange : (Draft.start ⟨0⟩ {}).StaysInRange edits :=
    Draft.staysInRange_start _ _ (by decide)
  have h := Draft.preview_run ⟨0⟩ {} edits hrange
  exact ⟨hrange, by decide, h.2.1 (by decide),
    fun fault => h.2.2 (edits.take 4) .accept fault (by decide)⟩

end PreviewsWitness

end GradingRule
