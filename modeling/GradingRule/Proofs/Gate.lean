/-
Validation as the only gate of synthesis.  What the validator lets through has
all its fragments, and its disjunction points select a shape, so an expression
fails for the fault that the validator names and for no other.
-/
import GradingRule.Proofs.Nesting

namespace GradingRule

namespace Sequence

/-- A coherent sequence can only have too many disjunctions. -/
theorem Coherent.fault?_eq {sequence : Sequence} (h : sequence.Coherent) :
    sequence.fault? =
      if maxDisjunctions < sequence.tagCount .or then
        some (.tooManyDisjunctions (sequence.tagCount .or) maxDisjunctions)
      else none := by
  rw [fault?, orCount_eq_tagCount, List.findSome?_eq_none_iff.2, Option.none_or]
  rintro ⟨term, index⟩ hmem
  exact termFault?_eq_none_iff.2 (h index term (List.mem_zipIdx_iff_getElem?.1 hmem))

theorem termFault?_ne_disjunctionPoint {sequence : Sequence} {index : Nat} {term : Term}
    {fault : SequenceFault} (h : sequence.termFault? index term = some fault)
    (point size : Nat) : fault ≠ .disjunctionPoint point size := by
  rintro rfl
  by_cases hid : term.id.number = index + 1
  · cases hbody : term.body with
    | primary form token => simp [termFault?_of_primary hid hbody] at h
    | pair relation first second =>
        rw [termFault?_of_pair hid hbody] at h
        split_ifs at h with hop hsame
        · simp at h
        · simp at h
        · obtain ⟨target, -, htarget⟩ := List.exists_of_findSome?_eq_some h
          simp at htarget
  · simp [termFault?_of_misnumbered hid] at h

/-- Only the choice of a shape finds fault with a disjunction point. -/
theorem fault?_ne_disjunctionPoint {sequence : Sequence} {fault : SequenceFault}
    (h : sequence.fault? = some fault) (point size : Nat) :
    fault ≠ .disjunctionPoint point size := by
  rw [fault?, Option.or_eq_some_iff] at h
  rcases h with hterms | ⟨-, hcount⟩
  · obtain ⟨⟨term, index⟩, -, hterm⟩ := List.exists_of_findSome?_eq_some hterms
    exact termFault?_ne_disjunctionPoint hterm point size
  · rintro rfl
    split_ifs at hcount
    simp at hcount

theorem validate_eq_error_iff {sequence : Sequence} {fault : SequenceFault} :
    sequence.validate = .error fault ↔ sequence.fault? = some fault := by
  unfold validate
  cases sequence.fault? <;> simp

/-- Few enough disjunctions always select a shape: their points are places. -/
theorem exists_ofPoints_eq_ok {sequence : Sequence}
    (h : sequence.tagCount .or ≤ maxDisjunctions) :
    ∃ shape, Shape.ofPoints sequence.size sequence.disjunctionPoints = .ok shape := by
  have hfew := Nat.le_trans sequence.length_disjunctionPoints_le_tagCount h
  rw [disjunctionPoints_eq_joinPoints] at hfew ⊢
  obtain ⟨shape, hshape, -⟩ := Shape.exists_render_eq_nest Term.isOr (fun _ => []) hfew
  exact ⟨shape, hshape⟩

/-- What the validator lets through has its fragments and a shape. -/
theorem exists_fragments_and_shape {sequence : Sequence} (h : sequence.validate = .ok ()) :
    ∃ fragments shape, sequence.fragments = .ok fragments ∧
      Shape.ofPoints fragments.length sequence.disjunctionPoints = .ok shape := by
  obtain ⟨hcoherent, hcount⟩ := validate_eq_ok_iff.1 h
  obtain ⟨fragments, hfragments⟩ := hcoherent.exists_fragments_eq_ok
  obtain ⟨shape, hshape⟩ := exists_ofPoints_eq_ok hcount
  rw [← length_fragments hfragments] at hshape
  exact ⟨fragments, shape, hfragments, hshape⟩

/-- After validation the expression is the shape over the fragments. -/
theorem synthesize_eq_ok_render {sequence : Sequence} {fragments : List Text} {shape : Shape}
    (h : sequence.validate = .ok ()) (hfragments : sequence.fragments = .ok fragments)
    (hshape : Shape.ofPoints fragments.length sequence.disjunctionPoints = .ok shape) :
    sequence.synthesize = .ok (shape.render fragments) := by
  simp only [synthesize, h, hfragments, hshape, bind, Except.bind]
  rfl

theorem synthesize_eq_error_of_validate {sequence : Sequence} {fault : SequenceFault}
    (h : sequence.validate = .error fault) : sequence.synthesize = .error fault := by
  simp only [synthesize, h, bind, Except.bind]

theorem validate_eq_error_of_synthesize {sequence : Sequence} {fault : SequenceFault}
    (h : sequence.synthesize = .error fault) : sequence.validate = .error fault := by
  cases hvalidate : sequence.validate with
  | error found =>
      rw [synthesize_eq_error_of_validate hvalidate] at h
      rw [Except.error.inj h]
  | ok done =>
      obtain ⟨fragments, shape, hfragments, hshape⟩ := exists_fragments_and_shape hvalidate
      rw [synthesize_eq_ok_render hvalidate hfragments hshape] at h
      exact absurd h (by simp)

/-- Synthesis and validation fail alike, whatever the sequence.  Past the
validator the fragments and the shape are there, so no fault is about a
disjunction point, and missing fragments mean a fault that the validator has
named before. -/
theorem synthesize_eq_error_iff_validate (sequence : Sequence) :
    (∀ fault, sequence.synthesize = .error fault ↔ sequence.validate = .error fault) ∧
      (sequence.validate = .ok () →
        ∃ fragments shape, sequence.fragments = .ok fragments ∧
          Shape.ofPoints fragments.length sequence.disjunctionPoints = .ok shape) ∧
      (∀ point size, sequence.synthesize ≠ .error (.disjunctionPoint point size)) ∧
      ∀ raised, sequence.fragments = .error raised →
        ∃ fault, sequence.validate = .error fault ∧ sequence.synthesize = .error fault := by
  refine ⟨fun fault => ⟨validate_eq_error_of_synthesize, synthesize_eq_error_of_validate⟩,
    exists_fragments_and_shape, ?_, ?_⟩
  · intro point size h
    have hfault := validate_eq_error_iff.1 (validate_eq_error_of_synthesize h)
    exact fault?_ne_disjunctionPoint hfault point size rfl
  · intro raised hraised
    cases hvalidate : sequence.validate with
    | error fault => exact ⟨fault, rfl, synthesize_eq_error_of_validate hvalidate⟩
    | ok done =>
        obtain ⟨fragments, -, hfragments, -⟩ := exists_fragments_and_shape hvalidate
        rw [hfragments] at hraised
        exact absurd hraised (by simp)

end Sequence

namespace GateWitness

/-- A word and a relation of it to a term that is not there. -/
def dangling : Sequence :=
  (Sequence.empty.push .and (.primary .word (.ofText "owl".toList (by decide)))).push
    .and (.pair .precedes (.atPlace 1) (.atPlace 9))

/-- Its word alone. -/
def whole : Sequence :=
  Sequence.empty.push .or (.primary .word (.ofText "owl".toList (by decide)))

/-- The fragments fail for another reason than the validator, whose fault counts. -/
theorem synthesize_dangling :
    dangling.validate = .error (.reference (.atPlace 2) (.atPlace 9) .notEarlier) ∧
      dangling.synthesize = .error (.reference (.atPlace 2) (.atPlace 9) .notEarlier) ∧
      dangling.fragments = .error (.reference (.atPlace 2) (.atPlace 9) .notPrimary) ∧
      (∃ fault, dangling.validate = .error fault ∧ dangling.synthesize = .error fault) ∧
      whole.validate = .ok () ∧
      ∃ fragments shape, whole.fragments = .ok fragments ∧
        Shape.ofPoints fragments.length whole.disjunctionPoints = .ok shape :=
  ⟨rfl, (dangling.synthesize_eq_error_iff_validate.1 _).2 rfl, rfl,
    dangling.synthesize_eq_error_iff_validate.2.2.2 _ rfl, rfl,
    whole.synthesize_eq_error_iff_validate.2.1 rfl⟩

end GateWitness

end GradingRule
