/-
The expression of a whole sequence.
-/
import GradingRule.Expression.Grouping

namespace GradingRule.Sequence

/-- Validates the sequence and nests its fragments; the empty sequence has the
empty expression. -/
def synthesize (sequence : Sequence) : Except SequenceFault Text := do
  sequence.validate
  let fragments ← sequence.fragments
  let shape ← Shape.ofPoints fragments.length sequence.disjunctionPoints
  return shape.render fragments

end GradingRule.Sequence
