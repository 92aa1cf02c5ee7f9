/-
Batches of suggested rules.  Every rule has an outcome of its own, and a bad
rule does not stop the rules after it.
-/
import GradingRule.Expression.Synthesis
import GradingRule.Failure
import GradingRule.Rule.Decoding

namespace GradingRule

/-- The expression of a rule in clause notation, if it is a rule at all. -/
def Dialect.expression (dialect : Dialect) (rule : Text) : Except Failure (Option Text) :=
  if dialect.isEmptyRule rule then .ok none
  else do
    let sequence ← (dialect.decode rule).mapError .rule
    let expression ← sequence.synthesize.mapError .sequence
    return some expression

structure Suggestion where
  rule : Text
  outcome : Except Failure (Option Text)

namespace Suggestion

def ofRule (dialect : Dialect) (rule : Text) : Suggestion :=
  ⟨rule, dialect.expression rule⟩

def ofRules (dialect : Dialect) (rules : List Text) : List Suggestion :=
  rules.map (ofRule dialect)

def expression? (suggestion : Suggestion) : Option Text :=
  suggestion.outcome.toOption.join

def isError (suggestion : Suggestion) : Bool :=
  suggestion.outcome matches .error _

end Suggestion

end GradingRule
