import GradingRule.Text.Basic
import GradingRule.Text.Blank
import GradingRule.Text.Quoted
import GradingRule.Text.Underscore
import GradingRule.Token
import GradingRule.Term
import GradingRule.Sequence.Basic
import GradingRule.Sequence.Fault
import GradingRule.Expression.Fragment
import GradingRule.Expression.Grouping
import GradingRule.Expression.Synthesis
import GradingRule.Rule.Dialect
import GradingRule.Rule.Lexeme
import GradingRule.Rule.Fault
import GradingRule.Rule.Lexing
import GradingRule.Rule.Clause
import GradingRule.Rule.Decoding
import GradingRule.Draft.Rejection
import GradingRule.Settings.Fault
import GradingRule.Failure
import GradingRule.Draft.Basic
import GradingRule.Suggestion
import GradingRule.Json.Basic
import GradingRule.Json.Quoted
import GradingRule.Json.Number
import GradingRule.Json.Lexeme
import GradingRule.Json.Tree
import GradingRule.Json.Range
import GradingRule.Json.Layout
import GradingRule.Json.Field
import GradingRule.Sequence.Json
import GradingRule.Settings.Basic
import GradingRule.Settings.Json
import GradingRule.Proofs.Fallible
import GradingRule.Proofs.Coherent
import GradingRule.Proofs.Blocks
import GradingRule.Proofs.Nesting
import GradingRule.Proofs.Gate
import GradingRule.Proofs.Readability
import GradingRule.Proofs.Tokens
import GradingRule.Proofs.Drafting
import GradingRule.Proofs.Previews
import GradingRule.Proofs.Spelling
import GradingRule.Proofs.Parsing
import GradingRule.Proofs.Meaning
import GradingRule.Proofs.Decoding
import GradingRule.Proofs.ClauseByClause
import GradingRule.Proofs.JsonReading
import GradingRule.Proofs.Documents
import GradingRule.Proofs.Outcomes
import GradingRule.Proofs.Replaying
import GradingRule.Proofs.Undoing
import GradingRule.Proofs.Parentheses
import GradingRule.Proofs.BareUnderscores
import GradingRule.Proofs.Importing
import GradingRule.Proofs.Grammar
import GradingRule.Proofs.Notation
import GradingRule.Proofs.Viability
import GradingRule.Proofs.Spans
import GradingRule.Proofs.Places
import GradingRule.Proofs.Spacing
import GradingRule.Proofs.Fronts
import GradingRule.Proofs.ClauseTexts
import GradingRule.Proofs.Culprits
import GradingRule.Proofs.Selecting
import GradingRule.Proofs.Walking
import GradingRule.Proofs.FirstFault
import GradingRule.Proofs.Popping
import GradingRule.Proofs.EmptyRules
import GradingRule.Proofs.NormalForm
