/-
The spelling that rules in clause notation use.
-/
import GradingRule.Text.Blank

namespace GradingRule

/-- A rule is `head(responseVar) neck` followed by its clauses; `emptyRule` is
the whole text that stands for no rule at all. -/
structure Dialect where
  head : Text := "correct_response".toList
  neck : Text := ":-".toList
  emptyRule : Text := "correct_response(A) :- false.".toList
  responseVar : Text := "A".toList
deriving DecidableEq, Repr

namespace Dialect

/-- What a rule has to start with. -/
def opening (dialect : Dialect) : Text :=
  dialect.head ++ '(' :: (dialect.responseVar ++ ')' :: ' ' :: dialect.neck)

/-- A text without its blanks and without the periods that then end it. -/
def condense (text : Text) : Text :=
  ((text.filter fun c => !isBlank c).reverse.dropWhile (· = '.')).reverse

def isEmptyRule (dialect : Dialect) (text : Text) : Bool :=
  condense text = condense dialect.emptyRule

end Dialect

end GradingRule
