/-
Why an edit of a draft is refused.
-/
import GradingRule.Term

namespace GradingRule

/-- A refused edit leaves the draft as it was. -/
inductive Rejection where
  | token (fault : TokenFault)
  | full (maxPrimary : Nat)
  | selfRelation (id : TermId)
  | unknownTerm (id : TermId)
  | notPrimary (id : TermId)
  | nothingToUndo
deriving DecidableEq, Repr

def Rejection.message : Rejection → String
  | .token fault => fault.message
  | .full maxPrimary =>
      "A rule may hold at most " ++ toString maxPrimary ++ " word or template terms"
  | .selfRelation id => "Term " ++ toString id.number ++ " cannot be related to itself"
  | .unknownTerm id => "Term " ++ toString id.number ++ " does not exist"
  | .notPrimary id => "Term " ++ toString id.number ++ " is not a word or template term"
  | .nothingToUndo => "There is no term to undo"

end GradingRule
