/-
Everything that can go wrong, in one type for the operations that combine parts
of the library.
-/
import GradingRule.Draft.Rejection
import GradingRule.Rule.Fault
import GradingRule.Sequence.Fault
import GradingRule.Settings.Fault

namespace GradingRule

/-- A document that holds no sequence at all is `unreadable`. -/
inductive Failure where
  | rule (fault : RuleFault)
  | sequence (fault : SequenceFault)
  | rejected (cause : Rejection)
  | settings (fault : SettingsFault)
  | unreadable
deriving DecidableEq, Repr

def Failure.message : Failure → String
  | .rule fault => "Decode error: " ++ fault.message
  | .sequence fault => "Synthesis error: " ++ fault.message
  | .rejected cause => "Rejected: " ++ cause.message
  | .settings fault => "Config error: " ++ fault.message
  | .unreadable => "Internal error: the document holds no term sequence"

end GradingRule
