/-
What can be wrong with a rule in clause notation.
-/
import GradingRule.Rule.Lexeme
import GradingRule.Term

namespace GradingRule

/-- What a rule should have had at some place. -/
inductive Expectation where
  | closingQuote
  | ruleHead
  | openParen
  | responseVar
  | closeParen
  | neck
  | commandName
  | argument
  | continuation
deriving DecidableEq, Repr

/-- The default neck stands for every neck. -/
def Expectation.message : Expectation → String
  | .closingQuote => "closing quote"
  | .ruleHead => "rule head"
  | .openParen => "'('"
  | .responseVar => "response variable"
  | .closeParen => "')'"
  | .neck => "':-'"
  | .commandName => "command name"
  | .argument => "argument"
  | .continuation => "',', ';', '.' or end of rule"

inductive ArgumentFault where
  | responseVar (expected : Text)
  | tokenCount (count : Nat)
  | token (fault : TokenFault)
  | referenceCount (count : Nat)
deriving DecidableEq, Repr

def ArgumentFault.message : ArgumentFault → String
  | .responseVar expected => "first argument must be " ++ String.ofList expected
  | .tokenCount count => "expected one token, found " ++ toString count
  | .token fault => fault.message
  | .referenceCount count => "expected two references, found " ++ toString count

inductive LetterFault where
  | notLetter
  | outOfRange
  | notEarlier
  | notPrimary
  | repeated
deriving DecidableEq, Repr

def LetterFault.message : LetterFault → String
  | .notLetter => "is not a single letter"
  | .outOfRange => "is outside B..I"
  | .notEarlier => "does not name an earlier sub-clause"
  | .notPrimary => "does not name a term or template sub-clause"
  | .repeated => "is used twice"

inductive OperatorFault where
  | negatedDisjunct
  | onRelation (relation : Relation) (operator : Operator)
deriving DecidableEq, Repr

def OperatorFault.message : OperatorFault → String
  | .negatedDisjunct => "a negated term cannot be a disjunct"
  | .onRelation relation operator =>
      relation.name ++ " relations cannot carry '" ++ operator.name ++ "'"

/-- Offsets count bytes; `clause` is the text of the sub-clause at fault, and
nothing found means the end of the rule. -/
inductive RuleFault where
  | missingHead (expected : Text)
  | emptyBody
  | unexpectedChar (found : Char) (offset : Nat)
  | unexpected (offset : Nat) (expected : Expectation) (found : Option Lexeme.Kind)
  | unknownCommand (clause command : Text)
  | arguments (clause : Text) (cause : ArgumentFault)
  | reference (clause letter : Text) (cause : LetterFault)
  | operator (clause : Text) (cause : OperatorFault)
deriving DecidableEq, Repr

def RuleFault.message : RuleFault → String
  | .missingHead expected =>
      "Rule does not start with the expected head '" ++ String.ofList expected ++ "'"
  | .emptyBody => "Rule has no sub-clauses"
  | .unexpectedChar found offset =>
      "Unexpected character '" ++ String.singleton found ++ "' at offset " ++ toString offset
  | .unexpected offset expected found =>
      "Syntax error at offset " ++ toString offset ++ ": expected " ++ expected.message ++
        ", found " ++ (found.map Lexeme.Kind.description).getD "end of input"
  | .unknownCommand clause command =>
      "Unknown command '" ++ String.ofList command ++ "' in '" ++ String.ofList clause ++ "'"
  | .arguments clause cause =>
      "Malformed arguments in '" ++ String.ofList clause ++ "': " ++ cause.message
  | .reference clause letter cause =>
      "Reference '" ++ String.ofList letter ++ "' in '" ++ String.ofList clause ++ "' " ++
        cause.message
  | .operator clause cause =>
      "Unsupported operator in '" ++ String.ofList clause ++ "': " ++ cause.message

end GradingRule
