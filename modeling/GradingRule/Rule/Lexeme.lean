/-
The lexemes of clause notation and where they stand in a text.
-/
import GradingRule.Text.Basic

namespace GradingRule

/-- A word is bare or quoted; its spelling is not kept. -/
inductive Lexeme.Kind where
  | word (text : Text)
  | openParen
  | closeParen
  | comma
  | semicolon
  | period
  | neck
deriving DecidableEq, Repr

/-- A lexeme that reaches from byte `start` up to byte `stop`. -/
structure Lexeme where
  kind : Lexeme.Kind
  start : Nat
  stop : Nat
deriving DecidableEq, Repr

def Lexeme.Kind.description : Lexeme.Kind → String
  | .word text => "'" ++ String.ofList text ++ "'"
  | .openParen => "'('"
  | .closeParen => "')'"
  | .comma => "','"
  | .semicolon => "';'"
  | .period => "'.'"
  | .neck => "neck"

end GradingRule
