/-
Fragments: the expression of one term on its own.
-/
import GradingRule.Sequence.Fault

namespace GradingRule

namespace Expression

def matchWord : Text := "match_w".toList

def matchTemplate : Text := "match_wm".toList

def negation : Text := "not".toList

def matchAll : Text := "match_all".toList

def matchAny : Text := "match_any".toList

/-- A matcher or a negation over its payload, without any space. -/
def call (name payload : Text) : Text :=
  name ++ '(' :: (payload ++ [')'])

/-- A conjunction or a disjunction over its parts, one space before each. -/
def wrap (name : Text) (parts : List Text) : Text :=
  name ++ '(' :: (parts.flatMap (' ' :: ·) ++ [' ', ')'])

end Expression

/-- The matcher of a word or of the words that a template begins. -/
def Form.matcher : Form → Text
  | .word => Expression.matchWord
  | .template => Expression.matchTemplate

/-- What stands between the two words: a space asks for their order, and a bare
underscore also for their closeness. -/
def Relation.joint : Relation → Char
  | .precedes => ' '
  | .closelyPrecedes => '_'

namespace Sequence

/-- The token that a relation refers to. -/
def resolve (sequence : Sequence) (id target : TermId) : Except SequenceFault Token :=
  match (sequence.get? target).bind Term.token? with
  | some token => .ok token
  | none => .error (.reference id target .notPrimary)

def matcher (sequence : Sequence) (id : TermId) : Body → Except SequenceFault Text
  | .primary form token => .ok (Expression.call form.matcher token.text)
  | .pair relation first second => do
      let left ← sequence.resolve id first
      let right ← sequence.resolve id second
      return Expression.call Expression.matchWord
        (left.text ++ relation.joint :: right.text)

/-- The matcher of the term, negated if the term is; and and or do not show. -/
def fragment (sequence : Sequence) (term : Term) : Except SequenceFault Text := do
  let matcher ← sequence.matcher term.id term.body
  match term.operator with
  | .not => return Expression.call Expression.negation matcher
  | .and | .or => return matcher

def fragments (sequence : Sequence) : Except SequenceFault (List Text) :=
  sequence.terms.mapM sequence.fragment

end Sequence

end GradingRule
