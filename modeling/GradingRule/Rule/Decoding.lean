/-
What a rule means: the sequence with one term for each of its clauses.
-/
import GradingRule.Rule.Clause
import GradingRule.Rule.Dialect
import GradingRule.Sequence.Basic

namespace GradingRule

/-- The command of the clauses that stand for terms of this kind. -/
def TermKind.command : TermKind → Text
  | .primary .word => "term".toList
  | .primary .template => "template".toList
  | .pair .precedes => "precedes".toList
  | .pair .closelyPrecedes => "closely_precedes".toList

def TermKind.ofCommand? (command : Text) : Option TermKind :=
  TermKind.all.find? fun kind => kind.command = command

/-- The term that a letter names: B the first, C the second, and so on up to I.
It has to be there already and to have a token. -/
def Sequence.resolveLetter (sequence : Sequence) :
    Text → Except LetterFault TermId
  | [c] =>
      if 'B' ≤ c ∧ c ≤ 'I' then
        let id := TermId.atPlace (c.toNat - 'A'.toNat)
        match sequence.get? id with
        | none => .error .notEarlier
        | some term => if term.isPrimary then .ok id else .error .notPrimary
      else .error .outOfRange
  | _ => .error .notLetter

namespace Clause

/-- The arguments after the response variable. -/
def payload (dialect : Dialect) (clause : Clause) : Except RuleFault (List Text) :=
  match clause.arguments with
  | [] => .error (.arguments clause.text (.responseVar dialect.responseVar))
  | var :: rest =>
      if var = dialect.responseVar then .ok rest
      else .error (.arguments clause.text (.responseVar dialect.responseVar))

/-- The first clause has nothing to be an alternative to, so a semicolon after
it does not count. -/
def operator (isFirst : Bool) (clause : Clause) : Except RuleFault Operator :=
  match clause.negated, clause.disjunct && !isFirst with
  | true, true => .error (.operator clause.text .negatedDisjunct)
  | true, false => .ok .not
  | false, true => .ok .or
  | false, false => .ok .and

def primaryBody (clause : Clause) (form : Form) : List Text → Except RuleFault Body
  | [raw] =>
      match form.token raw with
      | .ok token => .ok (.primary form token)
      | .error fault => .error (.arguments clause.text (.token fault))
  | payload => .error (.arguments clause.text (.tokenCount payload.length))

/-- The letters of a relation name terms of `sequence`, which holds the terms of
the clauses before. -/
def pairBody (sequence : Sequence) (clause : Clause) (relation : Relation) :
    List Text → Except RuleFault Body
  | [first, second] =>
      match sequence.resolveLetter first with
      | .error fault => .error (.reference clause.text first fault)
      | .ok firstId =>
          match sequence.resolveLetter second with
          | .error fault => .error (.reference clause.text second fault)
          | .ok secondId =>
              if firstId = secondId then
                .error (.reference clause.text second .repeated)
              else .ok (.pair relation firstId secondId)
  | payload => .error (.arguments clause.text (.referenceCount payload.length))

/-- The operator and the body of the term that a clause adds to `sequence`. -/
def decode (dialect : Dialect) (sequence : Sequence) (clause : Clause) :
    Except RuleFault (Operator × Body) :=
  match TermKind.ofCommand? clause.command with
  | none => .error (.unknownCommand clause.text clause.command)
  | some kind => do
      let payload ← clause.payload dialect
      let operator ← clause.operator sequence.isEmpty
      match kind with
      | .primary form => return (operator, ← clause.primaryBody form payload)
      | .pair relation =>
          if operator = .and then
            return (operator, ← clause.pairBody sequence relation payload)
          else throw (.operator clause.text (.onRelation relation operator))

end Clause

namespace Rule

/-- The terms of the clauses in order, after those of `sequence`. -/
def decodeFrom (dialect : Dialect) : Sequence → List Clause → Except RuleFault Sequence
  | sequence, [] => .ok sequence
  | sequence, clause :: rest =>
      match clause.decode dialect sequence with
      | .error fault => .error fault
      | .ok (operator, body) => decodeFrom dialect (sequence.push operator body) rest

def decode (dialect : Dialect) (rule : Rule) : Except RuleFault Sequence :=
  decodeFrom dialect .empty rule.clauses

end Rule

namespace Dialect

/-- The rule that a text spells; its head has to be the one of the dialect. -/
def parse (dialect : Dialect) (text : Text) : Except RuleFault Rule := do
  let rule ← Rule.ofText dialect.neck text
  if rule.head = dialect.head ∧ rule.responseVar = dialect.responseVar then return rule
  else throw (.missingHead dialect.opening)

/-- The sequence that a text stands for.  The text for no rule stands for the
empty sequence; a faulty rule stands for nothing, not even a part. -/
def decode (dialect : Dialect) (text : Text) : Except RuleFault Sequence :=
  if dialect.isEmptyRule text then .ok .empty
  else dialect.parse text >>= Rule.decode dialect

end Dialect

end GradingRule
