/-
What can be wrong with a sequence.  Sequences built term by term keep most of
the rules by themselves, but sequences also arrive from outside, so every rule
is checked.
-/
import GradingRule.Sequence.Basic

namespace GradingRule

/-- The number of terms that may be tagged with or. -/
def maxDisjunctions : Nat := 2

/-- What is wrong with a reference of a relation. -/
inductive ReferenceFault where
  | repeated
  | notEarlier
  | missing
  | notPrimary
deriving DecidableEq, Repr

def ReferenceFault.message : ReferenceFault → String
  | .repeated => "is referenced twice"
  | .notEarlier => "is not earlier in the sequence"
  | .missing => "does not exist"
  | .notPrimary => "is not a word or template term"

inductive SequenceFault where
  | reference (id target : TermId) (cause : ReferenceFault)
  | tooManyDisjunctions (count limit : Nat)
  | misnumbered (place : Nat) (id : TermId)
  | relationOperator (id : TermId)
  | disjunctionPoint (point size : Nat)
deriving DecidableEq, Repr

def SequenceFault.message : SequenceFault → String
  | .reference id target cause =>
      "Term " ++ toString id.number ++ " references term " ++ toString target.number ++
        ", which " ++ cause.message
  | .tooManyDisjunctions count limit =>
      "Too many disjunctions: " ++ toString count ++ " terms are or-tagged, at most " ++
        toString limit ++ " are supported"
  | .misnumbered place id =>
      "Term at position " ++ toString place ++ " carries id " ++ toString id.number
  | .relationOperator id =>
      "Proximity term " ++ toString id.number ++ " must be conjunctive"
  | .disjunctionPoint point size =>
      "Disjunction point " ++ toString point ++ " is not an ascending position in 1.." ++
        toString size

namespace Sequence

def referenceFault? (sequence : Sequence) (id target : TermId) : Option ReferenceFault :=
  if id.number ≤ target.number then some .notEarlier
  else
    match sequence.get? target with
    | none => some .missing
    | some term => if term.isPrimary then none else some .notPrimary

/-- The first rule that the term at `index` breaks: its id is its place, and a
relation is tagged with and and names two different earlier primary terms. -/
def termFault? (sequence : Sequence) (index : Nat) (term : Term) : Option SequenceFault :=
  if term.id.index? ≠ some index then some (.misnumbered (index + 1) term.id)
  else
    match term.references? with
    | none => none
    | some (first, second) =>
        if term.operator ≠ .and then some (.relationOperator term.id)
        else if first = second then some (.reference term.id second .repeated)
        else
          [first, second].findSome? fun target =>
            (sequence.referenceFault? term.id target).map (.reference term.id target)

/-- The first fault of a sequence: of its terms in order, then of their number
of disjunctions. -/
def fault? (sequence : Sequence) : Option SequenceFault :=
  (sequence.terms.zipIdx.findSome? fun (term, index) => sequence.termFault? index term).or
    (if maxDisjunctions < sequence.orCount then
      some (.tooManyDisjunctions sequence.orCount maxDisjunctions)
    else none)

def validate (sequence : Sequence) : Except SequenceFault Unit :=
  match sequence.fault? with
  | some fault => .error fault
  | none => .ok ()

end Sequence

end GradingRule
