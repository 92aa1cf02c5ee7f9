/-
Sequences of terms in the order in which they were added.  Adding a term
assigns its id and checks nothing else; `Sequence.fault?` judges the result.
-/
import GradingRule.Term

namespace GradingRule

structure Sequence where
  terms : List Term
deriving DecidableEq, Repr

namespace Sequence

def empty : Sequence :=
  ⟨[]⟩

def size (sequence : Sequence) : Nat :=
  sequence.terms.length

def isEmpty (sequence : Sequence) : Bool :=
  sequence.terms.isEmpty

/-- The term in the place that an id names, whatever id it carries itself. -/
def get? (sequence : Sequence) (id : TermId) : Option Term :=
  id.index?.bind fun index => sequence.terms[index]?

/-- The id that the next term will receive. -/
def nextId (sequence : Sequence) : TermId :=
  .atPlace (sequence.size + 1)

def push (sequence : Sequence) (operator : Operator) (body : Body) : Sequence :=
  ⟨sequence.terms ++ [⟨sequence.nextId, operator, body⟩]⟩

/-- The newest term and the sequence without it. -/
def pop? (sequence : Sequence) : Option (Term × Sequence) :=
  sequence.terms.getLast?.map fun term => (term, ⟨sequence.terms.dropLast⟩)

def primaryCount (sequence : Sequence) : Nat :=
  sequence.terms.countP Term.isPrimary

/-- The number of terms tagged with or, a leading one included. -/
def orCount (sequence : Sequence) : Nat :=
  sequence.terms.countP Term.isOr

/-- The places, counted from 0 and ascending, of the terms tagged with or, the
first place excepted: the first term has nothing to be an alternative to. -/
def disjunctionPoints (sequence : Sequence) : List Nat :=
  (sequence.terms.zipIdx.tail.filter fun (term, _) => term.isOr).map Prod.snd

@[simp] theorem terms_push (sequence : Sequence) (operator : Operator) (body : Body) :
    (sequence.push operator body).terms =
      sequence.terms ++ [⟨sequence.nextId, operator, body⟩] := rfl

@[simp] theorem size_push (sequence : Sequence) (operator : Operator) (body : Body) :
    (sequence.push operator body).size = sequence.size + 1 := by
  simp [size]

/-- Removing the newest term undoes adding it. -/
@[simp] theorem pop?_push (sequence : Sequence) (operator : Operator) (body : Body) :
    (sequence.push operator body).pop? =
      some (⟨sequence.nextId, operator, body⟩, sequence) := by
  simp [pop?]

end Sequence

end GradingRule
