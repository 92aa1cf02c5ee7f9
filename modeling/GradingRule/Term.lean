/-
Terms: one matching condition each, with its place in the sequence and its
boolean role.
-/
import GradingRule.Token

namespace GradingRule

/-- The place of a term in its sequence, counted from 1.  Ids are 32-bit words
that may come from outside, so 0 and ids beyond the end occur. -/
structure TermId where
  number : Nat
  number_lt : number < UInt32.size
deriving DecidableEq, Repr

namespace TermId

/-- The id at a place counted from 1; places beyond the last id share it. -/
def atPlace (place : Nat) : TermId :=
  ⟨min place (UInt32.size - 1), Nat.lt_of_le_of_lt (Nat.min_le_right _ _) (by decide)⟩

/-- The place counted from 0; the id 0 names no place. -/
def index? (id : TermId) : Option Nat :=
  if id.number = 0 then none else some (id.number - 1)

theorem index?_atPlace {index : Nat} (h : index + 1 < UInt32.size) :
    (atPlace (index + 1)).index? = some index := by
  have hnumber : (atPlace (index + 1)).number = index + 1 := by
    change min (index + 1) (UInt32.size - 1) = index + 1
    omega
  rw [index?, hnumber, if_neg (Nat.succ_ne_zero index), Nat.add_sub_cancel]

end TermId

inductive Operator where
  | and
  | or
  | not
deriving DecidableEq, Repr

def Operator.name : Operator → String
  | .and => "and"
  | .or => "or"
  | .not => "not"

def Form.name : Form → String
  | .word => "word"
  | .template => "template"

/-- How close after the first word the second one must come: within the
sentence, or within two words. -/
inductive Relation where
  | precedes
  | closelyPrecedes
deriving DecidableEq, Repr

def Relation.name : Relation → String
  | .precedes => "precedes"
  | .closelyPrecedes => "closely_precedes"

inductive TermKind where
  | primary (form : Form)
  | pair (relation : Relation)
deriving DecidableEq, Repr

/-- The kinds in their order, which is also the order of their numbers. -/
def TermKind.all : List TermKind :=
  [.primary .word, .primary .template, .pair .precedes, .pair .closelyPrecedes]

def TermKind.name : TermKind → String
  | .primary form => form.name
  | .pair relation => relation.name

/-- What a term asks for: one word, or two earlier terms in order. -/
inductive Body where
  | primary (form : Form) (token : Token)
  | pair (relation : Relation) (first second : TermId)
deriving DecidableEq, Repr

def Body.kind : Body → TermKind
  | .primary form _ => .primary form
  | .pair relation _ _ => .pair relation

structure Term where
  id : TermId
  operator : Operator
  body : Body
deriving DecidableEq, Repr

namespace Term

def token? (term : Term) : Option Token :=
  match term.body with
  | .primary _ token => some token
  | .pair .. => none

def references? (term : Term) : Option (TermId × TermId) :=
  match term.body with
  | .primary .. => none
  | .pair _ first second => some (first, second)

def isPrimary (term : Term) : Bool :=
  term.token?.isSome

theorem references?_eq_some_iff {term : Term} {first second : TermId} :
    term.references? = some (first, second) ↔
      ∃ relation, term.body = .pair relation first second := by
  obtain ⟨id, operator, body⟩ := term
  cases body <;> simp [references?]

theorem isPrimary_iff {term : Term} :
    term.isPrimary = true ↔ ∃ form token, term.body = .primary form token := by
  obtain ⟨id, operator, body⟩ := term
  cases body <;> simp [isPrimary, token?]

theorem isPrimary_eq_false_iff {term : Term} :
    term.isPrimary = false ↔ ∃ relation first second, term.body = .pair relation first second := by
  obtain ⟨id, operator, body⟩ := term
  cases body <;> simp [isPrimary, token?]

def isOr (term : Term) : Bool :=
  term.operator = .or

/-- One line about the term; the operator of a relation is left out. -/
def description (term : Term) : String :=
  match term.body with
  | .primary form token =>
      "#" ++ toString term.id.number ++ " " ++ term.operator.name ++ " " ++ form.name ++
        "(" ++ String.ofList token.text ++ ")"
  | .pair relation first second =>
      "#" ++ toString term.id.number ++ " " ++ relation.name ++
        "(#" ++ toString first.number ++ ", #" ++ toString second.number ++ ")"

end Term

end GradingRule
