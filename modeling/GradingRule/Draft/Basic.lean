/-
Drafts: a rule that an author builds one decision at a time.  An edit that is
carried out answers with the new expression of the draft.  A draft may pass
through sequences that have no expression, such as one with a third
disjunction; the answer then is the fault, and the draft stays editable.
-/
import GradingRule.Expression.Synthesis
import GradingRule.Failure

namespace GradingRule

/-- Names the session that owns a draft. -/
structure SessionId where
  number : Nat
deriving DecidableEq, Repr

structure Limits where
  maxPrimary : Nat := 5
deriving DecidableEq, Repr

structure Draft where
  session : SessionId
  limits : Limits
  sequence : Sequence
deriving DecidableEq, Repr

/-- A decision of the author.  A word can be asked for, be an alternative to the
term before it, or be ruled out; a template is never an alternative. -/
inductive Edit where
  | word (operator : Operator) (raw : Text)
  | template (negated : Bool) (raw : Text)
  | relate (relation : Relation) (first second : TermId)
  | undo
  | clear
  | preview
  | accept
deriving DecidableEq, Repr

namespace Draft

def start (session : SessionId) (limits : Limits) : Draft :=
  ⟨session, limits, .empty⟩

def preview (draft : Draft) : Except Failure Text :=
  draft.sequence.synthesize.mapError .sequence

/-- The draft with another sequence, and its preview. -/
def revise (draft : Draft) (sequence : Sequence) : Draft × Except Failure Text :=
  let revised := { draft with sequence }
  (revised, revised.preview)

def refuse (draft : Draft) (cause : Rejection) : Draft × Except Failure Text :=
  (draft, .error (.rejected cause))

/-- A bad token is refused as such even when the draft is full. -/
def addPrimary (draft : Draft) (form : Form) (operator : Operator) (raw : Text) :
    Draft × Except Failure Text :=
  match form.token raw with
  | .error fault => draft.refuse (.token fault)
  | .ok token =>
      if draft.limits.maxPrimary ≤ draft.sequence.primaryCount then
        draft.refuse (.full draft.limits.maxPrimary)
      else draft.revise (draft.sequence.push operator (.primary form token))

/-- Why a term cannot be one of the two of a relation. -/
def targetRejection? (draft : Draft) (id : TermId) : Option Rejection :=
  match draft.sequence.get? id with
  | none => some (.unknownTerm id)
  | some term => if term.isPrimary then none else some (.notPrimary id)

/-- The first reason, if any, against a relation between two terms. -/
def pairRejection? (draft : Draft) (first second : TermId) : Option Rejection :=
  if first = second then some (.selfRelation first)
  else [first, second].findSome? draft.targetRejection?

def relate (draft : Draft) (relation : Relation) (first second : TermId) :
    Draft × Except Failure Text :=
  match draft.pairRejection? first second with
  | some cause => draft.refuse cause
  | none => draft.revise (draft.sequence.push .and (.pair relation first second))

def undo (draft : Draft) : Draft × Except Failure Text :=
  match draft.sequence.pop? with
  | none => draft.refuse .nothingToUndo
  | some (_, sequence) => draft.revise sequence

def clear (draft : Draft) : Draft :=
  { draft with sequence := .empty }

/-- Starts over if the draft has an expression, which is the answer; a draft
without one is kept to be mended. -/
def accept (draft : Draft) : Draft × Except Failure Text :=
  match draft.preview with
  | .ok expression => (draft.clear, .ok expression)
  | .error fault => (draft, .error fault)

/-- Carries out an edit; clearing gives no answer. -/
def apply (draft : Draft) : Edit → Draft × Option (Except Failure Text)
  | .word operator raw => (draft.addPrimary .word operator raw).map id some
  | .template negated raw =>
      (draft.addPrimary .template (if negated then .not else .and) raw).map id some
  | .relate relation first second => (draft.relate relation first second).map id some
  | .undo => draft.undo.map id some
  | .clear => (draft.clear, none)
  | .preview => (draft, some draft.preview)
  | .accept => draft.accept.map id some

/-- The draft after some edits, whatever each of them answered. -/
def run (draft : Draft) (edits : List Edit) : Draft :=
  edits.foldl (fun draft edit => (draft.apply edit).1) draft

end Draft

end GradingRule
