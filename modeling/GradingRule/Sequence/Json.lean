/-
Sequences as JSON documents: an array with one object for every term.
-/
import GradingRule.Failure
import GradingRule.Json.Field
import GradingRule.Json.Layout
import GradingRule.Json.Range
import GradingRule.Json.Tree

namespace GradingRule

open Json (required? optional?)

/-- The name of a kind in documents. -/
def TermKind.tag : TermKind → String
  | .primary .word => "word"
  | .primary .template => "template"
  | .pair .precedes => "precedes"
  | .pair .closelyPrecedes => "closes_precedes"

/-- A kind is given by its tag or by its number. -/
def TermKind.ofJson? : Json → Option TermKind
  | .string spelling => do
      let tag ← spelling.text?
      TermKind.all.find? fun kind => kind.tag.toList = tag
  | .number numeral => numeral.toNat?.bind fun number => TermKind.all[number]?
  | _ => none

def Operator.all : List Operator := [.and, .or, .not]

def Operator.named? (name : Text) : Option Operator :=
  Operator.all.find? fun operator => operator.name.toList = name

/-- An operator is given by its name, or by an object with its name as the only
key and without a value. -/
def Operator.ofJson? : Json → Option Operator
  | .string spelling => spelling.text?.bind Operator.named?
  | .object [(key, .null)] => key.text?.bind Operator.named?
  | _ => none

def TermId.ofJson? (json : Json) : Option TermId :=
  (json.natBelow? UInt32.size).map fun number : Fin UInt32.size => ⟨number.val, number.isLt⟩

def Token.ofJson? (json : Json) : Option Token := do
  let raw ← json.text?
  (Token.word raw).toOption

def Body.ofMembers? (members : List (Text × Json)) : TermKind → Option Body
  | .primary form => do
      let token ← required? "token" members >>= Token.ofJson?
      return .primary form token
  | .pair relation => do
      let first ← required? "first" members >>= TermId.ofJson?
      let second ← required? "second" members >>= TermId.ofJson?
      return .pair relation first second

namespace Term

/-- A term keeps all its members but the id and the operator until its kind is
known, those included that its body then does not use.  Two of the 127
containers that a document may nest are around them already. -/
def isKeepableMember : Text × Json → Bool
  | (key, value) => key = "id".toList || key = "operator".toList || value.isKeepable 125

def ofJson? (json : Json) : Option Term := do
  let members ← json.members?
  let id ← required? "id" members >>= TermId.ofJson?
  let operator ← optional? "operator" members >>= Json.orDefault Operator.ofJson? .and
  let kind ← required? "kind" members >>= TermKind.ofJson?
  let body ← Body.ofMembers? members kind
  if members.all isKeepableMember then return ⟨id, operator, body⟩ else none

end Term

def TermId.toJson (id : TermId) : Json :=
  .ofNat id.number

/-- The members that only terms of this kind have. -/
def Body.members : Body → List (Json.Spelling × Json)
  | .primary _ token => [Json.member "token" (.ofText token.text)]
  | .pair _ first second => [Json.member "first" first.toJson, Json.member "second" second.toJson]

def Term.toJson (term : Term) : Json :=
  .object (
    Json.member "id" term.id.toJson ::
    Json.member "operator" (.ofText term.operator.name.toList) ::
    Json.member "kind" (.ofText term.body.kind.tag.toList) ::
    term.body.members)

namespace Sequence

def toJson (sequence : Sequence) : Json :=
  .array (sequence.terms.map Term.toJson)

/-- The document of a sequence, laid out for people. -/
def document (sequence : Sequence) : Text :=
  sequence.toJson.layout 0

def ofJson? : Json → Option Sequence
  | .array items => (items.mapM Term.ofJson?).map Sequence.mk
  | _ => none

/-- The sequence of a document, valid or not. -/
def ofDocument? (document : Text) : Option Sequence :=
  (Json.ofDocument? document).bind ofJson?

/-- The sequence of a document, which has to be valid. -/
def ofDocument (document : Text) : Except Failure Sequence :=
  match ofDocument? document with
  | none => .error .unreadable
  | some sequence =>
      match sequence.fault? with
      | some fault => .error (.sequence fault)
      | none => .ok sequence

end Sequence

end GradingRule
