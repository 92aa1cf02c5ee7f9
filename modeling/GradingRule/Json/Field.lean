/-
Values that have to have a certain form: making them, and reading them back.
-/
import GradingRule.Json.Basic

namespace GradingRule.Json

def ofText (text : Text) : Json :=
  .string (.ofText text)

def ofNat (value : Nat) : Json :=
  .number (.ofNat value)

def member (key : String) (value : Json) : Spelling × Json :=
  (.ofText key.toList, value)

def text? : Json → Option Text
  | .string spelling => spelling.text?
  | _ => none

def natBelow? (bound : Nat) : Json → Option (Fin bound)
  | .number numeral =>
      numeral.toNat?.bind fun value =>
        if h : value < bound then some ⟨value, h⟩ else none
  | _ => none

/-- The members of an object; all its keys have to be texts. -/
def members? : Json → Option (List (Text × Json))
  | .object members => members.mapM fun (key, value) => key.text?.map (·, value)
  | _ => none

/-- The values that members give to one key. -/
def valuesOf (key : String) (members : List (Text × Json)) : List Json :=
  (members.filter fun member => member.1 = key.toList).map Prod.snd

/-- The value of a field that has to be given, and only once. -/
def required? (key : String) (members : List (Text × Json)) : Option Json :=
  match valuesOf key members with
  | [value] => some value
  | _ => none

/-- The value of a field that may be left out but not repeated; `none` refuses
the members, `some none` says that it was left out. -/
def optional? (key : String) (members : List (Text × Json)) : Option (Option Json) :=
  match valuesOf key members with
  | [] => some none
  | [value] => some (some value)
  | _ => none

/-- The values that are given for the fields of a record whose fields may all be
left out.  They are the members of an object, which may have others, or the items
of an array in the order of the fields. -/
def fields? (keys : List String) : Json → Option (List (Option Json))
  | .array items =>
      if items.length ≤ keys.length then
        some (items.map some ++ List.replicate (keys.length - items.length) none)
      else none
  | json => do
      let members ← json.members?
      keys.mapM fun key => optional? key members

/-- Reads a field, or takes the default of one that was left out. -/
def orDefault {α : Type} (read : Json → Option α) (default : α) : Option Json → Option α
  | none => some default
  | some value => read value

@[simp] theorem text?_ofText (text : Text) : (ofText text).text? = some text :=
  Spelling.text?_ofText text

@[simp] theorem natBelow?_ofNat {bound value : Nat} (h : value < bound) :
    (ofNat value).natBelow? bound = some ⟨value, h⟩ := by
  simp [ofNat, natBelow?, Numeral.toNat?_ofNat, h]

end GradingRule.Json
