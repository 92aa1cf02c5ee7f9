/-
Settings as JSON documents.  Everything may be left out of them.
-/
import GradingRule.Json.Field
import GradingRule.Json.Tree
import GradingRule.Settings.Basic

namespace GradingRule

open Json (orDefault)

def Dialect.ofJson? (json : Json) : Option Dialect := do
  let fields ← json.fields? ["head", "neck", "empty_rule", "response_var"]
  match fields with
  | [head, neck, emptyRule, responseVar] =>
      let default : Dialect := {}
      return {
        head := ← orDefault Json.text? default.head head
        neck := ← orDefault Json.text? default.neck neck
        emptyRule := ← orDefault Json.text? default.emptyRule emptyRule
        responseVar := ← orDefault Json.text? default.responseVar responseVar }
  | _ => none

/-- A limit is a word of 64 bits. -/
def Limits.ofJson? (json : Json) : Option Limits := do
  let fields ← json.fields? ["max_primary_terms"]
  match fields with
  | [maxPrimary] =>
      let default : Limits := {}
      let read (value : Json) : Option Nat := (value.natBelow? UInt64.size).map Fin.val
      return { maxPrimary := ← orDefault read default.maxPrimary maxPrimary }
  | _ => none

namespace Settings

def ofJson? (json : Json) : Option Settings := do
  let fields ← json.fields? ["decoder", "store"]
  match fields with
  | [dialect, limits] =>
      return {
        dialect := ← orDefault Dialect.ofJson? {} dialect
        limits := ← orDefault Limits.ofJson? {} limits }
  | _ => none

/-- The settings of a document; every setting has to keep its rule. -/
def ofDocument (document : Text) : Except SettingsFault Settings :=
  match (Json.ofDocument? document).bind ofJson? with
  | none => .error .malformed
  | some settings =>
      match settings.fault? with
      | some fault => .error fault
      | none => .ok settings

/-- The settings of a file with the given contents, if there is one; the
contents have to be UTF-8. -/
def ofFile (contents : Option ByteArray) : Except SettingsFault Settings :=
  match contents.bind String.fromUTF8? with
  | none => .error .noText
  | some document => ofDocument document.toList

end Settings

end GradingRule
