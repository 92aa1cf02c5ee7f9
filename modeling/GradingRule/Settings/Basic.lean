/-
Settings: the dialect of the rules and the limits of the drafts.
-/
import GradingRule.Draft.Basic
import GradingRule.Rule.Dialect

namespace GradingRule

structure Settings where
  dialect : Dialect := {}
  limits : Limits := {}
deriving DecidableEq, Repr

/-- Letters, digits and underscores of ASCII, at least one, and blanks around
them. -/
def isIdentifier (text : Text) : Bool :=
  text.trim ≠ [] && text.trim.all fun c => c.isAlphanum || c = '_'

namespace Settings

/-- Whether a setting keeps its rule. -/
def satisfies (settings : Settings) : SettingsField → Bool
  | .head => settings.dialect.head.trim ≠ []
  | .neck => settings.dialect.neck.trim ≠ []
  | .responseVar => isIdentifier settings.dialect.responseVar
  | .maxPrimary => settings.limits.maxPrimary ≠ 0

/-- The first setting that breaks its rule. -/
def fault? (settings : Settings) : Option SettingsFault :=
  ([.head, .neck, .responseVar, .maxPrimary].find? fun setting =>
    !settings.satisfies setting).map .broken

end Settings

end GradingRule
