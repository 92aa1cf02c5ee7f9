/-
What can be wrong with settings.
-/

namespace GradingRule

/-- The settings that have a rule to keep. -/
inductive SettingsField where
  | head
  | neck
  | responseVar
  | maxPrimary
deriving DecidableEq, Repr

def SettingsField.path : SettingsField → String
  | .head => "decoder.head"
  | .neck => "decoder.neck"
  | .responseVar => "decoder.response_var"
  | .maxPrimary => "store.max_primary_terms"

def SettingsField.requirement : SettingsField → String
  | .head => "must not be empty"
  | .neck => "must not be empty"
  | .responseVar => "must be a single identifier"
  | .maxPrimary => "must be at least 1"

/-- There is no text to read, the text is no settings document, or a setting
breaks its rule. -/
inductive SettingsFault where
  | noText
  | malformed
  | broken (setting : SettingsField)
deriving DecidableEq, Repr

def SettingsFault.message : SettingsFault → String
  | .noText => "Failed to read config file"
  | .malformed => "Failed to parse config"
  | .broken setting =>
      "Invalid config field '" ++ setting.path ++ "': " ++ setting.requirement

end GradingRule
