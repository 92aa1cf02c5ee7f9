/-
Tokens: the single words that terms match, kept in one normal form.
-/
import GradingRule.Text.Blank
import GradingRule.Text.Underscore

namespace GradingRule

/-- A non-empty word without blanks whose underscores are all escaped. -/
structure Token where
  text : Text
  nonempty : text ≠ []
  unblank : ∀ c ∈ text, isBlank c = false
  escaped : Text.Escaped text
deriving DecidableEq, Repr

/-- Why a text cannot be a token. -/
inductive TokenFault where
  | empty
  | blank (raw : Text)
deriving DecidableEq, Repr

def TokenFault.message : TokenFault → String
  | .empty => "Token cannot be empty"
  | .blank raw => "Token '" ++ String.ofList raw ++ "' must be a single word"

namespace Token

def word (raw : Text) : Except TokenFault Token :=
  if hempty : raw = [] then .error .empty
  else if hblank : raw.any isBlank then .error (.blank raw)
  else
    .ok {
      text := Text.escape raw
      nonempty := Text.escape_ne_nil hempty
      unblank := by
        intro c hc
        rcases Text.mem_of_mem_escapeAfter hc with rfl | hraw
        · decide
        · rw [Bool.not_eq_true, List.any_eq_false] at hblank
          simpa using hblank c hraw
      escaped := Text.escaped_escape raw }

/-- A token that ends in the star matches every word it begins. -/
def isTemplate (token : Token) : Bool :=
  token.text.getLast? == some '*'

/-- The token with a star at its end, which is not doubled. -/
def starred (token : Token) : Token :=
  if token.isTemplate then token
  else {
    text := token.text ++ ['*']
    nonempty := by simp
    unblank := by
      intro c hc
      rcases List.mem_append.1 hc with hc | hc
      · exact token.unblank c hc
      · rw [List.mem_singleton.1 hc]
        decide
    escaped := Text.escapedAfter_append token.escaped fun b =>
      ⟨by simp, trivial⟩ }

def template (raw : Text) : Except TokenFault Token :=
  (word raw).map starred

theorem isTemplate_starred (token : Token) : token.starred.isTemplate = true := by
  unfold starred
  split
  · assumption
  · simp [isTemplate]

/-- The text of a token makes the same token again. -/
theorem word_text (token : Token) : word token.text = .ok token := by
  have hblank : ¬token.text.any isBlank = true := by
    rw [Bool.not_eq_true, List.any_eq_false]
    intro c hc
    simp [token.unblank c hc]
  rw [word, dif_neg token.nonempty, dif_neg hblank]
  congr
  exact Text.escape_eq_self token.escaped

end Token

/-- How a term matches its token: as a whole word or as the beginning of one. -/
inductive Form where
  | word
  | template
deriving DecidableEq, Repr

/-- The token that a raw text becomes in a term of this form. -/
def Form.token : Form → Text → Except TokenFault Token
  | .word, raw => Token.word raw
  | .template, raw => Token.template raw

end GradingRule
