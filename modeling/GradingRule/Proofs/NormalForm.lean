/-
The normal form of tokens.  Escaping looks at one character and the one before it
only, and what it adds can be taken away again, so doing it twice changes nothing.
A token can therefore be entered again, in either form, as often as one likes.
-/
import GradingRule.Proofs.Tokens

namespace GradingRule

namespace Text

/-- Every character with the one before it, if there is one. -/
def withBefore (text : Text) : List (Option Char × Char) :=
  (none :: text.map some).zip text

/-- What escaping makes of a character: an underscore gets a backslash unless one
stands before it. -/
def escapeChar (before : Option Char) (c : Char) : Text :=
  if c = '_' ∧ before ≠ some '\\' then ['\\', '_'] else [c]

/-- The text without the backslashes that stand right before an underscore. -/
def dropEscapes : Text → Text
  | [] => []
  | c :: rest =>
      if c = '\\' ∧ rest.head? = some '_' then dropEscapes rest else c :: dropEscapes rest

/-- The flag of the escaping pass stands for the character before the text. -/
theorem escapeAfter_eq_flatMap (before : Option Char) (text : Text) :
    escapeAfter (before = some '\\') text =
      ((before :: text.map some).zip text).flatMap fun (before, c) => escapeChar before c := by
  induction text generalizing before with
  | nil => rfl
  | cons c rest ih =>
      rw [escapeAfter, List.map_cons, List.zip_cons_cons, List.flatMap_cons, ← ih (some c)]
      dsimp only [escapeChar]
      by_cases hadds : c = '_' ∧ before ≠ some '\\'
      · obtain ⟨rfl, hbefore⟩ := hadds
        simp [hbefore]
      · have hkeeps : ¬(c = '_' ∧ decide (before = some '\\') = false) := by
          simpa using hadds
        rw [if_neg hadds, if_neg hkeeps]
        simp

/-- Escaping adds a backslash before every underscore that has none, and nothing else. -/
theorem escape_eq_flatMap (text : Text) :
    escape text = (withBefore text).flatMap fun (before, c) => escapeChar before c :=
  escapeAfter_eq_flatMap none text

theorem head?_escapeAfter_true (text : Text) : (escapeAfter true text).head? = text.head? := by
  cases text with
  | nil => rfl
  | cons c rest => simp [escapeAfter]

/-- What escaping adds is what dropping the escapes takes away. -/
theorem dropEscapes_escapeAfter (backslash : Bool) (text : Text) :
    dropEscapes (escapeAfter backslash text) = dropEscapes text := by
  induction text generalizing backslash with
  | nil => rfl
  | cons c rest ih =>
      rw [escapeAfter]
      split
      · next hadds =>
          obtain ⟨rfl, -⟩ := hadds
          simp [dropEscapes, ih]
      · by_cases hc : c = '\\'
        · subst hc
          simp [dropEscapes, head?_escapeAfter_true, ih]
        · simp [dropEscapes, hc, ih]

end Text

namespace Token

theorem template_eq_ok_starred {raw : Text} {token : Token} (h : word raw = .ok token) :
    template raw = .ok token.starred := by
  rw [template, h]
  rfl

/-- Words and templates are made of the same texts, the ones without blanks that are
not empty, and their texts are in normal form: entered again they make the same token,
and a word entered as a template makes the template, which is the word with a star at
its end.  Every underscore of theirs stands right after a backslash.  To get there,
escaping adds a backslash before every underscore that has none, so dropping the escapes
gives the same text as before. -/
theorem word_and_template_normal (raw : Text) :
    ((∃ token, word raw = .ok token) ↔ raw ≠ [] ∧ ∀ c ∈ raw, isBlank c = false) ∧
      ((∃ stem, template raw = .ok stem) ↔ raw ≠ [] ∧ ∀ c ∈ raw, isBlank c = false) ∧
      ∀ token stem, word raw = .ok token → template raw = .ok stem →
        word token.text = .ok token ∧
          (template stem.text = .ok stem ∧ template token.text = .ok stem ∧
            word stem.text = .ok stem) ∧
          (token.Proper ∧ stem.Proper) ∧
          stem.text =
            (if token.text.getLast? = some '*' then token.text else token.text ++ ['*']) ∧
          token.text =
            (Text.withBefore raw).flatMap (fun (before, c) => Text.escapeChar before c) ∧
          Text.dropEscapes token.text = Text.dropEscapes raw := by
  refine ⟨Form.word.exists_token_eq_ok_iff, Form.template.exists_token_eq_ok_iff, ?_⟩
  intro token stem htoken hstem
  obtain rfl : token.starred = stem := by
    rw [template_eq_ok_starred htoken] at hstem
    exact Except.ok.inj hstem
  have htext : token.text = Text.escape raw := Form.word.text_of_token_eq_ok htoken
  refine ⟨token.word_text, ⟨template_text token.isTemplate_starred,
    template_eq_ok_starred token.word_text, token.starred.word_text⟩,
    ⟨token.proper, token.starred.proper⟩, token.text_starred, ?_, ?_⟩
  · rw [htext, Text.escape_eq_flatMap]
  · rw [htext, Text.escape, Text.dropEscapes_escapeAfter]

end Token

namespace NormalFormWitness

/-- Backslashes and underscores next to each other, one of them escaped already. -/
def raw : Text :=
  "\\\\__a\\_".toList

def token : Token :=
  .ofText "\\\\_\\_a\\_".toList (by decide)

def stem : Token :=
  .ofText "\\\\_\\_a\\_*".toList (by decide)

theorem word_and_template_normal_mixed :
    Token.word raw = .ok token ∧ Token.template raw = .ok stem ∧
      Token.template token.text = .ok stem ∧ Token.word stem.text = .ok stem ∧
      token.text =
        (Text.withBefore raw).flatMap (fun (before, c) => Text.escapeChar before c) ∧
      Text.dropEscapes token.text = Text.dropEscapes raw := by
  have htoken : Token.word raw = .ok token := rfl
  have hstem : Token.template raw = .ok stem := rfl
  obtain ⟨-, -, hnormal⟩ := Token.word_and_template_normal raw
  obtain ⟨-, ⟨-, htemplate, hword⟩, -, -, hescaped, hdropped⟩ := hnormal token stem htoken hstem
  exact ⟨htoken, hstem, htemplate, hword, hescaped, hdropped⟩

end NormalFormWitness

end GradingRule
