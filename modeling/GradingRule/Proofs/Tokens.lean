/-
What tokens look like and which texts make them.
-/
import GradingRule.Token

namespace GradingRule

theorem Text.escapedAfter_iff {backslash : Bool} {text : Text} :
    EscapedAfter backslash text ↔
      ∀ before after, text = before ++ '_' :: after →
        (before = [] ∧ backslash = true) ∨ before.getLast? = some '\\' := by
  induction text generalizing backslash with
  | nil => simp [EscapedAfter]
  | cons c rest ih =>
      rw [EscapedAfter, ih]
      constructor
      · rintro ⟨hfirst, hrest⟩ before after heq
        cases before with
        | nil =>
            obtain ⟨rfl, rfl⟩ := List.cons.inj heq
            exact .inl ⟨rfl, hfirst rfl⟩
        | cons d before =>
            obtain ⟨rfl, rfl⟩ := List.cons.inj heq
            right
            rcases hrest before after rfl with ⟨rfl, hc⟩ | hlast
            · simpa using hc
            · simp [List.getLast?_cons, hlast]
      · intro h
        constructor
        · rintro rfl
          have := h [] rest rfl
          simpa using this
        · intro before after heq
          have hc := h (c :: before) after (by rw [heq, List.cons_append])
          cases before with
          | nil => simpa using hc
          | cons d before => simpa [List.getLast?_cons] using hc

/-- A text is escaped when every underscore stands right after a backslash. -/
theorem Text.escaped_iff {text : Text} :
    Escaped text ↔
      ∀ before after, text = before ++ '_' :: after → before.getLast? = some '\\' := by
  rw [Escaped, escapedAfter_iff]
  simp

namespace Token

/-- The token of a text that needs no escapes. -/
def ofText (text : Text)
    (h : text ≠ [] ∧ text.any isBlank = false ∧ Text.Escaped text) : Token where
  text := text
  nonempty := h.1
  unblank := fun c hc => by simpa using List.any_eq_false.1 h.2.1 c hc
  escaped := h.2.2

/-- One word, not empty, with every underscore right after a backslash. -/
def Proper (token : Token) : Prop :=
  token.text ≠ [] ∧ (∀ c ∈ token.text, isBlank c = false) ∧
    ∀ before after, token.text = before ++ '_' :: after → before.getLast? = some '\\'

theorem proper (token : Token) : token.Proper :=
  ⟨token.nonempty, token.unblank, Text.escaped_iff.1 token.escaped⟩

theorem isTemplate_iff {token : Token} :
    token.isTemplate = true ↔ token.text.getLast? = some '*' := by
  simp [isTemplate]

theorem text_starred (token : Token) :
    token.starred.text =
      if token.text.getLast? = some '*' then token.text else token.text ++ ['*'] := by
  by_cases h : token.text.getLast? = some '*'
  · rw [if_pos h, starred, if_pos (isTemplate_iff.2 h)]
  · rw [if_neg h, starred, if_neg fun htemplate => h (isTemplate_iff.1 htemplate)]

theorem starred_eq_self {token : Token} (h : token.isTemplate = true) :
    token.starred = token := by
  rw [starred, if_pos h]

theorem isTemplate_of_template {raw : Text} {token : Token}
    (h : template raw = .ok token) : token.isTemplate = true := by
  rw [template] at h
  cases hword : word raw with
  | error fault => simp [hword, Except.map] at h
  | ok made =>
      rw [hword] at h
      obtain rfl := Except.ok.inj h
      exact made.isTemplate_starred

/-- The text of a token with a star makes the same template again. -/
theorem template_text {token : Token} (h : token.isTemplate = true) :
    template token.text = .ok token := by
  rw [template, word_text, Except.map, starred_eq_self h]

end Token

namespace Form

/-- The text of the token that a raw text becomes: with its underscores escaped,
and with a star at its end if the form asks for one. -/
def normalize : Form → Text → Text
  | .word, raw => raw.escape
  | .template, raw =>
      if raw.escape.getLast? = some '*' then raw.escape else raw.escape ++ ['*']

theorem token_nil (form : Form) : form.token [] = .error .empty := by
  cases form <;> rfl

theorem token_of_blank (form : Form) {raw : Text} {c : Char} (hc : c ∈ raw)
    (hblank : isBlank c = true) : form.token raw = .error (.blank raw) := by
  have hword : Token.word raw = .error (.blank raw) := by
    rw [Token.word, dif_neg (List.ne_nil_of_mem hc),
      dif_pos (List.any_eq_true.2 ⟨c, hc, hblank⟩)]
  cases form with
  | word => exact hword
  | template => rw [token, Token.template, hword]; rfl

theorem exists_token_eq_ok (form : Form) {raw : Text} (hne : raw ≠ [])
    (hblank : ∀ c ∈ raw, isBlank c = false) :
    ∃ token, form.token raw = .ok token ∧ token.text = form.normalize raw := by
  have hany : ¬raw.any isBlank = true := by simpa using hblank
  obtain ⟨token, htoken, htext⟩ :
      ∃ token, Token.word raw = .ok token ∧ token.text = raw.escape :=
    ⟨_, by rw [Token.word, dif_neg hne, dif_neg hany], rfl⟩
  cases form with
  | word => exact ⟨token, htoken, htext⟩
  | template =>
      refine ⟨token.starred, by rw [Form.token, Token.template, htoken]; rfl, ?_⟩
      rw [normalize, ← htext, Token.text_starred]

/-- Both forms make tokens of the same texts. -/
theorem exists_token_eq_ok_iff (form : Form) {raw : Text} :
    (∃ token, form.token raw = .ok token) ↔ raw ≠ [] ∧ ∀ c ∈ raw, isBlank c = false := by
  constructor
  · rintro ⟨token, htoken⟩
    constructor
    · rintro rfl
      rw [token_nil] at htoken
      exact absurd htoken (by simp)
    · intro c hc
      rw [← Bool.not_eq_true]
      intro hblank
      rw [token_of_blank form hc hblank] at htoken
      exact absurd htoken (by simp)
  · rintro ⟨hne, hblank⟩
    obtain ⟨token, htoken, -⟩ := form.exists_token_eq_ok hne hblank
    exact ⟨token, htoken⟩

theorem text_of_token_eq_ok {form : Form} {raw : Text} {token : Token}
    (h : form.token raw = .ok token) : token.text = form.normalize raw := by
  obtain ⟨hne, hblank⟩ := form.exists_token_eq_ok_iff.1 ⟨token, h⟩
  obtain ⟨made, hmade, htext⟩ := form.exists_token_eq_ok hne hblank
  rw [hmade] at h
  rw [← Except.ok.inj h, htext]

end Form

end GradingRule
