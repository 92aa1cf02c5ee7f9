/-
Words between single quotes, with a quote inside the word written twice.
-/
import GradingRule.Text.Basic

namespace GradingRule.Text

/-- The word with every quote doubled. -/
def doubleQuotes : Text → Text
  | [] => []
  | c :: rest =>
      if c = '\'' then '\'' :: '\'' :: doubleQuotes rest else c :: doubleQuotes rest

/-- The quoted spelling of a word. -/
def quoted (word : Text) : Text :=
  '\'' :: (doubleQuotes word ++ ['\''])

/-- The word after an opening quote, and what follows its closing quote;
`none` if no quote closes it. -/
def readQuoted? : Text → Option (Text × Text)
  | [] => none
  | '\'' :: '\'' :: rest => (readQuoted? rest).map fun (word, after) => ('\'' :: word, after)
  | c :: rest =>
      if c = '\'' then some ([], rest)
      else (readQuoted? rest).map fun (word, after) => (c :: word, after)

/-- Reading takes off exactly the doubled word and one more quote, and the next
character, if any, is not a quote. -/
theorem eq_of_readQuoted? {text word after : Text}
    (h : readQuoted? text = some (word, after)) :
    text = doubleQuotes word ++ '\'' :: after ∧ after.head? ≠ some '\'' := by
  fun_induction readQuoted? text generalizing word after with
  | case1 => simp at h
  | case2 rest ih =>
      obtain ⟨⟨inner, left⟩, hinner, heq⟩ := Option.map_eq_some_iff.1 h
      simp only [Prod.mk.injEq] at heq
      obtain ⟨rfl, rfl⟩ := heq
      obtain ⟨rfl, hhead⟩ := ih hinner
      exact ⟨by simp [doubleQuotes], hhead⟩
  | case3 rest hnext =>
      simp only [Option.some.injEq, Prod.mk.injEq] at h
      obtain ⟨rfl, rfl⟩ := h
      refine ⟨by simp [doubleQuotes], ?_⟩
      cases rest with
      | nil => simp
      | cons d tail =>
          simp only [List.head?_cons, ne_eq, Option.some.injEq]
          rintro rfl
          exact hnext tail rfl rfl
  | case4 c rest _ hc ih =>
      obtain ⟨⟨inner, left⟩, hinner, heq⟩ := Option.map_eq_some_iff.1 h
      simp only [Prod.mk.injEq] at heq
      obtain ⟨rfl, rfl⟩ := heq
      obtain ⟨rfl, hhead⟩ := ih hinner
      exact ⟨by simp [doubleQuotes, hc], hhead⟩

/-- A word that was written in quotes reads back, unless another quote follows. -/
theorem readQuoted?_doubleQuotes (word after : Text) (h : after.head? ≠ some '\'') :
    readQuoted? (doubleQuotes word ++ '\'' :: after) = some (word, after) := by
  induction word with
  | nil =>
      cases after with
      | nil => simp [doubleQuotes, readQuoted?]
      | cons d tail =>
          have hd : d ≠ '\'' := by simpa using h
          simp [doubleQuotes, readQuoted?, hd]
  | cons c rest ih =>
      by_cases hc : c = '\''
      · simp [doubleQuotes, readQuoted?, hc, ih]
      · simp [doubleQuotes, readQuoted?, hc, ih]

end GradingRule.Text
