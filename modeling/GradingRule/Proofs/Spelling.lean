/-
Writing lexemes: every list of kinds has a text with exactly these lexemes.
Words are written in quotes, so that they can be any text at all.
-/
import GradingRule.Proofs.Lexemes

namespace GradingRule.Lexeme

/-- A neck that starts like no other lexeme. -/
def PlainNeck (neck : Text) : Prop :=
  ∃ c rest, neck = c :: rest ∧ isBlank c = false ∧ isControl c = false ∧
    punctuation? c = none ∧ c ≠ '\''

/-- A spelling of a lexeme of this kind. -/
def Kind.spell (neck : Text) : Kind → Text
  | .word text => Text.quoted text
  | .openParen => ['(']
  | .closeParen => [')']
  | .comma => [',']
  | .semicolon => [';']
  | .period => ['.']
  | .neck => neck

/-- The spellings one after the other, with a space between. -/
def spellAll (neck : Text) (kinds : List Kind) : Text :=
  [' '].intercalate (kinds.map (Kind.spell neck))

theorem spellAll_cons_cons (neck : Text) (kind next : Kind) (kinds : List Kind) :
    spellAll neck (kind :: next :: kinds) =
      kind.spell neck ++ ' ' :: spellAll neck (next :: kinds) := by
  simp [spellAll, List.intercalate_cons_cons]

/-- Every open parenthesis that is spelled stands in the text. -/
theorem count_openParen_le_count_spellAll (neck : Text) (kinds : List Kind) :
    kinds.count .openParen ≤ (spellAll neck kinds).count '(' := by
  induction kinds with
  | nil => exact Nat.zero_le _
  | cons kind kinds ih =>
      have hkind : [kind].count .openParen ≤ (kind.spell neck).count '(' := by
        cases kind with
        | openParen => exact Nat.le_refl 1
        | _ => exact Nat.zero_le _
      cases kinds with
      | nil => simpa [spellAll] using hkind
      | cons next kinds =>
          have hsplit : (kind :: next :: kinds).count .openParen =
              [kind].count .openParen + (next :: kinds).count .openParen := by
            rw [← List.count_append]
            rfl
          have hspace : ' ' ≠ '(' := by decide
          rw [hsplit, spellAll_cons_cons, List.count_append, List.count_cons_of_ne hspace]
          exact Nat.add_le_add hkind ih

/-- A quote does not start a plain neck, so it starts a quoted word. -/
theorem PlainNeck.startsWithNeck_quote {neck : Text} (h : PlainNeck neck) (text : Text) :
    startsWithNeck neck ('\'' :: text) = false := by
  obtain ⟨c, rest, rfl, -, -, -, hquote⟩ := h
  simp [startsWithNeck, List.isPrefixOf, hquote]

/-- The lexer takes a spelling off as one lexeme, unless a quote follows. -/
theorem PlainNeck.spelled {neck : Text} (h : PlainNeck neck) (kind : Kind) {after : Text}
    (hafter : after.head? ≠ some '\'') :
    ∃ c tail, kind.spell neck = c :: tail ∧ isBlank c = false ∧
      Spelled neck kind c tail after := by
  cases kind with
  | word text =>
      exact ⟨_, _, rfl, by decide, .quoted (h.startsWithNeck_quote _) hafter⟩
  | neck =>
      obtain ⟨c, rest, rfl, hblank, hcontrol, hpunctuation, -⟩ := h
      exact ⟨c, rest, rfl, hblank, .neck rfl ⟨hblank, hpunctuation, hcontrol⟩⟩
  | openParen => exact ⟨_, _, rfl, by decide, .punctuation rfl⟩
  | closeParen => exact ⟨_, _, rfl, by decide, .punctuation rfl⟩
  | comma => exact ⟨_, _, rfl, by decide, .punctuation rfl⟩
  | semicolon => exact ⟨_, _, rfl, by decide, .punctuation rfl⟩
  | period => exact ⟨_, _, rfl, by decide, .punctuation rfl⟩

/-- The lexemes of these spellings, the first of them at the offset. -/
def placeAll (neck : Text) : Nat → List Kind → List Lexeme
  | _, [] => []
  | offset, kind :: kinds =>
      let stop := offset + Text.byteSize (kind.spell neck)
      ⟨kind, offset, stop⟩ :: placeAll neck (stop + ' '.utf8Size) kinds

theorem map_kind_placeAll (neck : Text) (offset : Nat) (kinds : List Kind) :
    (placeAll neck offset kinds).map Lexeme.kind = kinds := by
  induction kinds generalizing offset with
  | nil => rfl
  | cons kind kinds ih => exact congrArg (kind :: ·) (ih _)

/-- No spelling runs into the next one: a space is no quote, so it ends a quoted word. -/
theorem PlainNeck.lexes_spellAll {neck : Text} (h : PlainNeck neck) (offset : Nat)
    (kinds : List Kind) :
    Lexes neck offset (spellAll neck kinds) (placeAll neck offset kinds) := by
  induction kinds generalizing offset with
  | nil => exact .nil
  | cons kind kinds ih =>
      rw [placeAll]
      cases kinds with
      | nil =>
          obtain ⟨c, tail, hspell, hblank, hspelled⟩ :=
            h.spelled kind (show ([] : Text).head? ≠ _ by simp)
          have htext : spellAll neck [kind] = c :: (tail ++ []) := by simp [spellAll, hspell]
          rw [htext, hspell]
          exact .lexeme hblank hspelled .nil
      | cons next kinds =>
          obtain ⟨c, tail, hspell, hblank, hspelled⟩ :=
            h.spelled kind (show (' ' :: spellAll neck (next :: kinds)).head? ≠ _ by simp)
          rw [spellAll_cons_cons, hspell]
          exact .lexeme hblank hspelled (.blank (by decide) (ih _))

/-- Reading undoes writing, whatever the words are. -/
theorem ofText_spellAll {neck : Text} (h : PlainNeck neck) (kinds : List Kind) :
    ofText neck (spellAll neck kinds) = .ok (placeAll neck 0 kinds) ∧
      (placeAll neck 0 kinds).map Lexeme.kind = kinds :=
  ⟨scanFrom_eq_ok_iff_lexes.2 (h.lexes_spellAll 0 kinds), map_kind_placeAll neck 0 kinds⟩

end GradingRule.Lexeme

namespace GradingRule.SpellingWitness

def neck : Text :=
  "<-".toList

/-- Quotes next to quotes, no word at all, and the neck and a line break in a word. -/
def kinds : List Lexeme.Kind :=
  [.word "a''".toList, .word [], .neck, .word "'".toList, .period, .word "<-\n(é".toList]

def text : Text :=
  "'a''''' '' <- '''' . '<-\n(é'".toList

theorem ofText_spellAll_quotes :
    Lexeme.PlainNeck neck ∧ Lexeme.spellAll neck kinds = text ∧
      Lexeme.ofText neck (Lexeme.spellAll neck kinds) = .ok (Lexeme.placeAll neck 0 kinds) ∧
      (Lexeme.placeAll neck 0 kinds).map Lexeme.kind = kinds := by
  have hneck : Lexeme.PlainNeck neck :=
    ⟨'<', ['-'], by decide, by decide, by decide, rfl, by decide⟩
  exact ⟨hneck, by decide, Lexeme.ofText_spellAll hneck kinds⟩

end GradingRule.SpellingWitness
