/-
Where the lexer fails.  A fault always points at a control character or at a quote that
nothing closes, and the lexer reads all that stands in front of it.
-/
import GradingRule.Proofs.Fronts

namespace GradingRule

namespace Text

theorem readQuoted?_doubleQuotes_eq_none (word : Text) :
    readQuoted? (doubleQuotes word) = none := by
  induction word with
  | nil => rfl
  | cons c word ih =>
      by_cases hc : c = '\''
      · simp [doubleQuotes, readQuoted?, hc, ih]
      · simp [doubleQuotes, readQuoted?, hc, ih]

/-- No quote closes a word exactly if every quote stands in front of another one that
goes with it. -/
theorem readQuoted?_eq_none_iff {text : Text} :
    readQuoted? text = none ↔ ∃ word, text = doubleQuotes word := by
  constructor
  · intro h
    fun_induction readQuoted? text with
    | case1 => exact ⟨[], rfl⟩
    | case2 rest ih =>
        obtain ⟨word, rfl⟩ := ih (Option.map_eq_none_iff.1 h)
        exact ⟨'\'' :: word, by simp [doubleQuotes]⟩
    | case3 => exact absurd h (by simp)
    | case4 c rest _ hc ih =>
        obtain ⟨word, rfl⟩ := ih (Option.map_eq_none_iff.1 h)
        exact ⟨c :: word, by simp [doubleQuotes, hc]⟩
  · rintro ⟨word, rfl⟩
    exact readQuoted?_doubleQuotes_eq_none word

end Text

namespace Lexeme

/-- The fault that the character behind `front` raises. -/
inductive Culprit (text front : Text) : RuleFault → Prop
  | control {c : Char} {rest : Text} :
      text = front ++ c :: rest → isControl c = true → isBlank c = false →
      Culprit text front (.unexpectedChar c (Text.byteSize front))
  | quote {rest : Text} :
      text = front ++ '\'' :: rest → Text.readQuoted? rest = none →
      Culprit text front (.unexpected (Text.byteSize front) .closingQuote none)

theorem culprit_of_scan {neck front rest : Text} {c : Char} {fault : RuleFault}
    (hblank : isBlank c = false)
    (h : scan neck (Text.byteSize front) c rest = .error fault) :
    Culprit (front ++ c :: rest) front fault := by
  rw [scan] at h
  split at h
  · exact absurd h (by simp)
  · split_ifs at h with hcontrol hneck hquote
    · obtain rfl := Except.error.inj h
      exact .control rfl hcontrol hblank
    · subst hquote
      split at h
      · exact absurd h (by simp)
      · next hread =>
          obtain rfl := Except.error.inj h
          exact .quote rfl hread

/-- The lexer reads up to the character at which it fails. -/
theorem exists_reads_of_scanFrom_eq_error {neck : Text} {offset : Nat} {text : Text}
    {fault : RuleFault} (h : scanFrom neck offset text = .error fault) :
    ∃ front c rest lexemes, text = front ++ c :: rest ∧
      Reads neck (c :: rest) offset front lexemes ∧ isBlank c = false ∧
      scan neck (offset + Text.byteSize front) c rest = .error fault := by
  fun_induction scanFrom neck offset text with
  | case1 => exact absurd h (by simp)
  | case2 offset c text hblank ih =>
      obtain ⟨front, d, rest, lexemes, rfl, hfront, hd, hscan⟩ := ih h
      rw [Nat.add_assoc, ← Text.byteSize_cons] at hscan
      exact ⟨c :: front, d, rest, lexemes, rfl, .blank hblank hfront, hd, hscan⟩
  | case3 offset c text hblank raised hscan =>
      obtain rfl := Except.error.inj h
      exact ⟨[], c, text, [], rfl, .nil, by simpa using hblank, hscan⟩
  | case4 offset c text hblank kind tail hscan stop =>
      rename_i ih
      have hunblank : isBlank c = false := by simpa using hblank
      obtain ⟨after, rfl, hspelled⟩ := spelled_of_scan hunblank hscan
      rw [List.drop_left] at h ih
      obtain ⟨front, d, rest, lexemes, rfl, hfront, hd, hfault⟩ := ih (map_eq_error_iff.1 h)
      refine ⟨c :: (tail ++ front), d, rest, _, by simp, .lexeme hunblank hspelled hfront,
        hd, ?_⟩
      rwa [← List.cons_append, Text.byteSize_append, ← Nat.add_assoc]

/-- Every fault has its culprit.  What is in front of it is read, unless a period that
starts the neck was read before. -/
theorem exists_culprit_of_ofText_eq_error {neck text : Text} {fault : RuleFault}
    (h : ofText neck text = .error fault) :
    ∃ front, Culprit text front fault ∧
      (neck.head? ≠ some '.' → ∃ lexemes, ofText neck front = .ok lexemes) := by
  obtain ⟨front, c, rest, lexemes, rfl, hfront, hblank, hscan⟩ :=
    exists_reads_of_scanFrom_eq_error h
  rw [Nat.zero_add] at hscan
  refine ⟨front, culprit_of_scan hblank hscan, fun hperiod => ⟨lexemes, ?_⟩⟩
  exact scanFrom_eq_ok_iff_lexes.2 (hfront.lexes fun hneck => absurd hneck hperiod)

/-- A fault of the lexer points at its culprit, and the text in front of that has none.
An unexpected character is a control that is no blank.  A syntax error stands at a quote
behind which all quotes go in pairs, so that a quote which could close the word always has
another one behind it.  Without such characters there is no fault. -/
theorem ofText_points_at_culprit {neck text : Text} (hperiod : neck.head? ≠ some '.') :
    (∀ found offset, ofText neck text = .error (.unexpectedChar found offset) →
      ∃ front rest, text = front ++ found :: rest ∧ Text.byteSize front = offset ∧
        isControl found = true ∧ isBlank found = false ∧
        ∃ lexemes, ofText neck front = .ok lexemes) ∧
    (∀ offset expected found, ofText neck text = .error (.unexpected offset expected found) →
      ∃ front rest, text = front ++ '\'' :: rest ∧ Text.byteSize front = offset ∧
        (∃ word, rest = Text.doubleQuotes word) ∧
        (∀ word after, rest = Text.doubleQuotes word ++ '\'' :: after →
          after.head? = some '\'') ∧
        ∃ lexemes, ofText neck front = .ok lexemes) ∧
    ((∀ c ∈ text, c ≠ '\'' ∧ (isControl c = true → isBlank c = true)) →
      ∃ lexemes, ofText neck text = .ok lexemes) := by
  refine ⟨fun found offset h => ?_, fun offset expected found h => ?_, fun hplain => ?_⟩
  · obtain ⟨front, hculprit, hread⟩ := exists_culprit_of_ofText_eq_error h
    cases hculprit with
    | control htext hcontrol hblank =>
        exact ⟨front, _, htext, rfl, hcontrol, hblank, hread hperiod⟩
  · obtain ⟨front, hculprit, hread⟩ := exists_culprit_of_ofText_eq_error h
    cases hculprit with
    | @quote rest htext hnone =>
        refine ⟨front, rest, htext, rfl, Text.readQuoted?_eq_none_iff.1 hnone, ?_,
          hread hperiod⟩
        intro word after hrest
        by_contra hhead
        rw [hrest, Text.readQuoted?_doubleQuotes word after hhead] at hnone
        exact absurd hnone (by simp)
  · cases hresult : ofText neck text with
    | ok lexemes => exact ⟨lexemes, rfl⟩
    | error fault =>
        obtain ⟨front, hculprit, -⟩ := exists_culprit_of_ofText_eq_error hresult
        cases hculprit with
        | @control c rest htext hcontrol hblank =>
            have hc := (hplain c (by simp [htext])).2 hcontrol
            exact absurd (hblank.symm.trans hc) (by decide)
        | quote htext _ => exact absurd rfl (hplain '\'' (by simp [htext])).1

/-- A neck that starts with a period can end a word and yet be read as something else, here
as a period and a quoted word.  Cut off at the fault, the text has no neck, the word goes on
and the quote is not closed. -/
example :
    let neck := ".'x '".toList ++ [Char.ofNat 7]
    ofText neck ("a.'x '".toList ++ [Char.ofNat 7]) = .error (.unexpectedChar (Char.ofNat 7) 6) ∧
      ofText neck "a.'x '".toList = .error (.unexpected 5 .closingQuote none) := by
  decide +kernel

end Lexeme

namespace CulpritsWitness

def neck : Text :=
  "'-".toList

/-- A bell in a bare word, behind a neck that starts with a quote. -/
def ringing : Text :=
  "h(é)'-'it''s'x".toList ++ Char.ofNat 7 :: "y".toList

/-- The last two quotes go together. -/
def unclosed : Text :=
  "'é'\nterm('oops''".toList

def plain : Text :=
  "not term(A,\t:-)".toList

theorem ofText_points_at_culprit_quote :
    neck.head? ≠ some '.' ∧
      Lexeme.ofText neck ringing = .error (.unexpectedChar (Char.ofNat 7) 15) ∧
      (∃ front rest, ringing = front ++ Char.ofNat 7 :: rest ∧ Text.byteSize front = 15 ∧
        isControl (Char.ofNat 7) = true ∧ isBlank (Char.ofNat 7) = false ∧
        ∃ lexemes, Lexeme.ofText neck front = .ok lexemes) ∧
      Lexeme.ofText neck unclosed = .error (.unexpected 10 .closingQuote none) ∧
      (∃ front rest, unclosed = front ++ '\'' :: rest ∧ Text.byteSize front = 10 ∧
        (∃ word, rest = Text.doubleQuotes word) ∧
        (∀ word after, rest = Text.doubleQuotes word ++ '\'' :: after →
          after.head? = some '\'') ∧
        ∃ lexemes, Lexeme.ofText neck front = .ok lexemes) ∧
      (∀ c ∈ plain, c ≠ '\'' ∧ (isControl c = true → isBlank c = true)) ∧
      ∃ lexemes, Lexeme.ofText neck plain = .ok lexemes := by
  have hperiod : neck.head? ≠ some '.' := by decide
  have hringing : Lexeme.ofText neck ringing =
      .error (.unexpectedChar (Char.ofNat 7) 15) := by decide +kernel
  have hunclosed : Lexeme.ofText neck unclosed = .error (.unexpected 10 .closingQuote none) := by
    decide +kernel
  -- `decide` on the quantifier itself could go through all characters there are.
  have hall : (plain.all fun c =>
      decide (c ≠ '\'' ∧ (isControl c = true → isBlank c = true))) = true := by
    decide +kernel
  have hplain : ∀ c ∈ plain, c ≠ '\'' ∧ (isControl c = true → isBlank c = true) :=
    fun c hc => of_decide_eq_true (List.all_eq_true.1 hall c hc)
  exact ⟨hperiod, hringing, (Lexeme.ofText_points_at_culprit hperiod).1 _ _ hringing,
    hunclosed, (Lexeme.ofText_points_at_culprit hperiod).2.1 _ _ _ hunclosed, hplain,
    (Lexeme.ofText_points_at_culprit hperiod).2.2 hplain⟩

end CulpritsWitness

end GradingRule
