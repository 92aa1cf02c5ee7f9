/-
The text for no rule.  It is recognised without its blanks and its last periods, so
texts that the lexer reads in many ways are taken for it.  Parentheses are the one
thing that neither drops: a rule spells two, its head's and its first clause's, so it
is never taken for a text that has only one.
-/
import GradingRule.Proofs.Decoding
import GradingRule.Proofs.Grammar

namespace GradingRule

/-- Every open parenthesis that is read stands in the text. -/
theorem Lexeme.Lexes.count_openParen_le {neck text : Text} {offset : Nat}
    {lexemes : List Lexeme} (h : Lexes neck offset text lexemes) :
    (lexemes.map Lexeme.kind).count .openParen ≤ text.count '(' := by
  induction h with
  | nil => exact Nat.le_refl 0
  | @blank _ c rest lexemes _ _ ih =>
      exact Nat.le_trans ih ((List.sublist_cons_self c rest).count_le '(')
  | @lexeme offset kind c tail after lexemes _ hspelled _ ih =>
      rw [List.map_cons, List.count_cons, ← List.cons_append, List.count_append, Nat.add_comm]
      have hkind : (if kind == .openParen then 1 else 0) ≤ (c :: tail).count '(' := by
        cases hspelled with
        | punctuation hmark =>
            rcases eq_of_punctuation? hmark with
              ⟨rfl, rfl⟩ | ⟨rfl, rfl⟩ | ⟨rfl, rfl⟩ | ⟨rfl, rfl⟩ | ⟨rfl, rfl⟩
            · exact Nat.le_refl 1
            · exact Nat.zero_le _
            · exact Nat.zero_le _
            · exact Nat.zero_le _
            · exact Nat.zero_le _
        | neck => exact Nat.zero_le _
        | quoted => exact Nat.zero_le _
        | bare => exact Nat.zero_le _
      exact Nat.add_le_add hkind ih

namespace Rule

theorem two_le_count_openParen_of_ofText {neck text : Text} {rule : Rule}
    (h : ofText neck text = .ok rule) : 2 ≤ text.count '(' := by
  obtain ⟨lexemes, hlexemes, hrule⟩ := bind_eq_ok_iff.1 h
  obtain ⟨hformed, hwritten⟩ := writtenAs_of_ofLexemes hrule
  have htwo := two_le_count_openParen_kinds rule hformed.ended.ne_nil
  have hkinds : 2 ≤ (lexemes.map Lexeme.kind).count .openParen := by
    rcases hwritten with heq | heq
    · rwa [heq]
    · rw [heq, List.count_append]
      exact Nat.le_add_right_of_le htwo
  exact Nat.le_trans hkinds (Lexeme.scanFrom_eq_ok_iff_lexes.1 hlexemes).count_openParen_le

end Rule

namespace Dialect

/-- A text for no rule with at most one parenthesis replaces no rule: whatever is
taken for it and decodes to nothing is faulty as a rule, and a text that is a rule
decodes as one. -/
theorem parse_eq_error_of_isEmptyRule {dialect : Dialect}
    (h : dialect.emptyRule.count '(' ≤ 1) (text : Text) :
    (dialect.isEmptyRule text = true →
      dialect.decode text = .ok .empty ∧
        ∃ fault, Rule.ofText dialect.neck text = .error fault ∧
          dialect.parse text = .error fault) ∧
      ∀ rule, dialect.parse text = .ok rule →
        dialect.isEmptyRule text = false ∧ dialect.decode text = rule.decode dialect := by
  have hnone : ∀ rule, Rule.ofText dialect.neck text = .ok rule →
      dialect.isEmptyRule text = false := by
    intro rule hrule
    exact isEmptyRule_eq_false_of_count_lt (by decide) (by decide)
      (Nat.lt_of_le_of_lt h (Rule.two_le_count_openParen_of_ofText hrule))
  constructor
  · intro hempty
    refine ⟨by rw [decode, if_pos hempty], ?_⟩
    cases hread : Rule.ofText dialect.neck text with
    | ok rule =>
        rw [hnone rule hread] at hempty
        exact absurd hempty (by decide)
    | error fault => exact ⟨fault, rfl, by rw [parse, hread]; rfl⟩
  · intro rule hrule
    obtain ⟨read, hread, -⟩ := bind_eq_ok_iff.1 hrule
    have hempty := hnone read hread
    refine ⟨hempty, ?_⟩
    rw [decode, if_neg (by simp [hempty]), hrule]
    rfl

end Dialect

namespace EmptyRulesWitness

/-- The text for no rule, with blanks inside its words and periods apart. -/
def spaced : Text :=
  "correct_ response ( A ):-\nfal se . .".toList

def text : Text :=
  "correct_response(A) :- term(A,cat).".toList

def rule : Rule :=
  ⟨"correct_response".toList, "A".toList,
    [⟨"term(A,cat)".toList, false, false, "term".toList, ["A".toList, "cat".toList]⟩]⟩

theorem parse_eq_error_of_isEmptyRule_spaced :
    ({} : Dialect).emptyRule.count '(' ≤ 1 ∧
      ({} : Dialect).isEmptyRule spaced = true ∧
      (({} : Dialect).decode spaced = .ok .empty ∧
        ∃ fault, Rule.ofText ({} : Dialect).neck spaced = .error fault ∧
          ({} : Dialect).parse spaced = .error fault) ∧
      ({} : Dialect).parse text = .ok rule ∧
      ({} : Dialect).isEmptyRule text = false ∧
      ({} : Dialect).decode text = rule.decode {} := by
  have hcount : ({} : Dialect).emptyRule.count '(' ≤ 1 := by decide
  have hspaced : ({} : Dialect).isEmptyRule spaced = true := by decide
  have hrule : ({} : Dialect).parse text = .ok rule := by decide +kernel
  exact ⟨hcount, hspaced, (Dialect.parse_eq_error_of_isEmptyRule hcount spaced).1 hspaced,
    hrule, (Dialect.parse_eq_error_of_isEmptyRule hcount text).2 rule hrule⟩

end EmptyRulesWitness

/-- With two parentheses the text for no rule can be a rule. -/
example :
    let text := "correct_response(A) :- term(A,cow).".toList
    let dialect : Dialect := { emptyRule := text }
    dialect.isEmptyRule text = true ∧ (dialect.parse text).toOption.isSome = true := by
  decide +kernel

end GradingRule
