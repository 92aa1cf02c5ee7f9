/-
The sequences that rules stand for.  A rule decodes to a sequence that its
clauses can make, and in the default dialect every such sequence has a rule.
-/
import GradingRule.Proofs.Meaning
import GradingRule.Proofs.Spelling

namespace GradingRule

theorem openParen_mem_bodyKinds {clauses : List Clause} (h : clauses ≠ []) :
    Lexeme.Kind.openParen ∈ bodyKinds clauses := by
  obtain ⟨clause, others, rfl⟩ := List.exists_cons_of_ne_nil h
  have hclause : Lexeme.Kind.openParen ∈ clause.kinds := by simp [Clause.kinds]
  cases others with
  | nil => exact hclause
  | cons next others =>
      rw [bodyKinds_cons (by simp)]
      exact List.mem_append_left _ hclause

/-- A rule opens two parentheses, its head's and its first clause's. -/
theorem Rule.two_le_count_openParen_kinds (rule : Rule) (h : rule.clauses ≠ []) :
    2 ≤ rule.kinds.count .openParen := by
  have hbody := List.count_pos_iff.2 (openParen_mem_bodyKinds h)
  have hkinds : rule.kinds.count .openParen = (bodyKinds rule.clauses).count .openParen + 1 := by
    simp [kinds]
  rw [hkinds]
  exact Nat.succ_le_succ hbody

theorem Sequence.spellable_empty : empty.Spellable :=
  ⟨clausal_empty, by simp [empty]⟩

/-- A rule can be about one word alone. -/
theorem Sequence.spellable_push_word {operator : Operator} (h : operator ≠ .or) (token : Token) :
    (empty.push operator (.primary .word token)).Spellable := by
  refine ⟨⟨?_, ?_, ?_⟩, ?_⟩
  · exact coherent_empty.push_primary (by decide) _ _ _
  · intro term hterm
    obtain rfl := List.mem_singleton.1 hterm
    exact ⟨fun _ token _ => token.proper, by simp, by simp⟩
  · rintro term ⟨⟩
    exact h
  · rintro term ⟨⟩
    exact h

/-- The last clause of a spellable sequence has no semicolon after it. -/
theorem Sequence.Spellable.ended_map_clause {sequence : Sequence} (h : sequence.Spellable)
    (dialect : Dialect) (hne : sequence.terms ≠ []) :
    Ended (sequence.terms.map (Term.clause dialect)) := by
  have hlast := List.getLast?_eq_some_getLast hne
  refine ⟨(sequence.terms.getLast hne).clause dialect, by simp [hlast], ?_⟩
  simpa [Term.clause] using h.last_ne_or _ hlast

theorem Sequence.size_empty : empty.size = 0 := rfl

theorem Lexeme.plainNeck_default : PlainNeck ({} : Dialect).neck :=
  ⟨':', ['-'], rfl, by decide, by decide, rfl, by decide⟩

namespace Dialect

/-- What a text loses when it is condensed are blanks and periods. -/
theorem count_condense {c : Char} (hblank : isBlank c = false) (hperiod : c ≠ '.')
    (text : Text) : (condense text).count c = text.count c := by
  have hfilter : (text.filter fun c => !isBlank c).count c = text.count c :=
    List.count_filter (by simp [hblank])
  have hperiods : ∀ text : Text, (text.dropWhile (· = '.')).count c = text.count c := by
    intro text
    induction text with
    | nil => rfl
    | cons d rest ih =>
        by_cases hd : d = '.'
        · rw [List.dropWhile_cons_of_pos (by simp [hd]), ih, hd]
          exact (List.count_cons_of_ne hperiod.symm).symm
        · rw [List.dropWhile_cons_of_neg (by simp [hd])]
  rw [condense, List.count_reverse, hperiods, List.count_reverse, hfilter]

/-- A text with more of some character than the text for no rule is not taken for it. -/
theorem isEmptyRule_eq_false_of_count_lt {dialect : Dialect} {c : Char}
    (hblank : isBlank c = false) (hperiod : c ≠ '.') {text : Text}
    (h : dialect.emptyRule.count c < text.count c) : dialect.isEmptyRule text = false := by
  rw [isEmptyRule, decide_eq_false_iff_not]
  intro heq
  have hcount := congrArg (List.count c) heq
  rw [count_condense hblank hperiod, count_condense hblank hperiod] at hcount
  exact absurd hcount (Nat.ne_of_gt h)

theorem decode_of_not_isEmptyRule {dialect : Dialect} {text : Text} {sequence : Sequence}
    (hrule : dialect.isEmptyRule text = false) :
    dialect.decode text = .ok sequence ↔
      ∃ rule, dialect.parse text = .ok rule ∧
        Rule.decodeFrom dialect .empty rule.clauses = .ok sequence := by
  rw [decode, if_neg (by simp [hrule]), bind_eq_ok_iff]
  rfl

theorem parse_eq_ok_iff {dialect : Dialect} {text : Text} {rule : Rule} :
    dialect.parse text = .ok rule ↔
      (∃ lexemes, Lexeme.ofText dialect.neck text = .ok lexemes ∧
        Rule.ofLexemes text lexemes = .ok rule) ∧
      rule.head = dialect.head ∧ rule.responseVar = dialect.responseVar := by
  rw [parse, bind_eq_ok_iff]
  constructor
  · rintro ⟨read, hread, hhead⟩
    split_ifs at hhead with h
    obtain rfl := Except.ok.inj hhead
    exact ⟨bind_eq_ok_iff.1 hread, h⟩
  · rintro ⟨hread, h⟩
    exact ⟨rule, bind_eq_ok_iff.2 hread, if_pos h⟩

/-- The rule with these clauses, written with its words in quotes. -/
def written (dialect : Dialect) (clauses : List Clause) : Text :=
  Lexeme.spellAll dialect.neck (Rule.kinds ⟨dialect.head, dialect.responseVar, clauses⟩)

theorem two_le_count_openParen_written (dialect : Dialect) {clauses : List Clause}
    (h : clauses ≠ []) : 2 ≤ (dialect.written clauses).count '(' := by
  have hkinds := Rule.two_le_count_openParen_kinds ⟨dialect.head, dialect.responseVar, clauses⟩ h
  exact Nat.le_trans hkinds (Lexeme.count_openParen_le_count_spellAll dialect.neck _)

/-- A sequence is what a text with the lexemes of its clauses decodes to. -/
theorem decode_of_lexemes {dialect : Dialect} {sequence : Sequence} (h : sequence.Spellable)
    (hne : sequence.terms ≠ []) {text : Text} {lexemes : List Lexeme}
    (hlexemes : Lexeme.ofText dialect.neck text = .ok lexemes)
    (hkinds : lexemes.map Lexeme.kind =
      Rule.kinds ⟨dialect.head, dialect.responseVar, sequence.terms.map (Term.clause dialect)⟩)
    (hempty : dialect.isEmptyRule text = false) :
    dialect.decode text = .ok sequence := by
  obtain ⟨rule, hrule, hhead, hvar, hshapes⟩ :=
    Rule.exists_ofLexemes_of_kinds text (by simp [Term.clause])
      (h.ended_map_clause dialect hne) (.inl hkinds)
  refine (decode_of_not_isEmptyRule hempty).2
    ⟨rule, parse_eq_ok_iff.2 ⟨⟨lexemes, hlexemes, hrule⟩, hhead, hvar⟩, ?_⟩
  exact Rule.decodeFrom_of_shapes hshapes (h.decodeFrom_map_clause dialect)

theorem ended_of_parse {dialect : Dialect} {text : Text} {rule : Rule}
    (h : dialect.parse text = .ok rule) : Ended rule.clauses := by
  obtain ⟨⟨lexemes, -, hrule⟩, -⟩ := parse_eq_ok_iff.1 h
  exact Rule.ended_of_ofLexemes hrule

/-- A text that is not too long spells no rule of too many clauses. -/
theorem length_clauses_lt_of_parse {dialect : Dialect} {text : Text} {limit : Nat}
    (hlength : text.length < limit) :
    ∀ rule, dialect.parse text = .ok rule → rule.clauses.length < limit := by
  intro rule h
  obtain ⟨⟨lexemes, hlexemes, hrule⟩, -⟩ := parse_eq_ok_iff.1 h
  exact Nat.lt_of_le_of_lt (Rule.length_clauses_le hlexemes hrule) hlength

/-- The text for no rule has at most one parenthesis, so no written rule is taken
for it: it opens two, its head's and its first clause's. -/
theorem exists_decode_of_spellable {dialect : Dialect}
    (hneck : Lexeme.PlainNeck dialect.neck) (hrule : dialect.emptyRule.count '(' ≤ 1)
    {sequence : Sequence} (h : sequence.Spellable) :
    ∃ text, dialect.decode text = .ok sequence := by
  by_cases hne : sequence.terms = []
  · refine ⟨dialect.emptyRule, ?_⟩
    rw [decode, if_pos (by simp [isEmptyRule]), Sequence.empty, ← hne]
  · let clauses := sequence.terms.map (Term.clause dialect)
    let kinds := Rule.kinds ⟨dialect.head, dialect.responseVar, clauses⟩
    have htwo : 2 ≤ (dialect.written clauses).count '(' :=
      dialect.two_le_count_openParen_written (by simp [clauses, hne])
    exact ⟨dialect.written clauses, decode_of_lexemes h hne
      (Lexeme.scanFrom_eq_ok_iff_lexes.2 (hneck.lexes_spellAll 0 kinds))
      (Lexeme.map_kind_placeAll dialect.neck 0 kinds)
      (isEmptyRule_eq_false_of_count_lt (by decide) (by decide)
        (Nat.lt_of_le_of_lt hrule htwo))⟩

/-- Exactly which sequences rules stand for.  Whatever a rule of fewer than 2^32
clauses decodes to is spellable, in every dialect; in the default dialect every
spellable sequence is what some rule decodes to. -/
theorem decode_image_eq_spellable :
    (∀ (dialect : Dialect) (text : Text) (sequence : Sequence),
      (∀ rule, dialect.parse text = .ok rule → rule.clauses.length < UInt32.size) →
      dialect.decode text = .ok sequence →
        (sequence.terms = [] ↔ dialect.isEmptyRule text = true) ∧ sequence.Spellable) ∧
    ∀ sequence : Sequence, sequence.Spellable →
      ∃ text, ({} : Dialect).decode text = .ok sequence := by
  constructor
  · intro dialect text sequence hlength h
    cases hempty : dialect.isEmptyRule text with
    | true =>
        rw [decode, if_pos hempty] at h
        obtain rfl := Except.ok.inj h
        exact ⟨by simp [Sequence.empty], Sequence.spellable_empty⟩
    | false =>
        obtain ⟨rule, hparse, hdecode⟩ := (decode_of_not_isEmptyRule hempty).1 h
        have hended := ended_of_parse hparse
        have hsize := Rule.size_of_decodeFrom hdecode
        have hrule := hlength rule hparse
        rw [Sequence.size_empty, Nat.zero_add] at hsize
        refine ⟨?_, Rule.spellable_of_decodeFrom hended hdecode (hsize ▸ hrule)⟩
        have hne : sequence.terms ≠ [] := by
          intro hnil
          rw [Sequence.size, hnil, List.length_nil] at hsize
          exact hended.ne_nil (List.length_eq_zero_iff.1 hsize.symm)
        simp [hne]
  · intro sequence h
    exact exists_decode_of_spellable Lexeme.plainNeck_default (by decide) h

end Dialect

namespace DecodingWitness

/-- A token that looks like a piece of a rule and ends in a control character. -/
def odd : Token :=
  .ofText (":-'(".toList ++ [Char.ofNat 1]) (by decide)

/-- The odd word, a template as an alternative to it, and a relation between them. -/
def sequence : Sequence :=
  ((Sequence.empty.push .not (.primary .word odd)).push
    .or (.primary .template (.ofText "swan*".toList (by decide)))).push
    .and (.pair .closelyPrecedes (.atPlace 2) (.atPlace 1))

/-- A rule for it, in which the star is left out. -/
def text : Text :=
  ("correct_response(A) :- not term(A,':-''(\x01'), template(A,swan); " ++
    "closely_precedes(A,C,B).").toList

theorem spellable_sequence : sequence.Spellable where
  coherent := (Sequence.fault?_eq_none_iff.1 rfl).1
  terms := by
    refine List.forall_mem_cons.2 ⟨?_, List.forall_mem_cons.2 ⟨?_, List.forall_mem_singleton.2 ?_⟩⟩
    · exact ⟨fun _ token _ => token.proper, by simp, by simp⟩
    · refine ⟨fun _ token _ => token.proper, ?_, by simp⟩
      rintro token ⟨⟩
      rfl
    · refine ⟨fun _ token _ => token.proper, by simp, ?_⟩
      rintro _ _ _ ⟨⟩
      decide
  first_ne_or := by
    rintro term ⟨⟩
    decide
  last_ne_or := by
    rintro term ⟨⟩
    decide

/-- The rule decodes to the sequence, and as the sequence is spellable some rule does. -/
theorem exists_decode_eq_sequence :
    (∀ rule, ({} : Dialect).parse text = .ok rule → rule.clauses.length < UInt32.size) ∧
      ({} : Dialect).decode text = .ok sequence ∧
      (sequence.terms = [] ↔ ({} : Dialect).isEmptyRule text = true) ∧
      sequence.Spellable ∧ ∃ text, ({} : Dialect).decode text = .ok sequence := by
  have hlength : ∀ rule, ({} : Dialect).parse text = .ok rule →
      rule.clauses.length < UInt32.size :=
    Dialect.length_clauses_lt_of_parse (by decide)
  have hdecode : ({} : Dialect).decode text = .ok sequence := by decide +kernel
  obtain ⟨hsound, hcomplete⟩ := Dialect.decode_image_eq_spellable
  exact ⟨hlength, hdecode, (hsound _ _ _ hlength hdecode).1, spellable_sequence,
    hcomplete sequence spellable_sequence⟩

end DecodingWitness

end GradingRule
