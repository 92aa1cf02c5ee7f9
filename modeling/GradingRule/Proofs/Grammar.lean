/-
The parser and the grammar.  Every rule that is read is written with exactly the
lexemes it was read from, a period at the end apart, so the parser accepts the
grammar and nothing else, and no lexemes spell two rules.
-/
import GradingRule.Proofs.Lexemes
import GradingRule.Proofs.Parsing

namespace GradingRule

/-- The rule without the texts of its clauses. -/
def Rule.shape (rule : Rule) : Rule :=
  { rule with clauses := rule.clauses.map Clause.shape }

/-- A rule of the grammar: every clause has arguments, and there is a last clause,
which no semicolon follows. -/
structure Rule.WellFormed (rule : Rule) : Prop where
  arguments_ne : ∀ clause ∈ rule.clauses, clause.arguments ≠ []
  ended : Ended rule.clauses

/-- The kinds are those that the rule is written with; a period may end them. -/
def Rule.WrittenAs (rule : Rule) (kinds : List Lexeme.Kind) : Prop :=
  kinds = rule.kinds ∨ kinds = rule.kinds ++ [.period]

namespace Lexeme

theorem eq_append_of_takeArguments {source : Text} {lexemes rest : List Lexeme}
    {arguments : List Text} {close : Lexeme}
    (h : takeArguments source lexemes = .ok (arguments, close, rest)) :
    arguments ≠ [] ∧ close.kind = .closeParen ∧
      ∃ front, lexemes = front ++ close :: rest ∧
        front.map Lexeme.kind = argumentKinds arguments := by
  fun_induction takeArguments source lexemes generalizing arguments close rest with
  | case1 argument start stop first last next ih =>
      obtain ⟨⟨others, _, _⟩, hothers, heq⟩ := bind_eq_ok_iff.1 h
      obtain ⟨rfl, rfl, rfl⟩ : argument :: others = arguments ∧ _ = close ∧ _ = rest := by
        simpa [pure, Except.pure] using heq
      obtain ⟨hne, hclose, front, rfl, hfront⟩ := ih hothers
      refine ⟨by simp, hclose,
        ⟨.word argument, start, stop⟩ :: ⟨.comma, first, last⟩ :: front, rfl, ?_⟩
      rw [argumentKinds_cons hne, List.map_cons, List.map_cons, hfront]
  | case2 argument start stop next _ =>
      obtain ⟨⟨_, _⟩, hclose, heq⟩ := bind_eq_ok_iff.1 h
      obtain ⟨rfl, rfl, rfl⟩ : [argument] = arguments ∧ _ = close ∧ _ = rest := by
        simpa [pure, Except.pure] using heq
      obtain ⟨rfl, hkind⟩ := eq_cons_of_takeKind hclose
      exact ⟨by simp, hkind, [⟨.word argument, start, stop⟩], rfl, rfl⟩
  | case3 => exact absurd h (by simp)

theorem eq_append_of_takeNegation {lexemes body : List Lexeme} {negated : Bool}
    (h : takeNegation lexemes = (negated, body)) :
    ∃ front, lexemes = front ++ body ∧
      front.map Lexeme.kind = if negated then [.word negationWord] else [] := by
  rw [takeNegation.eq_def] at h
  split at h
  · split_ifs at h with hword
    · obtain ⟨rfl, rfl⟩ := Prod.mk.inj h
      exact ⟨[_], rfl, by simp [hword]⟩
    · obtain ⟨rfl, rfl⟩ := Prod.mk.inj h
      exact ⟨[], rfl, rfl⟩
  · obtain ⟨rfl, rfl⟩ := Prod.mk.inj h
    exact ⟨[], rfl, rfl⟩

/-- The lexemes that a clause takes are those it is written with, and its text goes
from the first of them to the last. -/
theorem eq_append_of_takeClause {source : Text} {lexemes rest : List Lexeme}
    {clause : Clause} (h : takeClause source lexemes = .ok (clause, rest)) :
    clause.arguments ≠ [] ∧
      ∃ first middle close, lexemes = first :: (middle ++ close :: rest) ∧
        (first :: (middle ++ [close])).map Lexeme.kind = clause.kinds ∧
        clause.text = (Text.slice? source first.start close.stop).getD [] := by
  rcases hnegation : takeNegation lexemes with ⟨negated, body⟩
  simp only [takeClause, hnegation, bind_eq_ok_iff, Prod.exists] at h
  obtain ⟨command, _, hcommand, openParen, inner, hopen, arguments, close, _, harguments, heq⟩ := h
  obtain ⟨rfl, rfl⟩ := Prod.mk.inj (Except.ok.inj heq)
  obtain ⟨front, rfl, hfront⟩ := eq_append_of_takeNegation hnegation
  obtain ⟨start, stop, rfl⟩ := eq_cons_of_takeWord hcommand
  obtain ⟨rfl, hparen⟩ := eq_cons_of_takeKind hopen
  obtain ⟨hne, hclose, words, rfl, hwords⟩ := eq_append_of_takeArguments harguments
  refine ⟨hne, ?_⟩
  cases front with
  | nil =>
      refine ⟨_, openParen :: words, close, rfl, ?_, rfl⟩
      simp [Clause.kinds, ← hfront, hparen, hclose, hwords]
  | cons first front =>
      refine ⟨first, front ++ ⟨.word command, start, stop⟩ :: openParen :: words, close,
        by simp, ?_, rfl⟩
      rw [List.map_cons] at hfront
      simp [Clause.kinds, ← hfront, hparen, hclose, hwords]

/-- The text of a clause goes from one lexeme to a later one. -/
def SpansText (source : Text) (lexemes : List Lexeme) (clause : Clause) : Prop :=
  ∃ first last, [first, last].Sublist lexemes ∧
    clause.text = (Text.slice? source first.start last.stop).getD []

theorem SpansText.mono {source : Text} {lexemes more : List Lexeme} {clause : Clause}
    (h : SpansText source lexemes clause) (hsublist : lexemes.Sublist more) :
    SpansText source more clause := by
  obtain ⟨first, last, hlexemes, htext⟩ := h
  exact ⟨first, last, hlexemes.trans hsublist, htext⟩

theorem spansText_of_takeClause {source : Text} {lexemes rest : List Lexeme}
    {clause : Clause} (h : takeClause source lexemes = .ok (clause, rest)) :
    SpansText source lexemes clause := by
  obtain ⟨-, first, middle, close, rfl, -, htext⟩ := eq_append_of_takeClause h
  refine ⟨first, close, List.Sublist.cons_cons first ?_, htext⟩
  exact List.singleton_sublist.2 (by simp)

theorem map_kind_of_takeClause {source : Text} {lexemes rest : List Lexeme}
    {clause : Clause} (h : takeClause source lexemes = .ok (clause, rest)) :
    lexemes.map Lexeme.kind = clause.kinds ++ rest.map Lexeme.kind := by
  obtain ⟨-, first, middle, close, rfl, hkinds, -⟩ := eq_append_of_takeClause h
  simp [← hkinds]

/-- The lexemes that a body takes are those its clauses are written with. -/
theorem map_kind_of_takeClauses {source : Text} {lexemes rest : List Lexeme}
    {clauses : List Clause} (h : takeClauses source lexemes = .ok (clauses, rest)) :
    clauses ≠ [] ∧ lexemes.map Lexeme.kind = bodyKinds clauses ++ rest.map Lexeme.kind := by
  refine takeClausesInduction
    (motive := fun lexemes clauses rest => clauses ≠ [] ∧
      lexemes.map Lexeme.kind = bodyKinds clauses ++ rest.map Lexeme.kind) ?_ ?_ h
  · intro lexemes clause rest hclause
    exact ⟨by simp, map_kind_of_takeClause hclause⟩
  · intro lexemes clause marked separator next clauses rest hclause hmarked hkind ⟨hne, hnext⟩
    -- A clause is written alike with and without its mark.
    have hkinds : clause.kinds = marked.kinds := by rw [hmarked]; rfl
    refine ⟨by simp, ?_⟩
    rw [map_kind_of_takeClause hclause, List.map_cons, hnext, hkind, bodyKinds_cons hne, hkinds]
    simp

theorem of_mem_takeClauses {source : Text} {lexemes rest : List Lexeme}
    {clauses : List Clause} (h : takeClauses source lexemes = .ok (clauses, rest)) :
    ∀ clause ∈ clauses, clause.arguments ≠ [] ∧ SpansText source lexemes clause := by
  refine takeClausesInduction
    (motive := fun lexemes clauses _ => ∀ clause ∈ clauses,
      clause.arguments ≠ [] ∧ SpansText source lexemes clause) ?_ ?_ h
  · intro lexemes clause rest hclause
    exact List.forall_mem_singleton.2
      ⟨(eq_append_of_takeClause hclause).1, spansText_of_takeClause hclause⟩
  · intro lexemes clause marked separator next clauses rest hclause hmarked hkind hnext
    obtain ⟨hne, first, middle, close, heq, -⟩ := eq_append_of_takeClause hclause
    refine List.forall_mem_cons.2 ⟨?_, fun other hother => ?_⟩
    · obtain ⟨_, _, hsublist, htext⟩ := spansText_of_takeClause hclause
      rw [hmarked]
      exact ⟨hne, _, _, hsublist, htext⟩
    · refine ⟨(hnext other hother).1, (hnext other hother).2.mono ?_⟩
      have hsuffix : next <:+ lexemes := ⟨first :: (middle ++ [close, separator]), by simp [heq]⟩
      exact hsuffix.sublist

end Lexeme

namespace Rule

open Lexeme in
/-- What is read is a rule of the grammar, written with the lexemes it was read
from. -/
theorem writtenAs_of_ofLexemes {source : Text} {lexemes : List Lexeme} {rule : Rule}
    (h : ofLexemes source lexemes = .ok rule) :
    rule.WellFormed ∧ rule.WrittenAs (lexemes.map Lexeme.kind) := by
  obtain ⟨opening, body, rest, rfl, hopening, hclauses, hdrop⟩ :=
    exists_takeClauses_of_ofLexemes h
  have hkinds := (map_kind_of_takeClauses hclauses).2
  refine ⟨⟨fun clause hclause => (of_mem_takeClauses hclauses clause hclause).1,
    ended_of_takeClauses hclauses⟩, ?_⟩
  rw [WrittenAs, List.map_append, hopening, hkinds]
  rw [dropPeriod.eq_def] at hdrop
  split at hdrop
  · subst hdrop
    exact .inr (by simp [Rule.kinds])
  · subst hdrop
    exact .inl (by simp [Rule.kinds])

theorem exists_ofLexemes_of_writtenAs (source : Text) {rule : Rule} (h : rule.WellFormed)
    {lexemes : List Lexeme} (hkinds : rule.WrittenAs (lexemes.map Lexeme.kind)) :
    ∃ read, ofLexemes source lexemes = .ok read ∧ read.shape = rule.shape := by
  obtain ⟨read, hread, hhead, hvar, hshapes⟩ :=
    exists_ofLexemes_of_kinds source h.arguments_ne h.ended hkinds
  exact ⟨read, hread, by rw [shape, shape, hhead, hvar, hshapes]⟩

theorem kinds_shape (rule : Rule) : rule.shape.kinds = rule.kinds := by
  have hbody : ∀ clauses : List Clause,
      bodyKinds (clauses.map Clause.shape) = bodyKinds clauses := by
    intro clauses
    induction clauses with
    | nil => rfl
    | cons clause others ih =>
        cases others with
        | nil => rfl
        | cons next others =>
            rw [List.map_cons, bodyKinds_cons (by simp), ih]
            rfl
  simp [Rule.kinds, shape, hbody]

theorem wellFormed_shape_iff {rule : Rule} : rule.shape.WellFormed ↔ rule.WellFormed := by
  have harguments : (∀ clause ∈ rule.shape.clauses, clause.arguments ≠ []) ↔
      ∀ clause ∈ rule.clauses, clause.arguments ≠ [] :=
    List.forall_mem_map
  have hended : Ended rule.shape.clauses ↔ Ended rule.clauses := by
    simp [Ended, shape, List.getLast?_map, Clause.shape]
  exact ⟨fun h => ⟨harguments.1 h.arguments_ne, hended.1 h.ended⟩,
    fun h => ⟨harguments.2 h.arguments_ne, hended.2 h.ended⟩⟩

/-- No slice that the parser cuts out of a text misses. -/
theorem slice?_of_mem_clauses {neck source : Text} {lexemes : List Lexeme} {rule : Rule}
    (hlexemes : Lexeme.ofText neck source = .ok lexemes)
    (hrule : ofLexemes source lexemes = .ok rule) :
    ∀ clause ∈ rule.clauses, clause.text ≠ [] ∧
      ∃ first ∈ lexemes, ∃ last ∈ lexemes,
        Text.slice? source first.start last.stop = some clause.text := by
  intro clause hclause
  obtain ⟨opening, body, rest, rfl, -, hclauses, -⟩ := exists_takeClauses_of_ofLexemes hrule
  obtain ⟨first, last, hbody, htext⟩ := (Lexeme.of_mem_takeClauses hclauses clause hclause).2
  have hsublist := hbody.trans (List.sublist_append_right opening body)
  obtain ⟨middle, hne, hslice⟩ := Lexeme.exists_slice?_of_sublist hlexemes hsublist
  rw [hslice, Option.getD_some] at htext
  rw [htext]
  exact ⟨hne, first, hsublist.subset (by simp), last, hsublist.subset (by simp), hslice⟩

/-- The lexemes of a text are read as a rule exactly if they are what a rule of the
grammar is written with, and then as that rule.  The texts of its clauses are cut
out of the source. -/
theorem exists_ofLexemes_iff_writtenAs {neck source : Text} {lexemes : List Lexeme}
    (hlexemes : Lexeme.ofText neck source = .ok lexemes) :
    (∀ rule : Rule,
        (∃ read, ofLexemes source lexemes = .ok read ∧ read.shape = rule.shape) ↔
          rule.WellFormed ∧ rule.WrittenAs (lexemes.map Lexeme.kind)) ∧
      (∀ read, ofLexemes source lexemes = .ok read →
        ∀ clause ∈ read.clauses, clause.text ≠ [] ∧
          ∃ first ∈ lexemes, ∃ last ∈ lexemes,
            Text.slice? source first.start last.stop = some clause.text) ∧
      ∀ rule other : Rule, rule.WellFormed → rule.WrittenAs (lexemes.map Lexeme.kind) →
        other.WellFormed → other.WrittenAs (lexemes.map Lexeme.kind) →
        rule.shape = other.shape := by
  refine ⟨fun rule => ⟨?_, ?_⟩, fun read => slice?_of_mem_clauses hlexemes, ?_⟩
  · rintro ⟨read, hread, hshape⟩
    obtain ⟨hformed, hwritten⟩ := writtenAs_of_ofLexemes hread
    rw [← wellFormed_shape_iff, ← hshape, wellFormed_shape_iff]
    rw [WrittenAs, ← kinds_shape rule, ← hshape, kinds_shape]
    exact ⟨hformed, hwritten⟩
  · rintro ⟨hformed, hwritten⟩
    exact exists_ofLexemes_of_writtenAs source hformed hwritten
  · intro rule other hrule hkinds hother hsame
    -- Both are what the parser reads, and it reads one rule only.
    obtain ⟨read, hread, hshape⟩ := exists_ofLexemes_of_writtenAs source hrule hkinds
    obtain ⟨again, hagain, hsecond⟩ := exists_ofLexemes_of_writtenAs source hother hsame
    obtain rfl := Except.ok.inj (hread.symm.trans hagain)
    exact hshape.symm.trans hsecond

end Rule

namespace GrammarWitness

/-- A negated clause with the command `not`, and a clause with this command. -/
def source : Text :=
  "h(A):-not not(A,B);not(A).".toList

def lexemes : List Lexeme :=
  [⟨.word "h".toList, 0, 1⟩, ⟨.openParen, 1, 2⟩, ⟨.word "A".toList, 2, 3⟩,
    ⟨.closeParen, 3, 4⟩, ⟨.neck, 4, 6⟩, ⟨.word "not".toList, 6, 9⟩,
    ⟨.word "not".toList, 10, 13⟩, ⟨.openParen, 13, 14⟩, ⟨.word "A".toList, 14, 15⟩,
    ⟨.comma, 15, 16⟩, ⟨.word "B".toList, 16, 17⟩, ⟨.closeParen, 17, 18⟩,
    ⟨.semicolon, 18, 19⟩, ⟨.word "not".toList, 19, 22⟩, ⟨.openParen, 22, 23⟩,
    ⟨.word "A".toList, 23, 24⟩, ⟨.closeParen, 24, 25⟩, ⟨.period, 25, 26⟩]

def rule : Rule :=
  ⟨"h".toList, "A".toList,
    [⟨[], true, true, "not".toList, ["A".toList, "B".toList]⟩,
      ⟨[], false, false, "not".toList, ["A".toList]⟩]⟩

theorem exists_ofLexemes_iff_writtenAs_not :
    Lexeme.ofText ":-".toList source = .ok lexemes ∧ rule.WellFormed ∧
      rule.WrittenAs (lexemes.map Lexeme.kind) ∧
      ∃ read, Rule.ofLexemes source lexemes = .ok read ∧ read.shape = rule.shape ∧
        ∀ clause ∈ read.clauses, clause.text ≠ [] ∧
          ∃ first ∈ lexemes, ∃ last ∈ lexemes,
            Text.slice? source first.start last.stop = some clause.text := by
  have hlexemes : Lexeme.ofText ":-".toList source = .ok lexemes := by decide +kernel
  have hformed : rule.WellFormed := ⟨by decide, _, rfl, rfl⟩
  have hwritten : rule.WrittenAs (lexemes.map Lexeme.kind) := .inr (by decide)
  have h := Rule.exists_ofLexemes_iff_writtenAs hlexemes
  obtain ⟨read, hread, hshape⟩ := (h.1 rule).2 ⟨hformed, hwritten⟩
  exact ⟨hlexemes, hformed, hwritten, read, hread, hshape, h.2.1 read hread⟩

end GrammarWitness

end GradingRule
