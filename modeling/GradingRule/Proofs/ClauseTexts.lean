/-
The texts of clauses.  Every clause of a rule is read from a run of lexemes, its text is
what the run takes up of the source, and read alone this text has the same lexemes again.
-/
import GradingRule.Proofs.Fronts
import GradingRule.Proofs.Grammar
import GradingRule.Proofs.Spacing

namespace GradingRule

namespace Lexeme

/-- The text of the first lexeme starts behind some blanks. -/
theorem Lexes.exists_start {neck : Text} {offset : Nat} {text : Text} {first : Lexeme}
    {rest : List Lexeme} (h : Lexes neck offset text (first :: rest)) :
    ∃ blanks part, text = blanks ++ part ∧ first.start = offset + Text.byteSize blanks ∧
      Lexes neck first.start part (first :: rest) := by
  generalize hall : first :: rest = lexemes at h
  induction h with
  | nil => exact absurd hall (by simp)
  | @blank offset c text lexemes hblank htext ih =>
      obtain ⟨blanks, part, rfl, hstart, hpart⟩ := ih hall
      exact ⟨c :: blanks, part, rfl, by rw [hstart, Text.byteSize_cons, Nat.add_assoc], hpart⟩
  | lexeme hblank hspelled hafter _ =>
      obtain ⟨rfl, rfl⟩ := List.cons.inj hall
      exact ⟨[], _, rfl, rfl, .lexeme hblank hspelled hafter⟩

/-- Where a text starts plays no role for its lexemes. -/
theorem Lexes.exists_movedBy {neck : Text} {offset bytes : Nat} {text : Text}
    {lexemes : List Lexeme} (h : Lexes neck (offset + bytes) text lexemes) :
    ∃ own, Lexes neck offset text own ∧ own.map (Lexeme.movedBy bytes) = lexemes := by
  generalize hstart : offset + bytes = start at h
  induction h generalizing offset with
  | nil => exact ⟨[], .nil, rfl⟩
  | @blank start c text lexemes hblank _ ih =>
      obtain ⟨own, hown, hmoved⟩ := ih (by rw [← hstart, Nat.add_right_comm])
      exact ⟨own, .blank hblank hown, hmoved⟩
  | @lexeme start kind c tail after lexemes hblank hspelled _ ih =>
      obtain ⟨own, hown, hmoved⟩ := ih (by rw [← hstart, Nat.add_right_comm])
      refine ⟨_, .lexeme hblank hspelled hown, ?_⟩
      rw [List.map_cons, hmoved, Lexeme.movedBy, ← hstart, Nat.add_right_comm]

/-- A run of lexemes without a period takes up a part of the text that has just these
lexemes, whatever the text around it is. -/
theorem Lexes.exists_part {neck text : Text} {lexemes run : List Lexeme}
    (h : Lexes neck 0 text lexemes) (hrun : run <:+: lexemes) (hne : run ≠ [])
    (hperiod : ∀ lexeme ∈ run, lexeme.kind ≠ .period) :
    ∃ before part after, text = before ++ (part ++ after) ∧ part ≠ [] ∧
      startOf text run = Text.byteSize before ∧
      endOf 0 run = Text.byteSize before + Text.byteSize part ∧
      Lexes neck (Text.byteSize before) part run := by
  obtain ⟨front, rest, rfl⟩ := hrun
  rw [List.append_assoc] at h
  obtain ⟨before, text, rfl, -, hfront, htext⟩ := h.exists_reads
  obtain ⟨first, others, rfl⟩ := List.exists_cons_of_ne_nil hne
  rw [List.cons_append] at htext
  obtain ⟨blanks, text, rfl, hstart, hfirst⟩ := htext.exists_start
  rw [← List.cons_append] at hfirst
  obtain ⟨part, after, rfl, hreads, hend, -⟩ := hfirst.exists_reads
  have hpart := hreads.lexes fun _ => hperiod
  rw [hfront, Nat.zero_add, ← Text.byteSize_append] at hstart
  refine ⟨before ++ blanks, part, after, by simp, ?_, hstart, hstart ▸ hend, hstart ▸ hpart⟩
  rintro rfl
  nomatch hpart

/-- The run of lexemes that a clause was read from. -/
structure ReadFrom (source : Text) (lexemes : List Lexeme) (clause : Clause)
    (run : List Lexeme) : Prop where
  among : run <:+: lexemes
  kinds : run.map Lexeme.kind = clause.kinds
  text : clause.text = (Text.slice? source (startOf source run) (endOf 0 run)).getD []

theorem ReadFrom.mono {source : Text} {lexemes more run : List Lexeme} {clause : Clause}
    (h : ReadFrom source lexemes clause run) (hamong : lexemes <:+: more) :
    ReadFrom source more clause run :=
  ⟨h.among.trans hamong, h.kinds, h.text⟩

theorem exists_readFrom_of_takeClause {source : Text} {lexemes rest : List Lexeme}
    {clause : Clause} (h : takeClause source lexemes = .ok (clause, rest)) :
    ∃ run, ReadFrom source lexemes clause run ∧ lexemes = run ++ rest := by
  obtain ⟨-, first, middle, close, rfl, hkinds, htext⟩ := eq_append_of_takeClause h
  have hsplit : first :: (middle ++ close :: rest) = first :: (middle ++ [close]) ++ rest := by
    simp
  refine ⟨first :: (middle ++ [close]), ⟨⟨[], rest, hsplit.symm⟩, hkinds, ?_⟩, hsplit⟩
  rw [htext, ← List.cons_append, endOf_append_singleton]
  rfl

/-- The clauses of a body are read from runs that follow one after the other. -/
theorem exists_runs_of_takeClauses {source : Text} {lexemes rest : List Lexeme}
    {clauses : List Clause} (h : takeClauses source lexemes = .ok (clauses, rest)) :
    ∃ runs : List (List Lexeme), List.Forall₂ (ReadFrom source lexemes) clauses runs ∧
      runs.flatten.Sublist lexemes := by
  refine takeClausesInduction
    (motive := fun lexemes clauses _ => ∃ runs : List (List Lexeme),
      List.Forall₂ (ReadFrom source lexemes) clauses runs ∧ runs.flatten.Sublist lexemes)
    ?_ ?_ h
  · intro lexemes clause rest hclause
    obtain ⟨run, hrun, rfl⟩ := exists_readFrom_of_takeClause hclause
    exact ⟨[run], .cons hrun .nil, by simp⟩
  · intro lexemes clause marked separator next clauses rest hclause hmarked _ ⟨runs, hruns, hnext⟩
    obtain ⟨run, hrun, rfl⟩ := exists_readFrom_of_takeClause hclause
    have hsuffix : next <:+ run ++ separator :: next := ⟨run ++ [separator], by simp⟩
    refine ⟨run :: runs, .cons ?_ (hruns.imp fun _ _ h => h.mono hsuffix.isInfix), ?_⟩
    · rw [hmarked]
      exact ⟨hrun.among, hrun.kinds, hrun.text⟩
    · rw [List.flatten_cons]
      exact (hnext.cons separator).append_left run

theorem endOf_le_startOf {source : Text} {run next : List Lexeme}
    (hrun : ∀ lexeme ∈ run, lexeme.stop ≤ Text.byteSize source)
    (h : ∀ lexeme ∈ run, ∀ later ∈ next, lexeme.stop ≤ later.start) :
    endOf 0 run ≤ startOf source next := by
  rcases List.eq_nil_or_concat run with rfl | ⟨front, last, rfl⟩
  · exact Nat.zero_le _
  · rw [List.concat_eq_append] at hrun h ⊢
    rw [endOf_append_singleton]
    cases next with
    | nil => exact hrun last (by simp)
    | cons first others => exact h last (by simp) first List.mem_cons_self

theorem period_notMem_argumentKinds (arguments : List Text) :
    Kind.period ∉ argumentKinds arguments := by
  fun_induction argumentKinds arguments with
  | case1 => simp
  | case2 argument => simp
  | case3 argument rest _ ih => simpa using ih

theorem period_notMem_kinds (clause : Clause) : Kind.period ∉ clause.kinds := by
  rw [Clause.kinds]
  cases clause.negated with
  | true => simp [period_notMem_argumentKinds]
  | false => simp [period_notMem_argumentKinds]

end Lexeme

open Lexeme in
/-- The clause has the kinds of the run, and its text is all that the run takes up of the
source.  Read alone, the text has the lexemes of the run, moved to its beginning. -/
structure Clause.CutFrom (neck source : Text) (clause : Clause) (run : List Lexeme) :
    Prop where
  kinds : run.map Lexeme.kind = clause.kinds
  start : source.Boundary (startOf source run)
  stop : source.Boundary (endOf 0 run)
  start_lt_stop : startOf source run < endOf 0 run
  stop_le : endOf 0 run ≤ Text.byteSize source
  text : Text.slice? source (startOf source run) (endOf 0 run) = some clause.text
  alone : ∃ own, Lexeme.ofText neck clause.text = .ok own ∧
    own.map Lexeme.kind = clause.kinds ∧ own.map (movedBy (startOf source run)) = run

open Lexeme in
theorem Clause.cutFrom_of_readFrom {neck source : Text} {lexemes run : List Lexeme}
    {clause : Clause} (hlexemes : Lexes neck 0 source lexemes)
    (h : ReadFrom source lexemes clause run) : clause.CutFrom neck source run := by
  have hne : run ≠ [] := by
    rintro rfl
    exact absurd h.kinds.symm (by simp [Clause.kinds])
  have hperiod : ∀ lexeme ∈ run, lexeme.kind ≠ .period := by
    intro lexeme hlexeme hkind
    refine period_notMem_kinds clause ?_
    rw [← h.kinds, ← hkind]
    exact List.mem_map_of_mem hlexeme
  obtain ⟨before, part, after, hsource, hpart, hstart, hend, hrun⟩ :=
    hlexemes.exists_part h.among hne hperiod
  have hslice : Text.slice? source (startOf source run) (endOf 0 run) = some part := by
    rw [hstart, hend, hsource, Text.slice?_append]
  have htext : clause.text = part := by rw [h.text, hslice, Option.getD_some]
  have hstop : source.Boundary (endOf 0 run) :=
    ⟨before ++ part, after, by rw [hsource, List.append_assoc],
      by rw [hend, Text.byteSize_append]⟩
  have hpos : 0 < Text.byteSize part := by
    obtain ⟨c, rest, rfl⟩ := List.exists_cons_of_ne_nil hpart
    rw [Text.byteSize_cons]
    exact Nat.add_pos_left c.utf8Size_pos _
  rw [← Nat.zero_add (Text.byteSize before)] at hrun
  obtain ⟨own, hown, hmoved⟩ := hrun.exists_movedBy
  refine ⟨h.kinds, ⟨before, _, hsource, hstart.symm⟩, hstop, by omega, hstop.le_byteSize,
    by rw [hslice, htext], own, ?_, ?_, by rw [hstart, hmoved]⟩
  · rw [htext]
    exact scanFrom_eq_ok_iff_lexes.2 hown
  · rw [← h.kinds, ← hmoved, List.map_map]
    rfl

namespace Rule

open Lexeme in
/-- The texts of the clauses of a rule are cut out of its source one after the other,
between characters and without overlap, and each of them is read alone as it is read in
the rule. -/
theorem clause_texts_self_contained {neck source : Text} {lexemes : List Lexeme} {rule : Rule}
    (hlexemes : Lexeme.ofText neck source = .ok lexemes)
    (hrule : ofLexemes source lexemes = .ok rule) :
    ∃ runs : List (List Lexeme),
      List.Forall₂ (Clause.CutFrom neck source) rule.clauses runs ∧
      runs.flatten.Sublist lexemes ∧
      runs.Pairwise fun run next => endOf 0 run ≤ startOf source next := by
  have hlexes := scanFrom_eq_ok_iff_lexes.1 hlexemes
  obtain ⟨opening, body, rest, rfl, -, hclauses, -⟩ := exists_takeClauses_of_ofLexemes hrule
  obtain ⟨runs, hruns, hsublist⟩ := exists_runs_of_takeClauses hclauses
  have hbody : body <:+: opening ++ body := (List.suffix_append opening body).isInfix
  have hcut := hruns.imp fun _ _ h => Clause.cutFrom_of_readFrom hlexes (h.mono hbody)
  have hall := hsublist.trans (List.sublist_append_right opening body)
  have hordered := (List.pairwise_flatten.1 (hlexes.ordered.sublist hall)).2
  refine ⟨runs, hcut, hall, hordered.imp_of_mem fun hrun _ hle => ?_⟩
  refine endOf_le_startOf (fun lexeme hlexeme => ?_) hle
  have hmem := hall.subset (List.mem_flatten_of_mem hrun hlexeme)
  exact (hlexes.placed lexeme hmem).stop.le_byteSize

end Rule

namespace ClauseTextsWitness

def neck : Text :=
  "-),".toList

/-- The neck in quotes, and a word that the neck would end if the clause were followed by
a comma at once. -/
def source : Text :=
  "h(A)-),not é('-),' ,b-) ;\n t(A,a'b').".toList

def lexemes : List Lexeme :=
  [⟨.word "h".toList, 0, 1⟩, ⟨.openParen, 1, 2⟩, ⟨.word "A".toList, 2, 3⟩,
    ⟨.closeParen, 3, 4⟩, ⟨.neck, 4, 7⟩, ⟨.word "not".toList, 7, 10⟩,
    ⟨.word "é".toList, 11, 13⟩, ⟨.openParen, 13, 14⟩, ⟨.word "-),".toList, 14, 19⟩,
    ⟨.comma, 20, 21⟩, ⟨.word "b-".toList, 21, 23⟩, ⟨.closeParen, 23, 24⟩,
    ⟨.semicolon, 25, 26⟩, ⟨.word "t".toList, 28, 29⟩, ⟨.openParen, 29, 30⟩,
    ⟨.word "A".toList, 30, 31⟩, ⟨.comma, 31, 32⟩, ⟨.word "a'b'".toList, 32, 36⟩,
    ⟨.closeParen, 36, 37⟩, ⟨.period, 37, 38⟩]

def rule : Rule :=
  ⟨"h".toList, "A".toList,
    [⟨"not é('-),' ,b-)".toList, true, true, "é".toList, ["-),".toList, "b-".toList]⟩,
      ⟨"t(A,a'b')".toList, false, false, "t".toList, ["A".toList, "a'b'".toList]⟩]⟩

theorem clause_texts_self_contained_neck :
    Lexeme.ofText neck source = .ok lexemes ∧ Rule.ofLexemes source lexemes = .ok rule ∧
      ∃ runs : List (List Lexeme),
        List.Forall₂ (Clause.CutFrom neck source) rule.clauses runs ∧
        runs.flatten.Sublist lexemes ∧
        runs.Pairwise fun run next => Lexeme.endOf 0 run ≤ Lexeme.startOf source next := by
  have hlexemes : Lexeme.ofText neck source = .ok lexemes := by decide +kernel
  have hrule : Rule.ofLexemes source lexemes = .ok rule := by decide +kernel
  exact ⟨hlexemes, hrule, Rule.clause_texts_self_contained hlexemes hrule⟩

end ClauseTextsWitness

end GradingRule
