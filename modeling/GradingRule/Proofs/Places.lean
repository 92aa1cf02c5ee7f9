/-
Rules without their places.  Where the lexemes of a rule stand decides only where a
fault is said to be, so lexemes of the same kinds have the same meaning.
-/
import GradingRule.Proofs.Decoding
import GradingRule.Proofs.Viability

namespace GradingRule

/-- The fault without the place and without the part of the rule that it names. -/
def RuleFault.unplaced : RuleFault → RuleFault
  | .missingHead expected => .missingHead expected
  | .emptyBody => .emptyBody
  | .unexpectedChar found _ => .unexpectedChar found 0
  | .unexpected _ expected found => .unexpected 0 expected found
  | .unknownCommand _ command => .unknownCommand [] command
  | .arguments _ cause => .arguments [] cause
  | .reference _ letter cause => .reference [] letter cause
  | .operator _ cause => .operator [] cause

theorem RuleFault.unplaced_at (source : Text) (expected : Expectation)
    (lexemes : List Lexeme) :
    (RuleFault.at source expected lexemes).unplaced =
      .unexpected 0 expected (lexemes.head?.map Lexeme.kind) := by
  cases lexemes with
  | nil => rfl
  | cons lexeme rest => rfl

/-! A clause without its text raises the fault without its place. -/

namespace Clause

theorem payload_shape (dialect : Dialect) (clause : Clause) :
    clause.shape.payload dialect = (clause.payload dialect).mapError RuleFault.unplaced := by
  rw [payload.eq_def, payload.eq_def, shape]
  cases clause.arguments with
  | nil => rfl
  | cons var rest =>
      dsimp only
      split <;> rfl

theorem operator_shape (isFirst : Bool) (clause : Clause) :
    clause.shape.operator isFirst = (clause.operator isFirst).mapError RuleFault.unplaced := by
  rw [operator.eq_def, operator.eq_def, shape]
  dsimp only
  split <;> rfl

theorem primaryBody_shape (clause : Clause) (form : Form) (payload : List Text) :
    clause.shape.primaryBody form payload =
      (clause.primaryBody form payload).mapError RuleFault.unplaced := by
  rw [primaryBody.eq_def, primaryBody.eq_def]
  split
  · split <;> rfl
  · rfl

theorem pairBody_shape (sequence : Sequence) (clause : Clause) (relation : Relation)
    (payload : List Text) :
    clause.shape.pairBody sequence relation payload =
      (clause.pairBody sequence relation payload).mapError RuleFault.unplaced := by
  rw [pairBody.eq_def, pairBody.eq_def]
  split
  · split
    · rfl
    · split
      · rfl
      · split <;> rfl
  · rfl

theorem decode_shape (dialect : Dialect) (sequence : Sequence) (clause : Clause) :
    clause.shape.decode dialect sequence =
      (clause.decode dialect sequence).mapError RuleFault.unplaced := by
  have hcommand : clause.shape.command = clause.command := rfl
  rw [decode.eq_def, decode.eq_def, hcommand]
  cases TermKind.ofCommand? clause.command with
  | none => rfl
  | some kind =>
      dsimp only
      rw [mapError_bind, payload_shape]
      refine bind_congr fun payload => ?_
      rw [mapError_bind, operator_shape]
      refine bind_congr fun operator => ?_
      cases kind with
      | primary form =>
          dsimp only
          rw [mapError_bind, primaryBody_shape]
          rfl
      | pair relation =>
          dsimp only
          split
          · rw [mapError_bind, pairBody_shape]
            rfl
          · rfl

end Clause

namespace Rule

theorem decodeFrom_map_shape (dialect : Dialect) (sequence : Sequence) (clauses : List Clause) :
    decodeFrom dialect sequence (clauses.map Clause.shape) =
      (decodeFrom dialect sequence clauses).mapError RuleFault.unplaced := by
  induction clauses generalizing sequence with
  | nil => rfl
  | cons clause rest ih =>
      rw [List.map_cons, decodeFrom, decodeFrom, Clause.decode_shape]
      cases clause.decode dialect sequence with
      | error fault => rfl
      | ok added => exact ih _

theorem decode_shape (dialect : Dialect) (rule : Rule) :
    rule.shape.decode dialect = (rule.decode dialect).mapError RuleFault.unplaced :=
  decodeFrom_map_shape dialect .empty rule.clauses

end Rule

/-- Lexemes of the same kinds make the parser stop at the same one of them. -/
theorem Lexeme.Stuck.exists_of_map_kind_eq {source other : Text} {stage : Stage}
    {lexemes others : List Lexeme} {fault : RuleFault}
    (h : Stuck source stage lexemes fault)
    (hkinds : lexemes.map Lexeme.kind = others.map Lexeme.kind) :
    ∃ raised, Stuck other stage others raised ∧ raised.unplaced = fault.unplaced := by
  induction h generalizing others with
  | @here stage lexemes hrefuses =>
      have hhead : lexemes.head?.map Lexeme.kind = others.head?.map Lexeme.kind := by
        rw [← List.head?_map, hkinds, List.head?_map]
      refine ⟨.at other stage.expected others, .here (hhead ▸ hrefuses), ?_⟩
      rw [RuleFault.unplaced_at, RuleFault.unplaced_at, hhead]
  | @later stage next lexeme lexemes fault hnext _ ih =>
      obtain ⟨start, stop, rest, rfl, hrest⟩ := exists_eq_cons_of_map_kind hkinds.symm
      obtain ⟨raised, hraised, hunplaced⟩ := ih hrest.symm
      exact ⟨raised, .later hnext hraised, hunplaced⟩

namespace Rule

/-- Lexemes of the same kinds are read as the same rule, or the same is wrong with
them. -/
theorem ofLexemes_of_map_kind_eq (source other : Text) {lexemes others : List Lexeme}
    (hkinds : lexemes.map Lexeme.kind = others.map Lexeme.kind) :
    (∃ rule same, ofLexemes source lexemes = .ok rule ∧ ofLexemes other others = .ok same ∧
        rule.shape = same.shape) ∨
      ∃ fault raised, ofLexemes source lexemes = .error fault ∧
        ofLexemes other others = .error raised ∧ fault.unplaced = raised.unplaced := by
  cases hrule : ofLexemes source lexemes with
  | ok rule =>
      obtain ⟨hformed, hwritten⟩ := writtenAs_of_ofLexemes hrule
      obtain ⟨same, hsame, hshape⟩ :=
        exists_ofLexemes_of_writtenAs other hformed (hkinds ▸ hwritten)
      exact .inl ⟨rule, same, rfl, hsame, hshape.symm⟩
  | error fault =>
      by_cases hbody : Bodiless (lexemes.map Lexeme.kind)
      · rw [ofLexemes_of_bodiless source hbody] at hrule
        obtain rfl := Except.error.inj hrule
        exact .inr ⟨_, _, rfl, ofLexemes_of_bodiless other (hkinds ▸ hbody), rfl⟩
      · obtain ⟨raised, hraised, hunplaced⟩ :=
          (stuck_of_ofLexemes hbody hrule).exists_of_map_kind_eq hkinds
        exact .inr ⟨fault, raised, rfl,
          (ofLexemes_eq_error_iff_stuck (hkinds ▸ hbody)).2 hraised, hunplaced.symm⟩

end Rule

/-- Texts with lexemes of the same kinds have the same meaning, or the same is wrong
with them. -/
theorem Dialect.decode_unplaced_of_map_kind_eq {dialect : Dialect} {text other : Text}
    {lexemes others : List Lexeme} (hlexemes : Lexeme.ofText dialect.neck text = .ok lexemes)
    (hothers : Lexeme.ofText dialect.neck other = .ok others)
    (hkinds : lexemes.map Lexeme.kind = others.map Lexeme.kind)
    (hempty : dialect.isEmptyRule text = dialect.isEmptyRule other) :
    (dialect.decode text).mapError RuleFault.unplaced =
      (dialect.decode other).mapError RuleFault.unplaced := by
  rw [decode, decode, hempty]
  split
  · rfl
  · rw [parse, parse, Rule.ofText, Rule.ofText, hlexemes, hothers]
    rcases Rule.ofLexemes_of_map_kind_eq text other hkinds with
      ⟨rule, same, hrule, hsame, hshape⟩ | ⟨fault, raised, hfault, hraised, hunplaced⟩
    · obtain ⟨hhead, hvar, -⟩ := Rule.mk.inj hshape
      simp only [bind, Except.bind, hrule, hsame, hhead, hvar]
      split_ifs with hopening
      · calc (rule.decode dialect).mapError RuleFault.unplaced
            = rule.shape.decode dialect := (rule.decode_shape dialect).symm
          _ = same.shape.decode dialect := by rw [hshape]
          _ = (same.decode dialect).mapError RuleFault.unplaced := same.decode_shape dialect
      · rfl
    · simp only [bind, Except.bind, hfault, hraised, Except.mapError, hunplaced]

end GradingRule
