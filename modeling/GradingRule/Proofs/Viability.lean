/-
Where a rule goes wrong.  A stage says what has been read of a rule, and so what may
come next.  Every stage leads on to the end of some rule, so some kinds begin a rule
exactly if the stages lead through all of them; the parser stops at the first lexeme
where they do not.
-/
import GradingRule.Proofs.Grammar

namespace GradingRule

/-- What has been read of a rule.  After a separator another clause has to come, as
after the neck. -/
inductive Stage where
  | start
  | head
  | opened
  | responseVar
  | closed
  | body
  | negation
  | command
  | arguments
  | argument
  | clause
  | period
deriving DecidableEq, Repr

namespace Stage

/-- What a lexeme makes of a stage; `none` if it may not come there.  A negation can
still turn out to be a command. -/
def next? : Stage → Lexeme.Kind → Option Stage
  | .start, .word _ => some .head
  | .head, .openParen => some .opened
  | .opened, .word _ => some .responseVar
  | .responseVar, .closeParen => some .closed
  | .closed, .neck => some .body
  | .body, .word word => some (if word = negationWord then .negation else .command)
  | .negation, .word _ => some .command
  | .negation, .openParen => some .arguments
  | .command, .openParen => some .arguments
  | .arguments, .word _ => some .argument
  | .argument, .comma => some .arguments
  | .argument, .closeParen => some .clause
  | .clause, .comma => some .body
  | .clause, .semicolon => some .body
  | .clause, .period => some .period
  | _, _ => none

/-- The stage after all the kinds. -/
def after? (stage : Stage) (kinds : List Lexeme.Kind) : Option Stage :=
  kinds.foldlM next? stage

/-- A rule can end here. -/
def IsComplete (stage : Stage) : Prop :=
  stage = .clause ∨ stage = .period

/-- What a fault at this stage says was missing. -/
def expected : Stage → Expectation
  | .start => .ruleHead
  | .head => .openParen
  | .opened => .responseVar
  | .responseVar => .closeParen
  | .closed => .neck
  | .body => .commandName
  | .negation => .openParen
  | .command => .openParen
  | .arguments => .argument
  | .argument => .closeParen
  | .clause => .continuation
  | .period => .continuation

/-- Neither this kind nor, if there is none, the end of the rule may come here. -/
def Refuses (stage : Stage) : Option Lexeme.Kind → Prop
  | none => ¬stage.IsComplete
  | some kind => stage.next? kind = none

@[simp] theorem after?_nil (stage : Stage) : stage.after? [] = some stage := rfl

@[simp] theorem after?_cons (stage : Stage) (kind : Lexeme.Kind) (kinds : List Lexeme.Kind) :
    stage.after? (kind :: kinds) = (stage.next? kind).bind fun next => next.after? kinds :=
  rfl

@[simp] theorem after?_append (stage : Stage) (front back : List Lexeme.Kind) :
    stage.after? (front ++ back) = (stage.after? front).bind fun next => next.after? back :=
  List.foldlM_append

/-- Some kinds lead from here to the end of a rule. -/
def CanEnd (stage : Stage) : Prop :=
  ∃ kinds last, stage.after? kinds = some last ∧ last.IsComplete

theorem CanEnd.before {next : Stage} (h : next.CanEnd) {stage : Stage} (kind : Lexeme.Kind)
    (hkind : stage.next? kind = some next) : stage.CanEnd := by
  obtain ⟨kinds, last, hkinds, hlast⟩ := h
  exact ⟨kind :: kinds, last, by rw [after?_cons, hkind, Option.bind_some, hkinds], hlast⟩

/-- No stage is a dead end. -/
theorem canEnd (stage : Stage) : stage.CanEnd := by
  have hclause : CanEnd .clause := ⟨[], .clause, rfl, .inl rfl⟩
  have hargument : CanEnd .argument := hclause.before .closeParen rfl
  have harguments : CanEnd .arguments := hargument.before (.word []) rfl
  have hcommand : CanEnd .command := harguments.before .openParen rfl
  have hbody : CanEnd .body := hcommand.before (.word []) rfl
  have hclosed : CanEnd .closed := hbody.before .neck rfl
  have hvar : CanEnd .responseVar := hclosed.before .closeParen rfl
  have hopened : CanEnd .opened := hvar.before (.word []) rfl
  have hhead : CanEnd .head := hopened.before .openParen rfl
  cases stage with
  | start => exact hhead.before (.word []) rfl
  | head => exact hhead
  | opened => exact hopened
  | responseVar => exact hvar
  | closed => exact hclosed
  | body => exact hbody
  | negation => exact harguments.before .openParen rfl
  | command => exact hcommand
  | arguments => exact harguments
  | argument => exact hargument
  | clause => exact hclause
  | period => exact ⟨[], .period, rfl, .inr rfl⟩

/-- Nothing but this kind may come. -/
def Awaits (stage : Stage) (kind : Lexeme.Kind) : Prop :=
  ∀ coming, coming ≠ some kind → stage.Refuses coming

/-- Nothing but a word may come. -/
def AwaitsWord (stage : Stage) : Prop :=
  ∀ coming, (∀ word, coming ≠ some (.word word)) → stage.Refuses coming

theorem awaits_of_mem {stage : Stage} {kind : Lexeme.Kind}
    (h : (stage, kind) ∈ [(.head, .openParen), (.responseVar, .closeParen), (.closed, .neck),
      (.command, .openParen)]) : stage.Awaits kind := by
  simp only [List.mem_cons, Prod.mk.injEq, List.not_mem_nil, or_false] at h
  rintro (_ | coming) hcoming
  · rcases h with ⟨rfl, -⟩ | ⟨rfl, -⟩ | ⟨rfl, -⟩ | ⟨rfl, -⟩ <;> simp [Refuses, IsComplete]
  · rcases h with ⟨rfl, rfl⟩ | ⟨rfl, rfl⟩ | ⟨rfl, rfl⟩ | ⟨rfl, rfl⟩ <;>
      cases coming <;> simp_all [Refuses, next?]

theorem awaitsWord_of_mem {stage : Stage}
    (h : stage ∈ [.start, .opened, .body, .arguments]) : stage.AwaitsWord := by
  simp only [List.mem_cons, List.not_mem_nil, or_false] at h
  rintro (_ | coming) hcoming
  · rcases h with rfl | rfl | rfl | rfl <;> simp [Refuses, IsComplete]
  · rcases h with rfl | rfl | rfl | rfl <;> cases coming <;> simp_all [Refuses, next?]

/-! A rule of the grammar leads through the stages to its end. -/

theorem after?_argumentKinds {words : List Text} (h : words ≠ []) :
    Stage.arguments.after? (argumentKinds words ++ [.closeParen]) = some .clause := by
  induction words with
  | nil => exact absurd rfl h
  | cons word others ih =>
      cases others with
      | nil => rfl
      | cons next others => exact ih (by simp)

theorem after?_kinds {clause : Clause} (h : clause.arguments ≠ []) :
    Stage.body.after? clause.kinds = some .clause := by
  have harguments := after?_argumentKinds h
  cases hnegated : clause.negated with
  | true => simpa [Clause.kinds, hnegated, next?] using harguments
  | false =>
      by_cases hcommand : clause.command = negationWord
      · simpa [Clause.kinds, hnegated, next?, hcommand] using harguments
      · simpa [Clause.kinds, hnegated, next?, hcommand] using harguments

theorem next?_separator (clause : Clause) :
    Stage.clause.next? clause.separator = some .body := by
  rw [Clause.separator]
  split <;> rfl

theorem after?_bodyKinds {clauses : List Clause} (hne : clauses ≠ [])
    (h : ∀ clause ∈ clauses, clause.arguments ≠ []) :
    Stage.body.after? (bodyKinds clauses) = some .clause := by
  induction clauses with
  | nil => exact absurd rfl hne
  | cons clause others ih =>
      obtain ⟨hclause, hothers⟩ := List.forall_mem_cons.1 h
      cases others with
      | nil => exact after?_kinds hclause
      | cons next others =>
          rw [bodyKinds_cons (by simp), after?_append, after?_kinds hclause, Option.bind_some,
            after?_cons, next?_separator, Option.bind_some, ih (by simp) hothers]

end Stage

theorem Rule.WellFormed.exists_after? {rule : Rule} (h : rule.WellFormed)
    {kinds : List Lexeme.Kind} (hkinds : rule.WrittenAs kinds) :
    ∃ last, Stage.start.after? kinds = some last ∧ last.IsComplete := by
  have hrule : Stage.start.after? rule.kinds = some .clause :=
    Stage.after?_bodyKinds h.ended.ne_nil h.arguments_ne
  rcases hkinds with rfl | rfl
  · exact ⟨.clause, hrule, .inl rfl⟩
  · exact ⟨.period, by rw [Stage.after?_append, hrule]; rfl, .inr rfl⟩

namespace Lexeme

/-- The fault is at the first lexeme that may not come, or at the end. -/
inductive Stuck (source : Text) : Stage → List Lexeme → RuleFault → Prop
  | here {stage : Stage} {lexemes : List Lexeme} :
      stage.Refuses (lexemes.head?.map Lexeme.kind) →
      Stuck source stage lexemes (.at source stage.expected lexemes)
  | later {stage next : Stage} {lexeme : Lexeme} {lexemes : List Lexeme} {fault : RuleFault} :
      stage.next? lexeme.kind = some next → Stuck source next lexemes fault →
      Stuck source stage (lexeme :: lexemes) fault

theorem Stuck.append {source : Text} {next : Stage} {lexemes : List Lexeme}
    {fault : RuleFault} (h : Stuck source next lexemes fault) {stage : Stage}
    {front : List Lexeme} (hfront : stage.after? (front.map Lexeme.kind) = some next) :
    Stuck source stage (front ++ lexemes) fault := by
  induction front generalizing stage with
  | nil =>
      obtain rfl := Option.some.inj hfront
      exact h
  | cons lexeme front ih =>
      obtain ⟨second, hsecond, hfront⟩ := Option.bind_eq_some_iff.1 hfront
      exact .later hsecond (ih hfront)

/-! Each reader of the parser stops where the stages do. -/

theorem takeKind_eq_error_iff {source : Text} {kind : Kind} {expected : Expectation}
    {lexemes : List Lexeme} {fault : RuleFault} :
    takeKind source kind expected lexemes = .error fault ↔
      lexemes.head?.map Lexeme.kind ≠ some kind ∧ fault = .at source expected lexemes := by
  cases lexemes with
  | nil => simp [takeKind, eq_comm]
  | cons lexeme rest =>
      by_cases hkind : lexeme.kind = kind
      · simp [takeKind, hkind]
      · simp [takeKind, hkind, @eq_comm _ fault]

theorem takeWord_eq_error_iff {source : Text} {expected : Expectation}
    {lexemes : List Lexeme} {fault : RuleFault} :
    takeWord source expected lexemes = .error fault ↔
      (∀ word, lexemes.head?.map Lexeme.kind ≠ some (.word word)) ∧
        fault = .at source expected lexemes := by
  rcases lexemes with _ | ⟨⟨kind, start, stop⟩, rest⟩
  · simp [takeWord, eq_comm]
  · cases kind with
    | word text => simp [takeWord]
    | _ => simp [takeWord, eq_comm]

theorem stuck_of_takeKind {source : Text} {stage : Stage} {kind : Kind}
    (hstage : stage.Awaits kind) {lexemes : List Lexeme} {fault : RuleFault}
    (h : takeKind source kind stage.expected lexemes = .error fault) :
    Stuck source stage lexemes fault := by
  obtain ⟨hcoming, rfl⟩ := takeKind_eq_error_iff.1 h
  exact .here (hstage _ hcoming)

theorem stuck_of_takeWord {source : Text} {stage : Stage} (hstage : stage.AwaitsWord)
    {lexemes : List Lexeme} {fault : RuleFault}
    (h : takeWord source stage.expected lexemes = .error fault) :
    Stuck source stage lexemes fault := by
  obtain ⟨hcoming, rfl⟩ := takeWord_eq_error_iff.1 h
  exact .here (hstage _ hcoming)

theorem stuck_of_takeArguments {source : Text} {lexemes : List Lexeme} {fault : RuleFault}
    (h : takeArguments source lexemes = .error fault) :
    Stuck source .arguments lexemes fault := by
  fun_induction takeArguments source lexemes with
  | case1 argument _ _ _ _ after ih =>
      rcases bind_eq_error_iff.1 h with hafter | ⟨_, -, hpure⟩
      · exact .later rfl (.later rfl (ih hafter))
      · exact absurd hpure (by simp [pure, Except.pure])
  | case2 argument _ _ after hcomma =>
      rcases bind_eq_error_iff.1 h with hclose | ⟨_, -, hpure⟩
      · obtain ⟨hcoming, rfl⟩ := takeKind_eq_error_iff.1 hclose
        refine .later rfl ?_
        refine .here ?_
        rcases after with _ | ⟨⟨kind, start, stop⟩, rest⟩
        · simp [Stage.Refuses, Stage.IsComplete]
        · cases kind with
          | comma => exact absurd rfl (hcomma start stop rest)
          | closeParen => exact absurd rfl hcoming
          | _ => rfl
      · exact absurd hpure (by simp [pure, Except.pure])
  | case3 lexemes _ hword =>
      obtain rfl := Except.error.inj h
      refine .here (Stage.awaitsWord_of_mem (by simp) _ fun word hcoming => ?_)
      obtain ⟨lexeme, hhead, hkind⟩ := Option.map_eq_some_iff.1 hcoming
      obtain ⟨rest, rfl⟩ := List.head?_eq_some_iff.1 hhead
      exact hword word lexeme.start lexeme.stop rest (by rw [← hkind])

/-- After a command an opening parenthesis has to come.  The word `not` is a command
only if no word follows it, so the stages agree with the parser there too. -/
theorem exists_stage_of_takeWord {source : Text} {lexemes body rest : List Lexeme}
    {negated : Bool} {command : Text} (hnegation : takeNegation lexemes = (negated, body))
    (hcommand : takeWord source .commandName body = .ok (command, rest)) :
    ∃ front stage, lexemes = front ++ rest ∧
      Stage.body.after? (front.map Lexeme.kind) = some stage ∧
      stage.expected = .openParen ∧ stage.next? .openParen = some .arguments ∧
      (rest.head?.map Lexeme.kind ≠ some .openParen →
        stage.Refuses (rest.head?.map Lexeme.kind)) := by
  obtain ⟨start, stop, rfl⟩ := eq_cons_of_takeWord hcommand
  have hawaits : Stage.command.Awaits .openParen := Stage.awaits_of_mem (by simp)
  rw [takeNegation.eq_def] at hnegation
  split at hnegation
  · next first firstStart firstStop second secondStart secondStop tail =>
      split_ifs at hnegation with hfirst
      · obtain ⟨-, heq⟩ := Prod.mk.inj hnegation
        obtain ⟨-, rfl⟩ := List.cons.inj heq
        refine ⟨[_, _], .command, rfl, ?_, rfl, rfl, hawaits _⟩
        simp [Stage.next?, hfirst]
      · obtain ⟨-, heq⟩ := Prod.mk.inj hnegation
        obtain ⟨heq, rfl⟩ := List.cons.inj heq
        refine ⟨[_], .command, rfl, ?_, rfl, rfl, hawaits _⟩
        simp [Stage.next?, hfirst]
  · next hwords =>
      obtain ⟨-, rfl⟩ := Prod.mk.inj hnegation
      by_cases hword : command = negationWord
      · refine ⟨[_], .negation, rfl, by simp [Stage.next?, hword], rfl, rfl, fun hparen => ?_⟩
        rcases rest with _ | ⟨⟨kind, first, last⟩, tail⟩
        · simp [Stage.Refuses, Stage.IsComplete]
        · cases kind with
          | word second => exact absurd rfl (hwords command start stop second first last tail)
          | openParen => exact absurd rfl hparen
          | _ => rfl
      · exact ⟨[_], .command, rfl, by simp [Stage.next?, hword], rfl, rfl, hawaits _⟩

theorem stuck_of_takeClause {source : Text} {lexemes : List Lexeme} {fault : RuleFault}
    (h : takeClause source lexemes = .error fault) : Stuck source .body lexemes fault := by
  rcases hnegation : takeNegation lexemes with ⟨negated, body⟩
  simp only [takeClause, hnegation, bind_eq_error_iff, Prod.exists] at h
  rcases h with hcommand | ⟨command, rest, hcommand, h⟩
  · obtain ⟨hword, rfl⟩ := takeWord_eq_error_iff.1 hcommand
    rw [takeNegation.eq_def] at hnegation
    split at hnegation
    · split_ifs at hnegation with hfirst
      · obtain ⟨-, rfl⟩ := Prod.mk.inj hnegation
        exact absurd rfl (hword _)
      · obtain ⟨-, rfl⟩ := Prod.mk.inj hnegation
        exact absurd rfl (hword _)
    · obtain ⟨-, rfl⟩ := Prod.mk.inj hnegation
      exact .here (Stage.awaitsWord_of_mem (by simp) _ hword)
  · obtain ⟨front, stage, rfl, hfront, hexpected, hnext, hrefuses⟩ :=
      exists_stage_of_takeWord hnegation hcommand
    refine Stuck.append ?_ hfront
    rcases h with hopen | ⟨openParen, inner, hopen, h⟩
    · obtain ⟨hcoming, rfl⟩ := takeKind_eq_error_iff.1 hopen
      rw [← hexpected]
      exact .here (hrefuses hcoming)
    · obtain ⟨rfl, hkind⟩ := eq_cons_of_takeKind hopen
      rcases h with harguments | ⟨_, _, _, -, hpure⟩
      · exact .later (hkind ▸ hnext) (stuck_of_takeArguments harguments)
      · exact absurd hpure (by simp [pure, Except.pure])

/-- A clause that is taken leads to the stage after a clause. -/
theorem exists_front_of_takeClause {source : Text} {lexemes rest : List Lexeme}
    {clause : Clause} (h : takeClause source lexemes = .ok (clause, rest)) :
    ∃ front, lexemes = front ++ rest ∧
      Stage.body.after? (front.map Lexeme.kind) = some .clause := by
  obtain ⟨hne, first, middle, close, rfl, hkinds, -⟩ := eq_append_of_takeClause h
  exact ⟨first :: (middle ++ [close]), by simp, by rw [hkinds, Stage.after?_kinds hne]⟩

theorem stuck_of_takeClauses {source : Text} {lexemes : List Lexeme} {fault : RuleFault}
    (h : takeClauses source lexemes = .error fault) : Stuck source .body lexemes fault := by
  refine takeClausesCases
    (motive := fun lexemes result => ∀ fault, result = .error fault →
      Stuck source .body lexemes fault) ?_ ?_ ?_ lexemes fault h
  · intro lexemes raised hclause fault hresult
    obtain rfl := Except.error.inj hresult
    exact stuck_of_takeClause hclause
  · intro lexemes clause rest _ _ _ fault hresult
    exact absurd hresult (by simp)
  · intro lexemes clause marked separator next hclause _ hkind ih fault hresult
    obtain ⟨front, rfl, hfront⟩ := exists_front_of_takeClause hclause
    have hseparator : Stage.clause.next? separator.kind = some .body := by
      rw [hkind, Stage.next?_separator]
    exact Stuck.append (.later hseparator (ih fault (map_eq_error_iff.1 hresult))) hfront

/-- A body that is taken leads to the stage after a clause, and no separator is next. -/
theorem exists_front_of_takeClauses {source : Text} {lexemes rest : List Lexeme}
    {clauses : List Clause} (h : takeClauses source lexemes = .ok (clauses, rest)) :
    ∃ front, lexemes = front ++ rest ∧
      Stage.body.after? (front.map Lexeme.kind) = some .clause ∧
      rest.head?.map Lexeme.kind ≠ some .comma ∧
      rest.head?.map Lexeme.kind ≠ some .semicolon := by
  refine takeClausesCases
    (motive := fun lexemes result => ∀ clauses rest, result = .ok (clauses, rest) →
      ∃ front, lexemes = front ++ rest ∧
        Stage.body.after? (front.map Lexeme.kind) = some .clause ∧
        rest.head?.map Lexeme.kind ≠ some .comma ∧
        rest.head?.map Lexeme.kind ≠ some .semicolon) ?_ ?_ ?_ lexemes clauses rest h
  · intro lexemes fault _ clauses rest hresult
    exact absurd hresult (by simp)
  · intro lexemes clause left hclause hcomma hsemicolon clauses rest hresult
    obtain ⟨rfl, rfl⟩ := Prod.mk.inj (Except.ok.inj hresult)
    obtain ⟨front, rfl, hfront⟩ := exists_front_of_takeClause hclause
    exact ⟨front, rfl, hfront, hcomma, hsemicolon⟩
  · intro lexemes clause marked separator next hclause _ hkind ih clauses rest hresult
    obtain ⟨⟨others, left⟩, hothers, heq⟩ := map_eq_ok_iff.1 hresult
    obtain ⟨rfl, rfl⟩ := Prod.mk.inj heq
    obtain ⟨front, rfl, hfront⟩ := exists_front_of_takeClause hclause
    obtain ⟨more, rfl, hmore, hcoming⟩ := ih _ _ hothers
    refine ⟨front ++ separator :: more, by simp, ?_, hcoming⟩
    simp [hfront, hkind, Stage.next?_separator, hmore]

/-- After a body only a period may come, and nothing after that. -/
theorem stuck_of_dropPeriod {source : Text} {rest : List Lexeme}
    (hcomma : rest.head?.map Lexeme.kind ≠ some .comma)
    (hsemicolon : rest.head?.map Lexeme.kind ≠ some .semicolon)
    (hne : dropPeriod rest ≠ []) :
    Stuck source .clause rest (.at source .continuation (dropPeriod rest)) := by
  rw [dropPeriod.eq_def] at hne ⊢
  split at hne
  · next others =>
      obtain ⟨lexeme, others, rfl⟩ := List.exists_cons_of_ne_nil hne
      refine .later rfl ?_
      exact .here rfl
  · next hperiod =>
      refine .here ?_
      rcases rest with _ | ⟨⟨kind, start, stop⟩, others⟩
      · exact absurd rfl hne
      · cases kind with
        | comma => exact absurd rfl hcomma
        | semicolon => exact absurd rfl hsemicolon
        | period => exact absurd rfl (hperiod start stop others)
        | _ => rfl

end Lexeme

/-- Nothing comes after the neck, or a period comes next. -/
def Bodiless (kinds : List Lexeme.Kind) : Prop :=
  ∃ head var rest,
    kinds = .word head :: .openParen :: .word var :: .closeParen :: .neck :: rest ∧
      (rest = [] ∨ rest.head? = some .period)

namespace Rule

open Lexeme in
theorem ofLexemes_of_bodiless (source : Text) {lexemes : List Lexeme}
    (h : Bodiless (lexemes.map Lexeme.kind)) :
    ofLexemes source lexemes = .error .emptyBody := by
  obtain ⟨head, var, rest, hkinds, hrest⟩ := h
  obtain ⟨_, _, afterHead, rfl, hhead⟩ := exists_eq_cons_of_map_kind hkinds
  obtain ⟨_, _, afterOpen, rfl, hopen⟩ := exists_eq_cons_of_map_kind hhead
  obtain ⟨_, _, afterVar, rfl, hvar⟩ := exists_eq_cons_of_map_kind hopen
  obtain ⟨_, _, afterClose, rfl, hclose⟩ := exists_eq_cons_of_map_kind hvar
  obtain ⟨_, _, body, rfl, rfl⟩ := exists_eq_cons_of_map_kind hclose
  have hempty : body = [] ∨ body.head?.map Lexeme.kind = some .period := by
    simpa using hrest
  simp only [ofLexemes, takeWord, takeKind, ↓reduceIte, bind, Except.bind, hempty]
  rfl

open Lexeme in
/-- The parser stops where the stages do, the whole opening of a rule apart. -/
theorem stuck_of_ofLexemes {source : Text} {lexemes : List Lexeme} {fault : RuleFault}
    (hbody : ¬Bodiless (lexemes.map Lexeme.kind))
    (h : ofLexemes source lexemes = .error fault) : Stuck source .start lexemes fault := by
  simp only [ofLexemes, bind_eq_error_iff, Prod.exists] at h
  rcases h with hhead | ⟨head, _, hhead, h⟩
  · exact stuck_of_takeWord (Stage.awaitsWord_of_mem (by simp)) hhead
  obtain ⟨_, _, rfl⟩ := eq_cons_of_takeWord hhead
  refine .later rfl ?_
  rcases h with hopen | ⟨⟨_, _, _⟩, _, hopen, h⟩
  · exact stuck_of_takeKind (Stage.awaits_of_mem (by simp)) hopen
  obtain ⟨rfl, rfl⟩ := eq_cons_of_takeKind hopen
  refine .later rfl ?_
  rcases h with hvar | ⟨var, _, hvar, h⟩
  · exact stuck_of_takeWord (Stage.awaitsWord_of_mem (by simp)) hvar
  obtain ⟨_, _, rfl⟩ := eq_cons_of_takeWord hvar
  refine .later rfl ?_
  rcases h with hclose | ⟨⟨_, _, _⟩, _, hclose, h⟩
  · exact stuck_of_takeKind (Stage.awaits_of_mem (by simp)) hclose
  obtain ⟨rfl, rfl⟩ := eq_cons_of_takeKind hclose
  refine .later rfl ?_
  rcases h with hneck | ⟨⟨_, _, _⟩, body, hneck, h⟩
  · exact stuck_of_takeKind (Stage.awaits_of_mem (by simp)) hneck
  obtain ⟨rfl, rfl⟩ := eq_cons_of_takeKind hneck
  refine .later rfl ?_
  split_ifs at h with hempty
  · exact absurd ⟨head, var, body.map Lexeme.kind, rfl, by simpa using hempty⟩ hbody
  rcases bind_eq_error_iff.1 h with hclauses | ⟨⟨clauses, rest⟩, hclauses, hrest⟩
  · exact stuck_of_takeClauses hclauses
  obtain ⟨front, rfl, hfront, hcomma, hsemicolon⟩ := exists_front_of_takeClauses hclauses
  refine Stuck.append ?_ hfront
  split at hrest
  · exact absurd hrest (by simp [pure, Except.pure])
  · next hne =>
      obtain rfl := Except.error.inj hrest
      exact stuck_of_dropPeriod hcomma hsemicolon hne

end Rule

namespace Lexeme

/-- The stages lead up to the fault, and no further. -/
theorem stuck_iff {source : Text} {stage : Stage} {lexemes : List Lexeme}
    {fault : RuleFault} :
    Stuck source stage lexemes fault ↔
      ∃ front left last, lexemes = front ++ left ∧
        stage.after? (front.map Lexeme.kind) = some last ∧
        last.Refuses (left.head?.map Lexeme.kind) ∧
        fault = .at source last.expected left := by
  constructor
  · intro h
    induction h with
    | @here stage lexemes hrefuses => exact ⟨[], lexemes, stage, rfl, rfl, hrefuses, rfl⟩
    | @later stage next lexeme lexemes fault hnext _ ih =>
        obtain ⟨front, left, last, rfl, hfront, hrefuses, hfault⟩ := ih
        exact ⟨lexeme :: front, left, last, rfl, by simp [hnext, hfront], hrefuses, hfault⟩
  · rintro ⟨front, left, last, rfl, hfront, hrefuses, rfl⟩
    exact Stuck.append (.here hrefuses) hfront

theorem Stuck.not_complete {source : Text} {stage last : Stage} {lexemes : List Lexeme}
    {fault : RuleFault} (h : Stuck source stage lexemes fault)
    (hlast : stage.after? (lexemes.map Lexeme.kind) = some last) : ¬last.IsComplete := by
  obtain ⟨front, left, reached, rfl, hfront, hrefuses, -⟩ := stuck_iff.1 h
  rw [List.map_append, Stage.after?_append, hfront, Option.bind_some] at hlast
  cases left with
  | nil =>
      obtain rfl := Option.some.inj hlast
      exact hrefuses
  | cons lexeme rest =>
      have hnone : reached.next? lexeme.kind = none := hrefuses
      simp [hnone] at hlast

end Lexeme

/-- Some rule of the grammar is written with these kinds. -/
def Complete (kinds : List Lexeme.Kind) : Prop :=
  ∃ rule : Rule, rule.WellFormed ∧ rule.WrittenAs kinds

/-- Some rule of the grammar begins with these kinds. -/
def Viable (kinds : List Lexeme.Kind) : Prop :=
  ∃ full, Complete full ∧ kinds <+: full

theorem Bodiless.not_isComplete {kinds : List Lexeme.Kind} (h : Bodiless kinds) {last : Stage}
    (hlast : Stage.start.after? kinds = some last) : ¬last.IsComplete := by
  obtain ⟨head, var, rest, rfl, rfl | hrest⟩ := h
  · obtain rfl : Stage.body = last := by simpa [Stage.next?] using hlast
    simp [Stage.IsComplete]
  · obtain ⟨more, rfl⟩ := List.head?_eq_some_iff.1 hrest
    simp [Stage.next?] at hlast

theorem complete_iff_after? {kinds : List Lexeme.Kind} :
    Complete kinds ↔ ∃ last, Stage.start.after? kinds = some last ∧ last.IsComplete := by
  constructor
  · rintro ⟨rule, hformed, hwritten⟩
    exact hformed.exists_after? hwritten
  · rintro ⟨last, hlast, hcomplete⟩
    -- The parser reads lexemes of these kinds, wherever they stand.
    let lexemes : List Lexeme := kinds.map fun kind => ⟨kind, 0, 0⟩
    have hkinds : lexemes.map Lexeme.kind = kinds := by simp [lexemes, Function.comp_def]
    rw [← hkinds] at hlast
    cases hrule : Rule.ofLexemes [] lexemes with
    | ok rule => exact ⟨rule, hkinds ▸ Rule.writtenAs_of_ofLexemes hrule⟩
    | error fault =>
        by_cases hbody : Bodiless (lexemes.map Lexeme.kind)
        · exact absurd hcomplete (hbody.not_isComplete hlast)
        · exact absurd hcomplete ((Rule.stuck_of_ofLexemes hbody hrule).not_complete hlast)

/-- Some kinds begin a rule exactly if the stages lead through all of them. -/
theorem viable_iff_after? {kinds : List Lexeme.Kind} :
    Viable kinds ↔ ∃ stage, Stage.start.after? kinds = some stage := by
  constructor
  · rintro ⟨full, hfull, more, rfl⟩
    obtain ⟨last, hlast, -⟩ := complete_iff_after?.1 hfull
    rw [Stage.after?_append] at hlast
    obtain ⟨stage, hstage, -⟩ := Option.bind_eq_some_iff.1 hlast
    exact ⟨stage, hstage⟩
  · rintro ⟨stage, hstage⟩
    obtain ⟨more, last, hmore, hcomplete⟩ := stage.canEnd
    exact ⟨kinds ++ more,
      complete_iff_after?.2
        ⟨last, by rw [Stage.after?_append, hstage, Option.bind_some, hmore], hcomplete⟩,
      List.prefix_append _ _⟩

instance (kinds : List Lexeme.Kind) : Decidable (Viable kinds) :=
  decidable_of_iff ((Stage.start.after? kinds).isSome = true) <|
    Option.isSome_iff_exists.trans viable_iff_after?.symm

/-- The second `not` is the command, since a third word cannot come before it. -/
example :
    let opening : List Lexeme.Kind :=
      [.word "h".toList, .openParen, .word "A".toList, .closeParen, .neck]
    let no : Lexeme.Kind := .word negationWord
    Viable (opening ++ [no, no, .openParen]) ∧ ¬Viable (opening ++ [no, no, no]) := by
  decide

theorem not_viable_append_singleton_iff {kinds : List Lexeme.Kind} {stage : Stage}
    (h : Stage.start.after? kinds = some stage) {kind : Lexeme.Kind} :
    ¬Viable (kinds ++ [kind]) ↔ stage.next? kind = none := by
  rw [viable_iff_after?, Stage.after?_append, h, Option.bind_some, Stage.after?_cons]
  cases stage.next? kind with
  | none => simp
  | some next => simp

theorem Lexeme.Stuck.unique {source : Text} {stage : Stage} {lexemes : List Lexeme}
    {fault other : RuleFault} (h : Stuck source stage lexemes fault)
    (hother : Stuck source stage lexemes other) : fault = other := by
  induction h with
  | here hrefuses =>
      cases hother with
      | here _ => rfl
      | later hnext _ => exact absurd (hrefuses.symm.trans hnext) (by simp)
  | later hnext _ ih =>
      cases hother with
      | here hrefuses => exact absurd (hnext.symm.trans hrefuses) (by simp)
      | later hsame hafter =>
          obtain rfl := Option.some.inj (hnext.symm.trans hsame)
          exact ih hafter

namespace Rule

theorem ofLexemes_eq_error_iff_stuck {source : Text} {lexemes : List Lexeme}
    {fault : RuleFault} (hbody : ¬Bodiless (lexemes.map Lexeme.kind)) :
    ofLexemes source lexemes = .error fault ↔ Lexeme.Stuck source .start lexemes fault := by
  refine ⟨stuck_of_ofLexemes hbody, fun h => ?_⟩
  cases hrule : ofLexemes source lexemes with
  | ok rule =>
      obtain ⟨hformed, hwritten⟩ := writtenAs_of_ofLexemes hrule
      obtain ⟨last, hlast, hcomplete⟩ := hformed.exists_after? hwritten
      exact absurd hcomplete (h.not_complete hlast)
  | error raised => rw [(stuck_of_ofLexemes hbody hrule).unique h]

/-- What is wrong with lexemes that are no rule.  A fault that names a place names the
first lexeme with which they no longer begin a rule, or the end of the source if they
begin a rule but are none. -/
inductive Breaks (source : Text) (lexemes : List Lexeme) : RuleFault → Prop
  | emptyBody :
      Bodiless (lexemes.map Lexeme.kind) → Breaks source lexemes .emptyBody
  | lexeme {front rest : List Lexeme} {lexeme : Lexeme} {stage : Stage} :
      ¬Bodiless (lexemes.map Lexeme.kind) → lexemes = front ++ lexeme :: rest →
      Viable (front.map Lexeme.kind) → ¬Viable ((front ++ [lexeme]).map Lexeme.kind) →
      Stage.start.after? (front.map Lexeme.kind) = some stage →
      Breaks source lexemes (.unexpected lexeme.start stage.expected (some lexeme.kind))
  | ending {stage : Stage} :
      ¬Bodiless (lexemes.map Lexeme.kind) →
      Viable (lexemes.map Lexeme.kind) → ¬Complete (lexemes.map Lexeme.kind) →
      Stage.start.after? (lexemes.map Lexeme.kind) = some stage →
      Breaks source lexemes (.unexpected (Text.byteSize source) stage.expected none)

theorem breaks_of_stuck {source : Text} {lexemes : List Lexeme} {fault : RuleFault}
    (hbody : ¬Bodiless (lexemes.map Lexeme.kind))
    (h : Lexeme.Stuck source .start lexemes fault) : Breaks source lexemes fault := by
  obtain ⟨front, left, stage, rfl, hfront, hrefuses, rfl⟩ := Lexeme.stuck_iff.1 h
  have hviable := viable_iff_after?.2 ⟨stage, hfront⟩
  cases left with
  | nil =>
      rw [List.append_nil] at *
      refine .ending hbody hviable (fun hcomplete => ?_) hfront
      obtain ⟨last, hlast, hend⟩ := complete_iff_after?.1 hcomplete
      exact h.not_complete hlast hend
  | cons lexeme rest =>
      refine .lexeme hbody rfl hviable ?_ hfront
      rw [List.map_append, List.map_singleton]
      exact (not_viable_append_singleton_iff hfront).2 hrefuses

/-- The parser fails exactly with what is wrong: it says that there is no body if
nothing or a period comes after the neck, and otherwise it names the first lexeme that
no rule has at its place, or the end. -/
theorem ofLexemes_eq_error_iff_breaks {source : Text} {lexemes : List Lexeme}
    {fault : RuleFault} :
    ofLexemes source lexemes = .error fault ↔ Breaks source lexemes fault := by
  constructor
  · intro h
    by_cases hbody : Bodiless (lexemes.map Lexeme.kind)
    · rw [ofLexemes_of_bodiless source hbody] at h
      obtain rfl := Except.error.inj h
      exact .emptyBody hbody
    · exact breaks_of_stuck hbody (stuck_of_ofLexemes hbody h)
  · intro h
    cases h with
    | emptyBody hbody => exact ofLexemes_of_bodiless source hbody
    | @lexeme front rest lexeme stage hbody heq _ hnot hstage =>
        rw [List.map_append, List.map_singleton] at hnot
        exact (ofLexemes_eq_error_iff_stuck hbody).2 (Lexeme.stuck_iff.2
          ⟨front, lexeme :: rest, stage, heq, hstage,
            (not_viable_append_singleton_iff hstage).1 hnot, rfl⟩)
    | @ending stage hbody _ hnot hstage =>
        refine (ofLexemes_eq_error_iff_stuck hbody).2 (Lexeme.stuck_iff.2
          ⟨lexemes, [], stage, by simp, hstage, fun hend => ?_, rfl⟩)
        exact hnot (complete_iff_after?.2 ⟨stage, hstage, hend⟩)

end Rule

end GradingRule
