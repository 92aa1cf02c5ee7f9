/-
The grammar of rules, told as the kinds that a rule is written with.  The parser
reads every rule of the grammar back, the texts of the clauses apart.
-/
import GradingRule.Rule.Clause
import GradingRule.Proofs.Fallible
import Mathlib.Data.List.Basic

namespace GradingRule

/-- The clause without its part of the rule, which plays no role in its meaning. -/
def Clause.shape (clause : Clause) : Clause :=
  { clause with text := [] }

/-- Words with commas between them. -/
def argumentKinds : List Text → List Lexeme.Kind
  | [] => []
  | [argument] => [.word argument]
  | argument :: rest => .word argument :: .comma :: argumentKinds rest

theorem argumentKinds_cons {argument : Text} {arguments : List Text} (h : arguments ≠ []) :
    argumentKinds (argument :: arguments) =
      .word argument :: .comma :: argumentKinds arguments := by
  obtain ⟨next, others, rfl⟩ := List.exists_cons_of_ne_nil h
  rfl

def Clause.kinds (clause : Clause) : List Lexeme.Kind :=
  (if clause.negated then [.word negationWord] else []) ++
    .word clause.command :: .openParen :: (argumentKinds clause.arguments ++ [.closeParen])

/-- What separates a clause from the next. -/
def Clause.separator (clause : Clause) : Lexeme.Kind :=
  if clause.disjunct then .semicolon else .comma

def bodyKinds : List Clause → List Lexeme.Kind
  | [] => []
  | [clause] => clause.kinds
  | clause :: rest => clause.kinds ++ clause.separator :: bodyKinds rest

theorem bodyKinds_cons {clause : Clause} {clauses : List Clause} (h : clauses ≠ []) :
    bodyKinds (clause :: clauses) = clause.kinds ++ clause.separator :: bodyKinds clauses := by
  obtain ⟨next, others, rfl⟩ := List.exists_cons_of_ne_nil h
  rfl

/-- The lexemes that a rule is written with, the period at its end left out. -/
def Rule.kinds (rule : Rule) : List Lexeme.Kind :=
  .word rule.head :: .openParen :: .word rule.responseVar :: .closeParen :: .neck ::
    bodyKinds rule.clauses

/-- There is a last clause, and no semicolon comes after it. -/
def Ended (clauses : List Clause) : Prop :=
  ∃ last, clauses.getLast? = some last ∧ last.disjunct = false

theorem ended_singleton_iff {clause : Clause} :
    Ended [clause] ↔ clause.disjunct = false := by
  simp [Ended]

theorem ended_cons_cons_iff {clause next : Clause} {clauses : List Clause} :
    Ended (clause :: next :: clauses) ↔ Ended (next :: clauses) := by
  simp [Ended, List.getLast?_cons_cons]

theorem Ended.ne_nil {clauses : List Clause} (h : Ended clauses) : clauses ≠ [] := by
  rintro rfl
  obtain ⟨last, hlast, -⟩ := h
  simp at hlast

theorem Ended.cons {clauses : List Clause} (h : Ended clauses) (clause : Clause) :
    Ended (clause :: clauses) := by
  obtain ⟨next, others, rfl⟩ := List.exists_cons_of_ne_nil h.ne_nil
  exact ended_cons_cons_iff.2 h

namespace Lexeme

/-- The first of some lexemes whose kinds are known. -/
theorem exists_eq_cons_of_map_kind {lexemes : List Lexeme} {kind : Kind} {kinds : List Kind}
    (h : lexemes.map Lexeme.kind = kind :: kinds) :
    ∃ start stop rest, lexemes = ⟨kind, start, stop⟩ :: rest ∧
      rest.map Lexeme.kind = kinds := by
  obtain ⟨⟨_, start, stop⟩, rest, rfl, rfl, hrest⟩ := List.map_eq_cons_iff.1 h
  exact ⟨start, stop, rest, rfl, hrest⟩

theorem exists_eq_cons_of_head? {lexemes : List Lexeme} {kind : Kind}
    (h : lexemes.head?.map Lexeme.kind = some kind) :
    ∃ start stop rest, lexemes = ⟨kind, start, stop⟩ :: rest := by
  obtain ⟨⟨_, start, stop⟩, hhead, rfl⟩ := Option.map_eq_some_iff.1 h
  obtain ⟨rest, rfl⟩ := List.head?_eq_some_iff.1 hhead
  exact ⟨start, stop, rest, rfl⟩

theorem eq_cons_of_takeKind {source : Text} {kind : Kind} {expected : Expectation}
    {lexemes rest : List Lexeme} {lexeme : Lexeme}
    (h : takeKind source kind expected lexemes = .ok (lexeme, rest)) :
    lexemes = lexeme :: rest ∧ lexeme.kind = kind := by
  rw [takeKind.eq_def] at h
  split at h
  · exact absurd h (by simp)
  · split_ifs at h with hkind
    obtain ⟨rfl, rfl⟩ := Prod.mk.inj (Except.ok.inj h)
    exact ⟨rfl, hkind⟩

theorem eq_cons_of_takeWord {source : Text} {expected : Expectation}
    {lexemes rest : List Lexeme} {text : Text}
    (h : takeWord source expected lexemes = .ok (text, rest)) :
    ∃ start stop, lexemes = ⟨.word text, start, stop⟩ :: rest := by
  rw [takeWord.eq_def] at h
  split at h
  · next start stop _ =>
      obtain ⟨rfl, rfl⟩ := Prod.mk.inj (Except.ok.inj h)
      exact ⟨start, stop, rfl⟩
  · exact absurd h (by simp)

theorem takeArguments_of_kinds (source : Text) {arguments : List Text}
    (hne : arguments ≠ []) {lexemes : List Lexeme} {after : List Kind}
    (h : lexemes.map Lexeme.kind = argumentKinds arguments ++ .closeParen :: after) :
    ∃ close rest, takeArguments source lexemes = .ok (arguments, close, rest) ∧
      rest.map Lexeme.kind = after := by
  induction arguments generalizing lexemes with
  | nil => exact absurd rfl hne
  | cons argument others ih =>
      cases others with
      | nil =>
          obtain ⟨_, _, tail, rfl, htail⟩ := exists_eq_cons_of_map_kind h
          obtain ⟨_, _, rest, rfl, hrest⟩ := exists_eq_cons_of_map_kind htail
          exact ⟨_, rest, rfl, hrest⟩
      | cons other others =>
          obtain ⟨_, _, tail, rfl, htail⟩ := exists_eq_cons_of_map_kind h
          obtain ⟨_, _, next, rfl, hnext⟩ := exists_eq_cons_of_map_kind htail
          obtain ⟨close, rest, htake, hrest⟩ := ih (by simp) hnext
          exact ⟨close, rest, by rw [takeArguments, htake]; rfl, hrest⟩

/-- A command is never taken for a negation, since no word follows it. -/
theorem takeNegation_of_kinds {clause : Clause} {lexemes : List Lexeme} {after : List Kind}
    (h : lexemes.map Lexeme.kind = clause.kinds ++ after) :
    ∃ body, takeNegation lexemes = (clause.negated, body) ∧
      body.map Lexeme.kind =
        .word clause.command :: .openParen ::
          (argumentKinds clause.arguments ++ .closeParen :: after) := by
  rw [Clause.kinds] at h
  cases hnegated : clause.negated with
  | true =>
      rw [if_pos hnegated] at h
      obtain ⟨_, _, tail, rfl, htail⟩ := exists_eq_cons_of_map_kind h
      obtain ⟨_, _, rest, rfl, hrest⟩ := exists_eq_cons_of_map_kind htail
      exact ⟨_, by rw [takeNegation, if_pos rfl], by simpa using htail⟩
  | false =>
      rw [if_neg (by simp [hnegated])] at h
      obtain ⟨_, _, tail, rfl, htail⟩ := exists_eq_cons_of_map_kind h
      obtain ⟨_, _, rest, rfl, hrest⟩ := exists_eq_cons_of_map_kind htail
      exact ⟨_, rfl, by simpa using h⟩

theorem takeClause_of_kinds (source : Text) {clause : Clause} (hne : clause.arguments ≠ [])
    {lexemes : List Lexeme} {after : List Kind}
    (h : lexemes.map Lexeme.kind = clause.kinds ++ after) :
    ∃ taken rest, takeClause source lexemes = .ok (taken, rest) ∧
      rest.map Lexeme.kind = after ∧
      taken.shape = { clause with disjunct := false }.shape := by
  obtain ⟨body, hnegation, hbody⟩ := takeNegation_of_kinds h
  obtain ⟨_, _, tail, rfl, htail⟩ := exists_eq_cons_of_map_kind hbody
  obtain ⟨_, _, inner, rfl, hinner⟩ := exists_eq_cons_of_map_kind htail
  obtain ⟨close, rest, harguments, hrest⟩ := takeArguments_of_kinds source hne hinner
  let text := (Text.slice? source (startOf source lexemes) close.stop).getD []
  refine ⟨⟨text, clause.negated, false, clause.command, clause.arguments⟩, rest, ?_,
    hrest, rfl⟩
  rw [takeClause, hnegation]
  simp only [takeWord, takeKind, bind, Except.bind, ↓reduceIte, harguments]
  rfl

/-- What the parser does after it has taken a clause. -/
def afterClause (source : Text) (clause : Clause) :
    List Lexeme → Except RuleFault (List Clause × List Lexeme)
  | ⟨.comma, _, _⟩ :: next =>
      (takeClauses source next).map fun (clauses, left) => (clause :: clauses, left)
  | ⟨.semicolon, _, _⟩ :: next =>
      (takeClauses source next).map fun (clauses, left) =>
        ({ clause with disjunct := true } :: clauses, left)
  | left => .ok ([clause], left)

theorem takeClauses_of_takeClause {source : Text} {lexemes rest : List Lexeme}
    {clause : Clause} (h : takeClause source lexemes = .ok (clause, rest)) :
    takeClauses source lexemes = afterClause source clause rest := by
  rw [takeClauses]
  split
  · next fault hfault =>
      rw [h] at hfault
      exact absurd hfault (by simp)
  · next taken left htaken =>
      obtain ⟨rfl, rfl⟩ : clause = taken ∧ rest = left := by
        simpa using h.symm.trans htaken
      rcases rest with _ | ⟨⟨kind, start, stop⟩, rest⟩
      · rfl
      · cases kind with
        | _ => rfl

theorem takeClauses_of_takeClause_error {source : Text} {lexemes : List Lexeme}
    {fault : RuleFault} (h : takeClause source lexemes = .error fault) :
    takeClauses source lexemes = .error fault := by
  rw [takeClauses]
  split
  · next raised hraised =>
      rw [h] at hraised
      rw [Except.error.inj hraised]
  · next htaken => exact absurd (h.symm.trans htaken) (by simp)

/-- The separator after a clause says whether it is a disjunct. -/
theorem exists_afterClause_of_separator {source : Text} {clause taken : Clause}
    {next rest : List Lexeme} {left : List Clause} {start stop : Nat}
    (hshape : taken.shape = { clause with disjunct := false }.shape)
    (hnext : takeClauses source next = .ok (left, rest)) :
    ∃ marked,
      afterClause source taken (⟨clause.separator, start, stop⟩ :: next) =
        .ok (marked :: left, rest) ∧
      marked.shape = clause.shape := by
  cases hdisjunct : clause.disjunct with
  | true =>
      refine ⟨{ taken with disjunct := true }, ?_, ?_⟩
      · simp only [Clause.separator, hdisjunct, ↓reduceIte, afterClause, hnext]
        rfl
      · have hmarked := congrArg (fun c : Clause => { c with disjunct := true }) hshape
        rw [← hdisjunct] at hmarked ⊢
        exact hmarked
  | false =>
      refine ⟨taken, ?_, ?_⟩
      · simp only [Clause.separator, hdisjunct, Bool.false_eq_true, ↓reduceIte, afterClause,
          hnext]
        rfl
      · rw [hshape, ← hdisjunct]

/-- The parser takes off a whole body and stops at what cannot continue it. -/
theorem takeClauses_of_kinds (source : Text) {clauses : List Clause}
    (harguments : ∀ clause ∈ clauses, clause.arguments ≠ []) (hended : Ended clauses)
    {lexemes : List Lexeme} {after : List Kind}
    (hafter : after.head? ≠ some .comma ∧ after.head? ≠ some .semicolon)
    (h : lexemes.map Lexeme.kind = bodyKinds clauses ++ after) :
    ∃ taken rest, takeClauses source lexemes = .ok (taken, rest) ∧
      rest.map Lexeme.kind = after ∧ taken.map Clause.shape = clauses.map Clause.shape := by
  induction clauses generalizing lexemes with
  | nil => exact absurd rfl hended.ne_nil
  | cons clause others ih =>
      obtain ⟨hne, hothers⟩ := List.forall_mem_cons.1 harguments
      cases others with
      | nil =>
          have hdisjunct := ended_singleton_iff.1 hended
          obtain ⟨taken, rest, htake, hrest, hshape⟩ := takeClause_of_kinds source hne h
          refine ⟨[taken], rest, ?_, hrest, ?_⟩
          · rw [takeClauses_of_takeClause htake, afterClause.eq_def]
            split
            · exact absurd (by rw [← hrest]; rfl) hafter.1
            · exact absurd (by rw [← hrest]; rfl) hafter.2
            · rfl
          · rw [List.map_singleton, List.map_singleton, hshape, ← hdisjunct]
      | cons other others =>
          rw [bodyKinds_cons (by simp), List.append_assoc, List.cons_append] at h
          obtain ⟨taken, tail, htake, htail, hshape⟩ := takeClause_of_kinds source hne h
          obtain ⟨_, _, next, rfl, hnext⟩ := exists_eq_cons_of_map_kind htail
          obtain ⟨left, rest, hleft, hrest, hshapes⟩ :=
            ih hothers (ended_cons_cons_iff.1 hended) hnext
          obtain ⟨marked, hmarked, hmarkedShape⟩ :=
            exists_afterClause_of_separator hshape hleft
          refine ⟨marked :: left, rest, ?_, hrest, ?_⟩
          · rw [takeClauses_of_takeClause htake, hmarked]
          · rw [List.map_cons, List.map_cons, hmarkedShape, hshapes]

theorem disjunct_of_takeClause {source : Text} {lexemes rest : List Lexeme}
    {clause : Clause} (h : takeClause source lexemes = .ok (clause, rest)) :
    clause.disjunct = false := by
  simp only [takeClause, bind_eq_ok_iff, Prod.exists, pure, Except.pure, Except.ok.injEq,
    Prod.mk.injEq] at h
  obtain ⟨-, -, -, -, -, -, -, -, -, -, rfl, -⟩ := h
  rfl

/-- To prove something of what becomes of a body it is enough to go from clause to
clause, each of them marked by the separator after it, up to one that fails or that no
separator follows. -/
theorem takeClausesCases {source : Text}
    {motive : List Lexeme → Except RuleFault (List Clause × List Lexeme) → Prop}
    (fault : ∀ lexemes fault, takeClause source lexemes = .error fault →
      motive lexemes (.error fault))
    (last : ∀ lexemes clause rest, takeClause source lexemes = .ok (clause, rest) →
      rest.head?.map Lexeme.kind ≠ some .comma → rest.head?.map Lexeme.kind ≠ some .semicolon →
      motive lexemes (.ok ([clause], rest)))
    (more : ∀ lexemes (clause marked : Clause) (separator : Lexeme) next,
      takeClause source lexemes = .ok (clause, separator :: next) →
      marked = { clause with disjunct := marked.disjunct } →
      separator.kind = marked.separator →
      motive next (takeClauses source next) →
      motive lexemes ((takeClauses source next).map fun (clauses, left) =>
        (marked :: clauses, left)))
    (lexemes : List Lexeme) : motive lexemes (takeClauses source lexemes) := by
  -- On the number of lexemes, of which every clause leaves fewer.
  induction hlength : lexemes.length using Nat.strongRecOn generalizing lexemes with
  | ind n ih =>
      cases hclause : takeClause source lexemes with
      | error raised =>
          rw [takeClauses_of_takeClause_error hclause]
          exact fault lexemes raised hclause
      | ok result =>
          obtain ⟨clause, rest⟩ := result
          have hlt := length_takeClause hclause
          rw [takeClauses_of_takeClause hclause, afterClause.eq_def]
          split
          · next next =>
              rw [List.length_cons] at hlt
              refine more lexemes clause clause _ next hclause rfl ?_ (ih _ (by omega) next rfl)
              rw [Clause.separator, if_neg (by simp [disjunct_of_takeClause hclause])]
          · next next =>
              rw [List.length_cons] at hlt
              exact more lexemes clause _ _ next hclause rfl rfl (ih _ (by omega) next rfl)
          · next hcomma hsemicolon =>
              refine last lexemes clause rest hclause ?_ ?_
              · intro hcoming
                obtain ⟨start, stop, next, rfl⟩ := exists_eq_cons_of_head? hcoming
                exact hcomma start stop next rfl
              · intro hcoming
                obtain ⟨start, stop, next, rfl⟩ := exists_eq_cons_of_head? hcoming
                exact hsemicolon start stop next rfl

/-- A body that is taken has only clauses that are taken. -/
theorem takeClausesInduction {source : Text}
    {motive : List Lexeme → List Clause → List Lexeme → Prop}
    (last : ∀ lexemes clause rest, takeClause source lexemes = .ok (clause, rest) →
      motive lexemes [clause] rest)
    (more : ∀ lexemes (clause marked : Clause) (separator : Lexeme) next clauses rest,
      takeClause source lexemes = .ok (clause, separator :: next) →
      marked = { clause with disjunct := marked.disjunct } →
      separator.kind = marked.separator →
      motive next clauses rest → motive lexemes (marked :: clauses) rest)
    {lexemes rest : List Lexeme} {clauses : List Clause}
    (h : takeClauses source lexemes = .ok (clauses, rest)) : motive lexemes clauses rest := by
  refine takeClausesCases
    (motive := fun lexemes result => ∀ clauses rest, result = .ok (clauses, rest) →
      motive lexemes clauses rest) ?_ ?_ ?_ lexemes clauses rest h
  · intro lexemes fault _ clauses rest hresult
    exact absurd hresult (by simp)
  · intro lexemes clause rest hclause _ _ clauses left hresult
    obtain ⟨rfl, rfl⟩ := Prod.mk.inj (Except.ok.inj hresult)
    exact last _ _ _ hclause
  · intro lexemes clause marked separator next hclause hmarked hkind ih clauses rest hresult
    obtain ⟨⟨others, left⟩, hothers, heq⟩ := map_eq_ok_iff.1 hresult
    obtain ⟨rfl, rfl⟩ := Prod.mk.inj heq
    exact more _ _ _ _ _ _ _ hclause hmarked hkind (ih _ _ hothers)

/-- A semicolon has to be followed by a clause, so no semicolon ends a body. -/
theorem ended_of_takeClauses {source : Text} {lexemes rest : List Lexeme}
    {clauses : List Clause} (h : takeClauses source lexemes = .ok (clauses, rest)) :
    Ended clauses := by
  refine takeClausesInduction (motive := fun _ clauses _ => Ended clauses) ?_ ?_ h
  · intro lexemes clause rest hclause
    exact ended_singleton_iff.2 (disjunct_of_takeClause hclause)
  · intro lexemes clause marked separator next clauses rest hclause hmarked hkind hended
    exact hended.cons _

/-- Every clause takes a lexeme at least. -/
theorem length_clauses_le {source : Text} {lexemes rest : List Lexeme}
    {clauses : List Clause} (h : takeClauses source lexemes = .ok (clauses, rest)) :
    clauses.length ≤ lexemes.length := by
  refine takeClausesInduction
    (motive := fun lexemes clauses _ => clauses.length ≤ lexemes.length) ?_ ?_ h
  · intro lexemes clause rest hclause
    have hlt := length_takeClause hclause
    rw [List.length_singleton]
    omega
  · intro lexemes clause marked separator next clauses rest hclause hmarked hkind hle
    have hlt := length_takeClause hclause
    rw [List.length_cons] at hlt ⊢
    omega

/-- Every lexeme takes a character at least. -/
theorem length_scanFrom_le {neck : Text} {offset : Nat} {text : Text} {lexemes : List Lexeme}
    (h : scanFrom neck offset text = .ok lexemes) : lexemes.length ≤ text.length := by
  fun_induction scanFrom neck offset text generalizing lexemes with
  | case1 =>
      obtain rfl := Except.ok.inj h
      exact Nat.le_refl 0
  | case2 offset c rest hblank ih => exact Nat.le_succ_of_le (ih h)
  | case3 offset c rest hblank fault hscan => exact absurd h (by simp)
  | case4 offset c rest hblank kind tail hscan stop =>
      rename_i ih
      obtain ⟨others, hothers, rfl⟩ := map_eq_ok_iff.1 h
      have hle := ih hothers
      rw [List.length_drop] at hle
      rw [List.length_cons, List.length_cons]
      omega

end Lexeme

namespace Rule

theorem exists_bodyKinds_eq_cons_word {clauses : List Clause} (h : clauses ≠ []) :
    ∃ word kinds, bodyKinds clauses = .word word :: kinds := by
  have hkinds : ∀ clause : Clause, ∃ word kinds, clause.kinds = .word word :: kinds := by
    intro clause
    rw [Clause.kinds]
    cases clause.negated with
    | true => exact ⟨_, _, rfl⟩
    | false => exact ⟨_, _, rfl⟩
  obtain ⟨clause, others, rfl⟩ := List.exists_cons_of_ne_nil h
  obtain ⟨word, kinds, hclause⟩ := hkinds clause
  cases others with
  | nil => exact ⟨word, kinds, hclause⟩
  | cons next others => exact ⟨word, _, by rw [bodyKinds_cons (by simp), hclause]; rfl⟩

open Lexeme in
/-- A rule of the grammar is read back from its lexemes, a period at the end or
not. -/
theorem exists_ofLexemes_of_kinds (source : Text) {rule : Rule}
    (harguments : ∀ clause ∈ rule.clauses, clause.arguments ≠ [])
    (hended : Ended rule.clauses) {lexemes : List Lexeme}
    (h : lexemes.map Lexeme.kind = rule.kinds ∨
      lexemes.map Lexeme.kind = rule.kinds ++ [.period]) :
    ∃ taken, ofLexemes source lexemes = .ok taken ∧ taken.head = rule.head ∧
      taken.responseVar = rule.responseVar ∧
      taken.clauses.map Clause.shape = rule.clauses.map Clause.shape := by
  obtain ⟨ending, hending, h⟩ : ∃ ending : List Kind, (ending = [] ∨ ending = [.period]) ∧
      lexemes.map Lexeme.kind = rule.kinds ++ ending := by
    rcases h with h | h
    · exact ⟨[], .inl rfl, by rw [h, List.append_nil]⟩
    · exact ⟨[.period], .inr rfl, h⟩
  obtain ⟨_, _, afterHead, rfl, hhead⟩ := exists_eq_cons_of_map_kind h
  obtain ⟨_, _, afterOpen, rfl, hopen⟩ := exists_eq_cons_of_map_kind hhead
  obtain ⟨_, _, afterVar, rfl, hvar⟩ := exists_eq_cons_of_map_kind hopen
  obtain ⟨_, _, afterClose, rfl, hclose⟩ := exists_eq_cons_of_map_kind hvar
  obtain ⟨_, _, body, rfl, hbody⟩ := exists_eq_cons_of_map_kind hclose
  have hafter : ending.head? ≠ some .comma ∧ ending.head? ≠ some .semicolon := by
    rcases hending with rfl | rfl <;> simp
  obtain ⟨taken, rest, htake, hrest, hshapes⟩ :=
    takeClauses_of_kinds source harguments hended hafter hbody
  have hdrop : dropPeriod rest = [] := by
    rcases hending with rfl | rfl
    · rw [List.map_eq_nil_iff.1 hrest]
      rfl
    · obtain ⟨_, _, others, rfl, hothers⟩ := exists_eq_cons_of_map_kind hrest
      exact List.map_eq_nil_iff.1 hothers
  have hstart : ¬(body = [] ∨ body.head?.map Lexeme.kind = some .period) := by
    obtain ⟨word, kinds, hword⟩ := exists_bodyKinds_eq_cons_word hended.ne_nil
    rw [hword] at hbody
    obtain ⟨_, _, _, rfl, -⟩ := exists_eq_cons_of_map_kind hbody
    simp
  refine ⟨⟨rule.head, rule.responseVar, taken⟩, ?_, rfl, rfl, hshapes⟩
  simp only [ofLexemes, takeWord, takeKind, ↓reduceIte, bind, Except.bind, hstart, htake, hdrop]
  rfl

open Lexeme in
/-- A rule that is read opens with its head and the neck; its clauses are taken off
what follows, and at most a period is left. -/
theorem exists_takeClauses_of_ofLexemes {source : Text} {lexemes : List Lexeme} {rule : Rule}
    (h : ofLexemes source lexemes = .ok rule) :
    ∃ opening body rest, lexemes = opening ++ body ∧
      opening.map Lexeme.kind =
        [.word rule.head, .openParen, .word rule.responseVar, .closeParen, .neck] ∧
      takeClauses source body = .ok (rule.clauses, rest) ∧ dropPeriod rest = [] := by
  simp only [ofLexemes, bind_eq_ok_iff, Prod.exists] at h
  obtain ⟨head, _, hhead, first, _, hopen, var, _, hvar, second, _, hclose, neck, body, hneck,
    h⟩ := h
  obtain ⟨_, _, rfl⟩ := eq_cons_of_takeWord hhead
  obtain ⟨rfl, hfirst⟩ := eq_cons_of_takeKind hopen
  obtain ⟨_, _, rfl⟩ := eq_cons_of_takeWord hvar
  obtain ⟨rfl, hsecond⟩ := eq_cons_of_takeKind hclose
  obtain ⟨rfl, hkind⟩ := eq_cons_of_takeKind hneck
  split_ifs at h with hempty
  · obtain ⟨_, hthrow, -⟩ := bind_eq_ok_iff.1 h
    exact absurd hthrow (by simp [throw, throwThe, MonadExceptOf.throw])
  · obtain ⟨⟨clauses, rest⟩, hclauses, hrule⟩ := bind_eq_ok_iff.1 h
    dsimp only at hrule
    split at hrule
    · next hdrop =>
        obtain rfl := Except.ok.inj hrule
        exact ⟨[_, _, _, _, _], body, rest, rfl, by simp [hfirst, hsecond, hkind], hclauses,
          hdrop⟩
    · exact absurd hrule (by simp [throw, throwThe, MonadExceptOf.throw])

/-- Any rule that is read has clauses, and no semicolon ends them. -/
theorem ended_of_ofLexemes {source : Text} {lexemes : List Lexeme} {rule : Rule}
    (h : ofLexemes source lexemes = .ok rule) : Ended rule.clauses := by
  obtain ⟨_, _, _, -, -, hclauses, -⟩ := exists_takeClauses_of_ofLexemes h
  exact Lexeme.ended_of_takeClauses hclauses

/-- A rule has no more clauses than its text has characters. -/
theorem length_clauses_le {neck text : Text} {lexemes : List Lexeme} {rule : Rule}
    (hlexemes : Lexeme.ofText neck text = .ok lexemes)
    (hrule : ofLexemes text lexemes = .ok rule) : rule.clauses.length ≤ text.length := by
  obtain ⟨_, body, rest, rfl, -, hclauses, -⟩ := exists_takeClauses_of_ofLexemes hrule
  calc rule.clauses.length
      ≤ body.length := Lexeme.length_clauses_le hclauses
    _ ≤ _ := by rw [List.length_append]; exact Nat.le_add_left _ _
    _ ≤ text.length := Lexeme.length_scanFrom_le hlexemes

end Rule

end GradingRule
