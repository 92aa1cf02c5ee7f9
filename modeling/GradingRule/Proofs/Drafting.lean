/-
The sequences that drafts go through.  `Draft.Step` says once what an edit can
do, the answer included; every fact about runs goes through it.  A sequence is
reachable exactly when it keeps a few rules of its own: an author can always
get to it by adding its terms in order.
-/
import GradingRule.Draft.Basic
import GradingRule.Proofs.Coherent
import GradingRule.Proofs.Tokens

namespace GradingRule

/-- The edits that ask for a new term. -/
def Edit.adds : Edit → Bool
  | .word .. | .template .. | .relate .. => true
  | .undo | .clear | .preview | .accept => false

/-- The edit that asks for a term like this one. -/
def Term.edit (term : Term) : Edit :=
  match term.body with
  | .primary .word token => .word term.operator token.text
  | .primary .template token => .template (term.operator = .not) token.text
  | .pair relation first second => .relate relation first second

/-- The edit adds a term with this operator and body to the draft. -/
inductive Draft.Takes (draft : Draft) : Edit → Operator → Body → Prop
  | word {operator : Operator} {raw : Text} {token : Token} :
      Token.word raw = .ok token →
      draft.sequence.tokenCount < draft.limits.maxPrimary →
      draft.Takes (.word operator raw) operator (.primary .word token)
  | template {negated : Bool} {raw : Text} {token : Token} :
      Token.template raw = .ok token →
      draft.sequence.tokenCount < draft.limits.maxPrimary →
      draft.Takes (.template negated raw) (if negated then .not else .and)
        (.primary .template token)
  | relate {relation : Relation} {first second : TermId} :
      first ≠ second → draft.sequence.HasToken first → draft.sequence.HasToken second →
      draft.Takes (.relate relation first second) .and (.pair relation first second)

/-- Everything that an edit can do to a draft, with its answer. -/
inductive Draft.Step (draft : Draft) : Edit → Draft → Option (Except Failure Text) → Prop
  | refused {edit : Edit} (cause : Rejection) :
      edit.adds = true →
      draft.Step edit draft (some (.error (.rejected cause)))
  | added {edit : Edit} {operator : Operator} {body : Body} :
      draft.Takes edit operator body →
      draft.Step edit { draft with sequence := draft.sequence.push operator body }
        (some (Draft.preview { draft with sequence := draft.sequence.push operator body }))
  | nothingUndone :
      draft.sequence.pop? = none →
      draft.Step .undo draft (some (.error (.rejected .nothingToUndo)))
  | undone {term : Term} {sequence : Sequence} :
      draft.sequence.pop? = some (term, sequence) →
      draft.Step .undo { draft with sequence }
        (some (Draft.preview { draft with sequence }))
  | cleared : draft.Step .clear draft.clear none
  | previewed : draft.Step .preview draft (some draft.preview)
  | accepted {expression : Text} :
      draft.preview = .ok expression →
      draft.Step .accept draft.clear (some (.ok expression))
  | kept {fault : Failure} :
      draft.preview = .error fault →
      draft.Step .accept draft (some (.error fault))

namespace Draft

theorem targetRejection?_eq_none_iff {draft : Draft} {id : TermId} :
    draft.targetRejection? id = none ↔ draft.sequence.HasToken id := by
  rw [targetRejection?, Sequence.hasToken_iff_get?]
  cases draft.sequence.get? id with
  | none => simp
  | some term => simp

theorem pairRejection?_eq_none_iff {draft : Draft} {first second : TermId} :
    draft.pairRejection? first second = none ↔
      first ≠ second ∧ draft.sequence.HasToken first ∧ draft.sequence.HasToken second := by
  rw [pairRejection?]
  by_cases heq : first = second
  · simp [heq]
  · rw [if_neg heq, List.findSome?_eq_none_iff]
    simp [heq, targetRejection?_eq_none_iff]

/-- An addition that the draft takes is carried out. -/
theorem apply_of_takes {draft : Draft} {edit : Edit} {operator : Operator} {body : Body}
    (h : draft.Takes edit operator body) :
    draft.apply edit =
      ({ draft with sequence := draft.sequence.push operator body },
        some (preview { draft with sequence := draft.sequence.push operator body })) := by
  cases h with
  | word htoken hcount =>
      simp only [apply, addPrimary, Form.token, htoken, Sequence.primaryCount_eq_tokenCount,
        if_neg (Nat.not_le.2 hcount), revise, Prod.map_apply, id]
  | template htoken hcount =>
      simp only [apply, addPrimary, Form.token, htoken, Sequence.primaryCount_eq_tokenCount,
        if_neg (Nat.not_le.2 hcount), revise, Prod.map_apply, id]
  | relate hne hfirst hsecond =>
      simp only [apply, relate, pairRejection?_eq_none_iff.2 ⟨hne, hfirst, hsecond⟩, revise,
        Prod.map_apply, id]

/-- Words and templates are refused or taken. -/
theorem refuse_or_takes_of_addPrimary (draft : Draft) (form : Form) (operator : Operator)
    (raw : Text) :
    (∃ cause, draft.addPrimary form operator raw = draft.refuse cause) ∨
      ∃ token, form.token raw = .ok token ∧
        draft.sequence.tokenCount < draft.limits.maxPrimary := by
  rw [addPrimary, Sequence.primaryCount_eq_tokenCount]
  cases form.token raw with
  | error fault => exact .inl ⟨_, rfl⟩
  | ok token =>
      by_cases hfull : draft.limits.maxPrimary ≤ draft.sequence.tokenCount
      · exact .inl ⟨_, if_pos hfull⟩
      · exact .inr ⟨token, rfl, Nat.lt_of_not_le hfull⟩

theorem step_of_takes {draft : Draft} {edit : Edit} {operator : Operator} {body : Body}
    (h : draft.Takes edit operator body) :
    draft.Step edit (draft.apply edit).1 (draft.apply edit).2 := by
  rw [apply_of_takes h]
  exact .added h

/-- Every edit makes one of the steps. -/
theorem step_apply (draft : Draft) (edit : Edit) :
    draft.Step edit (draft.apply edit).1 (draft.apply edit).2 := by
  cases edit with
  | word operator raw =>
      rcases draft.refuse_or_takes_of_addPrimary .word operator raw with
        ⟨cause, hcause⟩ | ⟨token, htoken, hcount⟩
      · rw [apply, hcause]
        exact .refused cause rfl
      · exact step_of_takes (.word htoken hcount)
  | template negated raw =>
      rcases draft.refuse_or_takes_of_addPrimary .template
          (if negated then .not else .and) raw with
        ⟨cause, hcause⟩ | ⟨token, htoken, hcount⟩
      · rw [apply, hcause]
        exact .refused cause rfl
      · exact step_of_takes (.template htoken hcount)
  | relate relation first second =>
      cases hpair : draft.pairRejection? first second with
      | some cause =>
          rw [apply, relate, hpair]
          exact .refused cause rfl
      | none =>
          obtain ⟨hne, hfirst, hsecond⟩ := pairRejection?_eq_none_iff.1 hpair
          exact step_of_takes (.relate hne hfirst hsecond)
  | undo =>
      rw [apply, undo]
      cases hpop : draft.sequence.pop? with
      | none => exact .nothingUndone hpop
      | some popped => exact .undone hpop
  | clear => exact .cleared
  | preview => exact .previewed
  | accept =>
      rw [apply, accept]
      cases hpreview : draft.preview with
      | ok expression => exact .accepted hpreview
      | error fault => exact .kept hpreview

/-- What a step answers, if anything: a refusal or the preview of the draft after
it.  Only an accepted expression is that of the draft before. -/
theorem Step.answer_cases {draft next : Draft} {edit : Edit}
    {answer : Option (Except Failure Text)} (h : draft.Step edit next answer) :
    answer = none ∨ (∃ cause, answer = some (.error (.rejected cause))) ∨
      answer = some next.preview ∨
      ∃ expression, draft.preview = .ok expression ∧ answer = some (.ok expression) := by
  cases h with
  | refused cause hadds => exact .inr (.inl ⟨cause, rfl⟩)
  | added htakes => exact .inr (.inr (.inl rfl))
  | nothingUndone hpop => exact .inr (.inl ⟨_, rfl⟩)
  | undone hpop => exact .inr (.inr (.inl rfl))
  | cleared => exact .inl rfl
  | previewed => exact .inr (.inr (.inl rfl))
  | accepted hpreview => exact .inr (.inr (.inr ⟨_, hpreview, rfl⟩))
  | kept hpreview => exact .inr (.inr (.inl (by rw [hpreview])))

theorem run_append_singleton (draft : Draft) (edits : List Edit) (edit : Edit) :
    draft.run (edits ++ [edit]) = ((draft.run edits).apply edit).1 := by
  rw [run, run, List.foldl_append]
  rfl

/-- What the edits answer, one after the other. -/
def answers (draft : Draft) : List Edit → List (Option (Except Failure Text))
  | [] => []
  | edit :: rest => (draft.apply edit).2 :: (draft.apply edit).1.answers rest

theorem answers_append_singleton (draft : Draft) (edits : List Edit) (edit : Edit) :
    draft.answers (edits ++ [edit]) =
      draft.answers edits ++ [((draft.run edits).apply edit).2] := by
  induction edits generalizing draft with
  | nil => rfl
  | cons first rest ih => exact congrArg (List.cons _) (ih _)

/-- No draft on the way, the last included, has more terms than there are ids. -/
def StaysInRange (draft : Draft) (edits : List Edit) : Prop :=
  ∀ made, made <+: edits → (draft.run made).sequence.size < UInt32.size

theorem StaysInRange.of_append {draft : Draft} {edits more : List Edit}
    (h : draft.StaysInRange (edits ++ more)) : draft.StaysInRange edits :=
  fun made hmade => h made (hmade.trans (List.prefix_append edits more))

end Draft

/-- A term of a draft, apart from its place: its token is in normal form, and a
template ends in a star and is no alternative. -/
structure Term.Draftable (term : Term) : Prop where
  proper : ∀ form token, term.body = .primary form token → token.Proper
  starred : ∀ token, term.body = .primary .template token →
    token.text.getLast? = some '*' ∧ (term.operator = .and ∨ term.operator = .not)

/-- What the sequence of a draft keeps: its terms hang together, each may be in a
draft, and at most `maxPrimary` of them are words or templates. -/
structure Sequence.Draftable (limits : Limits) (sequence : Sequence) : Prop where
  coherent : sequence.Coherent
  terms : ∀ term ∈ sequence.terms, term.Draftable
  tokenCount_le : sequence.tokenCount ≤ limits.maxPrimary

namespace Sequence

theorem pop?_eq_some_iff {sequence rest : Sequence} {term : Term} :
    sequence.pop? = some (term, rest) ↔ sequence.terms = rest.terms ++ [term] := by
  obtain ⟨terms⟩ := sequence
  obtain ⟨others⟩ := rest
  rcases List.eq_nil_or_concat terms with rfl | ⟨front, last, rfl⟩
  · simp [pop?]
  · rw [List.concat_eq_append, List.append_singleton_inj]
    simp [pop?, and_comm]

theorem draftable_empty (limits : Limits) : empty.Draftable limits :=
  ⟨coherent_empty, by simp [empty], Nat.zero_le _⟩

theorem Draftable.of_append_singleton {limits : Limits} {terms : List Term} {term : Term}
    (h : (⟨terms ++ [term]⟩ : Sequence).Draftable limits) :
    (⟨terms⟩ : Sequence).Draftable limits := by
  refine ⟨(coherent_append_singleton_iff.1 h.coherent).1, ?_, ?_⟩
  · intro other hother
    exact h.terms other (List.mem_append_left _ hother)
  · have hle := h.tokenCount_le
    rw [tokenCount, List.countP_append] at hle
    exact Nat.le_trans (Nat.le_add_right _ _) hle

/-- A term that a draft takes keeps its sequence draftable. -/
theorem Draftable.push_of_takes {draft : Draft} {edit : Edit} {operator : Operator}
    {body : Body} (h : draft.sequence.Draftable draft.limits)
    (htakes : draft.Takes edit operator body) (hsize : draft.sequence.size + 1 < UInt32.size) :
    (draft.sequence.push operator body).Draftable draft.limits := by
  have hterms : (Term.mk draft.sequence.nextId operator body).Draftable →
      ∀ term ∈ (draft.sequence.push operator body).terms, term.Draftable :=
    forall_mem_push h.terms
  have hproper : ∀ form token, body = .primary form token → token.Proper :=
    fun _ token _ => token.proper
  cases htakes with
  | word htoken hcount =>
      refine ⟨h.coherent.push_primary hsize _ _ _, hterms ⟨hproper, by simp⟩, ?_⟩
      rw [tokenCount_push]
      exact hcount
  | @template negated raw token htoken hcount =>
      refine ⟨h.coherent.push_primary hsize _ _ _, hterms ⟨hproper, ?_⟩, ?_⟩
      · intro other hother
        obtain rfl : token = other := by simpa using hother
        refine ⟨Token.isTemplate_iff.1 (Token.isTemplate_of_template htoken), ?_⟩
        cases negated <;> simp
      · rw [tokenCount_push]
        exact hcount
  | relate hne hfirst hsecond =>
      refine ⟨h.coherent.push_pair hsize _ hne hfirst hsecond, hterms ⟨hproper, by simp⟩, ?_⟩
      rw [tokenCount_push]
      exact h.tokenCount_le

end Sequence

namespace Draft

theorem Step.limits_eq {draft next : Draft} {edit : Edit}
    {answer : Option (Except Failure Text)} (h : draft.Step edit next answer) :
    next.limits = draft.limits := by
  cases h <;> rfl

/-- What holds of all terms of a draft holds after a step if it holds of what the
step adds. -/
theorem Step.forall_mem {draft next : Draft} {edit : Edit}
    {answer : Option (Except Failure Text)} (h : draft.Step edit next answer)
    {p : Term → Prop} (hold : ∀ term ∈ draft.sequence.terms, p term)
    (hnew : ∀ operator body, draft.Takes edit operator body →
      p ⟨draft.sequence.nextId, operator, body⟩) :
    ∀ term ∈ next.sequence.terms, p term := by
  cases h with
  | refused cause hadds => exact hold
  | added htakes => exact Sequence.forall_mem_push hold (hnew _ _ htakes)
  | nothingUndone hpop => exact hold
  | undone hpop =>
      have hterms := Sequence.pop?_eq_some_iff.1 hpop
      intro term hterm
      exact hold term (by rw [hterms]; exact List.mem_append_left _ hterm)
  | cleared => exact fun term hterm => absurd hterm (List.not_mem_nil)
  | previewed => exact hold
  | accepted hpreview => exact fun term hterm => absurd hterm (List.not_mem_nil)
  | kept hpreview => exact hold

/-- Draftable sequences are kept by every step. -/
theorem Step.draftable {draft next : Draft} {edit : Edit}
    {answer : Option (Except Failure Text)} (h : draft.Step edit next answer)
    (hdraft : draft.sequence.Draftable draft.limits)
    (hsize : next.sequence.size < UInt32.size) :
    next.sequence.Draftable next.limits := by
  cases h with
  | refused cause hadds => exact hdraft
  | nothingUndone hpop => exact hdraft
  | added htakes =>
      rw [Sequence.size_push] at hsize
      exact hdraft.push_of_takes htakes hsize
  | undone hpop =>
      have hterms := Sequence.pop?_eq_some_iff.1 hpop
      apply Sequence.Draftable.of_append_singleton
      rw [← hterms]
      exact hdraft
  | cleared => exact Sequence.draftable_empty _
  | previewed => exact hdraft
  | accepted hpreview => exact Sequence.draftable_empty _
  | kept hpreview => exact hdraft

theorem run_draftable {draft : Draft} {edits : List Edit}
    (hdraft : draft.sequence.Draftable draft.limits) (hrange : draft.StaysInRange edits) :
    (draft.run edits).limits = draft.limits ∧
      (draft.run edits).sequence.Draftable (draft.run edits).limits := by
  induction edits using List.reverseRecOn with
  | nil => exact ⟨rfl, hdraft⟩
  | append_singleton front last ih =>
      obtain ⟨hlimits, hfront⟩ := ih hrange.of_append
      have hsize := hrange _ (List.prefix_refl _)
      rw [run_append_singleton] at hsize ⊢
      have hstep := (draft.run front).step_apply last
      exact ⟨hstep.limits_eq.trans hlimits, hstep.draftable hfront hsize⟩

/-- The last term of a draftable sequence is taken after the others.  The text of
a token makes the same token, so nothing is escaped or starred twice. -/
theorem takes_edit_of_draftable_push {draft : Draft} {operator : Operator} {body : Body}
    (h : (draft.sequence.push operator body).Draftable draft.limits) :
    draft.Takes (Term.edit ⟨draft.sequence.nextId, operator, body⟩) operator body := by
  have hlast := h.terms ⟨draft.sequence.nextId, operator, body⟩ (by simp)
  have hcount := h.tokenCount_le
  rw [Sequence.tokenCount_push] at hcount
  cases body with
  | primary form token =>
      cases form with
      | word => exact .word token.word_text hcount
      | template =>
          obtain ⟨hstar, hop⟩ := hlast.starred token rfl
          have htoken := Token.template_text (Token.isTemplate_iff.2 hstar)
          rcases hop with hop | hop
          · obtain rfl : operator = .and := hop
            exact .template htoken hcount
          · obtain rfl : operator = .not := hop
            exact .template htoken hcount
  | pair relation first second =>
      obtain ⟨rfl, hne, hfirst, hsecond⟩ := h.coherent.of_push_pair
      exact .relate hne hfirst hsecond

/-- Adding the terms of a draftable sequence in order leads to it. -/
theorem run_map_edit_of_draftable (session : SessionId) {limits : Limits}
    {sequence : Sequence} (h : sequence.Draftable limits) :
    (start session limits).StaysInRange (sequence.terms.map Term.edit) ∧
      (start session limits).run (sequence.terms.map Term.edit) =
        ⟨session, limits, sequence⟩ := by
  refine Sequence.Coherent.pushInduction
    (motive := fun sequence => sequence.Draftable limits →
      (start session limits).StaysInRange (sequence.terms.map Term.edit) ∧
        (start session limits).run (sequence.terms.map Term.edit) =
          ⟨session, limits, sequence⟩)
    ?_ ?_ h.coherent h
  · intro _
    refine ⟨?_, rfl⟩
    intro made hmade
    rw [List.prefix_nil.1 hmade]
    exact (by decide : 0 < UInt32.size)
  · intro sequence operator body hcoherent ih h
    obtain ⟨hrange, hrun⟩ := ih h.of_append_singleton
    let draft : Draft := ⟨session, limits, sequence⟩
    have htakes : draft.Takes (Term.edit ⟨sequence.nextId, operator, body⟩) operator body :=
      takes_edit_of_draftable_push h
    have hall : (start session limits).run ((sequence.push operator body).terms.map Term.edit) =
        ⟨session, limits, sequence.push operator body⟩ := by
      rw [Sequence.terms_push, List.map_append, List.map_singleton, run_append_singleton, hrun,
        apply_of_takes htakes]
    refine ⟨?_, hall⟩
    intro made hmade
    rw [Sequence.terms_push, List.map_append, List.map_singleton] at hmade
    rcases List.prefix_concat_iff.1 hmade with rfl | hfront
    · rw [← List.map_singleton, ← List.map_append, ← Sequence.terms_push, hall]
      exact hcoherent.size_lt
    · exact hrange made hfront

theorem exists_run_of_draftable (session : SessionId) {limits : Limits} {sequence : Sequence}
    (h : sequence.Draftable limits) :
    ∃ edits, (start session limits).StaysInRange edits ∧
      (start session limits).run edits = ⟨session, limits, sequence⟩ :=
  ⟨_, run_map_edit_of_draftable session h⟩

/-- A new draft can be brought to a sequence exactly when the sequence is
draftable. -/
theorem exists_run_eq_iff_draftable (session : SessionId) (limits : Limits)
    (sequence : Sequence) :
    (∃ edits, (start session limits).StaysInRange edits ∧
        ((start session limits).run edits).sequence = sequence) ↔
      sequence.Draftable limits := by
  constructor
  · rintro ⟨edits, hrange, rfl⟩
    obtain ⟨hlimits, hdraft⟩ := run_draftable (Sequence.draftable_empty limits) hrange
    rw [hlimits] at hdraft
    exact hdraft
  · intro h
    obtain ⟨edits, hrange, hrun⟩ := exists_run_of_draftable session h
    exact ⟨edits, hrange, by rw [hrun]⟩

end Draft

end GradingRule
