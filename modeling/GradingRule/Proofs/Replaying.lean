/-
The two ways to a rule agree.  The terms that a rule decodes to can be added to a
new draft one after the other: the draft takes each of them, ends with the decoded
sequence, and answers the last addition as the rule is answered.
-/
import GradingRule.Proofs.Outcomes
import GradingRule.Proofs.Undoing

namespace GradingRule

namespace Sequence

/-- What clauses make can be made by an author, if there is room for it and no
template is an alternative. -/
theorem Clausal.draftable {sequence : Sequence} (h : sequence.Clausal) {limits : Limits}
    (htemplates : ∀ term ∈ sequence.terms, term.body.kind = .primary .template →
      term.operator ≠ .or)
    (hcount : sequence.tokenCount ≤ limits.maxPrimary) : sequence.Draftable limits := by
  refine ⟨h.coherent, fun term hterm => ⟨(h.terms term hterm).proper, ?_⟩, hcount⟩
  intro token htoken
  refine ⟨(h.terms term hterm).starred token htoken, ?_⟩
  have hno := htemplates term hterm (by rw [htoken]; rfl)
  cases hop : term.operator with
  | and => exact .inl rfl
  | or => exact absurd hop hno
  | not => exact .inr rfl

end Sequence

namespace Draft

/-- The last term of a draftable sequence is answered with the preview of all. -/
theorem answers_map_edit_push (session : SessionId) {limits : Limits} {sequence : Sequence}
    {operator : Operator} {body : Body}
    (h : (sequence.push operator body).Draftable limits) :
    (start session limits).answers ((sequence.push operator body).terms.map Term.edit) =
      (start session limits).answers (sequence.terms.map Term.edit) ++
        [some (preview ⟨session, limits, sequence.push operator body⟩)] := by
  have hrun := (run_map_edit_of_draftable session h.of_append_singleton).2
  have htakes : Takes ⟨session, limits, sequence⟩
      (Term.edit ⟨sequence.nextId, operator, body⟩) operator body :=
    takes_edit_of_draftable_push h
  rw [Sequence.terms_push, List.map_append, List.map_singleton, answers_append_singleton,
    hrun, apply_of_takes htakes]

/-- No term of a draftable sequence is refused. -/
theorem exists_preview_of_mem_answers_map_edit (session : SessionId) {limits : Limits}
    {sequence : Sequence} (h : sequence.Draftable limits) :
    ∀ answer ∈ (start session limits).answers (sequence.terms.map Term.edit),
      ∃ draft : Draft, answer = some draft.preview := by
  refine Sequence.Coherent.pushInduction
    (motive := fun sequence => sequence.Draftable limits →
      ∀ answer ∈ (start session limits).answers (sequence.terms.map Term.edit),
        ∃ draft : Draft, answer = some draft.preview)
    ?_ ?_ h.coherent h
  · intro _ answer hanswer
    exact absurd hanswer List.not_mem_nil
  · intro sequence operator body _ ih h answer hanswer
    rw [answers_map_edit_push session h] at hanswer
    rcases List.mem_append.1 hanswer with hfront | hlast
    · exact ih h.of_append_singleton answer hfront
    · exact ⟨_, List.mem_singleton.1 hlast⟩

theorem getLast?_answers_map_edit (session : SessionId) {limits : Limits}
    {sequence : Sequence} (h : sequence.Draftable limits) (hne : sequence.terms ≠ []) :
    ((start session limits).answers (sequence.terms.map Term.edit)).getLast? =
      some (some (preview ⟨session, limits, sequence⟩)) := by
  refine Sequence.Coherent.pushInduction
    (motive := fun sequence => sequence.Draftable limits → sequence.terms ≠ [] →
      ((start session limits).answers (sequence.terms.map Term.edit)).getLast? =
        some (some (preview ⟨session, limits, sequence⟩)))
    ?_ ?_ h.coherent h hne
  · intro _ hempty
    exact absurd rfl hempty
  · intro sequence operator body _ _ h _
    rw [answers_map_edit_push session h, List.getLast?_append]
    rfl

end Draft

namespace Dialect

/-- Only the text for no rule decodes to the empty sequence. -/
theorem exists_decodes_of_decode {dialect : Dialect} {text : Text} {sequence : Sequence}
    (h : dialect.decode text = .ok sequence) (hne : sequence.terms ≠ []) :
    ∃ rule, dialect.Decodes text rule sequence := by
  rcases dialect.isEmptyRule_or_faulty_or_decodes text with
    hrule | ⟨-, fault, hfault⟩ | ⟨rule, made, hdecodes⟩
  · rw [decode, if_pos hrule] at h
    obtain rfl := Except.ok.inj h
    exact absurd rfl hne
  · rw [hfault] at h
    exact absurd h (by simp)
  · obtain rfl := Except.ok.inj (hdecodes.decode.symm.trans h)
    exact ⟨rule, hdecodes⟩

/-- The terms of a decoded rule, added to a new draft in order, are all taken, even
if there is no expression on the way.  They lead to the decoded sequence, and the
last answer is that of the rule: its expression or too many disjunctions. -/
theorem replay_of_decode (dialect : Dialect) (text : Text) (sequence : Sequence)
    (session : SessionId) (limits : Limits)
    (hlength : ∀ rule, dialect.parse text = .ok rule → rule.clauses.length < UInt32.size)
    (hdecode : dialect.decode text = .ok sequence) (hne : sequence.terms ≠ [])
    (htemplates : ∀ term ∈ sequence.terms, term.body.kind = .primary .template →
      term.operator ≠ .or)
    (hcount : sequence.tokenCount ≤ limits.maxPrimary) :
    (∀ answer ∈ (Draft.start session limits).answers (sequence.terms.map Term.edit),
        (∃ expression, answer = some (.ok expression)) ∨
          ∃ fault, answer = some (.error (.sequence fault))) ∧
      ((Draft.start session limits).run (sequence.terms.map Term.edit)).sequence =
        sequence ∧
      ∃ answer,
        ((Draft.start session limits).answers (sequence.terms.map Term.edit)).getLast? =
            some (some answer) ∧
          dialect.expression text = answer.map some ∧
          ((∃ expression, answer = .ok expression) ∨
            ∃ count, answer = .error (.sequence (.tooManyDisjunctions count 2))) := by
  obtain ⟨rule, hdecodes⟩ := exists_decodes_of_decode hdecode hne
  have hspellable := hdecodes.spellable (hlength rule hdecodes.parse)
  have hdraftable : sequence.Draftable limits :=
    hspellable.draftable htemplates hcount
  refine ⟨?_, ?_, _, Draft.getLast?_answers_map_edit session hdraftable hne, ?_, ?_⟩
  · intro answer hanswer
    obtain ⟨draft, rfl⟩ :=
      Draft.exists_preview_of_mem_answers_map_edit session hdraftable answer hanswer
    rcases draft.preview_eq_ok_or_sequence_fault with ⟨expression, h⟩ | ⟨fault, h⟩
    · exact .inl ⟨expression, congrArg some h⟩
    · exact .inr ⟨fault, congrArg some h⟩
  · rw [(Draft.run_map_edit_of_draftable session hdraftable).2]
  · exact expression_of_decode_eq_ok hdecodes.isEmptyRule hdecode
  · rcases Nat.lt_or_ge maxDisjunctions (sequence.tagCount .or) with hmany | hfew
    · exact .inr ⟨_, Draft.preview_eq_tooManyDisjunctions hspellable.coherent hmany⟩
    · exact .inl ((Draft.exists_preview_eq_ok_iff hspellable.coherent).2 hfew)

end Dialect

namespace ReplayingWitness

/-- An underscore, a negated template and a relation between the two. -/
def text : Text :=
  "correct_response(A) :- term(A,big_ben); not template(A,bell), closely_precedes(A,B,C).".toList

def sequence : Sequence :=
  ((Sequence.empty.push .and (.primary .word (.ofText "big\\_ben".toList (by decide)))).push
    .not (.primary .template (.ofText "bell*".toList (by decide)))).push
    .and (.pair .closelyPrecedes (.atPlace 1) (.atPlace 2))

def answers : List (Option (Except Failure Text)) :=
  (Draft.start ⟨7⟩ ⟨2⟩).answers (sequence.terms.map Term.edit)

/-- The draft has room for no other word. -/
theorem replay_of_decode_full :
    (∀ rule, ({} : Dialect).parse text = .ok rule → rule.clauses.length < UInt32.size) ∧
      ({} : Dialect).decode text = .ok sequence ∧ sequence.terms ≠ [] ∧
      (∀ term ∈ sequence.terms, term.body.kind = .primary .template →
        term.operator ≠ .or) ∧
      sequence.tokenCount ≤ 2 ∧
      ((Draft.start ⟨7⟩ ⟨2⟩).run (sequence.terms.map Term.edit)).sequence = sequence ∧
      ∃ answer, answers.getLast? = some (some answer) ∧
        ({} : Dialect).expression text = answer.map some := by
  have hlength : ∀ rule, ({} : Dialect).parse text = .ok rule →
      rule.clauses.length < UInt32.size :=
    Dialect.length_clauses_lt_of_parse (by decide)
  have hdecode : ({} : Dialect).decode text = .ok sequence := by decide +kernel
  have hne : sequence.terms ≠ [] := by decide
  have htemplates : ∀ term ∈ sequence.terms, term.body.kind = .primary .template →
      term.operator ≠ .or := by
    decide
  have hcount : sequence.tokenCount ≤ 2 := by decide
  have h := Dialect.replay_of_decode {} text sequence ⟨7⟩ ⟨2⟩ hlength hdecode hne htemplates
    hcount
  obtain ⟨answer, hlast, hexpression, -⟩ := h.2.2
  exact ⟨hlength, hdecode, hne, htemplates, hcount, h.2.1, answer, hlast, hexpression⟩

end ReplayingWitness

end GradingRule
