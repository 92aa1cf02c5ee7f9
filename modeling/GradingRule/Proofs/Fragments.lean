/-
What fragments are made of: a matcher over one token or two joined ones, perhaps
negated.  So what holds of the tokens of a sequence, and of two texts joined if
it holds of each, holds of all that stands in the matchers.
-/
import GradingRule.Proofs.Coherent

namespace GradingRule.Sequence

theorem exists_term_of_resolve {sequence : Sequence} {id target : TermId} {token : Token}
    (h : sequence.resolve id target = .ok token) :
    ∃ term ∈ sequence.terms, term.token? = some token := by
  rw [resolve] at h
  split at h
  · next found hfound =>
      obtain rfl := Except.ok.inj h
      obtain ⟨term, hget, htoken⟩ := Option.bind_eq_some_iff.1 hfound
      exact ⟨term, List.mem_of_getElem? (get?_eq_some_iff.1 hget).2, htoken⟩
  · exact absurd h (by simp)

section Payload

variable {sequence : Sequence} {p : Text → Prop}
  (htokens : ∀ term ∈ sequence.terms, ∀ token, term.token? = some token → p token.text)
  (hjoint : ∀ (relation : Relation) (left right : Text), p left → p right →
    p (left ++ relation.joint :: right))

include htokens hjoint

theorem exists_payload_of_matcher {term : Term} (hterm : term ∈ sequence.terms) {text : Text}
    (h : sequence.matcher term.id term.body = .ok text) :
    ∃ (form : Form) (payload : Text), p payload ∧ text = Expression.call form.matcher payload := by
  cases hbody : term.body with
  | primary form token =>
      rw [hbody] at h
      exact ⟨form, token.text, htokens term hterm token (by rw [Term.token?, hbody]),
        (Except.ok.inj h).symm⟩
  | pair relation first second =>
      rw [hbody, matcher] at h
      obtain ⟨left, hleft, h⟩ := bind_eq_ok_iff.1 h
      obtain ⟨right, hright, h⟩ := bind_eq_ok_iff.1 h
      obtain ⟨_, hfirst, hleftToken⟩ := exists_term_of_resolve hleft
      obtain ⟨_, hsecond, hrightToken⟩ := exists_term_of_resolve hright
      exact ⟨.word, _, hjoint relation _ _ (htokens _ hfirst _ hleftToken)
        (htokens _ hsecond _ hrightToken), (Except.ok.inj h).symm⟩

theorem exists_payload_of_fragment {term : Term} (hterm : term ∈ sequence.terms) {text : Text}
    (h : sequence.fragment term = .ok text) :
    ∃ (form : Form) (payload : Text), p payload ∧
      (text = Expression.call form.matcher payload ∨
        text = Expression.call Expression.negation (Expression.call form.matcher payload)) := by
  obtain ⟨matcher, hmatcher, h⟩ := bind_eq_ok_iff.1 h
  obtain ⟨form, payload, hpayload, rfl⟩ :=
    exists_payload_of_matcher htokens hjoint hterm hmatcher
  refine ⟨form, payload, hpayload, ?_⟩
  cases hoperator : term.operator with
  | and =>
      rw [hoperator] at h
      exact .inl (Except.ok.inj h).symm
  | or =>
      rw [hoperator] at h
      exact .inl (Except.ok.inj h).symm
  | not =>
      rw [hoperator] at h
      exact .inr (Except.ok.inj h).symm

end Payload

end GradingRule.Sequence
