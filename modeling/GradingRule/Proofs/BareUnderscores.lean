/-
Bare underscores in matchers.  An underscore of a token stands right after a
backslash, so a bare one should mark the joint of a close relation.  It does, and
nothing else is bare, but the joint itself looks escaped if the first of the two
tokens ends in a backslash: the relation then reads like a single word.
-/
import GradingRule.Proofs.Coherent
import GradingRule.Proofs.Tokens

namespace GradingRule

namespace Text

/-- Between these two parts the text has an underscore that does not stand right
after a backslash. -/
def BareAt (text before after : Text) : Prop :=
  text = before ++ '_' :: after ∧ before.getLast? ≠ some '\\'

theorem Escaped.not_bareAt {text : Text} (h : Escaped text) (before after : Text) :
    ¬text.BareAt before after :=
  fun ⟨heq, hlast⟩ => hlast (escaped_iff.1 h before after heq)

theorem escaped_of_forall_not_bareAt {text : Text}
    (h : ∀ before after, ¬text.BareAt before after) : Escaped text :=
  escaped_iff.2 fun before after heq => not_not.1 fun hlast => h before after ⟨heq, hlast⟩

/-- Where escaped texts are joined, only the joint can be bare. -/
theorem bareAt_join_iff {left right before after : Text} {joint : Char}
    (hleft : Escaped left) (hright : Escaped right) :
    (left ++ joint :: right).BareAt before after ↔
      joint = '_' ∧ before = left ∧ after = right ∧ left.getLast? ≠ some '\\' := by
  constructor
  · rintro ⟨heq, hlast⟩
    rcases List.append_eq_append_iff.1 heq with ⟨middle, rfl, hrest⟩ | ⟨middle, rfl, hrest⟩
    · cases middle with
      | nil =>
          obtain ⟨rfl, rfl⟩ := List.cons.inj hrest
          exact ⟨rfl, List.append_nil _, rfl, by simpa using hlast⟩
      | cons c middle =>
          -- The underscore is one of the right part, and so not its first character.
          obtain ⟨rfl, rfl⟩ := List.cons.inj hrest
          have hescaped := escaped_iff.1 hright middle after rfl
          simp [List.getLast?_append, List.getLast?_cons, hescaped] at hlast
    · cases middle with
      | nil =>
          obtain ⟨rfl, rfl⟩ := List.cons.inj hrest
          exact ⟨rfl, (List.append_nil _).symm, rfl, by simpa using hlast⟩
      | cons c middle =>
          obtain ⟨rfl, -⟩ := List.cons.inj hrest
          exact absurd (escaped_iff.1 hleft before middle rfl) hlast
  · rintro ⟨rfl, rfl, rfl, hlast⟩
    exact ⟨rfl, hlast⟩

end Text

namespace Expression

theorem call_inj {name payload shown : Text} (h : call name payload = call name shown) :
    payload = shown := by
  have hrest := List.append_cancel_left h
  exact List.append_cancel_right (List.cons.inj hrest).2

theorem call_word_ne_call_template (payload shown : Text) :
    call Form.word.matcher payload ≠ call Form.template.matcher shown := by
  intro h
  -- The names part at the eighth character, where the shorter one is over.
  have hword : (call Form.word.matcher payload)[7]? = some '(' := rfl
  have htemplate : (call Form.template.matcher shown)[7]? = some 'm' := rfl
  rw [h, htemplate] at hword
  exact absurd hword (by decide)

theorem call_matcher_ne_call_negation (form : Form) (payload matcher : Text) :
    call form.matcher payload ≠ call negation matcher := by
  intro h
  have hmatcher : (call form.matcher payload)[0]? = some 'm' := by cases form <;> rfl
  have hnegation : (call negation matcher)[0]? = some 'n' := rfl
  rw [h, hnegation] at hmatcher
  exact absurd hmatcher (by decide)

/-- A matcher has one form and one payload. -/
theorem call_matcher_inj {form other : Form} {payload shown : Text}
    (h : call form.matcher payload = call other.matcher shown) :
    form = other ∧ payload = shown := by
  cases form with
  | word =>
      cases other with
      | word => exact ⟨rfl, call_inj h⟩
      | template => exact absurd h (call_word_ne_call_template payload shown)
  | template =>
      cases other with
      | word => exact absurd h.symm (call_word_ne_call_template shown payload)
      | template => exact ⟨rfl, call_inj h⟩

end Expression

namespace Sequence

/-- The fragment of the term is a matcher around the payload, negated if the term
is. -/
def Shows (sequence : Sequence) (term : Term) (form : Form) (payload : Text) : Prop :=
  sequence.fragment term =
    .ok (match term.operator with
      | .not => Expression.call Expression.negation (Expression.call form.matcher payload)
      | .and | .or => Expression.call form.matcher payload)

/-- The term asks for these two tokens close to each other. -/
def Joins (sequence : Sequence) (term : Term) (left right : Token) : Prop :=
  ∃ first second, term.body = .pair .closelyPrecedes first second ∧
    sequence.resolve term.id first = .ok left ∧ sequence.resolve term.id second = .ok right

theorem shows_of_matcher {sequence : Sequence} {term : Term} {form : Form} {payload : Text}
    (h : sequence.matcher term.id term.body = .ok (Expression.call form.matcher payload)) :
    sequence.Shows term form payload := by
  rw [Shows, fragment, h]
  cases term.operator <;> rfl

/-- A fragment shows one payload only. -/
theorem Shows.unique {sequence : Sequence} {term : Term} {form other : Form}
    {payload shown : Text} (h : sequence.Shows term form payload)
    (hother : sequence.Shows term other shown) : form = other ∧ payload = shown := by
  have heq := Except.ok.inj (h.symm.trans hother)
  cases hoperator : term.operator with
  | and => exact Expression.call_matcher_inj (by simpa only [hoperator] using heq)
  | or => exact Expression.call_matcher_inj (by simpa only [hoperator] using heq)
  | not =>
      simp only [hoperator] at heq
      exact Expression.call_matcher_inj (Expression.call_inj heq)

/-- The terms of a coherent sequence show a token, or two with a joint between. -/
theorem Coherent.exists_shows {sequence : Sequence} (h : sequence.Coherent) {term : Term}
    (hterm : term ∈ sequence.terms) :
    (∃ form token, term.body = .primary form token ∧ sequence.Shows term form token.text) ∨
      ∃ relation first second left right, term.body = .pair relation first second ∧
        sequence.resolve term.id first = .ok left ∧
        sequence.resolve term.id second = .ok right ∧ term.operator = .and ∧
        sequence.Shows term .word (left.text ++ relation.joint :: right.text) := by
  obtain ⟨index, hindex⟩ := List.getElem?_of_mem hterm
  cases hbody : term.body with
  | primary form token =>
      exact .inl ⟨form, token, rfl, shows_of_matcher (by rw [hbody, matcher])⟩
  | pair relation first second =>
      obtain ⟨hoperator, -, hfirst, hsecond⟩ :=
        (h index term hindex).related relation first second hbody
      obtain ⟨left, hleft⟩ := hfirst.exists_resolve_eq_ok
      obtain ⟨right, hright⟩ := hsecond.exists_resolve_eq_ok
      refine .inr ⟨relation, first, second, left, right, rfl, hleft, hright, hoperator,
        shows_of_matcher ?_⟩
      rw [hbody, matcher, hleft, hright]
      rfl

theorem Joins.unique {sequence : Sequence} {term : Term} {left right other next : Token}
    (h : sequence.Joins term left right) (hother : sequence.Joins term other next) :
    left = other ∧ right = next := by
  obtain ⟨first, second, hbody, hleft, hright⟩ := h
  obtain ⟨_, _, hsame, hfirst, hsecond⟩ := hother
  obtain ⟨-, rfl, rfl⟩ := Body.pair.inj (hbody.symm.trans hsame)
  exact ⟨Except.ok.inj (hleft.symm.trans hfirst), Except.ok.inj (hright.symm.trans hsecond)⟩

/-- Every term of a coherent sequence has a payload, and what is bare in it is the
joint of a close relation. -/
theorem Coherent.exists_shows_bareAt_iff {sequence : Sequence} (h : sequence.Coherent)
    {term : Term} (hterm : term ∈ sequence.terms) :
    ∃ form payload, sequence.Shows term form payload ∧
      ∀ before after, payload.BareAt before after ↔
        ∃ left right, sequence.Joins term left right ∧ before = left.text ∧
          after = right.text ∧ left.text.getLast? ≠ some '\\' := by
  rcases h.exists_shows hterm with ⟨form, token, hbody, hshows⟩ |
    ⟨relation, first, second, left, right, hbody, hleft, hright, -, hshows⟩
  · refine ⟨form, token.text, hshows, fun before after => ?_⟩
    refine iff_of_false (token.escaped.not_bareAt before after) ?_
    rintro ⟨_, _, ⟨first, second, hpair, -⟩, -⟩
    exact absurd (hbody.symm.trans hpair) (by simp)
  · refine ⟨.word, _, hshows, fun before after => ?_⟩
    rw [Text.bareAt_join_iff left.escaped right.escaped]
    constructor
    · rintro ⟨hjoint, rfl, rfl, hlast⟩
      cases relation with
      | precedes => exact absurd hjoint (by decide)
      | closelyPrecedes =>
          exact ⟨left, right, ⟨first, second, hbody, hleft, hright⟩, rfl, rfl, hlast⟩
    · rintro ⟨_, _, hjoins, rfl, rfl, hlast⟩
      obtain rfl : relation = .closelyPrecedes := by
        obtain ⟨_, _, hpair, -⟩ := hjoins
        exact (Body.pair.inj (hbody.symm.trans hpair)).1
      obtain ⟨rfl, rfl⟩ := Joins.unique ⟨first, second, hbody, hleft, hright⟩ hjoins
      exact ⟨rfl, rfl, rfl, hlast⟩

/-- A close relation is mistaken for a word exactly if its joint looks escaped. -/
theorem exists_word_fragment_eq_iff {sequence : Sequence} {term : Term} {left right : Token}
    (hoperator : term.operator = .and)
    (hshows : sequence.Shows term .word (left.text ++ '_' :: right.text)) :
    (∃ (word : Term) (token : Token), word.body = .primary .word token ∧
        sequence.fragment word = sequence.fragment term) ↔
      left.text.getLast? = some '\\' := by
  rw [Shows, hoperator] at hshows
  constructor
  · rintro ⟨word, token, hbody, hsame⟩
    have hword : sequence.Shows word .word token.text :=
      shows_of_matcher (by rw [hbody, matcher])
    rw [Shows, hsame, hshows] at hword
    have hjoined : left.text ++ '_' :: right.text = token.text := by
      cases hnegated : word.operator with
      | and => exact Expression.call_inj (by simpa only [hnegated] using Except.ok.inj hword)
      | or => exact Expression.call_inj (by simpa only [hnegated] using Except.ok.inj hword)
      | not =>
          simp only [hnegated] at hword
          exact absurd (Except.ok.inj hword) (Expression.call_matcher_ne_call_negation _ _ _)
    refine not_not.1 fun hlast => token.escaped.not_bareAt left.text right.text ?_
    exact ⟨hjoined.symm, hlast⟩
  · intro hlast
    have hescaped : Text.Escaped (left.text ++ '_' :: right.text) := by
      refine Text.escaped_of_forall_not_bareAt fun before after hbare => ?_
      exact ((Text.bareAt_join_iff left.escaped right.escaped).1 hbare).2.2.2 hlast
    have hunblank : ∀ c ∈ left.text ++ '_' :: right.text, isBlank c = false := by
      intro c hc
      rcases List.mem_append.1 hc with hc | hc
      · exact left.unblank c hc
      · rcases List.mem_cons.1 hc with rfl | hc
        · decide
        · exact right.unblank c hc
    refine ⟨⟨term.id, .and, .primary .word ⟨_, by simp, hunblank, hescaped⟩⟩, _, rfl, ?_⟩
    rw [hshows]
    rfl

/-- In a valid sequence every term shows one payload.  The only underscore in it
that can be bare is the joint of a close relation.  The joint is not bare if the
first token ends in a backslash, and exactly then some word has the same fragment as
the relation. -/
theorem bareAt_payload_iff_joins {sequence : Sequence} (h : sequence.validate = .ok ())
    {term : Term} (hterm : term ∈ sequence.terms) :
    (∃ form payload, sequence.Shows term form payload) ∧
      (∀ form payload, sequence.Shows term form payload → ∀ before after,
        payload.BareAt before after ↔
          ∃ left right, sequence.Joins term left right ∧ before = left.text ∧
            after = right.text ∧ left.text.getLast? ≠ some '\\') ∧
      (term.body.kind = .pair .closelyPrecedes →
        ∃ left right, sequence.Joins term left right ∧
          ((∃ (word : Term) (token : Token), word.body = .primary .word token ∧
              sequence.fragment word = sequence.fragment term) ↔
            left.text.getLast? = some '\\')) := by
  have hcoherent := (validate_eq_ok_iff.1 h).1
  obtain ⟨form, payload, hshows, hbare⟩ := hcoherent.exists_shows_bareAt_iff hterm
  refine ⟨⟨form, payload, hshows⟩, ?_, ?_⟩
  · intro other shown hother
    obtain ⟨-, rfl⟩ := hshows.unique hother
    exact hbare
  · intro hkind
    rcases hcoherent.exists_shows hterm with ⟨_, _, hbody, -⟩ |
      ⟨relation, first, second, left, right, hbody, hleft, hright, hoperator, hshown⟩
    · rw [hbody, Body.kind] at hkind
      exact absurd hkind (by simp)
    · obtain rfl : relation = .closelyPrecedes := by simpa [hbody, Body.kind] using hkind
      exact ⟨left, right, ⟨first, second, hbody, hleft, hright⟩,
        exists_word_fragment_eq_iff hoperator hshown⟩

end Sequence

namespace BareUnderscoresWitness

/-- The second word has to come close after the first. -/
def relation : Term :=
  ⟨.atPlace 3, .and, .pair .closelyPrecedes (.atPlace 1) (.atPlace 2)⟩

/-- Both words have an underscore of their own, one of them next to the joint. -/
def pens : Sequence :=
  ((Sequence.empty.push .not (.primary .word (.ofText "ball\\_pen".toList (by decide)))).push
    .and (.primary .template (.ofText "\\_x*".toList (by decide)))).push
    .and relation.body

theorem bareAt_payload_iff_joins_pens :
    pens.validate = .ok () ∧ relation ∈ pens.terms ∧
      pens.Shows relation .word "ball\\_pen_\\_x*".toList ∧
      (∃ left right, pens.Joins relation left right ∧ "ball\\_pen".toList = left.text ∧
        "\\_x*".toList = right.text ∧ left.text.getLast? ≠ some '\\') ∧
      relation.body.kind = .pair .closelyPrecedes ∧
      ∃ left right, pens.Joins relation left right ∧
        ((∃ (word : Term) (token : Token), word.body = .primary .word token ∧
            pens.fragment word = pens.fragment relation) ↔
          left.text.getLast? = some '\\') := by
  have hvalid : pens.validate = .ok () := rfl
  have hterm : relation ∈ pens.terms := by decide
  have hshows : pens.Shows relation .word "ball\\_pen_\\_x*".toList := rfl
  have h := Sequence.bareAt_payload_iff_joins hvalid hterm
  exact ⟨hvalid, hterm, hshows, (h.2.1 _ _ hshows _ _).1 ⟨rfl, by decide⟩, rfl, h.2.2 rfl⟩

/-- The first word ends in a backslash; the last one is the joined words as one. -/
def slashed : Sequence :=
  (((Sequence.empty.push .and (.primary .word (.ofText "a\\".toList (by decide)))).push
    .and (.primary .word (.ofText "b".toList (by decide)))).push
    .and relation.body).push
    .and (.primary .word (.ofText "a\\_b".toList (by decide)))

/-- A close relation without any bare underscore, which reads like a word. -/
theorem not_bareAt_payload_slashed :
    slashed.validate = .ok () ∧ relation ∈ slashed.terms ∧
      slashed.Shows relation .word "a\\_b".toList ∧
      (∀ before after, ¬Text.BareAt "a\\_b".toList before after) ∧
      ∃ word ∈ slashed.terms, word.body.kind = .primary .word ∧
        slashed.fragment word = slashed.fragment relation :=
  ⟨rfl, by decide, rfl, Text.Escaped.not_bareAt (by decide),
    ⟨.atPlace 4, .and, .primary .word (.ofText "a\\_b".toList (by decide))⟩, by decide, rfl, rfl⟩

end BareUnderscoresWitness

end GradingRule
