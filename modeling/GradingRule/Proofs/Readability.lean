/-
Reading expressions back.  A fragment can be told from whatever comes after it if
no token holds a closing parenthesis, and then so can the conjunctions and
disjunctions of fragments.  So an expression was written from one list of
fragments only, cut at one list of disjunction points.
-/
import GradingRule.Proofs.Fragments
import GradingRule.Proofs.Gate

namespace GradingRule

variable {α : Type}

/-- What is printed for a valid value can be told from what comes after it. -/
def SelfDelimiting (valid : α → Prop) (print : α → Text) : Prop :=
  ∀ a b rest more, valid a → valid b → print a ++ rest = print b ++ more →
    a = b ∧ rest = more

/-- Two texts that go on after the first `stop` agree before and after it. -/
theorem Text.append_stop_inj {stop : Char} {left right rest more : Text}
    (hleft : stop ∉ left) (hright : stop ∉ right)
    (h : left ++ stop :: rest = right ++ stop :: more) : left = right ∧ rest = more := by
  induction left generalizing right with
  | nil =>
      cases right with
      | nil => exact ⟨rfl, (List.cons.inj h).2⟩
      | cons d right =>
          obtain rfl := (List.cons.inj h).1
          exact absurd List.mem_cons_self hright
  | cons c left ih =>
      cases right with
      | nil =>
          obtain rfl := (List.cons.inj h).1
          exact absurd List.mem_cons_self hleft
      | cons d right =>
          obtain ⟨rfl, htail⟩ := List.cons.inj h
          obtain ⟨rfl, hrest⟩ := ih (fun hmem => hleft (List.mem_cons_of_mem c hmem))
            (fun hmem => hright (List.mem_cons_of_mem c hmem)) htail
          exact ⟨rfl, hrest⟩

namespace Expression

/-- A matcher whose payload does not close it. -/
inductive IsMatcher : Text → Prop
  | closed (form : Form) {payload : Text} :
      ')' ∉ payload → IsMatcher (call form.matcher payload)

/-- A matcher or its negation. -/
inductive IsFragment : Text → Prop
  | plain {matcher : Text} : IsMatcher matcher → IsFragment matcher
  | negated {matcher : Text} : IsMatcher matcher → IsFragment (call negation matcher)

theorem call_append (name payload rest : Text) :
    call name payload ++ rest = name ++ '(' :: (payload ++ ')' :: rest) := by
  simp [call]

theorem wrap_append (name : Text) (parts : List Text) (rest : Text) :
    wrap name parts ++ rest =
      name ++ '(' :: (parts.flatMap (' ' :: ·) ++ ' ' :: ')' :: rest) := by
  simp [wrap]

theorem openParen_not_mem_matcher (form : Form) : '(' ∉ form.matcher := by
  cases form <;> decide

theorem selfDelimiting_matcher : SelfDelimiting IsMatcher id := by
  rintro _ _ rest more ⟨form, hpayload⟩ ⟨other, hother⟩ h
  rw [id, id, call_append, call_append] at h
  obtain ⟨hnames, hrests⟩ :=
    Text.append_stop_inj (openParen_not_mem_matcher form) (openParen_not_mem_matcher other) h
  obtain ⟨hpayloads, hrest⟩ := Text.append_stop_inj hpayload hother hrests
  exact ⟨by rw [hnames, hpayloads], hrest⟩

/-- A matcher is no negation. -/
theorem IsMatcher.append_ne_call_negation {matcher : Text} (h : IsMatcher matcher)
    (rest payload more : Text) : matcher ++ rest ≠ call negation payload ++ more := by
  obtain ⟨form, hpayload⟩ := h
  intro heq
  rw [call_append, call_append] at heq
  have hname := (Text.append_stop_inj (openParen_not_mem_matcher form) (by decide) heq).1
  cases form <;> exact absurd hname (by decide)

theorem selfDelimiting_fragment : SelfDelimiting IsFragment id := by
  intro left right rest more hleft hright h
  cases hleft with
  | plain hmatcher =>
      cases hright with
      | plain hother => exact selfDelimiting_matcher _ _ _ _ hmatcher hother h
      | negated hother => exact absurd h (hmatcher.append_ne_call_negation _ _ _)
  | negated hmatcher =>
      cases hright with
      | plain hother => exact absurd h.symm (hother.append_ne_call_negation _ _ _)
      | negated hother =>
          rw [id, id, call_append, call_append] at h
          obtain ⟨-, hrests⟩ := Text.append_stop_inj (by decide) (by decide) h
          obtain ⟨rfl, hrest⟩ := selfDelimiting_matcher _ _ _ _ hmatcher hother hrests
          exact ⟨rfl, (List.cons.inj hrest).2⟩

/-- The name of a fragment is none of a conjunction or disjunction. -/
theorem IsFragment.append_ne_wrap {fragment name : Text} (h : IsFragment fragment)
    (hname : name = matchAll ∨ name = matchAny) (rest : Text) (parts : List Text)
    (more : Text) : fragment ++ rest ≠ wrap name parts ++ more := by
  intro heq
  rw [wrap_append] at heq
  cases h with
  | plain hmatcher =>
      obtain ⟨form, hpayload⟩ := hmatcher
      rw [call_append] at heq
      rcases hname with rfl | rfl
      · have hnames := (Text.append_stop_inj (openParen_not_mem_matcher form) (by decide) heq).1
        cases form <;> exact absurd hnames (by decide)
      · have hnames := (Text.append_stop_inj (openParen_not_mem_matcher form) (by decide) heq).1
        cases form <;> exact absurd hnames (by decide)
  | negated hmatcher =>
      rw [call_append] at heq
      rcases hname with rfl | rfl
      · exact absurd (Text.append_stop_inj (by decide) (by decide) heq).1 (by decide)
      · exact absurd (Text.append_stop_inj (by decide) (by decide) heq).1 (by decide)

theorem IsFragment.append_ne_closeParen {fragment : Text} (h : IsFragment fragment)
    (rest more : Text) : fragment ++ rest ≠ ')' :: more := by
  intro heq
  cases h with
  | plain hmatcher =>
      obtain ⟨form, hpayload⟩ := hmatcher
      rw [call_append] at heq
      cases form <;> exact absurd (List.cons.inj heq).1 (by decide)
  | negated hmatcher =>
      rw [call_append] at heq
      exact absurd (List.cons.inj heq).1 (by decide)

section Wrap

variable {valid : α → Prop} {print : α → Text} (hprint : SelfDelimiting valid print)
  (hstart : ∀ a, valid a → ∀ rest more, print a ++ rest ≠ ')' :: more)

include hprint hstart

/-- No part starts with the parenthesis that comes after the last one. -/
theorem parts_inj {items others : List α} {rest more : Text}
    (hitems : ∀ a ∈ items, valid a) (hothers : ∀ a ∈ others, valid a)
    (h : (items.map print).flatMap (' ' :: ·) ++ ' ' :: ')' :: rest =
      (others.map print).flatMap (' ' :: ·) ++ ' ' :: ')' :: more) :
    items = others ∧ rest = more := by
  induction items generalizing others with
  | nil =>
      cases others with
      | nil => simpa using h
      | cons b others =>
          simp only [List.map_nil, List.flatMap_nil, List.nil_append, List.map_cons,
            List.flatMap_cons, List.cons_append, List.cons.injEq, true_and,
            List.append_assoc] at h
          exact absurd h.symm (hstart b (hothers b List.mem_cons_self) _ _)
  | cons a items ih =>
      cases others with
      | nil =>
          simp only [List.map_nil, List.flatMap_nil, List.nil_append, List.map_cons,
            List.flatMap_cons, List.cons_append, List.cons.injEq, true_and,
            List.append_assoc] at h
          exact absurd h (hstart a (hitems a List.mem_cons_self) _ _)
      | cons b others =>
          simp only [List.map_cons, List.flatMap_cons, List.cons_append, List.cons.injEq,
            true_and, List.append_assoc] at h
          obtain ⟨rfl, hrests⟩ := hprint _ _ _ _ (hitems a List.mem_cons_self)
            (hothers b List.mem_cons_self) h
          obtain ⟨rfl, hrest⟩ := ih (fun c hc => hitems c (List.mem_cons_of_mem a hc))
            (fun c hc => hothers c (List.mem_cons_of_mem a hc)) hrests
          exact ⟨rfl, hrest⟩

theorem selfDelimiting_wrap {name : Text} (hname : '(' ∉ name) :
    SelfDelimiting (fun items : List α => ∀ a ∈ items, valid a)
      (fun items => wrap name (items.map print)) := by
  intro items others rest more hitems hothers h
  simp only [wrap_append] at h
  exact parts_inj hprint hstart hitems hothers (Text.append_stop_inj hname hname h).2

end Wrap

theorem selfDelimiting_any :
    SelfDelimiting (fun fragments => ∀ fragment ∈ fragments, IsFragment fragment)
      (wrap matchAny) := by
  have hname : '(' ∉ matchAny := by decide
  simpa using selfDelimiting_wrap selfDelimiting_fragment
    (fun _ hfragment => hfragment.append_ne_closeParen) hname

end Expression

/-- A segment of fragments that can be told apart. -/
inductive Segment.Readable : Segment → Prop
  | bare {fragment : Text} : Expression.IsFragment fragment → Readable (.bare fragment)
  | any {fragments : List Text} :
      (∀ fragment ∈ fragments, Expression.IsFragment fragment) → Readable (.any fragments)

namespace Segment

theorem selfDelimiting : SelfDelimiting Readable text := by
  intro left right rest more hleft hright h
  cases hleft with
  | bare hfragment =>
      cases hright with
      | bare hother =>
          obtain ⟨rfl, hrest⟩ :=
            Expression.selfDelimiting_fragment _ _ _ _ hfragment hother h
          exact ⟨rfl, hrest⟩
      | any hothers => exact absurd h (hfragment.append_ne_wrap (.inr rfl) _ _ _)
  | any hfragments =>
      cases hright with
      | bare hother => exact absurd h.symm (hother.append_ne_wrap (.inr rfl) _ _ _)
      | any hothers =>
          obtain ⟨rfl, hrest⟩ :=
            Expression.selfDelimiting_any _ _ _ _ hfragments hothers h
          exact ⟨rfl, hrest⟩

/-- No segment is a conjunction. -/
theorem Readable.append_ne_wrap {segment : Segment} (h : segment.Readable) (rest : Text)
    (parts : List Text) (more : Text) :
    segment.text ++ rest ≠ Expression.wrap Expression.matchAll parts ++ more := by
  cases h with
  | bare hfragment => exact hfragment.append_ne_wrap (.inl rfl) _ _ _
  | any hfragments =>
      intro heq
      rw [text, Expression.wrap_append, Expression.wrap_append] at heq
      exact absurd (Text.append_stop_inj (by decide) (by decide) heq).1 (by decide)

theorem Readable.append_ne_closeParen {segment : Segment} (h : segment.Readable)
    (rest more : Text) : segment.text ++ rest ≠ ')' :: more := by
  cases h with
  | bare hfragment => exact hfragment.append_ne_closeParen rest more
  | any hfragments => exact fun heq => absurd (List.cons.inj heq).1 (by decide)

theorem fragments_ofBlock (block : List Text) : (ofBlock block).fragments = block := by
  rw [ofBlock.eq_def]
  split <;> rfl

theorem readable_ofBlock {block : List Text}
    (h : ∀ fragment ∈ block, Expression.IsFragment fragment) : (ofBlock block).Readable := by
  rw [ofBlock.eq_def]
  split
  · exact .bare (h _ List.mem_cons_self)
  · exact .any h

end Segment

namespace Expression

theorem selfDelimiting_all :
    SelfDelimiting (fun segments : List Segment => ∀ segment ∈ segments, segment.Readable)
      (fun segments => wrap matchAll (segments.map Segment.text)) :=
  selfDelimiting_wrap Segment.selfDelimiting
    (fun _ hsegment => hsegment.append_ne_closeParen) (by decide)

/-- The expression of some segments: nothing, the only one, or their conjunction. -/
def join : List Segment → Text
  | [] => []
  | [segment] => segment.text
  | segments => wrap matchAll (segments.map Segment.text)

theorem nest_eq_join (cut : List (List Text)) : nest cut = join (cut.map Segment.ofBlock) := by
  rcases cut with _ | ⟨first, _ | ⟨second, rest⟩⟩
  · rfl
  · rfl
  · simp [nest, join, Function.comp_def]

/-- Nothing, one segment and several never make the same expression. -/
theorem join_inj {segments others : List Segment}
    (hsegments : ∀ segment ∈ segments, segment.Readable)
    (hothers : ∀ segment ∈ others, segment.Readable) (h : join segments = join others) :
    segments = others := by
  have hends : join segments ++ [')'] = join others ++ [')'] := by rw [h]
  match segments, others with
  | [], [] => rfl
  | [], [other] =>
      exact absurd hends.symm ((hothers other List.mem_cons_self).append_ne_closeParen _ _)
  | [], other :: next :: rest => exact absurd h (by simp [join, wrap])
  | [segment], [] =>
      exact absurd hends ((hsegments segment List.mem_cons_self).append_ne_closeParen _ _)
  | [segment], [other] =>
      rw [(Segment.selfDelimiting _ _ _ _ (hsegments segment List.mem_cons_self)
        (hothers other List.mem_cons_self) hends).1]
  | [segment], other :: next :: rest =>
      exact absurd hends ((hsegments segment List.mem_cons_self).append_ne_wrap _ _ _)
  | segment :: next :: rest, [] => exact absurd h (by simp [join, wrap])
  | segment :: next :: rest, [other] =>
      exact absurd hends.symm ((hothers other List.mem_cons_self).append_ne_wrap _ _ _)
  | segment :: next :: rest, other :: after :: more =>
      exact (selfDelimiting_all _ _ _ _ hsegments hothers hends).1

/-- The blocks of readable fragments can be read off their expression. -/
theorem nest_inj {cut other : List (List Text)}
    (hcut : ∀ fragment ∈ cut.flatten, IsFragment fragment)
    (hother : ∀ fragment ∈ other.flatten, IsFragment fragment) (h : nest cut = nest other) :
    cut = other := by
  have hreadable : ∀ cut : List (List Text),
      (∀ fragment ∈ cut.flatten, IsFragment fragment) →
        ∀ segment ∈ cut.map Segment.ofBlock, segment.Readable := by
    intro cut hcut segment hsegment
    obtain ⟨block, hblock, rfl⟩ := List.mem_map.1 hsegment
    exact Segment.readable_ofBlock fun fragment hfragment =>
      hcut fragment (List.mem_flatten.2 ⟨block, hblock, hfragment⟩)
  rw [nest_eq_join, nest_eq_join] at h
  have hsegments := join_inj (hreadable cut hcut) (hreadable other hother) h
  exact (Function.LeftInverse.injective Segment.fragments_ofBlock).list_map hsegments

end Expression

namespace Sequence

/-- No token of the sequence closes its matcher. -/
def Unclosed (sequence : Sequence) : Prop :=
  ∀ term ∈ sequence.terms, ∀ token ∈ term.token?, ')' ∉ token.text

instance (sequence : Sequence) : Decidable sequence.Unclosed :=
  inferInstanceAs (Decidable (∀ term ∈ sequence.terms, ∀ token ∈ term.token?, ')' ∉ token.text))

theorem Unclosed.isFragment {sequence : Sequence} (h : sequence.Unclosed) {term : Term}
    (hterm : term ∈ sequence.terms) {text : Text} (htext : sequence.fragment term = .ok text) :
    Expression.IsFragment text := by
  have hjoint : ∀ (relation : Relation) (left right : Text), ')' ∉ left → ')' ∉ right →
      ')' ∉ left ++ relation.joint :: right := by
    intro relation left right hleft hright
    have hne : ')' ≠ relation.joint := by cases relation <;> decide
    simp [hleft, hright, hne]
  have htokens : ∀ term ∈ sequence.terms, ∀ token, term.token? = some token →
      ')' ∉ token.text := h
  obtain ⟨form, payload, hpayload, rfl | rfl⟩ :=
    exists_payload_of_fragment htokens hjoint hterm htext
  · exact .plain (.closed form hpayload)
  · exact .negated (.closed form hpayload)

theorem Unclosed.forall_isFragment {sequence : Sequence} (h : sequence.Unclosed)
    {fragments : List Text} (hfragments : sequence.fragments = .ok fragments) :
    ∀ text ∈ fragments, Expression.IsFragment text := by
  intro text htext
  obtain ⟨term, hterm, hfragment⟩ := exists_mem_of_mem_mapM hfragments htext
  exact h.isFragment hterm hfragment

/-- A valid sequence is written as the blocks of its fragments, and the points are
the places that do not open a block. -/
theorem exists_blocks_of_validate {sequence : Sequence} (h : sequence.validate = .ok ()) :
    ∃ cut, sequence.fragments = .ok cut.flatten ∧
      blockPoints 0 cut = sequence.disjunctionPoints ∧
      sequence.synthesize = .ok (Expression.nest cut) := by
  obtain ⟨hcoherent, hcount⟩ := validate_eq_ok_iff.1 h
  obtain ⟨fragments, hfragments⟩ := hcoherent.exists_fragments_eq_ok
  have hfew := Nat.le_trans sequence.length_disjunctionPoints_le_tagCount hcount
  have hplaced : misplacedPoint? fragments.length 1 sequence.disjunctionPoints = none := by
    rw [length_fragments hfragments, disjunctionPoints_eq_joinPoints]
    exact misplacedPoint?_joinPoints Term.isOr sequence.terms
  obtain ⟨shape, cut, hshape, hrender, hflatten, hpoints⟩ :=
    Shape.exists_blocks_of_points hplaced hfew
  refine ⟨cut, by rw [hflatten, hfragments], hpoints, ?_⟩
  rw [synthesize_eq_ok_render h hfragments hshape, hrender]

/-- An expression can be read in one way only.  Valid sequences with the same
expression have the same fragments and the same disjunction points, if none of
their tokens holds a closing parenthesis; an opening one does no harm. -/
theorem fragments_and_points_unique (first second : Sequence)
    (hfirst : first.validate = .ok ()) (hsecond : second.validate = .ok ())
    (hfirstTokens : first.Unclosed) (hsecondTokens : second.Unclosed)
    (h : first.synthesize = second.synthesize) :
    first.size = second.size ∧
      (∃ fragments, first.fragments = .ok fragments ∧ second.fragments = .ok fragments) ∧
      first.disjunctionPoints = second.disjunctionPoints := by
  obtain ⟨cut, hfragments, hpoints, hrun⟩ := exists_blocks_of_validate hfirst
  obtain ⟨other, hothers, hotherPoints, hotherRun⟩ := exists_blocks_of_validate hsecond
  rw [hrun, hotherRun] at h
  obtain rfl := Expression.nest_inj (hfirstTokens.forall_isFragment hfragments)
    (hsecondTokens.forall_isFragment hothers) (Except.ok.inj h)
  refine ⟨?_, ⟨_, hfragments, hothers⟩, hpoints.symm.trans hotherPoints⟩
  rw [← length_fragments hfragments, ← length_fragments hothers]

end Sequence

namespace ReadabilityWitness

/-- A word, an alternative to it and a relation of the two. -/
def sequence (operator : Operator) : Sequence :=
  ((Sequence.empty.push operator (.primary .word (.ofText "(hen".toList (by decide)))).push
    .or (.primary .template (.ofText "cow*".toList (by decide)))).push
    .and (.pair .closelyPrecedes (.atPlace 1) (.atPlace 2))

/-- The operator of a leading term that is not negated does not show. -/
theorem fragments_and_points_unique_leading :
    (sequence .or).validate = .ok () ∧ (sequence .and).validate = .ok () ∧
      (sequence .or).Unclosed ∧ (sequence .and).Unclosed ∧
      (sequence .or).synthesize = (sequence .and).synthesize ∧
      (sequence .or).size = (sequence .and).size ∧
      (∃ fragments, (sequence .or).fragments = .ok fragments ∧
        (sequence .and).fragments = .ok fragments) ∧
      (sequence .or).disjunctionPoints = (sequence .and).disjunctionPoints :=
  ⟨rfl, rfl, by decide, by decide, rfl,
    Sequence.fragments_and_points_unique _ _ rfl rfl (by decide) (by decide) rfl⟩

end ReadabilityWitness

end GradingRule
