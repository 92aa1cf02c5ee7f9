/-
Parentheses in expressions.  They are all the structure that an expression has,
and the library adds them in pairs only, but a token may bring its own.  So the
expressions of a draft are balanced exactly if its tokens are, each of them
between the parentheses of its matcher.
-/
import GradingRule.Proofs.Drafting
import GradingRule.Proofs.Fragments
import Mathlib.Data.List.Infix

namespace GradingRule

namespace Text

/-- Inside `depth` open parentheses the text never closes more than there are,
and it closes as many as it opens. -/
structure BalancedAt (depth : Nat) (text : Text) : Prop where
  closed_le : ∀ front, front <+: text → front.count ')' ≤ front.count '(' + depth
  closed_eq : text.count ')' = text.count '('

/-- Balanced by itself, with no parenthesis open before. -/
abbrev Balanced (text : Text) : Prop :=
  text.BalancedAt 0

instance (depth : Nat) (text : Text) : Decidable (text.BalancedAt depth) :=
  decidable_of_iff
    ((∀ front ∈ text.inits, front.count ')' ≤ front.count '(' + depth) ∧
      text.count ')' = text.count '(') <| by
    simp only [List.mem_inits]
    exact ⟨fun h => ⟨h.1, h.2⟩, fun h => ⟨h.1, h.2⟩⟩

/-- What is left of a text without all that is no parenthesis. -/
def parentheses (text : Text) : Text :=
  text.filter fun c => c = '(' || c = ')'

@[simp] theorem parentheses_append (left right : Text) :
    (left ++ right).parentheses = left.parentheses ++ right.parentheses :=
  List.filter_append left right

theorem count_parentheses (text : Text) :
    text.parentheses.count '(' = text.count '(' ∧
      text.parentheses.count ')' = text.count ')' :=
  ⟨List.count_filter (by decide), List.count_filter (by decide)⟩

/-- Only the parentheses of a text matter to its balance. -/
theorem balancedAt_parentheses_iff {depth : Nat} {text : Text} :
    text.parentheses.BalancedAt depth ↔ text.BalancedAt depth := by
  constructor
  · intro h
    refine ⟨?_, ?_⟩
    · intro front hfront
      have hle := h.closed_le (parentheses front) (hfront.filter _)
      rwa [(count_parentheses front).1, (count_parentheses front).2] at hle
    · have heq := h.closed_eq
      rwa [text.count_parentheses.1, text.count_parentheses.2] at heq
  · intro h
    refine ⟨?_, ?_⟩
    · intro front hfront
      obtain ⟨whole, hwhole, rfl⟩ := List.prefix_filter_iff.1 hfront
      have hle := h.closed_le whole hwhole
      rwa [← (count_parentheses whole).1, ← (count_parentheses whole).2] at hle
    · rw [text.count_parentheses.1, text.count_parentheses.2]
      exact h.closed_eq

theorem balancedAt_congr {depth : Nat} {left right : Text}
    (h : left.parentheses = right.parentheses) :
    left.BalancedAt depth ↔ right.BalancedAt depth := by
  rw [← balancedAt_parentheses_iff, h, balancedAt_parentheses_iff]

theorem balancedAt_nil (depth : Nat) : BalancedAt depth [] := by
  refine ⟨?_, rfl⟩
  intro front hfront
  rw [List.prefix_nil.1 hfront]
  exact Nat.zero_le _

theorem BalancedAt.mono {depth more : Nat} {text : Text} (h : text.BalancedAt depth)
    (hle : depth ≤ more) : text.BalancedAt more :=
  ⟨fun front hfront => Nat.le_trans (h.closed_le front hfront) (Nat.add_le_add_left hle _),
    h.closed_eq⟩

/-- The first text leaves as many parentheses open as it found. -/
theorem BalancedAt.append {depth : Nat} {left right : Text} (hleft : left.BalancedAt depth)
    (hright : right.BalancedAt depth) : (left ++ right).BalancedAt depth := by
  refine ⟨?_, ?_⟩
  · intro front hfront
    rcases List.prefix_or_prefix_of_prefix hfront (List.prefix_append left right) with
      hinside | ⟨rest, rfl⟩
    · exact hleft.closed_le front hinside
    · have hrest := hright.closed_le rest ((List.prefix_append_right_inj left).1 hfront)
      rw [List.count_append, List.count_append, hleft.closed_eq]
      omega
  · rw [List.count_append, List.count_append, hleft.closed_eq, hright.closed_eq]

theorem BalancedAt.flatMap {depth : Nat} {α : Type} {text : α → Text} {list : List α}
    (h : ∀ a ∈ list, (text a).BalancedAt depth) : BalancedAt depth (list.flatMap text) := by
  induction list with
  | nil => exact balancedAt_nil depth
  | cons a rest ih =>
      rw [List.flatMap_cons]
      exact (h a List.mem_cons_self).append (ih fun b hb => h b (List.mem_cons_of_mem a hb))

/-- A pair of parentheses around a text is one more to stand inside. -/
theorem balancedAt_enclosed_iff {depth : Nat} {text : Text} :
    BalancedAt depth ('(' :: (text ++ [')'])) ↔ text.BalancedAt (depth + 1) := by
  constructor
  · intro h
    refine ⟨?_, ?_⟩
    · intro front hfront
      have hopened : '(' :: front <+: '(' :: (text ++ [')']) :=
        List.cons_prefix_cons.2 ⟨rfl, hfront.trans (List.prefix_append text [')'])⟩
      have hle := h.closed_le _ hopened
      simp at hle
      omega
    · have heq := h.closed_eq
      simp at heq
      omega
  · intro h
    refine ⟨?_, ?_⟩
    · intro front hfront
      rcases List.prefix_cons_iff.1 hfront with rfl | ⟨opened, rfl, hopened⟩
      · exact Nat.zero_le _
      · rcases List.prefix_concat_iff.1 hopened with rfl | hinside
        · have heq := h.closed_eq
          simp
          omega
        · have hle := h.closed_le opened hinside
          simp
          omega
    · have heq := h.closed_eq
      simp
      omega

theorem parentheses_escapeAfter (backslash : Bool) (text : Text) :
    (escapeAfter backslash text).parentheses = text.parentheses := by
  induction text generalizing backslash with
  | nil => rfl
  | cons c rest ih =>
      rw [escapeAfter]
      split_ifs with hc
      · obtain ⟨rfl, -⟩ := hc
        exact ih false
      · simp only [parentheses, List.filter_cons] at ih ⊢
        rw [ih]

end Text

/-- Neither the backslashes nor the star of a token are parentheses. -/
theorem Form.parentheses_normalize (form : Form) (raw : Text) :
    (form.normalize raw).parentheses = raw.parentheses := by
  have hescape : raw.escape.parentheses = raw.parentheses := raw.parentheses_escapeAfter false
  cases form with
  | word => exact hescape
  | template =>
      rw [normalize]
      split_ifs
      · exact hescape
      · rw [Text.parentheses_append, hescape]
        exact List.append_nil _

namespace Expression

theorem balancedAt_call_iff {depth : Nat} {name payload : Text} (hname : name.parentheses = []) :
    (call name payload).BalancedAt depth ↔ payload.BalancedAt (depth + 1) := by
  rw [← Text.balancedAt_enclosed_iff]
  apply Text.balancedAt_congr
  rw [call, Text.parentheses_append, hname, List.nil_append]

theorem balancedAt_wrap {depth : Nat} {name : Text} {parts : List Text}
    (hname : name.parentheses = []) (hparts : ∀ part ∈ parts, part.BalancedAt (depth + 1)) :
    (wrap name parts).BalancedAt depth := by
  have hcall : wrap name parts = call name (parts.flatMap (' ' :: ·) ++ [' ']) := by
    simp [wrap, call]
  rw [hcall, balancedAt_call_iff hname]
  have hspace : Text.BalancedAt (depth + 1) [' '] :=
    Text.balancedAt_parentheses_iff.1 (Text.balancedAt_nil _)
  exact .append (.flatMap fun part hpart => hspace.append (hparts part hpart)) hspace

end Expression

theorem Segment.balanced_text {depth : Nat} {segment : Segment}
    (h : ∀ fragment ∈ segment.fragments, fragment.Balanced) :
    segment.text.BalancedAt depth := by
  cases segment with
  | bare fragment => exact (h fragment List.mem_cons_self).mono (Nat.zero_le _)
  | any fragments =>
      exact Expression.balancedAt_wrap rfl fun fragment hfragment =>
        (h fragment hfragment).mono (Nat.zero_le _)

/-- A shape adds parentheses in pairs only, whatever its spans are. -/
theorem Shape.balanced_render {fragments : List Text}
    (h : ∀ fragment ∈ fragments, fragment.Balanced) (shape : Shape) :
    (shape.render fragments).Balanced := by
  have hinside : ∀ fragment ∈ fragments, fragment.BalancedAt 1 :=
    fun fragment hfragment => (h fragment hfragment).mono (Nat.zero_le _)
  cases shape with
  | empty => exact Text.balancedAt_nil 0
  | single =>
      cases fragments with
      | nil => exact Text.balancedAt_nil 0
      | cons fragment others => exact h fragment List.mem_cons_self
  | all => exact Expression.balancedAt_wrap rfl hinside
  | any => exact Expression.balancedAt_wrap rfl hinside
  | grouped spans =>
      refine Expression.balancedAt_wrap rfl fun part hpart => ?_
      obtain ⟨segment, hsegment, rfl⟩ := List.mem_map.1 hpart
      refine Segment.balanced_text fun fragment hfragment => h fragment ?_
      rw [← flatMap_fragments_segments 0 spans fragments]
      exact List.mem_flatMap.2 ⟨segment, hsegment, hfragment⟩

namespace Sequence

/-- Every token is balanced between the parentheses of its matcher. -/
def TokensBalanced (sequence : Sequence) : Prop :=
  ∀ term ∈ sequence.terms, ∀ token, term.token? = some token → token.text.BalancedAt 1

theorem tokensBalanced_empty : empty.TokensBalanced := by
  intro term hterm
  simp [empty] at hterm

theorem TokensBalanced.fragment {sequence : Sequence} (h : sequence.TokensBalanced)
    {term : Term} (hterm : term ∈ sequence.terms) {text : Text}
    (htext : sequence.fragment term = .ok text) : text.Balanced := by
  have hjoint : ∀ (relation : Relation) (left right : Text), left.BalancedAt 1 →
      right.BalancedAt 1 → Text.BalancedAt 1 (left ++ relation.joint :: right) := by
    intro relation left right hleft hright
    have hmiddle : Text.BalancedAt 1 [relation.joint] := by cases relation <;> decide
    exact hleft.append (hmiddle.append hright)
  obtain ⟨form, payload, hpayload, htext⟩ :=
    exists_payload_of_fragment h hjoint hterm htext
  have hmatcher : (Expression.call form.matcher payload).Balanced :=
    (Expression.balancedAt_call_iff (by cases form <;> rfl)).2 hpayload
  rcases htext with rfl | rfl
  · exact hmatcher
  · exact (Expression.balancedAt_call_iff rfl).2 (hmatcher.mono (Nat.zero_le _))

theorem TokensBalanced.synthesize {sequence : Sequence} (h : sequence.TokensBalanced)
    {expression : Text} (hexpression : sequence.synthesize = .ok expression) :
    expression.Balanced := by
  obtain ⟨-, -, hexpression⟩ := bind_eq_ok_iff.1 hexpression
  obtain ⟨fragments, hfragments, hexpression⟩ := bind_eq_ok_iff.1 hexpression
  obtain ⟨shape, -, hexpression⟩ := bind_eq_ok_iff.1 hexpression
  obtain rfl := Except.ok.inj hexpression
  apply Shape.balanced_render
  intro fragment hfragment
  obtain ⟨term, hterm, htext⟩ := exists_mem_of_mem_mapM hfragments hfragment
  exact h.fragment hterm htext

end Sequence

/-- The text that the author enters with the edit. -/
def Edit.raw? : Edit → Option Text
  | .word _ raw | .template _ raw => some raw
  | .relate .. | .undo | .clear | .preview | .accept => none

/-- The text makes a token, and a draft has room for one. -/
def Limits.Admits (limits : Limits) (raw : Text) : Prop :=
  0 < limits.maxPrimary ∧ ∃ token, Token.word raw = .ok token

namespace Draft

/-- A token that a draft takes is the normal form of what was entered. -/
theorem Takes.exists_raw {draft : Draft} {edit : Edit} {operator : Operator} {form : Form}
    {token : Token} (h : draft.Takes edit operator (.primary form token)) :
    ∃ raw, edit.raw? = some raw ∧ draft.limits.Admits raw ∧ token.text = form.normalize raw := by
  cases h with
  | @word _ raw _ htoken hcount =>
      have hform : Form.word.token raw = .ok token := htoken
      exact ⟨raw, rfl, ⟨Nat.zero_lt_of_lt hcount, token, htoken⟩,
        Form.text_of_token_eq_ok hform⟩
  | @template _ raw _ htoken hcount =>
      have hform : Form.template.token raw = .ok token := htoken
      obtain ⟨made, hmade, -⟩ := map_eq_ok_iff.1 htoken
      exact ⟨raw, rfl, ⟨Nat.zero_lt_of_lt hcount, made, hmade⟩,
        Form.text_of_token_eq_ok hform⟩

/-- Balanced tokens are kept by every step that enters balanced texts. -/
theorem Step.tokensBalanced {draft next : Draft} {edit : Edit}
    {answer : Option (Except Failure Text)} (h : draft.Step edit next answer)
    (hdraft : draft.sequence.TokensBalanced)
    (hraw : ∀ raw, edit.raw? = some raw → draft.limits.Admits raw → raw.BalancedAt 1) :
    next.sequence.TokensBalanced := by
  refine h.forall_mem hdraft ?_
  intro operator body htakes token htoken
  cases body with
  | primary form made =>
      obtain rfl : made = token := by simpa [Term.token?] using htoken
      obtain ⟨raw, hedit, hadmits, htext⟩ := htakes.exists_raw
      rw [htext, Text.balancedAt_congr (form.parentheses_normalize raw)]
      exact hraw raw hedit hadmits
  | pair relation first second => simp [Term.token?] at htoken

/-- An expression in an answer is the preview of the draft before or after. -/
theorem Step.preview_eq_ok {draft next : Draft} {edit : Edit} {expression : Text}
    (h : draft.Step edit next (some (.ok expression))) :
    draft.preview = .ok expression ∨ next.preview = .ok expression := by
  rcases h.answer_cases with hnone | ⟨cause, hrefused⟩ | hnext | ⟨made, hmade, hok⟩
  · simp at hnone
  · simp at hrefused
  · exact .inr (Option.some.inj hnext).symm
  · exact .inl (by rw [hmade, Option.some.inj hok])

/-- Balanced texts lead to balanced expressions all along. -/
theorem balanced_of_mem_answers {draft : Draft} {edits : List Edit}
    (hdraft : draft.sequence.TokensBalanced)
    (hraw : ∀ edit ∈ edits, ∀ raw, edit.raw? = some raw → draft.limits.Admits raw →
      raw.BalancedAt 1)
    {expression : Text} (hexpression : some (.ok expression) ∈ draft.answers edits) :
    expression.Balanced := by
  induction edits generalizing draft with
  | nil => simp [answers] at hexpression
  | cons edit rest ih =>
      have hstep := draft.step_apply edit
      have hnext := hstep.tokensBalanced hdraft (hraw edit List.mem_cons_self)
      rw [answers, List.mem_cons] at hexpression
      rcases hexpression with hanswer | hrest
      · rw [← hanswer] at hstep
        rcases hstep.preview_eq_ok with hpreview | hpreview
        · exact hdraft.synthesize (mapError_eq_ok_iff.1 hpreview)
        · exact hnext.synthesize (mapError_eq_ok_iff.1 hpreview)
      · refine ih hnext ?_ hrest
        rw [hstep.limits_eq]
        exact fun other hother => hraw other (List.mem_cons_of_mem edit hother)

/-- The first word of a draft is answered with its matcher. -/
theorem answers_word_of_admits (session : SessionId) {limits : Limits} {raw : Text}
    (h : limits.Admits raw) :
    (start session limits).answers [.word .and raw] =
      [some (.ok (Expression.call Expression.matchWord raw.escape))] := by
  obtain ⟨hroom, token, htoken⟩ := h
  have htakes : (start session limits).Takes (.word .and raw) .and (.primary .word token) :=
    .word htoken hroom
  have hform : Form.word.token raw = .ok token := htoken
  have htext : token.text = raw.escape := Form.text_of_token_eq_ok hform
  rw [answers, answers, apply_of_takes htakes, ← htext]
  rfl

/-- The texts from which only balanced expressions come, whatever is done with
them: those that make no token, and those that are balanced between the
parentheses of a matcher.  One of the latter, such as `)(`, may still close its
matcher, if it opens something in its place. -/
theorem answers_balanced_iff (session : SessionId) (limits : Limits) (usable : Text → Prop) :
    (∀ edits : List Edit, (∀ edit ∈ edits, ∀ raw, edit.raw? = some raw → usable raw) →
        ∀ expression, some (.ok expression) ∈ (start session limits).answers edits →
          expression.Balanced) ↔
      ∀ raw, usable raw → limits.Admits raw → raw.BalancedAt 1 := by
  constructor
  · intro h raw husable hadmits
    -- A draft with nothing but this word shows the token between the parentheses.
    have hedits : ∀ edit ∈ [Edit.word .and raw], ∀ other, edit.raw? = some other →
        usable other := by
      intro edit hedit other hother
      obtain rfl := List.mem_singleton.1 hedit
      obtain rfl := Option.some.inj hother
      exact husable
    have hanswer : some (.ok (Expression.call Expression.matchWord raw.escape)) ∈
        (start session limits).answers [.word .and raw] := by
      rw [answers_word_of_admits session hadmits]
      exact List.mem_cons_self
    have hbalanced := h _ hedits _ hanswer
    rw [Text.Balanced, Expression.balancedAt_call_iff rfl] at hbalanced
    exact (Text.balancedAt_congr (Form.word.parentheses_normalize raw)).1 hbalanced
  · intro h edits hedits expression hexpression
    exact balanced_of_mem_answers Sequence.tokensBalanced_empty
      (fun edit hedit raw hraw hadmits => h raw (hedits edit hedit raw hraw) hadmits)
      hexpression

end Draft

namespace ParenthesesWitness

/-- A lone closing parenthesis makes a token, and closes the matcher too early. -/
theorem answers_closing_parenthesis :
    (Draft.start ⟨0⟩ {}).answers [.word .and ")".toList] =
        [some (.ok "match_w())".toList)] ∧
      ¬Text.Balanced "match_w())".toList :=
  ⟨rfl, by decide⟩

end ParenthesesWitness

end GradingRule
