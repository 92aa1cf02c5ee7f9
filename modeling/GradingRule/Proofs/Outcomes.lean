/-
What becomes of a suggested rule.  A rule that decodes has an expression unless
too many of its clauses are alternatives, and the expression is a conjunction
unless the rule has one clause only: the last clause is never an alternative, so
the terms are never all in one disjunction.
-/
import GradingRule.Suggestion
import GradingRule.Proofs.Decoding
import GradingRule.Proofs.Fragments
import GradingRule.Proofs.Previews
import GradingRule.Proofs.Readability

namespace GradingRule

/-- The number of clauses that a semicolon makes alternatives.  The first clause
has nothing to be an alternative to. -/
def Rule.alternatives (rule : Rule) : Nat :=
  rule.clauses.tail.countP Clause.disjunct

/-- The expression is the fragment of the only clause, or a conjunction if the rule
has several. -/
def Rule.LoneOrConjunction (rule : Rule) (sequence : Sequence) (expression : Text) : Prop :=
  (rule.clauses.length = 1 ∧ sequence.fragments = .ok [expression]) ∨
    (2 ≤ rule.clauses.length ∧ "match_all( ".toList <+: expression)

/-- The text is a rule, and it decodes to the sequence. -/
structure Dialect.Decodes (dialect : Dialect) (text : Text) (rule : Rule)
    (sequence : Sequence) : Prop where
  isEmptyRule : dialect.isEmptyRule text = false
  parse : dialect.parse text = .ok rule
  decode : dialect.decode text = .ok sequence

namespace Expression

/-- The expression starts with this name and an opening parenthesis. -/
def Opens (name expression : Text) : Prop :=
  ∃ rest, expression = name ++ '(' :: rest

theorem opens_call (name payload : Text) : Opens name (call name payload) :=
  ⟨_, rfl⟩

theorem opens_wrap (name : Text) (parts : List Text) : Opens name (wrap name parts) :=
  ⟨_, rfl⟩

theorem Opens.ne_nil {name expression : Text} (h : Opens name expression) :
    expression ≠ [] := by
  obtain ⟨rest, rfl⟩ := h
  simp

theorem Opens.not_prefix {name other expression : Text} (h : Opens name expression)
    (hname : '(' ∉ name) (hother : '(' ∉ other) (hne : other ≠ name) :
    ¬(other ++ ['(']) <+: expression := by
  obtain ⟨rest, rfl⟩ := h
  rintro ⟨more, hmore⟩
  rw [List.append_assoc, List.singleton_append] at hmore
  exact hne (Text.append_stop_inj hother hname hmore).1

theorem matchAll_prefix_wrap (parts : List Text) :
    "match_all( ".toList <+: wrap matchAll parts := by
  have hspace : ∃ rest, parts.flatMap (' ' :: ·) ++ [' ', ')'] = ' ' :: rest := by
    cases parts with
    | nil => exact ⟨_, rfl⟩
    | cons part others => exact ⟨_, rfl⟩
  obtain ⟨rest, hrest⟩ := hspace
  have hname : "match_all( ".toList = matchAll ++ ['(', ' '] := rfl
  exact ⟨rest, by rw [hname, wrap, hrest, List.append_assoc]; rfl⟩

end Expression

namespace Shape

theorem eq_single_of_ofPoints {points : List Nat} {shape : Shape}
    (h : ofPoints 1 points = .ok shape) : shape = .single := by
  unfold ofPoints at h
  split at h
  · simp at h
  · exact (Except.ok.inj h).symm

/-- Unless every fragment but the first is at a disjunction point, the shape of
several fragments is a conjunction. -/
theorem exists_render_eq_wrap_matchAll {size : Nat} {points : List Nat} {shape : Shape}
    (h : ofPoints size points = .ok shape) (hfew : points.length + 1 < size)
    (fragments : List Text) :
    ∃ parts, shape.render fragments = Expression.wrap Expression.matchAll parts := by
  unfold ofPoints at h
  split at h
  · simp at h
  · split_ifs at h with hzero hone hnil hmany hall
    · omega
    · omega
    · obtain rfl := Except.ok.inj h
      exact ⟨_, rfl⟩
    · omega
    · obtain rfl := Except.ok.inj h
      exact ⟨_, rfl⟩

end Shape

namespace Sequence

/-- A fragment is a matcher or a negation. -/
theorem opens_of_fragment {sequence : Sequence} {term : Term} (hterm : term ∈ sequence.terms)
    {text : Text} (h : sequence.fragment term = .ok text) :
    ∃ name ∈ [Expression.matchWord, Expression.matchTemplate, Expression.negation],
      Expression.Opens name text := by
  obtain ⟨form, payload, -, rfl | rfl⟩ := exists_payload_of_fragment (p := fun _ => True)
    (fun _ _ _ _ => trivial) (fun _ _ _ _ _ => trivial) hterm h
  · refine ⟨form.matcher, ?_, Expression.opens_call _ _⟩
    cases form <;> simp [Form.matcher]
  · exact ⟨Expression.negation, by simp, Expression.opens_call _ _⟩

/-- If the last term is no alternative, some term but the first is no disjunction
point. -/
theorem length_disjunctionPoints_lt {sequence : Sequence} (hsize : 2 ≤ sequence.size)
    (hlast : ∀ term, sequence.terms.getLast? = some term → term.operator ≠ .or) :
    sequence.disjunctionPoints.length + 1 < sequence.size := by
  obtain ⟨terms⟩ := sequence
  rw [disjunctionPoints_eq_joinPoints]
  match terms with
  | [] => simp [size] at hsize
  | [_] => simp [size] at hsize
  | first :: second :: rest =>
      obtain ⟨last, hterm⟩ : ∃ last, (second :: rest).getLast? = some last :=
        Option.isSome_iff_exists.1 (List.getLast?_isSome.2 (by simp))
      have hno : last.isOr = false := by
        have hne := hlast last (by simpa using hterm)
        simp [Term.isOr, hne]
      have hlt : (second :: rest).countP Term.isOr < (second :: rest).length := by
        refine Nat.lt_of_le_of_ne List.countP_le_length fun hall => ?_
        rw [List.countP_eq_length.1 hall last (List.mem_of_getLast? hterm)] at hno
        exact absurd hno (by decide)
      rw [joinPoints, length_markedPlaces]
      simpa [size] using hlt

/-- The expression of a sequence whose last term is no alternative. -/
theorem lone_or_conjunction_of_synthesize {sequence : Sequence} {expression : Text}
    (h : sequence.synthesize = .ok expression) (hne : sequence.terms ≠ [])
    (hlast : ∀ term, sequence.terms.getLast? = some term → term.operator ≠ .or) :
    (sequence.size = 1 ∧ sequence.fragments = .ok [expression]) ∨
      2 ≤ sequence.size ∧
        ∃ parts, expression = Expression.wrap Expression.matchAll parts := by
  obtain ⟨_, hvalidate, -⟩ := bind_eq_ok_iff.1 h
  obtain ⟨fragments, shape, hfragments, hshape⟩ := exists_fragments_and_shape hvalidate
  rw [synthesize_eq_ok_render hvalidate hfragments hshape] at h
  obtain rfl := Except.ok.inj h
  have hlength := length_fragments hfragments
  rw [hlength] at hshape
  by_cases hone : sequence.size = 1
  · rw [hone] at hshape hlength
    obtain ⟨fragment, rfl⟩ := List.length_eq_one_iff.1 hlength
    rw [Shape.eq_single_of_ofPoints hshape]
    exact .inl ⟨hone, hfragments⟩
  · have hpos : 0 < sequence.size := List.length_pos_iff.2 hne
    have hsize : 2 ≤ sequence.size := by omega
    exact .inr ⟨hsize, Shape.exists_render_eq_wrap_matchAll hshape
      (length_disjunctionPoints_lt hsize hlast) fragments⟩

end Sequence

/-- A clause adds an alternative exactly if a semicolon makes it one. -/
theorem Clause.Means.eq_or_iff {dialect : Dialect} {sequence : Sequence} {clause : Clause}
    {operator : Operator} {body : Body} (h : clause.Means dialect sequence operator body) :
    operator = .or ↔ clause.disjunct = true ∧ sequence.isEmpty = false := by
  refine ⟨h.disjunct_of_eq_or, ?_⟩
  rintro ⟨hdisjunct, hempty⟩
  have hcarried := h.operator_eq_ok
  rw [Clause.operator, hdisjunct, hempty] at hcarried
  cases hnegated : clause.negated with
  | true => simp [hnegated] at hcarried
  | false => simpa [hnegated, eq_comm] using hcarried

/-- The alternatives of a rule are those of its sequence. -/
theorem Rule.tagCount_of_decodeFrom {dialect : Dialect} {clauses : List Clause}
    {sequence : Sequence} (h : decodeFrom dialect .empty clauses = .ok sequence) :
    sequence.tagCount .or = clauses.tail.countP Clause.disjunct := by
  induction clauses using List.reverseRecOn generalizing sequence with
  | nil =>
      obtain rfl := Except.ok.inj h
      rfl
  | append_singleton front last ih =>
      obtain ⟨decoded, operator, body, hfront, hlast, rfl⟩ :=
        decodeFrom_append_singleton_eq_ok_iff.1 h
      rw [Sequence.tagCount_push, ih hfront]
      cases front with
      | nil =>
          obtain rfl := Except.ok.inj hfront
          have hno : operator ≠ .or := fun hor => absurd (hlast.eq_or_iff.1 hor).2 (by decide)
          simp [hno]
      | cons first rest =>
          have hsize : decoded.size = (first :: rest).length := by
            simpa [Sequence.size_empty] using size_of_decodeFrom hfront
          have hempty : decoded.isEmpty = false := by
            rw [Sequence.isEmpty, List.isEmpty_eq_false_iff, ← List.length_pos_iff]
            change 0 < decoded.size
            simp [hsize]
          have hor : operator = .or ↔ last.disjunct = true := by
            simp [hlast.eq_or_iff, hempty]
          simp [hor, List.countP_append, List.countP_singleton]

namespace Dialect

theorem expression_of_isEmptyRule {dialect : Dialect} {text : Text}
    (h : dialect.isEmptyRule text = true) : dialect.expression text = .ok none := by
  rw [expression, if_pos h]

theorem expression_of_decode_eq_error {dialect : Dialect} {text : Text} {fault : RuleFault}
    (hrule : dialect.isEmptyRule text = false) (h : dialect.decode text = .error fault) :
    dialect.expression text = .error (.rule fault) := by
  rw [expression, if_neg (by simp [hrule]), h]
  rfl

theorem expression_of_decode_eq_ok {dialect : Dialect} {text : Text} {sequence : Sequence}
    (hrule : dialect.isEmptyRule text = false) (h : dialect.decode text = .ok sequence) :
    dialect.expression text = (sequence.synthesize.mapError .sequence).map some := by
  rw [expression, if_neg (by simp [hrule]), h]
  change (sequence.synthesize.mapError Failure.sequence >>= fun made => .ok (some made)) = _
  cases sequence.synthesize with
  | ok expression => rfl
  | error fault => rfl

/-- A text is the one for no rule, or a faulty rule, or it decodes. -/
theorem isEmptyRule_or_faulty_or_decodes (dialect : Dialect) (text : Text) :
    dialect.isEmptyRule text = true ∨
      (dialect.isEmptyRule text = false ∧ ∃ fault, dialect.decode text = .error fault) ∨
      ∃ rule sequence, dialect.Decodes text rule sequence := by
  cases hrule : dialect.isEmptyRule text with
  | true => exact .inl rfl
  | false =>
      cases hdecode : dialect.decode text with
      | error fault => exact .inr (.inl ⟨rfl, fault, rfl⟩)
      | ok sequence =>
          obtain ⟨rule, hparse, -⟩ := (decode_of_not_isEmptyRule hrule).1 hdecode
          exact .inr (.inr ⟨rule, sequence, hrule, hparse, hdecode⟩)

section Decodes

variable {dialect : Dialect} {text : Text} {rule : Rule} {sequence : Sequence}

theorem Decodes.decodeFrom_eq (h : dialect.Decodes text rule sequence) :
    Rule.decodeFrom dialect .empty rule.clauses = .ok sequence := by
  obtain ⟨read, hparse, hdecode⟩ := (decode_of_not_isEmptyRule h.isEmptyRule).1 h.decode
  rw [h.parse] at hparse
  rwa [Except.ok.inj hparse]

theorem Decodes.tagCount_eq (h : dialect.Decodes text rule sequence) :
    sequence.tagCount .or = rule.alternatives :=
  Rule.tagCount_of_decodeFrom h.decodeFrom_eq

theorem Decodes.size_eq (h : dialect.Decodes text rule sequence) :
    sequence.size = rule.clauses.length := by
  simpa [Sequence.size_empty] using Rule.size_of_decodeFrom h.decodeFrom_eq

theorem Decodes.spellable (h : dialect.Decodes text rule sequence)
    (hlength : rule.clauses.length < UInt32.size) : sequence.Spellable :=
  Rule.spellable_of_decodeFrom (ended_of_parse h.parse) h.decodeFrom_eq (h.size_eq ▸ hlength)

theorem Decodes.terms_ne_nil (h : dialect.Decodes text rule sequence) :
    sequence.terms ≠ [] := by
  intro hnil
  have hsize := h.size_eq
  rw [Sequence.size, hnil] at hsize
  exact (ended_of_parse h.parse).ne_nil (List.length_eq_zero_iff.1 hsize.symm)

theorem Decodes.expression_eq_tooManyDisjunctions (h : dialect.Decodes text rule sequence)
    (hlength : rule.clauses.length < UInt32.size) (hmany : 3 ≤ rule.alternatives) :
    dialect.expression text =
      .error (.sequence (.tooManyDisjunctions rule.alternatives 2)) := by
  have hcount : maxDisjunctions < sequence.tagCount .or := by
    rw [h.tagCount_eq]
    exact hmany
  rw [expression_of_decode_eq_ok h.isEmptyRule h.decode,
    (h.spellable hlength).coherent.synthesize_eq_tooManyDisjunctions hcount, h.tagCount_eq]
  rfl

theorem Decodes.exists_expression_eq_some (h : dialect.Decodes text rule sequence)
    (hlength : rule.clauses.length < UInt32.size) (hfew : rule.alternatives < 3) :
    ∃ expression, dialect.expression text = .ok (some expression) ∧
      sequence.synthesize = .ok expression := by
  have hcount : sequence.tagCount .or ≤ maxDisjunctions := by
    rw [h.tagCount_eq]
    exact Nat.le_of_lt_succ hfew
  obtain ⟨expression, hexpression⟩ :=
    (h.spellable hlength).coherent.exists_synthesize_eq_ok hcount
  refine ⟨expression, ?_, hexpression⟩
  rw [expression_of_decode_eq_ok h.isEmptyRule h.decode, hexpression]
  rfl

theorem Decodes.lone_or_conjunction (h : dialect.Decodes text rule sequence)
    (hlength : rule.clauses.length < UInt32.size) {expression : Text}
    (hexpression : sequence.synthesize = .ok expression) :
    expression ≠ [] ∧ ¬"match_any(".toList <+: expression ∧
      rule.LoneOrConjunction sequence expression := by
  have hany : "match_any(".toList = Expression.matchAny ++ ['('] := rfl
  have hnames : ∀ name ∈
      [Expression.matchWord, Expression.matchTemplate, Expression.negation],
      '(' ∉ name ∧ Expression.matchAny ≠ name := by
    decide
  rcases Sequence.lone_or_conjunction_of_synthesize hexpression h.terms_ne_nil
      (h.spellable hlength).last_ne_or with
    ⟨hsize, hfragments⟩ | ⟨hsize, parts, rfl⟩
  · obtain ⟨term, hterm, hfragment⟩ := exists_mem_of_mem_mapM hfragments List.mem_cons_self
    obtain ⟨name, hname, hopens⟩ := Sequence.opens_of_fragment hterm hfragment
    obtain ⟨hparen, hne⟩ := hnames name hname
    exact ⟨hopens.ne_nil, hany ▸ hopens.not_prefix hparen (by decide) hne,
      .inl ⟨h.size_eq ▸ hsize, hfragments⟩⟩
  · have hopens := Expression.opens_wrap Expression.matchAll parts
    exact ⟨hopens.ne_nil, hany ▸ hopens.not_prefix (by decide) (by decide) (by decide),
      .inr ⟨h.size_eq ▸ hsize, Expression.matchAll_prefix_wrap parts⟩⟩

end Decodes

/-- What becomes of a text, each case with its condition. -/
inductive Outcome (dialect : Dialect) (text : Text) : Except Failure (Option Text) → Prop
  | noRule : dialect.isEmptyRule text = true → Outcome dialect text (.ok none)
  | faulty {fault : RuleFault} :
      dialect.isEmptyRule text = false → dialect.decode text = .error fault →
      Outcome dialect text (.error (.rule fault))
  | crowded {rule : Rule} {sequence : Sequence} :
      dialect.Decodes text rule sequence → 3 ≤ rule.alternatives →
      Outcome dialect text (.error (.sequence (.tooManyDisjunctions rule.alternatives 2)))
  | written {rule : Rule} {sequence : Sequence} {expression : Text} :
      dialect.Decodes text rule sequence → rule.alternatives < 3 →
      expression ≠ [] → ¬"match_any(".toList <+: expression →
      rule.LoneOrConjunction sequence expression →
      Outcome dialect text (.ok (some expression))

/-- The cases leave nothing out. -/
theorem outcome_expression (dialect : Dialect) (text : Text)
    (hlength : ∀ rule, dialect.parse text = .ok rule →
      rule.clauses.length < UInt32.size) :
    dialect.Outcome text (dialect.expression text) := by
  rcases dialect.isEmptyRule_or_faulty_or_decodes text with
    hrule | ⟨hrule, fault, hfault⟩ | ⟨rule, sequence, h⟩
  · rw [expression_of_isEmptyRule hrule]
    exact .noRule hrule
  · rw [expression_of_decode_eq_error hrule hfault]
    exact .faulty hrule hfault
  · have hrule := hlength rule h.parse
    rcases Nat.lt_or_ge rule.alternatives 3 with hfew | hmany
    · obtain ⟨expression, heq, hexpression⟩ := h.exists_expression_eq_some hrule hfew
      obtain ⟨hne, hany, hshape⟩ := h.lone_or_conjunction hrule hexpression
      rw [heq]
      exact .written h hfew hne hany hshape
    · rw [h.expression_eq_tooManyDisjunctions hrule hmany]
      exact .crowded h hmany

/-- What becomes of every text of fewer than 2^32 clauses: no expression if it is
the text for no rule, the fault of a faulty rule, too many disjunctions if at least
three clauses are alternatives, and else an expression, which is neither empty nor
a disjunction: the fragment of the only clause or a conjunction. -/
theorem expression_outcome (dialect : Dialect) (text : Text)
    (hlength : ∀ rule, dialect.parse text = .ok rule →
      rule.clauses.length < UInt32.size) :
    (dialect.expression text = .ok none ↔ dialect.isEmptyRule text = true) ∧
      (∀ fault, dialect.expression text = .error (.rule fault) ↔
        dialect.isEmptyRule text = false ∧ dialect.decode text = .error fault) ∧
      (∀ fault, dialect.expression text = .error (.sequence fault) ↔
        ∃ rule sequence, dialect.Decodes text rule sequence ∧ 3 ≤ rule.alternatives ∧
          fault = .tooManyDisjunctions rule.alternatives 2) ∧
      (∀ failure, dialect.expression text = .error failure →
        (∃ fault, failure = .rule fault) ∨ ∃ fault, failure = .sequence fault) ∧
      ((∃ expression, dialect.expression text = .ok (some expression)) ↔
        ∃ rule sequence, dialect.Decodes text rule sequence ∧ rule.alternatives < 3) ∧
      ∀ expression, dialect.expression text = .ok (some expression) →
        expression ≠ [] ∧ ¬"match_any(".toList <+: expression ∧
          ∃ rule sequence, dialect.Decodes text rule sequence ∧
            rule.LoneOrConjunction sequence expression := by
  have houtcome := dialect.outcome_expression text hlength
  refine ⟨⟨?_, expression_of_isEmptyRule⟩, fun fault => ⟨?_, ?_⟩, fun fault => ⟨?_, ?_⟩, ?_,
    ⟨?_, ?_⟩, ?_⟩
  · intro h
    rw [h] at houtcome
    cases houtcome with
    | noRule hrule => exact hrule
  · intro h
    rw [h] at houtcome
    cases houtcome with
    | faulty hrule hfault => exact ⟨hrule, hfault⟩
  · rintro ⟨hrule, hfault⟩
    exact expression_of_decode_eq_error hrule hfault
  · intro h
    rw [h] at houtcome
    cases houtcome with
    | crowded hdecodes hmany => exact ⟨_, _, hdecodes, hmany, rfl⟩
  · rintro ⟨rule, sequence, hdecodes, hmany, rfl⟩
    exact hdecodes.expression_eq_tooManyDisjunctions (hlength rule hdecodes.parse) hmany
  · intro failure h
    rw [h] at houtcome
    cases houtcome with
    | faulty hrule hfault => exact .inl ⟨_, rfl⟩
    | crowded hdecodes hmany => exact .inr ⟨_, rfl⟩
  · rintro ⟨expression, h⟩
    rw [h] at houtcome
    cases houtcome with
    | written hdecodes hfew hne hany hshape => exact ⟨_, _, hdecodes, hfew⟩
  · rintro ⟨rule, sequence, hdecodes, hfew⟩
    obtain ⟨expression, heq, -⟩ :=
      hdecodes.exists_expression_eq_some (hlength rule hdecodes.parse) hfew
    exact ⟨expression, heq⟩
  · intro expression h
    rw [h] at houtcome
    cases houtcome with
    | written hdecodes hfew hne hany hshape => exact ⟨hne, hany, _, _, hdecodes, hshape⟩

end Dialect

namespace OutcomesWitness

/-- A semicolon after the first clause, which does not count, and two that do. -/
def text : Text :=
  "correct_response(A) :- term(A,elm); term(A,ash); term(A,oak); not term(A,fir).".toList

def expression : Text :=
  "match_all( match_any( match_w(elm) match_w(ash) match_w(oak) ) not(match_w(fir)) )".toList

theorem expression_outcome_three_semicolons :
    (∀ rule, ({} : Dialect).parse text = .ok rule → rule.clauses.length < UInt32.size) ∧
      ({} : Dialect).expression text = .ok (some expression) ∧
      expression ≠ [] ∧ ¬"match_any(".toList <+: expression ∧
      ∃ rule sequence, ({} : Dialect).Decodes text rule sequence ∧
        rule.LoneOrConjunction sequence expression := by
  have hlength : ∀ rule, ({} : Dialect).parse text = .ok rule →
      rule.clauses.length < UInt32.size :=
    Dialect.length_clauses_lt_of_parse (by decide)
  have hexpression : ({} : Dialect).expression text = .ok (some expression) := by
    decide +kernel
  exact ⟨hlength, hexpression,
    (Dialect.expression_outcome {} text hlength).2.2.2.2.2 expression hexpression⟩

end OutcomesWitness

end GradingRule
