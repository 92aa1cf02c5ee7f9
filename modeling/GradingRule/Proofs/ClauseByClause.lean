/-
Rules clause by clause.  Whether a clause is sound, which term it stands for and
what is wrong with it otherwise is said of the clause and the clauses before it
alone.  A rule decodes exactly if all its clauses are sound, to the terms that
they stand for, and otherwise it fails with what the first unsound clause raises.
-/
import GradingRule.Proofs.Decoding

namespace GradingRule

/-- The place, counted from 0, of the clause that a letter names: B the first,
and so on up to I. -/
def letterPlace? : Text → Option Nat
  | [c] => if 'B' ≤ c ∧ c ≤ 'I' then some (c.toNat - 'B'.toNat) else none
  | _ => none

namespace Clause

/-- The clause asks for a word or a template. -/
def IsPrimary (clause : Clause) : Prop :=
  ∃ form, clause.command = (TermKind.primary form).command

/-- A semicolon after a clause makes it an alternative, but not the first clause:
it has nothing to be an alternative to. -/
def isAlternative (earlier : List Clause) (clause : Clause) : Bool :=
  clause.disjunct && !earlier.isEmpty

/-- The operator that a clause gives its term. -/
def tag (earlier : List Clause) (clause : Clause) : Operator :=
  if clause.negated then .not
  else if clause.isAlternative earlier then .or
  else .and

/-- The letter names one of the earlier clauses, which asks for a word or a
template. -/
def Names (earlier : List Clause) (letter : Text) (place : Nat) : Prop :=
  letterPlace? letter = some place ∧
    ∃ named, earlier[place]? = some named ∧ named.IsPrimary

/-- What is wrong with a letter that names no such clause. -/
inductive RaisesLetter (earlier : List Clause) (letter : Text) : LetterFault → Prop
  | notLetter : letter.length ≠ 1 → RaisesLetter earlier letter .notLetter
  | outOfRange {c : Char} :
      letter = [c] → ¬('B' ≤ c ∧ c ≤ 'I') → RaisesLetter earlier letter .outOfRange
  | notEarlier {place : Nat} :
      letterPlace? letter = some place → earlier.length ≤ place →
      RaisesLetter earlier letter .notEarlier
  | notPrimary {place : Nat} {named : Clause} :
      letterPlace? letter = some place → earlier[place]? = some named →
      ¬named.IsPrimary → RaisesLetter earlier letter .notPrimary

/-- A clause that adds a term after the earlier ones. -/
inductive Sound (dialect : Dialect) (earlier : List Clause) (clause : Clause) : Prop
  | primary {form : Form} {raw : Text} :
      clause.command = (TermKind.primary form).command →
      clause.arguments = [dialect.responseVar, raw] →
      raw ≠ [] → (∀ c ∈ raw, isBlank c = false) →
      ¬(clause.negated = true ∧ clause.isAlternative earlier = true) →
      clause.Sound dialect earlier
  | pair {relation : Relation} {first second : Text} {place other : Nat} :
      clause.command = (TermKind.pair relation).command →
      clause.arguments = [dialect.responseVar, first, second] →
      Names earlier first place → Names earlier second other → first ≠ second →
      clause.negated = false → clause.isAlternative earlier = false →
      clause.Sound dialect earlier

/-- The term that a clause adds: its id is its place counted from 1, and the ids of
a relation are those that its letters name. -/
structure StandsFor (earlier : List Clause) (clause : Clause) (term : Term) : Prop where
  number : term.id.number = earlier.length + 1
  command : clause.command = term.body.kind.command
  operator : term.operator = clause.tag earlier
  token : ∀ form token, term.body = .primary form token →
    ∃ raw, clause.arguments.tail = [raw] ∧ token.text = form.normalize raw
  letters : ∀ relation first second, term.body = .pair relation first second →
    clause.arguments.tail = [first.letter, second.letter]

/-- The first thing that is wrong with a clause for a term of some kind, if its
first argument is the response variable and `payload` the others. -/
inductive RaisesPayload (earlier : List Clause) (clause : Clause) :
    TermKind → List Text → RuleFault → Prop
  | negatedDisjunct {kind : TermKind} {payload : List Text} :
      clause.negated = true → clause.isAlternative earlier = true →
      clause.RaisesPayload earlier kind payload (.operator clause.text .negatedDisjunct)
  | tokenCount {form : Form} {payload : List Text} :
      ¬(clause.negated = true ∧ clause.isAlternative earlier = true) →
      payload.length ≠ 1 →
      clause.RaisesPayload earlier (.primary form) payload
        (.arguments clause.text (.tokenCount payload.length))
  | emptyToken {form : Form} :
      ¬(clause.negated = true ∧ clause.isAlternative earlier = true) →
      clause.RaisesPayload earlier (.primary form) [[]]
        (.arguments clause.text (.token .empty))
  | blankToken {form : Form} {raw : Text} {c : Char} :
      ¬(clause.negated = true ∧ clause.isAlternative earlier = true) →
      c ∈ raw → isBlank c = true →
      clause.RaisesPayload earlier (.primary form) [raw]
        (.arguments clause.text (.token (.blank raw)))
  | onRelation {relation : Relation} {payload : List Text} :
      ¬(clause.negated = true ∧ clause.isAlternative earlier = true) →
      clause.tag earlier ≠ .and →
      clause.RaisesPayload earlier (.pair relation) payload
        (.operator clause.text (.onRelation relation (clause.tag earlier)))
  | referenceCount {relation : Relation} {payload : List Text} :
      clause.tag earlier = .and → payload.length ≠ 2 →
      clause.RaisesPayload earlier (.pair relation) payload
        (.arguments clause.text (.referenceCount payload.length))
  | first {relation : Relation} {first second : Text} {cause : LetterFault} :
      clause.tag earlier = .and → RaisesLetter earlier first cause →
      clause.RaisesPayload earlier (.pair relation) [first, second]
        (.reference clause.text first cause)
  | second {relation : Relation} {first second : Text} {place : Nat} {cause : LetterFault} :
      clause.tag earlier = .and → Names earlier first place →
      RaisesLetter earlier second cause →
      clause.RaisesPayload earlier (.pair relation) [first, second]
        (.reference clause.text second cause)
  | repeated {relation : Relation} {letter : Text} {place : Nat} :
      clause.tag earlier = .and → Names earlier letter place →
      clause.RaisesPayload earlier (.pair relation) [letter, letter]
        (.reference clause.text letter .repeated)

/-- The first thing that is wrong with a clause that is not sound. -/
inductive Raises (dialect : Dialect) (earlier : List Clause) (clause : Clause) :
    RuleFault → Prop
  | unknownCommand :
      (∀ kind : TermKind, clause.command ≠ kind.command) →
      clause.Raises dialect earlier (.unknownCommand clause.text clause.command)
  | responseVar {kind : TermKind} :
      clause.command = kind.command →
      clause.arguments.head? ≠ some dialect.responseVar →
      clause.Raises dialect earlier
        (.arguments clause.text (.responseVar dialect.responseVar))
  | payload {kind : TermKind} {payload : List Text} {fault : RuleFault} :
      clause.command = kind.command →
      clause.arguments = dialect.responseVar :: payload →
      clause.RaisesPayload earlier kind payload fault →
      clause.Raises dialect earlier fault

/-! A clause is sound or raises a fault: the cases leave nothing out. -/

theorem tag_eq_and_iff {earlier : List Clause} {clause : Clause} :
    clause.tag earlier = .and ↔
      clause.negated = false ∧ clause.isAlternative earlier = false := by
  rw [tag]
  cases clause.negated <;> cases clause.isAlternative earlier <;> simp

theorem names_or_raisesLetter (earlier : List Clause) (letter : Text) :
    (∃ place, Names earlier letter place) ∨ ∃ cause, RaisesLetter earlier letter cause := by
  by_cases hlength : letter.length = 1
  · obtain ⟨c, rfl⟩ := List.length_eq_one_iff.1 hlength
    by_cases hrange : 'B' ≤ c ∧ c ≤ 'I'
    · have hplace : letterPlace? [c] = some (c.toNat - 'B'.toNat) := if_pos hrange
      cases hnamed : earlier[c.toNat - 'B'.toNat]? with
      | none => exact .inr ⟨_, .notEarlier hplace (List.getElem?_eq_none_iff.1 hnamed)⟩
      | some named =>
          by_cases hprimary : named.IsPrimary
          · exact .inl ⟨_, hplace, named, hnamed, hprimary⟩
          · exact .inr ⟨_, .notPrimary hplace hnamed hprimary⟩
    · exact .inr ⟨_, .outOfRange rfl hrange⟩
  · exact .inr ⟨_, .notLetter hlength⟩

theorem sound_or_raises_primary {dialect : Dialect} {earlier : List Clause} {clause : Clause}
    {form : Form} {payload : List Text}
    (hcommand : clause.command = (TermKind.primary form).command)
    (harguments : clause.arguments = dialect.responseVar :: payload)
    (hfit : ¬(clause.negated = true ∧ clause.isAlternative earlier = true)) :
    clause.Sound dialect earlier ∨
      ∃ fault, clause.RaisesPayload earlier (.primary form) payload fault := by
  by_cases hlength : payload.length = 1
  · obtain ⟨raw, rfl⟩ := List.length_eq_one_iff.1 hlength
    by_cases hne : raw = []
    · subst hne
      exact .inr ⟨_, .emptyToken hfit⟩
    · by_cases hblank : ∀ c ∈ raw, isBlank c = false
      · exact .inl (.primary hcommand harguments hne hblank hfit)
      · obtain ⟨c, hc, hbad⟩ : ∃ c ∈ raw, isBlank c = true := by simpa using hblank
        exact .inr ⟨_, .blankToken hfit hc hbad⟩
  · exact .inr ⟨_, .tokenCount hfit hlength⟩

theorem sound_or_raises_pair {dialect : Dialect} {earlier : List Clause} {clause : Clause}
    {relation : Relation} {payload : List Text}
    (hcommand : clause.command = (TermKind.pair relation).command)
    (harguments : clause.arguments = dialect.responseVar :: payload)
    (hfit : ¬(clause.negated = true ∧ clause.isAlternative earlier = true)) :
    clause.Sound dialect earlier ∨
      ∃ fault, clause.RaisesPayload earlier (.pair relation) payload fault := by
  by_cases htag : clause.tag earlier = .and
  · by_cases hlength : payload.length = 2
    · obtain ⟨first, second, rfl⟩ := List.length_eq_two.1 hlength
      rcases names_or_raisesLetter earlier first with ⟨place, hfirst⟩ | ⟨cause, hfirst⟩
      · rcases names_or_raisesLetter earlier second with ⟨other, hsecond⟩ | ⟨cause, hsecond⟩
        · by_cases hsame : first = second
          · subst hsame
            exact .inr ⟨_, .repeated htag hfirst⟩
          · obtain ⟨hnegated, halternative⟩ := tag_eq_and_iff.1 htag
            exact .inl
              (.pair hcommand harguments hfirst hsecond hsame hnegated halternative)
        · exact .inr ⟨_, .second htag hfirst hsecond⟩
      · exact .inr ⟨_, .first htag hfirst⟩
    · exact .inr ⟨_, .referenceCount htag hlength⟩
  · exact .inr ⟨_, .onRelation hfit htag⟩

theorem sound_or_raises (dialect : Dialect) (earlier : List Clause) (clause : Clause) :
    clause.Sound dialect earlier ∨ ∃ fault, clause.Raises dialect earlier fault := by
  by_cases hknown : ∃ kind : TermKind, clause.command = kind.command
  · obtain ⟨kind, hcommand⟩ := hknown
    by_cases hvar : clause.arguments.head? = some dialect.responseVar
    · obtain ⟨payload, harguments⟩ := List.head?_eq_some_iff.1 hvar
      by_cases hfit : clause.negated = true ∧ clause.isAlternative earlier = true
      · exact .inr ⟨_, .payload hcommand harguments (.negatedDisjunct hfit.1 hfit.2)⟩
      · cases kind with
        | primary form =>
            exact (sound_or_raises_primary hcommand harguments hfit).imp_right
              fun ⟨fault, hfault⟩ => ⟨fault, .payload hcommand harguments hfault⟩
        | pair relation =>
            exact (sound_or_raises_pair hcommand harguments hfit).imp_right
              fun ⟨fault, hfault⟩ => ⟨fault, .payload hcommand harguments hfault⟩
    · exact .inr ⟨_, .responseVar hcommand hvar⟩
  · exact .inr ⟨_, .unknownCommand (by simpa using hknown)⟩

end Clause

/-- The terms are those that the clauses stand for, one for each. -/
structure Sequence.Translates (sequence : Sequence) (clauses : List Clause) : Prop where
  size : sequence.size = clauses.length
  terms : ∀ index (clause : Clause) term, clauses[index]? = some clause →
    sequence.terms[index]? = some term → clause.StandsFor (clauses.take index) term

namespace TermKind

theorem command_injective : Function.Injective command := by
  intro kind other h
  have hkind := ofCommand?_command kind
  rw [h, ofCommand?_command] at hkind
  exact (Option.some.inj hkind).symm

theorem command_eq_of_ofCommand? {text : Text} {kind : TermKind}
    (h : ofCommand? text = some kind) : text = kind.command := by
  simpa [eq_comm] using List.find?_some h

theorem ofCommand?_eq_none {text : Text} (h : ∀ kind : TermKind, text ≠ kind.command) :
    ofCommand? text = none := by
  rw [ofCommand?, List.find?_eq_none]
  intro kind _
  simpa using (h kind).symm

end TermKind

namespace Clause

theorem StandsFor.isPrimary_iff {earlier : List Clause} {clause : Clause} {term : Term}
    (h : clause.StandsFor earlier term) : term.isPrimary = true ↔ clause.IsPrimary := by
  rw [IsPrimary, h.command]
  cases hbody : term.body with
  | primary form token =>
      simp only [Term.isPrimary, Term.token?, hbody, Option.isSome_some, true_iff]
      exact ⟨form, rfl⟩
  | pair relation first second =>
      simp only [Term.isPrimary, Term.token?, hbody, Option.isSome_none, Bool.false_eq_true,
        false_iff]
      rintro ⟨form, hform⟩
      exact TermKind.noConfusion (TermKind.command_injective hform)

end Clause

/-! The letters of a rule, looked up in the sequence. -/

theorem letterPlace?_eq_some_iff {letter : Text} {place : Nat} :
    letterPlace? letter = some place ↔
      ∃ c, letter = [c] ∧ ('B' ≤ c ∧ c ≤ 'I') ∧ c.toNat = place + 'B'.toNat := by
  rw [letterPlace?.eq_def]
  split
  · next c =>
      have hle : ∀ d : Char, 'B' ≤ d → 'B'.toNat ≤ d.toNat := fun d hd => hd
      constructor
      · intro h
        split_ifs at h with hrange
        have hplace := Option.some.inj h
        have := hle c hrange.1
        exact ⟨c, rfl, hrange, by omega⟩
      · rintro ⟨d, hd, hrange, hnat⟩
        obtain rfl : c = d := List.singleton_inj.1 hd
        rw [if_pos hrange, hnat, Nat.add_sub_cancel]
  · next hletter =>
      simp only [reduceCtorEq, false_iff]
      rintro ⟨c, rfl, -⟩
      exact hletter c rfl

theorem lt_of_letterPlace?_eq_some {letter : Text} {place : Nat}
    (h : letterPlace? letter = some place) : place < 8 := by
  obtain ⟨c, -, hrange, hnat⟩ := letterPlace?_eq_some_iff.1 h
  have hle : c.toNat ≤ 'I'.toNat := hrange.2
  have hletters : 'I'.toNat = 'B'.toNat + 7 := rfl
  omega

theorem succ_lt_of_letterPlace?_eq_some {letter : Text} {place : Nat}
    (h : letterPlace? letter = some place) : place + 1 < UInt32.size :=
  Nat.lt_trans (Nat.succ_lt_succ (lt_of_letterPlace?_eq_some h)) (by decide)

/-- The letter that names a clause is the letter of its term. -/
theorem letter_atPlace_of_letterPlace?_eq_some {letter : Text} {place : Nat}
    (h : letterPlace? letter = some place) : (TermId.atPlace (place + 1)).letter = letter := by
  have hlt := succ_lt_of_letterPlace?_eq_some h
  have hnumber : (TermId.atPlace (place + 1)).number = place + 1 := by
    change min (place + 1) (UInt32.size - 1) = place + 1
    omega
  obtain ⟨c, rfl, -, hnat⟩ := letterPlace?_eq_some_iff.1 h
  have hletters : 'B'.toNat = 'A'.toNat + 1 := rfl
  have hsum : 'A'.toNat + (place + 1) = c.toNat := by omega
  rw [TermId.letter, hnumber, hsum, Char.ofNat_toNat]

namespace Sequence

theorem resolveLetter_of_letterPlace?_eq_some {sequence : Sequence} {letter : Text}
    {place : Nat} (h : letterPlace? letter = some place) :
    sequence.resolveLetter letter =
      match sequence.terms[place]? with
      | none => .error .notEarlier
      | some term =>
          if term.isPrimary then .ok (.atPlace (place + 1)) else .error .notPrimary := by
  have hplace := succ_lt_of_letterPlace?_eq_some h
  obtain ⟨c, rfl, hrange, hnat⟩ := letterPlace?_eq_some_iff.1 h
  have hletters : 'B'.toNat = 'A'.toNat + 1 := rfl
  have hsub : c.toNat - 'A'.toNat = place + 1 := by omega
  have hget : sequence.get? (.atPlace (place + 1)) = sequence.terms[place]? := by
    rw [get?, TermId.index?_atPlace hplace, Option.bind_some]
  rw [resolveLetter, if_pos hrange, hsub]
  cases hterm : sequence.terms[place]? with
  | none => simp only [hget, hterm]
  | some term => simp only [hget, hterm]

theorem Translates.isPrimary_iff {sequence : Sequence} {clauses : List Clause}
    (h : sequence.Translates clauses) {place : Nat} {named : Clause} {term : Term}
    (hnamed : clauses[place]? = some named) (hterm : sequence.terms[place]? = some term) :
    term.isPrimary = true ↔ named.IsPrimary :=
  (h.terms place named term hnamed hterm).isPrimary_iff

theorem Translates.exists_term {sequence : Sequence} {clauses : List Clause}
    (h : sequence.Translates clauses) {place : Nat} {named : Clause}
    (hnamed : clauses[place]? = some named) : ∃ term, sequence.terms[place]? = some term := by
  have hlt := (List.getElem?_eq_some_iff.1 hnamed).1
  rw [← h.size] at hlt
  exact ⟨_, List.getElem?_eq_getElem hlt⟩

theorem Translates.isEmpty_eq {sequence : Sequence} {clauses : List Clause}
    (h : sequence.Translates clauses) : sequence.isEmpty = clauses.isEmpty := by
  have hsize : sequence.terms.length = clauses.length := h.size
  rw [isEmpty, Bool.eq_iff_iff, List.isEmpty_iff_length_eq_zero,
    List.isEmpty_iff_length_eq_zero, hsize]

theorem Translates.resolveLetter_of_names {sequence : Sequence} {clauses : List Clause}
    (h : sequence.Translates clauses) {letter : Text} {place : Nat}
    (hnames : Clause.Names clauses letter place) :
    sequence.resolveLetter letter = .ok (.atPlace (place + 1)) := by
  obtain ⟨hplace, named, hnamed, hprimary⟩ := hnames
  obtain ⟨term, hterm⟩ := h.exists_term hnamed
  rw [resolveLetter_of_letterPlace?_eq_some hplace, hterm]
  exact if_pos ((h.isPrimary_iff hnamed hterm).2 hprimary)

theorem Translates.resolveLetter_of_raisesLetter {sequence : Sequence}
    {clauses : List Clause} (h : sequence.Translates clauses) {letter : Text}
    {cause : LetterFault} (hraises : Clause.RaisesLetter clauses letter cause) :
    sequence.resolveLetter letter = .error cause := by
  cases hraises with
  | notLetter hlength =>
      rcases letter with _ | ⟨c, _ | ⟨d, rest⟩⟩
      · rfl
      · exact absurd rfl hlength
      · rfl
  | outOfRange hletter hrange =>
      subst hletter
      exact if_neg hrange
  | notEarlier hplace hle =>
      rw [← h.size] at hle
      rw [resolveLetter_of_letterPlace?_eq_some hplace, List.getElem?_eq_none hle]
  | notPrimary hplace hnamed hprimary =>
      obtain ⟨term, hterm⟩ := h.exists_term hnamed
      rw [resolveLetter_of_letterPlace?_eq_some hplace, hterm]
      exact if_neg fun htoken => hprimary ((h.isPrimary_iff hnamed hterm).1 htoken)

end Sequence

namespace Clause

/-! What a clause decodes to after the terms of the earlier clauses. -/

theorem operator_eq_error {earlier : List Clause} {clause : Clause}
    (hnegated : clause.negated = true) (halternative : clause.isAlternative earlier = true) :
    clause.operator earlier.isEmpty =
      .error (.operator clause.text .negatedDisjunct) := by
  rw [isAlternative] at halternative
  rw [operator, hnegated, halternative]

theorem operator_eq_ok_tag {earlier : List Clause} {clause : Clause}
    (h : ¬(clause.negated = true ∧ clause.isAlternative earlier = true)) :
    clause.operator earlier.isEmpty = .ok (clause.tag earlier) := by
  rw [operator, tag, ← isAlternative]
  cases hnegated : clause.negated with
  | true =>
      have halternative : clause.isAlternative earlier = false := by simpa [hnegated] using h
      rw [halternative]
      rfl
  | false => cases clause.isAlternative earlier <;> rfl

theorem operator_eq_ok_iff {earlier : List Clause} {clause : Clause} {operator : Operator} :
    clause.operator earlier.isEmpty = .ok operator ↔
      ¬(clause.negated = true ∧ clause.isAlternative earlier = true) ∧
        operator = clause.tag earlier := by
  by_cases hfit : clause.negated = true ∧ clause.isAlternative earlier = true
  · rw [operator_eq_error hfit.1 hfit.2]
    exact ⟨fun h => absurd h (by simp), fun h => absurd hfit h.1⟩
  · rw [operator_eq_ok_tag hfit, Except.ok.injEq]
    exact ⟨fun h => ⟨hfit, h.symm⟩, fun h => h.2.symm⟩

/-- A sound clause means something. -/
theorem Sound.exists_means {dialect : Dialect} {sequence : Sequence} {earlier : List Clause}
    {clause : Clause} (h : clause.Sound dialect earlier)
    (hearlier : sequence.Translates earlier) :
    ∃ operator body, clause.Means dialect sequence operator body := by
  cases h with
  | @primary form raw hcommand harguments hne hblank hfit =>
      obtain ⟨token, htoken, -⟩ := form.exists_token_eq_ok hne hblank
      have hkind : TermKind.ofCommand? clause.command = some (.primary form) := by
        rw [hcommand, TermKind.ofCommand?_command]
      have hoperator : clause.operator sequence.isEmpty = .ok (clause.tag earlier) := by
        rw [hearlier.isEmpty_eq, operator_eq_ok_tag hfit]
      exact ⟨_, _, .primary hkind harguments hoperator htoken⟩
  | @pair relation first second place other hcommand harguments hfirst hsecond hne
      hnegated halternative =>
      have hkind : TermKind.ofCommand? clause.command = some (.pair relation) := by
        rw [hcommand, TermKind.ofCommand?_command]
      have hoperator : clause.operator sequence.isEmpty = .ok .and := by
        rw [hearlier.isEmpty_eq, operator_eq_ok_iff]
        exact ⟨by simp [hnegated], (tag_eq_and_iff.2 ⟨hnegated, halternative⟩).symm⟩
      have hids : TermId.atPlace (place + 1) ≠ TermId.atPlace (other + 1) := by
        intro hsame
        apply hne
        rw [← letter_atPlace_of_letterPlace?_eq_some hfirst.1, hsame,
          letter_atPlace_of_letterPlace?_eq_some hsecond.1]
      exact ⟨_, _, .pair hkind harguments hoperator (hearlier.resolveLetter_of_names hfirst)
        (hearlier.resolveLetter_of_names hsecond) hids⟩

theorem payload_eq_error {dialect : Dialect} {clause : Clause}
    (h : clause.arguments.head? ≠ some dialect.responseVar) :
    clause.payload dialect =
      .error (.arguments clause.text (.responseVar dialect.responseVar)) := by
  rw [payload]
  cases harguments : clause.arguments with
  | nil => rfl
  | cons var rest =>
      rw [harguments, List.head?_cons, ne_eq, Option.some.injEq] at h
      exact if_neg h

theorem primaryBody_of_length_ne {clause : Clause} {form : Form} {payload : List Text}
    (h : payload.length ≠ 1) :
    clause.primaryBody form payload =
      .error (.arguments clause.text (.tokenCount payload.length)) := by
  rcases payload with _ | ⟨first, _ | ⟨second, rest⟩⟩
  · rfl
  · exact absurd rfl h
  · rfl

theorem pairBody_of_length_ne {sequence : Sequence} {clause : Clause} {relation : Relation}
    {payload : List Text} (h : payload.length ≠ 2) :
    clause.pairBody sequence relation payload =
      .error (.arguments clause.text (.referenceCount payload.length)) := by
  rcases payload with _ | ⟨first, _ | ⟨second, _ | ⟨third, rest⟩⟩⟩
  · rfl
  · rfl
  · exact absurd rfl h
  · rfl

/-- What a clause raises before its payload is looked at. -/
theorem decode_eq_error_of_operator {dialect : Dialect} {sequence : Sequence}
    {clause : Clause} {kind : TermKind} {payload : List Text} {fault : RuleFault}
    (hcommand : clause.command = kind.command)
    (harguments : clause.arguments = dialect.responseVar :: payload)
    (hoperator : clause.operator sequence.isEmpty = .error fault) :
    clause.decode dialect sequence = .error fault := by
  rw [decode, hcommand, TermKind.ofCommand?_command]
  simp only [payload_eq_ok_iff.2 harguments, hoperator, bind, Except.bind]

theorem decode_eq_error_of_primaryBody {dialect : Dialect} {sequence : Sequence}
    {clause : Clause} {form : Form} {payload : List Text} {operator : Operator}
    {fault : RuleFault} (hcommand : clause.command = (TermKind.primary form).command)
    (harguments : clause.arguments = dialect.responseVar :: payload)
    (hoperator : clause.operator sequence.isEmpty = .ok operator)
    (hbody : clause.primaryBody form payload = .error fault) :
    clause.decode dialect sequence = .error fault := by
  rw [decode, hcommand, TermKind.ofCommand?_command]
  simp only [payload_eq_ok_iff.2 harguments, hoperator, hbody, bind, Except.bind]

theorem decode_eq_error_of_pairBody {dialect : Dialect} {sequence : Sequence}
    {clause : Clause} {relation : Relation} {payload : List Text} {fault : RuleFault}
    (hcommand : clause.command = (TermKind.pair relation).command)
    (harguments : clause.arguments = dialect.responseVar :: payload)
    (hoperator : clause.operator sequence.isEmpty = .ok .and)
    (hbody : clause.pairBody sequence relation payload = .error fault) :
    clause.decode dialect sequence = .error fault := by
  rw [decode, hcommand, TermKind.ofCommand?_command]
  simp only [payload_eq_ok_iff.2 harguments, hoperator, ↓reduceIte, hbody, bind, Except.bind]

theorem decode_eq_error_of_relation {dialect : Dialect} {sequence : Sequence}
    {clause : Clause} {relation : Relation} {payload : List Text} {operator : Operator}
    (hcommand : clause.command = (TermKind.pair relation).command)
    (harguments : clause.arguments = dialect.responseVar :: payload)
    (hoperator : clause.operator sequence.isEmpty = .ok operator) (hand : operator ≠ .and) :
    clause.decode dialect sequence =
      .error (.operator clause.text (.onRelation relation operator)) := by
  rw [decode, hcommand, TermKind.ofCommand?_command]
  simp only [payload_eq_ok_iff.2 harguments, hoperator, if_neg hand, bind, Except.bind]
  rfl

theorem RaisesPayload.decode_eq_error {dialect : Dialect} {sequence : Sequence}
    {earlier : List Clause} {clause : Clause} {kind : TermKind} {payload : List Text}
    {fault : RuleFault} (h : clause.RaisesPayload earlier kind payload fault)
    (hearlier : sequence.Translates earlier) (hcommand : clause.command = kind.command)
    (harguments : clause.arguments = dialect.responseVar :: payload) :
    clause.decode dialect sequence = .error fault := by
  have htagged : ¬(clause.negated = true ∧ clause.isAlternative earlier = true) →
      clause.operator sequence.isEmpty = .ok (clause.tag earlier) := by
    intro hfit
    rw [hearlier.isEmpty_eq, operator_eq_ok_tag hfit]
  have hunmarked : clause.tag earlier = .and →
      clause.operator sequence.isEmpty = .ok .and := by
    intro htag
    rw [htagged (by simp [(tag_eq_and_iff.1 htag).1]), htag]
  cases h with
  | negatedDisjunct hnegated halternative =>
      apply decode_eq_error_of_operator hcommand harguments
      rw [hearlier.isEmpty_eq, operator_eq_error hnegated halternative]
  | tokenCount hfit hlength =>
      exact decode_eq_error_of_primaryBody hcommand harguments (htagged hfit)
        (primaryBody_of_length_ne hlength)
  | @emptyToken form hfit =>
      apply decode_eq_error_of_primaryBody hcommand harguments (htagged hfit)
      simp only [primaryBody, form.token_nil]
  | @blankToken form raw c hfit hc hblank =>
      apply decode_eq_error_of_primaryBody hcommand harguments (htagged hfit)
      simp only [primaryBody, form.token_of_blank hc hblank]
  | onRelation hfit htag =>
      exact decode_eq_error_of_relation hcommand harguments (htagged hfit) htag
  | referenceCount htag hlength =>
      exact decode_eq_error_of_pairBody hcommand harguments (hunmarked htag)
        (pairBody_of_length_ne hlength)
  | first htag hfirst =>
      apply decode_eq_error_of_pairBody hcommand harguments (hunmarked htag)
      simp only [pairBody, hearlier.resolveLetter_of_raisesLetter hfirst]
  | second htag hfirst hsecond =>
      apply decode_eq_error_of_pairBody hcommand harguments (hunmarked htag)
      simp only [pairBody, hearlier.resolveLetter_of_names hfirst,
        hearlier.resolveLetter_of_raisesLetter hsecond]
  | repeated htag hletter =>
      apply decode_eq_error_of_pairBody hcommand harguments (hunmarked htag)
      simp only [pairBody, hearlier.resolveLetter_of_names hletter, ↓reduceIte]

theorem Raises.decode_eq_error {dialect : Dialect} {sequence : Sequence}
    {earlier : List Clause} {clause : Clause} {fault : RuleFault}
    (h : clause.Raises dialect earlier fault) (hearlier : sequence.Translates earlier) :
    clause.decode dialect sequence = .error fault := by
  cases h with
  | unknownCommand hcommand => rw [decode, TermKind.ofCommand?_eq_none hcommand]
  | responseVar hcommand hvar =>
      rw [decode, hcommand, TermKind.ofCommand?_command]
      simp only [payload_eq_error hvar, bind, Except.bind]
  | payload hcommand harguments hpayload =>
      exact hpayload.decode_eq_error hearlier hcommand harguments

theorem decode_eq_error_iff_raises {dialect : Dialect} {sequence : Sequence}
    {earlier : List Clause} {clause : Clause} {fault : RuleFault}
    (hearlier : sequence.Translates earlier) :
    clause.decode dialect sequence = .error fault ↔ clause.Raises dialect earlier fault := by
  constructor
  · intro h
    rcases clause.sound_or_raises dialect earlier with hsound | ⟨raised, hraised⟩
    · obtain ⟨operator, body, hmeans⟩ := hsound.exists_means hearlier
      rw [hmeans.decode_eq_ok] at h
      exact absurd h (by simp)
    · rw [hraised.decode_eq_error hearlier] at h
      rwa [← Except.error.inj h]
  · exact fun h => h.decode_eq_error hearlier

theorem exists_means_iff_sound {dialect : Dialect} {sequence : Sequence}
    {earlier : List Clause} {clause : Clause} (hearlier : sequence.Translates earlier) :
    (∃ operator body, clause.Means dialect sequence operator body) ↔
      clause.Sound dialect earlier := by
  constructor
  · rintro ⟨operator, body, hmeans⟩
    rcases clause.sound_or_raises dialect earlier with hsound | ⟨raised, hraised⟩
    · exact hsound
    · have h := hraised.decode_eq_error hearlier
      rw [hmeans.decode_eq_ok] at h
      exact absurd h (by simp)
  · exact fun h => h.exists_means hearlier

end Clause

namespace Sequence

theorem Translates.eq_atPlace_of_resolveLetter {sequence : Sequence} {clauses : List Clause}
    (h : sequence.Translates clauses) {letter : Text} {id : TermId}
    (hid : sequence.resolveLetter letter = .ok id) :
    ∃ place, letterPlace? letter = some place ∧ id = .atPlace (place + 1) := by
  rcases Clause.names_or_raisesLetter clauses letter with
    ⟨place, hnames⟩ | ⟨cause, hraises⟩
  · rw [h.resolveLetter_of_names hnames] at hid
    exact ⟨place, hnames.1, (Except.ok.inj hid).symm⟩
  · rw [h.resolveLetter_of_raisesLetter hraises] at hid
    exact absurd hid (by simp)

theorem Translates.letter_of_resolveLetter {sequence : Sequence} {clauses : List Clause}
    (h : sequence.Translates clauses) {letter : Text} {id : TermId}
    (hid : sequence.resolveLetter letter = .ok id) : id.letter = letter := by
  obtain ⟨place, hplace, rfl⟩ := h.eq_atPlace_of_resolveLetter hid
  exact letter_atPlace_of_letterPlace?_eq_some hplace

/-- The term that a clause adds is the one that it stands for. -/
theorem Translates.standsFor_of_means {dialect : Dialect} {sequence : Sequence}
    {clauses : List Clause} {clause : Clause} {operator : Operator} {body : Body}
    (h : sequence.Translates clauses)
    (hmeans : clause.Means dialect sequence operator body)
    (hsize : sequence.size + 1 < UInt32.size) :
    clause.StandsFor clauses ⟨sequence.nextId, operator, body⟩ := by
  have hnumber : sequence.nextId.number = clauses.length + 1 := by
    rw [nextId_number hsize, h.size]
  have htag : operator = clause.tag clauses := by
    have hoperator := hmeans.operator_eq_ok
    rw [h.isEmpty_eq] at hoperator
    exact (Clause.operator_eq_ok_iff.1 hoperator).2
  cases hmeans with
  | @primary _ form raw token hkind harguments hoperator htoken =>
      refine ⟨hnumber, TermKind.command_eq_of_ofCommand? hkind, htag, ?_, by simp⟩
      intro other found hfound
      obtain ⟨rfl, rfl⟩ : form = other ∧ token = found := by simpa using hfound
      exact ⟨raw, by rw [harguments]; rfl, Form.text_of_token_eq_ok htoken⟩
  | pair hkind harguments hoperator hfirst hsecond hne =>
      refine ⟨hnumber, TermKind.command_eq_of_ofCommand? hkind, htag, by simp, ?_⟩
      intro _ left right hfound
      obtain ⟨-, rfl, rfl⟩ := Body.pair.inj hfound
      rw [harguments, h.letter_of_resolveLetter hfirst, h.letter_of_resolveLetter hsecond]
      rfl

theorem translates_empty : empty.Translates [] :=
  ⟨rfl, by simp⟩

theorem Translates.push {sequence : Sequence} {clauses : List Clause} {clause : Clause}
    {operator : Operator} {body : Body} (h : sequence.Translates clauses)
    (hlast : clause.StandsFor clauses ⟨sequence.nextId, operator, body⟩) :
    (sequence.push operator body).Translates (clauses ++ [clause]) := by
  have hlength : sequence.terms.length = clauses.length := h.size
  refine ⟨by rw [size_push, h.size, List.length_append, List.length_singleton], ?_⟩
  intro index found term hfound
  revert index found
  rw [forall_getElem?_append_singleton_iff]
  constructor
  · intro index found hfound hterm
    have hlt := (List.getElem?_eq_some_iff.1 hfound).1
    rw [terms_push, List.getElem?_append_left (hlength ▸ hlt)] at hterm
    rw [List.take_append_of_le_length (Nat.le_of_lt hlt)]
    exact h.terms index found term hfound hterm
  · intro hterm
    rw [terms_push, ← hlength, List.getElem?_concat_length, Option.some.injEq] at hterm
    rw [List.take_left, ← hterm]
    exact hlast

end Sequence

namespace Rule

/-- Every clause is sound after those before it. -/
def Sound (dialect : Dialect) (clauses : List Clause) : Prop :=
  ∀ index (clause : Clause), clauses[index]? = some clause →
    clause.Sound dialect (clauses.take index)

theorem sound_append_singleton_iff {dialect : Dialect} {clauses : List Clause}
    {clause : Clause} :
    Sound dialect (clauses ++ [clause]) ↔
      Sound dialect clauses ∧ clause.Sound dialect clauses := by
  rw [Sound, forall_getElem?_append_singleton_iff, List.take_left]
  refine and_congr_left fun _ => forall_congr' fun index => forall_congr' fun found =>
    imp_congr_right fun hfound => ?_
  rw [List.take_append_of_le_length (Nat.le_of_lt (List.getElem?_eq_some_iff.1 hfound).1)]

theorem translates_of_decodeFrom {dialect : Dialect} {clauses : List Clause}
    {sequence : Sequence} (h : decodeFrom dialect .empty clauses = .ok sequence)
    (hlength : clauses.length < UInt32.size) : sequence.Translates clauses := by
  induction clauses using List.reverseRecOn generalizing sequence with
  | nil =>
      obtain rfl := Except.ok.inj h
      exact Sequence.translates_empty
  | append_singleton front last ih =>
      rw [List.length_append, List.length_singleton] at hlength
      obtain ⟨decoded, operator, body, hfront, hmeans, rfl⟩ :=
        decodeFrom_append_singleton_eq_ok_iff.1 h
      have hdecoded := ih hfront (by omega)
      exact hdecoded.push
        (hdecoded.standsFor_of_means hmeans (by rw [hdecoded.size]; exact hlength))

/-- A rule decodes exactly if all its clauses are sound. -/
theorem exists_decodeFrom_eq_ok_iff_sound {dialect : Dialect} {clauses : List Clause}
    (hlength : clauses.length < UInt32.size) :
    (∃ sequence, decodeFrom dialect .empty clauses = .ok sequence) ↔
      Sound dialect clauses := by
  induction clauses using List.reverseRecOn with
  | nil => exact ⟨fun _ _ _ h => by simp at h, fun _ => ⟨.empty, rfl⟩⟩
  | append_singleton front last ih =>
      rw [List.length_append, List.length_singleton] at hlength
      have hfrontLength : front.length < UInt32.size := by omega
      rw [sound_append_singleton_iff, ← ih hfrontLength]
      constructor
      · rintro ⟨sequence, h⟩
        obtain ⟨decoded, operator, body, hfront, hmeans, -⟩ :=
          decodeFrom_append_singleton_eq_ok_iff.1 h
        have hdecoded := translates_of_decodeFrom hfront hfrontLength
        exact ⟨⟨decoded, hfront⟩,
          (Clause.exists_means_iff_sound hdecoded).1 ⟨operator, body, hmeans⟩⟩
      · rintro ⟨⟨decoded, hfront⟩, hlast⟩
        have hdecoded := translates_of_decodeFrom hfront hfrontLength
        obtain ⟨operator, body, hmeans⟩ := hlast.exists_means hdecoded
        exact ⟨_, decodeFrom_append_singleton_eq_ok_iff.2
          ⟨decoded, operator, body, hfront, hmeans, rfl⟩⟩

/-- The fault of a rule is what its first unsound clause raises. -/
theorem decodeFrom_eq_error_iff {dialect : Dialect} {clauses : List Clause}
    {fault : RuleFault} (hlength : clauses.length < UInt32.size) :
    decodeFrom dialect .empty clauses = .error fault ↔
      ∃ earlier clause later, clauses = earlier ++ clause :: later ∧
        Sound dialect earlier ∧ clause.Raises dialect earlier fault := by
  induction clauses using List.reverseRecOn with
  | nil => simp [decodeFrom]
  | append_singleton front last ih =>
      rw [List.length_append, List.length_singleton] at hlength
      have hfrontLength : front.length < UInt32.size := by omega
      rw [decodeFrom_append_singleton, bind_eq_error_iff, ih hfrontLength]
      constructor
      · rintro (⟨earlier, clause, later, rfl, hraises⟩ | ⟨decoded, hfront, hlast⟩)
        · exact ⟨earlier, clause, later ++ [last], by simp, hraises⟩
        · have hdecoded := translates_of_decodeFrom hfront hfrontLength
          have hsound := (exists_decodeFrom_eq_ok_iff_sound hfrontLength).1 ⟨_, hfront⟩
          exact ⟨front, last, [], rfl, hsound,
            (Clause.decode_eq_error_iff_raises hdecoded).1 (map_eq_error_iff.1 hlast)⟩
      · rintro ⟨earlier, clause, later, hsplit, hsound, hraises⟩
        rcases List.eq_nil_or_concat later with rfl | ⟨others, final, rfl⟩
        · -- The last clause raises the fault, so the others decode.
          obtain ⟨rfl, rfl⟩ := List.append_singleton_inj.1 hsplit
          obtain ⟨decoded, hfront⟩ :=
            (exists_decodeFrom_eq_ok_iff_sound hfrontLength).2 hsound
          have hdecoded := translates_of_decodeFrom hfront hfrontLength
          exact .inr ⟨decoded, hfront,
            map_eq_error_iff.2 ((Clause.decode_eq_error_iff_raises hdecoded).2 hraises)⟩
        · rw [List.concat_eq_append, ← List.cons_append, ← List.append_assoc] at hsplit
          exact .inl ⟨earlier, clause, others, (List.append_singleton_inj.1 hsplit).1, hsound,
            hraises⟩

end Rule

namespace Dialect

theorem decode_eq_decodeFrom {dialect : Dialect} {text : Text} {rule : Rule}
    (hrule : dialect.isEmptyRule text = false) (hparse : dialect.parse text = .ok rule) :
    dialect.decode text = Rule.decodeFrom dialect .empty rule.clauses := by
  rw [decode, if_neg (by simp [hrule]), hparse]
  rfl

/-- The meaning of a rule, clause by clause.  A rule that is read decodes exactly
if every clause is sound after those before it; then every clause has become the
term that it stands for, and otherwise the fault is the one that the first unsound
clause raises. -/
theorem decode_clause_by_clause (dialect : Dialect) (text : Text) (rule : Rule)
    (hrule : dialect.isEmptyRule text = false) (hparse : dialect.parse text = .ok rule)
    (hlength : rule.clauses.length < UInt32.size) :
    ((∃ sequence, dialect.decode text = .ok sequence) ↔
        ∀ index (clause : Clause), rule.clauses[index]? = some clause →
          clause.Sound dialect (rule.clauses.take index)) ∧
      (∀ sequence, dialect.decode text = .ok sequence →
        sequence.size = rule.clauses.length ∧
          ∀ index (clause : Clause) term, rule.clauses[index]? = some clause →
            sequence.terms[index]? = some term →
            clause.StandsFor (rule.clauses.take index) term) ∧
      ∀ fault, dialect.decode text = .error fault ↔
        ∃ earlier clause later, rule.clauses = earlier ++ clause :: later ∧
          Rule.Sound dialect earlier ∧ clause.Raises dialect earlier fault := by
  rw [decode_eq_decodeFrom hrule hparse]
  refine ⟨Rule.exists_decodeFrom_eq_ok_iff_sound hlength, ?_,
    fun _ => Rule.decodeFrom_eq_error_iff hlength⟩
  intro sequence h
  have htranslates := Rule.translates_of_decodeFrom h hlength
  exact ⟨htranslates.size, htranslates.terms⟩

end Dialect

namespace ClauseWitness

/-- A semicolon after the first clause, a negation, an alternative and a relation. -/
def text : Text :=
  ("correct_response(A) :- term(A,fox); not template(A,a_nt), " ++
    "term(A,bee); closely_precedes(A,D,B).").toList

def clauses : List Clause :=
  [⟨"term(A,fox)".toList, false, true, "term".toList, ["A".toList, "fox".toList]⟩,
    ⟨"not template(A,a_nt)".toList, true, false, "template".toList,
      ["A".toList, "a_nt".toList]⟩,
    ⟨"term(A,bee)".toList, false, true, "term".toList, ["A".toList, "bee".toList]⟩,
    ⟨"closely_precedes(A,D,B)".toList, false, false, "closely_precedes".toList,
      ["A".toList, "D".toList, "B".toList]⟩]

def rule : Rule :=
  ⟨"correct_response".toList, "A".toList, clauses⟩

def sequence : Sequence :=
  (((Sequence.empty.push .and (.primary .word (.ofText "fox".toList (by decide)))).push
    .not (.primary .template (.ofText "a\\_nt*".toList (by decide)))).push
    .or (.primary .word (.ofText "bee".toList (by decide)))).push
    .and (.pair .closelyPrecedes (.atPlace 3) (.atPlace 1))

theorem decode_clause_by_clause_marked :
    ({} : Dialect).isEmptyRule text = false ∧ ({} : Dialect).parse text = .ok rule ∧
      rule.clauses.length < UInt32.size ∧ ({} : Dialect).decode text = .ok sequence ∧
      (∀ index (clause : Clause), rule.clauses[index]? = some clause →
        clause.Sound {} (rule.clauses.take index)) ∧
      ∀ index (clause : Clause) term, rule.clauses[index]? = some clause →
        sequence.terms[index]? = some term →
        clause.StandsFor (rule.clauses.take index) term := by
  have hrule : ({} : Dialect).isEmptyRule text = false := by decide
  have hparse : ({} : Dialect).parse text = .ok rule := by decide +kernel
  have hlength : rule.clauses.length < UInt32.size := by decide
  have hdecode : ({} : Dialect).decode text = .ok sequence := by
    rw [Dialect.decode_eq_decodeFrom hrule hparse]
    rfl
  have h := Dialect.decode_clause_by_clause {} text rule hrule hparse hlength
  exact ⟨hrule, hparse, hlength, hdecode, h.1.1 ⟨sequence, hdecode⟩,
    (h.2.1 sequence hdecode).2⟩

end ClauseWitness

end GradingRule
