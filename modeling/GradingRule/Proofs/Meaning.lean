/-
What clauses add to a sequence.  `Clause.Means` says once when a clause decodes
and to what; it does not look at the text of the clause.  Every term that the
letters of a rule can reach is the meaning of some clause.
-/
import GradingRule.Rule.Decoding
import GradingRule.Proofs.Coherent
import GradingRule.Proofs.Parsing
import GradingRule.Proofs.Tokens

namespace GradingRule

/-- The clause adds a term with this operator and body to the sequence. -/
inductive Clause.Means (dialect : Dialect) (sequence : Sequence) (clause : Clause) :
    Operator → Body → Prop
  | primary {operator : Operator} {form : Form} {raw : Text} {token : Token} :
      TermKind.ofCommand? clause.command = some (.primary form) →
      clause.arguments = [dialect.responseVar, raw] →
      clause.operator sequence.isEmpty = .ok operator →
      form.token raw = .ok token →
      clause.Means dialect sequence operator (.primary form token)
  | pair {relation : Relation} {first second : Text} {firstId secondId : TermId} :
      TermKind.ofCommand? clause.command = some (.pair relation) →
      clause.arguments = [dialect.responseVar, first, second] →
      clause.operator sequence.isEmpty = .ok .and →
      sequence.resolveLetter first = .ok firstId →
      sequence.resolveLetter second = .ok secondId →
      firstId ≠ secondId →
      clause.Means dialect sequence .and (.pair relation firstId secondId)

namespace Clause

theorem payload_eq_ok_iff {dialect : Dialect} {clause : Clause} {payload : List Text} :
    clause.payload dialect = .ok payload ↔
      clause.arguments = dialect.responseVar :: payload := by
  rw [Clause.payload]
  cases clause.arguments with
  | nil => simp
  | cons var rest =>
      by_cases hvar : var = dialect.responseVar
      · simp [hvar]
      · simp [hvar]

theorem primaryBody_eq_ok_iff {clause : Clause} {form : Form} {payload : List Text}
    {body : Body} :
    clause.primaryBody form payload = .ok body ↔
      ∃ raw token, payload = [raw] ∧ form.token raw = .ok token ∧
        body = .primary form token := by
  rw [primaryBody.eq_def]
  split
  · next raw =>
      cases htoken : form.token raw with
      | error fault => simp [htoken]
      | ok token => simp [htoken, eq_comm]
  · next hpayload =>
      simp only [reduceCtorEq, false_iff]
      rintro ⟨raw, -, rfl, -⟩
      exact hpayload raw rfl

theorem pairBody_eq_ok_iff {sequence : Sequence} {clause : Clause} {relation : Relation}
    {payload : List Text} {body : Body} :
    clause.pairBody sequence relation payload = .ok body ↔
      ∃ first second firstId secondId, payload = [first, second] ∧
        sequence.resolveLetter first = .ok firstId ∧
        sequence.resolveLetter second = .ok secondId ∧ firstId ≠ secondId ∧
        body = .pair relation firstId secondId := by
  rw [pairBody.eq_def]
  split
  · next first second =>
      cases hfirst : sequence.resolveLetter first with
      | error fault => simp [hfirst]
      | ok firstId =>
          cases hsecond : sequence.resolveLetter second with
          | error fault => simp [hsecond]
          | ok secondId =>
              by_cases hsame : firstId = secondId
              · simp [hfirst, hsecond, hsame]
              · simp [hfirst, hsecond, hsame, eq_comm]
  · next hpayload =>
      simp only [reduceCtorEq, false_iff]
      rintro ⟨first, second, -, -, rfl, -⟩
      exact hpayload first second rfl

theorem means_of_decode {dialect : Dialect} {sequence : Sequence} {clause : Clause}
    {operator : Operator} {body : Body}
    (h : clause.decode dialect sequence = .ok (operator, body)) :
    clause.Means dialect sequence operator body := by
  rw [decode] at h
  cases hkind : TermKind.ofCommand? clause.command with
  | none => simp [hkind] at h
  | some kind =>
      simp only [hkind, bind_eq_ok_iff] at h
      obtain ⟨payload, hpayload, carried, hoperator, h⟩ := h
      have harguments := payload_eq_ok_iff.1 hpayload
      cases kind with
      | primary form =>
          obtain ⟨made, hbody, heq⟩ := bind_eq_ok_iff.1 h
          obtain ⟨rfl, rfl⟩ := Prod.mk.inj (Except.ok.inj heq)
          obtain ⟨raw, token, rfl, htoken, rfl⟩ := primaryBody_eq_ok_iff.1 hbody
          exact .primary hkind harguments hoperator htoken
      | pair relation =>
          dsimp only at h
          by_cases hand : carried = .and
          · subst hand
            rw [if_pos rfl] at h
            obtain ⟨made, hbody, heq⟩ := bind_eq_ok_iff.1 h
            obtain ⟨rfl, rfl⟩ := Prod.mk.inj (Except.ok.inj heq)
            obtain ⟨first, second, firstId, secondId, rfl, hfirst, hsecond, hne, rfl⟩ :=
              pairBody_eq_ok_iff.1 hbody
            exact .pair hkind harguments hoperator hfirst hsecond hne
          · rw [if_neg hand] at h
            exact absurd h (by simp [throw, throwThe, MonadExceptOf.throw])

theorem Means.decode_eq_ok {dialect : Dialect} {sequence : Sequence} {clause : Clause}
    {operator : Operator} {body : Body} (h : clause.Means dialect sequence operator body) :
    clause.decode dialect sequence = .ok (operator, body) := by
  cases h with
  | @primary _ form raw token hkind harguments hoperator htoken =>
      have hbody : clause.primaryBody form [raw] = .ok (.primary form token) :=
        primaryBody_eq_ok_iff.2 ⟨raw, token, rfl, htoken, rfl⟩
      rw [decode, hkind]
      simp only [payload_eq_ok_iff.2 harguments, hoperator, hbody, bind, Except.bind]
      rfl
  | @pair relation first second firstId secondId hkind harguments hoperator hfirst
      hsecond hne =>
      have hbody : clause.pairBody sequence relation [first, second] =
          .ok (.pair relation firstId secondId) :=
        pairBody_eq_ok_iff.2 ⟨first, second, _, _, rfl, hfirst, hsecond, hne, rfl⟩
      rw [decode, hkind]
      simp only [payload_eq_ok_iff.2 harguments, hoperator, ↓reduceIte, hbody, bind,
        Except.bind]
      rfl

theorem decode_eq_ok_iff_means {dialect : Dialect} {sequence : Sequence} {clause : Clause}
    {operator : Operator} {body : Body} :
    clause.decode dialect sequence = .ok (operator, body) ↔
      clause.Means dialect sequence operator body :=
  ⟨means_of_decode, Means.decode_eq_ok⟩

theorem operator_shape_eq_ok_iff {isFirst : Bool} {clause : Clause} {operator : Operator} :
    clause.shape.operator isFirst = .ok operator ↔ clause.operator isFirst = .ok operator := by
  rw [Clause.operator, Clause.operator, shape]
  cases clause.negated <;> cases clause.disjunct && !isFirst <;> simp

/-- The text of a clause shows in its faults only. -/
theorem means_shape_iff {dialect : Dialect} {sequence : Sequence} {clause : Clause}
    {operator : Operator} {body : Body} :
    clause.shape.Means dialect sequence operator body ↔
      clause.Means dialect sequence operator body := by
  constructor
  · intro h
    cases h with
    | primary hkind harguments hoperator htoken =>
        exact .primary hkind harguments (operator_shape_eq_ok_iff.1 hoperator) htoken
    | pair hkind harguments hoperator hfirst hsecond hne =>
        exact .pair hkind harguments (operator_shape_eq_ok_iff.1 hoperator) hfirst hsecond hne
  · intro h
    cases h with
    | primary hkind harguments hoperator htoken =>
        exact .primary hkind harguments (operator_shape_eq_ok_iff.2 hoperator) htoken
    | pair hkind harguments hoperator hfirst hsecond hne =>
        exact .pair hkind harguments (operator_shape_eq_ok_iff.2 hoperator) hfirst hsecond hne

theorem Means.operator_eq_ok {dialect : Dialect} {sequence : Sequence} {clause : Clause}
    {operator : Operator} {body : Body} (h : clause.Means dialect sequence operator body) :
    clause.operator sequence.isEmpty = .ok operator := by
  cases h with
  | primary hkind harguments hoperator htoken => exact hoperator
  | pair hkind harguments hoperator hfirst hsecond hne => exact hoperator

/-- Only a clause that a semicolon follows adds an alternative, and only after
another clause. -/
theorem Means.disjunct_of_eq_or {dialect : Dialect} {sequence : Sequence} {clause : Clause}
    {operator : Operator} {body : Body} (h : clause.Means dialect sequence operator body)
    (hor : operator = .or) : clause.disjunct = true ∧ sequence.isEmpty = false := by
  have hcarried := h.operator_eq_ok
  rw [hor, Clause.operator] at hcarried
  split at hcarried
  · simp at hcarried
  · simp at hcarried
  · next hdisjunct => simpa using hdisjunct
  · simp at hcarried

end Clause

namespace Rule

theorem decodeFrom_append_singleton (dialect : Dialect) (sequence : Sequence)
    (front : List Clause) (last : Clause) :
    decodeFrom dialect sequence (front ++ [last]) =
      decodeFrom dialect sequence front >>= fun decoded =>
        (last.decode dialect decoded).map fun (operator, body) =>
          decoded.push operator body := by
  induction front generalizing sequence with
  | nil =>
      rw [List.nil_append, decodeFrom, decodeFrom]
      change _ = (last.decode dialect sequence).map _
      cases last.decode dialect sequence with
      | error fault => rfl
      | ok meaning => rfl
  | cons clause rest ih =>
      rw [List.cons_append, decodeFrom, decodeFrom]
      cases clause.decode dialect sequence with
      | error fault => rfl
      | ok meaning => exact ih _

/-- The last clause adds its meaning to what the others decode to. -/
theorem decodeFrom_append_singleton_eq_ok_iff {dialect : Dialect} {sequence final : Sequence}
    {front : List Clause} {last : Clause} :
    decodeFrom dialect sequence (front ++ [last]) = .ok final ↔
      ∃ decoded operator body, decodeFrom dialect sequence front = .ok decoded ∧
        last.Means dialect decoded operator body ∧ final = decoded.push operator body := by
  rw [decodeFrom_append_singleton, bind_eq_ok_iff]
  refine exists_congr fun decoded => ?_
  rw [map_eq_ok_iff]
  constructor
  · rintro ⟨hfront, ⟨operator, body⟩, hlast, rfl⟩
    exact ⟨operator, body, hfront, Clause.decode_eq_ok_iff_means.1 hlast, rfl⟩
  · rintro ⟨operator, body, hfront, hlast, rfl⟩
    exact ⟨hfront, (operator, body), Clause.decode_eq_ok_iff_means.2 hlast, rfl⟩

/-- Every clause becomes one term. -/
theorem size_of_decodeFrom {dialect : Dialect} {sequence final : Sequence}
    {clauses : List Clause} (h : decodeFrom dialect sequence clauses = .ok final) :
    final.size = sequence.size + clauses.length := by
  induction clauses using List.reverseRecOn generalizing final with
  | nil =>
      obtain rfl := Except.ok.inj h
      rfl
  | append_singleton front last ih =>
      obtain ⟨decoded, operator, body, hfront, -, rfl⟩ :=
        decodeFrom_append_singleton_eq_ok_iff.1 h
      rw [Sequence.size_push, ih hfront, List.length_append]
      rfl

/-- Rules that differ in the texts of their clauses only decode alike. -/
theorem decodeFrom_of_shapes {dialect : Dialect} {sequence final : Sequence}
    {clauses others : List Clause}
    (hshapes : others.map Clause.shape = clauses.map Clause.shape)
    (h : decodeFrom dialect sequence clauses = .ok final) :
    decodeFrom dialect sequence others = .ok final := by
  induction clauses using List.reverseRecOn generalizing others final with
  | nil => rwa [List.map_eq_nil_iff.1 hshapes]
  | append_singleton front last ih =>
      rw [List.map_append, List.map_singleton] at hshapes
      obtain ⟨start, stop, rfl, hstart, hstop⟩ := List.map_eq_append_iff.1 hshapes
      obtain ⟨other, rfl, hother⟩ := List.map_eq_singleton_iff.1 hstop
      obtain ⟨decoded, operator, body, hfront, hlast, rfl⟩ :=
        decodeFrom_append_singleton_eq_ok_iff.1 h
      refine decodeFrom_append_singleton_eq_ok_iff.2
        ⟨decoded, operator, body, ih hstart hfront, ?_, rfl⟩
      rw [← Clause.means_shape_iff, hother]
      exact Clause.means_shape_iff.2 hlast

end Rule

/-- A term that a clause can add: its token is in normal form, a template ends
in a star, and a relation refers to terms that have letters. -/
structure Term.Spellable (term : Term) : Prop where
  proper : ∀ form token, term.body = .primary form token → token.Proper
  starred : ∀ token, term.body = .primary .template token → token.text.getLast? = some '*'
  lettered : ∀ relation first second, term.body = .pair relation first second →
    first.number ≤ 8 ∧ second.number ≤ 8

/-- What the clauses decode to, the last one not yet known to be the last. -/
structure Sequence.Clausal (sequence : Sequence) : Prop where
  coherent : sequence.Coherent
  terms : ∀ term ∈ sequence.terms, term.Spellable
  first_ne_or : ∀ term, sequence.terms.head? = some term → term.operator ≠ .or

/-- What a whole rule decodes to. -/
structure Sequence.Spellable (sequence : Sequence) : Prop extends sequence.Clausal where
  last_ne_or : ∀ term, sequence.terms.getLast? = some term → term.operator ≠ .or

namespace Sequence

/-- A letter names one of the first eight terms, and only one that has a token. -/
theorem of_resolveLetter_eq_ok {sequence : Sequence} {letter : Text} {id : TermId}
    (h : sequence.resolveLetter letter = .ok id) :
    sequence.HasToken id ∧ id.number ≤ 8 := by
  rw [resolveLetter.eq_def] at h
  split at h
  · next c =>
      split_ifs at h with hrange
      dsimp only at h
      split at h
      · simp at h
      · next term hget =>
          split_ifs at h with hprimary
          obtain rfl := Except.ok.inj h
          refine ⟨hasToken_iff_get?.2 ⟨term, hget, hprimary⟩, ?_⟩
          have hle : c.toNat ≤ 'I'.toNat := hrange.2
          have hletters : 'I'.toNat = 'A'.toNat + 8 := rfl
          change min (c.toNat - 'A'.toNat) (UInt32.size - 1) ≤ 8
          omega
  · simp at h

theorem clausal_empty : empty.Clausal :=
  ⟨coherent_empty, by simp [empty], by simp [empty]⟩

theorem Clausal.of_push {sequence : Sequence} {operator : Operator} {body : Body}
    (h : (sequence.push operator body).Clausal) : sequence.Clausal := by
  refine ⟨h.coherent.of_push, fun term hterm => ?_, fun term hterm => ?_⟩
  · exact h.terms term (List.mem_append_left _ hterm)
  · apply h.first_ne_or term
    rw [terms_push, List.head?_append, hterm]
    rfl

/-- The first clause adds no alternative, whatever comes after it. -/
theorem Clausal.first_ne_or_push {dialect : Dialect} {sequence : Sequence} {clause : Clause}
    {operator : Operator} {body : Body} (h : sequence.Clausal)
    (hmeans : clause.Means dialect sequence operator body) :
    ∀ term, (sequence.push operator body).terms.head? = some term → term.operator ≠ .or := by
  intro term hterm hor
  obtain ⟨terms⟩ := sequence
  cases terms with
  | nil =>
      -- Nothing is there yet, so a semicolon after the clause does not count.
      obtain rfl := Option.some.inj hterm
      exact absurd (hmeans.disjunct_of_eq_or hor).2 (by decide)
  | cons first rest => exact h.first_ne_or term hterm hor

/-- What a clause adds keeps the sequence as clauses make it. -/
theorem Clausal.push_of_means {dialect : Dialect} {sequence : Sequence} {clause : Clause}
    {operator : Operator} {body : Body} (h : sequence.Clausal)
    (hmeans : clause.Means dialect sequence operator body)
    (hsize : sequence.size + 1 < UInt32.size) : (sequence.push operator body).Clausal := by
  have hfirst := h.first_ne_or_push hmeans
  have hterms : (Term.mk sequence.nextId operator body).Spellable →
      ∀ term ∈ (sequence.push operator body).terms, term.Spellable :=
    forall_mem_push h.terms
  cases hmeans with
  | @primary _ form raw token hkind harguments hoperator htoken =>
      refine ⟨h.coherent.push_primary hsize _ _ _, hterms ⟨?_, ?_, ?_⟩, hfirst⟩
      · exact fun _ token _ => token.proper
      · intro other hother
        obtain ⟨rfl, rfl⟩ : form = .template ∧ token = other := by simpa using hother
        exact Token.isTemplate_iff.1 (Token.isTemplate_of_template htoken)
      · simp
  | pair hkind harguments hoperator hleft hright hne =>
      obtain ⟨hleft, hleftLe⟩ := of_resolveLetter_eq_ok hleft
      obtain ⟨hright, hrightLe⟩ := of_resolveLetter_eq_ok hright
      refine ⟨h.coherent.push_pair hsize _ hne hleft hright, hterms ⟨?_, ?_, ?_⟩, hfirst⟩
      · exact fun _ token _ => token.proper
      · simp
      · intro _ _ _ hbody
        obtain ⟨rfl, rfl, rfl⟩ := Body.pair.inj hbody
        exact ⟨hleftLe, hrightLe⟩

end Sequence

/-- Clauses make nothing but such sequences. -/
theorem Rule.clausal_of_decodeFrom {dialect : Dialect} {clauses : List Clause}
    {sequence : Sequence} (h : decodeFrom dialect .empty clauses = .ok sequence)
    (hsize : sequence.size < UInt32.size) : sequence.Clausal := by
  induction clauses using List.reverseRecOn generalizing sequence with
  | nil =>
      obtain rfl := Except.ok.inj h
      exact Sequence.clausal_empty
  | append_singleton front last ih =>
      obtain ⟨decoded, operator, body, hfront, hlast, rfl⟩ :=
        decodeFrom_append_singleton_eq_ok_iff.1 h
      rw [Sequence.size_push] at hsize
      exact (ih hfront (by omega)).push_of_means hlast hsize

/-- No semicolon comes after the last clause, so the last term is no alternative. -/
theorem Rule.spellable_of_decodeFrom {dialect : Dialect} {clauses : List Clause}
    {sequence : Sequence} (hended : Ended clauses)
    (h : decodeFrom dialect .empty clauses = .ok sequence)
    (hsize : sequence.size < UInt32.size) : sequence.Spellable := by
  refine ⟨clausal_of_decodeFrom h hsize, ?_⟩
  intro term hterm hor
  obtain ⟨last, hlast, hdisjunct⟩ := hended
  obtain ⟨front, rfl⟩ := List.getLast?_eq_some_iff.1 hlast
  obtain ⟨decoded, operator, body, -, hmeans, rfl⟩ :=
    decodeFrom_append_singleton_eq_ok_iff.1 h
  obtain rfl : (⟨decoded.nextId, operator, body⟩ : Term) = term := by simpa using hterm
  rw [(hmeans.disjunct_of_eq_or hor).1] at hdisjunct
  exact absurd hdisjunct (by decide)

/-! The other way: every such sequence has clauses that make it. -/

/-- The letter that names a term; only the first eight have one. -/
def TermId.letter (id : TermId) : Text :=
  [Char.ofNat ('A'.toNat + id.number)]

/-- The arguments after the response variable. -/
def Body.payload : Body → List Text
  | .primary _ token => [token.text]
  | .pair _ first second => [first.letter, second.letter]

/-- A clause that adds the term. -/
def Term.clause (dialect : Dialect) (term : Term) : Clause where
  text := []
  negated := term.operator = .not
  disjunct := term.operator = .or
  command := term.body.kind.command
  arguments := dialect.responseVar :: term.body.payload

theorem TermKind.ofCommand?_command (kind : TermKind) :
    ofCommand? kind.command = some kind := by
  cases kind with
  | primary form => cases form <;> decide
  | pair relation => cases relation <;> decide

theorem Sequence.resolveLetter_letter {sequence : Sequence} {id : TermId}
    (h : sequence.HasToken id) (hle : id.number ≤ 8) :
    sequence.resolveLetter id.letter = .ok id := by
  obtain ⟨term, hget, hprimary⟩ := hasToken_iff_get?.1 h
  have hletters : ∀ n < 9, 1 ≤ n →
      ('B' ≤ Char.ofNat ('A'.toNat + n) ∧ Char.ofNat ('A'.toNat + n) ≤ 'I') ∧
        (Char.ofNat ('A'.toNat + n)).toNat - 'A'.toNat = n := by
    decide
  obtain ⟨hrange, hnumber⟩ :=
    hletters id.number (Nat.lt_succ_of_le hle) (get?_eq_some_iff.1 hget).1
  have hid : TermId.atPlace id.number = id := by
    obtain ⟨number, hlt⟩ := id
    simp only [TermId.atPlace, TermId.mk.injEq]
    omega
  rw [TermId.letter, resolveLetter, if_pos hrange, hnumber, hid]
  simp only [hget, hprimary, ↓reduceIte]

/-- The clause of the next term adds it. -/
theorem Sequence.Clausal.means_clause (dialect : Dialect) {sequence : Sequence}
    {operator : Operator} {body : Body} (h : (sequence.push operator body).Clausal) :
    (Term.mk sequence.nextId operator body).clause dialect |>.Means dialect sequence
      operator body := by
  have hterm := h.terms ⟨sequence.nextId, operator, body⟩ (by simp)
  have hcarried : ((Term.mk sequence.nextId operator body).clause dialect).operator
      sequence.isEmpty = .ok operator := by
    cases operator with
    | and => rfl
    | not => rfl
    | or =>
        obtain ⟨terms⟩ := sequence
        cases terms with
        | nil => exact absurd rfl (h.first_ne_or _ rfl)
        | cons first rest => rfl
  cases body with
  | primary form token =>
      refine .primary (TermKind.ofCommand?_command (.primary form)) rfl hcarried ?_
      cases form with
      | word => exact token.word_text
      | template =>
          exact Token.template_text (Token.isTemplate_iff.2 (hterm.starred token rfl))
  | pair relation first second =>
      obtain ⟨rfl, hne, hfirst, hsecond⟩ := h.coherent.of_push_pair
      obtain ⟨hfirstLe, hsecondLe⟩ := hterm.lettered relation first second rfl
      exact .pair (TermKind.ofCommand?_command (.pair relation)) rfl hcarried
        (resolveLetter_letter hfirst hfirstLe) (resolveLetter_letter hsecond hsecondLe) hne

theorem Sequence.Clausal.decodeFrom_map_clause (dialect : Dialect) {sequence : Sequence}
    (h : sequence.Clausal) :
    Rule.decodeFrom dialect .empty (sequence.terms.map (Term.clause dialect)) =
      .ok sequence := by
  refine Sequence.Coherent.pushInduction
    (motive := fun sequence => sequence.Clausal →
      Rule.decodeFrom dialect .empty (sequence.terms.map (Term.clause dialect)) =
        .ok sequence) ?_ ?_ h.coherent h
  · intro _
    rfl
  · intro sequence operator body _ ih h
    rw [terms_push, List.map_append, List.map_singleton]
    exact Rule.decodeFrom_append_singleton_eq_ok_iff.2
      ⟨sequence, operator, body, ih h.of_push, h.means_clause dialect, rfl⟩

end GradingRule
