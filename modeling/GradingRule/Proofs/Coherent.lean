/-
Coherent sequences: the ids are the places, and a relation refers to two
earlier terms that have a token.  Coherence is what the faults of the single
terms amount to, and it is all that the fragments need.
-/
import GradingRule.Expression.Fragment
import GradingRule.Proofs.Fallible
import Mathlib.Data.List.Induction

namespace GradingRule

/-- What holds of every element and its place holds of the last one as well. -/
theorem forall_getElem?_append_singleton_iff {α : Type} {p : Nat → α → Prop} {list : List α}
    {last : α} :
    (∀ index a, (list ++ [last])[index]? = some a → p index a) ↔
      (∀ index a, list[index]? = some a → p index a) ∧ p list.length last := by
  constructor
  · intro h
    refine ⟨fun index a ha => h index a ?_, h _ _ List.getElem?_concat_length⟩
    rwa [List.getElem?_append_left (List.getElem?_eq_some_iff.1 ha).1]
  · rintro ⟨hlist, hlast⟩ index a ha
    rcases Nat.lt_or_ge index list.length with hlt | hge
    · rw [List.getElem?_append_left hlt] at ha
      exact hlist index a ha
    · obtain rfl : index = list.length := by
        have := (List.getElem?_eq_some_iff.1 ha).1
        simp at this
        omega
      rw [List.getElem?_concat_length, Option.some.injEq] at ha
      rwa [← ha]

namespace Sequence

/-- The number of terms with the operator. -/
def tagCount (sequence : Sequence) (operator : Operator) : Nat :=
  sequence.terms.countP fun term => term.operator = operator

theorem orCount_eq_tagCount (sequence : Sequence) :
    sequence.orCount = sequence.tagCount .or := rfl

theorem tagCount_push (sequence : Sequence) (operator : Operator) (body : Body)
    (tag : Operator) :
    (sequence.push operator body).tagCount tag =
      sequence.tagCount tag + if operator = tag then 1 else 0 := by
  rw [tagCount, terms_push, List.countP_append, List.countP_singleton]
  simp [tagCount]

/-- The number of words and templates. -/
def tokenCount (sequence : Sequence) : Nat :=
  sequence.terms.countP fun term =>
    match term.body with
    | .primary .. => true
    | .pair .. => false

theorem primaryCount_eq_tokenCount (sequence : Sequence) :
    sequence.primaryCount = sequence.tokenCount := by
  refine List.countP_congr fun term _ => ?_
  rw [Term.isPrimary_iff]
  cases term.body <;> simp

theorem tokenCount_push (sequence : Sequence) (operator : Operator) (body : Body) :
    (sequence.push operator body).tokenCount =
      sequence.tokenCount +
        match body with
        | .primary .. => 1
        | .pair .. => 0 := by
  rw [tokenCount, terms_push, List.countP_append, List.countP_singleton]
  cases body <;> rfl

/-- The id names a place, counted from 1, and the term there is a word or a template. -/
def HasToken (sequence : Sequence) (id : TermId) : Prop :=
  ∃ index term form token, id.number = index + 1 ∧ sequence.terms[index]? = some term ∧
    term.body = .primary form token

/-- A term with the given id may refer to `target`: an earlier place, and the
term there has a token. -/
def Refers (sequence : Sequence) (id target : TermId) : Prop :=
  1 ≤ target.number ∧ target.number < id.number ∧ sequence.HasToken target

/-- What the term at `index` has to keep: its id is its place, and a relation is
tagged with and and refers to two different terms. -/
structure Admits (sequence : Sequence) (index : Nat) (term : Term) : Prop where
  numbered : term.id.number = index + 1
  related : ∀ relation first second, term.body = .pair relation first second →
    term.operator = .and ∧ first ≠ second ∧
      sequence.Refers term.id first ∧ sequence.Refers term.id second

def Coherent (sequence : Sequence) : Prop :=
  ∀ index term, sequence.terms[index]? = some term → sequence.Admits index term

theorem get?_eq_some_iff {sequence : Sequence} {id : TermId} {term : Term} :
    sequence.get? id = some term ↔
      1 ≤ id.number ∧ sequence.terms[id.number - 1]? = some term := by
  unfold get? TermId.index?
  by_cases hzero : id.number = 0
  · simp [hzero]
  · rw [if_neg hzero, Option.bind_some]
    exact ⟨fun h => ⟨Nat.one_le_iff_ne_zero.2 hzero, h⟩, fun h => h.2⟩

/-- The term that an id with a token names is found by the id. -/
theorem hasToken_iff_get? {sequence : Sequence} {id : TermId} :
    sequence.HasToken id ↔ ∃ term, sequence.get? id = some term ∧ term.isPrimary = true := by
  simp only [get?_eq_some_iff, Term.isPrimary_iff]
  constructor
  · rintro ⟨index, term, form, token, hnumber, hterm, hbody⟩
    exact ⟨term, ⟨by omega, by rwa [hnumber, Nat.add_sub_cancel]⟩, form, token, hbody⟩
  · rintro ⟨term, ⟨hpos, hterm⟩, form, token, hbody⟩
    exact ⟨id.number - 1, term, form, token, by omega, hterm, hbody⟩

theorem referenceFault?_eq_none_iff {sequence : Sequence} {id target : TermId} :
    sequence.referenceFault? id target = none ↔ sequence.Refers id target := by
  rw [referenceFault?, Refers, hasToken_iff_get?]
  by_cases hle : id.number ≤ target.number
  · simp only [hle, ↓reduceIte, reduceCtorEq, false_iff]
    rintro ⟨-, hlt, -⟩
    omega
  · rw [if_neg hle]
    cases hget : sequence.get? target with
    | none => simp
    | some term =>
        have hpos := (get?_eq_some_iff.1 hget).1
        cases hterm : term.isPrimary with
        | true => simp [hterm, hpos, Nat.lt_of_not_le hle]
        | false => simp [hterm]

theorem index?_eq_some_iff {id : TermId} {index : Nat} :
    id.index? = some index ↔ id.number = index + 1 := by
  unfold TermId.index?
  by_cases hzero : id.number = 0
  · simp [hzero]
  · rw [if_neg hzero, Option.some.injEq]
    omega

theorem termFault?_of_misnumbered {sequence : Sequence} {index : Nat} {term : Term}
    (h : term.id.number ≠ index + 1) :
    sequence.termFault? index term = some (.misnumbered (index + 1) term.id) :=
  if_pos fun hid => h (index?_eq_some_iff.1 hid)

/-- A word or a template in its place has no other rules to keep. -/
theorem termFault?_of_primary {sequence : Sequence} {index : Nat} {term : Term} {form : Form}
    {token : Token} (hid : term.id.number = index + 1) (hbody : term.body = .primary form token) :
    sequence.termFault? index term = none := by
  rw [termFault?, if_neg (not_not.2 (index?_eq_some_iff.2 hid)), Term.references?, hbody]

theorem termFault?_of_pair {sequence : Sequence} {index : Nat} {term : Term}
    {relation : Relation} {first second : TermId} (hid : term.id.number = index + 1)
    (hbody : term.body = .pair relation first second) :
    sequence.termFault? index term =
      if term.operator ≠ .and then some (.relationOperator term.id)
      else if first = second then some (.reference term.id second .repeated)
      else
        [first, second].findSome? fun target =>
          (sequence.referenceFault? term.id target).map (.reference term.id target) := by
  rw [termFault?, if_neg (not_not.2 (index?_eq_some_iff.2 hid)),
    Term.references?_eq_some_iff.2 ⟨relation, hbody⟩]

/-- The check of a single term is exact. -/
theorem termFault?_eq_none_iff {sequence : Sequence} {index : Nat} {term : Term} :
    sequence.termFault? index term = none ↔ sequence.Admits index term := by
  by_cases hnumber : term.id.number = index + 1
  · cases hbody : term.body with
    | primary form token =>
        exact ⟨fun _ => ⟨hnumber, by simp [hbody]⟩, fun _ => termFault?_of_primary hnumber hbody⟩
    | pair relation first second =>
        rw [termFault?_of_pair hnumber hbody]
        constructor
        · intro h
          split_ifs at h with hop heq
          have hfirst := List.findSome?_eq_none_iff.1 h first (by simp)
          have hsecond := List.findSome?_eq_none_iff.1 h second (by simp)
          rw [Option.map_eq_none_iff, referenceFault?_eq_none_iff] at hfirst hsecond
          refine ⟨hnumber, fun _ _ _ hpair => ?_⟩
          obtain ⟨-, rfl, rfl⟩ := Body.pair.inj (hbody.symm.trans hpair)
          exact ⟨not_not.1 hop, heq, hfirst, hsecond⟩
        · intro h
          obtain ⟨hop, hne, hfirst, hsecond⟩ := h.related relation first second hbody
          simp [hop, hne, referenceFault?_eq_none_iff.2 hfirst,
            referenceFault?_eq_none_iff.2 hsecond]
  · rw [termFault?_of_misnumbered hnumber]
    simp only [reduceCtorEq, false_iff]
    exact fun h => hnumber h.numbered

theorem fault?_eq_none_iff {sequence : Sequence} :
    sequence.fault? = none ↔
      sequence.Coherent ∧ sequence.tagCount .or ≤ maxDisjunctions := by
  rw [fault?, orCount_eq_tagCount]
  rw [Option.or_eq_none_iff, List.findSome?_eq_none_iff]
  refine and_congr ?_ (by split_ifs with h <;> simp <;> omega)
  constructor
  · intro h index term hterm
    exact termFault?_eq_none_iff.1 (h (term, index) (List.mem_zipIdx_iff_getElem?.2 hterm))
  · rintro h ⟨term, index⟩ hmem
    exact termFault?_eq_none_iff.2 (h index term (List.mem_zipIdx_iff_getElem?.1 hmem))

theorem validate_eq_ok_iff {sequence : Sequence} :
    sequence.validate = .ok () ↔
      sequence.Coherent ∧ sequence.tagCount .or ≤ maxDisjunctions := by
  rw [← fault?_eq_none_iff]
  unfold validate
  cases sequence.fault? <;> simp

/-! What a term may refer to has a token, so no fragment is missing. -/

theorem Refers.exists_resolve_eq_ok {sequence : Sequence} {id target : TermId}
    (h : sequence.Refers id target) : ∃ token, sequence.resolve id target = .ok token := by
  obtain ⟨-, -, hnamed⟩ := h
  obtain ⟨term, hget, hprimary⟩ := hasToken_iff_get?.1 hnamed
  obtain ⟨token, htoken⟩ := Option.isSome_iff_exists.1 hprimary
  exact ⟨token, by simp [resolve, hget, htoken]⟩

theorem Admits.exists_fragment_eq_ok {sequence : Sequence} {index : Nat} {term : Term}
    (h : sequence.Admits index term) : ∃ text, sequence.fragment term = .ok text := by
  have hmatcher : ∃ text, sequence.matcher term.id term.body = .ok text := by
    cases hbody : term.body with
    | primary form token => exact ⟨_, rfl⟩
    | pair relation first second =>
        obtain ⟨-, -, hfirst, hsecond⟩ := h.related relation first second hbody
        obtain ⟨left, hleft⟩ := hfirst.exists_resolve_eq_ok
        obtain ⟨right, hright⟩ := hsecond.exists_resolve_eq_ok
        exact ⟨_, by simp only [matcher, hleft, hright]; rfl⟩
  obtain ⟨text, htext⟩ := hmatcher
  unfold fragment
  rw [htext]
  cases term.operator <;> exact ⟨_, rfl⟩

theorem Coherent.exists_fragments_eq_ok {sequence : Sequence} (h : sequence.Coherent) :
    ∃ fragments, sequence.fragments = .ok fragments := by
  apply exists_mapM_eq_ok
  intro term hterm
  obtain ⟨index, hindex⟩ := List.getElem?_of_mem hterm
  exact (h index term hindex).exists_fragment_eq_ok

theorem length_fragments {sequence : Sequence} {fragments : List Text}
    (h : sequence.fragments = .ok fragments) : fragments.length = sequence.size :=
  (mapM_eq_ok_iff.1 h).length_eq.symm

/-! Ids and references look back only, so a sequence grows term by term. -/

theorem get?_append_of_lt {terms more : List Term} {id target : TermId}
    (hid : id.number ≤ terms.length + 1) (hpos : 1 ≤ target.number)
    (hlt : target.number < id.number) :
    (⟨terms ++ more⟩ : Sequence).get? target = (⟨terms⟩ : Sequence).get? target := by
  have hzero : target.number ≠ 0 := by omega
  simp only [get?, TermId.index?, if_neg hzero, Option.bind_some]
  exact List.getElem?_append_left (by omega)

theorem refers_append_iff {terms more : List Term} {id target : TermId}
    (hid : id.number ≤ terms.length + 1) :
    (⟨terms ++ more⟩ : Sequence).Refers id target ↔
      (⟨terms⟩ : Sequence).Refers id target := by
  refine and_congr_right fun hpos => and_congr_right fun hlt => ?_
  rw [hasToken_iff_get?, hasToken_iff_get?, get?_append_of_lt hid hpos hlt]

/-- What a term has to keep depends on the terms before it only. -/
theorem admits_append_iff {terms more : List Term} {index : Nat} {term : Term}
    (hindex : index ≤ terms.length) :
    (⟨terms ++ more⟩ : Sequence).Admits index term ↔
      (⟨terms⟩ : Sequence).Admits index term := by
  constructor
  · intro h
    have hid : term.id.number ≤ terms.length + 1 := by rw [h.numbered]; omega
    refine ⟨h.numbered, fun relation first second hbody => ?_⟩
    obtain ⟨hop, hne, hfirst, hsecond⟩ := h.related relation first second hbody
    exact ⟨hop, hne, (refers_append_iff hid).1 hfirst, (refers_append_iff hid).1 hsecond⟩
  · intro h
    have hid : term.id.number ≤ terms.length + 1 := by rw [h.numbered]; omega
    refine ⟨h.numbered, fun relation first second hbody => ?_⟩
    obtain ⟨hop, hne, hfirst, hsecond⟩ := h.related relation first second hbody
    exact ⟨hop, hne, (refers_append_iff hid).2 hfirst, (refers_append_iff hid).2 hsecond⟩

theorem coherent_append_singleton_iff {terms : List Term} {term : Term} :
    (⟨terms ++ [term]⟩ : Sequence).Coherent ↔
      (⟨terms⟩ : Sequence).Coherent ∧
        (⟨terms⟩ : Sequence).Admits terms.length term := by
  rw [Coherent, forall_getElem?_append_singleton_iff, admits_append_iff (Nat.le_refl _)]
  refine and_congr_left fun _ => forall_congr' fun index => forall_congr' fun other =>
    imp_congr_right fun hother => ?_
  exact admits_append_iff (Nat.le_of_lt (List.getElem?_eq_some_iff.1 hother).1)

theorem Coherent.of_append {terms more : List Term}
    (h : (⟨terms ++ more⟩ : Sequence).Coherent) : (⟨terms⟩ : Sequence).Coherent := by
  intro index term hterm
  have hlt := (List.getElem?_eq_some_iff.1 hterm).1
  refine (admits_append_iff (Nat.le_of_lt hlt)).1 (h index term ?_)
  rwa [List.getElem?_append_left hlt]

theorem forall_mem_push {sequence : Sequence} {operator : Operator} {body : Body}
    {p : Term → Prop} (hold : ∀ term ∈ sequence.terms, p term)
    (hnew : p ⟨sequence.nextId, operator, body⟩) :
    ∀ term ∈ (sequence.push operator body).terms, p term := by
  intro term hterm
  rcases List.mem_append.1 hterm with hmem | hlast
  · exact hold term hmem
  · rw [List.mem_singleton.1 hlast]
    exact hnew

theorem coherent_empty : empty.Coherent := by
  intro index term hterm
  simp [empty] at hterm

theorem nextId_number {sequence : Sequence} (h : sequence.size + 1 < UInt32.size) :
    sequence.nextId.number = sequence.size + 1 := by
  change min (sequence.size + 1) (UInt32.size - 1) = sequence.size + 1
  omega

theorem HasToken.refers_nextId {sequence : Sequence} {id : TermId}
    (h : sequence.HasToken id) (hsize : sequence.size + 1 < UInt32.size) :
    sequence.Refers sequence.nextId id := by
  have htoken := h
  obtain ⟨index, term, -, -, hnumber, hterm, -⟩ := htoken
  have hlt := (List.getElem?_eq_some_iff.1 hterm).1
  refine ⟨by omega, ?_, h⟩
  rw [nextId_number hsize, size]
  omega

theorem Coherent.push_primary {sequence : Sequence} (h : sequence.Coherent)
    (hsize : sequence.size + 1 < UInt32.size) (operator : Operator) (form : Form)
    (token : Token) : (sequence.push operator (.primary form token)).Coherent :=
  coherent_append_singleton_iff.2 ⟨h, nextId_number hsize, by simp⟩

theorem Coherent.push_pair {sequence : Sequence} (h : sequence.Coherent)
    (hsize : sequence.size + 1 < UInt32.size) (relation : Relation) {first second : TermId}
    (hne : first ≠ second) (hfirst : sequence.HasToken first)
    (hsecond : sequence.HasToken second) :
    (sequence.push .and (.pair relation first second)).Coherent := by
  refine coherent_append_singleton_iff.2 ⟨h, nextId_number hsize, ?_⟩
  intro _ _ _ hbody
  obtain ⟨rfl, rfl, rfl⟩ := Body.pair.inj hbody
  exact ⟨rfl, hne, hfirst.refers_nextId hsize, hsecond.refers_nextId hsize⟩

theorem Coherent.of_push {sequence : Sequence} {operator : Operator} {body : Body}
    (h : (sequence.push operator body).Coherent) : sequence.Coherent :=
  (coherent_append_singleton_iff.1 h).1

/-- The relations of a coherent sequence were fit to be added. -/
theorem Coherent.of_push_pair {sequence : Sequence} {operator : Operator}
    {relation : Relation} {first second : TermId}
    (h : (sequence.push operator (.pair relation first second)).Coherent) :
    operator = .and ∧ first ≠ second ∧ sequence.HasToken first ∧
      sequence.HasToken second := by
  obtain ⟨hop, hne, hfirst, hsecond⟩ :=
    (coherent_append_singleton_iff.1 h).2.related relation first second rfl
  exact ⟨hop, hne, hfirst.2.2, hsecond.2.2⟩

/-- Ids are words of 32 bits, which bounds the size of a coherent sequence. -/
theorem Coherent.size_lt {sequence : Sequence} (h : sequence.Coherent) :
    sequence.size < UInt32.size := by
  obtain ⟨terms⟩ := sequence
  rcases List.eq_nil_or_concat terms with rfl | ⟨front, last, rfl⟩
  · exact (by decide : 0 < UInt32.size)
  · rw [List.concat_eq_append] at h ⊢
    have hnumber := (coherent_append_singleton_iff.1 h).2.numbered
    have hlt := last.id.number_lt
    rw [size, List.length_append, List.length_singleton]
    omega

/-- A coherent sequence is made by adding its terms one after the other. -/
theorem Coherent.pushInduction {motive : Sequence → Prop} (hempty : motive empty)
    (hpush : ∀ sequence operator body, (sequence.push operator body).Coherent →
      motive sequence → motive (sequence.push operator body))
    {sequence : Sequence} (h : sequence.Coherent) : motive sequence := by
  obtain ⟨terms⟩ := sequence
  induction terms using List.reverseRecOn with
  | nil => exact hempty
  | append_singleton front last ih =>
      have hsize := h.size_lt
      obtain ⟨hfront, hlast⟩ := coherent_append_singleton_iff.1 h
      have hpushed : (⟨front ++ [last]⟩ : Sequence) =
          (⟨front⟩ : Sequence).push last.operator last.body := by
        have hid : last.id = (⟨front⟩ : Sequence).nextId := by
          have hnext : (⟨front⟩ : Sequence).nextId.number = front.length + 1 :=
            nextId_number (by simpa [size] using hsize)
          have hnumber := hlast.numbered.trans hnext.symm
          cases hid : last.id
          cases hnextId : (⟨front⟩ : Sequence).nextId
          simpa [hid, hnextId] using hnumber
        rw [push, ← hid]
      rw [hpushed] at h ⊢
      exact hpush _ _ _ h (ih hfront)

end Sequence

end GradingRule
