/-
The verdict on a sequence.  Which rules a term has to keep, and which one it breaks
first, is said of the term and of the terms before it alone, where an id means the
earlier term that carries it.  The validator looks ids up by place in the whole
sequence; as long as nothing was wrong before, that is the same.
-/
import GradingRule.Proofs.Gate

namespace GradingRule

/-- The first place with an answer, and all places before it. -/
theorem findSome?_zipIdx_eq_some_iff {α β : Type} {f : α × Nat → Option β} {list : List α}
    {b : β} :
    list.zipIdx.findSome? f = some b ↔
      ∃ earlier a later, list = earlier ++ a :: later ∧ f (a, earlier.length) = some b ∧
        ∀ index other, earlier[index]? = some other → f (other, index) = none := by
  rw [List.findSome?_eq_some_iff]
  constructor
  · rintro ⟨front, ⟨a, place⟩, back, hsplit, hfound, hfront⟩
    obtain ⟨earlier, rest, rfl, rfl, hrest⟩ := List.zipIdx_eq_append_iff.1 hsplit
    obtain ⟨_, later, rfl, heq, -⟩ := List.zipIdx_eq_cons_iff.1 hrest.symm
    obtain ⟨rfl, rfl⟩ := Prod.mk.inj heq
    refine ⟨earlier, a, later, rfl, by simpa using hfound, ?_⟩
    intro index other hother
    exact hfront (other, index) (List.mem_zipIdx_iff_getElem?.2 hother)
  · rintro ⟨earlier, a, later, rfl, hfound, hearlier⟩
    refine ⟨earlier.zipIdx, (a, earlier.length), later.zipIdx (earlier.length + 1), ?_, hfound, ?_⟩
    · simp [List.zipIdx_append]
    · rintro ⟨other, index⟩ hmem
      exact hearlier index other (List.mem_zipIdx_iff_getElem?.1 hmem)

theorem TermId.eq_of_number {id other : TermId} (h : id.number = other.number) : id = other := by
  cases id
  cases other
  simpa using h

namespace Term

/-- The term may refer to the id: it is lower than its own, and the earlier term
that carries it is a word or a template. -/
structure Reaches (earlier : List Term) (term : Term) (target : TermId) : Prop where
  one_le : 1 ≤ target.number
  lt : target.number < term.id.number
  named : ∃ other ∈ earlier, other.id = target ∧
    ∃ form token, other.body = .primary form token

/-- The rules for a term that comes after these terms: its id is its place, and a
relation is tagged with and and refers to two different terms. -/
structure Keeps (earlier : List Term) (term : Term) : Prop where
  numbered : term.id.number = earlier.length + 1
  related : ∀ relation first second, term.body = .pair relation first second →
    term.operator = .and ∧ first ≠ second ∧
      term.Reaches earlier first ∧ term.Reaches earlier second

/-- What is wrong with an id that the term may not refer to. -/
inductive Misses (earlier : List Term) (term : Term) (target : TermId) :
    ReferenceFault → Prop
  | notEarlier : term.id.number ≤ target.number → Misses earlier term target .notEarlier
  | missing : target.number = 0 → 0 < term.id.number → Misses earlier term target .missing
  | notPrimary {other : Term} {relation : Relation} {first second : TermId} :
      target.number < term.id.number → other ∈ earlier → other.id = target →
      other.body = .pair relation first second → Misses earlier term target .notPrimary

/-- The first rule that a term breaks, in the order of the rules. -/
inductive Breaks (earlier : List Term) (term : Term) : SequenceFault → Prop
  | misnumbered :
      term.id.number ≠ earlier.length + 1 →
      Breaks earlier term (.misnumbered (earlier.length + 1) term.id)
  | relationOperator {relation : Relation} {first second : TermId} :
      term.id.number = earlier.length + 1 → term.body = .pair relation first second →
      term.operator ≠ .and → Breaks earlier term (.relationOperator term.id)
  | repeated {relation : Relation} {target : TermId} :
      term.id.number = earlier.length + 1 → term.body = .pair relation target target →
      term.operator = .and → Breaks earlier term (.reference term.id target .repeated)
  | first {relation : Relation} {first second : TermId} {cause : ReferenceFault} :
      term.id.number = earlier.length + 1 → term.body = .pair relation first second →
      term.operator = .and → first ≠ second → term.Misses earlier first cause →
      Breaks earlier term (.reference term.id first cause)
  | second {relation : Relation} {first second : TermId} {cause : ReferenceFault} :
      term.id.number = earlier.length + 1 → term.body = .pair relation first second →
      term.operator = .and → first ≠ second → term.Reaches earlier first →
      term.Misses earlier second cause →
      Breaks earlier term (.reference term.id second cause)

end Term

/-- The fault is about the term at this place, counted from 1. -/
def SequenceFault.Concerns (place : Nat) (term : Term) : SequenceFault → Prop
  | .misnumbered found id => found = place ∧ id = term.id
  | .relationOperator id => id = term.id ∧ id.number = place
  | .reference id _ _ => id = term.id ∧ id.number = place
  | .tooManyDisjunctions .. => False
  | .disjunctionPoint .. => False

theorem Term.Breaks.concerns {earlier : List Term} {term : Term} {fault : SequenceFault}
    (h : term.Breaks earlier fault) : fault.Concerns (earlier.length + 1) term := by
  cases h with
  | misnumbered => exact ⟨rfl, rfl⟩
  | relationOperator hid => exact ⟨rfl, hid⟩
  | repeated hid => exact ⟨rfl, hid⟩
  | first hid => exact ⟨rfl, hid⟩
  | second hid => exact ⟨rfl, hid⟩

/-- Only the id 0 is not there: a higher one that is low enough is an earlier place. -/
theorem Term.Breaks.eq_zero_of_missing {earlier : List Term} {term : Term} {id target : TermId}
    (h : term.Breaks earlier (.reference id target .missing)) : target.number = 0 := by
  cases h with
  | first _ _ _ _ hmisses =>
      cases hmisses with
      | missing hzero => exact hzero
  | second _ _ _ _ _ hmisses =>
      cases hmisses with
      | missing hzero => exact hzero

theorem ReferenceFault.eq_missing_of_message {cause : ReferenceFault}
    (h : cause.message = "does not exist") : cause = .missing := by
  cases cause with
  | missing => rfl
  | repeated => exact absurd h (by decide)
  | notEarlier => exact absurd h (by decide)
  | notPrimary => exact absurd h (by decide)

namespace Sequence

/-- Every term keeps the rules. -/
def Kept (sequence : Sequence) : Prop :=
  ∀ earlier term later, sequence.terms = earlier ++ term :: later → term.Keeps earlier

/-- Where ids are places, the term in a place is the one that carries its id. -/
theorem Coherent.get?_eq_some_iff_mem {sequence : Sequence} (h : sequence.Coherent)
    {target : TermId} {term : Term} :
    sequence.get? target = some term ↔ term ∈ sequence.terms ∧ term.id = target := by
  rw [get?_eq_some_iff]
  constructor
  · rintro ⟨hpos, hterm⟩
    have hnumber := (h _ term hterm).numbered
    refine ⟨List.mem_of_getElem? hterm, ?_⟩
    exact TermId.eq_of_number (by omega)
  · rintro ⟨hmem, rfl⟩
    obtain ⟨index, hindex⟩ := List.getElem?_of_mem hmem
    have hnumber := (h index term hindex).numbered
    exact ⟨by omega, by rwa [hnumber, Nat.add_sub_cancel]⟩

theorem Coherent.refers_iff_reaches {earlier : List Term}
    (h : (⟨earlier⟩ : Sequence).Coherent) {term : Term} {target : TermId} :
    (⟨earlier⟩ : Sequence).Refers term.id target ↔ term.Reaches earlier target := by
  have hnamed : (⟨earlier⟩ : Sequence).HasToken target ↔
      ∃ other ∈ earlier, other.id = target ∧ ∃ form token, other.body = .primary form token := by
    simp only [hasToken_iff_get?, h.get?_eq_some_iff_mem, Term.isPrimary_iff, and_assoc]
  constructor
  · rintro ⟨hpos, hlt, htoken⟩
    exact ⟨hpos, hlt, hnamed.1 htoken⟩
  · rintro ⟨hpos, hlt, hother⟩
    exact ⟨hpos, hlt, hnamed.2 hother⟩

theorem Coherent.admits_iff_keeps {earlier : List Term}
    (h : (⟨earlier⟩ : Sequence).Coherent) {term : Term} :
    (⟨earlier⟩ : Sequence).Admits earlier.length term ↔ term.Keeps earlier := by
  constructor
  · rintro ⟨hnumbered, hrelated⟩
    refine ⟨hnumbered, fun relation first second hbody => ?_⟩
    simpa only [h.refers_iff_reaches] using hrelated relation first second hbody
  · rintro ⟨hnumbered, hrelated⟩
    refine ⟨hnumbered, fun relation first second hbody => ?_⟩
    simpa only [h.refers_iff_reaches] using hrelated relation first second hbody

/-- To keep the rules is to hang together, whichever way ids are looked up. -/
theorem coherent_iff_kept {sequence : Sequence} : sequence.Coherent ↔ sequence.Kept := by
  obtain ⟨terms⟩ := sequence
  constructor
  · rintro h earlier term later heq
    obtain rfl : terms = earlier ++ term :: later := heq
    have hfront : (⟨earlier ++ [term]⟩ : Sequence).Coherent := by
      rw [← List.singleton_append, ← List.append_assoc] at h
      exact h.of_append
    obtain ⟨hearlier, hadmits⟩ := coherent_append_singleton_iff.1 hfront
    exact hearlier.admits_iff_keeps.1 hadmits
  · intro h
    induction terms using List.reverseRecOn with
    | nil => exact coherent_empty
    | append_singleton front last ih =>
        have hfront : (⟨front⟩ : Sequence).Coherent := by
          apply ih
          intro earlier term later heq
          refine h earlier term (later ++ [last]) ?_
          rw [show front = earlier ++ term :: later from heq, List.append_assoc,
            List.cons_append]
        exact coherent_append_singleton_iff.2
          ⟨hfront, hfront.admits_iff_keeps.2 (h front last [] rfl)⟩

section After

/-! The check of one term after terms that keep the rules. -/

variable {earlier later : List Term} {term : Term}
  (hearlier : (⟨earlier⟩ : Sequence).Coherent)

include hearlier

theorem referenceFault?_eq_some_iff (hid : term.id.number = earlier.length + 1)
    {target : TermId} {cause : ReferenceFault} :
    (⟨earlier ++ term :: later⟩ : Sequence).referenceFault? term.id target = some cause ↔
      term.Misses earlier target cause := by
  have hback : 1 ≤ target.number → target.number < term.id.number →
      (⟨earlier ++ term :: later⟩ : Sequence).get? target =
        (⟨earlier⟩ : Sequence).get? target := get?_append_of_lt (Nat.le_of_eq hid)
  constructor
  · intro h
    unfold referenceFault? at h
    split at h
    · next hle =>
        obtain rfl := Option.some.inj h
        exact .notEarlier hle
    · next hle =>
        have hlt := Nat.lt_of_not_le hle
        split at h
        · next hget =>
            obtain rfl := Option.some.inj h
            refine .missing ?_ (Nat.zero_lt_of_lt hlt)
            -- Every other place before the term is filled.
            by_contra hzero
            have hplace : target.number - 1 < earlier.length := by omega
            have hterm := List.getElem?_eq_getElem hplace
            rw [hback (by omega) hlt, get?_eq_some_iff.2 ⟨by omega, hterm⟩] at hget
            exact absurd hget (by simp)
        · next other hget =>
            split at h
            · exact absurd h (by simp)
            · next hprimary =>
                obtain rfl := Option.some.inj h
                rw [hback (get?_eq_some_iff.1 hget).1 hlt] at hget
                obtain ⟨hmem, hcarries⟩ := hearlier.get?_eq_some_iff_mem.1 hget
                obtain ⟨_, _, _, hbody⟩ :=
                  Term.isPrimary_eq_false_iff.1 (eq_false_of_ne_true hprimary)
                exact .notPrimary hlt hmem hcarries hbody
  · intro h
    cases h with
    | notEarlier hle => rw [referenceFault?, if_pos hle]
    | missing hzero hpos =>
        rw [referenceFault?, if_neg (by omega)]
        simp [get?, TermId.index?, hzero]
    | notPrimary hlt hmem hcarries hbody =>
        have hprimary := Term.isPrimary_eq_false_iff.2 ⟨_, _, _, hbody⟩
        have hget := hearlier.get?_eq_some_iff_mem.2 ⟨hmem, hcarries⟩
        rw [referenceFault?, if_neg (Nat.not_le.2 hlt), hback (get?_eq_some_iff.1 hget).1 hlt,
          hget]
        simp [hprimary]

theorem referenceFault?_eq_none_iff_reaches (hid : term.id.number = earlier.length + 1)
    {target : TermId} :
    (⟨earlier ++ term :: later⟩ : Sequence).referenceFault? term.id target = none ↔
      term.Reaches earlier target := by
  rw [referenceFault?_eq_none_iff, refers_append_iff (Nat.le_of_eq hid),
    hearlier.refers_iff_reaches]

theorem breaks_of_termFault? {fault : SequenceFault}
    (h : (⟨earlier ++ term :: later⟩ : Sequence).termFault? earlier.length term = some fault) :
    term.Breaks earlier fault := by
  by_cases hid : term.id.number = earlier.length + 1
  · cases hbody : term.body with
    | primary form token => simp [termFault?_of_primary hid hbody] at h
    | pair relation first second =>
        rw [termFault?_of_pair hid hbody] at h
        split_ifs at h with hoperator hsame
        · obtain rfl := Option.some.inj h
          exact .relationOperator hid hbody hoperator
        · obtain rfl := Option.some.inj h
          obtain rfl := hsame
          exact .repeated hid hbody (not_not.1 hoperator)
        · have hand := not_not.1 hoperator
          rw [List.findSome?_cons] at h
          cases hfirst :
              (⟨earlier ++ term :: later⟩ : Sequence).referenceFault? term.id first with
          | some cause =>
              rw [hfirst] at h
              obtain rfl := Option.some.inj h
              exact .first hid hbody hand hsame
                ((referenceFault?_eq_some_iff hearlier hid).1 hfirst)
          | none =>
              rw [hfirst, Option.map_none, List.findSome?_singleton] at h
              obtain ⟨cause, hsecond, rfl⟩ := Option.map_eq_some_iff.1 h
              exact .second hid hbody hand hsame
                ((referenceFault?_eq_none_iff_reaches hearlier hid).1 hfirst)
                ((referenceFault?_eq_some_iff hearlier hid).1 hsecond)
  · rw [termFault?_of_misnumbered hid] at h
    obtain rfl := Option.some.inj h
    exact .misnumbered hid

/-- The validator finds the first rule that the term breaks. -/
theorem termFault?_eq_some_iff {fault : SequenceFault} :
    (⟨earlier ++ term :: later⟩ : Sequence).termFault? earlier.length term = some fault ↔
      term.Breaks earlier fault := by
  refine ⟨breaks_of_termFault? hearlier, ?_⟩
  intro h
  cases h with
  | misnumbered hid => exact termFault?_of_misnumbered hid
  | relationOperator hid hbody hoperator => rw [termFault?_of_pair hid hbody, if_pos hoperator]
  | repeated hid hbody hand => simp [termFault?_of_pair hid hbody, hand]
  | first hid hbody hand hne hmisses =>
      simp [termFault?_of_pair hid hbody, hand, hne,
        (referenceFault?_eq_some_iff hearlier hid).2 hmisses]
  | second hid hbody hand hne hreaches hmisses =>
      simp [termFault?_of_pair hid hbody, hand, hne,
        (referenceFault?_eq_none_iff_reaches hearlier hid).2 hreaches,
        (referenceFault?_eq_some_iff hearlier hid).2 hmisses]

end After

theorem forall_termFault?_eq_none_iff {earlier rest : List Term} :
    (∀ index other, earlier[index]? = some other →
        (⟨earlier ++ rest⟩ : Sequence).termFault? index other = none) ↔
      (⟨earlier⟩ : Sequence).Coherent := by
  refine forall_congr' fun index => forall_congr' fun other => imp_congr_right fun hother => ?_
  have hlt := (List.getElem?_eq_some_iff.1 hother).1
  rw [termFault?_eq_none_iff, admits_append_iff (Nat.le_of_lt hlt)]

/-- The fault of the terms is that of the first term that breaks a rule. -/
theorem findSome?_termFault?_eq_some_iff {sequence : Sequence} {fault : SequenceFault} :
    (sequence.terms.zipIdx.findSome? fun (term, index) => sequence.termFault? index term) =
        some fault ↔
      ∃ earlier term later, sequence.terms = earlier ++ term :: later ∧
        (⟨earlier⟩ : Sequence).Kept ∧ term.Breaks earlier fault := by
  obtain ⟨terms⟩ := sequence
  rw [findSome?_zipIdx_eq_some_iff]
  refine exists_congr fun earlier => exists_congr fun term => exists_congr fun later =>
    and_congr_right ?_
  rintro rfl
  rw [forall_termFault?_eq_none_iff, and_comm, coherent_iff_kept]
  exact and_congr_right fun hkept => termFault?_eq_some_iff (coherent_iff_kept.2 hkept)

/-- The validator names the first rule that is broken, or the number of disjunctions
if every term keeps the rules. -/
theorem validate_eq_error_iff_breaks {sequence : Sequence} {fault : SequenceFault} :
    sequence.validate = .error fault ↔
      (∃ earlier term later, sequence.terms = earlier ++ term :: later ∧
          (⟨earlier⟩ : Sequence).Kept ∧ term.Breaks earlier fault) ∨
        (sequence.Kept ∧ maxDisjunctions < sequence.tagCount .or ∧
          fault = .tooManyDisjunctions (sequence.tagCount .or) maxDisjunctions) := by
  rw [validate_eq_error_iff, fault?, Option.or_eq_some_iff, findSome?_termFault?_eq_some_iff,
    orCount_eq_tagCount]
  refine or_congr_right ?_
  have hnone : (sequence.terms.zipIdx.findSome? fun (term, index) =>
      sequence.termFault? index term) = none ↔ sequence.Kept := by
    rw [← coherent_iff_kept, List.findSome?_eq_none_iff]
    simp only [Prod.forall, List.mem_zipIdx_iff_getElem?, termFault?_eq_none_iff]
    exact forall_comm
  rw [hnone]
  refine and_congr_right fun _ => ?_
  split_ifs with hcount
  · simp [hcount, eq_comm]
  · simp [hcount]

/-- A term that breaks a rule does not keep the rules. -/
theorem not_keeps_of_breaks {earlier : List Term} {term : Term} {fault : SequenceFault}
    (hearlier : (⟨earlier⟩ : Sequence).Kept) (h : term.Breaks earlier fault) :
    ¬term.Keeps earlier := by
  have hcoherent := coherent_iff_kept.2 hearlier
  have hfault : (⟨earlier ++ [term]⟩ : Sequence).termFault? earlier.length term = some fault :=
    (termFault?_eq_some_iff hcoherent).2 h
  intro hkeeps
  have hadmits : (⟨earlier ++ [term]⟩ : Sequence).Admits earlier.length term :=
    (admits_append_iff (Nat.le_refl _)).2 (hcoherent.admits_iff_keeps.2 hkeeps)
  rw [termFault?_eq_none_iff.2 hadmits] at hfault
  exact absurd hfault (by simp)

/-- The validator accepts a sequence exactly if every term keeps the rules and at
most two are tagged with or.  A fault of a term is that of the first term that does
not keep them; the number of disjunctions is a fault only if all terms do, and it is
the number given; and only the id 0 is said not to be there. -/
theorem validate_names_first_fault (sequence : Sequence) :
    (sequence.validate = .ok () ↔ sequence.Kept ∧ sequence.tagCount .or ≤ 2) ∧
      (∀ fault, sequence.validate = .error fault →
        (∀ count limit, fault ≠ .tooManyDisjunctions count limit) →
        ∃ earlier term later, sequence.terms = earlier ++ term :: later ∧
          (⟨earlier⟩ : Sequence).Kept ∧ ¬term.Keeps earlier ∧ term.Breaks earlier fault ∧
          fault.Concerns (earlier.length + 1) term) ∧
      (∀ count limit, sequence.validate = .error (.tooManyDisjunctions count limit) ↔
        sequence.Kept ∧ 2 < sequence.tagCount .or ∧ count = sequence.tagCount .or ∧
          limit = 2) ∧
      ∀ id target cause, sequence.validate = .error (.reference id target cause) →
        cause.message = "does not exist" → target.number = 0 := by
  refine ⟨?_, ?_, ?_, ?_⟩
  · rw [validate_eq_ok_iff, coherent_iff_kept, maxDisjunctions]
  · intro fault h hother
    rcases validate_eq_error_iff_breaks.1 h with
      ⟨earlier, term, later, hsplit, hkept, hbreaks⟩ | ⟨-, -, rfl⟩
    · exact ⟨earlier, term, later, hsplit, hkept, not_keeps_of_breaks hkept hbreaks, hbreaks,
        hbreaks.concerns⟩
    · exact absurd rfl (hother _ _)
  · intro count limit
    rw [validate_eq_error_iff_breaks]
    constructor
    · rintro (⟨earlier, term, later, -, -, hbreaks⟩ | ⟨hkept, hcount, heq⟩)
      · exact absurd hbreaks.concerns id
      · exact ⟨hkept, hcount, by simpa [maxDisjunctions] using heq⟩
    · rintro ⟨hkept, hcount, rfl, rfl⟩
      exact .inr ⟨hkept, hcount, rfl⟩
  · intro id target cause h hmessage
    obtain rfl := ReferenceFault.eq_missing_of_message hmessage
    rcases validate_eq_error_iff_breaks.1 h with
      ⟨earlier, term, later, -, -, hbreaks⟩ | ⟨-, -, heq⟩
    · exact hbreaks.eq_zero_of_missing
    · exact absurd heq (by simp)

end Sequence

namespace FirstFaultWitness

def elk : Body :=
  .primary .word (.ofText "elk".toList (by decide))

/-- A relation to the id 0, and after it an id that is no place and an alternative
too many. -/
def faulty : Sequence :=
  ⟨[⟨.atPlace 1, .or, elk⟩, ⟨.atPlace 2, .or, elk⟩,
    ⟨.atPlace 3, .and, .pair .precedes (.atPlace 2) (.atPlace 0)⟩, ⟨.atPlace 1, .or, elk⟩]⟩

/-- The same with the other two faults put right. -/
def crowded : Sequence :=
  ⟨[⟨.atPlace 1, .or, elk⟩, ⟨.atPlace 2, .or, elk⟩,
    ⟨.atPlace 3, .and, .pair .precedes (.atPlace 2) (.atPlace 1)⟩, ⟨.atPlace 4, .or, elk⟩]⟩

/-- Of the three faults the relation has the first one; the alternatives come last. -/
theorem validate_names_first_fault_missing :
    faulty.validate = .error (.reference (.atPlace 3) (.atPlace 0) .missing) ∧
      (TermId.atPlace 0).number = 0 ∧
      (∃ earlier term later, faulty.terms = earlier ++ term :: later ∧
        (⟨earlier⟩ : Sequence).Kept ∧ ¬term.Keeps earlier ∧
        term.Breaks earlier (.reference (.atPlace 3) (.atPlace 0) .missing) ∧
        (SequenceFault.reference (.atPlace 3) (.atPlace 0) .missing).Concerns
          (earlier.length + 1) term) ∧
      crowded.validate = .error (.tooManyDisjunctions 3 2) ∧ crowded.Kept ∧
      crowded.tagCount .or = 3 := by
  have hfault : faulty.validate = .error (.reference (.atPlace 3) (.atPlace 0) .missing) := rfl
  have hcrowded : crowded.validate = .error (.tooManyDisjunctions 3 2) := rfl
  obtain ⟨-, hfirst, -, hmissing⟩ := faulty.validate_names_first_fault
  obtain ⟨-, -, hcount, -⟩ := crowded.validate_names_first_fault
  obtain ⟨hkept, -, hthree, -⟩ := (hcount 3 2).1 hcrowded
  exact ⟨hfault, hmissing _ _ _ hfault rfl, hfirst _ hfault (by simp), hcrowded, hkept,
    hthree.symm⟩

end FirstFaultWitness

end GradingRule
