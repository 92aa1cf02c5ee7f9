/-
Removing the newest terms.  What a term has to keep, and its fragment, depend on the
terms before it only, so a sequence that has an expression still has one when its
newest terms are gone.  Undoing relies on this.
-/
import GradingRule.Proofs.Previews

namespace GradingRule

namespace Sequence

/-- Pops so many times, or until no term is left: the removed terms, the newest
first, and the sequence without them. -/
def popTimes : Nat → Sequence → List Term × Sequence
  | 0, sequence => ([], sequence)
  | times + 1, sequence =>
      match sequence.pop? with
      | none => ([], sequence)
      | some (term, rest) =>
          let (removed, last) := popTimes times rest
          (term :: removed, last)

theorem popTimes_of_pop?_eq_none {sequence : Sequence} (h : sequence.pop? = none) (times : Nat) :
    sequence.popTimes times = ([], sequence) := by
  cases times with
  | zero => rfl
  | succ times => rw [popTimes, h]

theorem popTimes_of_pop?_eq_some {sequence rest : Sequence} {term : Term}
    (h : sequence.pop? = some (term, rest)) (times : Nat) :
    sequence.popTimes (times + 1) =
      (term :: (rest.popTimes times).1, (rest.popTimes times).2) := by
  rw [popTimes, h]

/-- Every pop takes the last term off, so many pops take off the end of the terms. -/
theorem terms_eq_append_popTimes (sequence : Sequence) (times : Nat) :
    sequence.terms =
        (sequence.popTimes times).2.terms ++ (sequence.popTimes times).1.reverse ∧
      (sequence.popTimes times).1.length = min times sequence.size := by
  induction times generalizing sequence with
  | zero => simp [popTimes]
  | succ times ih =>
      cases hpop : sequence.pop? with
      | none =>
          have hnil : sequence.terms = [] := by simpa [pop?] using hpop
          rw [popTimes_of_pop?_eq_none hpop]
          simp [size, hnil]
      | some popped =>
          obtain ⟨term, rest⟩ := popped
          have hterms := pop?_eq_some_iff.1 hpop
          obtain ⟨hsplit, hlength⟩ := ih rest
          rw [popTimes_of_pop?_eq_some hpop]
          constructor
          · rw [List.reverse_cons, ← List.append_assoc, ← hsplit, hterms]
          · rw [List.length_cons, hlength, size, size, hterms, List.length_append,
              List.length_singleton]
            omega

/-! What is left of a coherent sequence looks back only, and so not at what is gone. -/

variable {terms more : List Term}

theorem Coherent.id_le_length (h : (⟨terms⟩ : Sequence).Coherent) {term : Term}
    (hterm : term ∈ terms) : term.id.number ≤ terms.length := by
  obtain ⟨index, hindex⟩ := List.getElem?_of_mem hterm
  have hlt := (List.getElem?_eq_some_iff.1 hindex).1
  rw [(h index term hindex).numbered]
  omega

theorem Coherent.length_lt_id (h : (⟨terms ++ more⟩ : Sequence).Coherent) {term : Term}
    (hterm : term ∈ more) : terms.length < term.id.number := by
  obtain ⟨index, hindex⟩ := List.getElem?_of_mem hterm
  have hplace : (terms ++ more)[terms.length + index]? = some term := by
    rw [List.getElem?_append_right (Nat.le_add_right _ _), Nat.add_sub_cancel_left, hindex]
  rw [(h _ term hplace).numbered]
  omega

/-- A reference of a term that is left is lower than every id that is gone. -/
theorem Coherent.ne_id_of_refers (h : (⟨terms ++ more⟩ : Sequence).Coherent)
    {term gone : Term} (hterm : term ∈ terms) (hgone : gone ∈ more) {target : TermId}
    (htarget : (⟨terms⟩ : Sequence).Refers term.id target) : target ≠ gone.id := by
  rintro rfl
  have hlow := h.of_append.id_le_length hterm
  have hhigh := h.length_lt_id hgone
  have hlt := htarget.2.1
  omega

theorem Refers.resolve_append {id target : TermId} (hid : id.number ≤ terms.length + 1)
    (h : (⟨terms⟩ : Sequence).Refers id target) :
    (⟨terms ++ more⟩ : Sequence).resolve id target =
      (⟨terms⟩ : Sequence).resolve id target := by
  rw [resolve, resolve, get?_append_of_lt hid h.1 h.2.1]

/-- The fragment of a term does not depend on the terms after it. -/
theorem Admits.fragment_append {index : Nat} {term : Term} (hindex : index ≤ terms.length)
    (h : (⟨terms⟩ : Sequence).Admits index term) :
    (⟨terms ++ more⟩ : Sequence).fragment term = (⟨terms⟩ : Sequence).fragment term := by
  have hid : term.id.number ≤ terms.length + 1 := by
    rw [h.numbered]
    omega
  have hmatcher : (⟨terms ++ more⟩ : Sequence).matcher term.id term.body =
      (⟨terms⟩ : Sequence).matcher term.id term.body := by
    cases hbody : term.body with
    | primary form token => rfl
    | pair relation first second =>
        obtain ⟨-, -, hfirst, hsecond⟩ :=
          h.related relation first second hbody
        rw [matcher, matcher, hfirst.resolve_append hid, hsecond.resolve_append hid]
  rw [fragment, fragment, hmatcher]

theorem tagCount_le_tagCount_append (operator : Operator) :
    (⟨terms⟩ : Sequence).tagCount operator ≤ (⟨terms ++ more⟩ : Sequence).tagCount operator :=
  (List.sublist_append_left terms more).countP_le

end Sequence

/-- Undoing so many times pops so many times. -/
theorem Draft.run_replicate_undo (draft : Draft) (times : Nat) :
    draft.run (List.replicate times .undo) =
      { draft with sequence := (draft.sequence.popTimes times).2 } := by
  induction times generalizing draft with
  | zero => rfl
  | succ times ih =>
      have hrun : draft.run (List.replicate (times + 1) .undo) =
          (draft.apply .undo).1.run (List.replicate times .undo) := rfl
      rw [hrun, ih]
      cases hpop : draft.sequence.pop? with
      | none =>
          have happly : (draft.apply .undo).1 = draft := by simp [apply, undo, hpop, refuse]
          rw [happly, Sequence.popTimes_of_pop?_eq_none hpop,
            Sequence.popTimes_of_pop?_eq_none hpop]
      | some popped =>
          obtain ⟨term, rest⟩ := popped
          have happly : (draft.apply .undo).1 = { draft with sequence := rest } := by
            simp [apply, undo, hpop, revise]
          rw [happly, Sequence.popTimes_of_pop?_eq_some hpop]

namespace Sequence

/-- A sequence that has an expression has one after any number of pops, which remove
its newest terms.  No term that is left refers to a removed one, and each has the
fragment that it had.  A draft comes to the same sequence by undoing. -/
theorem synthesize_popTimes {sequence : Sequence} {expression : Text}
    (h : sequence.synthesize = .ok expression) (times : Nat) {removed : List Term}
    {rest : Sequence} (hpops : sequence.popTimes times = (removed, rest)) :
    (sequence.terms = rest.terms ++ removed.reverse ∧
        removed.length = min times sequence.size) ∧
      (∃ shorter, rest.synthesize = .ok shorter) ∧
      (∀ term ∈ rest.terms, ∀ relation first second, term.body = .pair relation first second →
        ∀ gone ∈ removed, first ≠ gone.id ∧ second ≠ gone.id) ∧
      (∀ term ∈ rest.terms, ∃ fragment, rest.fragment term = .ok fragment ∧
        sequence.fragment term = .ok fragment) ∧
      ∀ session limits, (⟨session, limits, sequence⟩ : Draft).run
        (List.replicate times .undo) = ⟨session, limits, rest⟩ := by
  obtain ⟨_, hvalidate, -⟩ := bind_eq_ok_iff.1 h
  obtain ⟨hcoherent, hcount⟩ := validate_eq_ok_iff.1 hvalidate
  have hsplit := sequence.terms_eq_append_popTimes times
  rw [hpops] at hsplit
  obtain ⟨terms⟩ := sequence
  obtain ⟨front⟩ := rest
  obtain ⟨rfl, hlength⟩ := hsplit
  have hfront := hcoherent.of_append
  refine ⟨⟨rfl, hlength⟩, ?_, ?_, ?_, ?_⟩
  · exact hfront.exists_synthesize_eq_ok (Nat.le_trans (tagCount_le_tagCount_append .or) hcount)
  · intro term hterm relation first second hbody gone hgone
    obtain ⟨index, hindex⟩ := List.getElem?_of_mem hterm
    obtain ⟨-, -, hfirst, hsecond⟩ :=
      (hfront index term hindex).related relation first second hbody
    have hmem := List.mem_reverse.2 hgone
    exact ⟨hcoherent.ne_id_of_refers hterm hmem hfirst,
      hcoherent.ne_id_of_refers hterm hmem hsecond⟩
  · intro term hterm
    obtain ⟨index, hindex⟩ := List.getElem?_of_mem hterm
    have hlt := (List.getElem?_eq_some_iff.1 hindex).1
    have hadmits := hfront index term hindex
    obtain ⟨fragment, hfragment⟩ := hadmits.exists_fragment_eq_ok
    exact ⟨fragment, hfragment, by rw [hadmits.fragment_append (Nat.le_of_lt hlt), hfragment]⟩
  · intro session limits
    rw [Draft.run_replicate_undo, hpops]

end Sequence

namespace PoppingWitness

/-- Two words, the second an alternative to the first, and a relation between them. -/
def rest : Sequence :=
  ((Sequence.empty.push .and (.primary .word (.ofText "wren".toList (by decide)))).push
    .or (.primary .word (.ofText "lark".toList (by decide)))).push
    .and (.pair .closelyPrecedes (.atPlace 2) (.atPlace 1))

/-- The same with one more alternative and a relation to it. -/
def sequence : Sequence :=
  (rest.push .or (.primary .template (.ofText "finch*".toList (by decide)))).push
    .and (.pair .precedes (.atPlace 4) (.atPlace 1))

def removed : List Term :=
  [⟨.atPlace 5, .and, .pair .precedes (.atPlace 4) (.atPlace 1)⟩,
    ⟨.atPlace 4, .or, .primary .template (.ofText "finch*".toList (by decide))⟩]

def expression : Text :=
  ("match_all( match_any( match_w(wren) match_w(lark) ) " ++
    "match_any( match_w(lark_wren) match_wm(finch*) ) match_w(finch* wren) )").toList

theorem synthesize_popTimes_two :
    sequence.synthesize = .ok expression ∧ sequence.popTimes 2 = (removed, rest) ∧
      (∃ shorter, rest.synthesize = .ok shorter) ∧
      (∀ term ∈ rest.terms, ∀ relation first second, term.body = .pair relation first second →
        ∀ gone ∈ removed, first ≠ gone.id ∧ second ≠ gone.id) ∧
      ∀ term ∈ rest.terms, ∃ fragment, rest.fragment term = .ok fragment ∧
        sequence.fragment term = .ok fragment := by
  have hexpression : sequence.synthesize = .ok expression := by decide +kernel
  have hpops : sequence.popTimes 2 = (removed, rest) := rfl
  obtain ⟨-, hshorter, hreferences, hfragments, -⟩ :=
    Sequence.synthesize_popTimes hexpression 2 hpops
  exact ⟨hexpression, hpops, hshorter, hreferences, hfragments⟩

end PoppingWitness

end GradingRule
