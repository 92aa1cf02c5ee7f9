/-
Grouping as a walk over the fragments.  A walk goes from fragment to fragment and uses a
span up when it starts at the place reached.  Whatever the spans are, it never misses a
fragment, it is over after as many steps as there are fragments and spans, and it makes
the segments that the grouping renders.
-/
import GradingRule.Proofs.Blocks

namespace GradingRule

variable {α : Type}

namespace Span

/-- The span without the places beyond the last of `size` places. -/
def clip (size : Nat) (span : Span) : Span :=
  ⟨span.first, min span.last (size - 1)⟩

/-- The elements at the places of the span. -/
def part (list : List α) (span : Span) : List α :=
  (list.drop span.first).take (span.last + 1 - span.first)

/-- The part, if every place of the span is one of the list. -/
def part? (list : List α) (span : Span) : Option (List α) :=
  if span.first ≤ span.last + 1 ∧ span.last < list.length then some (span.part list)
  else none

end Span

/-- A walk part way: the place it has come to, the spans it has not used and the segments
it has made. -/
structure Walk where
  place : Nat
  spans : List Span
  segments : List Segment
deriving DecidableEq, Repr

namespace Walk

def start (spans : List Span) : Walk :=
  ⟨0, spans, []⟩

/-- The next span and the spans after it, if it starts here. -/
def opening? (walk : Walk) : Option (Span × List Span) :=
  match walk.spans with
  | [] => none
  | span :: spans => if span.first = walk.place then some (span, spans) else none

/-- Makes one segment; `none` if a fragment that it needs is not there. -/
def step? (fragments : List Text) (walk : Walk) : Option Walk :=
  match walk.opening? with
  | some (span, spans) =>
      let clipped := span.clip fragments.length
      (clipped.part? fragments).map fun part =>
        ⟨clipped.last + 1, spans, walk.segments ++ [.any part]⟩
  | none =>
      fragments[walk.place]?.map fun fragment =>
        ⟨walk.place + 1, walk.spans, walk.segments ++ [.bare fragment]⟩

/-- Walks to the end of the fragments; `none` if a step fails or the steps do not
suffice. -/
def run? (fragments : List Text) : Nat → Walk → Option Walk
  | 0, walk => if walk.place < fragments.length then none else some walk
  | steps + 1, walk =>
      if walk.place < fragments.length then
        (walk.step? fragments).bind (run? fragments steps)
      else some walk

end Walk

/-- The number of fragments in the segments. -/
def coverage (segments : List Segment) : Nat :=
  (segments.flatMap Segment.fragments).length

/-- The places at which the disjunctions among the segments start, with their fragments,
if the first segment starts at `place`. -/
def disjunctions (place : Nat) : List Segment → List (Nat × List Text)
  | [] => []
  | .bare _ :: rest => disjunctions (place + 1) rest
  | .any fragments :: rest => (place, fragments) :: disjunctions (place + fragments.length) rest

theorem disjunctions_append (place : Nat) (front back : List Segment) :
    disjunctions place (front ++ back) =
      disjunctions place front ++ disjunctions (place + coverage front) back := by
  induction front generalizing place with
  | nil => rfl
  | cons segment front ih =>
      cases segment with
      | bare fragment =>
          rw [List.cons_append, disjunctions, disjunctions, ih]
          simp [coverage, Segment.fragments, Nat.add_assoc, Nat.add_comm 1]
      | any fragments =>
          rw [List.cons_append, disjunctions, disjunctions, ih]
          simp [coverage, Segment.fragments, Nat.add_assoc]

/-- No bare fragment stands where the first span that was not used in front of it
starts. -/
def BareApart (spans : List Span) (segments : List Segment) : Prop :=
  ∀ front fragment back, segments = front ++ .bare fragment :: back →
    ∀ span ∈ (spans.drop (disjunctions 0 front).length).head?, span.first ≠ coverage front

theorem BareApart.append_singleton {spans : List Span} {segments : List Segment}
    (h : BareApart spans segments) (segment : Segment)
    (hlast : ∀ fragment, segment = .bare fragment →
      ∀ span ∈ (spans.drop (disjunctions 0 segments).length).head?,
        span.first ≠ coverage segments) :
    BareApart spans (segments ++ [segment]) := by
  intro front fragment back heq
  rcases List.eq_nil_or_concat back with rfl | ⟨back, last, rfl⟩
  · obtain ⟨rfl, hsegment⟩ := List.append_inj' heq rfl
    exact hlast fragment (List.cons.inj hsegment).1
  · rw [List.concat_eq_append, ← List.cons_append, ← List.append_assoc] at heq
    exact h front fragment back (List.append_inj' heq rfl).1

@[simp] theorem segments_nil (start : Nat) (spans : List Span) : segments start spans [] = [] := by
  cases spans with
  | nil => rfl
  | cons span spans => simp [segments]

theorem segments_cons_of_first_eq {start : Nat} {span : Span} (h : span.first = start)
    (spans : List Span) {fragments : List Text} (hne : fragments ≠ []) :
    segments start (span :: spans) fragments =
      .any (fragments.take (span.last + 1 - start)) ::
        segments (span.last + 1) spans (fragments.drop (span.last + 1 - start)) := by
  obtain ⟨fragment, rest, rfl⟩ := List.exists_cons_of_ne_nil hne
  rw [segments, if_neg (by omega), h, Nat.sub_self]
  rfl

namespace Walk

/-- What a walk keeps: the segments made hold the fragments up to the place reached, every
disjunction is the part of a span, the spans used come first, and the other segments are
those of the grouping from here on. -/
structure Follows (spans : List Span) (fragments : List Text) (walk : Walk) : Prop where
  place_le : walk.place ≤ fragments.length
  covered : walk.segments.flatMap Segment.fragments = fragments.take walk.place
  used : ∃ used, spans = used ++ walk.spans ∧
    disjunctions 0 walk.segments =
      used.map fun span => (span.first, (span.clip fragments.length).part fragments)
  apart : BareApart spans walk.segments
  onward : walk.segments ++ GradingRule.segments walk.place walk.spans
      (fragments.drop walk.place) = GradingRule.segments 0 spans fragments

/-- The steps that can still be taken. -/
def remaining (fragments : List Text) (walk : Walk) : Nat :=
  fragments.length - walk.place + walk.spans.length

theorem follows_start (spans : List Span) (fragments : List Text) :
    (start spans).Follows spans fragments where
  place_le := Nat.zero_le _
  covered := rfl
  used := ⟨[], rfl, rfl⟩
  apart := fun front fragment back h => absurd h (by simp [start])
  onward := rfl

theorem Follows.coverage_eq {spans : List Span} {fragments : List Text} {walk : Walk}
    (h : walk.Follows spans fragments) : coverage walk.segments = walk.place := by
  rw [coverage, h.covered, List.length_take, Nat.min_eq_left h.place_le]

theorem eq_cons_of_opening? {walk : Walk} {span : Span} {spans : List Span}
    (h : walk.opening? = some (span, spans)) :
    walk.spans = span :: spans ∧ span.first = walk.place := by
  rw [opening?] at h
  split at h
  · exact absurd h (by simp)
  · next next others heq =>
      split_ifs at h with hfirst
      obtain ⟨rfl, rfl⟩ := Prod.mk.inj (Option.some.inj h)
      exact ⟨heq, hfirst⟩

theorem first_ne_of_opening?_eq_none {walk : Walk} (h : walk.opening? = none) :
    ∀ span ∈ walk.spans.head?, span.first ≠ walk.place := by
  rw [opening?] at h
  split at h
  · next heq => simp [heq]
  · next span spans heq =>
      split_ifs at h with hfirst
      simpa [heq] using hfirst

/-- Past the end of the fragments it makes no difference where a span ends. -/
theorem segments_eq_any_clip_cons {place : Nat} {span : Span} (hfirst : span.first = place)
    (hspan : span.first ≤ span.last + 1) (spans : List Span) {fragments : List Text}
    (hplace : place < fragments.length) :
    GradingRule.segments place (span :: spans) (fragments.drop place) =
      .any ((span.clip fragments.length).part fragments) ::
        GradingRule.segments ((span.clip fragments.length).last + 1) spans
          (fragments.drop ((span.clip fragments.length).last + 1)) := by
  have hne : fragments.drop place ≠ [] := by simpa using hplace
  rw [segments_cons_of_first_eq hfirst spans hne, List.drop_drop]
  by_cases hlast : span.last < fragments.length
  · have hclip : span.clip fragments.length = span := by
      rw [Span.clip, Nat.min_eq_left (by omega)]
    have hrest : place + (span.last + 1 - place) = span.last + 1 := by omega
    rw [hclip, Span.part, hfirst, hrest]
  · have hclip : span.clip fragments.length = ⟨place, fragments.length - 1⟩ := by
      rw [Span.clip, hfirst, Nat.min_eq_right (by omega)]
    have hrest : fragments.length ≤ place + (span.last + 1 - place) := by omega
    have hend : fragments.length - 1 + 1 = fragments.length := by omega
    have hlong : (fragments.drop place).length ≤ span.last + 1 - place := by
      rw [List.length_drop]
      omega
    rw [hclip, Span.part, hend, List.drop_length, List.drop_of_length_le hrest, segments_nil,
      segments_nil, List.take_of_length_le hlong, List.take_of_length_le]
    rw [List.length_drop]

theorem Follows.open_span {spans rest : List Span} {fragments : List Text} {walk : Walk}
    {span : Span} (h : walk.Follows spans fragments)
    (hopening : walk.opening? = some (span, rest)) (hspan : span.first ≤ span.last + 1)
    (hplace : walk.place < fragments.length) :
    (span.clip fragments.length).part? fragments =
        some ((span.clip fragments.length).part fragments) ∧
      Follows spans fragments ⟨(span.clip fragments.length).last + 1, rest,
        walk.segments ++ [.any ((span.clip fragments.length).part fragments)]⟩ := by
  obtain ⟨hcons, hfirst⟩ := eq_cons_of_opening? hopening
  have hlast : (span.clip fragments.length).last < fragments.length ∧
      walk.place ≤ (span.clip fragments.length).last + 1 := by
    simp only [Span.clip]
    omega
  have hstart : (span.clip fragments.length).first = walk.place := hfirst
  refine ⟨if_pos ⟨hstart ▸ hlast.2, hlast.1⟩, ⟨hlast.1, ?_, ?_, ?_, ?_⟩⟩
  · rw [List.flatMap_append, h.covered, List.flatMap_singleton, Segment.fragments, Span.part,
      hstart, ← List.take_add, Nat.add_sub_cancel' hlast.2]
  · obtain ⟨used, hused, hdisjunctions⟩ := h.used
    refine ⟨used ++ [span], by simp [hused, hcons], ?_⟩
    rw [disjunctions_append, hdisjunctions, Nat.zero_add, h.coverage_eq, ← hfirst]
    simp [disjunctions]
  · exact h.apart.append_singleton _ fun fragment hfragment => absurd hfragment (by simp)
  · rw [List.append_assoc, List.singleton_append,
      ← segments_eq_any_clip_cons hfirst hspan rest hplace, ← hcons, h.onward]

theorem Follows.pass_fragment {spans : List Span} {fragments : List Text} {walk : Walk}
    (h : walk.Follows spans fragments) (hopening : walk.opening? = none)
    (hplace : walk.place < fragments.length) :
    Follows spans fragments ⟨walk.place + 1, walk.spans,
      walk.segments ++ [.bare fragments[walk.place]]⟩ := by
  have hapart := first_ne_of_opening?_eq_none hopening
  obtain ⟨used, hused, hdisjunctions⟩ := h.used
  refine ⟨hplace, ?_, ⟨used, hused, ?_⟩, ?_, ?_⟩
  · rw [List.flatMap_append, h.covered, List.flatMap_singleton, Segment.fragments,
      List.take_succ_eq_append_getElem hplace]
  · rw [disjunctions_append, hdisjunctions]
    exact List.append_nil _
  · refine h.apart.append_singleton _ fun fragment _ => ?_
    have hunused : spans.drop (disjunctions 0 walk.segments).length = walk.spans := by
      rw [hdisjunctions, List.length_map, hused, List.drop_left]
    rw [hunused, h.coverage_eq]
    exact hapart
  · rw [List.append_assoc, List.singleton_append, ← segments_cons_of_head?_ne hapart,
      ← List.drop_eq_getElem_cons hplace, h.onward]

/-- Every step succeeds, and there is one step less to take after it. -/
theorem Follows.exists_step {spans : List Span} {fragments : List Text} {walk : Walk}
    (h : walk.Follows spans fragments) (hspans : ∀ span ∈ spans, span.first ≤ span.last + 1)
    (hplace : walk.place < fragments.length) :
    ∃ next, walk.step? fragments = some next ∧ next.Follows spans fragments ∧
      next.remaining fragments < walk.remaining fragments := by
  rw [step?]
  cases hopening : walk.opening? with
  | none =>
      refine ⟨_, by simp [hplace], h.pass_fragment hopening hplace, ?_⟩
      simp only [remaining]
      omega
  | some opening =>
      obtain ⟨span, rest⟩ := opening
      obtain ⟨hcons, hfirst⟩ := eq_cons_of_opening? hopening
      obtain ⟨used, hused, -⟩ := h.used
      obtain ⟨hpart, hnext⟩ :=
        h.open_span hopening (hspans span (by simp [hused, hcons])) hplace
      refine ⟨_, by simp only [hpart]; rfl, hnext, ?_⟩
      have hspan := hspans span (by simp [hused, hcons])
      simp only [remaining, hcons, List.length_cons, Span.clip]
      omega

/-- With a step for every fragment and every span that is left, a walk comes to the
end. -/
theorem Follows.exists_run {spans : List Span} {fragments : List Text} {walk : Walk}
    (h : walk.Follows spans fragments) (hspans : ∀ span ∈ spans, span.first ≤ span.last + 1)
    {steps : Nat} (hsteps : walk.remaining fragments ≤ steps) :
    ∃ last, walk.run? fragments steps = some last ∧ last.Follows spans fragments ∧
      last.place = fragments.length := by
  induction steps generalizing walk with
  | zero =>
      have hplace : ¬walk.place < fragments.length := by
        rw [remaining] at hsteps
        omega
      exact ⟨walk, if_neg hplace, h, Nat.le_antisymm h.place_le (Nat.le_of_not_lt hplace)⟩
  | succ steps ih =>
      rw [run?]
      split_ifs with hplace
      · obtain ⟨next, hnext, hfollows, hless⟩ := h.exists_step hspans hplace
        obtain ⟨last, hlast⟩ := ih hfollows (by omega)
        exact ⟨last, by rw [hnext, Option.bind_some, hlast.1], hlast.2⟩
      · exact ⟨walk, rfl, h, Nat.le_antisymm h.place_le (Nat.le_of_not_lt hplace)⟩

end Walk

namespace Shape

/-- Grouping loses, repeats and moves no fragment, whatever the spans are.  The walk over
the fragments never looks beyond them and is over in time.  Its segments are what is
written: their fragments are all the fragments, the disjunctions are the first of the
spans in their order, from where each starts up to the last fragment at most, and a
fragment stays bare only where the next unused span does not start. -/
theorem render_grouped_conserves {spans : List Span}
    (hspans : ∀ span ∈ spans, span.first ≤ span.last + 1) (fragments : List Text) :
    ∃ walk, (Walk.start spans).run? fragments (fragments.length + spans.length) = some walk ∧
      (grouped spans).render fragments =
        Expression.listing "match_all(" (walk.segments.map Segment.written) ∧
      walk.segments.flatMap Segment.fragments = fragments ∧
      (∃ used, spans = used ++ walk.spans ∧
        disjunctions 0 walk.segments =
          used.map fun span => (span.first, (span.clip fragments.length).part fragments)) ∧
      BareApart spans walk.segments := by
  obtain ⟨walk, hrun, hfollows, hplace⟩ :=
    (Walk.follows_start spans fragments).exists_run hspans (Nat.le_refl _)
  have honward := hfollows.onward
  rw [hplace, List.drop_length, segments_nil, List.append_nil] at honward
  refine ⟨walk, hrun, ?_, ?_, hfollows.used, hfollows.apart⟩
  · rw [render, honward, Segment.written_eq_text, Expression.listing_matchAll]
  · rw [hfollows.covered, hplace, List.take_length]

end Shape

namespace WalkingWitness

def fragments : List Text :=
  ["a".toList, "b".toList, "c".toList, "d".toList, "e".toList]

/-- An empty span, one that starts at the same place, one that reaches beyond the end and
one that comes too late. -/
def spans : List Span :=
  [⟨1, 0⟩, ⟨1, 2⟩, ⟨4, 9⟩, ⟨0, 1⟩]

/-- The last span is left over. -/
def walk : Walk :=
  ⟨5, [⟨0, 1⟩], [.bare "a".toList, .any [], .any ["b".toList, "c".toList], .bare "d".toList,
    .any ["e".toList]]⟩

theorem render_grouped_conserves_unordered :
    (∀ span ∈ spans, span.first ≤ span.last + 1) ∧
      (Shape.grouped spans).render fragments =
        "match_all( a match_any( ) match_any( b c ) d match_any( e ) )".toList ∧
      (Walk.start spans).run? fragments 9 = some walk ∧
      ∃ walk, (Walk.start spans).run? fragments (fragments.length + spans.length) = some walk ∧
        (Shape.grouped spans).render fragments =
          Expression.listing "match_all(" (walk.segments.map Segment.written) ∧
        walk.segments.flatMap Segment.fragments = fragments ∧
        (∃ used, spans = used ++ walk.spans ∧
          disjunctions 0 walk.segments =
            used.map fun span => (span.first, (span.clip fragments.length).part fragments)) ∧
        BareApart spans walk.segments := by
  have hspans : ∀ span ∈ spans, span.first ≤ span.last + 1 := by decide
  exact ⟨hspans, by decide +kernel, by decide, Shape.render_grouped_conserves hspans fragments⟩

end WalkingWitness

end GradingRule
