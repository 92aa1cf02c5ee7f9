/-
How fragments are nested.  The disjunction points of a sequence select a shape,
and the shape spreads the fragments over one conjunction of bare fragments and
disjunctions.
-/
import GradingRule.Expression.Fragment

namespace GradingRule

/-- A run of places counted from 0, both ends included.  A span that ends just
before it starts is empty. -/
structure Span where
  first : Nat
  last : Nat
deriving DecidableEq, Repr

inductive Shape where
  | empty
  | single
  | all
  | any
  | grouped (spans : List Span)
deriving DecidableEq, Repr

/-- A part of a conjunction. -/
inductive Segment where
  | bare (fragment : Text)
  | any (fragments : List Text)
deriving DecidableEq, Repr

namespace Segment

def fragments : Segment → List Text
  | .bare fragment => [fragment]
  | .any fragments => fragments

def text : Segment → Text
  | .bare fragment => fragment
  | .any fragments => Expression.wrap Expression.matchAny fragments

end Segment

/-- The first point that is below `floor`, not above its predecessor, or not
below `size`. -/
def misplacedPoint? (size : Nat) : Nat → List Nat → Option Nat
  | _, [] => none
  | floor, point :: rest =>
      if point < floor ∨ size ≤ point then some point
      else misplacedPoint? size (point + 1) rest

/-- The spans of a list of ascending points: each run of adjacent points, and
the place just before the run. -/
def spansOfPoints : List Nat → List Span
  | [] => []
  | point :: rest =>
      match spansOfPoints rest with
      | [] => [⟨point - 1, point⟩]
      | span :: spans =>
          if span.first = point then ⟨point - 1, span.last⟩ :: spans
          else ⟨point - 1, point⟩ :: span :: spans

/-- The fragments from `start` on, cut along the spans.  Only the next unused
span can open a disjunction, and only at the place where it starts; one that
starts before `start` is never used, nor is any span after it. -/
def segments (start : Nat) : List Span → List Text → List Segment
  | [], fragments => fragments.map .bare
  | span :: spans, fragments =>
      if span.first < start then fragments.map .bare
      else
        let lead := fragments.take (span.first - start)
        match fragments.drop (span.first - start) with
        | [] => lead.map .bare
        | rest@(_ :: _) =>
            let length := span.last + 1 - span.first
            lead.map .bare ++ .any (rest.take length) ::
              segments (span.last + 1) spans (rest.drop length)

namespace Shape

/-- The shape of `size` fragments with the given disjunction points. -/
def ofPoints (size : Nat) (points : List Nat) : Except SequenceFault Shape :=
  match misplacedPoint? size 1 points with
  | some point => .error (.disjunctionPoint point size)
  | none =>
      if size = 0 then .ok .empty
      else if size = 1 then .ok .single
      else if points = [] then .ok .all
      else if maxDisjunctions < points.length then
        .error (.tooManyDisjunctions points.length maxDisjunctions)
      else if points.length = size - 1 then .ok .any
      else .ok (.grouped (spansOfPoints points))

def render (fragments : List Text) : Shape → Text
  | .empty => []
  | .single => fragments.headD []
  | .all => Expression.wrap Expression.matchAll fragments
  | .any => Expression.wrap Expression.matchAny fragments
  | .grouped spans =>
      Expression.wrap Expression.matchAll ((segments 0 spans fragments).map Segment.text)

end Shape

/-- Cutting loses, repeats and moves no fragment, whatever the spans are. -/
theorem flatMap_fragments_segments (start : Nat) (spans : List Span)
    (fragments : List Text) :
    (segments start spans fragments).flatMap Segment.fragments = fragments := by
  have hbare : ∀ list : List Text,
      (list.map Segment.bare).flatMap Segment.fragments = list := by
    intro list
    induction list with
    | nil => rfl
    | cons head tail ih => simp [Segment.fragments, ih]
  induction spans generalizing start fragments with
  | nil => exact hbare fragments
  | cons span spans ih =>
      unfold segments
      split
      · exact hbare fragments
      · have hsplit := List.take_append_drop (span.first - start) fragments
        dsimp only
        split
        · next hdrop => rw [hbare]; simpa [hdrop] using hsplit
        · next head tail hdrop =>
            rw [List.flatMap_append, hbare, List.flatMap_cons, ih, Segment.fragments,
              List.take_append_drop, ← hdrop, hsplit]

end GradingRule
