/-
The nesting of an expression.  The shapes are chosen by number and place of the
disjunction points, but what they render is always the same: the fragments cut
into blocks, one more level deep if there are several.
-/
import GradingRule.Expression.Synthesis
import GradingRule.Proofs.Blocks
import GradingRule.Proofs.Coherent
import GradingRule.Proofs.Tokens

namespace GradingRule

variable {α : Type}

/-- The expression of some blocks of fragments.  One block is the expression by
itself; several are listed as a conjunction. -/
def Expression.nest : List (List Text) → Text
  | [] => []
  | [block] => (Segment.ofBlock block).written
  | blocks => listing "match_all(" (blocks.map fun block => (Segment.ofBlock block).written)

/-- The fragments of the terms in blocks: a term tagged with or joins the term
before it. -/
def Sequence.blocks (sequence : Sequence) (fragments : List Text) : List (List Text) :=
  (GradingRule.blocks (fun (term, _) => term.operator = .or) (sequence.terms.zip fragments)).map
    (List.map Prod.snd)

theorem Expression.nest_of_two_le_length {blocks : List (List Text)}
    (h : 2 ≤ blocks.length) :
    nest blocks =
      wrap matchAll ((blocks.map Segment.ofBlock).map Segment.text) := by
  rcases blocks with _ | ⟨first, _ | ⟨second, rest⟩⟩
  · simp at h
  · simp at h
  · simp [nest, Function.comp_def]

theorem misplacedPoint?_markedPlaces (marked : α → Bool) {size floor place : Nat}
    {list : List α} (hfloor : floor ≤ place) (hsize : place + list.length ≤ size) :
    misplacedPoint? size floor (markedPlaces marked place list) = none := by
  induction list generalizing floor place with
  | nil => rfl
  | cons a rest ih =>
      rw [List.length_cons] at hsize
      rw [markedPlaces]
      split_ifs with ha
      · rw [misplacedPoint?, if_neg (by omega)]
        exact ih (Nat.le_refl _) (by omega)
      · exact ih (by omega) (by omega)

/-- The points of a list are ascending places after the first. -/
theorem misplacedPoint?_joinPoints (joins : α → Bool) (list : List α) :
    misplacedPoint? list.length 1 (joinPoints joins 0 list) = none := by
  cases list with
  | nil => rfl
  | cons first rest =>
      apply misplacedPoint?_markedPlaces joins (Nat.le_refl 1)
      rw [List.length_cons, Nat.add_comm]

/-- Ascending places are the places of some marks. -/
theorem exists_markedPlaces_eq {size place : Nat} {points : List Nat} {list : List α}
    (hsize : place + list.length = size) (h : misplacedPoint? size place points = none) :
    ∃ items : List (Bool × α), items.map Prod.snd = list ∧
      markedPlaces Prod.fst place items = points := by
  induction list generalizing place points with
  | nil =>
      cases points with
      | nil => exact ⟨[], rfl, rfl⟩
      | cons point rest =>
          rw [List.length_nil] at hsize
          rw [misplacedPoint?, if_pos (by omega)] at h
          exact absurd h (by simp)
  | cons a list ih =>
      rw [List.length_cons] at hsize
      have hnext : place + 1 + list.length = size := by omega
      cases points with
      | nil =>
          have hrest : misplacedPoint? size (place + 1) [] = none := rfl
          obtain ⟨items, hitems, hplaces⟩ := ih hnext hrest
          exact ⟨(false, a) :: items, by simp [hitems], by simpa [markedPlaces] using hplaces⟩
      | cons point rest =>
          have hpoint : ¬(point < place ∨ size ≤ point) := by
            intro hbad
            simp [misplacedPoint?, hbad] at h
          rw [misplacedPoint?, if_neg hpoint] at h
          rcases Nat.eq_or_lt_of_le (Nat.le_of_not_lt fun hlt => hpoint (.inl hlt)) with
            rfl | hlater
          · obtain ⟨items, hitems, hplaces⟩ := ih hnext h
            exact ⟨(true, a) :: items, by simp [hitems], by simp [markedPlaces, hplaces]⟩
          · have hrest : misplacedPoint? size (place + 1) (point :: rest) = none := by
              rw [misplacedPoint?, if_neg (by omega), h]
            obtain ⟨items, hitems, hplaces⟩ := ih hnext hrest
            exact ⟨(false, a) :: items, by simp [hitems],
              by simpa [markedPlaces] using hplaces⟩

/-- Points that are no misplaced ones are the points of the list under some marks. -/
theorem exists_joinPoints_eq {points : List Nat} {list : List α}
    (h : misplacedPoint? list.length 1 points = none) :
    ∃ items : List (Bool × α), items.map Prod.snd = list ∧
      joinPoints Prod.fst 0 items = points := by
  cases list with
  | nil =>
      cases points with
      | nil => exact ⟨[], rfl, rfl⟩
      | cons point rest => simp [misplacedPoint?] at h
  | cons a list =>
      have hsize : 1 + list.length = (a :: list).length := Nat.add_comm 1 list.length
      obtain ⟨items, hitems, hplaces⟩ := exists_markedPlaces_eq hsize h
      exact ⟨(false, a) :: items, by simp [hitems], hplaces⟩

namespace Shape

/-- A conjunction of bare fragments is the grouping without a group. -/
theorem render_all_eq_render_grouped_nil (fragments : List Text) :
    all.render fragments = (grouped []).render fragments := by
  simp [render, segments, Segment.text, Function.comp_def]

/-- Grouping along the spans of the points nests the blocks, if there are several. -/
theorem render_grouped_spansOfPoints (joins : α → Bool) (text : α → Text) {list : List α}
    (h : 2 ≤ (blocks joins list).length) :
    (grouped (spansOfPoints (joinPoints joins 0 list))).render (list.map text) =
      Expression.nest ((blocks joins list).map (List.map text)) := by
  rw [Expression.nest_of_two_le_length (by simpa using h), render, spansOfPoints_joinPoints,
    ← blockSpans_map text, ← flatten_map_blocks joins text list,
    segments_blockSpans 0 fun _ hblock => ne_nil_of_mem_map_blocks hblock]

/-- Whatever shape the points of a list select, it renders the blocks of the list. -/
theorem exists_render_eq_nest (joins : α → Bool) (text : α → Text) {list : List α}
    (h : (joinPoints joins 0 list).length ≤ maxDisjunctions) :
    ∃ shape, ofPoints list.length (joinPoints joins 0 list) = .ok shape ∧
      shape.render (list.map text) =
        Expression.nest ((blocks joins list).map (List.map text)) := by
  have hcount := length_blocks_add_length_joinPoints joins 0 list
  rw [ofPoints, misplacedPoint?_joinPoints]
  dsimp only
  by_cases hzero : list.length = 0
  · rw [if_pos hzero]
    obtain rfl := List.length_eq_zero_iff.1 hzero
    exact ⟨.empty, rfl, rfl⟩
  · rw [if_neg hzero]
    by_cases hone : list.length = 1
    · rw [if_pos hone]
      obtain ⟨a, rfl⟩ := List.length_eq_one_iff.1 hone
      exact ⟨.single, rfl, rfl⟩
    · rw [if_neg hone]
      by_cases hnil : joinPoints joins 0 list = []
      · -- Without a point every block is a bare fragment.
        rw [if_pos hnil]
        refine ⟨.all, rfl, ?_⟩
        rw [hnil, List.length_nil] at hcount
        rw [← render_grouped_spansOfPoints joins text (by omega), hnil]
        exact render_all_eq_render_grouped_nil _
      · rw [if_neg hnil, if_neg (Nat.not_lt.2 h)]
        by_cases hall : (joinPoints joins 0 list).length = list.length - 1
        · -- All elements but the first are points, so there is one block.
          rw [if_pos hall]
          refine ⟨.any, rfl, ?_⟩
          have hblock : (blocks joins list).length = 1 := by omega
          rw [blocks_eq_singleton hblock]
          rcases list with _ | ⟨first, _ | ⟨second, rest⟩⟩
          · exact absurd rfl hzero
          · exact absurd rfl hone
          · rfl
        · rw [if_neg hall]
          have hne : 0 < (blocks joins list).length := by
            rw [List.length_pos_iff, blocks, List.splitBy_ne_nil]
            exact fun hlist => hzero (by rw [hlist, List.length_nil])
          exact ⟨_, rfl, render_grouped_spansOfPoints joins text (by omega)⟩

/-- Few enough points cut the fragments into blocks, which the shape nests; the
points are the places that do not open a block. -/
theorem exists_blocks_of_points {fragments : List Text} {points : List Nat}
    (hplaced : misplacedPoint? fragments.length 1 points = none)
    (hfew : points.length ≤ maxDisjunctions) :
    ∃ shape cut, ofPoints fragments.length points = .ok shape ∧
      shape.render fragments = Expression.nest cut ∧ cut.flatten = fragments ∧
      blockPoints 0 cut = points := by
  obtain ⟨items, rfl, rfl⟩ := exists_joinPoints_eq hplaced
  obtain ⟨shape, hshape, hrender⟩ := exists_render_eq_nest Prod.fst Prod.snd hfew
  refine ⟨shape, _, ?_, hrender, flatten_map_blocks _ _ _, ?_⟩
  · rw [List.length_map, hshape]
  · rw [blockPoints_map, ← joinPoints_eq_blockPoints]

end Shape

namespace Sequence

theorem disjunctionPoints_eq_joinPoints (sequence : Sequence) :
    sequence.disjunctionPoints = joinPoints Term.isOr 0 sequence.terms := by
  unfold disjunctionPoints
  cases sequence.terms with
  | nil => rfl
  | cons first rest =>
      rw [joinPoints, markedPlaces_eq_filter_zipIdx]
      rfl

/-- A leading or counts as a tag but makes no point. -/
theorem length_disjunctionPoints_le_tagCount (sequence : Sequence) :
    sequence.disjunctionPoints.length ≤ sequence.tagCount .or := by
  rw [disjunctionPoints_eq_joinPoints, ← orCount_eq_tagCount, orCount]
  cases sequence.terms with
  | nil => exact Nat.le_refl 0
  | cons first rest =>
      rw [joinPoints, length_markedPlaces]
      exact (List.sublist_cons_self first rest).countP_le

/-- A valid sequence has the expression that its blocks of fragments nest to,
and the blocks hold every fragment once and in order. -/
theorem synthesize_eq_nest_blocks (sequence : Sequence) (h : sequence.validate = .ok ()) :
    ∃ fragments, sequence.fragments = .ok fragments ∧ fragments.length = sequence.size ∧
      sequence.synthesize = .ok (Expression.nest (sequence.blocks fragments)) ∧
      (sequence.blocks fragments).flatten = fragments := by
  obtain ⟨hcoherent, hcount⟩ := validate_eq_ok_iff.1 h
  obtain ⟨fragments, hfragments⟩ := hcoherent.exists_fragments_eq_ok
  have hsize := length_fragments hfragments
  let items := sequence.terms.zip fragments
  have hterms : items.map Prod.fst = sequence.terms :=
    List.map_fst_zip (Nat.le_of_eq hsize.symm)
  have htexts : items.map Prod.snd = fragments := List.map_snd_zip (Nat.le_of_eq hsize)
  have hpoints : sequence.disjunctionPoints =
      joinPoints (fun (term, _) => term.operator = .or) 0 items := by
    rw [disjunctionPoints_eq_joinPoints, ← hterms, joinPoints_map]
    rfl
  have hlength : items.length = fragments.length := by
    rw [← htexts, List.length_map]
  have hfew : (joinPoints (fun (term, _) => term.operator = .or) 0 items).length ≤
      maxDisjunctions := by
    rw [← hpoints]
    exact Nat.le_trans sequence.length_disjunctionPoints_le_tagCount hcount
  obtain ⟨shape, hshape, hrender⟩ := Shape.exists_render_eq_nest _ Prod.snd hfew
  rw [hlength] at hshape
  rw [htexts] at hrender
  have hrun : sequence.synthesize = .ok (shape.render fragments) := by
    simp only [synthesize, h, hfragments, hpoints, bind, Except.bind, hshape]
    rfl
  refine ⟨fragments, hfragments, hsize, by rw [hrun, hrender]; rfl, ?_⟩
  rw [blocks, ← List.map_flatten, GradingRule.blocks, List.flatten_splitBy]
  exact htexts

end Sequence

namespace NestingWitness

/-- A leading or, a block of two and a relation. -/
def sequence : Sequence :=
  ((((Sequence.empty.push .or (.primary .word (.ofText "tom".toList (by decide)))).push
    .not (.primary .word (.ofText "cat".toList (by decide)))).push
    .or (.primary .template (.ofText "dog*".toList (by decide)))).push
    .and (.pair .closelyPrecedes (.atPlace 1) (.atPlace 3)))

def expression : Text :=
  ("match_all( match_w(tom) match_any( not(match_w(cat)) match_wm(dog*) ) " ++
    "match_w(tom_dog*) )").toList

theorem synthesize_eq_nest_blocks_leading_or :
    sequence.validate = .ok () ∧ sequence.synthesize = .ok expression ∧
      ∃ fragments, sequence.fragments = .ok fragments ∧ fragments.length = sequence.size ∧
        sequence.synthesize = .ok (Expression.nest (sequence.blocks fragments)) ∧
        (sequence.blocks fragments).flatten = fragments :=
  ⟨rfl, by decide +kernel, sequence.synthesize_eq_nest_blocks rfl⟩

end NestingWitness

end GradingRule
