/-
Lists cut into blocks: every element but the first either joins the element
before it or opens a block.  The places of the elements that join are the
points of the list, and the spans of the points are the blocks of at least two
elements, so cutting along the spans gives back the blocks.  How the blocks of
fragments look in an expression is spelled out at the end.
-/
import GradingRule.Expression.Grouping
import Mathlib.Data.List.SplitBy
import Mathlib.Data.List.TakeWhile

namespace GradingRule

variable {α : Type}

/-- Cuts a list before every element but those that join the one before. -/
def blocks (joins : α → Bool) (list : List α) : List (List α) :=
  list.splitBy fun _ next => joins next

/-- The places of the marked elements, if the first element is at `place`. -/
def markedPlaces (marked : α → Bool) (place : Nat) : List α → List Nat
  | [] => []
  | a :: rest =>
      if marked a then place :: markedPlaces marked (place + 1) rest
      else markedPlaces marked (place + 1) rest

/-- The places of the elements that join the one before, if the first element is
at `start`.  The first element has nothing to join. -/
def joinPoints (joins : α → Bool) (start : Nat) : List α → List Nat
  | [] => []
  | _ :: rest => markedPlaces joins (start + 1) rest

/-- The spans of the blocks of at least two elements, if the first block starts
at `start`. -/
def blockSpans (start : Nat) : List (List α) → List Span
  | [] => []
  | block :: rest =>
      if block.length < 2 then blockSpans (start + block.length) rest
      else ⟨start, start + block.length - 1⟩ :: blockSpans (start + block.length) rest

/-- The places of the elements that are not the first of their block, if the first
block starts at `start`. -/
def blockPoints (start : Nat) : List (List α) → List Nat
  | [] => []
  | block :: rest =>
      List.range' (start + 1) (block.length - 1) ++ blockPoints (start + block.length) rest

theorem markedPlaces_eq_filter_zipIdx (marked : α → Bool) (place : Nat) (list : List α) :
    markedPlaces marked place list =
      ((list.zipIdx place).filter fun (a, _) => marked a).map Prod.snd := by
  induction list generalizing place with
  | nil => rfl
  | cons a rest ih =>
      rw [List.zipIdx_cons, markedPlaces, ih]
      by_cases ha : marked a = true
      · simp [ha]
      · simp [ha]

theorem length_markedPlaces (marked : α → Bool) (place : Nat) (list : List α) :
    (markedPlaces marked place list).length = list.countP marked := by
  induction list generalizing place with
  | nil => rfl
  | cons a rest ih =>
      rw [markedPlaces]
      by_cases ha : marked a = true
      · simp [ha, ih]
      · simp [ha, ih]

theorem joinPoints_map {β : Type} (joins : β → Bool) (f : α → β) (start : Nat)
    (list : List α) :
    joinPoints joins start (list.map f) = joinPoints (joins ∘ f) start list := by
  have hmarked : ∀ place (rest : List α),
      markedPlaces joins place (rest.map f) = markedPlaces (joins ∘ f) place rest := by
    intro place rest
    induction rest generalizing place with
    | nil => rfl
    | cons a rest ih => simp [markedPlaces, ih]
  cases list with
  | nil => rfl
  | cons a rest => exact hmarked (start + 1) rest

theorem isChain_cons_takeWhile (joins : α → Bool) (first : α) (rest : List α) :
    (first :: rest.takeWhile joins).IsChain fun _ next => joins next = true := by
  have hchain : ∀ (a : α) (list : List α), (∀ b ∈ list, joins b = true) →
      (a :: list).IsChain fun _ next => joins next = true := by
    intro a list hall
    induction list generalizing a with
    | nil => exact List.isChain_singleton a
    | cons b list ih =>
        rw [List.isChain_cons_cons]
        exact ⟨hall b List.mem_cons_self,
          ih b fun c hc => hall c (List.mem_cons_of_mem b hc)⟩
  exact hchain first _ fun b hb => List.mem_takeWhile_imp hb

/-- The first block is the first element with all that follow and join. -/
theorem blocks_cons (joins : α → Bool) (first : α) (rest : List α) :
    blocks joins (first :: rest) =
      (first :: rest.takeWhile joins) :: blocks joins (rest.dropWhile joins) := by
  have hfirst : blocks joins (first :: rest.takeWhile joins) =
      [first :: rest.takeWhile joins] :=
    List.splitBy_of_isChain (by simp) (isChain_cons_takeWhile joins first rest)
  have hsplit : first :: rest =
      (first :: rest.takeWhile joins) ++ rest.dropWhile joins := by
    rw [List.cons_append, List.takeWhile_append_dropWhile]
  calc blocks joins (first :: rest)
      = blocks joins ((first :: rest.takeWhile joins) ++ rest.dropWhile joins) := by
        rw [← hsplit]
    _ = blocks joins (first :: rest.takeWhile joins) ++
          blocks joins (rest.dropWhile joins) := by
        apply List.splitBy_append
        intro _ _ next hnext
        have hhead := List.head?_dropWhile_not joins rest
        rw [Option.mem_def.1 hnext] at hhead
        simpa using hhead
    _ = _ := by rw [hfirst]; rfl

/-- To prove something of all lists it is enough to go from block to block. -/
theorem blockInduction (joins : α → Bool) {motive : List α → Prop} (hnil : motive [])
    (hcons : ∀ first rest, motive (rest.dropWhile joins) → motive (first :: rest))
    (list : List α) : motive list := by
  induction hlength : list.length using Nat.strong_induction_on generalizing list with
  | h n ih =>
      cases list with
      | nil => exact hnil
      | cons first rest =>
          have hle : (rest.dropWhile joins).length ≤ rest.length :=
            (List.dropWhile_sublist joins).length_le
          rw [List.length_cons] at hlength
          exact hcons first rest (ih _ (by omega) _ rfl)

theorem markedPlaces_eq_range'_append (joins : α → Bool) (start : Nat) (rest : List α) :
    markedPlaces joins (start + 1) rest =
      List.range' (start + 1) (rest.takeWhile joins).length ++
        joinPoints joins (start + 1 + (rest.takeWhile joins).length)
          (rest.dropWhile joins) := by
  induction rest generalizing start with
  | nil => rfl
  | cons a rest ih =>
      by_cases ha : joins a = true
      · rw [markedPlaces, if_pos ha, ih (start + 1), List.takeWhile_cons_of_pos ha,
          List.dropWhile_cons_of_pos ha, List.length_cons, List.range'_succ,
          List.cons_append]
        congr 3
        omega
      · rw [markedPlaces, if_neg ha, List.takeWhile_cons_of_neg ha,
          List.dropWhile_cons_of_neg ha]
        rfl

/-- The points of a list are those inside its first block, without a gap, and
then those of the other blocks. -/
theorem joinPoints_cons (joins : α → Bool) (start : Nat) (first : α) (rest : List α) :
    joinPoints joins start (first :: rest) =
      List.range' (start + 1) (rest.takeWhile joins).length ++
        joinPoints joins (start + 1 + (rest.takeWhile joins).length)
          (rest.dropWhile joins) :=
  markedPlaces_eq_range'_append joins start rest

/-- Every element opens a block or is a point. -/
theorem length_blocks_add_length_joinPoints (joins : α → Bool) (start : Nat)
    (list : List α) :
    (blocks joins list).length + (joinPoints joins start list).length = list.length := by
  induction list using blockInduction joins generalizing start with
  | hnil => rfl
  | hcons first rest ih =>
      have hrest : (rest.takeWhile joins).length + (rest.dropWhile joins).length =
          rest.length := by
        rw [← List.length_append, List.takeWhile_append_dropWhile]
      have hblocks := ih (start + 1 + (rest.takeWhile joins).length)
      rw [blocks_cons, joinPoints_cons]
      simp only [List.length_cons, List.length_append, List.length_range']
      omega

/-- The points of a list can be told from its blocks. -/
theorem joinPoints_eq_blockPoints (joins : α → Bool) (start : Nat) (list : List α) :
    joinPoints joins start list = blockPoints start (blocks joins list) := by
  induction list using blockInduction joins generalizing start with
  | hnil => rfl
  | hcons first rest ih =>
      rw [joinPoints_cons, blocks_cons, blockPoints, ih, List.length_cons,
        Nat.add_sub_cancel, Nat.add_right_comm, Nat.add_assoc]

theorem blockPoints_map {β : Type} (f : α → β) (start : Nat) (list : List (List α)) :
    blockPoints start (list.map (List.map f)) = blockPoints start list := by
  induction list generalizing start with
  | nil => rfl
  | cons block rest ih => simp [blockPoints, ih]

theorem flatten_map_blocks {β : Type} (joins : α → Bool) (f : α → β) (list : List α) :
    ((blocks joins list).map (List.map f)).flatten = list.map f := by
  rw [← List.map_flatten, blocks, List.flatten_splitBy]

theorem ne_nil_of_mem_map_blocks {β : Type} {joins : α → Bool} {f : α → β} {list : List α}
    {block : List β} (h : block ∈ (blocks joins list).map (List.map f)) : block ≠ [] := by
  obtain ⟨items, hitems, rfl⟩ := List.mem_map.1 h
  rw [ne_eq, List.map_eq_nil_iff]
  exact List.ne_nil_of_mem_splitBy hitems

/-- The only block holds everything. -/
theorem blocks_eq_singleton {joins : α → Bool} {list : List α}
    (h : (blocks joins list).length = 1) : blocks joins list = [list] := by
  obtain ⟨block, hblock⟩ := List.length_eq_one_iff.1 h
  have hflatten := List.flatten_splitBy (fun _ next => joins next) list
  rw [← blocks, hblock, List.flatten_singleton] at hflatten
  rw [hblock, hflatten]

theorem le_first_of_mem_blockSpans {start : Nat} {list : List (List α)} {span : Span}
    (h : span ∈ blockSpans start list) : start ≤ span.first := by
  induction list generalizing start with
  | nil => simp [blockSpans] at h
  | cons block rest ih =>
      rw [blockSpans] at h
      split_ifs at h with hshort
      · exact Nat.le_trans (Nat.le_add_right start _) (ih h)
      · rcases List.mem_cons.1 h with rfl | h
        · exact Nat.le_refl start
        · exact Nat.le_trans (Nat.le_add_right start _) (ih h)

theorem bounds_of_mem_blockSpans {start : Nat} {list : List (List α)} {span : Span}
    (h : span ∈ blockSpans start list) :
    span.first < span.last ∧ span.last < start + list.flatten.length := by
  induction list generalizing start with
  | nil => simp [blockSpans] at h
  | cons block rest ih =>
      rw [List.flatten_cons, List.length_append]
      rw [blockSpans] at h
      split_ifs at h with hshort
      · have := ih h
        omega
      · rcases List.mem_cons.1 h with rfl | h
        · dsimp only
          omega
        · have := ih h
          omega

/-- The spans of blocks are in order and do not overlap. -/
theorem pairwise_blockSpans (start : Nat) (list : List (List α)) :
    (blockSpans start list).Pairwise fun span next => span.last < next.first := by
  induction list generalizing start with
  | nil => exact .nil
  | cons block rest ih =>
      rw [blockSpans]
      split_ifs with hshort
      · exact ih _
      · refine .cons (fun span hspan => ?_) (ih _)
        have := le_first_of_mem_blockSpans hspan
        dsimp only
        omega

/-- Every place of the span but the first is a point, and neither the first nor the place
behind the last is. -/
def Span.MaximalIn (points : List Nat) (span : Span) : Prop :=
  span.first < span.last ∧
    (∀ place, span.first < place → place ≤ span.last → place ∈ points) ∧
    span.first ∉ points ∧ span.last + 1 ∉ points

theorem lt_of_mem_blockPoints {start place : Nat} {list : List (List α)}
    (h : place ∈ blockPoints start list) : start < place := by
  induction list generalizing start with
  | nil => simp [blockPoints] at h
  | cons block rest ih =>
      rw [blockPoints, List.mem_append, List.mem_range'_1] at h
      rcases h with h | h
      · omega
      · exact Nat.lt_of_le_of_lt (Nat.le_add_right start _) (ih h)

theorem mem_blockSpans_cons_iff {start : Nat} {block : List α} {rest : List (List α)}
    {span : Span} :
    span ∈ blockSpans start (block :: rest) ↔
      (2 ≤ block.length ∧ span = ⟨start, start + block.length - 1⟩) ∨
        span ∈ blockSpans (start + block.length) rest := by
  rw [blockSpans]
  split_ifs with hshort
  · rw [or_iff_right fun hlong => absurd hlong.1 (Nat.not_le.2 hshort)]
  · rw [List.mem_cons, and_iff_right (Nat.le_of_not_lt hshort)]

theorem Span.maximalIn_blockPoints_cons_iff {start : Nat} {block : List α}
    {rest : List (List α)} {span : Span} (h : block ≠ []) :
    span.MaximalIn (blockPoints start (block :: rest)) ↔
      (2 ≤ block.length ∧ span = ⟨start, start + block.length - 1⟩) ∨
        span.MaximalIn (blockPoints (start + block.length) rest) := by
  have hpos := List.length_pos_of_ne_nil h
  have hbehind : ∀ place ∈ blockPoints (start + block.length) rest,
      start + block.length < place := fun _ => lt_of_mem_blockPoints
  simp only [MaximalIn, blockPoints, List.mem_append, List.mem_range'_1]
  constructor
  · rintro ⟨hlt, hinside, hfirst, hlast⟩
    by_cases hlater : start + block.length ≤ span.first
    · refine .inr ⟨hlt, fun place hfrom hto => ?_, fun hplace => hfirst (.inr hplace),
        fun hplace => hlast (.inr hplace)⟩
      exact (hinside place hfrom hto).resolve_left (by omega)
    · -- The run starts in this block, where only the first place is no point.
      have hnext := hinside (span.first + 1) (by omega) (by omega)
      have hinner := hnext.resolve_right (mt (hbehind (span.first + 1)) (by omega))
      have hstart : span.first = start := by
        by_contra hne
        exact hfirst (.inl (by omega))
      have hstop : span.last = start + block.length - 1 := by
        by_contra hne
        by_cases hover : start + block.length ≤ span.last
        · have hedge := hinside (start + block.length) (by omega) hover
          have := hbehind _ (hedge.resolve_left (by omega))
          omega
        · exact hlast (.inl (by omega))
      refine .inl ⟨by omega, ?_⟩
      rw [← hstop, ← hstart]
  · have houtside : ∀ place, place = start ∨ place = start + block.length →
        ¬((start + 1 ≤ place ∧ place < start + 1 + (block.length - 1)) ∨
          place ∈ blockPoints (start + block.length) rest) := by
      rintro place hplace (hinner | hlater)
      · omega
      · have := hbehind place hlater
        omega
    rintro (⟨hlong, rfl⟩ | ⟨hlt, hinside, hfirst, hlast⟩)
    · dsimp only
      exact ⟨by omega, fun place hfrom hto => .inl (by omega), houtside start (.inl rfl),
        houtside _ (.inr (by omega))⟩
    · have hstart := hbehind _ (hinside (span.first + 1) (by omega) (by omega))
      refine ⟨hlt, fun place hfrom hto => .inr (hinside place hfrom hto), ?_, ?_⟩
      · exact fun hplace => hplace.elim (by omega) hfirst
      · exact fun hplace => hplace.elim (by omega) hlast

/-- The spans are the longest runs of points, each with the place in front of it. -/
theorem mem_blockSpans_iff {start : Nat} {list : List (List α)} {span : Span}
    (h : ∀ block ∈ list, block ≠ []) :
    span ∈ blockSpans start list ↔ span.MaximalIn (blockPoints start list) := by
  induction list generalizing start with
  | nil =>
      refine iff_of_false (by simp [blockSpans]) ?_
      rintro ⟨hlt, hinside, -⟩
      simpa [blockPoints] using hinside span.last hlt (Nat.le_refl _)
  | cons block rest ih =>
      obtain ⟨hblock, hrest⟩ := List.forall_mem_cons.1 h
      rw [mem_blockSpans_cons_iff, Span.maximalIn_blockPoints_cons_iff hblock, ih hrest]

theorem blockSpans_map {β : Type} (f : α → β) (start : Nat) (list : List (List α)) :
    blockSpans start (list.map (List.map f)) = blockSpans start list := by
  induction list generalizing start with
  | nil => rfl
  | cons block rest ih => simp [blockSpans, ih]

/-- A run of points makes one span with the place before it, if the spans that
follow start later. -/
theorem spansOfPoints_range'_append (start length : Nat) {points : List Nat}
    (h : ∀ span ∈ spansOfPoints points, start + length + 1 < span.first) :
    spansOfPoints (List.range' (start + 1) (length + 1) ++ points) =
      ⟨start, start + length + 1⟩ :: spansOfPoints points := by
  induction length generalizing start with
  | zero =>
      change spansOfPoints ((start + 1) :: points) = _
      rw [spansOfPoints]
      cases hspans : spansOfPoints points with
      | nil => rfl
      | cons span spans =>
          have hlt := h span (by simp [hspans])
          dsimp only
          rw [if_neg (by omega)]
          rfl
  | succ length ih =>
      have hlater := ih (start + 1) fun span hspan => by
        have := h span hspan
        omega
      rw [List.range'_succ, List.cons_append, spansOfPoints, hlater]
      simp only [↓reduceIte, Nat.add_sub_cancel, List.cons.injEq, Span.mk.injEq, and_true,
        true_and]
      omega

/-- The spans of the points of a list are its blocks of at least two elements. -/
theorem spansOfPoints_joinPoints (joins : α → Bool) (start : Nat) (list : List α) :
    spansOfPoints (joinPoints joins start list) = blockSpans start (blocks joins list) := by
  induction list using blockInduction joins generalizing start with
  | hnil => rfl
  | hcons first rest ih =>
      rw [joinPoints_cons, blocks_cons, blockSpans, List.length_cons]
      cases hlength : (rest.takeWhile joins).length with
      | zero => simpa using ih (start + 1)
      | succ length =>
          have hlater := ih (start + 1 + (length + 1))
          rw [spansOfPoints_range'_append, hlater, if_neg (by omega)]
          · congr 2
            omega
          · intro span hspan
            rw [hlater] at hspan
            have := le_first_of_mem_blockSpans hspan
            omega

/-- A block of one fragment stays bare. -/
def Segment.ofBlock : List Text → Segment
  | [fragment] => .bare fragment
  | fragments => .any fragments

theorem segments_cons_of_head?_ne {start : Nat} {spans : List Span}
    (h : ∀ span ∈ spans.head?, span.first ≠ start) (fragment : Text) (fragments : List Text) :
    segments start spans (fragment :: fragments) =
      .bare fragment :: segments (start + 1) spans fragments := by
  cases spans with
  | nil => rfl
  | cons span spans =>
      have hne := h span rfl
      rw [segments, segments]
      by_cases hlt : span.first < start
      · rw [if_pos hlt, if_pos (by omega), List.map_cons]
      · have hsub : span.first - start = span.first - (start + 1) + 1 := by omega
        rw [if_neg hlt, if_neg (by omega), hsub]
        simp only [List.take_succ_cons, List.drop_succ_cons]
        cases fragments.drop (span.first - (start + 1)) with
        | nil => rfl
        | cons head tail => rfl

theorem segments_span_append (start : Nat) (spans : List Span) {block : List Text}
    (hblock : 0 < block.length) (fragments : List Text) :
    segments start (⟨start, start + block.length - 1⟩ :: spans) (block ++ fragments) =
      .any block :: segments (start + block.length) spans fragments := by
  rw [segments, if_neg (Nat.lt_irrefl start), Nat.sub_self, List.take_zero, List.drop_zero]
  have hlast : start + block.length - 1 + 1 = start + block.length := by omega
  cases hall : block ++ fragments with
  | nil => simp [List.append_eq_nil_iff.1 hall] at hblock
  | cons head tail => simp [hlast, ← hall]

/-- Cutting along the spans of some blocks gives back the blocks. -/
theorem segments_blockSpans (start : Nat) {list : List (List Text)}
    (h : ∀ block ∈ list, block ≠ []) :
    segments start (blockSpans start list) list.flatten = list.map Segment.ofBlock := by
  induction list generalizing start with
  | nil => rfl
  | cons block rest ih =>
      have hrest := fun start => ih start fun block hblock =>
        h block (List.mem_cons_of_mem _ hblock)
      rw [blockSpans, List.flatten_cons, List.map_cons]
      cases block with
      | nil => exact absurd rfl (h [] List.mem_cons_self)
      | cons fragment others =>
          cases others with
          | nil =>
              rw [if_pos (by simp), List.singleton_append, segments_cons_of_head?_ne]
              · exact congrArg _ (hrest (start + 1))
              · intro span hspan
                exact Nat.ne_of_gt (le_first_of_mem_blockSpans (List.mem_of_mem_head? hspan))
          | cons second others =>
              rw [if_neg (by simp), segments_span_append _ _ (by simp), hrest]
              rfl

/-! What is written, character by character. -/

/-- Parts behind an opening parenthesis: one space before each, and one before the closing
parenthesis. -/
def Expression.listing (opening : String) (parts : List Text) : Text :=
  opening.toList ++ parts.flatMap (fun part => ' ' :: part) ++ " )".toList

/-- A bare fragment stands for itself, other fragments are listed. -/
def Segment.written : Segment → Text
  | .bare fragment => fragment
  | .any fragments => Expression.listing "match_any(" fragments

theorem Expression.listing_eq_wrap {opening : String} {name : Text}
    (h : opening.toList = name ++ ['(']) (parts : List Text) :
    listing opening parts = wrap name parts := by
  simp [listing, wrap, h]

@[simp] theorem Expression.listing_matchAll (parts : List Text) :
    listing "match_all(" parts = wrap matchAll parts :=
  listing_eq_wrap rfl parts

@[simp] theorem Segment.written_eq_text : written = text := by
  funext segment
  cases segment with
  | bare fragment => rfl
  | any fragments => exact Expression.listing_eq_wrap rfl fragments

end GradingRule
