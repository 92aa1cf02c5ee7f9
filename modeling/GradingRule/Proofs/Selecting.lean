/-
The shape that some points select, whatever numbers they are.  The first misplaced point
is reported, then their number, and else the points cut all places into runs.  With
numbers of 64 bits no sum and no difference on the way is out of range.
-/
import GradingRule.Proofs.Nesting
import Mathlib.Data.List.Sort

namespace GradingRule

/-! A point is misplaced among those in front of it. -/

/-- Below the first place that can join another, beyond the last place, or not above the
point before it. -/
def Misplaced (size : Nat) (front : List Nat) (point : Nat) : Prop :=
  point = 0 ∨ size ≤ point ∨ ∃ previous ∈ front.getLast?, point ≤ previous

/-- No point is misplaced. -/
def Placed (size : Nat) (points : List Nat) : Prop :=
  ∀ front point rest, points = front ++ point :: rest → ¬Misplaced size front point

/-- The least place for a point behind the others. -/
def floorAfter (floor : Nat) (front : List Nat) : Nat :=
  (front.getLast?.map (· + 1)).getD floor

theorem floorAfter_cons (floor point : Nat) (front : List Nat) :
    floorAfter floor (point :: front) = floorAfter (point + 1) front := by
  cases front with
  | nil => rfl
  | cons next front => simp [floorAfter, List.getLast?_eq_some_getLast]

theorem misplaced_iff_lt_floorAfter {size point : Nat} {front : List Nat} :
    Misplaced size front point ↔ point < floorAfter 1 front ∨ size ≤ point := by
  rw [Misplaced, floorAfter]
  cases front.getLast? with
  | none => simp
  | some previous => simp; omega

theorem misplacedPoint?_eq_some_iff {size floor point : Nat} {points : List Nat} :
    misplacedPoint? size floor points = some point ↔
      ∃ front rest, points = front ++ point :: rest ∧ misplacedPoint? size floor front = none ∧
        (point < floorAfter floor front ∨ size ≤ point) := by
  induction points generalizing floor with
  | nil => simp [misplacedPoint?]
  | cons first others ih =>
      rw [misplacedPoint?]
      split_ifs with hbad
      · constructor
        · rintro ⟨rfl⟩
          exact ⟨[], others, rfl, rfl, hbad⟩
        · rintro ⟨front, rest, heq, hfront, -⟩
          cases front with
          | nil => rw [(List.cons.inj heq).1]
          | cons next front =>
              obtain ⟨rfl, -⟩ := List.cons.inj heq
              rw [misplacedPoint?, if_pos hbad] at hfront
              exact absurd hfront (by simp)
      · rw [ih]
        constructor
        · rintro ⟨front, rest, rfl, hfront, hpoint⟩
          refine ⟨first :: front, rest, rfl, ?_, ?_⟩
          · rw [misplacedPoint?, if_neg hbad, hfront]
          · rwa [floorAfter_cons]
        · rintro ⟨front, rest, heq, hfront, hpoint⟩
          cases front with
          | nil =>
              obtain ⟨rfl, -⟩ := List.cons.inj heq
              exact absurd hpoint hbad
          | cons next front =>
              obtain ⟨rfl, rfl⟩ := List.cons.inj heq
              rw [misplacedPoint?, if_neg hbad] at hfront
              rw [floorAfter_cons] at hpoint
              exact ⟨front, rest, rfl, hfront, hpoint⟩

theorem misplacedPoint?_eq_none_of_append {size floor : Nat} {front rest : List Nat}
    (h : misplacedPoint? size floor (front ++ rest) = none) :
    misplacedPoint? size floor front = none := by
  induction front generalizing floor with
  | nil => rfl
  | cons point front ih =>
      rw [List.cons_append, misplacedPoint?] at h
      rw [misplacedPoint?]
      split_ifs at h ⊢
      exact ih h

theorem misplacedPoint?_eq_none_iff_placed {size : Nat} {points : List Nat} :
    misplacedPoint? size 1 points = none ↔ Placed size points := by
  constructor
  · rintro h front point rest rfl hpoint
    have hfront := misplacedPoint?_eq_none_of_append h
    have hsome := misplacedPoint?_eq_some_iff.2
      ⟨front, rest, rfl, hfront, misplaced_iff_lt_floorAfter.1 hpoint⟩
    exact absurd (h.symm.trans hsome) (by simp)
  · intro h
    refine Option.eq_none_iff_forall_ne_some.2 fun point hpoint => ?_
    obtain ⟨front, rest, rfl, -, hbad⟩ := misplacedPoint?_eq_some_iff.1 hpoint
    exact h front point rest rfl (misplaced_iff_lt_floorAfter.2 hbad)

theorem misplacedPoint?_eq_none_iff {size floor : Nat} {points : List Nat} :
    misplacedPoint? size floor points = none ↔
      points.Pairwise (· < ·) ∧ ∀ point ∈ points, floor ≤ point ∧ point < size := by
  induction points generalizing floor with
  | nil => simp [misplacedPoint?]
  | cons first others ih =>
      rw [misplacedPoint?, List.pairwise_cons, List.forall_mem_cons]
      split_ifs with hbad
      · simp; omega
      · rw [ih]
        constructor
        · rintro ⟨hordered, hothers⟩
          refine ⟨⟨fun point hpoint => (hothers point hpoint).1, hordered⟩, by omega, ?_⟩
          intro point hpoint
          have := hothers point hpoint
          omega
        · rintro ⟨⟨hfirst, hordered⟩, -, hothers⟩
          exact ⟨hordered, fun point hpoint => ⟨hfirst point hpoint, (hothers point hpoint).2⟩⟩

theorem placed_iff {size : Nat} {points : List Nat} :
    Placed size points ↔
      points.Pairwise (· < ·) ∧ ∀ point ∈ points, 1 ≤ point ∧ point < size :=
  misplacedPoint?_eq_none_iff_placed.symm.trans misplacedPoint?_eq_none_iff

theorem markedPlaces_range' (marked : Nat → Bool) (place length : Nat) :
    markedPlaces marked place (List.range' place length) =
      (List.range' place length).filter marked := by
  induction length generalizing place with
  | zero => rfl
  | succ length ih =>
      rw [List.range'_succ, markedPlaces, ih, List.filter_cons]

theorem filter_mem_range' {size : Nat} {points : List Nat} (h : Placed size points) :
    (List.range' 1 (size - 1)).filter (fun place => decide (place ∈ points)) = points := by
  obtain ⟨hordered, hbounds⟩ := placed_iff.1 h
  have hrange := (List.pairwise_lt_range' (s := 1) (n := size - 1)).filter
    fun place => decide (place ∈ points)
  refine hrange.eq_of_mem_iff hordered fun place => ?_
  simp only [List.mem_filter, List.mem_range'_1, decide_eq_true_eq, and_iff_right_iff_imp]
  intro hplace
  have := hbounds place hplace
  omega

theorem Placed.sublist {size : Nat} {points : List Nat} (h : Placed size points) :
    points.Sublist (List.range' 1 (size - 1)) := by
  conv_lhs => rw [← filter_mem_range' h]
  exact List.filter_sublist

theorem Placed.length_le {size : Nat} {points : List Nat} (h : Placed size points) :
    points.length ≤ size - 1 := by
  simpa using h.sublist.length_le

theorem Placed.length_eq_iff {size : Nat} {points : List Nat} (h : Placed size points) :
    points.length = size - 1 ↔ points = List.range' 1 (size - 1) := by
  constructor
  · intro hlength
    exact h.sublist.eq_of_length (by rw [hlength, List.length_range'])
  · intro hrange
    rw [hrange, List.length_range']

/-- The runs of all places, where every point joins the place before it. -/
def placeBlocks (size : Nat) (points : List Nat) : List (List Nat) :=
  blocks (fun place => decide (place ∈ points)) (List.range size)

theorem Placed.joinPoints_eq {size : Nat} {points : List Nat} (h : Placed size points) :
    joinPoints (fun place => decide (place ∈ points)) 0 (List.range size) = points := by
  cases size with
  | zero =>
      have hnil := h.sublist
      rw [Nat.zero_sub, List.range'_zero, List.sublist_nil] at hnil
      rw [hnil]
      rfl
  | succ last =>
      rw [List.range_eq_range', List.range'_succ, joinPoints, markedPlaces_range']
      exact filter_mem_range' h

theorem Placed.spansOfPoints_eq {size : Nat} {points : List Nat} (h : Placed size points) :
    spansOfPoints points = blockSpans 0 (placeBlocks size points) := by
  rw [placeBlocks, ← spansOfPoints_joinPoints, h.joinPoints_eq]

theorem Placed.blockPoints_eq {size : Nat} {points : List Nat} (h : Placed size points) :
    blockPoints 0 (placeBlocks size points) = points := by
  rw [placeBlocks, ← joinPoints_eq_blockPoints, h.joinPoints_eq]

/-- What some points select: a fault, or the shape of so many fragments. -/
inductive Selects (size : Nat) (points : List Nat) : Except SequenceFault Shape → Prop
  | misplaced {front rest : List Nat} {point : Nat} :
      points = front ++ point :: rest → Placed size front → Misplaced size front point →
      Selects size points (.error (.disjunctionPoint point size))
  | tooMany : Placed size points → 3 ≤ points.length →
      Selects size points (.error (.tooManyDisjunctions points.length 2))
  | empty : points = [] → size = 0 → Selects size points (.ok .empty)
  | single : points = [] → size = 1 → Selects size points (.ok .single)
  | all : points = [] → 2 ≤ size → Selects size points (.ok .all)
  | any : points = List.range' 1 (size - 1) → points.length < 3 → 2 ≤ size →
      Selects size points (.ok .any)
  | grouped : Placed size points → points.length < 3 → points ≠ [] →
      points ≠ List.range' 1 (size - 1) →
      Selects size points (.ok (.grouped (blockSpans 0 (placeBlocks size points))))

theorem placed_nil (size : Nat) : Placed size [] :=
  misplacedPoint?_eq_none_iff_placed.1 rfl

theorem placed_range' (size : Nat) : Placed size (List.range' 1 (size - 1)) := by
  refine placed_iff.2 ⟨List.pairwise_lt_range', fun place hplace => ?_⟩
  rw [List.mem_range'_1] at hplace
  omega

namespace Shape

theorem ofPoints_of_placed {size : Nat} {points : List Nat} (h : Placed size points) :
    ofPoints size points =
      if size = 0 then .ok .empty
      else if size = 1 then .ok .single
      else if points = [] then .ok .all
      else if maxDisjunctions < points.length then
        .error (.tooManyDisjunctions points.length maxDisjunctions)
      else if points.length = size - 1 then .ok .any
      else .ok (.grouped (spansOfPoints points)) := by
  rw [ofPoints, misplacedPoint?_eq_none_iff_placed.2 h]

theorem selects_ofPoints (size : Nat) (points : List Nat) :
    Selects size points (ofPoints size points) := by
  cases hfound : misplacedPoint? size 1 points with
  | some point =>
      obtain ⟨front, rest, heq, hfront, hbad⟩ := misplacedPoint?_eq_some_iff.1 hfound
      rw [ofPoints, hfound]
      exact .misplaced heq (misplacedPoint?_eq_none_iff_placed.1 hfront)
        (misplaced_iff_lt_floorAfter.2 hbad)
  | none =>
      have hplaced := misplacedPoint?_eq_none_iff_placed.1 hfound
      have hlength := hplaced.length_le
      rw [ofPoints_of_placed hplaced]
      split_ifs with hzero hone hnil hmany hany
      · exact .empty (List.length_eq_zero_iff.1 (by omega)) hzero
      · exact .single (List.length_eq_zero_iff.1 (by omega)) hone
      · exact .all hnil (by omega)
      · exact .tooMany hplaced hmany
      · exact .any (hplaced.length_eq_iff.1 hany) (Nat.lt_of_not_le hmany) (by omega)
      · rw [hplaced.spansOfPoints_eq]
        exact .grouped hplaced (Nat.lt_of_not_le hmany) hnil (mt hplaced.length_eq_iff.2 hany)

theorem ofPoints_eq_of_selects {size : Nat} {points : List Nat}
    {result : Except SequenceFault Shape} (h : Selects size points result) :
    ofPoints size points = result := by
  cases h with
  | misplaced heq hfront hbad =>
      have hfound := misplacedPoint?_eq_some_iff.2 ⟨_, _, heq,
        misplacedPoint?_eq_none_iff_placed.2 hfront, misplaced_iff_lt_floorAfter.1 hbad⟩
      rw [ofPoints, hfound]
  | tooMany hplaced hmany =>
      have hlength := hplaced.length_le
      have hne : points ≠ [] := by
        rintro rfl
        simp at hmany
      have hover : maxDisjunctions < points.length := hmany
      rw [ofPoints_of_placed hplaced, if_neg (by omega), if_neg (by omega), if_neg hne,
        if_pos hover]
      rfl
  | empty hnil hsize =>
      rw [hnil, ofPoints_of_placed (placed_nil size), if_pos hsize]
  | single hnil hsize =>
      rw [hnil, ofPoints_of_placed (placed_nil size), if_neg (by omega), if_pos hsize]
  | all hnil hsize =>
      rw [hnil, ofPoints_of_placed (placed_nil size), if_neg (by omega), if_neg (by omega),
        if_pos rfl]
  | any hrange hfew hsize =>
      have hplaced : Placed size points := hrange ▸ placed_range' size
      have hlength := hplaced.length_eq_iff.2 hrange
      have hne : points ≠ [] := by
        rintro rfl
        rw [List.length_nil] at hlength
        omega
      have hunder : ¬maxDisjunctions < points.length := Nat.not_lt.2 (Nat.le_of_lt_succ hfew)
      rw [ofPoints_of_placed hplaced, if_neg (by omega), if_neg (by omega), if_neg hne,
        if_neg hunder, if_pos hlength]
  | grouped hplaced hfew hne hrange =>
      have hlength := hplaced.length_le
      have hpos := List.length_pos_of_ne_nil hne
      have hnot := mt hplaced.length_eq_iff.1 hrange
      have hunder : ¬maxDisjunctions < points.length := Nat.not_lt.2 (Nat.le_of_lt_succ hfew)
      rw [ofPoints_of_placed hplaced, if_neg (by omega), if_neg (by omega), if_neg hne,
        if_neg hunder, if_neg hnot, hplaced.spansOfPoints_eq]

end Shape

/-! What spans cover. -/

/-- Some place is in none of the spans. -/
def LeavesOut (size : Nat) (spans : List Span) : Prop :=
  ∃ place < size, ∀ span ∈ spans, place < span.first ∨ span.last < place

theorem leavesOut_singleton {size : Nat} {span : Span} (hlast : span.last < size)
    (hsize : span.last + 1 < size + span.first) : LeavesOut size [span] := by
  by_cases hfirst : span.first = 0
  · refine ⟨span.last + 1, by omega, fun other hother => .inr ?_⟩
    rw [List.mem_singleton.1 hother]
    omega
  · refine ⟨0, by omega, fun other hother => .inl ?_⟩
    rw [List.mem_singleton.1 hother]
    omega

/-- Two points that do not touch make two spans, and four places are all there is only if
they are the second and the fourth. -/
theorem leavesOut_pair_iff {size point next : Nat} (hpoint : 0 < point)
    (hnext : point + 1 < next) (hsize : next < size) :
    LeavesOut size [⟨point - 1, point⟩, ⟨next - 1, next⟩] ↔
      ¬(size = 4 ∧ point = 1 ∧ next = 3) := by
  simp only [LeavesOut, List.forall_mem_cons, List.not_mem_nil, IsEmpty.forall_iff, implies_true,
    and_true]
  constructor
  · rintro ⟨place, hplace, hfirst, hsecond⟩ ⟨rfl, rfl, rfl⟩
    omega
  · intro hnot
    by_cases hone : point = 1
    · by_cases hthree : next = 3
      · exact ⟨4, by omega, by omega, by omega⟩
      · exact ⟨2, by omega, by omega, by omega⟩
    · exact ⟨0, by omega, by omega, by omega⟩

theorem leavesOut_spansOfPoints_iff {size : Nat} {points : List Nat} (h : Placed size points)
    (hfew : points.length < 3) (hne : points ≠ [])
    (hrange : points ≠ List.range' 1 (size - 1)) :
    LeavesOut size (spansOfPoints points) ↔ ¬(size = 4 ∧ points = [1, 3]) := by
  have hlength := mt h.length_eq_iff.1 hrange
  have hbounds := placed_iff.1 h
  rcases points with _ | ⟨point, _ | ⟨next, _ | ⟨third, rest⟩⟩⟩
  · exact absurd rfl hne
  · simp only [List.mem_singleton, forall_eq, List.length_singleton] at hbounds hlength
    refine iff_of_true (leavesOut_singleton hbounds.2.2 ?_) (by simp)
    dsimp only
    omega
  · simp only [List.pairwise_cons, List.mem_cons, List.not_mem_nil, or_false, forall_eq_or_imp,
      forall_eq, IsEmpty.forall_iff, implies_true, List.Pairwise.nil, and_true,
      List.length_cons, List.length_nil] at hbounds hlength
    by_cases hadjacent : next - 1 = point
    · have hspans : spansOfPoints [point, next] = [⟨point - 1, next⟩] := by
        simp [spansOfPoints, hadjacent]
      rw [hspans]
      refine iff_of_true (leavesOut_singleton hbounds.2.2.2 ?_) ?_
      · dsimp only
        omega
      · simp only [List.cons.injEq, and_true]
        omega
    · have hspans : spansOfPoints [point, next] =
          [⟨point - 1, point⟩, ⟨next - 1, next⟩] := by
        simp [spansOfPoints, hadjacent]
      rw [hspans, leavesOut_pair_iff (by omega) (by omega) (by omega)]
      simp
  · simp only [List.length_cons] at hfew
    omega

/-- The spans of some points that are neither none nor all that there can be. -/
structure Groups (size : Nat) (points : List Nat) (spans : List Span) : Prop where
  ne_nil : spans ≠ []
  mem_iff : ∀ span, span ∈ spans ↔ span.MaximalIn points
  bounds : ∀ span ∈ spans, span.first < span.last ∧ span.last < size
  apart : spans.Pairwise fun span next => span.last < next.first
  not_mem_whole : ⟨0, size - 1⟩ ∉ spans
  leavesOut_iff : LeavesOut size spans ↔ ¬(size = 4 ∧ points = [1, 3])

theorem Placed.mem_spansOfPoints_iff {size : Nat} {points : List Nat} (h : Placed size points)
    (span : Span) : span ∈ spansOfPoints points ↔ span.MaximalIn points := by
  have hblocks : ∀ block ∈ placeBlocks size points, block ≠ [] := fun _ =>
    List.ne_nil_of_mem_splitBy
  rw [h.spansOfPoints_eq, mem_blockSpans_iff hblocks, h.blockPoints_eq]

theorem Placed.groups {size : Nat} {points : List Nat} (h : Placed size points)
    (hfew : points.length < 3) (hne : points ≠ [])
    (hrange : points ≠ List.range' 1 (size - 1)) :
    Groups size points (spansOfPoints points) where
  ne_nil := by
    cases points with
    | nil => exact absurd rfl hne
    | cons point rest =>
        rw [spansOfPoints]
        split
        · simp
        · split_ifs <;> simp
  mem_iff := h.mem_spansOfPoints_iff
  bounds := by
    intro span hspan
    rw [h.spansOfPoints_eq] at hspan
    simpa [placeBlocks, blocks, List.flatten_splitBy] using bounds_of_mem_blockSpans hspan
  apart := by
    rw [h.spansOfPoints_eq]
    exact pairwise_blockSpans 0 _
  not_mem_whole := by
    intro hwhole
    obtain ⟨hlt, hinside, -⟩ := (h.mem_spansOfPoints_iff _).1 hwhole
    refine hrange ?_
    rw [← filter_mem_range' h, List.filter_eq_self.2]
    intro place hplace
    rw [List.mem_range'_1] at hplace
    dsimp only at hinside
    exact decide_eq_true (hinside place (by omega) (by omega))
  leavesOut_iff := leavesOut_spansOfPoints_iff h hfew hne hrange

/-! The same with numbers of 64 bits. -/

/-- The sum, if it is in range. -/
def addWord? (a b : UInt64) : Option UInt64 :=
  if a.toNat + b.toNat < UInt64.size then some (a + b) else none

/-- The difference, if it is in range. -/
def subWord? (a b : UInt64) : Option UInt64 :=
  if b ≤ a then some (a - b) else none

theorem exists_addWord?_one {a : UInt64} (h : a.toNat + 1 < UInt64.size) :
    ∃ sum, addWord? a 1 = some sum ∧ sum.toNat = a.toNat + 1 := by
  refine ⟨a + 1, if_pos h, ?_⟩
  rw [UInt64.toNat_add]
  exact Nat.mod_eq_of_lt h

theorem exists_subWord?_one {a : UInt64} (h : 1 ≤ a.toNat) :
    ∃ difference, subWord? a 1 = some difference ∧ difference.toNat = a.toNat - 1 := by
  have hle : 1 ≤ a := UInt64.le_iff_toNat_le.2 h
  exact ⟨a - 1, if_pos hle, UInt64.toNat_sub_of_le a 1 hle⟩

/-- The first misplaced point; nothing if a sum on the way is out of range. -/
def misplacedWord? (size : UInt64) : UInt64 → List UInt64 → Option (Option UInt64)
  | _, [] => some none
  | floor, point :: rest =>
      if point < floor ∨ size ≤ point then some (some point)
      else do
        let next ← addWord? point 1
        misplacedWord? size next rest

theorem exists_misplacedWord? (size floor : UInt64) (points : List UInt64) :
    ∃ found, misplacedWord? size floor points = some found ∧
      found.map UInt64.toNat =
        misplacedPoint? size.toNat floor.toNat (points.map UInt64.toNat) := by
  induction points generalizing floor with
  | nil => exact ⟨none, rfl, rfl⟩
  | cons point rest ih =>
      simp only [misplacedWord?, List.map_cons, misplacedPoint?, UInt64.lt_iff_toNat_lt,
        UInt64.le_iff_toNat_le]
      split_ifs with hbad
      · exact ⟨some point, rfl, rfl⟩
      · have hsize := size.toNat_lt_size
        obtain ⟨next, hnext, hvalue⟩ := exists_addWord?_one (show point.toNat + 1 < _ by omega)
        obtain ⟨found, hfound, heq⟩ := ih next
        rw [hvalue] at heq
        exact ⟨found, by rw [hnext]; exact hfound, heq⟩

/-- From the place before a point to another. -/
def spanOfWords? (point last : UInt64) : Option Span := do
  let first ← subWord? point 1
  return ⟨first.toNat, last.toNat⟩

/-- The span of one point, and of two points that touch, or else the spans of both. -/
def spansOfWords? : List UInt64 → Option (List Span)
  | [point] => do
      let span ← spanOfWords? point point
      return [span]
  | [point, next] => do
      let behind ← addWord? point 1
      if next = behind then
        let span ← spanOfWords? point next
        return [span]
      else
        let span ← spanOfWords? point point
        let other ← spanOfWords? next next
        return [span, other]
  | _ => some []

theorem spanOfWords?_eq_some {point : UInt64} (h : 1 ≤ point.toNat) (last : UInt64) :
    spanOfWords? point last = some ⟨point.toNat - 1, last.toNat⟩ := by
  obtain ⟨first, hfirst, hvalue⟩ := exists_subWord?_one h
  rw [spanOfWords?, hfirst, ← hvalue]
  rfl

theorem spansOfWords?_eq_some {size : Nat} {points : List UInt64}
    (h : Placed size (points.map UInt64.toNat)) (hfew : points.length < 3) :
    spansOfWords? points = some (spansOfPoints (points.map UInt64.toNat)) := by
  obtain ⟨hordered, hbounds⟩ := placed_iff.1 h
  rcases points with _ | ⟨point, _ | ⟨next, _ | ⟨third, rest⟩⟩⟩
  · rfl
  · have hpoint := (hbounds point.toNat (by simp)).1
    rw [spansOfWords?, spanOfWords?_eq_some hpoint]
    rfl
  · have hpoint := (hbounds point.toNat (by simp)).1
    have hnext := (hbounds next.toNat (by simp)).1
    have hlt : point.toNat < next.toNat := by simpa using hordered
    have hsize := next.toNat_lt_size
    obtain ⟨behind, hbehind, hvalue⟩ := exists_addWord?_one (show point.toNat + 1 < _ by omega)
    have htouch : next = behind ↔ next.toNat - 1 = point.toNat := by
      rw [← UInt64.toNat_inj]
      omega
    rw [spansOfWords?, hbehind, spanOfWords?_eq_some hpoint, spanOfWords?_eq_some hpoint,
      spanOfWords?_eq_some hnext]
    by_cases hadjacent : next = behind
    · have htouching := htouch.1 hadjacent
      simp [spansOfPoints, ← hadjacent, htouching]
    · have hapart := mt htouch.2 hadjacent
      simp [spansOfPoints, hadjacent, hapart]
  · simp only [List.length_cons] at hfew
    omega

namespace Shape

/-- The shape by numbers of 64 bits; nothing if a sum or a difference is out of range. -/
def ofWords? (size : UInt64) (points : List UInt64) :
    Option (Except SequenceFault Shape) := do
  match ← misplacedWord? size 1 points with
  | some point => return .error (.disjunctionPoint point.toNat size.toNat)
  | none =>
      if size = 0 then return .ok .empty
      else if size = 1 then return .ok .single
      else if points = [] then return .ok .all
      else if maxDisjunctions < points.length then
        return .error (.tooManyDisjunctions points.length maxDisjunctions)
      else
        let others ← subWord? size 1
        if points.length = others.toNat then return .ok .any
        else
          let spans ← spansOfWords? points
          return .ok (.grouped spans)

/-- No sum and no difference is out of range. -/
theorem ofWords?_eq_some (size : UInt64) (points : List UInt64) :
    ofWords? size points = some (ofPoints size.toNat (points.map UInt64.toNat)) := by
  obtain ⟨found, hfound, hvalue⟩ := exists_misplacedWord? size 1 points
  rw [UInt64.toNat_one] at hvalue
  rw [ofWords?, hfound]
  cases found with
  | some point =>
      rw [ofPoints, ← hvalue]
      rfl
  | none =>
      have hplaced := misplacedPoint?_eq_none_iff_placed.1 hvalue.symm
      rw [ofPoints_of_placed hplaced]
      simp only [Option.bind_eq_bind, Option.bind_some, ← UInt64.toNat_inj,
        UInt64.toNat_zero, UInt64.toNat_one, List.map_eq_nil_iff, List.length_map]
      split_ifs with hempty hsingle hnil hmany hany
      · rfl
      · rfl
      · rfl
      · rfl
      all_goals
        obtain ⟨others, hothers, hrest⟩ := exists_subWord?_one (show 1 ≤ size.toNat by omega)
        rw [hothers, Option.bind_some, hrest]
      · rw [if_pos hany]
        rfl
      · have hfew : points.length < 3 := Nat.lt_succ_of_le (Nat.le_of_not_lt hmany)
        rw [if_neg hany, spansOfWords?_eq_some hplaced hfew]
        rfl

/-- Every shape and every fault is what the points select, and only that; spans are the
longest runs of joined places. -/
theorem ofWords?_selects (size : UInt64) (points : List UInt64) :
    ofWords? size points = some (ofPoints size.toNat (points.map UInt64.toNat)) ∧
      (∀ result, ofPoints size.toNat (points.map UInt64.toNat) = result ↔
        Selects size.toNat (points.map UInt64.toNat) result) ∧
      ∀ spans, ofPoints size.toNat (points.map UInt64.toNat) = .ok (.grouped spans) →
        Groups size.toNat (points.map UInt64.toNat) spans := by
  refine ⟨ofWords?_eq_some size points, fun result => ⟨?_, ofPoints_eq_of_selects⟩, ?_⟩
  · rintro rfl
    exact selects_ofPoints _ _
  · intro spans hspans
    have hselects := selects_ofPoints size.toNat (points.map UInt64.toNat)
    rw [hspans] at hselects
    cases hselects with
    | grouped hplaced hfew hne hrange =>
        rw [← hplaced.spansOfPoints_eq]
        exact hplaced.groups hfew hne hrange

end Shape

namespace SelectingWitness

theorem ofWords?_selects_apart :
    Shape.ofPoints 6 [2, 5] = .ok (.grouped [⟨1, 2⟩, ⟨4, 5⟩]) ∧
      Groups 6 [2, 5] [⟨1, 2⟩, ⟨4, 5⟩] :=
  have hspans : Shape.ofPoints 6 [2, 5] = .ok (.grouped [⟨1, 2⟩, ⟨4, 5⟩]) := by decide
  ⟨hspans, (Shape.ofWords?_selects 6 [2, 5]).2.2 _ hspans⟩

/-- Two points can join all four places to others and still leave two runs. -/
theorem not_leavesOut_four :
    Placed 4 [1, 3] ∧ [1, 3].length < 3 ∧ [1, 3] ≠ List.range' 1 (4 - 1) ∧
      ¬∃ spans, Shape.ofPoints 4 [1, 3] = .ok (.grouped spans) ∧ LeavesOut 4 spans := by
  refine ⟨misplacedPoint?_eq_none_iff_placed.1 (by decide), by decide, by decide, ?_⟩
  rintro ⟨spans, hspans, place, hplace, hout⟩
  have hshape : Shape.ofPoints 4 [1, 3] = .ok (.grouped [⟨0, 1⟩, ⟨2, 3⟩]) := by decide
  rw [hshape] at hspans
  cases hspans
  have hfirst := hout ⟨0, 1⟩ (by simp)
  have hsecond := hout ⟨2, 3⟩ (by simp)
  dsimp only at hfirst hsecond
  omega

end SelectingWitness

end GradingRule
