import SegmentIndex.Geom

/-!
# Series

A series is an ordered list of points with a `closed` flag, the metadata `processPoints`
derives from them in one sweep (bounding rectangle, convexity, winding), and the compressed
quadtree blob of its segments (`index`, empty when there is none).

`numSegments` and `segmentAt` give the segments of the series: for an open series the pairs of
consecutive points, for a closed one also the wrap from the last point back to the first,
unless the last point already repeats the first.

`processPoints` is modelled as the Go loop it is: a left fold of `processStep` over the indices
`0, …, n - 1`, with the loop's variables (`concave`, `dir`, `rect`, `cwc`) as the state
`Sweep`. The triple `(a, b, c)` each iteration reads is `sweepTriple`.
-/

namespace SegmentIndex

variable {α : Type*} [LinearOrderedField α]

/-- `points[i]`. Every read below is in range (where Go would panic, the model reads the
zero point). -/
def getPoint (points : List (Point α)) (i : ℕ) : Point α := points.getD i ⟨0, 0⟩

/-- In range, `getPoint` is the list's own indexing. -/
theorem getPoint_eq {points : List (Point α)} {i : ℕ} (h : i < points.length) :
    getPoint points i = points[i] := by
  simp [getPoint, List.getD_eq_getElem?_getD, h]

/-- The points of a list are the ones read at its indices. -/
theorem mem_iff_getPoint {points : List (Point α)} {p : Point α} :
    p ∈ points ↔ ∃ j < points.length, getPoint points j = p := by
  simp only [List.mem_iff_getElem]
  exact ⟨fun ⟨j, hj, e⟩ => ⟨j, hj, (getPoint_eq hj).trans e⟩,
    fun ⟨j, hj, e⟩ => ⟨j, hj, (getPoint_eq hj).symm.trans e⟩⟩

/-- Indexing options (`IndexOptions`): the kind of index and the least number of points for
which one is built. -/
structure IndexOptions where
  kind : UInt8
  minPoints : ℤ
  deriving DecidableEq, Repr

/-- `DefaultIndexOptions`: a quadtree (`QuadTree = 1`) from 64 points on. -/
def defaultIndexOptions : IndexOptions := ⟨1, 64⟩

/-- `NoIndexing`: kind `None = 0`, and `MinPoints = 0` disables indexing. -/
def noIndexing : IndexOptions := ⟨0, 0⟩

/-- The concrete series (`baseSeries`). -/
structure BaseSeries (α : Type*) where
  closed : Bool
  clockwise : Bool
  convex : Bool
  indexKind : UInt8
  index : List UInt8
  rect : Rect α
  points : List (Point α)

/-- `NumSegments`. -/
def BaseSeries.numSegments (series : BaseSeries α) : ℕ :=
  if series.closed then
    if series.points.length < 3 then 0
    else if getPoint series.points (series.points.length - 1) = getPoint series.points 0 then
      series.points.length - 1
    else series.points.length
  else if series.points.length < 2 then 0
  else series.points.length - 1

/-- `SegmentAt`: from `points[index]` to the next point, the last point wrapping to the
first. -/
def BaseSeries.segmentAt (series : BaseSeries α) (index : ℕ) : Segment α :=
  { a := getPoint series.points index
    b := if index = series.points.length - 1 then getPoint series.points 0
      else getPoint series.points (index + 1) }

/-- `Empty`. -/
def BaseSeries.empty (series : BaseSeries α) : Bool :=
  (series.closed && series.points.length < 3) || series.points.length < 2

/-- A series has at most as many segments as points. -/
theorem BaseSeries.numSegments_le (series : BaseSeries α) :
    series.numSegments ≤ series.points.length := by
  unfold BaseSeries.numSegments; split_ifs <;> omega

/-- `Empty()` is a series of no segment. -/
theorem BaseSeries.empty_iff (series : BaseSeries α) :
    series.empty = true ↔ series.numSegments = 0 := by
  unfold BaseSeries.numSegments BaseSeries.empty
  cases series.closed <;>
    simp only [Bool.true_and, Bool.false_and, Bool.false_or, Bool.or_eq_true, decide_eq_true_eq,
      if_true, Bool.false_eq_true, if_false] <;> split_ifs <;> omega

/-! ### The metadata sweep -/

/-- The variables of the loop of `processPoints`. -/
structure Sweep (α : Type*) where
  concave : Bool
  dir : ℤ
  rect : Rect α
  cwc : α

/-- The rectangle update of `processPoints`: a point below `min` lowers it, else a point
above `max` raises it, on each axis. -/
def expandRect (rect : Rect α) (p : Point α) : Rect α :=
  { min := ⟨if p.x < rect.min.x then p.x else rect.min.x,
            if p.y < rect.min.y then p.y else rect.min.y⟩
    max := ⟨if p.x < rect.min.x then rect.max.x else if p.x > rect.max.x then p.x else rect.max.x,
            if p.y < rect.min.y then rect.max.y else if p.y > rect.max.y then p.y else rect.max.y⟩ }

/-- The points `(a, b, c)` iteration `i` reads: `b` and `c` follow `a`, wrapping to the front
at the last two iterations. -/
def sweepTriple (points : List (Point α)) (i : ℕ) : Point α × Point α × Point α :=
  let n := points.length
  if i = n - 1 then (getPoint points i, getPoint points 0, getPoint points 1)
  else if i = n - 2 then (getPoint points i, getPoint points (i + 1), getPoint points 0)
  else (getPoint points i, getPoint points (i + 1), getPoint points (i + 2))

/-- The z-component of the cross product of `b - a` and `c - b`. -/
def zCross (a b c : Point α) : α := (b.x - a.x) * (c.y - b.y) - (b.y - a.y) * (c.x - b.x)

/-- The convexity update: the first nonzero sign is recorded in `dir`, and a later nonzero
sign opposite to it marks the points concave. -/
def convexStep (concave : Bool) (dir : ℤ) (z : α) : Bool × ℤ :=
  if dir = 0 then (concave, if z < 0 then -1 else if z > 0 then 1 else 0)
  else if z < 0 then (concave || dir = 1, dir)
  else if z > 0 then (concave || dir = -1, dir)
  else (concave, dir)

/-- One iteration of the loop of `processPoints`, at index `i`. Once `concave` is set the
convexity variables are left alone (`continue`), while the rectangle and `cwc` go on. -/
def processStep (points : List (Point α)) (st : Sweep α) (i : ℕ) : Sweep α :=
  let p := getPoint points i
  let rect := if i = 0 then ⟨p, p⟩ else expandRect st.rect p
  let (a, b, c) := sweepTriple points i
  let cwc := st.cwc + (b.x - a.x) * (b.y + a.y)
  if st.concave then { st with rect := rect, cwc := cwc }
  else
    let (concave, dir) := convexStep st.concave st.dir (zCross a b c)
    { concave := concave, dir := dir, rect := rect, cwc := cwc }

/-- The zero rectangle, the Go zero value of `Rect`. -/
def Rect.zero : Rect α := ⟨⟨0, 0⟩, ⟨0, 0⟩⟩

/-- `processPoints`: `(convex, rect, clockwise)` of the points; too few points give the zero
values. -/
def processPoints (points : List (Point α)) (closed : Bool) : Bool × Rect α × Bool :=
  if (closed && points.length < 3) || points.length < 2 then (false, Rect.zero, false)
  else
    let st := (List.range points.length).foldl (processStep points) ⟨false, 0, Rect.zero, 0⟩
    (!st.concave, st.rect, decide (st.cwc > 0))

/-! ### The rectangle of the sweep -/

/-- The rectangle of a sweep step depends on the index and the point only. -/
@[simp] theorem processStep_rect (points : List (Point α)) (st : Sweep α) (i : ℕ) :
    (processStep points st i).rect =
      if i = 0 then (getPoint points i).rect else expandRect st.rect (getPoint points i) := by
  simp only [processStep]; split <;> rfl

/-- On an axis with `lo ≤ hi`, the update of `expandRect` takes the `min` and the `max`. -/
theorem expandRect_axis {lo hi : α} (v : α) (h : lo ≤ hi) :
    (if v < lo then v else lo) = min v lo ∧
      (if v < lo then hi else if v > hi then v else hi) = max v hi := by
  split_ifs with h1 h2
  · exact ⟨(min_eq_left h1.le).symm, (max_eq_right (h1.le.trans h)).symm⟩
  · exact ⟨(min_eq_right (not_lt.1 h1)).symm, (max_eq_left h2.le).symm⟩
  · exact ⟨(min_eq_right (not_lt.1 h1)).symm, (max_eq_right (not_lt.1 h2)).symm⟩

/-- `expandRect` keeps `min ≤ max` and grows the rectangle to hold the point. -/
theorem expandRect_contains {r : Rect α} (p : Point α) (hx : r.min.x ≤ r.max.x)
    (hy : r.min.y ≤ r.max.y) :
    (expandRect r p).min.x ≤ (expandRect r p).max.x ∧ (expandRect r p).min.y ≤ (expandRect r p).max.y ∧
      (expandRect r p).Contains r ∧ (expandRect r p).Contains p.rect := by
  obtain ⟨ex, ex'⟩ := expandRect_axis p.x hx
  obtain ⟨ey, ey'⟩ := expandRect_axis p.y hy
  simp only [expandRect, Rect.Contains, Point.rect, ex, ex', ey, ey']
  exact ⟨(min_le_left _ _).trans (le_max_left _ _), (min_le_left _ _).trans (le_max_left _ _),
    ⟨min_le_right _ _, min_le_right _ _, le_max_right _ _, le_max_right _ _⟩,
    ⟨min_le_left _ _, min_le_left _ _, le_max_left _ _, le_max_left _ _⟩⟩

/-- After the first `k` iterations of the sweep, its rectangle holds the first `k` points. -/
theorem foldl_processStep_contains (points : List (Point α)) (st : Sweep α) :
    ∀ k, 0 < k → let r := ((List.range k).foldl (processStep points) st).rect
      r.min.x ≤ r.max.x ∧ r.min.y ≤ r.max.y ∧ ∀ j < k, r.Contains (getPoint points j).rect
  | 0, h => absurd h (Nat.lt_irrefl 0)
  | k + 1, _ => by
    rw [List.range_succ, List.foldl_append, List.foldl_cons, List.foldl_nil, processStep_rect]
    split_ifs with hk
    · subst hk
      refine ⟨le_rfl, le_rfl, fun j hj => ?_⟩
      obtain rfl : j = 0 := by omega
      exact ⟨le_rfl, le_rfl, le_rfl, le_rfl⟩
    · obtain ⟨hx, hy, hin⟩ := foldl_processStep_contains points st k (Nat.pos_of_ne_zero hk)
      obtain ⟨hx', hy', hr, hp⟩ := expandRect_contains (getPoint points k) hx hy
      refine ⟨hx', hy', fun j hj => ?_⟩
      rcases Nat.lt_succ_iff_lt_or_eq.1 hj with hj | rfl
      · exact hr.trans (hin j hj)
      · exact hp

/-- **The rectangle `processPoints` computes holds every point** of a series that is not too
short for it. -/
theorem processPoints_contains {points : List (Point α)} {closed : Bool}
    (h : ¬((closed && points.length < 3) || points.length < 2)) {i : ℕ} (hi : i < points.length) :
    (processPoints points closed).2.1.Contains (getPoint points i).rect := by
  simp only [processPoints, h, if_false]
  exact (foldl_processStep_contains points _ _ (by simp at h; omega)).2.2 i hi

/-- One side of the rectangle after `k + 1` iterations is the new point's coordinate or the
side after `k`. -/
theorem exists_lt_succ_of_choice {β : Type*} {f : ℕ → β} {k : ℕ} {u w : β} (hu : ∃ j < k, u = f j)
    (hw : w = f k ∨ w = u) : ∃ j < k + 1, w = f j := by
  rcases hw with rfl | rfl
  · exact ⟨k, Nat.lt_succ_self k, rfl⟩
  · obtain ⟨j, hj, e⟩ := hu
    exact ⟨j, by omega, e⟩

/-- After the first `k` iterations of the sweep, each side of its rectangle is at the
coordinate of one of the first `k` points. -/
theorem foldl_processStep_attains (points : List (Point α)) (st : Sweep α) :
    ∀ k, 0 < k → let r := ((List.range k).foldl (processStep points) st).rect
      (∃ j < k, r.min.x = (getPoint points j).x) ∧ (∃ j < k, r.min.y = (getPoint points j).y) ∧
        (∃ j < k, r.max.x = (getPoint points j).x) ∧ (∃ j < k, r.max.y = (getPoint points j).y)
  | 0, h => absurd h (Nat.lt_irrefl 0)
  | k + 1, _ => by
    rw [List.range_succ, List.foldl_append, List.foldl_cons, List.foldl_nil, processStep_rect]
    split_ifs with hk
    · subst hk
      exact ⟨⟨0, Nat.zero_lt_one, rfl⟩, ⟨0, Nat.zero_lt_one, rfl⟩, ⟨0, Nat.zero_lt_one, rfl⟩,
        ⟨0, Nat.zero_lt_one, rfl⟩⟩
    · have hk0 := Nat.pos_of_ne_zero hk
      obtain ⟨hx, hy, -⟩ := foldl_processStep_contains points st k hk0
      obtain ⟨ha, hb, hc, hd⟩ := foldl_processStep_attains points st k hk0
      obtain ⟨ex, ex'⟩ := expandRect_axis (getPoint points k).x hx
      obtain ⟨ey, ey'⟩ := expandRect_axis (getPoint points k).y hy
      simp only [expandRect, ex, ex', ey, ey']
      exact ⟨exists_lt_succ_of_choice (f := fun j => (getPoint points j).x) ha (min_choice _ _),
        exists_lt_succ_of_choice (f := fun j => (getPoint points j).y) hb (min_choice _ _),
        exists_lt_succ_of_choice (f := fun j => (getPoint points j).x) hc (max_choice _ _),
        exists_lt_succ_of_choice (f := fun j => (getPoint points j).y) hd (max_choice _ _)⟩

/-- A value below the coordinate `f` of every point of a list, and equal to one, is their
least. -/
theorem minimum_map_eq {points : List (Point α)} {f : Point α → α} {m : α}
    (hb : ∀ j < points.length, m ≤ f (getPoint points j))
    (ha : ∃ j < points.length, m = f (getPoint points j)) : (points.map f).minimum = m := by
  obtain ⟨j, hj, rfl⟩ := ha
  refine List.minimum_eq_coe_iff.2 ⟨List.mem_map_of_mem f (mem_iff_getPoint.2 ⟨j, hj, rfl⟩), ?_⟩
  intro _ hv
  obtain ⟨p, hp, rfl⟩ := List.mem_map.1 hv
  obtain ⟨i, hi, rfl⟩ := mem_iff_getPoint.1 hp
  exact hb i hi

/-- The maximum of `f` over the points is `m` when `m` bounds every value and is attained. -/
theorem maximum_map_eq {points : List (Point α)} {f : Point α → α} {m : α}
    (hb : ∀ j < points.length, f (getPoint points j) ≤ m)
    (ha : ∃ j < points.length, m = f (getPoint points j)) : (points.map f).maximum = m := by
  obtain ⟨j, hj, rfl⟩ := ha
  refine List.maximum_eq_coe_iff.2 ⟨List.mem_map_of_mem f (mem_iff_getPoint.2 ⟨j, hj, rfl⟩), ?_⟩
  intro _ hv
  obtain ⟨p, hp, rfl⟩ := List.mem_map.1 hv
  obtain ⟨i, hi, rfl⟩ := mem_iff_getPoint.1 hp
  exact hb i hi

/-- **The rectangle `processPoints` computes is the bounding box**: its sides are the least
and the greatest coordinates of the points, on each axis, for a series not too short for the
sweep. -/
theorem processPoints_rect_eq {points : List (Point α)} {closed : Bool}
    (h : ¬((closed && points.length < 3) || points.length < 2)) :
    let r := (processPoints points closed).2.1
    (points.map Point.x).minimum = r.min.x ∧ (points.map Point.y).minimum = r.min.y ∧
      (points.map Point.x).maximum = r.max.x ∧ (points.map Point.y).maximum = r.max.y := by
  have hn : 0 < points.length := by simp at h; omega
  simp only [processPoints, h, if_false]
  obtain ⟨-, -, hin⟩ := foldl_processStep_contains points ⟨false, 0, Rect.zero, 0⟩ _ hn
  obtain ⟨ha, hb, hc, hd⟩ := foldl_processStep_attains points ⟨false, 0, Rect.zero, 0⟩ _ hn
  exact ⟨minimum_map_eq (fun j hj => (hin j hj).1) ha,
    minimum_map_eq (fun j hj => (hin j hj).2.1) hb, maximum_map_eq (fun j hj => (hin j hj).2.2.1) hc,
    maximum_map_eq (fun j hj => (hin j hj).2.2.2) hd⟩


/-- Twenty points around the border of the square `[0, 5] × [0, 5]`, counterclockwise from the
origin. Closed, they make twenty unit segments, more than the `12` items a node holds before it
splits, so the concrete instances of the theorems about trees and indexes are stated on it. -/
def squareRing : List (Point ℚ) :=
  [⟨0, 0⟩, ⟨1, 0⟩, ⟨2, 0⟩, ⟨3, 0⟩, ⟨4, 0⟩, ⟨5, 0⟩, ⟨5, 1⟩, ⟨5, 2⟩, ⟨5, 3⟩, ⟨5, 4⟩,
    ⟨5, 5⟩, ⟨4, 5⟩, ⟨3, 5⟩, ⟨2, 5⟩, ⟨1, 5⟩, ⟨0, 5⟩, ⟨0, 4⟩, ⟨0, 3⟩, ⟨0, 2⟩, ⟨0, 1⟩]

end SegmentIndex
