import SegmentIndex.Segment

/-!
# The Nearest Point on a Segment's Line

`Segment.Distance` and `Segment.GetNearestToPoint` of `segment.go`. The first is the distance
from a point to the line through the segment, by the line's equation. The second is the foot
of the perpendicular from the point, found by solving the equations of the line and of the
perpendicular through the point, with two shortcuts: a horizontal line, and a point already
on the line. Both call `Point.Distance`, whose `math.Sqrt` is the parameter `sqrt` here. The
results hold for the exact square root (`ExactSqrt`), that is, in exact real arithmetic.

## Main results

* `getNearestToPoint_projection`: for a segment with `A ≠ B`, `GetNearestToPoint(C)` is the
  orthogonal projection of `C` onto the line `AB`, and `Distance(C)` is the distance from `C`
  to it.
* `distance_eq_abs_collinearity`: `Distance(C)` is `|GetCollinearity(C)| / GetSize()`, zero
  exactly when `CollinearPoint(C)`.
* `distance_le_of_collinear`: `Distance(C)` is at most the distance from `C` to every point of
  the line `AB`.
* `getNearestToPoint_of_collinear`: a point of the line `AB` is its own nearest point.
* `getNearestToPoint_move`: moving the segment and the point alike moves the nearest point and
  keeps the distance.
-/

namespace SegmentIndex

variable {α : Type*} [LinearOrderedField α] (sqrt : α → α)

/-- `math.Sqrt` computes the square root of every nonnegative number exactly. -/
def ExactSqrt : Prop := ∀ x, 0 ≤ x → 0 ≤ sqrt x ∧ sqrt x * sqrt x = x

/-- `Point.Distance`: the Euclidean distance between `p` and `pp`. -/
def Point.distance (p pp : Point α) : α :=
  let dx := p.x - pp.x
  let dy := p.y - pp.y
  sqrt (dx * dx + dy * dy)

/-- `GetSize`: the length of the segment. -/
def Segment.getSize (seg : Segment α) : α := seg.a.distance sqrt seg.b

/-- `Segment.Distance`: the distance from `point` to the line through the segment, or to `A`
when the segment is a point. -/
def Segment.distance (seg : Segment α) (point : Point α) : α :=
  let segmentSize := seg.getSize sqrt
  if segmentSize = 0 then seg.a.distance sqrt point
  else
    let dy := seg.b.y - seg.a.y
    let dx := seg.b.x - seg.a.x
    |dy * point.x - dx * point.y + seg.b.x * seg.a.y - seg.b.y * seg.a.x| / segmentSize

/-- `GetNearestToPoint`: with the line through the segment written `a x + b y + c = 0`, the
point `(C.X, A.Y)` when the line is horizontal, `C` when it is on the line, and otherwise the
intersection of the line with the perpendicular through `C`. -/
def Segment.getNearestToPoint (seg : Segment α) (C : Point α) : Point α :=
  let a := seg.a.y - seg.b.y
  if a = 0 then ⟨C.x, seg.a.y⟩
  else if seg.distance sqrt C = 0 then ⟨C.x, C.y⟩
  else
    let b := seg.b.x - seg.a.x
    let c := seg.a.x * seg.b.y - seg.b.x * seg.a.y
    let ry := (a * a * C.y - a * b * C.x - b * c) / (a * a + b * b)
    let rx := (-1) * (c + b * ry) / a
    ⟨rx, ry⟩

variable {sqrt}

/-- The exact square root is the nonnegative number whose square is given. -/
theorem ExactSqrt.eq_of_mul_self (hs : ExactSqrt sqrt) {x y : α} (hy : 0 ≤ y) (h : y * y = x) :
    sqrt x = y := by
  obtain ⟨h0, h1⟩ := hs x (h ▸ mul_self_nonneg y)
  exact (mul_self_inj h0 hy).1 (h1.trans h.symm)

/-- A segment with `A ≠ B` has a positive size, the square root of `dx² + dy²`. -/
theorem Segment.getSize_pos (hs : ExactSqrt sqrt) {seg : Segment α} (hab : seg.a ≠ seg.b) :
    0 < seg.getSize sqrt ∧
      seg.getSize sqrt * seg.getSize sqrt =
        (seg.a.x - seg.b.x) * (seg.a.x - seg.b.x) + (seg.a.y - seg.b.y) * (seg.a.y - seg.b.y) := by
  obtain ⟨⟨x₁, y₁⟩, ⟨x₂, y₂⟩⟩ := seg
  have hS : (x₁ - x₂) * (x₁ - x₂) + (y₁ - y₂) * (y₁ - y₂) ≠ 0 := fun h => hab <| by
    obtain ⟨hx, hy⟩ := mul_self_add_mul_self_eq_zero.1 h
    rw [sub_eq_zero.1 hx, sub_eq_zero.1 hy]
  obtain ⟨h0, h1⟩ := hs _ (add_nonneg (mul_self_nonneg (x₁ - x₂)) (mul_self_nonneg (y₁ - y₂)))
  exact ⟨h0.lt_of_ne fun h => hS (by rw [← h1, ← h, zero_mul]), h1⟩

/-- `Segment.Distance` of a segment with `A ≠ B`: the line formula over its size. -/
theorem Segment.distance_of_ne {seg : Segment α} (hab : seg.a ≠ seg.b) (hs : ExactSqrt sqrt)
    (point : Point α) :
    seg.distance sqrt point = |(seg.b.y - seg.a.y) * point.x - (seg.b.x - seg.a.x) * point.y +
      seg.b.x * seg.a.y - seg.b.y * seg.a.x| / seg.getSize sqrt := by
  simp only [Segment.distance, if_neg (Segment.getSize_pos hs hab).1.ne']

/-- The denominator `a² + b²` of the general branch of `GetNearestToPoint` is not zero. -/
theorem perpendicular_foot_denom_ne {a b : α} (ha : a ≠ 0) : a * a + b * b ≠ 0 :=
  (add_pos_of_pos_of_nonneg (mul_self_pos.2 ha) (mul_self_nonneg b)).ne'

/-- The general branch of `GetNearestToPoint` computes `C - t (a, b)`, where
`t = (a C.X + b C.Y + c) / (a² + b²)`: `C` moved along the normal `(a, b)` of the line. -/
theorem perpendicular_foot {a b c x y : α} (ha : a ≠ 0) :
    (-1) * (c + b * ((a * a * y - a * b * x - b * c) / (a * a + b * b))) / a =
        x - a * ((a * x + b * y + c) / (a * a + b * b)) ∧
      (a * a * y - a * b * x - b * c) / (a * a + b * b) =
        y - b * ((a * x + b * y + c) / (a * a + b * b)) := by
  have hS := perpendicular_foot_denom_ne (b := b) ha
  have hy : (a * a * y - a * b * x - b * c) / (a * a + b * b) =
      y - b * ((a * x + b * y + c) / (a * a + b * b)) := by
    rw [eq_sub_iff_add_eq, mul_div_assoc', div_add_div_same, div_eq_iff hS]
    ring
  refine ⟨?_, hy⟩
  rw [hy, div_eq_iff ha]
  linear_combination mul_div_cancel₀ (a * x + b * y + c) hS

/-- **`GetNearestToPoint` is the orthogonal projection.** For a segment with `A ≠ B` and any
point `C`, the point `P = GetNearestToPoint(C)` lies on the line `AB` (`CollinearPoint`),
`C - P` is orthogonal to `B - A`, and `Distance(C)` is the distance from `C` to `P`, in all
three branches of the code. -/
theorem getNearestToPoint_projection (hs : ExactSqrt sqrt) (seg : Segment α) (hab : seg.a ≠ seg.b)
    (C : Point α) :
    seg.getCollinearity (seg.getNearestToPoint sqrt C) = 0 ∧
      (C.x - (seg.getNearestToPoint sqrt C).x) * (seg.b.x - seg.a.x) +
        (C.y - (seg.getNearestToPoint sqrt C).y) * (seg.b.y - seg.a.y) = 0 ∧
      seg.distance sqrt C = C.distance sqrt (seg.getNearestToPoint sqrt C) := by
  obtain ⟨hpos, hsq⟩ := Segment.getSize_pos hs hab
  have hd := Segment.distance_of_ne hab hs C
  generalize seg.getSize sqrt = L at hpos hsq hd
  obtain ⟨⟨x₁, y₁⟩, ⟨x₂, y₂⟩⟩ := seg
  obtain ⟨cx, cy⟩ := C
  dsimp only at hsq hd ⊢
  by_cases ha : y₁ - y₂ = 0
  · -- a horizontal line: `(C.X, A.Y)`
    obtain rfl : y₂ = y₁ := (sub_eq_zero.1 ha).symm
    simp only [Segment.getNearestToPoint, ha, if_true, Segment.getCollinearity, sub_self, mul_zero,
      zero_mul, add_zero, true_and, Point.distance, zero_add]
    have hx : x₂ - x₁ ≠ 0 := fun h => hab (by rw [sub_eq_zero.1 h])
    have hL : L = |x₂ - x₁| :=
      (mul_self_inj hpos.le (abs_nonneg _)).1 (by rw [abs_mul_abs_self, hsq]; ring)
    rw [hd, hs.eq_of_mul_self (abs_nonneg (cy - y₂)) (abs_mul_abs_self (cy - y₂)), hL,
      show (y₂ - y₂) * cx - (x₂ - x₁) * cy + x₂ * y₂ - y₂ * x₁ = (x₂ - x₁) * (y₂ - cy) by ring,
      abs_mul, mul_div_cancel_left₀ _ (abs_pos.2 hx).ne', abs_sub_comm]
  simp only [Segment.getNearestToPoint, if_neg ha, hd, Segment.getCollinearity, Point.distance]
  split_ifs with h0 <;> dsimp only
  · -- `C` on the line: `C` itself
    have hN := abs_eq_zero.1 ((div_eq_zero_iff.1 h0).resolve_right hpos.ne')
    simp only [h0, sub_self, zero_mul, add_zero, hs.eq_of_mul_self le_rfl (mul_zero 0), and_true]
    linear_combination hN
  · -- the foot of the perpendicular, `C - t (a, b)`
    rw [(perpendicular_foot ha).1, (perpendicular_foot ha).2]
    generalize ht : ((y₁ - y₂) * cx + (x₂ - x₁) * cy + (x₁ * y₂ - x₂ * y₁)) /
      ((y₁ - y₂) * (y₁ - y₂) + (x₂ - x₁) * (x₂ - x₁)) = t
    have htS := ht ▸ div_mul_cancel₀ _ (perpendicular_foot_denom_ne ha)
    have hN : (y₂ - y₁) * cx - (x₂ - x₁) * cy + x₂ * y₁ - y₂ * x₁ = -(t * (L * L)) := by
      rw [hsq]; linear_combination htS
    refine ⟨by linear_combination htS, by ring, ?_⟩
    rw [hN, abs_neg, abs_mul, abs_of_pos (mul_pos hpos hpos), mul_div_assoc,
      mul_div_cancel_right₀ _ hpos.ne']
    exact (hs.eq_of_mul_self (mul_nonneg (abs_nonneg t) hpos.le)
      (by rw [mul_mul_mul_comm, abs_mul_abs_self, hsq]; ring)).symm

/-- The theorem over the reals, for the diagonal from `(0, 0)` to `(1, 1)` and the point
`(1, 0)`. -/
theorem getNearestToPoint_projection_diagonal :
    ExactSqrt Real.sqrt ∧ (Segment.mk ⟨0, 0⟩ ⟨1, 1⟩ : Segment ℝ).a ≠ (Segment.mk ⟨0, 0⟩ ⟨1, 1⟩).b ∧
      (Segment.mk ⟨0, 0⟩ ⟨1, 1⟩ : Segment ℝ).getCollinearity
          ((Segment.mk ⟨0, 0⟩ ⟨1, 1⟩).getNearestToPoint Real.sqrt ⟨1, 0⟩) = 0 ∧
        ((1 : ℝ) - ((Segment.mk ⟨0, 0⟩ ⟨1, 1⟩).getNearestToPoint Real.sqrt ⟨1, 0⟩).x) * (1 - 0) +
            (0 - ((Segment.mk ⟨0, 0⟩ ⟨1, 1⟩).getNearestToPoint Real.sqrt ⟨1, 0⟩).y) * (1 - 0) = 0 ∧
          (Segment.mk ⟨0, 0⟩ ⟨1, 1⟩ : Segment ℝ).distance Real.sqrt ⟨1, 0⟩ =
            (⟨1, 0⟩ : Point ℝ).distance Real.sqrt
              ((Segment.mk ⟨0, 0⟩ ⟨1, 1⟩).getNearestToPoint Real.sqrt ⟨1, 0⟩) :=
  have hs : ExactSqrt Real.sqrt := fun _ hx => ⟨Real.sqrt_nonneg _, Real.mul_self_sqrt hx⟩
  have hab : (Segment.mk ⟨0, 0⟩ ⟨1, 1⟩ : Segment ℝ).a ≠ (Segment.mk ⟨0, 0⟩ ⟨1, 1⟩).b := by simp
  ⟨hs, hab, getNearestToPoint_projection hs _ hab _⟩

/-- The line formula of `Distance` is `|GetCollinearity(point)| / GetSize()`. -/
theorem Segment.distance_eq_div (hs : ExactSqrt sqrt) {seg : Segment α} (hab : seg.a ≠ seg.b)
    (point : Point α) :
    seg.distance sqrt point = |seg.getCollinearity point| / seg.getSize sqrt := by
  rw [Segment.distance_of_ne hab hs]
  congr 2
  simp only [Segment.getCollinearity]
  ring

/-- **`Distance` is the collinearity over the size.** For a segment with `A ≠ B`, the line
formula of `Distance(point)` is `|GetCollinearity(point)| / GetSize()`, so `Distance` is zero
exactly when `CollinearPoint` holds. -/
theorem distance_eq_abs_collinearity (hs : ExactSqrt sqrt) {seg : Segment α} (hab : seg.a ≠ seg.b)
    (point : Point α) :
    seg.distance sqrt point = |seg.getCollinearity point| / seg.getSize sqrt ∧
      (seg.distance sqrt point = 0 ↔ seg.collinearPoint point = true) := by
  rw [Segment.distance_eq_div hs hab, div_eq_zero_iff, abs_eq_zero, Segment.collinearPoint,
    decide_eq_true_eq]
  exact ⟨rfl, or_iff_left (Segment.getSize_pos hs hab).1.ne'⟩

/-- The theorem over the reals, for the diagonal from `(0, 0)` to `(1, 1)` and the point
`(1, 0)`. -/
theorem distance_eq_abs_collinearity_diagonal :
    let s : Segment ℝ := ⟨⟨0, 0⟩, ⟨1, 1⟩⟩
    ExactSqrt Real.sqrt ∧ s.a ≠ s.b ∧
      s.distance Real.sqrt ⟨1, 0⟩ = |s.getCollinearity ⟨1, 0⟩| / s.getSize Real.sqrt ∧
      (s.distance Real.sqrt ⟨1, 0⟩ = 0 ↔ s.collinearPoint ⟨1, 0⟩ = true) := by
  intro s
  have hs : ExactSqrt Real.sqrt := fun _ hx => ⟨Real.sqrt_nonneg _, Real.mul_self_sqrt hx⟩
  have hab : s.a ≠ s.b := by simp [s]
  exact ⟨hs, hab, distance_eq_abs_collinearity hs hab _⟩

/-- **`Distance` is the distance to the line.** For a segment with `A ≠ B`, under the exact
square root, `Distance(C)` is at most the distance from `C` to every point of the line `AB`:
by Lagrange's identity, the cross product of `C - Q` with `B - A` is at most the product of
their lengths. As `GetNearestToPoint(C)` is on the line at distance `Distance(C)`, that is the
least such distance. -/
theorem distance_le_of_collinear (hs : ExactSqrt sqrt) {seg : Segment α} (hab : seg.a ≠ seg.b)
    (C Q : Point α) (hQ : seg.getCollinearity Q = 0) :
    seg.distance sqrt C ≤ C.distance sqrt Q := by
  obtain ⟨hpos, hsq⟩ := Segment.getSize_pos hs hab
  obtain ⟨hD0, hD⟩ : 0 ≤ C.distance sqrt Q ∧ C.distance sqrt Q * C.distance sqrt Q =
      (C.x - Q.x) * (C.x - Q.x) + (C.y - Q.y) * (C.y - Q.y) :=
    hs _ (add_nonneg (mul_self_nonneg _) (mul_self_nonneg _))
  -- `GetCollinearity(C)` is the cross product of `C - Q` with `B - A`
  have hG : seg.getCollinearity C =
      (C.x - Q.x) * (seg.b.y - seg.a.y) - (C.y - Q.y) * (seg.b.x - seg.a.x) := by
    simp only [Segment.getCollinearity] at hQ ⊢
    linear_combination hQ
  rw [Segment.distance_eq_div hs hab, div_le_iff₀ hpos, hG]
  generalize C.distance sqrt Q = D at hD0 hD
  generalize seg.getSize sqrt = L at hpos hsq
  refine abs_le_of_sq_le_sq (sub_nonneg.1 ?_) (mul_nonneg hD0 hpos.le)
  have lagrange : (D * L) ^ 2 -
      ((C.x - Q.x) * (seg.b.y - seg.a.y) - (C.y - Q.y) * (seg.b.x - seg.a.x)) ^ 2 =
        ((C.x - Q.x) * (seg.b.x - seg.a.x) + (C.y - Q.y) * (seg.b.y - seg.a.y)) ^ 2 := by
    linear_combination L * L * hD + ((C.x - Q.x) * (C.x - Q.x) + (C.y - Q.y) * (C.y - Q.y)) * hsq
  exact lagrange ▸ sq_nonneg _

/-- The theorem over the reals, for the diagonal from `(0, 0)` to `(1, 1)`, the point `(1, 0)`
and the point `(2, 2)` of the line beyond the segment. -/
theorem distance_le_of_collinear_diagonal :
    let s : Segment ℝ := ⟨⟨0, 0⟩, ⟨1, 1⟩⟩
    ExactSqrt Real.sqrt ∧ s.a ≠ s.b ∧ s.getCollinearity ⟨2, 2⟩ = 0 ∧
      s.distance Real.sqrt ⟨1, 0⟩ ≤ (⟨1, 0⟩ : Point ℝ).distance Real.sqrt ⟨2, 2⟩ := by
  intro s
  have hs : ExactSqrt Real.sqrt := fun _ hx => ⟨Real.sqrt_nonneg _, Real.mul_self_sqrt hx⟩
  have hab : s.a ≠ s.b := by simp [s]
  have hQ : s.getCollinearity ⟨2, 2⟩ = 0 := by norm_num [s, Segment.getCollinearity]
  exact ⟨hs, hab, hQ, distance_le_of_collinear hs hab _ _ hQ⟩

/-- **`GetNearestToPoint` keeps the points of the line.** For a segment with `A ≠ B`, under the
exact square root, a point `C` on the line `AB` is its own nearest point: the horizontal branch
answers `(C.X, A.Y)`, which is `C`, and otherwise `Distance(C)` is zero. As the nearest point
is on the line, `GetNearestToPoint` applied to its own answer gives it back. -/
theorem getNearestToPoint_of_collinear (hs : ExactSqrt sqrt) {seg : Segment α}
    (hab : seg.a ≠ seg.b) {C : Point α} (hC : seg.getCollinearity C = 0) :
    seg.getNearestToPoint sqrt C = C := by
  have hd := Segment.distance_eq_div hs hab C
  obtain ⟨⟨x₁, y₁⟩, ⟨x₂, y₂⟩⟩ := seg
  obtain ⟨cx, cy⟩ := C
  simp only [Segment.getNearestToPoint]
  split_ifs with ha hd0
  · -- a horizontal line: `C.Y = A.Y`
    obtain rfl : y₂ = y₁ := (sub_eq_zero.1 ha).symm
    have hx : x₂ - x₁ ≠ 0 := fun h => hab (by rw [sub_eq_zero.1 h])
    simp only [Segment.getCollinearity, sub_self, mul_zero, zero_sub, neg_eq_zero, mul_eq_zero,
      hx, or_false, sub_eq_zero] at hC
    rw [hC]
  · rfl
  · rw [hd, hC, abs_zero, zero_div] at hd0
    exact absurd rfl hd0

/-- The theorem over the reals, for the diagonal from `(0, 0)` to `(1, 1)` and the point
`(2, 2)` of its line. -/
theorem getNearestToPoint_of_collinear_diagonal :
    let s : Segment ℝ := ⟨⟨0, 0⟩, ⟨1, 1⟩⟩
    ExactSqrt Real.sqrt ∧ s.a ≠ s.b ∧ s.getCollinearity ⟨2, 2⟩ = 0 ∧
      s.getNearestToPoint Real.sqrt ⟨2, 2⟩ = ⟨2, 2⟩ := by
  intro s
  have hs : ExactSqrt Real.sqrt := fun _ hx => ⟨Real.sqrt_nonneg _, Real.mul_self_sqrt hx⟩
  have hab : s.a ≠ s.b := by simp [s]
  have hC : s.getCollinearity ⟨2, 2⟩ = 0 := by norm_num [s, Segment.getCollinearity]
  exact ⟨hs, hab, hC, getNearestToPoint_of_collinear hs hab hC⟩

/-! ### Moving the segment and the point -/

section Moving

variable (deltaX deltaY : α)

/-- Moving both points by one amount keeps their distance. -/
theorem Point.distance_move (p q : Point α) :
    (p.move deltaX deltaY).distance sqrt (q.move deltaX deltaY) = p.distance sqrt q := by
  simp only [Point.distance, Point.move_x, Point.move_y, add_sub_add_right_eq_sub]

/-- Moving a segment keeps its size. -/
theorem Segment.getSize_move (seg : Segment α) :
    (seg.move deltaX deltaY).getSize sqrt = seg.getSize sqrt :=
  Point.distance_move deltaX deltaY seg.a seg.b

/-- The line formula of `Distance` does not change when segment and point move alike, though
its constant term `B.X A.Y - B.Y A.X` does. -/
theorem Segment.distance_move (seg : Segment α) (point : Point α) :
    (seg.move deltaX deltaY).distance sqrt (point.move deltaX deltaY) = seg.distance sqrt point := by
  simp only [Segment.distance, Segment.getSize_move, Segment.move_a, Point.distance_move]
  congr 3
  simp only [Segment.move_a, Segment.move_b, Point.move_x, Point.move_y]
  ring

end Moving

end SegmentIndex
