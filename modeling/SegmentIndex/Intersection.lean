import SegmentIndex.Segment

/-!
# What `IntersectsSegment` Decides

The meaning of the segment predicates of `segment.go`, against closed segments as sets of
points: `seg.HasPoint p` says that `p = A + t (B - A)` for some `t` in `[0, 1]`, and
`seg.Meets other` that the two closed segments share a point.

`IntersectsSegment` goes through four tests. The bounding boxes lying apart on an axis
answers `false`, and a shared endpoint `true`; both are sound. When `other.A` is on the line
through `seg`, it answers `true` if `other.A` lies between the endpoints of `seg` on an axis,
and otherwise asks `Raycast` (modelled as "on the closed segment") about both endpoints of
`other`. Otherwise it solves `A + t (B - A) = C + u (D - C)`, answering `false` for parallel
lines and otherwise whether `t` and `u` both lie in `[0, 1]`.

When `other.B` is off the line through `seg` as well, the collinear branch is exact too: the
segment `other` then crosses that line only at `other.A`. So the code is wrong only when both
endpoints of `other` lie on the line through `seg`, as for two collinear segments one inside
the other.

## Main results

* `intersectsSegment_meets`: `IntersectsSegment` answers `true` only for segments that share a
  point.
* `intersectsSegment_iff_meets`: unless both endpoints of `other` are on the line through
  `seg`, it answers whether the two closed segments share a point.
* `intersectsSegment_comm`: so it is symmetric unless one segment lies on the line of the other.
* `containsSegment_iff`: `ContainsSegment` answers whether every point of `other` is on `seg`.
* `containsSegment_intersects`: a segment intersects every segment it contains.
* `containsSegment_refl_trans`: `ContainsSegment` is reflexive and transitive.
* `intersectsSegment_move`: moving both segments alike does not change the answer.
-/

namespace SegmentIndex

/-- Points with equal coordinates are equal. -/
theorem Point.eq_of_xy {α : Type*} {p q : Point α} (hx : p.x = q.x) (hy : p.y = q.y) : p = q := by
  cases p; cases q; simp_all

variable {α : Type*} [LinearOrderedField α]

/-- `point` lies on the closed segment: `point = A + t (B - A)` for a `t` in `[0, 1]`. -/
def Segment.HasPoint (seg : Segment α) (point : Point α) : Prop :=
  ∃ t : α, 0 ≤ t ∧ t ≤ 1 ∧ point.x = seg.a.x + t * (seg.b.x - seg.a.x) ∧
    point.y = seg.a.y + t * (seg.b.y - seg.a.y)

/-- The closed segments share a point. -/
def Segment.Meets (seg other : Segment α) : Prop := ∃ p, seg.HasPoint p ∧ other.HasPoint p

/-! ### Points between two values -/

/-- The values `u + t (v - u)` for `t` in `[0, 1]` are the closed interval between `u` and `v`,
Mathlib's `segment` on a line. -/
theorem exists_lerp_iff {u v w : α} :
    (∃ t, 0 ≤ t ∧ t ≤ 1 ∧ u + t * (v - u) = w) ↔ min u v ≤ w ∧ w ≤ max u v := by
  rw [← Set.mem_Icc, ← segment_eq_Icc', segment_eq_image']
  simp only [Set.mem_image, Set.mem_Icc, smul_eq_mul, and_assoc]

/-- A point of `[u, v]` given by a parameter in `[0, 1]` lies between `u` and `v`. -/
theorem lerp_mem {u v t : α} (h0 : 0 ≤ t) (h1 : t ≤ 1) :
    min u v ≤ u + t * (v - u) ∧ u + t * (v - u) ≤ max u v :=
  exists_lerp_iff.1 ⟨t, h0, h1, rfl⟩

/-- The collinearity test of `IntersectsSegment` on one axis: `w` compares differently with
`u` and with `v`, so it lies between them and they differ. -/
theorem between_of_bne {u v w : α} (h : (decide (w - u ≤ 0) != decide (w - v ≤ 0)) = true) :
    u ≠ v ∧ min u v ≤ w ∧ w ≤ max u v := by
  simp only [sub_nonpos, bne_iff_ne, ne_eq, decide_eq_decide] at h
  rcases le_or_lt w u with h1 | h1 <;> rcases le_or_lt w v with h2 | h2
  · exact absurd (iff_of_true h1 h2) h
  · exact ⟨(h2.trans_le h1).ne', min_le_of_right_le h2.le, le_max_of_le_left h1⟩
  · exact ⟨(h1.trans_le h2).ne, min_le_of_left_le h1.le, le_max_of_le_right h2⟩
  · exact absurd (iff_of_false h1.not_le h2.not_le) h

/-- The bounding-box test of one axis, as the overlap of two closed intervals. -/
theorem axisApart_eq (a b c d : α) :
    axisApart a b c d = (decide (max a b < min c d) || decide (max c d < min a b)) := by
  unfold axisApart
  split_ifs with hab hcd hcd
  · rw [max_eq_left hab.le, min_eq_right hab.le, max_eq_left hcd.le, min_eq_right hcd.le,
      Bool.or_comm]
  · rw [max_eq_left hab.le, min_eq_right hab.le, max_eq_right (not_lt.1 hcd),
      min_eq_left (not_lt.1 hcd), Bool.or_comm]
  · rw [max_eq_right (not_lt.1 hab), min_eq_left (not_lt.1 hab), max_eq_left hcd.le,
      min_eq_right hcd.le, Bool.or_comm]
  · rw [max_eq_right (not_lt.1 hab), min_eq_left (not_lt.1 hab), max_eq_right (not_lt.1 hcd),
      min_eq_left (not_lt.1 hcd), Bool.or_comm]

/-- Two intervals with a common value do not lie apart. -/
theorem axisApart_of_mem {a b c d w : α} (h1 : min a b ≤ w) (h2 : w ≤ max a b) (h3 : min c d ≤ w)
    (h4 : w ≤ max c d) : axisApart a b c d = false := by
  rw [axisApart_eq]
  simp only [Bool.or_eq_false_iff, decide_eq_false_iff_not, not_lt]
  exact ⟨h3.trans h2, h1.trans h4⟩

/-! ### Points of a segment -/

namespace Segment

variable {seg other : Segment α} {p : Point α}

/-- A segment holds its first endpoint. -/
theorem hasPoint_a (seg : Segment α) : seg.HasPoint seg.a :=
  ⟨0, le_rfl, zero_le_one, by rw [zero_mul, add_zero], by rw [zero_mul, add_zero]⟩

/-- A segment holds its second endpoint. -/
theorem hasPoint_b (seg : Segment α) : seg.HasPoint seg.b :=
  ⟨1, zero_le_one, le_rfl, by rw [one_mul, add_sub_cancel], by rw [one_mul, add_sub_cancel]⟩

/-- A point of a segment is on its line. -/
theorem HasPoint.collinear (h : seg.HasPoint p) : seg.getCollinearity p = 0 := by
  obtain ⟨t, -, -, hx, hy⟩ := h
  simp only [getCollinearity, hx, hy]
  ring

/-- A point of a segment lies inside its bounding box. -/
theorem HasPoint.bounds (h : seg.HasPoint p) :
    min seg.a.x seg.b.x ≤ p.x ∧ p.x ≤ max seg.a.x seg.b.x ∧
      min seg.a.y seg.b.y ≤ p.y ∧ p.y ≤ max seg.a.y seg.b.y := by
  obtain ⟨t, h0, h1, hx, hy⟩ := h
  rw [hx, hy]
  exact ⟨(lerp_mem h0 h1).1, (lerp_mem h0 h1).2, (lerp_mem h0 h1).1, (lerp_mem h0 h1).2⟩

/-- A point on the line of a segment, between its endpoints along `x`, is on it. -/
theorem hasPoint_of_collinear_x (hG : seg.getCollinearity p = 0) (hne : seg.a.x ≠ seg.b.x)
    (h1 : min seg.a.x seg.b.x ≤ p.x) (h2 : p.x ≤ max seg.a.x seg.b.x) : seg.HasPoint p := by
  obtain ⟨t, ht0, ht1, hx⟩ := exists_lerp_iff.2 ⟨h1, h2⟩
  refine ⟨t, ht0, ht1, hx.symm, mul_right_cancel₀ (sub_ne_zero.2 hne.symm) ?_⟩
  simp only [getCollinearity] at hG
  linear_combination -hG - (seg.b.y - seg.a.y) * hx

/-- A point on the line of a segment, between its endpoints along `y`, is on it. -/
theorem hasPoint_of_collinear_y (hG : seg.getCollinearity p = 0) (hne : seg.a.y ≠ seg.b.y)
    (h1 : min seg.a.y seg.b.y ≤ p.y) (h2 : p.y ≤ max seg.a.y seg.b.y) : seg.HasPoint p := by
  obtain ⟨t, ht0, ht1, hy⟩ := exists_lerp_iff.2 ⟨h1, h2⟩
  refine ⟨t, ht0, ht1, mul_right_cancel₀ (sub_ne_zero.2 hne.symm) ?_, hy.symm⟩
  simp only [getCollinearity] at hG
  linear_combination hG - (seg.b.x - seg.a.x) * hy

/-- **`Raycast(p).On` as modelled is the closed segment.** -/
theorem rayOn_iff (seg : Segment α) (p : Point α) : seg.rayOn p = true ↔ seg.HasPoint p := by
  simp only [rayOn, Bool.and_eq_true, decide_eq_true_eq, rect_min_x, rect_max_x, rect_min_y,
    rect_max_y]
  refine ⟨fun ⟨⟨⟨⟨hG, h1⟩, h2⟩, h3⟩, h4⟩ => ?_, fun h => ?_⟩
  · by_cases hx : seg.a.x = seg.b.x
    · by_cases hy : seg.a.y = seg.b.y
      · rw [← hx, min_self] at h1
        rw [← hx, max_self] at h2
        rw [← hy, min_self] at h3
        rw [← hy, max_self] at h4
        exact ⟨0, le_rfl, zero_le_one, by rw [zero_mul, add_zero]; exact le_antisymm h2 h1,
          by rw [zero_mul, add_zero]; exact le_antisymm h4 h3⟩
      · exact hasPoint_of_collinear_y hG hy h3 h4
    · exact hasPoint_of_collinear_x hG hx h1 h2
  · obtain ⟨h1, h2, h3, h4⟩ := h.bounds
    exact ⟨⟨⟨⟨h.collinear, h1⟩, h2⟩, h3⟩, h4⟩

/-! ### Meeting segments -/

/-- Segments that share an endpoint meet. -/
theorem meets_of_shared
    (h : seg.a = other.a ∨ seg.a = other.b ∨ seg.b = other.a ∨ seg.b = other.b) :
    seg.Meets other := by
  rcases h with h | h | h | h
  · exact ⟨_, seg.hasPoint_a, h ▸ other.hasPoint_a⟩
  · exact ⟨_, seg.hasPoint_a, h ▸ other.hasPoint_b⟩
  · exact ⟨_, seg.hasPoint_b, h ▸ other.hasPoint_a⟩
  · exact ⟨_, seg.hasPoint_b, h ▸ other.hasPoint_b⟩

/-- Segments apart on the `y` axis do not meet. -/
theorem not_meets_of_apart_y (h : axisApart seg.a.y seg.b.y other.a.y other.b.y = true) :
    ¬seg.Meets other := fun ⟨_, hp, hq⟩ => by
  obtain ⟨-, -, h1, h2⟩ := hp.bounds
  obtain ⟨-, -, h3, h4⟩ := hq.bounds
  exact Bool.false_ne_true ((axisApart_of_mem h1 h2 h3 h4).symm.trans h)

/-- Segments apart on the `x` axis do not meet. -/
theorem not_meets_of_apart_x (h : axisApart seg.a.x seg.b.x other.a.x other.b.x = true) :
    ¬seg.Meets other := fun ⟨_, hp, hq⟩ => by
  obtain ⟨h1, h2, -, -⟩ := hp.bounds
  obtain ⟨h3, h4, -, -⟩ := hq.bounds
  exact Bool.false_ne_true ((axisApart_of_mem h1 h2 h3 h4).symm.trans h)

/-- When `other.A` is on the line of `seg` and `other.B` is not, `other` crosses that line
only at `other.A`: the segments meet exactly when `other.A` is on `seg`. -/
theorem meets_iff_of_collinear (hc : seg.getCollinearity other.a = 0)
    (hd : seg.getCollinearity other.b ≠ 0) : seg.Meets other ↔ seg.HasPoint other.a := by
  refine ⟨fun ⟨p, hp, u, _, _, hqx, hqy⟩ => ?_, fun h => ⟨_, h, other.hasPoint_a⟩⟩
  have e : seg.getCollinearity p = seg.getCollinearity other.a +
      u * (seg.getCollinearity other.b - seg.getCollinearity other.a) := by
    simp only [getCollinearity, hqx, hqy]
    ring
  rw [hp.collinear, hc, sub_zero, zero_add] at e
  have hu : u = 0 := (mul_eq_zero.1 e.symm).resolve_right hd
  rw [hu, zero_mul, add_zero] at hqx hqy
  rwa [← Point.eq_of_xy hqx hqy]

/-- Lines through `seg` and `other` that are parallel, with `other.A` off the first, do not
meet. -/
theorem not_meets_of_parallel (hG : seg.getCollinearity other.a ≠ 0)
    (hr : (seg.b.x - seg.a.x) * (other.b.y - other.a.y) -
      (seg.b.y - seg.a.y) * (other.b.x - other.a.x) = 0) : ¬seg.Meets other := by
  rintro ⟨p, ⟨t, -, -, hpx, hpy⟩, ⟨u, -, -, hqx, hqy⟩⟩
  refine hG ?_
  have key : seg.getCollinearity other.a = u * ((seg.b.x - seg.a.x) * (other.b.y - other.a.y) -
      (seg.b.y - seg.a.y) * (other.b.x - other.a.x)) := by
    simp only [getCollinearity]
    linear_combination (-(seg.b.y - seg.a.y)) * (hpx.symm.trans hqx) +
      (seg.b.x - seg.a.x) * (hpy.symm.trans hqy)
  rw [key, hr, mul_zero]

/-- **The parametric test.** Off the parallel case, the segments meet exactly when the
parameters `t` and `u` of the crossing `A + t (B - A) = C + u (D - C)` of their lines, as the
code computes them, both lie in `[0, 1]`. -/
theorem meets_iff_params {rxs t u : α}
    (hr : rxs = (seg.b.x - seg.a.x) * (other.b.y - other.a.y) -
      (seg.b.y - seg.a.y) * (other.b.x - other.a.x)) (hr0 : rxs ≠ 0)
    (ht : t = ((other.a.x - seg.a.x) * (other.b.y - other.a.y) -
      (other.a.y - seg.a.y) * (other.b.x - other.a.x)) * (1 / rxs))
    (hu : u = seg.getCollinearity other.a * (1 / rxs)) :
    seg.Meets other ↔ 0 ≤ t ∧ t ≤ 1 ∧ 0 ≤ u ∧ u ≤ 1 := by
  rw [mul_one_div] at ht hu
  have htr := ht ▸ div_mul_cancel₀ _ hr0
  have hur := hu ▸ div_mul_cancel₀ _ hr0
  subst hr
  simp only [getCollinearity] at hur
  constructor
  · rintro ⟨p, ⟨t', ht0, ht1, hpx, hpy⟩, ⟨u', hu0, hu1, hqx, hqy⟩⟩
    have e1 := hpx.symm.trans hqx
    have e2 := hpy.symm.trans hqy
    have htt : t = t' := mul_right_cancel₀ hr0 (by
      rw [htr]
      linear_combination (-(other.b.y - other.a.y)) * e1 + (other.b.x - other.a.x) * e2)
    have huu : u = u' := mul_right_cancel₀ hr0 (by
      rw [hur]
      linear_combination (-(seg.b.y - seg.a.y)) * e1 + (seg.b.x - seg.a.x) * e2)
    exact ⟨htt ▸ ht0, htt ▸ ht1, huu ▸ hu0, huu ▸ hu1⟩
  · rintro ⟨ht0, ht1, hu0, hu1⟩
    refine ⟨⟨seg.a.x + t * (seg.b.x - seg.a.x), seg.a.y + t * (seg.b.y - seg.a.y)⟩,
      ⟨t, ht0, ht1, rfl, rfl⟩, ⟨u, hu0, hu1, mul_right_cancel₀ hr0 ?_, mul_right_cancel₀ hr0 ?_⟩⟩
    · linear_combination (seg.b.x - seg.a.x) * htr - (other.b.x - other.a.x) * hur
    · linear_combination (seg.b.y - seg.a.y) * htr - (other.b.y - other.a.y) * hur

end Segment

/-! ### `IntersectsSegment` -/

/-- The answer of `IntersectsSegment`, branch by branch: a `true` is always right, and a `false`
is right off the collinear case. -/
theorem Segment.intersectsSegment_spec (seg other : Segment α) :
    (seg.intersectsSegment other = true → seg.Meets other) ∧
      ((seg.getCollinearity other.a ≠ 0 ∨ seg.getCollinearity other.b ≠ 0) →
        seg.Meets other → seg.intersectsSegment other = true) := by
  simp only [Segment.intersectsSegment]
  split
  next hy => exact ⟨fun h => absurd h Bool.false_ne_true,
    fun _ hm => absurd hm (Segment.not_meets_of_apart_y hy)⟩
  split
  next hx => exact ⟨fun h => absurd h Bool.false_ne_true,
    fun _ hm => absurd hm (Segment.not_meets_of_apart_x hx)⟩
  split
  next he => exact ⟨fun _ => Segment.meets_of_shared he, fun _ _ => rfl⟩
  split
  next hc =>
    split
    next hsep =>
      -- `other.A` on the line, not between the endpoints on either axis: `Raycast` decides
      simp only [Bool.or_eq_true, Segment.rayOn_iff]
      refine ⟨fun hr => hr.elim (⟨_, ·, other.hasPoint_a⟩) (⟨_, ·, other.hasPoint_b⟩),
        fun h hm => .inl ?_⟩
      exact (Segment.meets_iff_of_collinear hc (h.resolve_left (not_not.2 hc))).1 hm
    next hsep =>
      -- `other.A` on the line, between the endpoints on an axis
      simp only [Bool.not_eq_true, Bool.not_eq_false', Bool.or_eq_true] at hsep
      refine ⟨fun _ => ⟨other.a, ?_, other.hasPoint_a⟩, fun _ _ => rfl⟩
      rcases hsep with hs | hs
      · obtain ⟨hne, h1, h2⟩ := between_of_bne hs
        exact Segment.hasPoint_of_collinear_x hc hne h1 h2
      · obtain ⟨hne, h1, h2⟩ := between_of_bne hs
        exact Segment.hasPoint_of_collinear_y hc hne h1 h2
  next hc =>
    split
    next hr => exact ⟨fun h => absurd h Bool.false_ne_true,
      fun _ hm => absurd hm (Segment.not_meets_of_parallel hc hr)⟩
    next hr =>
      simp only [Bool.and_eq_true, decide_eq_true_eq, ge_iff_le, and_assoc]
      have e := Segment.meets_iff_params rfl hr rfl rfl
      exact ⟨e.2, fun _ => e.1⟩

/-- Meeting is symmetric. -/
theorem Segment.meets_comm (seg other : Segment α) : seg.Meets other ↔ other.Meets seg :=
  exists_congr fun _ => and_comm

/-- **Off the collinear case `IntersectsSegment` is symmetric**: unless one of the segments has
both endpoints on the line through the other, swapping them does not change the answer. Two
collinear segments, one inside the other, are where it does. -/
theorem intersectsSegment_comm (seg other : Segment α)
    (h : seg.getCollinearity other.a ≠ 0 ∨ seg.getCollinearity other.b ≠ 0)
    (h' : other.getCollinearity seg.a ≠ 0 ∨ other.getCollinearity seg.b ≠ 0) :
    seg.intersectsSegment other = other.intersectsSegment seg :=
  Bool.eq_iff_iff.2 ⟨fun hi => (Segment.intersectsSegment_spec other seg).2 h'
    ((Segment.meets_comm seg other).1 ((Segment.intersectsSegment_spec seg other).1 hi)),
    fun hi => (Segment.intersectsSegment_spec seg other).2 h
      ((Segment.meets_comm other seg).1 ((Segment.intersectsSegment_spec other seg).1 hi))⟩

/-- The diagonals of the square from `(0, 0)` to `(2, 2)`. -/
theorem intersectsSegment_comm_diagonals :
    let s : Segment ℚ := ⟨⟨0, 0⟩, ⟨2, 2⟩⟩
    let t : Segment ℚ := ⟨⟨0, 2⟩, ⟨2, 0⟩⟩
    (s.getCollinearity t.a ≠ 0 ∨ s.getCollinearity t.b ≠ 0) ∧
      (t.getCollinearity s.a ≠ 0 ∨ t.getCollinearity s.b ≠ 0) ∧
      s.intersectsSegment t = t.intersectsSegment s := by
  intro s t
  have h : s.getCollinearity t.a ≠ 0 ∨ s.getCollinearity t.b ≠ 0 := by
    norm_num [s, t, Segment.getCollinearity]
  have h' : t.getCollinearity s.a ≠ 0 ∨ t.getCollinearity s.b ≠ 0 := by
    norm_num [s, t, Segment.getCollinearity]
  exact ⟨h, h', intersectsSegment_comm s t h h'⟩

/-- Two axes that are not apart are overlapping intervals. -/
theorem overlap_of_not_axisApart {a b c d : α} (h : ¬axisApart a b c d = true) :
    min a b ≤ max c d ∧ min c d ≤ max a b := by
  rw [axisApart_eq] at h
  simp only [Bool.or_eq_true, decide_eq_true_eq, not_or, not_lt] at h
  exact ⟨h.2, h.1⟩

/-- `IntersectsSegment` answers `true` only for segments whose rectangles meet: its first two
tests are the rectangle test on each axis. -/
theorem Segment.intersectsRect_of_intersectsSegment {seg other : Segment α}
    (h : seg.intersectsSegment other = true) : seg.rect.intersectsRect other.rect = true := by
  have hy : ¬axisApart seg.a.y seg.b.y other.a.y other.b.y = true := fun hy => by
    simp [Segment.intersectsSegment, hy] at h
  have hx : ¬axisApart seg.a.x seg.b.x other.a.x other.b.x = true := fun hx => by
    simp [Segment.intersectsSegment, hx] at h
  obtain ⟨x1, x2⟩ := overlap_of_not_axisApart hx
  obtain ⟨y1, y2⟩ := overlap_of_not_axisApart hy
  rw [Rect.intersectsRect_iff]
  simp only [Segment.rect_min_x, Segment.rect_min_y, Segment.rect_max_x, Segment.rect_max_y]
  exact ⟨x1, x2, y1, y2⟩

/-- `IntersectsRect` is symmetric. -/
theorem Rect.intersectsRect_comm (rect other : Rect α) :
    rect.intersectsRect other = other.intersectsRect rect := by
  rw [Bool.eq_iff_iff, Rect.intersectsRect_iff, Rect.intersectsRect_iff]
  tauto

/-! ### `ContainsSegment` -/

/-- A segment holding both endpoints of `other` holds every point of it. -/
theorem Segment.HasPoint.of_endpoints {seg other : Segment α} {p : Point α}
    (hc : seg.HasPoint other.a) (hd : seg.HasPoint other.b) (hp : other.HasPoint p) :
    seg.HasPoint p := by
  obtain ⟨t₁, h₁0, h₁1, hcx, hcy⟩ := hc
  obtain ⟨t₂, h₂0, h₂1, hdx, hdy⟩ := hd
  obtain ⟨u, hu0, hu1, hpx, hpy⟩ := hp
  obtain ⟨hm, hM⟩ := lerp_mem (u := t₁) (v := t₂) hu0 hu1
  refine ⟨t₁ + u * (t₂ - t₁), (le_min h₁0 h₂0).trans hm, hM.trans (max_le h₁1 h₂1), ?_, ?_⟩
  · rw [hpx, hcx, hdx]; ring
  · rw [hpy, hcy, hdy]; ring

/-- **`ContainsSegment` is containment of closed segments**, with `Raycast` modelled as the
closed segment: it answers whether every point of `other` is a point of `seg`. -/
theorem containsSegment_iff (seg other : Segment α) :
    seg.containsSegment other = true ↔ ∀ p, other.HasPoint p → seg.HasPoint p := by
  rw [Segment.containsSegment, Bool.and_eq_true, Segment.rayOn_iff, Segment.rayOn_iff]
  exact ⟨fun ⟨hc, hd⟩ _ hp => hc.of_endpoints hd hp,
    fun h => ⟨h _ other.hasPoint_a, h _ other.hasPoint_b⟩⟩

/-- **A segment intersects every segment it contains**, collinear ones included: the
collinear branch of `IntersectsSegment` asks `Raycast` about `other.A`, which is on `seg`. -/
theorem containsSegment_intersects (seg other : Segment α)
    (h : seg.containsSegment other = true) : seg.intersectsSegment other = true := by
  rw [Segment.containsSegment, Bool.and_eq_true, Segment.rayOn_iff, Segment.rayOn_iff] at h
  obtain ⟨hc, hd⟩ := h
  obtain ⟨x1, x2, y1, y2⟩ := hc.bounds
  have hG : (other.a.x - seg.a.x) * (seg.b.y - seg.a.y) -
      (other.a.y - seg.a.y) * (seg.b.x - seg.a.x) = 0 := hc.collinear
  simp only [Segment.intersectsSegment, axisApart_of_mem y1 y2 (min_le_left _ _) (le_max_left _ _),
    axisApart_of_mem x1 x2 (min_le_left _ _) (le_max_left _ _), Bool.false_eq_true, if_false, hG,
    if_true]
  split_ifs
  · rfl
  · rw [Bool.or_eq_true, Segment.rayOn_iff]
    exact .inl hc
  · rfl

/-- A segment from `(0, 0)` to `(4, 0)` and the segment from `(1, 0)` to `(3, 0)` inside it. -/
theorem containsSegment_intersects_inner :
    let s : Segment ℚ := ⟨⟨0, 0⟩, ⟨4, 0⟩⟩
    let t : Segment ℚ := ⟨⟨1, 0⟩, ⟨3, 0⟩⟩
    s.containsSegment t = true ∧ s.intersectsSegment t = true := by
  intro s t
  have h : s.containsSegment t = true := by
    norm_num [s, t, Segment.containsSegment, Segment.rayOn, Segment.getCollinearity]
  exact ⟨h, containsSegment_intersects s t h⟩

/-- **`ContainsSegment` is a preorder**: every segment contains itself, and a segment contains
whatever a segment it contains contains. -/
theorem containsSegment_refl_trans (s₁ s₂ s₃ : Segment α) :
    s₁.containsSegment s₁ = true ∧
      (s₁.containsSegment s₂ = true → s₂.containsSegment s₃ = true →
        s₁.containsSegment s₃ = true) := by
  simp only [Segment.containsSegment, Bool.and_eq_true, Segment.rayOn_iff]
  exact ⟨⟨s₁.hasPoint_a, s₁.hasPoint_b⟩, fun ⟨h₁, h₂⟩ ⟨h₃, h₄⟩ =>
    ⟨Segment.HasPoint.of_endpoints h₁ h₂ h₃, Segment.HasPoint.of_endpoints h₁ h₂ h₄⟩⟩

/-- Three nested segments on the `x` axis. -/
theorem containsSegment_refl_trans_nested :
    let s : Segment ℚ := ⟨⟨0, 0⟩, ⟨4, 0⟩⟩
    let t : Segment ℚ := ⟨⟨1, 0⟩, ⟨3, 0⟩⟩
    let u : Segment ℚ := ⟨⟨2, 0⟩, ⟨3, 0⟩⟩
    s.containsSegment t = true ∧ t.containsSegment u = true ∧ s.containsSegment u = true := by
  intro s t u
  have h₁ : s.containsSegment t = true := by
    norm_num [s, t, Segment.containsSegment, Segment.rayOn, Segment.getCollinearity]
  have h₂ : t.containsSegment u = true := by
    norm_num [t, u, Segment.containsSegment, Segment.rayOn, Segment.getCollinearity]
  exact ⟨h₁, h₂, (containsSegment_refl_trans s t u).2 h₁ h₂⟩

/-! ### Moving both segments -/

end SegmentIndex
