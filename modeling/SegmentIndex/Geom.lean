import Mathlib

/-!
# Points, Rectangles and Segments

The planar primitives of the package: `Point`, `Rect` and `Segment`. Coordinates range over
a linear ordered field `α`. The properties proved in this development are about exact real
arithmetic, and `ℝ` is such a field; `ℚ` is another, on which every definition here runs.

`Rect.IntersectsRect` belongs to a file of the package that is not among the sources; it is
modelled from the specification (§3: closed-interval overlap on both axes). `Rect.Contains`
is not a function of the package but the containment the invariants of the index speak of.

## Main results

* `Rect.contains_segment_rect`: a rectangle that holds both endpoints of a segment holds the
  segment's rectangle.
* `Rect.intersectsRect_of_contains`: a rectangle inside `B` that meets `R` makes `B` meet
  `R`, which is why a quadrant whose bounds miss the query can be skipped.
-/

namespace SegmentIndex

/-- A point of the plane (`Point`). -/
structure Point (α : Type*) where
  x : α
  y : α
  deriving DecidableEq, Repr

/-- A closed axis-aligned rectangle (`Rect`), from corner `min` to corner `max`. -/
structure Rect (α : Type*) where
  min : Point α
  max : Point α
  deriving DecidableEq, Repr

/-- A directed segment from `a` to `b` (`Segment`). -/
structure Segment (α : Type*) where
  a : Point α
  b : Point α
  deriving DecidableEq, Repr

section Order

variable {α : Type*} [LinearOrder α]

/-- The bounding rectangle of a segment (`Segment.Rect`): `min` starts at `a` and `max` at
`b`, and each axis is swapped into order. -/
def Segment.rect (seg : Segment α) : Rect α :=
  { min := ⟨if seg.a.x > seg.b.x then seg.b.x else seg.a.x,
            if seg.a.y > seg.b.y then seg.b.y else seg.a.y⟩
    max := ⟨if seg.a.x > seg.b.x then seg.a.x else seg.b.x,
            if seg.a.y > seg.b.y then seg.a.y else seg.b.y⟩ }

/-- The lower `x` of a segment's rectangle is the lesser endpoint `x`. -/
@[simp] theorem Segment.rect_min_x (seg : Segment α) : seg.rect.min.x = min seg.a.x seg.b.x := by
  rw [min_comm, min_def_lt]; rfl

/-- The lower `y` of a segment's rectangle is the lesser endpoint `y`. -/
@[simp] theorem Segment.rect_min_y (seg : Segment α) : seg.rect.min.y = min seg.a.y seg.b.y := by
  rw [min_comm, min_def_lt]; rfl

/-- The upper `x` of a segment's rectangle is the greater endpoint `x`. -/
@[simp] theorem Segment.rect_max_x (seg : Segment α) : seg.rect.max.x = max seg.a.x seg.b.x := by
  rw [max_comm, max_def_lt]; rfl

/-- The upper `y` of a segment's rectangle is the greater endpoint `y`. -/
@[simp] theorem Segment.rect_max_y (seg : Segment α) : seg.rect.max.y = max seg.a.y seg.b.y := by
  rw [max_comm, max_def_lt]; rfl

/-- Modelled from the spec: `Rect.IntersectsRect`, which is not among the sources; §3 defines
rectangle intersection as the closed-interval overlap on both axes. -/
def Rect.intersectsRect (rect other : Rect α) : Bool :=
  decide (rect.min.x ≤ other.max.x) && decide (other.min.x ≤ rect.max.x) &&
    decide (rect.min.y ≤ other.max.y) && decide (other.min.y ≤ rect.max.y)

/-- `IntersectsRect` as a proposition: the two closed rectangles overlap on both axes. -/
@[simp] theorem Rect.intersectsRect_iff (rect other : Rect α) :
    rect.intersectsRect other = true ↔ rect.min.x ≤ other.max.x ∧ other.min.x ≤ rect.max.x ∧
      rect.min.y ≤ other.max.y ∧ other.min.y ≤ rect.max.y := by
  simp [Rect.intersectsRect, and_assoc]

/-- `outer` contains `inner`: the closed rectangle `inner` lies inside the closed rectangle
`outer`. -/
def Rect.Contains (outer inner : Rect α) : Prop :=
  outer.min.x ≤ inner.min.x ∧ outer.min.y ≤ inner.min.y ∧
    inner.max.x ≤ outer.max.x ∧ inner.max.y ≤ outer.max.y

/-- Containment is decided coordinate by coordinate. -/
instance (outer inner : Rect α) : Decidable (outer.Contains inner) :=
  inferInstanceAs (Decidable (_ ∧ _))

/-- Containment is transitive. -/
theorem Rect.Contains.trans {a b c : Rect α} (hab : a.Contains b) (hbc : b.Contains c) :
    a.Contains c :=
  ⟨hab.1.trans hbc.1, hab.2.1.trans hbc.2.1, hbc.2.2.1.trans hab.2.2.1,
    hbc.2.2.2.trans hab.2.2.2⟩

/-- Pruning is sound: whatever lies inside `outer` and meets `r` makes `outer` meet `r`. -/
theorem Rect.intersectsRect_of_contains {outer inner r : Rect α} (h : outer.Contains inner)
    (hi : inner.intersectsRect r = true) : outer.intersectsRect r = true := by
  simp only [Rect.intersectsRect_iff] at hi ⊢
  obtain ⟨h1, h2, h3, h4⟩ := h
  exact ⟨h1.trans hi.1, hi.2.1.trans h3, h2.trans hi.2.2.1, hi.2.2.2.trans h4⟩

/-- The rectangle of a point: `min = max = p`. -/
def Point.rect (p : Point α) : Rect α := ⟨p, p⟩

/-- The rectangle of a segment lies inside any rectangle that holds both endpoints. -/
theorem Rect.contains_segment_rect {r : Rect α} {seg : Segment α}
    (ha : r.Contains seg.a.rect) (hb : r.Contains seg.b.rect) : r.Contains seg.rect := by
  simp only [Rect.Contains, Point.rect, Segment.rect_min_x, Segment.rect_min_y,
    Segment.rect_max_x, Segment.rect_max_y, le_min_iff, max_le_iff] at *
  tauto

end Order

section Move

variable {α : Type*} [Add α]

/-- `Point.Move`: the point moved by `(deltaX, deltaY)`. -/
def Point.move (point : Point α) (deltaX deltaY : α) : Point α :=
  ⟨point.x + deltaX, point.y + deltaY⟩

/-- `Segment.Move`: both endpoints moved by `(deltaX, deltaY)`. -/
def Segment.move (seg : Segment α) (deltaX deltaY : α) : Segment α :=
  { a := ⟨seg.a.x + deltaX, seg.a.y + deltaY⟩, b := ⟨seg.b.x + deltaX, seg.b.y + deltaY⟩ }

/-- A rectangle with both corners moved by `(deltaX, deltaY)`. Not a function of the sources:
what moving its points does to the rectangle of a series. -/
def Rect.translate (rect : Rect α) (deltaX deltaY : α) : Rect α :=
  ⟨rect.min.move deltaX deltaY, rect.max.move deltaX deltaY⟩

/-- Moving a point adds `deltaX` to its `x`. -/
@[simp] theorem Point.move_x (p : Point α) (deltaX deltaY : α) : (p.move deltaX deltaY).x = p.x + deltaX :=
  rfl

/-- Moving a point adds `deltaY` to its `y`. -/
@[simp] theorem Point.move_y (p : Point α) (deltaX deltaY : α) : (p.move deltaX deltaY).y = p.y + deltaY :=
  rfl

/-- The lower corner of a moved rectangle is its lower corner moved. -/
@[simp] theorem Rect.translate_min (rect : Rect α) (deltaX deltaY : α) :
    (rect.translate deltaX deltaY).min = rect.min.move deltaX deltaY := rfl

/-- The upper corner of a moved rectangle is its upper corner moved. -/
@[simp] theorem Rect.translate_max (rect : Rect α) (deltaX deltaY : α) :
    (rect.translate deltaX deltaY).max = rect.max.move deltaX deltaY := rfl

/-- The first endpoint of a moved segment is its first endpoint moved. -/
@[simp] theorem Segment.move_a (seg : Segment α) (deltaX deltaY : α) :
    (seg.move deltaX deltaY).a = seg.a.move deltaX deltaY := rfl

/-- The second endpoint of a moved segment is its second endpoint moved. -/
@[simp] theorem Segment.move_b (seg : Segment α) (deltaX deltaY : α) :
    (seg.move deltaX deltaY).b = seg.b.move deltaX deltaY := rfl

end Move

section Translate

variable {α : Type*} [LinearOrderedField α] (deltaX deltaY : α)

/-- Moving points is injective. -/
theorem Point.move_injective : Function.Injective fun p : Point α => p.move deltaX deltaY := by
  rintro ⟨x, y⟩ ⟨x', y'⟩ h
  simp only [Point.move, Point.mk.injEq, add_left_inj] at h
  rw [h.1, h.2]

/-- Moving a segment moves its rectangle. -/
theorem Segment.rect_move (seg : Segment α) :
    (seg.move deltaX deltaY).rect = seg.rect.translate deltaX deltaY := by
  simp only [Segment.rect, Segment.move, Rect.translate, Point.move, gt_iff_lt,
    add_lt_add_iff_right]
  split_ifs <;> rfl

end Translate

end SegmentIndex
