import SegmentIndex.Geom

/-!
# Segment Intersection

`Segment.IntersectsSegment` of `segment.go`: a bounding-box test on each axis, a shortcut for
a shared endpoint, and then the parametric test of the line through `seg` against `other`.
When `other.A` is collinear with `seg`, the segments count as intersecting when `other.A`
lies between the endpoints of `seg` on an axis; otherwise the answer is whether `seg` holds
an endpoint of `other`, through `Raycast(p).On`.

`Raycast` belongs to a file of the package that is not among the sources; `Raycast(p).On` is
modelled as "`p` lies on the closed segment": `p` is collinear with the endpoints and inside
their bounding box.

## Main results

* `intersectsSegment_contained`: the collinear branch misses a segment lying strictly inside
  `other`, so that `IntersectsSegment` is not symmetric.
-/

namespace SegmentIndex

variable {α : Type*} [LinearOrderedField α]

/-- `GetCollinearity`: the cross product of `point - A` with `B - A`, zero when the three
points are collinear. -/
def Segment.getCollinearity (seg : Segment α) (point : Point α) : α :=
  let cmpx := point.x - seg.a.x
  let cmpy := point.y - seg.a.y
  let rx := seg.b.x - seg.a.x
  let ry := seg.b.y - seg.a.y
  cmpx * ry - cmpy * rx

/-- Modelled from the spec: `Raycast(point).On`, which is not among the sources, read as
"`point` lies on the closed segment": collinear with it and inside its bounding box. -/
def Segment.rayOn (seg : Segment α) (point : Point α) : Bool :=
  decide (seg.getCollinearity point = 0) && decide (seg.rect.min.x ≤ point.x) &&
    decide (point.x ≤ seg.rect.max.x) && decide (seg.rect.min.y ≤ point.y) &&
    decide (point.y ≤ seg.rect.max.y)

/-- `CollinearPoint`: `point` is on the line through the segment. -/
def Segment.collinearPoint (seg : Segment α) (point : Point α) : Bool :=
  decide (seg.getCollinearity point = 0)

/-- `ContainsPoint`: `Raycast(point).On`. -/
def Segment.containsPoint (seg : Segment α) (point : Point α) : Bool := seg.rayOn point

/-- `ContainsSegment`: both endpoints of `other` are on the segment, by `Raycast`. -/
def Segment.containsSegment (seg other : Segment α) : Bool := seg.rayOn other.a && seg.rayOn other.b

/-- The bounding-box test of `IntersectsSegment` on one axis, for the coordinates `a`, `b` of
`seg` and `c`, `d` of `other`: the two intervals lie apart. The code writes it once for `Y`
and once for `X`. -/
def axisApart (a b c d : α) : Bool :=
  if a > b then
    if c > d then decide (b > c) || decide (a < d) else decide (b > d) || decide (a < c)
  else if c > d then decide (a > c) || decide (b < d)
  else decide (a > d) || decide (b < c)

/-- `IntersectsSegment`. -/
def Segment.intersectsSegment (seg other : Segment α) : Bool :=
  let a := seg.a
  let b := seg.b
  let c := other.a
  let d := other.b
  if axisApart a.y b.y c.y d.y then false
  else if axisApart a.x b.x c.x d.x then false
  else if seg.a = other.a ∨ seg.a = other.b ∨ seg.b = other.a ∨ seg.b = other.b then true
  else
    let cmpx := c.x - a.x
    let cmpy := c.y - a.y
    let rx := b.x - a.x
    let ry := b.y - a.y
    let cmpxr := cmpx * ry - cmpy * rx
    if cmpxr = 0 then
      if !((decide (c.x - a.x ≤ 0) != decide (c.x - b.x ≤ 0)) ||
          (decide (c.y - a.y ≤ 0) != decide (c.y - b.y ≤ 0))) then
        seg.rayOn other.a || seg.rayOn other.b
      else true
    else
      let sx := d.x - c.x
      let sy := d.y - c.y
      let cmpxs := cmpx * sy - cmpy * sx
      let rxs := rx * sy - ry * sx
      if rxs = 0 then false
      else
        let rxsr := 1 / rxs
        let t := cmpxs * rxsr
        let u := cmpxr * rxsr
        decide (t ≥ 0) && decide (t ≤ 1) && decide (u ≥ 0) && decide (u ≤ 1)

/-- A segment inside another on one line: `(1, 0)–(3, 0)` lies inside `(0, 0)–(4, 0)`, and both
hold `(2, 0)`. Seen from the inner segment, `other.A` is collinear and on the same side of
both its endpoints, so the answer rests on `Raycast`, and neither end of the outer segment
lies on the inner one: `IntersectsSegment` answers `false`, and the other way round `true`. -/
theorem intersectsSegment_contained :
    let s : Segment ℚ := ⟨⟨1, 0⟩, ⟨3, 0⟩⟩
    let t : Segment ℚ := ⟨⟨0, 0⟩, ⟨4, 0⟩⟩
    s.rayOn ⟨2, 0⟩ = true ∧ t.rayOn ⟨2, 0⟩ = true ∧
      s.intersectsSegment t = false ∧ t.intersectsSegment s = true := by
  norm_num [Segment.intersectsSegment, Segment.rayOn, Segment.getCollinearity, axisApart]

end SegmentIndex
