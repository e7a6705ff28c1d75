import SegmentIndex.Search
import SegmentIndex.Queue

/-!
# The Nearest Segment

`DistanceToSeries(series, distToRect, distToSegment)` answers a segment of the series of
least `distToSegment`, its index and that distance, or NaN for a series of no segment.
Without an index it scans the segments in order. With one it runs
`qCompressNearbySegment`, a best-first search over the blob: reading a node pushes onto the
priority queue of `queue.go` the first item of least distance among the node's items, as a
segment node, and a rectangle node for each nonempty quadrant, at the distance
`distToRect` gives its bounds; then it pops. A segment node popped is the answer; a
rectangle node popped is the next node read.

The search is correct when `distToRect` bounds `distToSegment` from below on every segment
inside a rectangle (`LowerBound`), the contract the callers of `DistanceToSeries` keep.
Since `cmp` puts a rectangle node before a segment node of equal distance, and segment
nodes of equal distance by index, the segment node popped first is the segment of least
distance with the least index. NaN is the `none` of an `Option`; the two functions take
values in a linear ordered field, which has no NaN.

The proof follows the search with a ghost list of what each node of the queue stands for
(`Entry`): a segment of the series, or a subtree of the index whose bytes lie at the node's
address. Every segment is covered by a node of the queue (`Covered`): by a segment node
ordered before its own, or by a rectangle node of a subtree that holds it. Reading a node
keeps this (`nearbyNode_spec`), and so does a pop (`NearInv.popNode`); the bytes of the
subtrees in the queue shrink at each node read, which bounds the nodes read by the length of
the blob.

## Main results

* `nearbyNode_spec`: reading a node of the blob pushes nodes that cover its segments.
* `nearby_run`: from a covering queue, `qCompressNearbySegment` answers `IsNearest`.
* `distanceToSeries_indexed`: on a series the package makes, with its index built and a
  blob shorter than `2 ^ 32` bytes, `DistanceToSeries` answers `IsNearest`.
* `distanceToSeries_linear`: without an index, `DistanceToSeries` answers the segment of
  `IsNearest` and its distance, but the index `0`: the scan never assigns `idx`.
* `distanceToSeries_clearIndex`: so the indexed search and the scan of the same series agree on
  the segment and the distance, and differ on the index.
* `searches_of_empty`: on an empty series `Search` makes no call and `DistanceToSeries`
  answers `NaN`.
-/

namespace SegmentIndex

variable {α : Type} [LinearOrderedField α]

/-! ### The model -/

/-- `qnode{kind: qseg, dist, a: seg.A, b: seg.B, pos}`. -/
def Qnode.ofSegment (seg : Segment α) (dist : α) (pos : ℤ) : Qnode α :=
  ⟨dist, qseg, pos, seg.a, seg.b⟩

/-- `qnode{kind: qrect, dist, a: rect.Min, b: rect.Max, pos}`. -/
def Qnode.ofRect (rect : Rect α) (dist : α) (pos : ℤ) : Qnode α :=
  ⟨dist, qrect, pos, rect.min, rect.max⟩

/-- The body of the item loop of `qCompressNearbySegment` on the segment `seg` of the item
`pos`: `(nearSeg, nearSet)` becomes its segment node unless one of no greater distance came
before. -/
def nearer (seg : Segment α) (dist : α) (pos : ℤ) (near : Qnode α × Bool) : Qnode α × Bool :=
  if !near.2 || decide (dist < near.1.dist) then (Qnode.ofSegment seg dist pos, true) else near

/-- After a segment is offered, a nearest one is set. -/
@[simp] theorem nearer_snd (seg : Segment α) (dist : α) (pos : ℤ) (near : Qnode α × Bool) :
    (nearer seg dist pos near).2 = true := by
  unfold nearer; split_ifs with h
  · rfl
  · exact (by simpa using h : near.2 = true ∧ _).1

/-- The item loop of `qCompressNearbySegment`: `k` deltas, each added to the previous item
in `uint64`, each item's segment offered to `nearer`. -/
def nearbyItems (data : List UInt8) (series : BaseSeries α) (distToSegment : Segment α → α) :
    ℕ → ℤ → ℕ → Qnode α × Bool → Except Fault ((Qnode α × Bool) × ℤ)
  | 0, addr, _, near => .ok (near, addr)
  | k + 1, addr, last, near => do
    let (item, addr) ← readUvarint data addr
    let item := (item + last) % 2 ^ 64
    let seg ← series.segmentAtInt (toInt item)
    nearbyItems data series distToSegment k addr item
      (nearer seg (distToSegment seg) (toInt item) near)

/-- The quadrant loop of `qCompressNearbySegment` over the quadrants `qs`: an entry `0` is an
empty quadrant; otherwise a rectangle node of the quadrant's bounds, at the address of the
child, is pushed, and the cursor moves on by `int(qsize)`. -/
def nearbyQuads (data : List UInt8) (distToRect : Rect α → α) (bounds : Rect α) :
    List ℕ → ℤ → List (Qnode α) → Except Fault (ℤ × List (Qnode α))
  | [], addr, q => .ok (addr, q)
  | i :: is, addr, q => do
    let (qsize, addr) ← readUvarint data addr
    if qsize = 0 then nearbyQuads data distToRect bounds is addr q
    else
      let qbounds := quadBounds bounds i
      nearbyQuads data distToRect bounds is ((addr + qsize).bmod (2 ^ 64))
        (Queue.push q (Qnode.ofRect qbounds (distToRect qbounds) addr))

/-- The body of `outer_loop` before its inner loop: read the node at `addr`, push the segment
node of its nearest item, and for a split node the rectangle nodes of its nonempty
quadrants. -/
def nearbyNode (data : List UInt8) (series : BaseSeries α) (distToRect : Rect α → α)
    (distToSegment : Segment α → α) (q : List (Qnode α)) (addr : ℤ) (bounds : Rect α) :
    Except Fault (List (Qnode α)) := do
  let (nitems, addr) ← readUvarint data addr
  let ((nearSeg, nearSet), addr) ←
    nearbyItems data series distToSegment nitems addr 0 (Qnode.zero, false)
  let q := if nearSet then Queue.push q nearSeg else q
  let split ← byteAt data addr
  if split = 1 then
    let (_, q) ← nearbyQuads data distToRect bounds [0, 1, 2, 3] (addr + 1) q
    return q
  else return q

/-- The inner loop of `qCompressNearbySegment`: pop until a segment node or a rectangle
node; `none` when the queue runs empty. -/
def popNode (q : List (Qnode α)) : Option (Qnode α) × List (Qnode α) :=
  if _h : (Queue.pop q).2.1 then
    if (Queue.pop q).1.kind = qseg ∨ (Queue.pop q).1.kind = qrect then
      (some (Queue.pop q).1, (Queue.pop q).2.2)
    else popNode (Queue.pop q).2.2
  else (none, (Queue.pop q).2.2)
termination_by q.length
decreasing_by
  have : q.length ≠ 0 := fun h0 => by simp [Queue.pop, h0] at _h
  rw [Queue.length_pop]; omega

/-- Popping an empty queue gives nothing. -/
theorem popNode_nil : popNode ([] : List (Qnode α)) = (none, []) := by rw [popNode]; rfl

/-- `qCompressNearbySegment`, from the node at `addr` with bounds `bounds` and the queue `q`,
with `fuel` bounding the nodes read. -/
def qCompressNearbySegment (data : List UInt8) (series : BaseSeries α)
    (distToRect : Rect α → α) (distToSegment : Segment α → α) :
    ℕ → List (Qnode α) → ℤ → Rect α → Except Fault (Segment α × ℤ × Option α)
  | 0, _, _, _ => throw .outOfFuel
  | fuel + 1, q, addr, bounds => do
    let q ← nearbyNode data series distToRect distToSegment q addr bounds
    match popNode q with
    | (none, _) => return (⟨⟨0, 0⟩, ⟨0, 0⟩⟩, -1, none)
    | (some node, q) =>
      if node.kind = qseg then return (⟨node.a, node.b⟩, node.pos, some node.dist)
      else
        qCompressNearbySegment data series distToRect distToSegment fuel q node.pos
          ⟨node.a, node.b⟩

/-- `x < d` for a float `d` that may be NaN (`none`): a comparison with NaN is false. -/
def ltNaN (x : α) : Option α → Bool
  | some d => decide (x < d)
  | none => false

/-- The loop of `DistanceToSeries` without an index, over the segment indices `is`: `seg` and
`dist` take the first segment of least distance. `idx` is not assigned in it. -/
def nearestLinear (series : BaseSeries α) (distToSegment : Segment α → α) :
    List ℕ → Segment α × Option α → Segment α × Option α
  | [], acc => acc
  | i :: is, acc =>
    let sseg := series.segmentAt i
    let sdist := distToSegment sseg
    if i = 0 ∨ ltNaN sdist acc.2 = true then nearestLinear series distToSegment is (sseg, some sdist)
    else nearestLinear series distToSegment is acc

/-- `DistanceToSeries` of a `baseSeries`: `(seg, idx, dist)`, NaN being `none`. The blob's length
is the fuel: it bounds the nodes read for every blob the builder writes, while on a corrupted
blob a wrapped quadrant size can send the read back to a node already read. -/
def distanceToSeries (series : BaseSeries α) (distToRect : Rect α → α)
    (distToSegment : Segment α → α) : Except Fault (Segment α × ℤ × Option α) :=
  if series.index.length = 0 then
    let (seg, dist) := nearestLinear series distToSegment (List.range series.numSegments)
      (⟨⟨0, 0⟩, ⟨0, 0⟩⟩, none)
    .ok (seg, 0, dist)
  else do
    let data ← loadIndex series.index
    qCompressNearbySegment data series distToRect distToSegment data.length [] 5 series.rect

/-! ### What the search owes -/

/-- The contract of the two distances: a rectangle is no farther than a segment inside it. -/
def LowerBound (distToRect : Rect α → α) (distToSegment : Segment α → α) : Prop :=
  ∀ (B : Rect α) (t : Segment α), B.Contains t.rect → distToRect B ≤ distToSegment t

/-- The answer of a nearest search: `(Segment{}, -1, NaN)` for a series of no segment;
otherwise a segment of least distance, the one of least index among those, with its index
and its distance. -/
def IsNearest (series : BaseSeries α) (distToSegment : Segment α → α)
    (res : Segment α × ℤ × Option α) : Prop :=
  (series.numSegments = 0 ∧ res = (⟨⟨0, 0⟩, ⟨0, 0⟩⟩, -1, none)) ∨
  ∃ i < series.numSegments,
    res = (series.segmentAt i, (i : ℤ), some (distToSegment (series.segmentAt i))) ∧
    ∀ j < series.numSegments, distToSegment (series.segmentAt i) < distToSegment (series.segmentAt j) ∨
      distToSegment (series.segmentAt i) = distToSegment (series.segmentAt j) ∧ i ≤ j

/-- `IsNearest` is decided by its finite checks. -/
instance (series : BaseSeries α) (distToSegment : Segment α → α)
    (res : Segment α × ℤ × Option α) : Decidable (IsNearest series distToSegment res) :=
  inferInstanceAs (Decidable (_ ∨ _))

section Search

variable (s : BaseSeries α) (distToRect : Rect α → α) (distToSegment : Segment α → α)

/-- The segment node the search pushes for the segment `i`. -/
def segNode (i : ℕ) : Qnode α :=
  Qnode.ofSegment (s.segmentAt i) (distToSegment (s.segmentAt i)) i

/-- Segment nodes are ordered by distance, then by index. -/
theorem segNode_le_iff (i j : ℕ) : (segNode s distToSegment i).Le (segNode s distToSegment j) ↔
    distToSegment (s.segmentAt i) < distToSegment (s.segmentAt j) ∨
      distToSegment (s.segmentAt i) = distToSegment (s.segmentAt j) ∧ i ≤ j := by
  simp [segNode, Qnode.ofSegment, Qnode.Le, Qnode.cmp_nonpos_iff]

/-- The item loop over items in ascending order keeps the first item of least distance. -/
theorem foldl_nearer (xs : List ℕ) (hs : xs.Pairwise (· ≤ ·)) :
    let r := xs.foldl (fun near i =>
      nearer (s.segmentAt i) (distToSegment (s.segmentAt i)) i near) (Qnode.zero, false)
    (r.2 = false → xs = []) ∧ (r.2 = true → ∃ i ∈ xs, r.1 = segNode s distToSegment i ∧
      ∀ j ∈ xs, (segNode s distToSegment i).Le (segNode s distToSegment j)) := by
  induction xs using List.reverseRecOn with
  | nil => simp
  | append_singleton xs x ih =>
    rw [List.pairwise_append] at hs
    obtain ⟨h1, h2⟩ := ih hs.1
    simp only [List.foldl_append, List.foldl_cons, List.foldl_nil]
    set r := xs.foldl (fun near i =>
      nearer (s.segmentAt i) (distToSegment (s.segmentAt i)) i near) (Qnode.zero, false)
    cases hr : r.2 with
    | false =>
      obtain rfl := h1 hr
      simp only [nearer, hr, Bool.not_false, Bool.true_or, if_true]
      exact ⟨nofun, fun _ => ⟨x, by simp, rfl, by simpa using Qnode.le_refl _⟩⟩
    | true =>
      obtain ⟨i, hi, hri, hmin⟩ := h2 hr
      have hix : i ≤ x := hs.2.2 i hi x (List.mem_singleton_self x)
      refine ⟨fun h => absurd h (by simp), fun _ => ?_⟩
      · simp only [nearer, hr, Bool.not_true, Bool.false_or, hri]
        by_cases hlt : distToSegment (s.segmentAt x) < (segNode s distToSegment i).dist
        · have hxi : (segNode s distToSegment x).Le (segNode s distToSegment i) :=
            (segNode_le_iff s distToSegment x i).2 (.inl hlt)
          simp only [hlt, decide_True, if_true]
          refine ⟨x, by simp, rfl, fun j hj => ?_⟩
          rcases List.mem_append.1 hj with hj | hj
          · exact Qnode.le_trans hxi (hmin j hj)
          · rw [List.mem_singleton.1 hj]; exact Qnode.le_refl _
        · simp only [hlt, decide_False, Bool.false_eq_true, if_false]
          refine ⟨i, by simp [hi], hri, fun j hj => ?_⟩
          rcases List.mem_append.1 hj with hj | hj
          · exact hmin j hj
          · rw [List.mem_singleton.1 hj, segNode_le_iff]
            exact (lt_or_eq_of_le (not_lt.1 hlt)).imp id fun h => ⟨h, hix⟩

/-- The item loop over the bytes `compress` wrote offers the items to `nearer` in order. -/
theorem nearbyItems_of_drop {data rest : List UInt8} :
    ∀ (items : List ℕ) (a last : ℕ) (near : Qnode α × Bool),
    items.Pairwise (· ≤ ·) → (∀ i ∈ items, last ≤ i ∧ i < 2 ^ 63 ∧ i < s.points.length) →
    data.drop a = compressItems [] last items ++ rest →
    nearbyItems data s distToSegment items.length a last near =
      .ok (items.foldl (fun near i =>
          nearer (s.segmentAt i) (distToSegment (s.segmentAt i)) i near) near,
        ((a + (compressItems [] last items).length : ℕ) : ℤ)) := by
  intro items
  induction items with
  | nil => intro a last near _ _ _; simp [nearbyItems, compressItems]
  | cons x xs ih =>
    intro a last near hs hb hd
    obtain ⟨hlx, hx, hxl⟩ := hb x (List.mem_cons_self x xs)
    obtain ⟨hr, hm, hd'⟩ := readItem_of_drop hlx (by omega) hd
    have hs' := List.pairwise_cons.1 hs
    rw [List.length_cons, nearbyItems, hr, except_ok_bind]
    simp only [hm, toInt_of_lt hx, s.segmentAtInt_of_lt hxl, except_ok_bind, List.foldl_cons,
      compressItems_cons, List.length_append, ← Nat.add_assoc]
    exact ih _ x _ hs'.2 (fun i hi => ⟨hs'.1 i hi, (hb i (List.mem_cons_of_mem x hi)).2⟩) hd'

/-- The quadrant loop over the bytes `compress` wrote pushes, quadrant by quadrant, a
rectangle node for each nonempty child, at the address of the child's bytes. -/
theorem nearbyQuads_of_drop {data rest : List UInt8} (bounds : Rect α) :
    ∀ (qcs : List (ℕ × QNode)) (a : ℕ) (q : List (Qnode α)),
    a + (qcs.map fun qc => appendQuad [] qc.2 (qc.2.compress [])).flatten.length < 2 ^ 63 →
    data.drop a = (qcs.map fun qc => appendQuad [] qc.2 (qc.2.compress [])).flatten ++ rest →
    ∃ (addr : ℤ) (ents : List (Qnode α × QNode)),
      nearbyQuads data distToRect bounds (qcs.map Prod.fst) a q =
        .ok (addr, (ents.map Prod.fst).foldl Queue.push q) ∧
      (∀ ec ∈ ents, ∃ qc ∈ qcs, ec.2 = qc.2 ∧ qc.2 ≠ .nil ∧ ∃ b : ℕ,
        ec.1 = Qnode.ofRect (quadBounds bounds qc.1) (distToRect (quadBounds bounds qc.1)) b ∧
        b + (qc.2.compress []).length < 2 ^ 63 ∧ ∃ rest', data.drop b = qc.2.compress [] ++ rest') ∧
      (∀ qc ∈ qcs, qc.2 ≠ .nil → ∃ ec ∈ ents, ec.2 = qc.2) ∧
      (ents.map fun ec => (ec.2.compress []).length).sum =
        (qcs.map fun qc => (qc.2.compress []).length).sum := by
  intro qcs
  induction qcs with
  | nil =>
    intro a q _ _
    exact ⟨a, [], rfl, fun _ h => absurd h (List.not_mem_nil _),
      fun _ h => absurd h (List.not_mem_nil _), rfl⟩
  | cons qc qcs ih =>
    obtain ⟨k, c⟩ := qc
    intro a q hlen hd
    simp only [List.map_cons, List.flatten_cons, List.append_assoc, List.length_append] at hlen hd
    cases c with
    | nil =>
      rw [appendQuad] at hd hlen
      simp only [List.nil_append, List.length_singleton] at hd hlen
      have h0 : putUvarint 0 = [0] := by rw [putUvarint_of_lt (by norm_num)]; rfl
      obtain ⟨addr, ents, h1, h2, h3, h4⟩ :=
        ih (a + 1) q (by omega) (drop_add_of_drop (l := [0]) hd)
      refine ⟨addr, ents, ?_, fun ec hec => ?_, fun qc hqc hne => ?_, by simpa [QNode.compress] using h4⟩
      · rw [List.map_cons, nearbyQuads, readUvarint_of_drop (x := 0) (by norm_num) (h0 ▸ hd),
          except_ok_bind]
        simpa [h0] using h1
      · obtain ⟨qc, hqc, h⟩ := h2 ec hec
        exact ⟨qc, List.mem_cons_of_mem _ hqc, h⟩
      · rcases List.mem_cons.1 hqc with rfl | hqc
        · exact absurd rfl hne
        · exact h3 qc hqc hne
    | node sp items q0 q1 q2 q3 =>
      set c := QNode.node sp items q0 q1 q2 q3 with hc
      have hpos : 0 < (c.compress []).length := List.length_pos.2 (QNode.compress_ne_nil (by simp))
      rw [show appendQuad [] c (c.compress []) = putUvarint (c.compress []).length ++ c.compress [] by
        rw [hc, appendQuad, appendUvarint_eq_putUvarint, List.nil_append]] at hd hlen
      simp only [List.append_assoc, List.length_append] at hd hlen
      set L := (c.compress []).length
      set m := (putUvarint L).length
      have hd' := drop_add_of_drop hd
      have hb : (((a + m : ℕ) : ℤ) + (L : ℤ)).bmod (2 ^ 64) = ((a + m + L : ℕ) : ℤ) := by
        rw [bmod_of_lt (by omega) (by push_cast; omega)]; push_cast; ring
      set e := Qnode.ofRect (quadBounds bounds k) (distToRect (quadBounds bounds k)) (a + m : ℕ)
      obtain ⟨addr, ents, h1, h2, h3, h4⟩ :=
        ih (a + m + L) (Queue.push q e) (by omega) (drop_add_of_drop hd')
      refine ⟨addr, (e, c) :: ents, ?_, fun ec hec => ?_, fun qc hqc hne => ?_, ?_⟩
      · rw [List.map_cons, nearbyQuads, readUvarint_of_drop (by omega) hd, except_ok_bind]
        simpa only [if_neg hpos.ne', hb] using h1
      · rcases List.mem_cons.1 hec with rfl | hec
        · exact ⟨(k, c), List.mem_cons_self _ _, rfl, by simp [hc], _, rfl,
            show a + m + L < 2 ^ 63 by omega, _, hd'⟩
        · obtain ⟨qc, hqc, h⟩ := h2 ec hec
          exact ⟨qc, List.mem_cons_of_mem _ hqc, h⟩
      · rcases List.mem_cons.1 hqc with rfl | hqc
        · exact ⟨(e, c), List.mem_cons_self _ _, rfl⟩
        · obtain ⟨ec, hec, h⟩ := h3 qc hqc hne
          exact ⟨ec, List.mem_cons_of_mem _ hec, h⟩
      · simp only [List.map_cons, List.sum_cons, h4]

/-! ### The invariant of the search -/

section Invariant

variable (data : List UInt8)

/-- The subtree `c` lies at byte `a` of `data`, with bounds `bounds`: its bytes are there, it
is a subtree of the builder whose segments lie inside the bounds of their nodes, and its
items are segments of the series. -/
structure Subtree (c : QNode) (a : ℕ) (bounds : Rect α) : Prop where
  ne : c ≠ .nil
  valid : ∃ r, c.Valid s (fun b i => b.Contains (s.segmentAt i).rect) bounds r
  lt : ∀ i ∈ c.elems, i < s.numSegments ∧ i < 2 ^ 63
  len : a + (c.compress []).length < 2 ^ 63
  bytes : ∃ rest, data.drop a = c.compress [] ++ rest

/-- A node of the queue and what it stands for: the segment node of a segment of the series,
or the rectangle node of a subtree, at its address and with its bounds. -/
def Entry (e : Qnode α) (c : QNode) : Prop :=
  (∃ i < s.numSegments, e = segNode s distToSegment i ∧ c = .nil) ∨
  ∃ (bounds : Rect α) (a : ℕ),
    e = Qnode.ofRect bounds (distToRect bounds) a ∧ Subtree s data c a bounds

/-- The segment `j` is covered by the nodes of `G`: by a segment node ordered before its own,
or by a rectangle node of a subtree that holds it. -/
def Covered (G : List (Qnode α × QNode)) (j : ℕ) : Prop :=
  ∃ ec ∈ G, ec.1.kind = qseg ∧ ec.1.Le (segNode s distToSegment j) ∨ j ∈ ec.2.elems

/-- The bytes of the subtrees that the nodes of `G` stand for. -/
def pending (G : List (Qnode α × QNode)) : ℕ := (G.map fun ec => (ec.2.compress []).length).sum

/-- A segment covered by `G` stays covered by any `G'` that holds the nodes of `G`. -/
theorem Covered.mono {G G' : List (Qnode α × QNode)} {j : ℕ} (h : Covered s distToSegment G j)
    (hG : ∀ ec ∈ G, ec ∈ G') : Covered s distToSegment G' j :=
  let ⟨ec, hec, hc⟩ := h; ⟨ec, hG ec hec, hc⟩

/-- The segment node the item loop of a node pushes, if any, stands for a segment of the
series, covers every item of the node, and stands for no bytes. -/
theorem nearestItem_entry {items : List ℕ} (hlt : ∀ i ∈ items, i < s.numSegments)
    (q : List (Qnode α)) :
    let near := (sortInts items).foldl (fun near i =>
      nearer (s.segmentAt i) (distToSegment (s.segmentAt i)) i near) (Qnode.zero, false)
    ∃ best : List (Qnode α × QNode),
      (if near.2 then Queue.push q near.1 else q) = (best.map Prod.fst).foldl Queue.push q ∧
      (∀ ec ∈ best, Entry s distToRect distToSegment data ec.1 ec.2) ∧
      (∀ j ∈ items, Covered s distToSegment best j) ∧ pending best = 0 := by
  intro near
  obtain ⟨hnil, hbest⟩ := foldl_nearer s distToSegment (sortInts items) (sortInts_sorted items)
  refine ⟨if near.2 then [(near.1, .nil)] else [], by split_ifs <;> rfl, fun ec hec => ?_,
    fun j hj => ?_, by split_ifs <;> rfl⟩
  · split_ifs at hec with hn
    · obtain ⟨i, hi, he, -⟩ := hbest hn
      rw [List.mem_singleton.1 hec]
      exact .inl ⟨i, hlt i ((sortInts_perm items).mem_iff.1 hi), he, rfl⟩
    · exact absurd hec (List.not_mem_nil _)
  · have hjx : j ∈ sortInts items := (sortInts_perm items).mem_iff.2 hj
    cases hn : near.2 with
    | false => exact absurd (hnil hn ▸ hjx) (List.not_mem_nil _)
    | true =>
      obtain ⟨i, -, he, hmin⟩ := hbest hn
      refine ⟨(near.1, .nil), by simp [hn], .inl ⟨?_, ?_⟩⟩
      · rw [he]; rfl
      · rw [he]; exact hmin j hjx

/-- **Reading a node.** Over the bytes of a subtree, `nearbyNode` pushes nodes that stand for
segments of the series or for its nonempty quadrants, together cover its segments, and
stand for fewer bytes than the subtree's. -/
theorem nearbyNode_spec {c : QNode} {a : ℕ} {bounds : Rect α} (h : Subtree s data c a bounds)
    (q : List (Qnode α)) :
    ∃ ents : List (Qnode α × QNode),
      nearbyNode data s distToRect distToSegment q a bounds =
        .ok ((ents.map Prod.fst).foldl Queue.push q) ∧
      (∀ ec ∈ ents, Entry s distToRect distToSegment data ec.1 ec.2) ∧
      (∀ j ∈ c.elems, Covered s distToSegment ents j) ∧
      pending ents < (c.compress []).length := by
  obtain ⟨hne, ⟨r, hv⟩, hlt, hlen, rest, hd⟩ := h
  cases c with
  | nil => exact absurd rfl hne
  | node sp items q0 q1 q2 q3 =>
  obtain ⟨-, -, hunsplit, v0, v1, v2, v3⟩ := hv
  have hsub : ∀ qc ∈ [(0, q0), (1, q1), (2, q2), (3, q3)], qc.2 ≠ .nil → ∀ b : ℕ,
      b + (qc.2.compress []).length < 2 ^ 63 → (∃ rest', data.drop b = qc.2.compress [] ++ rest') →
      Subtree s data qc.2 b (quadBounds bounds qc.1) := by
    intro qc hqc hne b hl hb
    simp only [List.mem_cons, List.mem_singleton, List.not_mem_nil, or_false] at hqc
    have hel : ∀ i ∈ qc.2.elems, i ∈ (QNode.node sp items q0 q1 q2 q3).elems := fun i hi =>
      @QNode.mem_elems_of_mem_quad _ qc.1 i (by rcases hqc with rfl | rfl | rfl | rfl <;> exact hi)
    refine ⟨hne, ?_, fun i hi => hlt i (hel i hi), hl, hb⟩
    rcases hqc with rfl | rfl | rfl | rfl
    exacts [⟨_, v0⟩, ⟨_, v1⟩, ⟨_, v2⟩, ⟨_, v3⟩]
  -- the items: the segment node of the first of least distance
  rw [QNode.compress_node, List.append_assoc] at hd
  rw [QNode.compress_node] at hlen ⊢
  simp only [List.length_append] at hlen ⊢
  set xs := sortInts items
  have hxs : ∀ i ∈ xs, 0 ≤ i ∧ i < 2 ^ 63 ∧ i < s.points.length := fun i hi => by
    have := hlt i (by simp [QNode.elems, (sortInts_perm items).mem_iff.1 hi])
    have := s.numSegments_le; omega
  have hI := compressItems_length_ge 0 xs
  have hd1 := drop_add_of_drop hd
  rw [List.append_assoc] at hd1
  have hd2 := drop_add_of_drop hd1
  obtain ⟨best, hq1, hbestE, hbestC, hbestP⟩ := nearestItem_entry s distToRect distToSegment data
    (fun i (hi : i ∈ items) => (hlt i (by simp [QNode.elems, hi])).1) q
  rw [nearbyNode, readUvarint_of_drop (by omega) hd, except_ok_bind]
  simp only
  rw [nearbyItems_of_drop s distToSegment xs _ 0 _ (sortInts_sorted items) hxs hd1, except_ok_bind]
  simp only [hq1]
  cases sp with
  | false =>
    obtain ⟨rfl, rfl, rfl, rfl, -⟩ := hunsplit rfl
    simp only [Bool.false_eq_true, if_false, List.singleton_append] at hd2
    rw [byteAt_of_drop hd2]
    have := putUvarint_length_pos xs.length
    refine ⟨best, rfl, hbestE, fun j hj => hbestC j (by simpa [QNode.elems] using hj), by omega⟩
  | true =>
    simp only [if_true, List.append_assoc] at hd2 hlen ⊢
    rw [byteAt_of_drop (b := 1) hd2]
    have hq := drop_add_of_drop (l := [1]) hd2
    rw [List.length_singleton] at hq
    obtain ⟨addr, qents, h1, h2, h3, h4⟩ := nearbyQuads_of_drop distToRect bounds
      [(0, q0), (1, q1), (2, q2), (3, q3)]
      (a + (putUvarint xs.length).length + (compressItems [] 0 xs).length + 1)
      ((best.map Prod.fst).foldl Queue.push q)
      (by simp only [List.map, List.flatten, List.length_append, List.append_nil,
        List.length_cons] at hlen ⊢; omega)
      (by simpa only [List.map, List.flatten, List.append_assoc, List.append_nil] using hq)
    have hchild : ∀ qc ∈ [(0, q0), (1, q1), (2, q2), (3, q3)], ∀ j ∈ qc.2.elems,
        Covered s distToSegment (best ++ qents) j := by
      intro qc hqc j hj
      obtain ⟨ec, hec, he⟩ := h3 qc hqc fun h => by simp [h, QNode.elems] at hj
      exact ⟨ec, List.mem_append_right _ hec, .inr (he ▸ hj)⟩
    refine ⟨best ++ qents, ?_, fun ec hec => ?_, fun j hj => ?_, ?_⟩
    · simp only [show (1 : UInt8).toNat = 1 from rfl, if_true, except_ok_bind]
      simp only [List.map] at h1
      rw [← Nat.cast_succ, h1]
      simp [List.foldl_append]
    · rcases List.mem_append.1 hec with hec | hec
      · exact hbestE ec hec
      · obtain ⟨qc, hqc, he2, hne, b, he1, hl, hb⟩ := h2 ec hec
        exact .inr ⟨_, b, he1, he2 ▸ hsub qc hqc hne b hl hb⟩
    · simp only [QNode.elems, List.mem_append] at hj
      rcases hj with (((hj | hj) | hj) | hj) | hj
      · exact (hbestC j hj).mono s distToSegment fun ec h => List.mem_append_left _ h
      · exact hchild (0, q0) (by simp) j hj
      · exact hchild (1, q1) (by simp) j hj
      · exact hchild (2, q2) (by simp) j hj
      · exact hchild (3, q3) (by simp) j hj
    · have := appendQuad_length_ge q0; have := appendQuad_length_ge q1
      have := appendQuad_length_ge q2; have := appendQuad_length_ge q3
      simp only [pending, List.map_append, List.sum_append] at hbestP h4 ⊢
      rw [hbestP, h4]
      simp only [List.map, List.sum_cons, List.sum_nil, List.length_append, List.length_singleton]
      omega

/-- The state of the search after a node is read: the queue `q` is a heap of the nodes of
`G`, which stand for what `Entry` says and cover every segment of the series. -/
structure NearInv (q : List (Qnode α)) (G : List (Qnode α × QNode)) : Prop where
  heap : IsHeap q
  perm : q.Perm (G.map Prod.fst)
  entry : ∀ ec ∈ G, Entry s distToRect distToSegment data ec.1 ec.2
  covered : ∀ j < s.numSegments, Covered s distToSegment G j

/-- The state of the search at the top of `outer_loop`: the queue `q` as in `NearInv`, and the
subtree `c` about to be read, which covers the segments the queue does not. -/
structure ReadInv (q : List (Qnode α)) (G : List (Qnode α × QNode)) (c : QNode) (a : ℕ)
    (bounds : Rect α) : Prop where
  heap : IsHeap q
  perm : q.Perm (G.map Prod.fst)
  entry : ∀ ec ∈ G, Entry s distToRect distToSegment data ec.1 ec.2
  sub : Subtree s data c a bounds
  covered : ∀ j < s.numSegments, Covered s distToSegment G j ∨ j ∈ c.elems

omit [LinearOrderedField α] in
/-- `pending` adds over appended node lists. -/
theorem pending_append (G G' : List (Qnode α × QNode)) :
    pending (G ++ G') = pending G + pending G' := by
  simp [pending]

/-- Reading a node keeps the invariant, and the bytes still to read shrink. -/
theorem ReadInv.nearbyNode {q : List (Qnode α)} {G : List (Qnode α × QNode)} {c : QNode} {a : ℕ}
    {bounds : Rect α} (h : ReadInv s distToRect distToSegment data q G c a bounds) :
    ∃ q' G', nearbyNode data s distToRect distToSegment q a bounds = .ok q' ∧
      NearInv s distToRect distToSegment data q' G' ∧
      pending G' < pending G + (c.compress []).length := by
  obtain ⟨ents, hrun, hent, hcov, hpend⟩ := nearbyNode_spec s distToRect distToSegment data h.sub q
  obtain ⟨hh, hp⟩ := pushAll_spec h.heap (ents.map Prod.fst)
  refine ⟨_, G ++ ents, hrun, ⟨hh, ?_, fun ec hec => ?_, fun j hj => ?_⟩, ?_⟩
  · rw [List.map_append]; exact hp.trans (h.perm.append_right _)
  · rcases List.mem_append.1 hec with hec | hec
    exacts [h.entry ec hec, hent ec hec]
  · rcases h.covered j hj with hj | hj
    · exact hj.mono s distToSegment fun _ => List.mem_append_left _
    · exact (hcov j hj).mono s distToSegment fun _ => List.mem_append_right _
  · rw [pending_append]; omega

/-- The inner loop pops once from a queue of segment and rectangle nodes. -/
theorem popNode_eq {q : List (Qnode α)} (hq : IsHeap q)
    (hk : ∀ e ∈ q, e.kind = qseg ∨ e.kind = qrect) :
    popNode q = (if (Queue.pop q).2.1 then some (Queue.pop q).1 else none, (Queue.pop q).2.2) := by
  rw [popNode]
  split_ifs with h1 h2
  · rfl
  · have hne : q ≠ [] := fun h => by simp [h, Queue.pop] at h1
    exact absurd (hk _ (((pop_spec hq).1.perm hne).symm.subset (List.mem_cons_self _ _))) h2
  · rfl

/-- A rectangle node comes after a segment node of less distance only: `cmp` puts the
rectangle first on equal distances. -/
theorem dist_lt_of_le_ofRect {x : Qnode α} {bounds : Rect α} {d : α} {a : ℤ} (hx : x.kind = qseg)
    (h : x.Le (Qnode.ofRect bounds d a)) : x.dist < d := by
  simp only [Qnode.Le, Qnode.cmp_nonpos_iff, Qnode.ofRect, hx, qseg, qrect] at h
  rcases h with h | ⟨-, h⟩
  · exact h
  · omega

/-- **What a pop gives.** From the invariant, `popNode` answers `none` only on a series of no
segment; a segment node only for a segment ordered before every other; and otherwise a
rectangle node of a subtree, leaving the state at the top of `outer_loop`. -/
theorem NearInv.popNode {q : List (Qnode α)} {G : List (Qnode α × QNode)}
    (hc : LowerBound distToRect distToSegment) (h : NearInv s distToRect distToSegment data q G) :
    ((popNode q).1 = none ∧ s.numSegments = 0) ∨
    (∃ i < s.numSegments, (popNode q).1 = some (segNode s distToSegment i) ∧
      ∀ j < s.numSegments, (segNode s distToSegment i).Le (segNode s distToSegment j)) ∨
    (∃ (c : QNode) (a : ℕ) (bounds : Rect α) (G' : List (Qnode α × QNode)),
      (popNode q).1 = some (Qnode.ofRect bounds (distToRect bounds) a) ∧
      ReadInv s distToRect distToSegment data (popNode q).2 G' c a bounds ∧
      pending G' + (c.compress []).length = pending G) := by
  have hk : ∀ e ∈ q, e.kind = qseg ∨ e.kind = qrect := by
    intro e he
    obtain ⟨ec, hec, rfl⟩ := List.mem_map.1 (h.perm.subset he)
    rcases h.entry ec hec with ⟨i, -, he, -⟩ | ⟨_, _, he, -⟩ <;> rw [he]
    exacts [.inl rfl, .inr rfl]
  obtain ⟨ps, hheap⟩ := pop_spec h.heap
  rw [popNode_eq h.heap hk]
  by_cases hne : q = []
  · subst hne
    refine .inl ⟨rfl, Nat.eq_zero_of_not_pos fun hN => ?_⟩
    obtain ⟨ec, hec, -⟩ := h.covered 0 hN
    have := h.perm.length_eq
    simp [List.eq_nil_of_length_eq_zero (by simpa using this.symm : G.length = 0)] at hec
  have hok : (Queue.pop q).2.1 = true := by simpa using mt ps.empty.1 hne
  simp only [hok, if_true]
  set x := (Queue.pop q).1
  set rest := (Queue.pop q).2.2
  obtain ⟨ec, hmem, hx⟩ :=
    List.mem_map.1 (h.perm.subset ((ps.perm hne).symm.subset (List.mem_cons_self x rest)))
  obtain ⟨x', c⟩ := ec
  obtain rfl : x' = x := hx
  obtain ⟨G', hG⟩ : ∃ G', G.Perm ((x, c) :: G') := ⟨_, List.perm_cons_erase hmem⟩
  have hG' : ∀ ec ∈ G', ec ∈ G := fun ec hec => hG.symm.subset (List.mem_cons_of_mem _ hec)
  have hrest : rest.Perm (G'.map Prod.fst) :=
    ((ps.perm hne).symm.trans (h.perm.trans (by simpa using hG.map Prod.fst))).cons_inv
  have hcov : ∀ j < s.numSegments, (x.kind = qseg ∧ x.Le (segNode s distToSegment j) ∨ j ∈ c.elems) ∨
      Covered s distToSegment G' j := by
    intro j hj
    obtain ⟨ec, hec, hc'⟩ := h.covered j hj
    rcases List.mem_cons.1 (hG.subset hec) with rfl | hec
    · exact .inl hc'
    · exact .inr ⟨ec, hec, hc'⟩
  rcases h.entry (x, c) hmem with ⟨i, hi, hxi, rfl⟩ | ⟨bounds, a, hxr, hsub⟩
  · -- a segment node: every other segment is covered by a node that comes after it
    have hxi : x = segNode s distToSegment i := hxi
    refine .inr (.inl ⟨i, hi, by rw [← hxi], fun j hj => ?_⟩)
    rw [← hxi]
    rcases hcov j hj with (⟨-, hle⟩ | hj') | ⟨ec, hec, hc'⟩
    · exact hle
    · simp [QNode.elems] at hj'
    · have hy : x.Le ec.1 := ps.least _ (hrest.symm.subset (List.mem_map_of_mem _ hec))
      rcases hc' with ⟨-, hle⟩ | hj'
      · exact Qnode.le_trans hy hle
      · rcases h.entry ec (hG' ec hec) with ⟨_, _, -, hnil⟩ | ⟨B, b, he, hsub'⟩
        · simp [hnil, QNode.elems] at hj'
        · obtain ⟨r, hv⟩ := hsub'.valid
          have hxd := dist_lt_of_le_ofRect (by rw [hxi]; rfl) (he ▸ hy)
          rw [hxi] at hxd ⊢
          exact (segNode_le_iff s distToSegment i j).2 (.inl (lt_of_lt_of_le hxd
            (hc B _ (hv.contains j hj'))))
  · -- a rectangle node: its subtree is read next
    have hxr : x = Qnode.ofRect bounds (distToRect bounds) a := hxr
    refine .inr (.inr ⟨c, a, bounds, G', by rw [← hxr], ⟨hheap, hrest,
      fun ec hec => h.entry ec (hG' ec hec), hsub, fun j hj => ?_⟩, ?_⟩)
    · rcases hcov j hj with (⟨hk', -⟩ | hj') | hc'
      · rw [hxr] at hk'; exact absurd hk' (by simp [Qnode.ofRect, qrect, qseg])
      · exact .inr hj'
      · exact .inl hc'
    · have := (hG.map fun ec => (ec.2.compress []).length).sum_eq
      simp only [List.map_cons, List.sum_cons] at this
      simp only [pending]; omega

/-- **The run of the search.** From the state at the top of `outer_loop`, with fuel for the
bytes still to read, `qCompressNearbySegment` answers `IsNearest`. -/
theorem nearby_run (hc : LowerBound distToRect distToSegment) :
    ∀ (fuel : ℕ) (q : List (Qnode α)) (G : List (Qnode α × QNode)) (c : QNode) (a : ℕ)
      (bounds : Rect α), ReadInv s distToRect distToSegment data q G c a bounds →
    pending G + (c.compress []).length ≤ fuel →
    ∃ res, qCompressNearbySegment data s distToRect distToSegment fuel q a bounds = .ok res ∧
      IsNearest s distToSegment res := by
  intro fuel
  induction fuel with
  | zero =>
    intro q G c a bounds h hf
    have := List.length_pos.2 (QNode.compress_ne_nil h.sub.ne)
    omega
  | succ fuel ih =>
    intro q G c a bounds h hf
    obtain ⟨q', G', hrun, hinv, hpend⟩ := h.nearbyNode
    rw [qCompressNearbySegment, hrun, except_ok_bind]
    rcases hp : popNode q' with ⟨o, q''⟩
    rcases NearInv.popNode s distToRect distToSegment data hc hinv with ⟨hnone, hN⟩ |
      ⟨i, hi, hsome, hmin⟩ | ⟨c', a', B, G'', hsome, hread, hpend'⟩
    · rw [hp] at hnone; subst hnone
      exact ⟨_, rfl, .inl ⟨hN, rfl⟩⟩
    · rw [hp] at hsome; subst hsome
      exact ⟨_, rfl, .inr ⟨i, hi, rfl, fun j hj => (segNode_le_iff s distToSegment i j).1 (hmin j hj)⟩⟩
    · rw [hp] at hsome hread; subst hsome
      have hk : (Qnode.ofRect B (distToRect B) a').kind ≠ qseg := by simp [Qnode.ofRect, qrect, qseg]
      simp only [if_neg hk]
      exact ih q'' G'' c' a' B hread (by omega)

end Invariant

/-! ### `DistanceToSeries` -/

/-- The indexed nearest search on a consistent series answers `IsNearest`. -/
theorem BaseSeries.Consistent.distanceToSeries_nearest {s : BaseSeries α} (h : s.Consistent)
    (hi : s.index ≠ []) (hlen : s.index.length < 2 ^ 32) (distToRect : Rect α → α)
    (distToSegment : Segment α → α) (hc : LowerBound distToRect distToSegment) :
    ∃ res, distanceToSeries s distToRect distToSegment = .ok res ∧ IsNearest s distToSegment res := by
  obtain ⟨hload, hd, hl, hb⟩ := h.index_bytes hi hlen
  have hread : ReadInv s distToRect distToSegment s.index [] [] s.tree 5 s.rect :=
    ⟨isHeap_nil, .nil, nofun, ⟨insertAll_ne_nil _ _ _, ⟨_, h.tree_valid.1⟩,
      fun i hi => ⟨(hb i hi).1, by have := hb i hi; omega⟩,
      show 5 + (s.tree.compress []).length < 2 ^ 63 by omega, _, hd⟩,
      fun j hj => .inr (h.tree_valid.2.mem_iff.2 (List.mem_range.2 hj))⟩
  obtain ⟨res, hrun, hres⟩ := nearby_run s distToRect distToSegment s.index hc s.index.length [] [] s.tree 5
    s.rect hread (by simp [pending]; omega)
  refine ⟨res, ?_, hres⟩
  simp only [distanceToSeries, List.length_eq_zero, hi, if_false, hload, except_ok_bind]
  exact hrun

/-- **The indexed nearest search is correct** (for blobs shorter than `2 ^ 32` bytes). On a
series the package makes, with its index built, and for distances that keep the contract
`LowerBound`, `DistanceToSeries` answers the segment of least distance with the least index
among those, its index and its distance; or `(Segment{}, -1, NaN)` for a series of no
segment. -/
theorem distanceToSeries_indexed {s : BaseSeries α} (hs : Reachable s) (hi : s.index ≠ [])
    (hlen : s.index.length < 2 ^ 32) (distToRect : Rect α → α) (distToSegment : Segment α → α)
    (hc : LowerBound distToRect distToSegment) :
    ∃ res, distanceToSeries s distToRect distToSegment = .ok res ∧ IsNearest s distToSegment res :=
  (reachable_consistent hs).distanceToSeries_nearest hi hlen _ _ hc

end Search

/-- The theorem at the ring `squareRing` with an index whose root is split, with the distance
of a segment's first point below the line `y = 5` and the distance of a rectangle's top below it:
the nearest segment is segment `10`, from `(5, 5)`, found through the queue. -/
theorem distanceToSeries_indexed_squareRing :
    let s : BaseSeries ℚ := makeSeries squareRing true (some ⟨1, 1⟩)
    s.tree.split = true ∧ Reachable s ∧ s.index ≠ [] ∧ s.index.length < 2 ^ 32 ∧
      LowerBound (fun B : Rect ℚ => 5 - B.max.y) (fun seg => 5 - seg.a.y) ∧
      ∃ res, distanceToSeries s (fun B => 5 - B.max.y) (fun seg => 5 - seg.a.y) = .ok res ∧
        IsNearest s (fun seg => 5 - seg.a.y) res :=
  have hc : LowerBound (fun B : Rect ℚ => 5 - B.max.y) (fun seg => 5 - seg.a.y) :=
    fun _ t h => sub_le_sub_left ((by simp : t.a.y ≤ t.rect.max.y).trans h.2.2.2) 5
  ⟨squareRing_index.1, .makeSeries _ _ _, squareRing_index.2.1, squareRing_index.2.2, hc,
    distanceToSeries_indexed (.makeSeries _ _ _) squareRing_index.2.1 squareRing_index.2.2 _ _ hc⟩

/-! ### The scan without an index -/

section Scan

variable (s : BaseSeries α) (distToSegment : Segment α → α)

/-- What the scan of `DistanceToSeries` holds after the first `k` segments: nothing yet, or
the first segment of least distance among them with its distance. -/
def ScanInv (k : ℕ) (acc : Segment α × Option α) : Prop :=
  (k = 0 ∧ acc = (⟨⟨0, 0⟩, ⟨0, 0⟩⟩, none)) ∨
  ∃ i < k, acc = (s.segmentAt i, some (distToSegment (s.segmentAt i))) ∧
    ∀ j < k, (segNode s distToSegment i).Le (segNode s distToSegment j)

/-- One step of the scan, on the segment `k`. -/
theorem ScanInv.step {k : ℕ} {acc : Segment α × Option α} (h : ScanInv s distToSegment k acc) :
    ScanInv s distToSegment (k + 1)
      (if k = 0 ∨ ltNaN (distToSegment (s.segmentAt k)) acc.2 = true then
        (s.segmentAt k, some (distToSegment (s.segmentAt k))) else acc) := by
  rcases h with ⟨rfl, rfl⟩ | ⟨i, hi, rfl, hmin⟩
  · exact .inr ⟨0, Nat.zero_lt_one, by simp, fun j hj => by
      rw [Nat.lt_one_iff.1 hj]; exact Qnode.le_refl _⟩
  · have hk : k ≠ 0 := by omega
    by_cases hlt : distToSegment (s.segmentAt k) < distToSegment (s.segmentAt i)
    · have hki : (segNode s distToSegment k).Le (segNode s distToSegment i) :=
        (segNode_le_iff s distToSegment k i).2 (.inl hlt)
      simp only [hk, false_or, ltNaN, hlt, decide_True, if_true]
      refine .inr ⟨k, Nat.lt_succ_self k, rfl, fun j hj => ?_⟩
      rcases Nat.lt_succ_iff_lt_or_eq.1 hj with hj | rfl
      · exact Qnode.le_trans hki (hmin j hj)
      · exact Qnode.le_refl _
    · simp only [hk, false_or, ltNaN, hlt, decide_False, Bool.false_eq_true, if_false]
      refine .inr ⟨i, by omega, rfl, fun j hj => ?_⟩
      rcases Nat.lt_succ_iff_lt_or_eq.1 hj with hj | rfl
      · exact hmin j hj
      · exact (segNode_le_iff s distToSegment i _).2
          ((lt_or_eq_of_le (not_lt.1 hlt)).imp id fun h => ⟨h, hi.le⟩)

/-- The scan over the segments `k, …, k + n - 1`. -/
theorem ScanInv.run {k : ℕ} {acc : Segment α × Option α} (n : ℕ)
    (h : ScanInv s distToSegment k acc) :
    ScanInv s distToSegment (k + n) (nearestLinear s distToSegment (List.range' k n) acc) := by
  induction n generalizing k acc with
  | zero => exact h
  | succ n ih =>
    rw [List.range'_succ, nearestLinear, ← apply_ite (nearestLinear s distToSegment _),
      show k + (n + 1) = k + 1 + n by omega]
    exact ih h.step

/-- The scan over all the segments ends on the segment and the distance of an answer that
`IsNearest` allows. -/
theorem nearestLinear_spec : ∃ res, IsNearest s distToSegment res ∧
    nearestLinear s distToSegment (List.range s.numSegments) (⟨⟨0, 0⟩, ⟨0, 0⟩⟩, none) =
      (res.1, res.2.2) := by
  have h := ScanInv.run s distToSegment s.numSegments (.inl ⟨rfl, rfl⟩)
  rw [Nat.zero_add, ← List.range_eq_range'] at h
  rcases h with ⟨hN, he⟩ | ⟨i, hi, he, hmin⟩
  · exact ⟨_, .inl ⟨hN, rfl⟩, he⟩
  · exact ⟨_, .inr ⟨i, hi, rfl, fun j hj => (segNode_le_iff s distToSegment i j).1 (hmin j hj)⟩,
      he⟩

end Scan

/-- `IsNearest` allows one answer: segment nodes are ordered by distance, then by index. -/
theorem IsNearest.unique {s : BaseSeries α} {distToSegment : Segment α → α}
    {res res' : Segment α × ℤ × Option α} (h : IsNearest s distToSegment res)
    (h' : IsNearest s distToSegment res') : res = res' := by
  rcases h with ⟨hN, rfl⟩ | ⟨i, hi, rfl, hmin⟩ <;> rcases h' with ⟨hN', rfl⟩ | ⟨j, hj, rfl, hmin'⟩
  · rfl
  · omega
  · omega
  · obtain rfl : i = j := by
      rcases hmin j hj with h1 | ⟨h1, h2⟩ <;> rcases hmin' i hi with h3 | ⟨h3, h4⟩
      · exact absurd (h1.trans h3) (lt_irrefl _)
      · exact absurd h1 (not_lt.2 h3.le)
      · exact absurd h3 (not_lt.2 h1.le)
      · omega
    rfl

/-- **The scan answers index `0`.** Without an index, `DistanceToSeries` answers the segment
and the distance of `IsNearest`, but the index `0` in place of its index: the scan never
assigns `idx`. This holds whatever the distances, with no contract. -/
theorem distanceToSeries_linear {s : BaseSeries α} (hi : s.index = []) (distToRect : Rect α → α)
    (distToSegment : Segment α → α) :
    ∃ res, IsNearest s distToSegment res ∧
      distanceToSeries s distToRect distToSegment = .ok (res.1, 0, res.2.2) := by
  obtain ⟨res, hres, he⟩ := nearestLinear_spec s distToSegment
  simp only [distanceToSeries, hi, List.length_nil, if_true]
  exact ⟨res, hres, by rw [he]⟩

/-- The theorem at three points without an index, the height of a segment's first point as its
distance. -/
theorem distanceToSeries_linear_unindexed :
    let s : BaseSeries ℚ := makeSeries [⟨0, 1⟩, ⟨1, 0⟩, ⟨2, 1⟩] false none
    s.index = [] ∧ ∃ res, IsNearest s (fun seg => seg.a.y) res ∧
      distanceToSeries s (fun B => B.min.y) (fun seg => seg.a.y) = .ok (res.1, 0, res.2.2) :=
  ⟨by decide, distanceToSeries_linear (by decide) _ _⟩

/-- Three points without an index, the height of a segment's first point as its distance and
the bottom of a rectangle as the rectangle's: the nearest segment is segment `1`, and the
scan answers it with the index `0`. -/
theorem distanceToSeries_linear_three :
    let s : BaseSeries ℚ := makeSeries [⟨0, 1⟩, ⟨1, 0⟩, ⟨2, 1⟩] false none
    LowerBound (fun B : Rect ℚ => B.min.y) (fun seg => seg.a.y) ∧ s.index = [] ∧
      distanceToSeries s (fun B => B.min.y) (fun seg => seg.a.y) = .ok (s.segmentAt 1, 0, some 0) ∧
      IsNearest s (fun seg => seg.a.y) (s.segmentAt 1, 1, some 0) ∧
      ¬ IsNearest s (fun seg => seg.a.y) (s.segmentAt 1, 0, some 0) :=
  ⟨fun _ t h => h.2.1.trans (by simp), by decide, rfl, by decide, by decide⟩

/-! ### The two branches -/

/-- **The two branches agree but on the index.** On a series the package makes, with its index
built and a blob shorter than `2 ^ 32` bytes, and for distances that keep `LowerBound`,
`DistanceToSeries` answers the segment and the distance the scan answers once the index is
cleared. The index differs: the indexed search answers the segment's own, or `-1` for a series
of no segment, where the scan answers `0`. -/
theorem distanceToSeries_clearIndex {s : BaseSeries α} (hs : Reachable s) (hi : s.index ≠ [])
    (hlen : s.index.length < 2 ^ 32) (distToRect : Rect α → α) (distToSegment : Segment α → α)
    (hc : LowerBound distToRect distToSegment) :
    ∃ res, IsNearest s distToSegment res ∧ distanceToSeries s distToRect distToSegment = .ok res ∧
      distanceToSeries s.clearIndex distToRect distToSegment = .ok (res.1, 0, res.2.2) := by
  obtain ⟨res, hrun, hres⟩ :=
    (reachable_consistent hs).distanceToSeries_nearest hi hlen distToRect distToSegment hc
  obtain ⟨res', hres', he⟩ := nearestLinear_spec s.clearIndex distToSegment
  have e : res' = res := IsNearest.unique (s := s) hres' hres
  subst e
  refine ⟨res', hres, hrun, ?_⟩
  rw [distanceToSeries, if_pos (show s.clearIndex.index.length = 0 from rfl), he]

/-- The theorem at the ring `squareRing` with an index whose root is split, with the distance
of a segment's first point below the line `y = 5` and the distance of a rectangle's top below
it. -/
theorem distanceToSeries_clearIndex_squareRing :
    let s : BaseSeries ℚ := makeSeries squareRing true (some ⟨1, 1⟩)
    s.tree.split = true ∧ Reachable s ∧ s.index ≠ [] ∧ s.index.length < 2 ^ 32 ∧
      LowerBound (fun B : Rect ℚ => 5 - B.max.y) (fun seg => 5 - seg.a.y) ∧
      ∃ res, IsNearest s (fun seg => 5 - seg.a.y) res ∧
        distanceToSeries s (fun B => 5 - B.max.y) (fun seg => 5 - seg.a.y) = .ok res ∧
        distanceToSeries s.clearIndex (fun B => 5 - B.max.y) (fun seg => 5 - seg.a.y) =
          .ok (res.1, 0, res.2.2) :=
  have hc : LowerBound (fun B : Rect ℚ => 5 - B.max.y) (fun seg => 5 - seg.a.y) :=
    fun _ t h => sub_le_sub_left ((by simp : t.a.y ≤ t.rect.max.y).trans h.2.2.2) 5
  ⟨squareRing_index.1, .makeSeries _ _ _, squareRing_index.2.1, squareRing_index.2.2, hc,
    distanceToSeries_clearIndex (.makeSeries _ _ _) squareRing_index.2.1 squareRing_index.2.2 _ _ hc⟩

/-! ### A series of no segment -/

/-- A node with no items and no quadrants pushes nothing. -/
theorem nearbyNode_leaf {data : List UInt8} {series : BaseSeries α} {distToRect : Rect α → α}
    {distToSegment : Segment α → α} {q : List (Qnode α)} {a a₁ : ℤ} {bounds : Rect α}
    (hr : readUvarint data a = .ok (0, a₁)) (hb : byteAt data a₁ = .ok 0) :
    nearbyNode data series distToRect distToSegment q a bounds = .ok q := by
  rw [nearbyNode, hr, except_ok_bind]
  simp only [nearbyItems, except_ok_bind, hb, Bool.false_eq_true, if_false]
  rfl

/-- **A series of no segment.** On every series the package makes that is `Empty()`, `Search`
makes no call, whatever the query and the callback, and `DistanceToSeries` answers the distance
`NaN`, whatever the distances: with the index `-1` when the series is indexed, and `0` from the
scan when it is not. -/
theorem searches_of_empty {s : BaseSeries α} (hs : Reachable s) (he : s.empty = true)
    (rect : Rect α) (iter : Callback α) (distToRect : Rect α → α) (distToSegment : Segment α → α) :
    s.search rect iter = .ok [] ∧
      distanceToSeries s distToRect distToSegment =
        .ok (⟨⟨0, 0⟩, ⟨0, 0⟩⟩, if s.index = [] then 0 else -1, none) := by
  have h := reachable_consistent hs
  have hn := (BaseSeries.empty_iff s).1 he
  by_cases hi : s.index = []
  · refine ⟨by rw [BaseSeries.search_of_index_eq_nil hi, hn]; rfl, ?_⟩
    simp only [distanceToSeries, hi, List.length_nil, if_true, hn, List.range_zero, nearestLinear]
  rw [if_neg hi]
  -- the blob of the empty root: the header, no items and no quadrants
  have hc : QNode.empty.compress [] = putUvarint 0 ++ [0] := by
    rw [QNode.empty, QNode.compress_node]; rfl
  have h0 : putUvarint 0 = [0] := putUvarint_of_lt (by norm_num)
  have hlen : s.index.length < 2 ^ 32 := by
    obtain ⟨k, hk⟩ := h.index_eq.resolve_left hi
    rw [hk, BaseSeries.blob, setCompressed_compress, BaseSeries.tree_eq_empty hn, hc, h0]
    simp [putUint32]
  obtain ⟨hload, hd, hl, -⟩ := h.index_bytes hi hlen
  rw [BaseSeries.tree_eq_empty hn, hc, List.append_nil] at hd
  rw [BaseSeries.tree_eq_empty hn, hc, h0] at hl
  have hr : readUvarint s.index 5 = .ok (0, ((5 + (putUvarint 0).length : ℕ) : ℤ)) :=
    readUvarint_of_drop (by norm_num) hd
  have hb : byteAt s.index ((5 + (putUvarint 0).length : ℕ) : ℤ) = .ok 0 :=
    byteAt_of_drop (drop_add_of_drop hd)
  refine ⟨by rw [h.search_eq hi hlen, BaseSeries.tree_eq_empty hn, QNode.enum_empty]; rfl, ?_⟩
  simp only [distanceToSeries, List.length_eq_zero, hi, if_false, hload, except_ok_bind]
  rw [show s.index.length = 6 + 1 by rw [hl]; rfl, qCompressNearbySegment,
    nearbyNode_leaf hr hb, except_ok_bind, popNode_nil]
  rfl

/-- The theorem at one point, indexed from one point on. -/
theorem searches_of_empty_point :
    let s : BaseSeries ℚ := makeSeries [⟨0, 0⟩] false (some ⟨1, 1⟩)
    Reachable s ∧ s.empty = true ∧
      s.search ⟨⟨0, 0⟩, ⟨1, 1⟩⟩ (fun _ _ _ => true) = .ok [] ∧
      distanceToSeries s (fun B => B.min.y) (fun seg => seg.a.y) =
        .ok (⟨⟨0, 0⟩, ⟨0, 0⟩⟩, if s.index = [] then 0 else -1, none) :=
  ⟨.makeSeries _ _ _, by decide, searches_of_empty (.makeSeries _ _ _) (by decide) _ _ _ _⟩

end SegmentIndex
