import SegmentIndex.Nearest

/-!
# An Index Past Its Header

`setCompressed` stores the length of the blob in bytes `1..4` as `uint32(len(data))`, and
both indexed searches cut the blob to that length (`data[:n:n]`) before they read it. A blob
of `2 ^ 32` bytes or more keeps only its length modulo `2 ^ 32`, and the searches then read
past the end of what they kept.

Such a blob is built here without being evaluated. Every point of the series is the origin,
so every segment and the series itself have the zero rectangle; `chooseQuad` sends the zero
rectangle to quadrant `1` of the zero rectangle, whose bounds are the zero rectangle again.
The first split therefore cascades through all `qMaxDepth` levels, and from then on every
item follows the same path: the tree is a chain of 64 split nodes above one leaf holding all
the items (`insertAll_zero`). Its bytes are counted level by level (`compress_chain_length`),
and for `2 ^ 32 - 645` points the blob is `2 ^ 32 + 5` bytes long: its header says `5`.

## Main results

* `insertAll_zero`: the tree `buildIndex` makes of `n ≥ 13` items with zero rectangles.
* `compress_chain_length`: the size of its bytes.
* `loadIndex_origins`: the searches keep the blob's length modulo `2 ^ 32`.
* `search_origins_overflow`, `distanceToSeries_origins_overflow`: when that length is
  `2 ^ 32 + 5`, both indexed searches fault reading the root node past the five bytes kept.
* `search_header_overflow`, `distanceToSeries_header_overflow`: the series of `2 ^ 32 - 645`
  origins is such a series.
-/

namespace SegmentIndex

open QNode

variable {α : Type} [LinearOrderedField α]

/-! ### The chain -/

/-- `r` split nodes, each with quadrant `1` only, above a leaf holding `items`. -/
def chain (items : List ℕ) : ℕ → QNode
  | 0 => node false items nil nil nil nil
  | r + 1 => node true [] nil (chain items r) nil nil

/-- A chain is already a node. -/
@[simp] theorem chain_orNew (items : List ℕ) (r : ℕ) : (chain items r).orNew = chain items r := by
  cases r <;> rfl

/-- At the zero rectangle `chooseQuad` answers quadrant `1`. -/
@[simp] theorem chooseQuad_zero : chooseQuad (Rect.zero : Rect α) Rect.zero = 1 := by
  simp [chooseQuad, Rect.zero]

/-- Every quadrant of the zero rectangle is the zero rectangle. -/
@[simp] theorem quadBounds_zero (q : ℕ) : quadBounds (Rect.zero : Rect α) q = Rect.zero := by
  unfold quadBounds; split <;> simp [Rect.zero]

/-- The split branch sends an item of zero rectangle under zero bounds to quadrant `1`. -/
theorem insertSplit_zero (ins : QNode → Rect α → Rect α → ℕ → QNode) (s : Bool) (items : List ℕ)
    (q0 q1 q2 q3 : QNode) (item : ℕ) :
    insertSplit ins (node s items q0 q1 q2 q3) Rect.zero Rect.zero item =
      node s items q0 (ins q1.orNew Rect.zero Rect.zero item) q2 q3 := by
  simp [insertSplit, QNode.quad, QNode.setQuad]

section Insert

variable (series : BaseSeries α) (hz : ∀ i, (series.segmentAt i).rect = Rect.zero)
include hz

omit hz in
/-- Below a full node the chain only grows its leaf. -/
theorem insertAux_chain (items : List ℕ) (item : ℕ) (r : ℕ) :
    insertAux series r (chain items r) Rect.zero Rect.zero item = chain (items ++ [item]) r := by
  induction r with
  | zero => rfl
  | succ r ih =>
    simp only [chain, insertAux, QNode.split, if_true, insertSplit_zero, chain_orNew, ih]

omit hz in
/-- A leaf below `qMaxItems` items takes the item in. -/
theorem insertAux_leaf {items : List ℕ} (h : items.length < qMaxItems) (item : ℕ) (r : ℕ) :
    insertAux series r (chain items 0) Rect.zero Rect.zero item = chain (items ++ [item]) 0 := by
  cases r with
  | zero => rfl
  | succ r =>
    simp only [chain, insertAux, QNode.split, QNode.items, Bool.false_eq_true, if_false,
      if_neg h.ne, QNode.pushItem]

/-- The item loop of a split, for items of zero rectangle: they go, in order, into the leaf
that quadrant `1` holds or creates. -/
theorem foldl_insertSplit_zero (r : ℕ) :
    ∀ (is items : List ℕ) (c : QNode), c.orNew = chain items 0 →
      items.length + is.length ≤ qMaxItems →
      ∃ c', is.foldl (fun acc i => insertSplit (insertAux series r) acc Rect.zero
          (series.segmentAt i).rect i) (node true [] nil c nil nil) =
        node true [] nil c' nil nil ∧ c'.orNew = chain (items ++ is) 0
  | [], items, c, hc, _ => ⟨c, rfl, by rw [hc, List.append_nil]⟩
  | i :: is, items, c, hc, hlen => by
    have hlt : items.length < qMaxItems := by simp only [List.length_cons] at hlen; omega
    rw [List.foldl_cons, hz i, insertSplit_zero, hc, insertAux_leaf series hlt]
    simpa using foldl_insertSplit_zero r is (items ++ [i]) _ (chain_orNew _ 0)
      (by simp only [List.length_append, List.length_cons, List.length_nil] at hlen ⊢; omega)

/-- **The first split cascades**: a full leaf `r` levels above the depth limit becomes a
chain of `r` split nodes above a leaf with all its items and the new one. -/
theorem insertAux_full {items : List ℕ} (h : items.length = qMaxItems) (item : ℕ) (r : ℕ) :
    insertAux series r (chain items 0) Rect.zero Rect.zero item = chain (items ++ [item]) r := by
  induction r with
  | zero => rfl
  | succ r ih =>
    obtain ⟨c, hfold, hc⟩ := foldl_insertSplit_zero series hz r items [] nil rfl (by simp [h])
    simp only [chain, insertAux, QNode.split, QNode.items, Bool.false_eq_true, if_false, if_pos h,
      startSplit]
    rw [hfold, insertSplit_zero, hc, List.nil_append, ih]

/-- Up to `qMaxItems` items the root is a leaf holding them. -/
theorem insertAll_le {n : ℕ} (h : n ≤ qMaxItems) :
    insertAll series Rect.zero (List.range n) = chain (List.range n) 0 := by
  induction n with
  | zero => rfl
  | succ n ih =>
    rw [insertAll, List.range_succ, List.foldl_append, ← insertAll, ih (by omega)]
    simp only [List.foldl_cons, List.foldl_nil, QNode.insert, hz]
    exact insertAux_leaf series (by simp; omega) n _

/-- **The tree of `n ≥ 13` items of zero rectangle under zero bounds** is the chain of
`qMaxDepth` split nodes above a leaf with all of them. -/
theorem insertAll_zero {n : ℕ} (h : qMaxItems < n) :
    insertAll series Rect.zero (List.range n) = chain (List.range n) qMaxDepth := by
  induction n, h using Nat.le_induction with
  | base =>
    rw [insertAll, List.range_succ, List.foldl_append, ← insertAll, insertAll_le series hz le_rfl]
    simp only [List.foldl_cons, List.foldl_nil, QNode.insert, hz]
    exact insertAux_full series hz (by simp) _ _
  | succ n _ ih =>
    rw [insertAll, List.range_succ, List.foldl_append, ← insertAll, ih]
    simp only [List.foldl_cons, List.foldl_nil, QNode.insert, hz]
    exact insertAux_chain series _ _ _

end Insert

/-! ### The bytes of the chain -/

/-- A value of at least `2 ^ (7 * k)` takes more than `k` bytes. -/
theorem putUvarint_length_ge (k : ℕ) : ∀ x, 2 ^ (7 * k) ≤ x → k + 1 ≤ (putUvarint x).length := by
  induction k with
  | zero => exact fun x _ => putUvarint_length_pos x
  | succ k ih =>
    intro x hx
    rw [Nat.mul_succ, pow_add] at hx
    have hk := Nat.one_le_two_pow (n := 7 * k)
    rw [putUvarint_of_le (by omega), List.length_cons]
    exact Nat.succ_le_succ (ih _ ((Nat.le_div_iff_mul_le (by norm_num)).2 (by omega)))

/-- A value in `[2 ^ 28, 2 ^ 35)` takes five bytes. -/
theorem putUvarint_length_five {x : ℕ} (h1 : 2 ^ 28 ≤ x) (h2 : x < 2 ^ 35) :
    (putUvarint x).length = 5 :=
  le_antisymm (putUvarint_length_le_of_lt 4 x h2) (putUvarint_length_ge 4 x h1)

/-- Consecutive items take one byte each. -/
theorem compressItems_range'_length :
    ∀ (k s last : ℕ), s - last < 0x80 → (compressItems [] last (List.range' s k)).length = k
  | 0, _, _, _ => rfl
  | k + 1, s, last, h => by
    rw [List.range'_succ, compressItems_cons, List.length_append, putUvarint_of_lt h,
      compressItems_range'_length k (s + 1) s (by omega), List.length_singleton, Nat.add_comm]

/-- The items `0, …, n - 1` are sorted already. -/
theorem sortInts_range (n : ℕ) : sortInts (List.range n) = List.range n :=
  (List.sorted_le_range n).insertionSort_eq

/-- The quadrant entry of a chain is its size and its bytes. -/
theorem appendQuad_chain (items : List ℕ) (r : ℕ) (b : List UInt8) :
    appendQuad [] (chain items r) b = putUvarint b.length ++ b := by
  rw [← List.nil_append (putUvarint _), ← appendUvarint_eq_putUvarint]; cases r <;> rfl

/-- **The size of the chain's bytes**: the leaf's count and its `n` one-byte deltas, and ten
bytes per split node above it, as long as every size takes five bytes. -/
theorem compress_chain_length {n : ℕ} (h1 : 2 ^ 28 ≤ n) (r : ℕ) (h2 : n + 10 * r + 6 < 2 ^ 35) :
    ((chain (List.range n) r).compress []).length = n + 10 * r + 6 := by
  induction r with
  | zero =>
    have hc := compressItems_range'_length n 0 0 (by omega)
    rw [← List.range_eq_range'] at hc
    simp only [chain, compress_node, sortInts_range, List.length_range, List.length_append, hc,
      putUvarint_length_five h1 (by omega), Bool.false_eq_true, if_false, List.length_singleton]
    omega
  | succ r ih =>
    have hnil : ∀ b : List UInt8, appendQuad [] nil b = [0] := fun _ => rfl
    simp only [chain, compress_node, appendQuad_chain, hnil, sortInts, List.insertionSort,
      List.length_append, List.length_nil, compressItems, if_true, ih (by omega),
      putUvarint_length_five (x := n + 10 * r + 6) (by omega) (by omega),
      putUvarint_of_lt (show 0 < 0x80 by decide), List.length_singleton]
    omega

/-! ### The series of origins -/

section Origins

variable (m : ℕ)

/-- Every point of a list of origins is the origin. -/
@[simp] theorem getPoint_origins (i : ℕ) :
    getPoint (List.replicate m (⟨0, 0⟩ : Point α)) i = ⟨0, 0⟩ :=
  by rw [getPoint, List.getD_eq_getElem?_getD, List.getElem?_getD_replicate_default_eq]

/-- Every segment of a series of origins has the zero rectangle. -/
theorem segmentAt_origins {series : BaseSeries α} (h : series.points = List.replicate m ⟨0, 0⟩)
    (i : ℕ) : (series.segmentAt i).rect = Rect.zero := by
  simp only [BaseSeries.segmentAt, h, getPoint_origins, ite_self]
  simp [Segment.rect, Rect.zero]

/-- The rectangle of a list of origins is the zero rectangle. -/
theorem processPoints_origins (closed : Bool) :
    (processPoints (List.replicate m (⟨0, 0⟩ : Point α)) closed).2.1 = Rect.zero := by
  have hexp : expandRect (Rect.zero : Rect α) ⟨0, 0⟩ = Rect.zero := by simp [expandRect, Rect.zero]
  have hpt : (⟨0, 0⟩ : Point α).rect = Rect.zero := rfl
  have hfold : ∀ k, ((List.range k).foldl (processStep (List.replicate m ⟨0, 0⟩))
      (⟨false, 0, Rect.zero, 0⟩ : Sweep α)).rect = Rect.zero := by
    intro k
    induction k with
    | zero => rfl
    | succ k ih =>
      simp only [List.range_succ, List.foldl_append, List.foldl_cons, List.foldl_nil,
        processStep_rect, getPoint_origins, ih, hexp, hpt, ite_self]
  unfold processPoints; split_ifs
  · rfl
  · exact hfold _

/-- The open series of `m ≥ 64` origins with the default options, before its index: the
rectangle is zero and the index kind the default. -/
theorem makeSeries_origins {m : ℕ} (h : 64 ≤ m) :
    makeSeries (List.replicate m (⟨0, 0⟩ : Point α)) false none =
      (⟨false, (processPoints (List.replicate m (⟨0, 0⟩ : Point α)) false).2.2,
        (processPoints (List.replicate m (⟨0, 0⟩ : Point α)) false).1, 1, [], Rect.zero,
        List.replicate m ⟨0, 0⟩⟩ : BaseSeries α).buildIndex := by
  have hr := processPoints_origins (α := α) m false
  rcases hpp : processPoints (List.replicate m (⟨0, 0⟩ : Point α)) false with
    ⟨convex, rect, clockwise⟩
  rw [hpp] at hr
  dsimp only at hr
  subst hr
  simp only [makeSeries, hpp, Option.getD_none, defaultIndexOptions]
  exact if_pos ⟨by decide, by simpa using h⟩

/-- **The blob of the series of origins**: its header holds the length `m + 650` modulo
`2 ^ 32`, in front of the bytes of the chain. -/
theorem index_origins {m : ℕ} (h1 : 2 ^ 28 < m) (h2 : m + 650 < 2 ^ 35) :
    (makeSeries (List.replicate m (⟨0, 0⟩ : Point α)) false none).index =
      [1] ++ putUint32 ((m + 650) % 2 ^ 32) ++
        (chain (List.range (m - 1)) qMaxDepth).compress [] ∧
      ((chain (List.range (m - 1)) qMaxDepth).compress []).length = m + 645 := by
  have hlen : ((chain (List.range (m - 1)) qMaxDepth).compress []).length = m + 645 := by
    rw [compress_chain_length (by omega) qMaxDepth (by simp only [qMaxDepth]; omega)]
    simp only [qMaxDepth]; omega
  rw [makeSeries_origins (by omega)]
  simp only [BaseSeries.buildIndex, ne_eq, not_true_eq_false, if_false, BaseSeries.tree]
  rw [setCompressed_compress, BaseSeries.numSegments]
  simp only [Bool.false_eq_true, if_false, List.length_replicate, if_neg (show ¬ m < 2 by omega)]
  rw [insertAll_zero _ (segmentAt_origins m rfl) (by simp [qMaxItems]; omega)]
  refine ⟨?_, hlen⟩
  rw [hlen, show m + 645 + 5 = m + 650 by omega]

/-- **The searches keep the blob's length modulo `2 ^ 32`**: the index of the series of `m`
origins is `m + 650` bytes long, and `loadIndex` cuts it to `(m + 650) % 2 ^ 32` bytes. -/
theorem loadIndex_origins {m : ℕ} (h1 : 2 ^ 28 < m) (h2 : m + 650 < 2 ^ 35) :
    let s := makeSeries (List.replicate m (⟨0, 0⟩ : Point α)) false none
    s.index.length = m + 650 ∧ loadIndex s.index = .ok (s.index.take ((m + 650) % 2 ^ 32)) := by
  intro s
  obtain ⟨hi, hl⟩ := index_origins (α := α) h1 h2
  have hu : uint32 s.index 1 = .ok ((m + 650) % 2 ^ 32) := by
    have := uint32_putUint32 [1] ((chain (List.range (m - 1)) qMaxDepth).compress [])
      ((m + 650) % 2 ^ 32)
    rwa [List.length_singleton, Nat.cast_one, Nat.mod_mod, ← hi] at this
  have hlen : s.index.length = m + 650 := by rw [hi]; simp [putUint32, hl]
  refine ⟨hlen, ?_⟩
  simp only [loadIndex, hu, except_ok_bind, sliceTo]
  exact if_pos (by rw [hlen]; exact Nat.mod_le _ _)

end Origins

/-! ### Reading past the kept bytes -/

/-- A read at or past the end of the blob faults. -/
theorem readUvarint_of_length_le {data : List UInt8} {addr : ℤ} (h : data.length ≤ addr) :
    readUvarint data addr = .error .outOfRange := by
  have hb : byteAt data addr = .error .outOfRange := by
    unfold byteAt
    split_ifs with h0
    · rw [List.getElem?_eq_none (by omega)]
    · rfl
  simp only [readUvarint, hb]

/-- A series of origins whose blob is `2 ^ 32 + 5` bytes long: its header says `5`. -/
theorem origins_overflow {m : ℕ} (h1 : 2 ^ 28 < m) (h2 : m + 650 = 2 ^ 32 + 5) :
    let s := makeSeries (List.replicate m (⟨0, 0⟩ : Point α)) false none
    s.index.length = 2 ^ 32 + 5 ∧ loadIndex s.index = .ok (s.index.take 5) ∧
      s.numSegments = m - 1 ∧ ∀ i, (s.segmentAt i).rect = Rect.zero := by
  obtain ⟨hlen, hload⟩ := loadIndex_origins (α := α) h1 (by omega)
  obtain ⟨hp, hc⟩ := buildIndex_points (⟨false,
    (processPoints (List.replicate m (⟨0, 0⟩ : Point α)) false).2.2,
    (processPoints (List.replicate m (⟨0, 0⟩ : Point α)) false).1, 1, [], Rect.zero,
    List.replicate m ⟨0, 0⟩⟩ : BaseSeries α)
  rw [← makeSeries_origins (by omega)] at hp hc
  refine ⟨hlen.trans h2, hload.trans (by rw [h2]; rfl), ?_, segmentAt_origins _ hp⟩
  rw [BaseSeries.numSegments, hc, hp, List.length_replicate]
  simp only [Bool.false_eq_true, if_false, if_neg (show ¬ m < 2 by omega)]

/-- `Search` on a series of origins whose blob is `2 ^ 32 + 5` bytes long: it keeps the five
bytes its header names and faults reading the root node at byte `5`. -/
theorem search_origins_overflow {m : ℕ} (h1 : 2 ^ 28 < m) (h2 : m + 650 = 2 ^ 32 + 5) :
    let s := makeSeries (List.replicate m (⟨0, 0⟩ : Point α)) false none
    Reachable s ∧ s.index.length = 2 ^ 32 + 5 ∧ 0 < s.numSegments ∧
      (s.segmentAt 0).rect.intersectsRect Rect.zero = true ∧
      s.search Rect.zero (fun _ _ _ => true) = .error .outOfRange := by
  obtain ⟨hlen, hload, hn, hz⟩ := origins_overflow (α := α) h1 h2
  have h5 : (List.take 5 (makeSeries (List.replicate m (⟨0, 0⟩ : Point α)) false none).index).length
      = 5 := by simp [hlen]
  refine ⟨.makeSeries _ _ _, hlen, by omega, by simp [hz, Rect.zero], ?_⟩
  rw [BaseSeries.search, if_neg (by omega), hload, except_ok_bind, h5, qCompressSearch,
    readUvarint_of_length_le (by rw [h5]; rfl)]
  rfl

/-- `DistanceToSeries` on the same series faults reading the root node at byte `5`. -/
theorem distanceToSeries_origins_overflow {m : ℕ} (h1 : 2 ^ 28 < m) (h2 : m + 650 = 2 ^ 32 + 5)
    (distToRect : Rect α → α) (distToSegment : Segment α → α) :
    let s := makeSeries (List.replicate m (⟨0, 0⟩ : Point α)) false none
    Reachable s ∧ s.index.length = 2 ^ 32 + 5 ∧ 0 < s.numSegments ∧
      distanceToSeries s distToRect distToSegment = .error .outOfRange := by
  obtain ⟨hlen, hload, hn, -⟩ := origins_overflow (α := α) h1 h2
  have h5 : (List.take 5 (makeSeries (List.replicate m (⟨0, 0⟩ : Point α)) false none).index).length
      = 5 := by simp [hlen]
  refine ⟨.makeSeries _ _ _, hlen, by omega, ?_⟩
  rw [distanceToSeries, if_neg (by omega), hload, except_ok_bind, h5, qCompressNearbySegment,
    nearbyNode, readUvarint_of_length_le (by rw [h5]; rfl)]
  rfl

/-- **`Search` past the header.** The open series of `2 ^ 32 - 645` origins with the default
options is indexed, and its first segment meets the zero rectangle; but its blob of
`2 ^ 32 + 5` bytes is cut to the five its header names, and `Search` faults reading the
root node at byte `5`. -/
theorem search_header_overflow :
    let s : BaseSeries ℚ := makeSeries (List.replicate (2 ^ 32 - 645) ⟨0, 0⟩) false none
    Reachable s ∧ s.index.length = 2 ^ 32 + 5 ∧ 0 < s.numSegments ∧
      (s.segmentAt 0).rect.intersectsRect Rect.zero = true ∧
      s.search Rect.zero (fun _ _ _ => true) = .error .outOfRange :=
  search_origins_overflow (by norm_num) (by norm_num)

/-- **`DistanceToSeries` past the header.** On the same series, with distances that meet
the lower-bound contract, `DistanceToSeries` faults reading the root node at byte `5`. -/
theorem distanceToSeries_header_overflow :
    let s : BaseSeries ℚ := makeSeries (List.replicate (2 ^ 32 - 645) ⟨0, 0⟩) false none
    Reachable s ∧ s.index.length = 2 ^ 32 + 5 ∧ 0 < s.numSegments ∧
      LowerBound (fun B : Rect ℚ => B.min.y) (fun seg => seg.a.y) ∧
      distanceToSeries s (fun B => B.min.y) (fun seg => seg.a.y) = .error .outOfRange :=
  let h := distanceToSeries_origins_overflow (α := ℚ) (m := 2 ^ 32 - 645) (by norm_num)
    (by norm_num) (fun B => B.min.y) (fun seg => seg.a.y)
  ⟨h.1, h.2.1, h.2.2.1, fun _ t h => h.2.1.trans (by simp), h.2.2.2⟩

end SegmentIndex
