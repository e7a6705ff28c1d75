import SegmentIndex.QTree.Compress

/-!
# Building the Index

`buildIndex` inserts the segments of a series into a quadtree over the series rectangle,
compresses it behind five header bytes (the index kind and four bytes for the length), and
`setCompressed` writes the length of the blob into bytes `1..4`, little-endian. The searches
read that length back and slice the blob to it (`loadIndex`).

The series the package makes (`makeSeries`, `Move`, and `clearIndex` and `buildIndex` on
them) are the `Reachable` ones. Each of them is `Consistent`: its rectangle is the one
`processPoints` computes from its points, and its index is absent or the blob of its own
segments (`reachable_consistent`). Go tells a `nil` index from an empty one; every blob
`setCompressed` makes is nonempty, so the empty list stands for `nil` here.

## Main results

* `compress_roundtrip`: the blob of any tree the builder reaches decodes, under the
  reading discipline of the searches, back to the tree with its item lists sorted, consuming
  exactly its bytes; and the length in its header is its length.
* `reachable_consistent`: every series the package makes is consistent.
-/

namespace SegmentIndex

/-! ### The header -/

/-- `binary.LittleEndian.PutUint32`: the four bytes of `v`, least significant first. -/
def putUint32 (v : ℕ) : List UInt8 :=
  [UInt8.ofNat v, UInt8.ofNat (v >>> 8), UInt8.ofNat (v >>> 16), UInt8.ofNat (v >>> 24)]

/-- `binary.LittleEndian.Uint32(data[addr:])`. -/
def uint32 (data : List UInt8) (addr : ℤ) : Except Fault ℕ := do
  let b0 ← byteAt data addr
  let b1 ← byteAt data (addr + 1)
  let b2 ← byteAt data (addr + 2)
  let b3 ← byteAt data (addr + 3)
  return b0 ||| b1 <<< 8 ||| b2 <<< 16 ||| b3 <<< 24

/-- `data[:n:n]`: Go panics when `n` passes the capacity, here the length. -/
def sliceTo (data : List UInt8) (n : ℕ) : Except Fault (List UInt8) :=
  if n ≤ data.length then .ok (data.take n) else .error .outOfRange

/-- The first two lines of the indexed branches of `Search` and `DistanceToSeries`:
`n := binary.LittleEndian.Uint32(data[1:])` and `data = data[:n:n]`. -/
def loadIndex (index : List UInt8) : Except Fault (List UInt8) := do
  let n ← uint32 index 1
  sliceTo index n

/-- Or-ing a value below `2 ^ k` with one shifted left by `k` adds them. -/
theorem lor_shiftLeft_of_lt {x y k : ℕ} (h : x < 2 ^ k) : x ||| y <<< k = x + y * 2 ^ k := by
  rw [Nat.shiftLeft_eq, Nat.lor_comm, mul_comm, ← Nat.mul_add_lt_is_or h, Nat.add_comm]

/-- Reading past a prefix reads the rest. -/
theorem byteAt_append_add (pre l : List UInt8) (i : ℕ) (b : UInt8) (rest : List UInt8)
    (h : l.drop i = b :: rest) : byteAt (pre ++ l) (pre.length + i : ℤ) = .ok b.toNat := by
  rw [← Nat.cast_add]; exact byteAt_of_drop (by rw [List.drop_append, h])

/-- The four bytes `putUint32` writes read back as `v` modulo `2 ^ 32`. -/
theorem uint32_putUint32 (pre rest : List UInt8) (v : ℕ) :
    uint32 (pre ++ putUint32 v ++ rest) pre.length = .ok (v % 2 ^ 32) := by
  rw [List.append_assoc]
  have h0 := byteAt_append_add pre (putUint32 v ++ rest) 0 _ _ rfl
  have h1 := byteAt_append_add pre (putUint32 v ++ rest) 1 _ _ rfl
  have h2 := byteAt_append_add pre (putUint32 v ++ rest) 2 _ _ rfl
  have h3 := byteAt_append_add pre (putUint32 v ++ rest) 3 _ _ rfl
  simp only [Nat.cast_zero, add_zero, Nat.cast_one, Nat.cast_ofNat] at h0 h1 h2 h3
  simp only [uint32, h0, h1, h2, h3, except_ok_bind, except_pure_eq, UInt8.toNat_ofNat_eq]
  simp only [Nat.shiftRight_eq_div_pow]
  simp (disch := omega) only [lor_shiftLeft_of_lt, Except.ok.injEq]
  omega

variable {α : Type*} [LinearOrderedField α]

/-! ### Building -/

/-- `setCompressed`: `binary.LittleEndian.PutUint32(data[1:], uint32(len(data)))`, written over
the four length bytes of the header `buildIndex` starts the blob with, and the blob becomes
the index. -/
def BaseSeries.setCompressed (series : BaseSeries α) (data : List UInt8) : BaseSeries α :=
  { series with index := data.take 1 ++ putUint32 (data.length % 2 ^ 32) ++ data.drop 5 }

/-- The tree `buildIndex` builds: segment `i` inserted with its rectangle under the series
rectangle, for `i` from `0` to `NumSegments() - 1`. -/
def BaseSeries.tree (series : BaseSeries α) : QNode :=
  insertAll series series.rect (List.range series.numSegments)

/-- A series of no segment has the empty root for its tree. -/
theorem BaseSeries.tree_eq_empty {series : BaseSeries α} (h : series.numSegments = 0) :
    series.tree = QNode.empty := by
  simp only [BaseSeries.tree, h, List.range_zero, insertAll, List.foldl_nil]

/-- `buildIndex`: nothing when an index is there, else the compressed tree behind the header
`[indexKind, 0, 0, 0, 0]`. -/
def BaseSeries.buildIndex (series : BaseSeries α) : BaseSeries α :=
  if series.index ≠ [] then series
  else series.setCompressed (series.tree.compress [series.indexKind, 0, 0, 0, 0])

/-- `buildIndex` changes the index only. -/
theorem buildIndex_points (series : BaseSeries α) :
    series.buildIndex.points = series.points ∧ series.buildIndex.closed = series.closed := by
  unfold BaseSeries.buildIndex BaseSeries.setCompressed; split_ifs <;> exact ⟨rfl, rfl⟩

/-- After `buildIndex` a series has an index: the one it had, or a blob with its header. -/
theorem BaseSeries.buildIndex_index_ne_nil (series : BaseSeries α) :
    series.buildIndex.index ≠ [] := by
  unfold BaseSeries.buildIndex
  split_ifs with h
  · exact h
  · simp [setCompressed, putUint32]

/-- `makeSeries`, with `nil` options as `none`. Copying the points or not makes no difference
to the values. -/
def makeSeries (points : List (Point α)) (closed : Bool) (opts : Option IndexOptions) :
    BaseSeries α :=
  let opts := opts.getD defaultIndexOptions
  let (convex, rect, clockwise) := processPoints points closed
  let series : BaseSeries α := ⟨closed, clockwise, convex, 0, [], rect, points⟩
  if opts.minPoints ≠ 0 ∧ opts.minPoints ≤ points.length then
    { series with indexKind := opts.kind }.buildIndex
  else series

/-- `Move`: the points shifted, a new series made with the default options, given the old
index kind, and indexed when the old one was. -/
def BaseSeries.move (series : BaseSeries α) (deltaX deltaY : α) : BaseSeries α :=
  let points := series.points.map fun p => ⟨p.x + deltaX, p.y + deltaY⟩
  let nseries := { makeSeries points series.closed none with indexKind := series.indexKind }
  if 0 < series.index.length then nseries.buildIndex else nseries

/-- `clearIndex`. -/
def BaseSeries.clearIndex (series : BaseSeries α) : BaseSeries α := { series with index := [] }

/-- The blob `buildIndex` makes for a series, with `kind` in its first byte. -/
def BaseSeries.blob (series : BaseSeries α) (kind : UInt8) : List UInt8 :=
  (series.setCompressed (series.tree.compress [kind, 0, 0, 0, 0])).index

/-- What holds of every series the package makes: its rectangle is the one `processPoints`
computes, and its index is absent or the blob of its own segments. -/
structure BaseSeries.Consistent (series : BaseSeries α) : Prop where
  rect_eq : series.rect = (processPoints series.points series.closed).2.1
  index_eq : series.index = [] ∨ ∃ kind, series.index = series.blob kind

/-- The series the package makes, and what its operations make of them. -/
inductive Reachable : BaseSeries α → Prop
  | makeSeries (points : List (Point α)) (closed : Bool) (opts : Option IndexOptions) :
      Reachable (makeSeries points closed opts)
  | move {series : BaseSeries α} (deltaX deltaY : α) :
      Reachable series → Reachable (series.move deltaX deltaY)
  | clearIndex {series : BaseSeries α} : Reachable series → Reachable series.clearIndex
  | buildIndex {series : BaseSeries α} : Reachable series → Reachable series.buildIndex

/-! ### The blob -/

/-- The bytes `setCompressed` makes of a compressed tree behind the five header bytes. -/
theorem setCompressed_compress {α : Type*} [LinearOrderedField α] (series : BaseSeries α) (t : QNode) (kind : UInt8) :
    (series.setCompressed (t.compress [kind, 0, 0, 0, 0])).index =
      [kind] ++ putUint32 (((t.compress []).length + 5) % 2 ^ 32) ++ t.compress [] := by
  simp only [BaseSeries.setCompressed]
  rw [QNode.compress_eq]
  simp only [List.cons_append, List.take_succ_cons, List.take_zero, List.drop_succ_cons,
    List.drop_zero, List.nil_append, List.length_cons, List.length_nil]

/-- **The header holds the length**: for a blob shorter than `2 ^ 32` bytes, the searches read
its length back from bytes `1..4` and keep the whole blob. -/
theorem loadIndex_header (kind : UInt8) (c : List UInt8) (h : c.length + 5 < 2 ^ 32) :
    uint32 ([kind] ++ putUint32 ((c.length + 5) % 2 ^ 32) ++ c) 1 = .ok (c.length + 5) ∧
      loadIndex ([kind] ++ putUint32 ((c.length + 5) % 2 ^ 32) ++ c) =
        .ok ([kind] ++ putUint32 ((c.length + 5) % 2 ^ 32) ++ c) := by
  have hu : uint32 ([kind] ++ putUint32 ((c.length + 5) % 2 ^ 32) ++ c) 1 = .ok (c.length + 5) :=
    (uint32_putUint32 [kind] c _).trans (by rw [Nat.mod_mod, Nat.mod_eq_of_lt h])
  refine ⟨hu, ?_⟩
  simp only [loadIndex, sliceTo, hu, except_ok_bind]
  simp [putUint32]

/-! ### Trees of the builder -/

/-- Appending an item makes a node. -/
theorem QNode.pushItem_ne_nil (n : QNode) (i : ℕ) : n.pushItem i ≠ nil := by
  cases n <;> simp [pushItem]

/-- Setting a quadrant of a node keeps it a node. -/
theorem QNode.setQuad_ne_nil {n : QNode} (hn : n ≠ nil) (q : ℕ) (c : QNode) :
    n.setQuad q c ≠ nil := by
  cases n with
  | nil => exact absurd rfl hn
  | node => rcases q with _ | _ | _ | _ | q <;> simp [setQuad]

/-- The split branch of `insert` keeps a node a node. -/
theorem insertSplit_ne_nil {ins : QNode → Rect α → Rect α → ℕ → QNode} {n : QNode} (hn : n ≠ .nil)
    (bounds rect : Rect α) (item : ℕ) : insertSplit ins n bounds rect item ≠ .nil := by
  simp only [insertSplit]; split_ifs
  · exact QNode.pushItem_ne_nil n item
  · exact QNode.setQuad_ne_nil hn _ _

/-- An insertion never leaves a `nil` node. -/
theorem insertAux_ne_nil (series : BaseSeries α) (r : ℕ) (n : QNode) (bounds rect : Rect α)
    (item : ℕ) : insertAux series r n bounds rect item ≠ .nil := by
  cases r with
  | zero => exact QNode.pushItem_ne_nil n item
  | succ r =>
    simp only [insertAux]
    split_ifs with hs
    · exact insertSplit_ne_nil (by rintro rfl; simp [QNode.split] at hs) _ _ _
    · refine insertSplit_ne_nil ?_ _ _ _
      suffices ∀ (l : List ℕ) (acc : QNode), acc ≠ .nil → l.foldl (fun acc iitem =>
          insertSplit (insertAux series r) acc bounds (series.segmentAt iitem).rect iitem) acc ≠ .nil
        from this _ _ (by cases n <;> simp [QNode.startSplit])
      intro l
      induction l with
      | nil => exact fun _ h => h
      | cons i l ih => exact fun acc h => ih _ (insertSplit_ne_nil h _ _ _)
    · exact QNode.pushItem_ne_nil n item

/-- The tree of the index is a node, even with no item. -/
theorem insertAll_ne_nil (series : BaseSeries α) (bounds : Rect α) (is : List ℕ) :
    insertAll series bounds is ≠ .nil := by
  suffices ∀ root : QNode, root ≠ .nil →
      is.foldl (fun root i => root.insert series bounds (series.segmentAt i).rect i 0) root ≠ .nil
    from this _ (by simp [QNode.empty])
  induction is with
  | nil => exact fun _ h => h
  | cons i is ih => exact fun _ _ => ih _ (insertAux_ne_nil _ _ _ _ _ _)

/-- A quadrant entry is at least as long as the child's bytes. -/
theorem appendQuad_length_ge (c : QNode) :
    (c.compress []).length ≤ (appendQuad [] c (c.compress [])).length := by
  cases c <;> simp [appendQuad, QNode.compress, appendUvarint_eq_putUvarint]

/-- A well-shaped tree stores no more items than its bytes are long. -/
theorem QNode.elems_length_le {n : QNode} (hw : n.WellShaped) :
    n.elems.length ≤ (n.compress []).length := by
  induction n with
  | nil => simp [elems]
  | node s items q0 q1 q2 q3 ih0 ih1 ih2 ih3 =>
    obtain ⟨hu, hw0, hw1, hw2, hw3⟩ := hw
    rw [compress_node]
    have := compressItems_length_ge 0 (sortInts items)
    have := (sortInts_perm items).length_eq
    cases s with
    | false =>
      obtain ⟨rfl, rfl, rfl, rfl⟩ := hu rfl
      simp [elems]; omega
    | true =>
      have := appendQuad_length_ge q0; have := appendQuad_length_ge q1
      have := appendQuad_length_ge q2; have := appendQuad_length_ge q3
      have := ih0 hw0; have := ih1 hw1; have := ih2 hw2; have := ih3 hw3
      simp only [elems, if_true, List.length_append, List.length_singleton]
      omega

/-- A well-shaped tree nests no deeper than its bytes are long. -/
theorem QNode.height_le_length {n : QNode} (hw : n.WellShaped) :
    n.height ≤ (n.compress []).length := by
  induction n with
  | nil => simp [height]
  | node s items q0 q1 q2 q3 ih0 ih1 ih2 ih3 =>
    obtain ⟨hu, hw0, hw1, hw2, hw3⟩ := hw
    rw [compress_node]
    have := putUvarint_length_pos (sortInts items).length
    cases s with
    | false =>
      obtain ⟨rfl, rfl, rfl, rfl⟩ := hu rfl
      simp [height]; omega
    | true =>
      have := appendQuad_length_ge q0; have := appendQuad_length_ge q1
      have := appendQuad_length_ge q2; have := appendQuad_length_ge q3
      have := ih0 hw0; have := ih1 hw1; have := ih2 hw2; have := ih3 hw3
      simp only [height, if_true, List.length_append, List.length_singleton, Nat.add_one_le_iff,
        max_lt_iff]
      omega

/-- What decoding gives back of a tree `t` and the blob made of it: the bytes of `t`, wherever
they lie, decode to `t` with each item list in ascending order, the cursor ending right after
them; and a blob shorter than `2 ^ 32` bytes holds its length in its header, so that the
searches keep all of it and decode it to the tree, with the cursor at its end. -/
structure RoundTrip (t : QNode) (blob : List UInt8) : Prop where
  decode : ∀ (data rest : List UInt8) (a : ℕ), a + (t.compress []).length < 2 ^ 63 →
    data.drop a = t.compress [] ++ rest →
    decodeNode (qMaxDepth + 1) data a = .ok (t.sortItems, ((a + (t.compress []).length : ℕ) : ℤ))
  header : blob.length < 2 ^ 32 → uint32 blob 1 = .ok blob.length ∧ loadIndex blob = .ok blob ∧
    decodeNode blob.length blob 5 = .ok (t.sortItems, blob.length)

/-- **The compressed tree decodes back**, for every tree the builder reaches from an empty
root, under the reading discipline of the searches, and so does the blob `setCompressed`
makes of it. -/
theorem compress_roundtrip (series : BaseSeries α) (B : Rect α) (is : List ℕ)
    (his : ∀ i ∈ is, i < 2 ^ 63) (kind : UInt8) :
    RoundTrip (insertAll series B is)
      (series.setCompressed ((insertAll series B is).compress [kind, 0, 0, 0, 0])).index := by
  obtain ⟨hv, hp⟩ := insertAll_valid (fun _ _ _ _ => trivial : Descends series fun _ _ => True) B is
    fun _ _ => trivial
  obtain ⟨hw, hh⟩ := hv.wellShaped
  have hne := insertAll_ne_nil series B is
  set t := insertAll series B is
  have hb : ∀ i ∈ t.elems, i < 2 ^ 64 := fun i hi => by have := his i (hp.mem_iff.1 hi); omega
  have hdec : ∀ (fuel : ℕ) (data rest : List UInt8) (a : ℕ), t.height ≤ fuel →
      a + (t.compress []).length < 2 ^ 63 → data.drop a = t.compress [] ++ rest →
      decodeNode fuel data a = .ok (t.sortItems, ((a + (t.compress []).length : ℕ) : ℤ)) :=
    fun fuel _ _ _ hf hl hd => decodeNode_compress fuel t hne hw hb hf hl hd
  refine ⟨fun data rest a => hdec _ data rest a hh, ?_⟩
  have hl : ([kind] ++ putUint32 (((t.compress []).length + 5) % 2 ^ 32) ++ t.compress []).length =
      (t.compress []).length + 5 := by simp [putUint32]
  rw [setCompressed_compress series t kind, hl]
  intro hlen
  obtain ⟨hu, hload⟩ := loadIndex_header kind (t.compress []) hlen
  refine ⟨hu, hload, ?_⟩
  exact (hdec _ _ [] 5 (by have := QNode.height_le_length hw; omega) (by omega)
    (by simp [putUint32])).trans (by rw [Nat.add_comm])

/-- The theorem at the twenty unit segments of the closed ring `squareRing` under
`[0, 5] × [0, 5]`, compressed with kind `1`: the root is split, so the blob has quadrant sizes,
children and empty-quadrant markers. -/
theorem compress_roundtrip_squareRing :
    let s : BaseSeries ℚ := ⟨true, false, false, 0, [], ⟨⟨0, 0⟩, ⟨5, 5⟩⟩, squareRing⟩
    (insertAll s s.rect (List.range 20)).split = true ∧ (∀ i ∈ List.range 20, i < 2 ^ 63) ∧
      RoundTrip (insertAll s s.rect (List.range 20))
        (s.setCompressed ((insertAll s s.rect (List.range 20)).compress [1, 0, 0, 0, 0])).index :=
  ⟨by set_option maxRecDepth 20000 in with_unfolding_all decide, by decide,
    compress_roundtrip _ _ (List.range 20) (by decide) 1⟩

/-! ### Series the package makes -/

/-- Insertion reads a series through its points only. -/
theorem insertAux_congr {s s' : BaseSeries α} (h : s.points = s'.points) (r : ℕ) :
    insertAux s r = insertAux s' r := by
  have hs : s.segmentAt = s'.segmentAt := by funext i; simp only [BaseSeries.segmentAt, h]
  induction r with
  | zero => rfl
  | succ r ih => funext n bounds rect item; simp only [insertAux, ih, hs]

/-- The blob depends only on the points, the `closed` flag and the rectangle. -/
theorem BaseSeries.blob_congr (s t : BaseSeries α) (hp : s.points = t.points)
    (hc : s.closed = t.closed) (hr : s.rect = t.rect) (kind : UInt8) :
    s.blob kind = t.blob kind := by
  have hn : s.numSegments = t.numSegments := by simp only [numSegments, hp, hc]
  have hs : s.segmentAt = t.segmentAt := by funext i; simp only [segmentAt, hp]
  have ht : s.tree = t.tree := by
    simp only [tree, insertAll, QNode.insert, insertAux_congr hp, hn, hr, hs]
  simp only [blob, setCompressed_compress, ht]

/-- Building the index keeps a series consistent. -/
theorem BaseSeries.Consistent.buildIndex {s : BaseSeries α} (h : s.Consistent) :
    s.buildIndex.Consistent := by
  unfold BaseSeries.buildIndex
  split_ifs
  · exact h
  · refine ⟨h.rect_eq, .inr ⟨s.indexKind, ?_⟩⟩
    rw [blob_congr (s.setCompressed (s.tree.compress [s.indexKind, 0, 0, 0, 0])) s rfl rfl rfl]
    rfl

/-- Setting the index kind keeps a series consistent. -/
theorem BaseSeries.Consistent.withKind {s : BaseSeries α} (h : s.Consistent) (kind : UInt8) :
    ({ s with indexKind := kind } : BaseSeries α).Consistent := by
  refine ⟨h.rect_eq, h.index_eq.imp_right fun ⟨k, hk⟩ => ⟨k, hk.trans ?_⟩⟩
  exact blob_congr s { s with indexKind := kind } rfl rfl rfl k

/-- Every series `makeSeries` builds is consistent. -/
theorem consistent_makeSeries (points : List (Point α)) (closed : Bool)
    (opts : Option IndexOptions) : (makeSeries points closed opts).Consistent := by
  rcases hpp : processPoints points closed with ⟨convex, rect, clockwise⟩
  have h : (⟨closed, clockwise, convex, 0, [], rect, points⟩ : BaseSeries α).Consistent :=
    ⟨by simp [hpp], .inl rfl⟩
  simp only [makeSeries, hpp]
  split_ifs
  · exact (h.withKind _).buildIndex
  · exact h

/-- `Convex()` and `Clockwise()` of a series the package makes are what `processPoints`
computes, on the points and the `closed` flag it was made with. -/
theorem makeSeries_flags (points : List (Point α)) (closed : Bool) (opts : Option IndexOptions) :
    (makeSeries points closed opts).convex = (processPoints points closed).1 ∧
      (makeSeries points closed opts).clockwise = (processPoints points closed).2.2 ∧
      (makeSeries points closed opts).points = points ∧
      (makeSeries points closed opts).closed = closed := by
  rcases hpp : processPoints points closed with ⟨convex, rect, clockwise⟩
  simp only [makeSeries, hpp]
  split_ifs
  · unfold BaseSeries.buildIndex; split_ifs <;> exact ⟨rfl, rfl, rfl, rfl⟩
  · exact ⟨rfl, rfl, rfl, rfl⟩

/-- **Every series the package makes is consistent.** -/
theorem reachable_consistent {s : BaseSeries α} (h : Reachable s) : s.Consistent := by
  induction h with
  | makeSeries points closed opts => exact consistent_makeSeries points closed opts
  | move deltaX deltaY _ _ =>
    simp only [BaseSeries.move]
    split_ifs
    · exact ((consistent_makeSeries _ _ _).withKind _).buildIndex
    · exact (consistent_makeSeries _ _ _).withKind _
  | clearIndex _ ih => exact ⟨ih.rect_eq, .inl rfl⟩
  | buildIndex _ ih => exact ih.buildIndex

/-- A series with segments is long enough for `processPoints` to sweep it. -/
theorem BaseSeries.swept_of_numSegments_pos {s : BaseSeries α} (h : 0 < s.numSegments) :
    ¬((s.closed && s.points.length < 3) || s.points.length < 2) := by
  unfold numSegments at h
  cases hc : s.closed <;> simp only [hc, if_true, if_false, Bool.true_and, Bool.false_and,
    Bool.false_or, Bool.or_eq_true, decide_eq_true_eq, not_or, not_lt, Bool.false_eq_true] at h ⊢ <;>
    split_ifs at h <;> omega

/-- **The rectangle of a consistent series holds every segment.** -/
theorem BaseSeries.Consistent.contains_segment {s : BaseSeries α} (h : s.Consistent) {i : ℕ}
    (hi : i < s.numSegments) : s.rect.Contains (s.segmentAt i).rect := by
  have hl := s.numSegments_le
  have hsw := swept_of_numSegments_pos (Nat.zero_lt_of_lt hi)
  rw [h.rect_eq]
  refine Rect.contains_segment_rect (processPoints_contains hsw (by omega)) ?_
  simp only [segmentAt]
  split_ifs
  · exact processPoints_contains hsw (by omega)
  · exact processPoints_contains hsw (by omega)

/-- **The rectangle of a series is its bounding box.** For a series made of `n ≥ 2` points,
`n ≥ 3` when closed, `Rect()` has as its sides the least and the greatest coordinates of the
points on each axis, and so holds the rectangle of every segment, the bounds the index and
both searches start from. -/
theorem rect_bounding_box (points : List (Point α)) (closed : Bool) (opts : Option IndexOptions)
    (h2 : 2 ≤ points.length) (h3 : closed = true → 3 ≤ points.length) :
    (points.map Point.x).minimum = (makeSeries points closed opts).rect.min.x ∧
      (points.map Point.y).minimum = (makeSeries points closed opts).rect.min.y ∧
      (points.map Point.x).maximum = (makeSeries points closed opts).rect.max.x ∧
      (points.map Point.y).maximum = (makeSeries points closed opts).rect.max.y ∧
      ∀ i < (makeSeries points closed opts).numSegments,
        (makeSeries points closed opts).rect.Contains ((makeSeries points closed opts).segmentAt i).rect := by
  have hc := consistent_makeSeries points closed opts
  obtain ⟨-, -, hp, hcl⟩ := makeSeries_flags points closed opts
  have h : ¬((closed && points.length < 3) || points.length < 2) := by
    cases closed <;> simp only [Bool.true_and, Bool.false_and, Bool.false_or, Bool.or_eq_true,
      decide_eq_true_eq, not_or, not_lt] <;> simp_all
  have hr : (makeSeries points closed opts).rect = (processPoints points closed).2.1 := by
    rw [hc.rect_eq, hp, hcl]
  obtain ⟨hx, hy, hx', hy'⟩ := processPoints_rect_eq h
  refine ⟨?_, ?_, ?_, ?_, fun i hi => hc.contains_segment hi⟩ <;> rw [hr]
  exacts [hx, hy, hx', hy']

/-- The theorem at three points. -/
theorem rect_bounding_box_three :
    2 ≤ ([⟨0, 1⟩, ⟨1, 0⟩, ⟨2, 1⟩] : List (Point ℚ)).length ∧
    (false = true → 3 ≤ ([⟨0, 1⟩, ⟨1, 0⟩, ⟨2, 1⟩] : List (Point ℚ)).length) ∧
    (([⟨0, 1⟩, ⟨1, 0⟩, ⟨2, 1⟩] : List (Point ℚ)).map Point.x).minimum =
        (makeSeries ([⟨0, 1⟩, ⟨1, 0⟩, ⟨2, 1⟩] : List (Point ℚ)) false none).rect.min.x ∧
      (([⟨0, 1⟩, ⟨1, 0⟩, ⟨2, 1⟩] : List (Point ℚ)).map Point.y).minimum =
        (makeSeries ([⟨0, 1⟩, ⟨1, 0⟩, ⟨2, 1⟩] : List (Point ℚ)) false none).rect.min.y ∧
      (([⟨0, 1⟩, ⟨1, 0⟩, ⟨2, 1⟩] : List (Point ℚ)).map Point.x).maximum =
        (makeSeries ([⟨0, 1⟩, ⟨1, 0⟩, ⟨2, 1⟩] : List (Point ℚ)) false none).rect.max.x ∧
      (([⟨0, 1⟩, ⟨1, 0⟩, ⟨2, 1⟩] : List (Point ℚ)).map Point.y).maximum =
        (makeSeries ([⟨0, 1⟩, ⟨1, 0⟩, ⟨2, 1⟩] : List (Point ℚ)) false none).rect.max.y ∧
      ∀ i < (makeSeries ([⟨0, 1⟩, ⟨1, 0⟩, ⟨2, 1⟩] : List (Point ℚ)) false none).numSegments,
        (makeSeries ([⟨0, 1⟩, ⟨1, 0⟩, ⟨2, 1⟩] : List (Point ℚ)) false none).rect.Contains
          ((makeSeries ([⟨0, 1⟩, ⟨1, 0⟩, ⟨2, 1⟩] : List (Point ℚ)) false none).segmentAt i).rect :=
  ⟨by decide, nofun, rect_bounding_box _ false none (by decide) nofun⟩


/-! ### The indexed ring -/

/-- The ring `squareRing` indexed with `MinPoints = 1`: its blob is shorter than `2 ^ 32` bytes
and the root of its tree is split, so that a search over it enters and skips quadrants and the
nearest search queues them. -/
theorem squareRing_index :
    let s : BaseSeries ℚ := makeSeries squareRing true (some ⟨1, 1⟩)
    s.tree.split = true ∧ s.index ≠ [] ∧ s.index.length < 2 ^ 32 := by
  set_option maxRecDepth 20000 in with_unfolding_all decide

end SegmentIndex
