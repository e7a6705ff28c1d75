import SegmentIndex.Index
import SegmentIndex.Intersection

/-!
# Searching a Series

`Search(rect, iter)` calls `iter(seg, index)` on the segments whose rectangles meet `rect`,
until a call answers `false`. Without an index it scans the segments in order; with one it
runs `qCompressSearch` over the blob, which visits a node's items in the order they are
stored and then its quadrants in order, skipping a quadrant whose bounds miss `rect`.

A callback is modelled by the answers it gives: a Go closure sees the calls made before it
and its arguments, so its answer is a function of those (`Callback`). A search returns the
calls it made, in order.

`feed iter calls cands` is the abstract search: the candidates `cands` offered to `iter`
in order, after the calls `calls`, the first `false` ending the offer. Each branch of
`Search` is `feed` of a list of candidates: the linear scan of the segments that meet
`rect` (`searchLinear_eq_feed`), and the indexed search of the candidates `QNode.enum`
lists from the tree (`qCompressSearch_compress`).

## Main results

* `qCompressSearch_compress`: over the bytes of a well-shaped tree, `qCompressSearch` offers
  the tree's candidates `QNode.enum` to the callback.
* `enum_perm`: in a tree of the builder, those candidates are the items that meet `rect`,
  each once, whatever quadrants are skipped.
* `search_indexed_perm_linear`: the indexed search makes the calls of the linear scan,
  each once.
* `search_rect_all`: a search over the series' own rectangle calls every segment once.
* `search_finds_intersecting`: a search by a segment's rectangle calls every segment that
  intersects the segment.
* `search_mono`: a search over a larger rectangle calls every segment a smaller one calls.
-/

namespace SegmentIndex

variable {α : Type}

/-- A callback `iter(seg, index)`, answering from the calls made before it and its
arguments. -/
abbrev Callback (α : Type) := List (Segment α × ℤ) → Segment α → ℤ → Bool

/-! ### The abstract search -/

/-- The candidates `cands` offered to `iter` in order after the calls `calls`: the answer
`false` to one ends the offer. Returns whether the offer ran out, and the calls made. -/
def feed (iter : Callback α) : List (Segment α × ℤ) → List (Segment α × ℤ) →
    Bool × List (Segment α × ℤ)
  | calls, [] => (true, calls)
  | calls, (seg, i) :: cands =>
    if iter calls seg i then feed iter (calls ++ [(seg, i)]) cands
    else (false, calls ++ [(seg, i)])

/-- Offering nothing leaves the calls as they are. -/
@[simp] theorem feed_nil (iter : Callback α) (calls : List (Segment α × ℤ)) :
    feed iter calls [] = (true, calls) := rfl

/-- Offering two lists is offering the first, then the second if the first ran out. -/
theorem feed_append (iter : Callback α) (calls l₁ l₂ : List (Segment α × ℤ)) :
    feed iter calls (l₁ ++ l₂) =
      if (feed iter calls l₁).1 then feed iter (feed iter calls l₁).2 l₂ else feed iter calls l₁ := by
  induction l₁ generalizing calls with
  | nil => simp
  | cons c l₁ ih =>
    obtain ⟨seg, i⟩ := c
    simp only [List.cons_append, feed]
    split_ifs <;> simp_all

/-- A callback that always answers `true` receives every candidate. -/
theorem feed_true (calls cands : List (Segment α × ℤ)) :
    feed (fun _ _ _ => true) calls cands = (true, calls ++ cands) := by
  induction cands generalizing calls with
  | nil => simp
  | cons c cands ih => obtain ⟨seg, i⟩ := c; simp [feed, ih]

variable [LinearOrderedField α]

/-- Go's `int(u)` of a `uint64` `u`, in two's complement. -/
def toInt (u : ℕ) : ℤ := if u < 2 ^ 63 then u else u - 2 ^ 64

/-- `SegmentAt(index)` with Go's bounds check: `points[index]` panics outside `[0, len)`. -/
def BaseSeries.segmentAtInt (series : BaseSeries α) (index : ℤ) : Except Fault (Segment α) :=
  if 0 ≤ index ∧ index < series.points.length then .ok (series.segmentAt index.toNat)
  else .error .outOfRange

/-! ### The linear scan -/

/-- The loop of `Search` without an index, over the segment indices `is`. -/
def searchLinear (series : BaseSeries α) (rect : Rect α) (iter : Callback α) :
    List ℕ → List (Segment α × ℤ) → List (Segment α × ℤ)
  | [], calls => calls
  | i :: is, calls =>
    let seg := series.segmentAt i
    if seg.rect.intersectsRect rect then
      if !iter calls seg i then calls ++ [(seg, (i : ℤ))]
      else searchLinear series rect iter is (calls ++ [(seg, (i : ℤ))])
    else searchLinear series rect iter is calls

/-- The segments among `is` that meet `rect`, as the candidates of a search. -/
def candidates (series : BaseSeries α) (rect : Rect α) (is : List ℕ) : List (Segment α × ℤ) :=
  (is.filter fun i => (series.segmentAt i).rect.intersectsRect rect).map
    fun i => (series.segmentAt i, (i : ℤ))

/-- The candidates of appended item lists are appended. -/
theorem candidates_append (series : BaseSeries α) (rect : Rect α) (l₁ l₂ : List ℕ) :
    candidates series rect (l₁ ++ l₂) = candidates series rect l₁ ++ candidates series rect l₂ := by
  simp [candidates]

/-- The linear scan offers the segments that meet `rect`, in order. -/
theorem searchLinear_eq_feed (series : BaseSeries α) (rect : Rect α) (iter : Callback α)
    (is : List ℕ) (calls : List (Segment α × ℤ)) :
    searchLinear series rect iter is calls = (feed iter calls (candidates series rect is)).2 := by
  induction is generalizing calls with
  | nil => rfl
  | cons i is ih =>
    simp only [candidates] at ih
    simp only [searchLinear, candidates, List.filter_cons]
    by_cases h : (series.segmentAt i).rect.intersectsRect rect
    · by_cases hi : iter calls (series.segmentAt i) i <;>
        simp only [h, hi, ih, if_true, if_false, List.map_cons, feed, Bool.not_true,
          Bool.not_false, Bool.false_eq_true]
    · simp only [h, ih, Bool.false_eq_true, if_false]

/-! ### The indexed search -/

/-- The item loop of `qCompressSearch`: `k` deltas, each item offered to `iter` when its
segment meets `rect`. Returns whether to go on, the cursor and the calls made. -/
def searchItems (data : List UInt8) (series : BaseSeries α) (rect : Rect α) (iter : Callback α) :
    ℕ → ℤ → ℕ → List (Segment α × ℤ) → Except Fault (Bool × ℤ × List (Segment α × ℤ))
  | 0, addr, _, calls => .ok (true, addr, calls)
  | k + 1, addr, last, calls => do
    let (item, addr) ← readUvarint data addr
    let item := (item + last) % 2 ^ 64
    let seg ← series.segmentAtInt (toInt item)
    if seg.rect.intersectsRect rect then
      if !iter calls seg (toInt item) then return (false, addr, calls ++ [(seg, toInt item)])
      searchItems data series rect iter k addr item (calls ++ [(seg, toInt item)])
    else searchItems data series rect iter k addr item calls

/-- The quadrant loop of `qCompressSearch` over the quadrants `qs`: an entry `0` is an empty
quadrant; otherwise the child at the cursor is searched by `search` when the quadrant's
bounds meet `rect`, and the cursor moves on by `int(qsize)`. -/
def searchQuads (search : ℤ → Rect α → List (Segment α × ℤ) →
      Except Fault (Bool × List (Segment α × ℤ)))
    (data : List UInt8) (bounds rect : Rect α) :
    List ℕ → ℤ → List (Segment α × ℤ) → Except Fault (Bool × List (Segment α × ℤ))
  | [], _, calls => .ok (true, calls)
  | q :: qs, addr, calls => do
    let (qsize, addr) ← readUvarint data addr
    if qsize = 0 then searchQuads search data bounds rect qs addr calls
    else
      let qbounds := quadBounds bounds q
      let (ok, calls) ←
        if qbounds.intersectsRect rect then search addr qbounds calls else pure (true, calls)
      if !ok then return (false, calls)
      searchQuads search data bounds rect qs ((addr + qsize).bmod (2 ^ 64)) calls

/-- `qCompressSearch`, with `fuel` bounding the nesting. -/
def qCompressSearch (data : List UInt8) (series : BaseSeries α) (rect : Rect α)
    (iter : Callback α) : ℕ → ℤ → Rect α → List (Segment α × ℤ) →
    Except Fault (Bool × List (Segment α × ℤ))
  | 0, _, _, _ => throw .outOfFuel
  | fuel + 1, addr, bounds, calls => do
    let (nitems, addr) ← readUvarint data addr
    let (ok, addr, calls) ← searchItems data series rect iter nitems addr 0 calls
    if !ok then return (false, calls)
    let split ← byteAt data addr
    if split = 1 then
      searchQuads (qCompressSearch data series rect iter fuel) data bounds rect [0, 1, 2, 3]
        (addr + 1) calls
    else return (true, calls)

/-- `Search`: the calls it makes. The index is read with its own length as the fuel, which
bounds the nesting of every blob the builder writes; on a corrupted blob a wrapped quadrant size
can send the read back to a node already read, and the fuel can then run out where Go reads on. -/
def BaseSeries.search (series : BaseSeries α) (rect : Rect α) (iter : Callback α) :
    Except Fault (List (Segment α × ℤ)) :=
  if series.index.length = 0 then
    .ok (searchLinear series rect iter (List.range series.numSegments) [])
  else do
    let data ← loadIndex series.index
    let (_, calls) ← qCompressSearch data series rect iter data.length 5 series.rect []
    return calls

/-- The candidates the indexed search offers from a tree with bounds `bounds`: a node's
items that meet `rect`, in ascending order, then those of the quadrants whose bounds meet
`rect`, in order. -/
def QNode.enum (series : BaseSeries α) (rect : Rect α) : QNode → Rect α → List (Segment α × ℤ)
  | nil, _ => []
  | node _ items q0 q1 q2 q3, bounds =>
    candidates series rect (sortInts items) ++
      ((if (quadBounds bounds 0).intersectsRect rect then q0.enum series rect (quadBounds bounds 0)
          else []) ++
        ((if (quadBounds bounds 1).intersectsRect rect then q1.enum series rect (quadBounds bounds 1)
          else []) ++
        ((if (quadBounds bounds 2).intersectsRect rect then q2.enum series rect (quadBounds bounds 2)
          else []) ++
        (if (quadBounds bounds 3).intersectsRect rect then q3.enum series rect (quadBounds bounds 3)
          else []))))

/-- A new node enumerates nothing. -/
@[simp] theorem QNode.enum_empty (s : BaseSeries α) (rect bounds : Rect α) :
    QNode.empty.enum s rect bounds = [] := by
  simp [QNode.empty, QNode.enum, candidates, sortInts]

/-! ### The indexed search over the bytes of a tree -/

/-- Below `2 ^ 63`, `int(u)` is `u`. -/
theorem toInt_of_lt {u : ℕ} (h : u < 2 ^ 63) : toInt u = u := if_pos h

/-- Below the number of points, reading a segment by its `int` index succeeds. -/
theorem BaseSeries.segmentAtInt_of_lt (series : BaseSeries α) {i : ℕ}
    (h : i < series.points.length) : series.segmentAtInt i = .ok (series.segmentAt i) := by
  simp [segmentAtInt, h]

/-- The candidates of `i :: is`: segment `i` when it meets the query, then the rest. -/
theorem candidates_cons (series : BaseSeries α) (rect : Rect α) (i : ℕ) (is : List ℕ) :
    candidates series rect (i :: is) =
      (if (series.segmentAt i).rect.intersectsRect rect then [(series.segmentAt i, (i : ℤ))]
        else []) ++ candidates series rect is := by
  simp only [candidates, List.filter_cons]; split_ifs <;> rfl

/-- The item loop offers the items `compress` wrote that meet `rect`; when the offer runs
out, the cursor is past the items. -/
theorem searchItems_of_drop (series : BaseSeries α) (rect : Rect α) (iter : Callback α)
    {data rest : List UInt8} : ∀ (items : List ℕ) (a last : ℕ) (calls : List (Segment α × ℤ)),
    items.Pairwise (· ≤ ·) → (∀ i ∈ items, last ≤ i ∧ i < 2 ^ 63 ∧ i < series.points.length) →
    data.drop a = compressItems [] last items ++ rest →
    ∃ addr, searchItems data series rect iter items.length a last calls =
      .ok ((feed iter calls (candidates series rect items)).1, addr,
        (feed iter calls (candidates series rect items)).2) ∧
      ((feed iter calls (candidates series rect items)).1 = true →
        addr = ((a + (compressItems [] last items).length : ℕ) : ℤ)) := by
  intro items
  induction items with
  | nil => intro a last calls _ _ _; exact ⟨a, by simp [searchItems, candidates, compressItems]⟩
  | cons x xs ih =>
    intro a last calls hs hb hd
    obtain ⟨hlx, hx, hxl⟩ := hb x (List.mem_cons_self x xs)
    obtain ⟨hr, hm, hd'⟩ := readItem_of_drop hlx (by omega) hd
    have hs' := List.pairwise_cons.1 hs
    have hb' : ∀ i ∈ xs, x ≤ i ∧ i < 2 ^ 63 ∧ i < series.points.length :=
      fun i hi => ⟨hs'.1 i hi, (hb i (List.mem_cons_of_mem x hi)).2⟩
    rw [List.length_cons, searchItems, hr, except_ok_bind]
    simp only [hm, toInt_of_lt hx, series.segmentAtInt_of_lt hxl, except_ok_bind, candidates_cons,
      compressItems_cons, List.length_append, ← Nat.add_assoc]
    by_cases hi : (series.segmentAt x).rect.intersectsRect rect
    · by_cases ha : iter calls (series.segmentAt x) x
      · obtain ⟨addr, h1, h2⟩ := ih _ x (calls ++ [(series.segmentAt x, (x : ℤ))]) hs'.2 hb' hd'
        simp only [hi, ha, if_true, Bool.not_true, Bool.false_eq_true, if_false, List.singleton_append,
          feed]
        exact ⟨addr, h1, h2⟩
      · simp only [hi, ha, if_true, Bool.not_false, List.singleton_append, feed, Bool.false_eq_true,
          if_false]
        exact ⟨_, rfl, nofun⟩
    · obtain ⟨addr, h1, h2⟩ := ih _ x calls hs'.2 hb' hd'
      simp only [hi, Bool.false_eq_true, if_false, List.nil_append]
      exact ⟨addr, h1, h2⟩

/-- The candidates a child adds in the quadrant loop: none when the quadrant's bounds miss
`rect`. -/
def quadEnum (series : BaseSeries α) (rect bounds : Rect α) (qc : ℕ × QNode) :
    List (Segment α × ℤ) :=
  if (quadBounds bounds qc.1).intersectsRect rect then qc.2.enum series rect (quadBounds bounds qc.1)
  else []

/-- The quadrant loop offers, quadrant by quadrant, the candidates of the children whose
bounds meet `rect`. -/
theorem searchQuads_of_drop
    (search : ℤ → Rect α → List (Segment α × ℤ) → Except Fault (Bool × List (Segment α × ℤ)))
    (series : BaseSeries α) (iter : Callback α) {data rest : List UInt8} (bounds rect : Rect α) :
    ∀ (qcs : List (ℕ × QNode)) (a : ℕ) (calls : List (Segment α × ℤ)),
    a + (qcs.map fun qc => appendQuad [] qc.2 (qc.2.compress [])).flatten.length < 2 ^ 63 →
    data.drop a = (qcs.map fun qc => appendQuad [] qc.2 (qc.2.compress [])).flatten ++ rest →
    (∀ qc ∈ qcs, qc.2 ≠ .nil → (quadBounds bounds qc.1).intersectsRect rect →
      ∀ (b : ℕ) (rest' : List UInt8) (calls' : List (Segment α × ℤ)),
      b + (qc.2.compress []).length < 2 ^ 63 → data.drop b = qc.2.compress [] ++ rest' →
      search b (quadBounds bounds qc.1) calls' =
        .ok (feed iter calls' (qc.2.enum series rect (quadBounds bounds qc.1)))) →
    searchQuads search data bounds rect (qcs.map Prod.fst) a calls =
      .ok (feed iter calls (qcs.map (quadEnum series rect bounds)).flatten) := by
  intro qcs
  induction qcs with
  | nil => intro a calls _ _ _; rfl
  | cons qc qcs ih =>
    obtain ⟨q, c⟩ := qc
    intro a calls hlen hd hs
    simp only [List.map_cons, List.flatten_cons, List.append_assoc, List.length_append] at hlen hd ⊢
    have hs' := fun qc hqc => hs qc (List.mem_cons_of_mem _ hqc)
    cases c with
    | nil =>
      rw [appendQuad] at hd hlen
      simp only [List.nil_append, List.length_singleton] at hd hlen
      have h0 : putUvarint 0 = [0] := by rw [putUvarint_of_lt (by norm_num)]; rfl
      have hr := readUvarint_of_drop (x := 0) (by norm_num) (h0 ▸ hd)
      have hd1 := drop_add_of_drop (l := [0]) hd
      rw [searchQuads, hr, except_ok_bind]
      simp only [h0, if_true, quadEnum, QNode.enum, ite_self, List.nil_append,
        List.length_singleton]
      exact ih _ calls (by simpa [Nat.add_assoc] using hlen) hd1 hs'
    | node s items q0 q1 q2 q3 =>
      set c := QNode.node s items q0 q1 q2 q3 with hc
      have hpos : 0 < (c.compress []).length := List.length_pos.2 (QNode.compress_ne_nil (by simp))
      rw [show appendQuad [] c (c.compress []) = putUvarint (c.compress []).length ++ c.compress [] by
        rw [hc, appendQuad, appendUvarint_eq_putUvarint, List.nil_append]] at hd hlen
      simp only [List.append_assoc, List.length_append] at hd hlen
      set L := (c.compress []).length
      set k := (putUvarint L).length
      have hd' := drop_add_of_drop hd
      have hd2 := drop_add_of_drop hd'
      have hb : (((a + k : ℕ) : ℤ) + (L : ℤ)).bmod (2 ^ 64) = ((a + k + L : ℕ) : ℤ) := by
        rw [bmod_of_lt (by omega) (by push_cast; omega)]; push_cast; ring
      rw [searchQuads, readUvarint_of_drop (by omega) hd, except_ok_bind]
      simp only [if_neg hpos.ne', quadEnum, feed_append, hb]
      by_cases hi : (quadBounds bounds q).intersectsRect rect
      · simp only [hi, if_true, hs (q, c) (List.mem_cons_self _ _) (by simp [hc]) hi (a + k) _ calls
          (show a + k + L < 2 ^ 63 by omega) hd', except_ok_bind]
        rcases feed iter calls (c.enum series rect (quadBounds bounds q)) with ⟨_ | _, cl⟩
        · rfl
        · exact ih _ cl (by omega) hd2 hs'
      · simp only [hi, Bool.false_eq_true, if_false, feed_nil, except_pure_eq, except_ok_bind,
          Bool.not_true, if_true]
        exact ih _ calls (by omega) hd2 hs'

/-- **The indexed search offers the candidates of the tree.** Over the bytes of a
well-shaped tree whose items index points of the series, `qCompressSearch` makes the calls
`feed` makes of `QNode.enum`, whatever the callback answers. -/
theorem qCompressSearch_compress (series : BaseSeries α) (rect : Rect α) (iter : Callback α)
    (fuel : ℕ) (t : QNode) {data rest : List UInt8} {a : ℕ} (bounds : Rect α)
    (calls : List (Segment α × ℤ)) (ht : t ≠ .nil) (hw : t.WellShaped)
    (hb : ∀ i ∈ t.elems, i < 2 ^ 63 ∧ i < series.points.length) (hh : t.height ≤ fuel)
    (hlen : a + (t.compress []).length < 2 ^ 63) (hd : data.drop a = t.compress [] ++ rest) :
    qCompressSearch data series rect iter fuel a bounds calls =
      .ok (feed iter calls (t.enum series rect bounds)) := by
  induction fuel generalizing t a rest bounds calls with
  | zero => exact absurd hh (Nat.not_le.2 (QNode.height_pos ht))
  | succ fuel ih =>
    cases t with
    | nil => exact absurd rfl ht
    | node s items q0 q1 q2 q3 =>
      obtain ⟨hw0, hw1, hw2, hw3, hw4⟩ := hw
      simp only [QNode.elems, List.mem_append] at hb
      simp only [QNode.height, Nat.add_le_add_iff_right, max_le_iff] at hh
      have hI := compressItems_length_ge 0 (sortInts items)
      rw [QNode.compress_node] at hd hlen
      rw [List.append_assoc] at hd
      simp only [List.length_append] at hlen
      rw [qCompressSearch, readUvarint_of_drop (by omega) hd, except_ok_bind]
      have hd1 := drop_add_of_drop hd
      rw [List.append_assoc] at hd1
      have hsb : ∀ i ∈ sortInts items, 0 ≤ i ∧ i < 2 ^ 63 ∧ i < series.points.length :=
        fun i hi => ⟨Nat.zero_le i, hb i (by simp [(sortInts_perm items).mem_iff.1 hi])⟩
      obtain ⟨addr, h1, h2⟩ :=
        searchItems_of_drop series rect iter _ _ 0 calls (sortInts_sorted items) hsb hd1
      simp only
      rw [h1, except_ok_bind, QNode.enum, feed_append]
      rcases hf : feed iter calls (candidates series rect (sortInts items)) with ⟨_ | _, cl⟩
      · rfl
      · obtain rfl := h2 (by rw [hf])
        have hd2 := drop_add_of_drop hd1
        simp only [Bool.not_true, Bool.false_eq_true, if_false, if_true, except_pure_eq]
        cases s with
        | false =>
          obtain ⟨rfl, rfl, rfl, rfl⟩ := hw0 rfl
          simp only [Bool.false_eq_true, ↓reduceIte, List.singleton_append, List.cons_append,
            List.nil_append] at hd2
          rw [byteAt_of_drop hd2]
          simp [QNode.enum]
        | true =>
          simp only [↓reduceIte, List.append_assoc] at hd2 hlen
          rw [byteAt_of_drop (b := 1) hd2, show (1 : UInt8).toNat = 1 from rfl]
          simp only [except_ok_bind, if_true]
          rw [← Nat.cast_succ]
          have hq := drop_add_of_drop (l := [1]) hd2
          rw [List.length_singleton] at hq
          have key : ∀ c : QNode, c.WellShaped → (∀ i ∈ c.elems, i < 2 ^ 63 ∧ i < series.points.length) →
              c.height ≤ fuel → ∀ (bq : Rect α) (b : ℕ) (rest' : List UInt8)
              (calls' : List (Segment α × ℤ)), c ≠ .nil → b + (c.compress []).length < 2 ^ 63 →
              data.drop b = c.compress [] ++ rest' →
              qCompressSearch data series rect iter fuel b bq calls' =
                .ok (feed iter calls' (c.enum series rect bq)) :=
            fun c hw hb hh bq b _ calls' hc hl hd => ih c bq calls' hc hw hb hh hl hd
          have hquads := searchQuads_of_drop (qCompressSearch data series rect iter fuel)
            series iter bounds rect [(0, q0), (1, q1), (2, q2), (3, q3)]
            (a + (putUvarint (sortInts items).length).length +
              (compressItems [] 0 (sortInts items)).length + 1) cl
            (by simp only [List.map, List.flatten, List.length_append, List.append_nil, List.length_cons,
              List.length_singleton, List.singleton_append, List.cons_append] at hlen ⊢; omega)
            (by simpa only [List.map, List.flatten, List.append_assoc, List.append_nil] using hq)
            (by
              rintro ⟨q, c⟩ hmem hc _ b rest' calls' hl hd'
              simp only [List.mem_cons, Prod.mk.injEq, List.mem_nil_iff, or_false] at hmem
              rcases hmem with ⟨rfl, rfl⟩ | ⟨rfl, rfl⟩ | ⟨rfl, rfl⟩ | ⟨rfl, rfl⟩
              · exact key _ hw1 (fun i hi => hb i (by simp [hi])) hh.1.1 _ b rest' calls' hc hl hd'
              · exact key _ hw2 (fun i hi => hb i (by simp [hi])) hh.1.2 _ b rest' calls' hc hl hd'
              · exact key _ hw3 (fun i hi => hb i (by simp [hi])) hh.2.1 _ b rest' calls' hc hl hd'
              · exact key _ hw4 (fun i hi => hb i (by simp [hi])) hh.2.2 _ b rest' calls' hc hl hd')
          exact hquads.trans (by simp [quadEnum])

/-! ### Pruning -/

/-- **Pruning loses nothing.** In a tree whose items lie inside the bounds of their nodes,
the candidates the indexed search offers are the items that meet `rect`, each as often as
the tree stores it: a skipped quadrant holds none of them. -/
theorem enum_perm (series : BaseSeries α) (rect : Rect α) {t : QNode} {bounds : Rect α} {r : ℕ}
    (hv : t.Valid series (fun b i => b.Contains (series.segmentAt i).rect) bounds r) :
    (t.enum series rect bounds).Perm (candidates series rect t.elems) := by
  induction t generalizing bounds r with
  | nil => simp [QNode.enum, candidates]
  | node s items q0 q1 q2 q3 ih0 ih1 ih2 ih3 =>
    obtain ⟨-, -, -, h0, h1, h2, h3⟩ := hv
    have hq : ∀ (c : QNode) (qb : Rect α) (r' : ℕ),
        c.Valid series (fun b i => b.Contains (series.segmentAt i).rect) qb r' →
        (c.enum series rect qb).Perm (candidates series rect c.elems) →
        (if qb.intersectsRect rect then c.enum series rect qb else []).Perm
          (candidates series rect c.elems) := by
      intro c qb r' hc ih
      split_ifs with hi
      · exact ih
      · rw [candidates, List.filter_eq_nil_iff.2 fun j hj hji =>
          hi (Rect.intersectsRect_of_contains (hc.contains j hj) hji)]
        rfl
    simp only [QNode.enum, QNode.elems, candidates_append, List.append_assoc]
    exact ((sortInts_perm items).filter _ |>.map _).append ((hq _ _ _ h0 (ih0 h0)).append
      ((hq _ _ _ h1 (ih1 h1)).append ((hq _ _ _ h2 (ih2 h2)).append (hq _ _ _ h3 (ih3 h3)))))

/-! ### `Search` on the series the package makes -/

/-- The tree of a consistent series satisfies the builder's invariant with containment, and
stores its segment indices. -/
theorem BaseSeries.Consistent.tree_valid {s : BaseSeries α} (h : s.Consistent) :
    s.tree.Valid s (fun b i => b.Contains (s.segmentAt i).rect) s.rect qMaxDepth ∧
      s.tree.elems.Perm (List.range s.numSegments) :=
  insertAll_valid (descends_contains s) s.rect _ fun _ hi => h.contains_segment (List.mem_range.1 hi)

/-- The blob of a series the package makes, with its index built and shorter than `2 ^ 32`
bytes, as the searches load it: all of it, with the bytes of the tree from byte `5` on, and
the segment indices, stored in the tree, bounded by its length. -/
theorem BaseSeries.Consistent.index_bytes {s : BaseSeries α} (h : s.Consistent) (hi : s.index ≠ [])
    (hlen : s.index.length < 2 ^ 32) :
    loadIndex s.index = .ok s.index ∧ s.index.drop 5 = s.tree.compress [] ++ [] ∧
      s.index.length = (s.tree.compress []).length + 5 ∧
      ∀ i ∈ s.tree.elems, i < s.numSegments ∧ s.numSegments < 2 ^ 32 := by
  obtain ⟨k, hk⟩ := h.index_eq.resolve_left hi
  obtain ⟨hv, hp⟩ := h.tree_valid
  have hb : s.index = [k] ++ putUint32 (((s.tree.compress []).length + 5) % 2 ^ 32) ++
      s.tree.compress [] := hk.trans (setCompressed_compress s s.tree k)
  have hl : s.index.length = (s.tree.compress []).length + 5 := by rw [hb]; simp [putUint32]
  have hn : s.numSegments ≤ (s.tree.compress []).length := by
    simpa [hp.length_eq] using QNode.elems_length_le hv.wellShaped.1
  obtain ⟨-, hload⟩ := loadIndex_header k (s.tree.compress []) (by omega)
  rw [← hb] at hload
  exact ⟨hload, by rw [hb]; simp [putUint32], hl,
    fun i hi => ⟨List.mem_range.1 (hp.mem_iff.1 hi), by omega⟩⟩

/-- **The indexed branch of `Search` offers the candidates of the tree** to the callback,
for a series the package makes whose blob is shorter than `2 ^ 32` bytes. -/
theorem BaseSeries.Consistent.search_eq {s : BaseSeries α} (h : s.Consistent) (hi : s.index ≠ [])
    (hlen : s.index.length < 2 ^ 32) (rect : Rect α) (iter : Callback α) :
    s.search rect iter = .ok (feed iter [] (s.tree.enum s rect s.rect)).2 := by
  obtain ⟨hload, hd, hl, hb⟩ := h.index_bytes hi hlen
  obtain ⟨hw, -⟩ := h.tree_valid.1.wellShaped
  have hsearch := qCompressSearch_compress s rect iter s.index.length s.tree s.rect []
    (insertAll_ne_nil _ _ _) hw
    (fun i hi => by have := hb i hi; have := s.numSegments_le; omega)
    (by have := QNode.height_le_length hw; omega)
    (show 5 + (s.tree.compress []).length < 2 ^ 63 by omega) hd
  simp only [search, List.length_eq_zero, hi, if_false, hload, except_ok_bind]
  rw [show ((5 : ℕ) : ℤ) = 5 from rfl] at hsearch
  rw [hsearch]; rfl

/-- The linear branch of `Search` offers the segments that meet `rect`, in order. -/
theorem BaseSeries.search_of_index_eq_nil {s : BaseSeries α} (hi : s.index = []) (rect : Rect α)
    (iter : Callback α) :
    s.search rect iter = .ok (feed iter [] (candidates s rect (List.range s.numSegments))).2 := by
  simp [search, hi, searchLinear_eq_feed]

/-- **The indexed search finds what the linear scan finds** (for blobs shorter than
`2 ^ 32` bytes). On a series the package makes, with its index built, `Search` with a
callback that always answers `true` calls it once for each segment that meets `rect`, and
for no other: the calls of the linear scan, which `Search` makes once the index is cleared,
in some order. -/
theorem search_indexed_perm_linear {s : BaseSeries α} (hs : Reachable s) (hi : s.index ≠ [])
    (hlen : s.index.length < 2 ^ 32) (rect : Rect α) :
    ∃ calls, s.search rect (fun _ _ _ => true) = .ok calls ∧
      s.clearIndex.search rect (fun _ _ _ => true) =
        .ok (candidates s rect (List.range s.numSegments)) ∧
      calls.Perm (candidates s rect (List.range s.numSegments)) ∧
      (candidates s rect (List.range s.numSegments)).Nodup := by
  have h := reachable_consistent hs
  refine ⟨_, h.search_eq hi hlen rect _, ?_, ?_, ?_⟩
  · rw [BaseSeries.search_of_index_eq_nil rfl, feed_true]; rfl
  · rw [feed_true, List.nil_append]
    exact (enum_perm s rect h.tree_valid.1).trans (by
      simp only [candidates]; exact (h.tree_valid.2.filter _).map _)
  · exact List.Pairwise.map _ (fun a b hab h => hab (by simpa using congrArg Prod.snd h))
      ((List.nodup_range _).filter _)

/-- The theorem at the ring `squareRing` with an index whose root is split, for the square
`[0, 2] × [0, 2]` at its origin corner: the indexed search enters one quadrant and skips the
others. -/
theorem search_indexed_perm_linear_squareRing :
    let s : BaseSeries ℚ := makeSeries squareRing true (some ⟨1, 1⟩)
    s.tree.split = true ∧ Reachable s ∧ s.index ≠ [] ∧ s.index.length < 2 ^ 32 ∧
      ∃ calls, s.search ⟨⟨0, 0⟩, ⟨2, 2⟩⟩ (fun _ _ _ => true) = .ok calls ∧
        s.clearIndex.search ⟨⟨0, 0⟩, ⟨2, 2⟩⟩ (fun _ _ _ => true) =
          .ok (candidates s ⟨⟨0, 0⟩, ⟨2, 2⟩⟩ (List.range s.numSegments)) ∧
        calls.Perm (candidates s ⟨⟨0, 0⟩, ⟨2, 2⟩⟩ (List.range s.numSegments)) ∧
        (candidates s ⟨⟨0, 0⟩, ⟨2, 2⟩⟩ (List.range s.numSegments)).Nodup :=
  ⟨squareRing_index.1, .makeSeries _ _ _, squareRing_index.2.1, squareRing_index.2.2,
    search_indexed_perm_linear (.makeSeries _ _ _) squareRing_index.2.1 squareRing_index.2.2 _⟩

/-! ### What the searches offer -/

/-- Both branches of `Search` offer the candidates to the callback, through `feed`: in the
order of the segments without an index, in the order of the tree with one. -/
theorem BaseSeries.Consistent.search_feed {s : BaseSeries α} (h : s.Consistent)
    (hlen : s.index.length < 2 ^ 32) (rect : Rect α) (iter : Callback α) :
    ∃ cands, cands.Perm (candidates s rect (List.range s.numSegments)) ∧
      s.search rect iter = .ok (feed iter [] cands).2 := by
  by_cases hi : s.index = []
  · exact ⟨_, .refl _, BaseSeries.search_of_index_eq_nil hi rect iter⟩
  · refine ⟨_, ?_, h.search_eq hi hlen rect iter⟩
    exact (enum_perm s rect h.tree_valid.1).trans (by
      simp only [candidates]; exact (h.tree_valid.2.filter _).map _)

/-- On a series the package makes, both branches of `Search`, with a callback that always
answers `true`, call the segments that meet `rect`, each once. -/
theorem BaseSeries.Consistent.search_true {s : BaseSeries α} (h : s.Consistent)
    (hlen : s.index.length < 2 ^ 32) (rect : Rect α) :
    ∃ calls, s.search rect (fun _ _ _ => true) = .ok calls ∧
      calls.Perm (candidates s rect (List.range s.numSegments)) := by
  obtain ⟨cands, hp, hc⟩ := h.search_feed hlen rect (fun _ _ _ => true)
  exact ⟨cands, by rw [hc, feed_true, List.nil_append], hp⟩

/-- A segment inside a rectangle meets it. -/
theorem Segment.rect_intersectsRect_of_contains {r : Rect α} {seg : Segment α}
    (h : r.Contains seg.rect) : seg.rect.intersectsRect r = true := by
  rw [Rect.intersectsRect_iff]
  obtain ⟨h1, h2, h3, h4⟩ := h
  simp only [Segment.rect_min_x, Segment.rect_min_y, Segment.rect_max_x, Segment.rect_max_y] at *
  exact ⟨min_le_max.trans h3, h1.trans min_le_max, min_le_max.trans h4, h2.trans min_le_max⟩

/-- **A search over the series' own rectangle finds every segment.** On every series the
package makes, indexed with a blob shorter than `2 ^ 32` bytes or not indexed,
`Search(series.Rect(), iter)` with a callback that always answers `true` calls it once for each
segment and for no other, in the order of the segments when there is no index. -/
theorem search_rect_all {s : BaseSeries α} (hs : Reachable s) (hlen : s.index.length < 2 ^ 32) :
    ∃ calls, s.search s.rect (fun _ _ _ => true) = .ok calls ∧
      calls.Perm ((List.range s.numSegments).map fun i => (s.segmentAt i, (i : ℤ))) ∧
      (s.index = [] → calls = (List.range s.numSegments).map fun i => (s.segmentAt i, (i : ℤ))) := by
  have h := reachable_consistent hs
  have hall : candidates s s.rect (List.range s.numSegments) =
      (List.range s.numSegments).map fun i => (s.segmentAt i, (i : ℤ)) := by
    rw [candidates, List.filter_eq_self.2 fun i hi =>
      Segment.rect_intersectsRect_of_contains (h.contains_segment (List.mem_range.1 hi))]
  obtain ⟨calls, hc, hp⟩ := h.search_true hlen s.rect
  refine ⟨calls, hc, hall ▸ hp, fun hi => ?_⟩
  rw [BaseSeries.search_of_index_eq_nil hi, feed_true, List.nil_append, hall] at hc
  exact (Except.ok.inj hc).symm

/-- The theorem at the ring `squareRing` with an index whose root is split. -/
theorem search_rect_all_squareRing :
    let s : BaseSeries ℚ := makeSeries squareRing true (some ⟨1, 1⟩)
    s.tree.split = true ∧ Reachable s ∧ s.index.length < 2 ^ 32 ∧
      ∃ calls, s.search s.rect (fun _ _ _ => true) = .ok calls ∧
        calls.Perm ((List.range s.numSegments).map fun i => (s.segmentAt i, (i : ℤ))) ∧
        (s.index = [] → calls = (List.range s.numSegments).map fun i => (s.segmentAt i, (i : ℤ))) :=
  ⟨squareRing_index.1, .makeSeries _ _ _, squareRing_index.2.2,
    search_rect_all (.makeSeries _ _ _) squareRing_index.2.2⟩

/-- **A search by a segment's rectangle finds every segment it intersects.** On every series
the package makes, indexed with a blob shorter than `2 ^ 32` bytes or not indexed, `Search`
over the rectangle of a query segment `q`, with a callback that always answers `true`, calls
every segment of the series that intersects `q` by `IntersectsSegment`, either way round. -/
theorem search_finds_intersecting {s : BaseSeries α} (hs : Reachable s)
    (hlen : s.index.length < 2 ^ 32) (q : Segment α) :
    ∃ calls, s.search q.rect (fun _ _ _ => true) = .ok calls ∧
      ∀ i < s.numSegments, ((s.segmentAt i).intersectsSegment q = true ∨
        q.intersectsSegment (s.segmentAt i) = true) → (s.segmentAt i, (i : ℤ)) ∈ calls := by
  obtain ⟨calls, hc, hp⟩ := (reachable_consistent hs).search_true hlen q.rect
  refine ⟨calls, hc, fun i hi hint => hp.symm.subset ?_⟩
  have hr : (s.segmentAt i).rect.intersectsRect q.rect = true := by
    rcases hint with h | h
    · exact Segment.intersectsRect_of_intersectsSegment h
    · rw [Rect.intersectsRect_comm]; exact Segment.intersectsRect_of_intersectsSegment h
  simp only [candidates, List.mem_map, List.mem_filter, List.mem_range]
  exact ⟨i, ⟨hi, hr⟩, rfl⟩

/-- The theorem at the ring `squareRing` with an index whose root is split, for the segment
from `(1, -1)` to `(2, 1)` across its bottom side. -/
theorem search_finds_intersecting_squareRing :
    let s : BaseSeries ℚ := makeSeries squareRing true (some ⟨1, 1⟩)
    let q : Segment ℚ := ⟨⟨1, -1⟩, ⟨2, 1⟩⟩
    s.tree.split = true ∧ Reachable s ∧ s.index.length < 2 ^ 32 ∧
      ∃ calls, s.search q.rect (fun _ _ _ => true) = .ok calls ∧
        ∀ i < s.numSegments, ((s.segmentAt i).intersectsSegment q = true ∨
          q.intersectsSegment (s.segmentAt i) = true) → (s.segmentAt i, (i : ℤ)) ∈ calls :=
  ⟨squareRing_index.1, .makeSeries _ _ _, squareRing_index.2.2,
    search_finds_intersecting (.makeSeries _ _ _) squareRing_index.2.2 _⟩

/-- **A larger query finds more.** On every series the package makes, indexed with a blob
shorter than `2 ^ 32` bytes or not indexed, `Search` with a callback that always answers `true`
calls, over a rectangle `R₂` holding `R₁`, every segment it calls over `R₁`. -/
theorem search_mono {s : BaseSeries α} (hs : Reachable s) (hlen : s.index.length < 2 ^ 32)
    {R₁ R₂ : Rect α} (hR : R₂.Contains R₁) :
    ∃ calls₁ calls₂, s.search R₁ (fun _ _ _ => true) = .ok calls₁ ∧
      s.search R₂ (fun _ _ _ => true) = .ok calls₂ ∧ calls₁ ⊆ calls₂ := by
  have h := reachable_consistent hs
  obtain ⟨c₁, hc₁, hp₁⟩ := h.search_true hlen R₁
  obtain ⟨c₂, hc₂, hp₂⟩ := h.search_true hlen R₂
  refine ⟨c₁, c₂, hc₁, hc₂, fun c hc => hp₂.symm.subset ?_⟩
  obtain ⟨i, hi, rfl⟩ := List.mem_map.1 (hp₁.subset hc)
  rw [List.mem_filter] at hi
  refine List.mem_map.2 ⟨i, List.mem_filter.2 ⟨hi.1, ?_⟩, rfl⟩
  rw [Rect.intersectsRect_comm] at hi ⊢
  exact Rect.intersectsRect_of_contains hR hi.2

/-- The theorem at the ring `squareRing` with an index whose root is split, for the unit square
inside the square `[0, 2] × [0, 2]` at its origin corner. -/
theorem search_mono_squareRing :
    let s : BaseSeries ℚ := makeSeries squareRing true (some ⟨1, 1⟩)
    s.tree.split = true ∧ Reachable s ∧ s.index.length < 2 ^ 32 ∧
      (⟨⟨0, 0⟩, ⟨2, 2⟩⟩ : Rect ℚ).Contains ⟨⟨0, 0⟩, ⟨1, 1⟩⟩ ∧
      ∃ calls₁ calls₂, s.search ⟨⟨0, 0⟩, ⟨1, 1⟩⟩ (fun _ _ _ => true) = .ok calls₁ ∧
        s.search ⟨⟨0, 0⟩, ⟨2, 2⟩⟩ (fun _ _ _ => true) = .ok calls₂ ∧ calls₁ ⊆ calls₂ :=
  ⟨squareRing_index.1, .makeSeries _ _ _, squareRing_index.2.2, by decide,
    search_mono (.makeSeries _ _ _) squareRing_index.2.2 (by decide)⟩

end SegmentIndex
