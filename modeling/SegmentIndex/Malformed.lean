import SegmentIndex.Overflow
import SegmentIndex.Uvarint

/-!
# Malformed Blobs

What the searches do with a blob the builder did not write. Neither checks what it reads. An
overflowing uvarint is the value `0` at the sentinel offset `-1`: it faults at the next read
from that offset, and only there. A quadrant size moves the cursor by `int(qsize)`, which wraps
modulo `2 ^ 64`, and is never compared with the end of the blob.

## Main results

* `overflow_read_as_empty`: on a blob whose last quadrant size overflows, the quadrant is
  taken as empty. `Search` returns without a call, and `DistanceToSeries` returns the answer
  for a series with no segment.
* `quadrant_wrap_loops`: on a blob whose quadrant size wraps the cursor back to the node it
  was read in, `qCompressSearch` and `qCompressNearbySegment` from that node never return.
-/

namespace SegmentIndex

section

variable {α : Type} [LinearOrderedField α]

/-- The zero rectangle meets itself. -/
theorem zero_intersectsRect_zero : (Rect.zero : Rect α).intersectsRect Rect.zero = true := by
  simp [Rect.zero]

/-! ### One step of the indexed searches over any blob -/

variable {data : List UInt8} {series : BaseSeries α} {rect bounds : Rect α} {iter : Callback α}
  {a a₁ : ℤ} {calls : List (Segment α × ℤ)}

/-- A node with no items and no quadrants returns without a call. -/
theorem qCompressSearch_leaf (fuel : ℕ) (hr : readUvarint data a = .ok (0, a₁))
    (hb : byteAt data a₁ = .ok 0) :
    qCompressSearch data series rect iter (fuel + 1) a bounds calls = .ok (true, calls) := by
  rw [qCompressSearch, hr, except_ok_bind]
  simp only [searchItems, except_ok_bind, hb]
  rfl

/-- A split node with no items goes on to its quadrants. -/
theorem qCompressSearch_split (fuel : ℕ) (hr : readUvarint data a = .ok (0, a₁))
    (hb : byteAt data a₁ = .ok 1) :
    qCompressSearch data series rect iter (fuel + 1) a bounds calls =
      searchQuads (qCompressSearch data series rect iter fuel) data bounds rect [0, 1, 2, 3]
        (a₁ + 1) calls := by
  rw [qCompressSearch, hr, except_ok_bind]
  simp only [searchItems, except_ok_bind, hb]
  rfl

variable {search : ℤ → Rect α → List (Segment α × ℤ) → Except Fault (Bool × List (Segment α × ℤ))}
  {q qsize : ℕ} {qs : List ℕ}

/-- A quadrant of size `0` is skipped by the search. -/
theorem searchQuads_empty (hr : readUvarint data a = .ok (0, a₁)) :
    searchQuads search data bounds rect (q :: qs) a calls =
      searchQuads search data bounds rect qs a₁ calls := by
  rw [searchQuads, hr, except_ok_bind]; rfl

/-- A quadrant whose search faults ends the quadrant loop with the fault. -/
theorem searchQuads_error {e : Fault} (hr : readUvarint data a = .ok (qsize, a₁)) (h0 : qsize ≠ 0)
    (hi : (quadBounds bounds q).intersectsRect rect = true)
    (hs : search a₁ (quadBounds bounds q) calls = .error e) :
    searchQuads search data bounds rect (q :: qs) a calls = .error e := by
  rw [searchQuads, hr, except_ok_bind]
  simp only [if_neg h0, hi, if_true, hs]
  rfl

/-- A quadrant whose search runs out moves the cursor on by its size, modulo `2 ^ 64`. -/
theorem searchQuads_enter {c : List (Segment α × ℤ)} (hr : readUvarint data a = .ok (qsize, a₁))
    (h0 : qsize ≠ 0) (hi : (quadBounds bounds q).intersectsRect rect = true)
    (hs : search a₁ (quadBounds bounds q) calls = .ok (true, c)) :
    searchQuads search data bounds rect (q :: qs) a calls =
      searchQuads search data bounds rect qs ((a₁ + qsize).bmod (2 ^ 64)) c := by
  rw [searchQuads, hr, except_ok_bind]
  simp only [if_neg h0, hi, if_true, hs, except_ok_bind]
  rfl

variable {distToRect : Rect α → α} {distToSegment : Segment α → α} {nq : List (Qnode α)}

/-- A split node with no items pushes what its quadrant loop pushes. -/
theorem nearbyNode_split {z : ℤ} {nq' : List (Qnode α)} (hr : readUvarint data a = .ok (0, a₁))
    (hb : byteAt data a₁ = .ok 1)
    (hq : nearbyQuads data distToRect bounds [0, 1, 2, 3] (a₁ + 1) nq = .ok (z, nq')) :
    nearbyNode data series distToRect distToSegment nq a bounds = .ok nq' := by
  rw [nearbyNode, hr, except_ok_bind]
  simp only [nearbyItems, except_ok_bind, hb, Bool.false_eq_true, if_false, if_true, hq]
  rfl

/-- A quadrant of size `0` is skipped by the nearest search. -/
theorem nearbyQuads_empty (hr : readUvarint data a = .ok (0, a₁)) :
    nearbyQuads data distToRect bounds (q :: qs) a nq =
      nearbyQuads data distToRect bounds qs a₁ nq := by
  rw [nearbyQuads, hr, except_ok_bind]; rfl

/-- A nonempty quadrant pushes a rectangle node at the cursor past its size, and moves the
cursor on by its size, modulo `2 ^ 64`. -/
theorem nearbyQuads_push (hr : readUvarint data a = .ok (qsize, a₁)) (h0 : qsize ≠ 0) :
    nearbyQuads data distToRect bounds (q :: qs) a nq =
      nearbyQuads data distToRect bounds qs ((a₁ + qsize).bmod (2 ^ 64))
        (Queue.push nq
          (Qnode.ofRect (quadBounds bounds q) (distToRect (quadBounds bounds q)) a₁)) := by
  rw [nearbyQuads, hr, except_ok_bind]
  simp only [if_neg h0]

end

/-! ### An overflow at the last quadrant -/

/-- A series whose index is a split root with no items and three empty quadrants, and whose
fourth quadrant size is ten continuation bytes, an overflow. -/
def overflowSeries : BaseSeries ℚ :=
  ⟨false, false, false, 1, [1, 20, 0, 0, 0, 0, 1, 0, 0, 0] ++ List.replicate 10 0x80, Rect.zero, []⟩

/-- **An overflow is read as an empty quadrant.** The size of the last quadrant of the root
overflows, and no read follows it. `Search` returns for every rectangle and callback without
a call. `DistanceToSeries` returns `(Segment{}, -1, NaN)`, the answer for a series with no
segment. Neither reports the corrupt blob. -/
theorem overflow_read_as_empty :
    readUvarint overflowSeries.index 10 = .ok (0, -1) ∧
      (∀ (rect : Rect ℚ) (iter : Callback ℚ), overflowSeries.search rect iter = .ok []) ∧
      ∀ (distToRect : Rect ℚ → ℚ) (distToSegment : Segment ℚ → ℚ),
        distanceToSeries overflowSeries distToRect distToSegment = .ok (⟨⟨0, 0⟩, ⟨0, 0⟩⟩, -1, none) := by
  have h10 : readUvarint overflowSeries.index 10 = .ok (0, -1) := (readUvarint_eq_list _ 10).trans rfl
  have h5 : readUvarint overflowSeries.index 5 = .ok (0, 6) := (readUvarint_eq_list _ 5).trans rfl
  have h7 : readUvarint overflowSeries.index 7 = .ok (0, 8) := (readUvarint_eq_list _ 7).trans rfl
  have h8 : readUvarint overflowSeries.index 8 = .ok (0, 9) := (readUvarint_eq_list _ 8).trans rfl
  have h9 : readUvarint overflowSeries.index 9 = .ok (0, 10) := (readUvarint_eq_list _ 9).trans rfl
  have hl : loadIndex overflowSeries.index = .ok overflowSeries.index := rfl
  have h6 : byteAt overflowSeries.index 6 = .ok 1 := rfl
  have hn : overflowSeries.index.length = 19 + 1 := rfl
  have h0 : overflowSeries.index.length ≠ 0 := by rw [hn]; omega
  refine ⟨h10, fun rect iter => ?_, fun distToRect distToSegment => ?_⟩
  · simp only [BaseSeries.search, hl, if_neg h0, except_ok_bind]
    rw [hn, qCompressSearch_split 19 h5 h6, show (6 : ℤ) + 1 = 7 from rfl, searchQuads_empty h7,
      searchQuads_empty h8, searchQuads_empty h9, searchQuads_empty h10]
    rfl
  · have hq : nearbyQuads overflowSeries.index distToRect overflowSeries.rect [0, 1, 2, 3] (6 + 1)
        [] = .ok (-1, []) := by
      rw [show (6 : ℤ) + 1 = 7 from rfl, nearbyQuads_empty h7, nearbyQuads_empty h8,
        nearbyQuads_empty h9, nearbyQuads_empty h10]
      rfl
    simp only [distanceToSeries, hl, if_neg h0, except_ok_bind]
    rw [hn, qCompressNearbySegment, nearbyNode_split h5 h6 hq, except_ok_bind, popNode_nil]
    rfl

/-! ### A quadrant size that wraps the cursor back -/

/-- A node at offset `1`, with no items, whose first quadrant is a leaf at offset `13`. Its
first quadrant size, `2 ^ 64 - 13`, wraps the cursor to offset `0`, where the second quadrant
size, `12`, is read. The second quadrant is then the node at offset `1` itself. -/
def loopBlob : List UInt8 :=
  [12, 0, 1, 0xF3, 0xFF, 0xFF, 0xFF, 0xFF, 0xFF, 0xFF, 0xFF, 0xFF, 0x01, 0, 0]

/-- The reads the searches make in `loopBlob`. -/
theorem loopBlob_reads :
    readUvarint loopBlob 1 = .ok (0, 2) ∧ byteAt loopBlob 2 = .ok 1 ∧
      readUvarint loopBlob 3 = .ok (2 ^ 64 - 13, 13) ∧ readUvarint loopBlob 0 = .ok (12, 1) ∧
      readUvarint loopBlob 13 = .ok (0, 14) ∧ byteAt loopBlob 14 = .ok 0 ∧
      readUvarint loopBlob 14 = .ok (0, 15) :=
  ⟨(readUvarint_eq_list _ 1).trans rfl, rfl, (readUvarint_eq_list _ 3).trans rfl,
    (readUvarint_eq_list _ 0).trans rfl, (readUvarint_eq_list _ 13).trans rfl, rfl,
    (readUvarint_eq_list _ 14).trans rfl⟩

/-- The two cursor moves in `loopBlob`: the first size wraps to `0`, the second leads to `13`. -/
theorem loopBlob_cursor :
    ((13 : ℤ) + ((2 ^ 64 - 13 : ℕ) : ℤ)).bmod (2 ^ 64) = 0 ∧
      ((1 : ℤ) + ((12 : ℕ) : ℤ)).bmod (2 ^ 64) = 13 :=
  ⟨by decide, by decide⟩

/-- The search of the node at offset `1` enters the node at `1` again, one level deeper: it
runs out of every nesting bound. -/
theorem qCompressSearch_loopBlob (series : BaseSeries ℚ) (iter : Callback ℚ) (fuel : ℕ)
    (calls : List (Segment ℚ × ℤ)) :
    qCompressSearch loopBlob series Rect.zero iter fuel 1 Rect.zero calls = .error .outOfFuel := by
  obtain ⟨h1, hb2, h3, h0, h13, hb14, -⟩ := loopBlob_reads
  have hi := zero_intersectsRect_zero (α := ℚ)
  induction fuel generalizing calls with
  | zero => rfl
  | succ fuel ih =>
    rw [qCompressSearch_split fuel h1 hb2, show (2 : ℤ) + 1 = 3 from rfl]
    rcases fuel with _ | fuel
    · exact searchQuads_error h3 (by omega) (by rwa [quadBounds_zero]) rfl
    · rw [searchQuads_enter h3 (by omega) (by rwa [quadBounds_zero])
        (by rw [quadBounds_zero]; exact qCompressSearch_leaf fuel h13 hb14), loopBlob_cursor.1]
      exact searchQuads_error h0 (by omega) (by rwa [quadBounds_zero])
        (by rw [quadBounds_zero]; exact ih calls)

/-- The node at offset `1` pushes the rectangle nodes of its quadrants at offsets `13` and
`1`, of the zero rectangle. -/
theorem nearbyNode_loopBlob (series : BaseSeries ℚ) (distToRect : Rect ℚ → ℚ)
    (distToSegment : Segment ℚ → ℚ) (nq : List (Qnode ℚ)) :
    nearbyNode loopBlob series distToRect distToSegment nq 1 Rect.zero =
      .ok (Queue.push (Queue.push nq (Qnode.ofRect Rect.zero (distToRect Rect.zero) 13))
        (Qnode.ofRect Rect.zero (distToRect Rect.zero) 1)) := by
  obtain ⟨h1, hb2, h3, h0, h13, -, h14⟩ := loopBlob_reads
  refine nearbyNode_split h1 hb2 (z := 15) ?_
  rw [show (2 : ℤ) + 1 = 3 from rfl, nearbyQuads_push h3 (by omega), loopBlob_cursor.1,
    nearbyQuads_push h0 (by omega), loopBlob_cursor.2, nearbyQuads_empty h13, nearbyQuads_empty h14,
    quadBounds_zero, quadBounds_zero]
  rfl

/-- Of the node at offset `1` and nodes at `13` of the same distance, `pop` takes the one at
`1`: `cmp` orders equal distances and kinds by the offset. -/
theorem popNode_loopBlob (d : ℚ) {nq : List (Qnode ℚ)} (hq : IsHeap nq)
    (h13 : ∀ e ∈ nq, e = Qnode.ofRect Rect.zero d 13) :
    ∃ nq', popNode (Queue.push (Queue.push nq (Qnode.ofRect Rect.zero d 13))
        (Qnode.ofRect Rect.zero d 1)) = (some (Qnode.ofRect Rect.zero d 1), nq') ∧
      IsHeap nq' ∧ ∀ e ∈ nq', e = Qnode.ofRect Rect.zero d 13 := by
  set r₁₃ := Qnode.ofRect (Rect.zero : Rect ℚ) d 13
  set r₁ := Qnode.ofRect (Rect.zero : Rect ℚ) d 1
  have hne : r₁ ≠ r₁₃ := by simp [r₁, r₁₃, Qnode.ofRect]
  obtain ⟨hh₁, hp₁⟩ := push_spec hq r₁₃
  obtain ⟨hh₂, hp₂⟩ := push_spec hh₁ r₁
  set Q := Queue.push (Queue.push nq r₁₃) r₁
  have hQ : Q.Perm (r₁ :: (nq ++ [r₁₃])) :=
    hp₂.trans ((hp₁.append_right [r₁]).trans (List.perm_append_singleton r₁ _))
  have hmem : ∀ e ∈ Q, e = r₁ ∨ e = r₁₃ := fun e he => by
    rcases List.mem_cons.1 (hQ.subset he) with h | h
    · exact .inl h
    · rcases List.mem_append.1 h with h | h
      · exact .inr (h13 e h)
      · exact .inr (List.mem_singleton.1 h)
  obtain ⟨⟨hempty, -, hperm, hleast⟩, hheap⟩ := pop_spec hh₂
  have hQne : Q ≠ [] := fun h => by rw [h] at hQ; exact List.cons_ne_nil _ _ hQ.symm.eq_nil
  have hpQ := hperm hQne
  have hfirst : (Queue.pop Q).1 = r₁ := by
    rcases hmem _ (hpQ.symm.subset (List.mem_cons_self _ _)) with h | h
    · exact h
    · have hr : r₁ ∈ (Queue.pop Q).2.2 := by
        rcases List.mem_cons.1 (hpQ.subset (hQ.symm.subset (List.mem_cons_self _ _))) with h' | h'
        · exact absurd (h'.trans h) hne
        · exact h'
      have hle := hleast r₁ hr
      rw [h] at hle
      simp [Qnode.Le, Qnode.cmp, r₁, r₁₃, Qnode.ofRect] at hle
  have htrue : (Queue.pop Q).2.1 = true := by
    by_contra hc; exact hQne (hempty.1 (by simpa using hc))
  have hkind : ∀ e ∈ Q, e.kind = qseg ∨ e.kind = qrect := fun e he =>
    .inr (by rcases hmem e he with rfl | rfl <;> rfl)
  have hrest : (Queue.pop Q).2.2.Perm (nq ++ [r₁₃]) :=
    (List.perm_cons r₁).1 (by have h := hpQ.symm.trans hQ; rwa [hfirst] at h)
  refine ⟨(Queue.pop Q).2.2, by rw [popNode_eq hh₂ hkind, if_pos htrue, hfirst], hheap,
    fun e he => ?_⟩
  rcases List.mem_append.1 (hrest.subset he) with h | h
  · exact h13 e h
  · exact List.mem_singleton.1 h

/-- The nearest search from the node at offset `1` reads it again and again: each read pushes
the rectangle nodes of its quadrants at offsets `13` and `1`, at the same distance, and the
one at `1` comes out first. It runs out of every bound on the nodes read. -/
theorem qCompressNearbySegment_loopBlob (series : BaseSeries ℚ) (distToRect : Rect ℚ → ℚ)
    (distToSegment : Segment ℚ → ℚ) (fuel : ℕ) (nq : List (Qnode ℚ)) (hq : IsHeap nq)
    (h13 : ∀ e ∈ nq, e = Qnode.ofRect Rect.zero (distToRect Rect.zero) 13) :
    qCompressNearbySegment loopBlob series distToRect distToSegment fuel nq 1 Rect.zero =
      .error .outOfFuel := by
  induction fuel generalizing nq with
  | zero => rfl
  | succ fuel ih =>
    obtain ⟨nq', hpop, hh, h13'⟩ := popNode_loopBlob (distToRect Rect.zero) hq h13
    rw [qCompressNearbySegment, nearbyNode_loopBlob, except_ok_bind]
    have hk : (Qnode.ofRect (Rect.zero : Rect ℚ) (distToRect Rect.zero) 1).kind ≠ qseg :=
      fun h => by simp [Qnode.ofRect, qrect, qseg] at h
    simp only [hpop, hk, if_false]
    exact ih nq' hh h13'

/-- **A wrapped quadrant size makes both searches loop.** On `loopBlob`, from the node at offset
`1`, with the zero rectangle as bounds and as query, `qCompressSearch` and
`qCompressNearbySegment` run out of every nesting bound, for every series, callback and pair of
distances: the Go functions recurse and loop forever. -/
theorem quadrant_wrap_loops (series : BaseSeries ℚ) :
    (∀ (iter : Callback ℚ) (fuel : ℕ) (calls : List (Segment ℚ × ℤ)),
      qCompressSearch loopBlob series Rect.zero iter fuel 1 Rect.zero calls = .error .outOfFuel) ∧
    ∀ (distToRect : Rect ℚ → ℚ) (distToSegment : Segment ℚ → ℚ) (fuel : ℕ),
      qCompressNearbySegment loopBlob series distToRect distToSegment fuel [] 1 Rect.zero =
        .error .outOfFuel :=
  ⟨qCompressSearch_loopBlob series, fun distToRect distToSegment fuel =>
    qCompressNearbySegment_loopBlob series distToRect distToSegment fuel [] isHeap_nil
      fun _ h => absurd h (List.not_mem_nil _)⟩

end SegmentIndex
