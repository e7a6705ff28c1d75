import SegmentIndex.Search

/-!
# What a callback sees of a search

`Search(rect, iter)` stops at the first call that `iter` answers `false`. This module shows
that this is all a callback can change: every search, indexed or not and over any blob, is
one enumeration `E` of calls with an ending (it returns, or it faults), and the search with
any callback offers `E` to it until the first `false` (`offer`). With a callback that always
answers `true` the search makes all of `E`; with any other it makes the first `k` calls of
`E`, where `k` is the position of the first `false`.

For a search that faults, `E` is what it offers before the fault: a callback that stops
within `E` never sees the fault. The nesting bound of `qCompressSearch` counts as a fault,
the one the model gives a blob whose traversal does not end.

## Main results

* `qCompressSearch_offer`: the indexed search from any offset of any blob is an enumeration
  with an ending, one for every callback.
* `search_first_false`: `Search` with any callback makes the calls of the always-true search
  up to the first `false`.
* `search_calls_meet`: whatever the callback answers, `Search` calls only segments that meet
  the query, and none for a query that misses the series.
-/

namespace SegmentIndex

variable {α : Type}

/-! ### Enumerations -/

/-- Mapping over a success maps its value. -/
@[simp] theorem except_map_ok {ε β γ : Type} (f : β → γ) (a : β) :
    Except.map f (.ok a : Except ε β) = .ok (f a) := rfl

/-- Mapping over a fault keeps the fault. -/
@[simp] theorem except_map_error {ε β γ : Type} (f : β → γ) (e : ε) :
    Except.map f (.error e : Except ε β) = .error e := rfl

/-- The answers of `iter` to the candidates `cands` after the calls `calls`, when all of
them are offered. -/
def answers (iter : Callback α) : List (Segment α × ℤ) → List (Segment α × ℤ) → List Bool
  | _, [] => []
  | calls, (seg, i) :: cands => iter calls seg i :: answers iter (calls ++ [(seg, i)]) cands

/-- There is one answer per candidate. -/
theorem answers_length (iter : Callback α) (calls cands : List (Segment α × ℤ)) :
    (answers iter calls cands).length = cands.length := by
  induction cands generalizing calls with
  | nil => rfl
  | cons c cands ih => obtain ⟨seg, i⟩ := c; simp [answers, ih]

/-- Offering `cands` makes them all while `iter` answers `true`, and stops after the first
`false`: the first `k` of them, `k` the position of that `false` (all if there is none). -/
theorem feed_eq_take (iter : Callback α) (calls cands : List (Segment α × ℤ)) :
    feed iter calls cands = ((answers iter calls cands).all id,
      calls ++ cands.take ((answers iter calls cands).indexOf false + 1)) := by
  induction cands generalizing calls with
  | nil => simp [answers]
  | cons c cands ih =>
    obtain ⟨seg, i⟩ := c
    cases h : iter calls seg i
    · simp [feed, answers, h]
    · simp [feed, answers, h, ih, List.indexOf_cons_ne _ Bool.false_ne_true]

/-- A search that offers `cands` to `iter` after the calls `calls` and, when the offer runs
out, ends with `r`: returns when `r` is `ok`, faults with `e` when it is `error e`. -/
def offer (iter : Callback α) (calls cands : List (Segment α × ℤ)) (r : Except Fault Unit) :
    Except Fault (Bool × List (Segment α × ℤ)) :=
  match feed iter calls cands with
  | (true, calls) => r.map fun _ => (true, calls)
  | (false, calls) => .ok (false, calls)

/-- An offer that runs out ends with `r`. -/
theorem offer_of_feed_true {iter : Callback α} {calls cands c : List (Segment α × ℤ)}
    (h : feed iter calls cands = (true, c)) (r : Except Fault Unit) :
    offer iter calls cands r = r.map fun _ => (true, c) := by
  simp [offer, h]

/-- An offer that runs out goes on with the next one. -/
theorem offer_append_of_feed_true {iter : Callback α} {calls l₁ c : List (Segment α × ℤ)}
    (h : feed iter calls l₁ = (true, c)) (l₂ : List (Segment α × ℤ)) (r : Except Fault Unit) :
    offer iter calls (l₁ ++ l₂) r = offer iter c l₂ r := by
  simp [offer, feed_append, h]

/-- An offer stopped by a `false` is not continued. -/
theorem offer_append_of_feed_false {iter : Callback α} {calls l₁ c : List (Segment α × ℤ)}
    (h : feed iter calls l₁ = (false, c)) (l₂ : List (Segment α × ℤ)) (r : Except Fault Unit) :
    offer iter calls (l₁ ++ l₂) r = .ok (false, c) := by
  simp [offer, feed_append, h]

/-- Offering nothing ends with `r`. -/
@[simp] theorem offer_nil (iter : Callback α) (calls : List (Segment α × ℤ))
    (r : Except Fault Unit) : offer iter calls [] r = r.map fun _ => (true, calls) := rfl

/-! ### The indexed search -/

variable [LinearOrderedField α] (data : List UInt8) (series : BaseSeries α) (rect : Rect α)

/-- The item loop is an enumeration ending at the cursor past the items, or in a fault;
stopped by a `false`, it returns some cursor that `qCompressSearch` drops. -/
theorem searchItems_offer : ∀ (k : ℕ) (addr : ℤ) (last : ℕ), ∃ (E : List (Segment α × ℤ))
    (r : Except Fault ℤ), ∀ (iter : Callback α) (calls : List (Segment α × ℤ)), ∃ stop : ℤ,
    searchItems data series rect iter k addr last calls =
      match feed iter calls E with
      | (true, c) => r.map fun a => (true, a, c)
      | (false, c) => .ok (false, stop, c)
  | 0, addr, _ => ⟨[], .ok addr, fun _ _ => ⟨0, rfl⟩⟩
  | k + 1, addr, last => by
    rcases hr : readUvarint data addr with e | ⟨item, a⟩
    · exact ⟨[], .error e, fun _ _ => ⟨0, by rw [searchItems, hr]; rfl⟩⟩
    rcases hs : series.segmentAtInt (toInt ((item + last) % 2 ^ 64)) with e | seg
    · exact ⟨[], .error e, fun _ _ =>
        ⟨0, by rw [searchItems, hr, except_ok_bind]; simp only [hs]; rfl⟩⟩
    obtain ⟨E, r, hE⟩ := searchItems_offer k a ((item + last) % 2 ^ 64)
    by_cases hi : seg.rect.intersectsRect rect
    · refine ⟨(seg, toInt ((item + last) % 2 ^ 64)) :: E, r, fun iter calls => ?_⟩
      cases ha : iter calls seg (toInt ((item + last) % 2 ^ 64))
      · exact ⟨a, by rw [searchItems, hr, except_ok_bind]; simp only [hs, except_ok_bind, hi, ha,
          if_true, Bool.not_false, feed, Bool.false_eq_true, if_false, except_pure_eq]⟩
      · obtain ⟨stop, h⟩ := hE iter (calls ++ [(seg, toInt ((item + last) % 2 ^ 64))])
        exact ⟨stop, by rw [searchItems, hr, except_ok_bind]; simp only [hs, except_ok_bind, hi,
          ha, if_true, Bool.not_true, feed, Bool.false_eq_true, if_false, h, except_pure_eq]⟩
    · refine ⟨E, r, fun iter calls => ?_⟩
      obtain ⟨stop, h⟩ := hE iter calls
      exact ⟨stop, by rw [searchItems, hr, except_ok_bind]; simp only [hs, except_ok_bind, hi,
        Bool.false_eq_true, if_false, h]⟩

/-- The quadrant loop is an enumeration with an ending when the search of every child is:
the children it enters, in order, each until the first that faults. -/
theorem searchQuads_offer
    (search : Callback α → ℤ → Rect α → List (Segment α × ℤ) →
      Except Fault (Bool × List (Segment α × ℤ))) (bounds : Rect α)
    (hs : ∀ addr qbounds, ∃ (E : List (Segment α × ℤ)) (r : Except Fault Unit),
      ∀ iter calls, search iter addr qbounds calls = offer iter calls E r) :
    ∀ (qs : List ℕ) (addr : ℤ), ∃ (E : List (Segment α × ℤ)) (r : Except Fault Unit),
      ∀ iter calls, searchQuads (search iter) data bounds rect qs addr calls = offer iter calls E r
  | [], _ => ⟨[], .ok (), fun _ _ => rfl⟩
  | q :: qs, addr => by
    rcases hr : readUvarint data addr with e | ⟨qsize, a⟩
    · exact ⟨[], .error e, fun _ _ => by rw [searchQuads, hr]; rfl⟩
    by_cases h0 : qsize = 0
    · obtain ⟨E, r, hE⟩ := searchQuads_offer search bounds hs qs a
      exact ⟨E, r, fun iter calls => by
        rw [searchQuads, hr, except_ok_bind]; simpa only [h0, if_true] using hE iter calls⟩
    obtain ⟨E₂, r₂, h₂⟩ := searchQuads_offer search bounds hs qs ((a + qsize).bmod (2 ^ 64))
    by_cases hi : (quadBounds bounds q).intersectsRect rect
    · obtain ⟨E₁, r₁, h₁⟩ := hs a (quadBounds bounds q)
      refine ⟨if r₁.toBool then E₁ ++ E₂ else E₁, r₁ >>= fun _ => r₂, fun iter calls => ?_⟩
      rw [searchQuads, hr, except_ok_bind]
      simp only [h0, if_false, hi, if_true, h₁, h₂]
      rcases hf : feed iter calls E₁ with ⟨_ | _, c⟩ <;> rcases r₁ with e | ⟨⟩
      all_goals simp [offer, feed_append, hf, Except.toBool]
    · exact ⟨E₂, r₂, fun iter calls => by
        rw [searchQuads, hr, except_ok_bind]
        simpa only [h0, if_false, hi, Bool.false_eq_true, except_pure_eq, except_ok_bind,
          Bool.not_true] using h₂ iter calls⟩

/-- **The indexed search is an enumeration with an ending.** From any offset of any blob,
at any nesting bound, `qCompressSearch` offers one list of calls to every callback, and ends
as one fault or returns once they are all made. -/
theorem qCompressSearch_offer : ∀ (fuel : ℕ) (addr : ℤ) (bounds : Rect α),
    ∃ (E : List (Segment α × ℤ)) (r : Except Fault Unit), ∀ iter calls,
      qCompressSearch data series rect iter fuel addr bounds calls = offer iter calls E r
  | 0, _, _ => ⟨[], .error .outOfFuel, fun _ _ => rfl⟩
  | fuel + 1, addr, bounds => by
    rcases hr : readUvarint data addr with e | ⟨nitems, a⟩
    · exact ⟨[], .error e, fun _ _ => by rw [qCompressSearch, hr]; rfl⟩
    obtain ⟨E₁, r₁, h₁⟩ := searchItems_offer data series rect nitems a 0
    rcases r₁ with e | a'
    · refine ⟨E₁, .error e, fun iter calls => ?_⟩
      obtain ⟨stop, h⟩ := h₁ iter calls
      rw [qCompressSearch, hr, except_ok_bind]; simp only [h]
      rcases hf : feed iter calls E₁ with ⟨_ | _, c⟩ <;> simp [offer, hf]
    rcases hb : byteAt data a' with e | split
    · refine ⟨E₁, .error e, fun iter calls => ?_⟩
      obtain ⟨stop, h⟩ := h₁ iter calls
      rw [qCompressSearch, hr, except_ok_bind]; simp only [h]
      rcases hf : feed iter calls E₁ with ⟨_ | _, c⟩ <;> simp [offer, hf, hb]
    by_cases hs : split = 1
    · obtain ⟨E₂, r₂, h₂⟩ := searchQuads_offer data rect
        (fun iter => qCompressSearch data series rect iter fuel) bounds
        (fun addr qbounds => qCompressSearch_offer fuel addr qbounds) [0, 1, 2, 3] (a' + 1)
      refine ⟨E₁ ++ E₂, r₂, fun iter calls => ?_⟩
      obtain ⟨stop, h⟩ := h₁ iter calls
      rw [qCompressSearch, hr, except_ok_bind]; simp only [h]
      rcases hf : feed iter calls E₁ with ⟨_ | _, c⟩
      · simp [offer_append_of_feed_false hf]
      · simp [offer_append_of_feed_true hf, hb, hs, h₂]
    · refine ⟨E₁, .ok (), fun iter calls => ?_⟩
      obtain ⟨stop, h⟩ := h₁ iter calls
      rw [qCompressSearch, hr, except_ok_bind]; simp only [h]
      rcases hf : feed iter calls E₁ with ⟨_ | _, c⟩ <;> simp [offer, hf, hb, hs]

/-! ### `Search` -/

/-- `Search` on any series, indexed or not and with any blob, is an enumeration with an
ending: it makes the calls `offer` makes. -/
theorem BaseSeries.search_offer (s : BaseSeries α) (rect : Rect α) :
    ∃ (E : List (Segment α × ℤ)) (r : Except Fault Unit), ∀ iter : Callback α,
      s.search rect iter = (offer iter [] E r).map Prod.snd := by
  by_cases h0 : s.index.length = 0
  · refine ⟨candidates s rect (List.range s.numSegments), .ok (), fun iter => ?_⟩
    rw [search, if_pos h0, searchLinear_eq_feed]
    rcases hf : feed iter [] (candidates s rect (List.range s.numSegments)) with ⟨_ | _, c⟩ <;>
      simp [offer, hf]
  rcases hl : loadIndex s.index with e | data
  · exact ⟨[], .error e, fun _ => by rw [search, if_neg h0, hl]; rfl⟩
  obtain ⟨E, r, h⟩ := qCompressSearch_offer data s rect data.length 5 s.rect
  refine ⟨E, r, fun iter => ?_⟩
  rw [search, if_neg h0, hl, except_ok_bind, h]
  rcases offer iter [] E r with e | ⟨_, c⟩ <;> rfl

/-- **A `false` stops `Search`, wherever it is answered.** For every series, indexed or not,
and every query rectangle there is one enumeration `E` of calls, with an ending `r`: the
always-true search makes all of `E` and then returns (`r` is `ok`) or faults. With any
callback, `Search` makes the first `k` calls of `E`, in order, where `k` is the position of
the first call it answers `false`; if it answers none of them `false`, it makes them all
and ends as the always-true search does. -/
theorem search_first_false (s : BaseSeries α) (rect : Rect α) :
    ∃ (E : List (Segment α × ℤ)) (r : Except Fault Unit),
      s.search rect (fun _ _ _ => true) = r.map (fun _ => E) ∧
      ∀ iter : Callback α, s.search rect iter =
        if (answers iter [] E).all id then r.map (fun _ => E)
        else .ok (E.take ((answers iter [] E).indexOf false + 1)) := by
  obtain ⟨E, r, h⟩ := s.search_offer rect
  refine ⟨E, r, ?_, fun iter => ?_⟩
  · rw [h, offer_of_feed_true (by rw [feed_true, List.nil_append])]
    rcases r with e | ⟨⟩ <;> rfl
  · rw [h, offer, feed_eq_take, List.nil_append]
    cases ha : (answers iter [] E).all id
    · rfl
    · have hE : E.take ((answers iter [] E).indexOf false + 1) = E := by
        refine List.take_of_length_le ?_
        rw [List.indexOf_eq_length.2 (by simpa using ha), answers_length]
        omega
      rw [hE, if_pos rfl]
      rcases r with e | ⟨⟩ <;> rfl

/-! ### Calls outside the query -/

/-- **`Search` calls only segments that meet the query.** On every series the package makes,
indexed with a blob shorter than `2 ^ 32` bytes or not indexed, and whatever the callback
answers, each call of `Search(rect, iter)` is for a segment of the series, given with its
index, whose rectangle meets `rect`. So a query that misses the series' rectangle makes no call
at all. -/
theorem search_calls_meet {s : BaseSeries α} (hs : Reachable s) (hlen : s.index.length < 2 ^ 32)
    (rect : Rect α) (iter : Callback α) :
    ∃ calls, s.search rect iter = .ok calls ∧
      (∀ c ∈ calls, ∃ i < s.numSegments, c = (s.segmentAt i, (i : ℤ)) ∧
        (s.segmentAt i).rect.intersectsRect rect = true) ∧
      (s.rect.intersectsRect rect = false → calls = []) := by
  have h := reachable_consistent hs
  obtain ⟨cands, hp, hc⟩ := h.search_feed hlen rect iter
  have hcalls : ∀ c ∈ (feed iter [] cands).2, ∃ i < s.numSegments,
      c = (s.segmentAt i, (i : ℤ)) ∧ (s.segmentAt i).rect.intersectsRect rect = true := by
    intro c hc
    rw [feed_eq_take, List.nil_append] at hc
    obtain ⟨i, ⟨hi, hr⟩, rfl⟩ : ∃ i, (i < s.numSegments ∧
        (s.segmentAt i).rect.intersectsRect rect = true) ∧ (s.segmentAt i, (i : ℤ)) = c := by
      simpa only [candidates, List.mem_map, List.mem_filter, List.mem_range] using
        hp.subset (List.mem_of_mem_take hc)
    exact ⟨i, hi, rfl, hr⟩
  refine ⟨_, hc, hcalls, fun hmiss => List.eq_nil_iff_forall_not_mem.2 fun c hc => ?_⟩
  obtain ⟨i, hi, -, hr⟩ := hcalls c hc
  exact Bool.false_ne_true (hmiss ▸ Rect.intersectsRect_of_contains (h.contains_segment hi) hr)

/-- The theorem at the ring `squareRing` with an index whose root is split, for the square
`[4, 6] × [4, 6]` over its far corner. -/
theorem search_calls_meet_squareRing :
    let s : BaseSeries ℚ := makeSeries squareRing true (some ⟨1, 1⟩)
    s.tree.split = true ∧ Reachable s ∧ s.index.length < 2 ^ 32 ∧
      ∃ calls, s.search ⟨⟨4, 4⟩, ⟨6, 6⟩⟩ (fun _ _ _ => true) = .ok calls ∧
        (∀ c ∈ calls, ∃ i < s.numSegments, c = (s.segmentAt i, (i : ℤ)) ∧
          (s.segmentAt i).rect.intersectsRect ⟨⟨4, 4⟩, ⟨6, 6⟩⟩ = true) ∧
        (s.rect.intersectsRect ⟨⟨4, 4⟩, ⟨6, 6⟩⟩ = false → calls = []) :=
  ⟨squareRing_index.1, .makeSeries _ _ _, squareRing_index.2.2,
    search_calls_meet (.makeSeries _ _ _) squareRing_index.2.2 _ _⟩

end SegmentIndex
