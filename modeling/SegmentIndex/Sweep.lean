import SegmentIndex.Index

/-!
# Winding and Convexity

What the sweep of `processPoints` computes besides the rectangle. Its iteration `i` reads the
triple `sweepTriple points i` = `(p[i], p[i+1], p[i+2])`, indices wrapping to the front, so
the pairs `(a, b)` it reads are the `n` consecutive pairs of the ring `p[0], …, p[n-1]`.

The winding sum `cwc` is the sum of `(b.x - a.x) * (b.y + a.y)` over these pairs, which is
minus the shoelace sum of the ring: `Clockwise()` is a negative signed area, and so does not
change when the ring is rotated or closed explicitly, and flips when it is reversed.

The convexity of the sweep looks at the cross products of its `n` triples. On a ring that
repeats `p[0]` as its last point the triples through the repeated point are degenerate, and
the turn at `p[0]` itself, from the last segment into the first, is never looked at.

## Main results

* `clockwise_shoelace`: `Clockwise()` of a closed series is a negative shoelace sum, invariant
  under rotation and explicit closing, and flipped by reversal when the area is not zero.
* `processPoints_convex_iff`: `processPoints` answers convex exactly when the cross products of
  its triples have one sign.
* `convex_iff_turns`: on a closed series whose last point is not its first, these are the turns
  at its vertices.
* `convex_dart`: a closed dart whose only reflex vertex is `p[0]`, given with `p[0]` repeated at
  the end, is reported convex.
* `convex_rotate_reverse`: `Convex()` of a closed series does not change when its points are
  rotated or reversed.
* `triangle_convex_clockwise`: every triangle is convex, and clockwise exactly when it turns
  right.
* `open_series_cyclic`: an open series is swept as a ring too, its triples and pairs wrapping
  from `p[n-1]` to `p[0]`.
* `open_series_wraps`: an open polyline that turns left at both of its inner vertices is
  reported not convex, and one of linear winding sum zero clockwise.
-/

namespace SegmentIndex

open Finset

variable {α : Type*} [LinearOrderedField α]

/-! ### Sums around a ring -/

/-- One step around a ring: the sum of `g` over the successors `(i + 1) % n` is its sum. -/
theorem sum_range_succ_mod {β : Type*} [AddCommMonoid β] (g : ℕ → β) (n : ℕ) :
    ∑ i ∈ range n, g ((i + 1) % n) = ∑ i ∈ range n, g i := by
  cases n with
  | zero => rfl
  | succ m =>
    rw [sum_range_succ, Nat.mod_self, sum_range_succ' g]
    congr 1
    exact sum_congr rfl fun i hi => by rw [Nat.mod_eq_of_lt (by simp at hi; omega)]

/-- **Sums around a ring do not depend on where they start.** -/
theorem sum_range_add_mod {β : Type*} [AddCommMonoid β] (g : ℕ → β) (n k : ℕ) :
    ∑ i ∈ range n, g ((i + k) % n) = ∑ i ∈ range n, g i := by
  induction k with
  | zero => exact sum_congr rfl fun i hi => by rw [Nat.add_zero, Nat.mod_eq_of_lt (mem_range.1 hi)]
  | succ k ih =>
    rw [← ih, ← sum_range_succ_mod (fun j => g ((j + k) % n))]
    exact sum_congr rfl fun i _ => by rw [Nat.mod_add_mod, Nat.add_right_comm, Nat.add_assoc]

/-! ### The winding sum -/

/-- The shoelace sum of the ring `p[0], …, p[n-1]`, indices taken mod `n`: twice its signed
area, positive counterclockwise. -/
def shoelace (points : List (Point α)) : α :=
  ∑ i ∈ range points.length,
    ((getPoint points i).x * (getPoint points ((i + 1) % points.length)).y -
      (getPoint points ((i + 1) % points.length)).x * (getPoint points i).y)

/-- The term iteration `i` adds to `cwc`. -/
def cwcTerm (points : List (Point α)) (i : ℕ) : α :=
  ((sweepTriple points i).2.1.x - (sweepTriple points i).1.x) *
    ((sweepTriple points i).2.1.y + (sweepTriple points i).1.y)

/-- Each step adds its pair's term to the winding sum. -/
@[simp] theorem processStep_cwc (points : List (Point α)) (st : Sweep α) (i : ℕ) :
    (processStep points st i).cwc = st.cwc + cwcTerm points i := by
  unfold processStep cwcTerm
  rcases sweepTriple points i with ⟨a, b, c⟩
  dsimp only
  split_ifs <;> rfl

/-- After `k` steps the winding sum has gained the terms of the first `k` pairs. -/
theorem foldl_processStep_cwc (points : List (Point α)) (st : Sweep α) (k : ℕ) :
    ((List.range k).foldl (processStep points) st).cwc = st.cwc + ∑ i ∈ range k, cwcTerm points i := by
  induction k with
  | zero => simp
  | succ k ih => rw [List.range_succ, List.foldl_append, List.foldl_cons, List.foldl_nil,
      processStep_cwc, ih, sum_range_succ, add_assoc]

/-- Iteration `i` reads the pair `(p[i], p[(i + 1) % n])`. -/
theorem sweepTriple_pair (points : List (Point α)) {i : ℕ} (hi : i < points.length) :
    (sweepTriple points i).1 = getPoint points i ∧
      (sweepTriple points i).2.1 = getPoint points ((i + 1) % points.length) := by
  simp only [sweepTriple]
  split_ifs with h1 h2
  · simp [show i + 1 = points.length by omega]
  · simp [Nat.mod_eq_of_lt (show i + 1 < points.length by omega)]
  · simp [Nat.mod_eq_of_lt (show i + 1 < points.length by omega)]

/-- **The winding sum is minus the shoelace sum.** -/
theorem cwc_eq_neg_shoelace (points : List (Point α)) :
    ∑ i ∈ range points.length, cwcTerm points i = -shoelace points := by
  set n := points.length
  have h : ∀ i ∈ range n, cwcTerm points i =
      ((getPoint points ((i + 1) % n)).x * (getPoint points ((i + 1) % n)).y -
        (getPoint points i).x * (getPoint points i).y) -
      ((getPoint points i).x * (getPoint points ((i + 1) % n)).y -
        (getPoint points ((i + 1) % n)).x * (getPoint points i).y) := fun i hi => by
    obtain ⟨h1, h2⟩ := sweepTriple_pair points (mem_range.1 hi)
    rw [cwcTerm, h1, h2]; ring
  rw [sum_congr rfl h, sum_sub_distrib, sum_sub_distrib,
    sum_range_succ_mod (fun j => (getPoint points j).x * (getPoint points j).y), sub_self,
    zero_sub, shoelace]

/-- `Clockwise()` of a closed series of at least three points is a negative shoelace sum. -/
theorem clockwise_iff_shoelace (points : List (Point α)) (opts : Option IndexOptions)
    (h : 3 ≤ points.length) :
    (makeSeries points true opts).clockwise = true ↔ shoelace points < 0 := by
  rw [(makeSeries_flags points true opts).2.1, processPoints, if_neg (by simp; omega)]
  simp only [foldl_processStep_cwc, cwc_eq_neg_shoelace, zero_add, decide_eq_true_eq]
  exact neg_pos

/-! ### Rotation, closing and reversal -/

/-- Point `i` of the list rotated by `k` is point `i + k` of the list, modulo its length. -/
theorem getPoint_rotate (points : List (Point α)) (k : ℕ) {i : ℕ} (hi : i < points.length) :
    getPoint (points.rotate k) i = getPoint points ((i + k) % points.length) := by
  simp [getPoint, List.getD_eq_getElem?_getD, List.getElem?_rotate hi]

/-- The shoelace sum does not depend on the vertex the ring starts from. -/
theorem shoelace_rotate (points : List (Point α)) (k : ℕ) :
    shoelace (points.rotate k) = shoelace points := by
  unfold shoelace
  rw [List.length_rotate]
  set n := points.length
  rw [← sum_range_add_mod (fun i => (getPoint points i).x * (getPoint points ((i + 1) % n)).y -
    (getPoint points ((i + 1) % n)).x * (getPoint points i).y) n k]
  refine sum_congr rfl fun i hi => ?_
  have hn : 0 < n := by simp at hi; omega
  have e : ((i + 1) % n + k) % n = ((i + k) % n + 1) % n := by
    rw [Nat.mod_add_mod, Nat.mod_add_mod, Nat.add_right_comm]
  rw [getPoint_rotate _ _ (mem_range.1 hi), getPoint_rotate _ _ (Nat.mod_lt _ hn), e]

/-- Closing a ring explicitly, by repeating its first point, leaves its shoelace sum as it is:
the new pair from the repeated point back to itself adds zero. -/
theorem shoelace_append_first (points : List (Point α)) (hne : points ≠ []) :
    shoelace (points ++ [getPoint points 0]) = shoelace points := by
  unfold shoelace
  set n := points.length
  have hn : 0 < n := List.length_pos.2 hne
  have hp : ∀ i < n, getPoint (points ++ [getPoint points 0]) i = getPoint points i := fun i hi => by
    simp [getPoint, List.getD_eq_getElem?_getD, List.getElem?_append_left hi]
  have hlast : getPoint (points ++ [getPoint points 0]) n = getPoint points 0 := by
    simp [getPoint, List.getD_eq_getElem?_getD, n]
  simp only [List.length_append, List.length_singleton]
  rw [sum_range_succ, Nat.mod_self, hlast, hp 0 hn, sub_self, add_zero]
  refine sum_congr rfl fun i hi => ?_
  have hi := mem_range.1 hi
  rw [hp i hi]
  rcases Nat.lt_or_ge (i + 1) n with h1 | h1
  · rw [Nat.mod_eq_of_lt (by omega : i + 1 < n + 1), Nat.mod_eq_of_lt h1, hp _ h1]
  · have e : i + 1 = n := by omega
    rw [Nat.mod_eq_of_lt (show i + 1 < n + 1 by omega), e, Nat.mod_self, hlast]

/-- Walking a ring backwards negates its shoelace sum. -/
theorem shoelace_reverse (points : List (Point α)) :
    shoelace points.reverse = -shoelace points := by
  unfold shoelace
  rw [List.length_reverse]
  set n := points.length
  have hr : ∀ i < n, getPoint points.reverse i = getPoint points (n - 1 - i) := fun i hi => by
    simp [getPoint, List.getD_eq_getElem?_getD, List.getElem?_reverse hi, n]
  -- reflect, then step the ring back by one
  set G : ℕ → α := fun j => (getPoint points j).x * (getPoint points ((j + n - 1) % n)).y -
    (getPoint points ((j + n - 1) % n)).x * (getPoint points j).y
  have h1 : ∑ i ∈ range n, ((getPoint points.reverse i).x *
      (getPoint points.reverse ((i + 1) % n)).y - (getPoint points.reverse ((i + 1) % n)).x *
        (getPoint points.reverse i).y) = ∑ i ∈ range n, G (n - 1 - i) := by
    refine sum_congr rfl fun i hi => ?_
    have hi := mem_range.1 hi
    have e : n - 1 - (i + 1) % n = (n - 1 - i + n - 1) % n := by
      rcases Nat.lt_or_ge (i + 1) n with h | h
      · rw [Nat.mod_eq_of_lt h, show n - 1 - i + n - 1 = (n - 1 - (i + 1)) + n by omega,
          Nat.add_mod_right, Nat.mod_eq_of_lt (by omega)]
      · rw [show i + 1 = n by omega, Nat.mod_self, show n - 1 - i + n - 1 = n - 1 by omega,
          Nat.mod_eq_of_lt (by omega), Nat.sub_zero]
    rw [hr i hi, hr _ (Nat.mod_lt _ (by omega)), e]
  have h2 : ∀ j ∈ range n, G ((j + 1) % n) =
      -((getPoint points j).x * (getPoint points ((j + 1) % n)).y -
        (getPoint points ((j + 1) % n)).x * (getPoint points j).y) := fun j hj => by
    have hj := mem_range.1 hj
    have e : ((j + 1) % n + n - 1) % n = j := by
      rcases Nat.lt_or_ge (j + 1) n with h | h
      · rw [Nat.mod_eq_of_lt h, show j + 1 + n - 1 = j + n by omega, Nat.add_mod_right,
          Nat.mod_eq_of_lt hj]
      · rw [show j + 1 = n by omega, Nat.mod_self, Nat.zero_add, Nat.mod_eq_of_lt (by omega)]
        omega
    simp only [G, e]; ring
  rw [h1, sum_range_reflect G n, ← sum_range_succ_mod G n, sum_congr rfl h2, sum_neg_distrib]

/-- **`Clockwise()` is the sign of the shoelace sum.** For a closed series of at least three
points, `Clockwise()` holds exactly when the shoelace sum of its ring is negative; it does not
change when the points are rotated or `p[0]` is repeated at the end, and reversing the points
flips it when the area is not zero. -/
theorem clockwise_shoelace (points : List (Point α)) (opts : Option IndexOptions)
    (h : 3 ≤ points.length) :
    ((makeSeries points true opts).clockwise = true ↔ shoelace points < 0) ∧
    (∀ k, (makeSeries (points.rotate k) true opts).clockwise =
      (makeSeries points true opts).clockwise) ∧
    (makeSeries (points ++ [getPoint points 0]) true opts).clockwise =
      (makeSeries points true opts).clockwise ∧
    (shoelace points ≠ 0 →
      (makeSeries points.reverse true opts).clockwise = !(makeSeries points true opts).clockwise) := by
  have hne : points ≠ [] := fun e => by simp [e] at h
  have iff := clockwise_iff_shoelace points opts h
  refine ⟨iff, fun k => ?_, ?_, fun h0 => ?_⟩
  · rw [Bool.eq_iff_iff, iff, clockwise_iff_shoelace _ opts (by simpa using h), shoelace_rotate]
  · rw [Bool.eq_iff_iff, iff, clockwise_iff_shoelace _ opts (by simp; omega),
      shoelace_append_first _ hne]
  · have hr := clockwise_iff_shoelace points.reverse opts (by simpa using h)
    rw [shoelace_reverse, neg_lt_zero] at hr
    cases hc : (makeSeries points true opts).clockwise
    · rw [Bool.not_false, hr]
      exact lt_of_le_of_ne (not_lt.1 fun h' => by simp [iff.2 h'] at hc) (Ne.symm h0)
    · rw [Bool.not_true, ← Bool.not_eq_true, hr, not_lt]
      exact (iff.1 hc).le

/-- The theorem at a counterclockwise triangle. -/
theorem clockwise_shoelace_triangle :
    3 ≤ ([⟨0, 0⟩, ⟨1, 0⟩, ⟨0, 1⟩] : List (Point ℚ)).length ∧
    (((makeSeries ([⟨0, 0⟩, ⟨1, 0⟩, ⟨0, 1⟩] : List (Point ℚ)) true none).clockwise = true ↔
        shoelace ([⟨0, 0⟩, ⟨1, 0⟩, ⟨0, 1⟩] : List (Point ℚ)) < 0) ∧
      (∀ k, (makeSeries (([⟨0, 0⟩, ⟨1, 0⟩, ⟨0, 1⟩] : List (Point ℚ)).rotate k) true none).clockwise =
        (makeSeries ([⟨0, 0⟩, ⟨1, 0⟩, ⟨0, 1⟩] : List (Point ℚ)) true none).clockwise) ∧
      (makeSeries (([⟨0, 0⟩, ⟨1, 0⟩, ⟨0, 1⟩] : List (Point ℚ)) ++
          [getPoint ([⟨0, 0⟩, ⟨1, 0⟩, ⟨0, 1⟩] : List (Point ℚ)) 0]) true none).clockwise =
        (makeSeries ([⟨0, 0⟩, ⟨1, 0⟩, ⟨0, 1⟩] : List (Point ℚ)) true none).clockwise ∧
      (shoelace ([⟨0, 0⟩, ⟨1, 0⟩, ⟨0, 1⟩] : List (Point ℚ)) ≠ 0 →
        (makeSeries ([⟨0, 0⟩, ⟨1, 0⟩, ⟨0, 1⟩] : List (Point ℚ)).reverse true none).clockwise =
          !(makeSeries ([⟨0, 0⟩, ⟨1, 0⟩, ⟨0, 1⟩] : List (Point ℚ)) true none).clockwise)) :=
  ⟨by decide, clockwise_shoelace _ none (by decide)⟩

/-! ### Convexity -/

/-- The cross product iteration `i` looks at. -/
def crossAt (points : List (Point α)) (i : ℕ) : α :=
  zCross (sweepTriple points i).1 (sweepTriple points i).2.1 (sweepTriple points i).2.2

/-- What the convexity variables `(concave, dir)` of the sweep say of the first `k` cross
products `z`: none was nonzero, or all were of the sign `dir` and one was nonzero, or a
negative and a positive one were seen. -/
inductive ConvexInv (z : ℕ → α) (k : ℕ) : Bool → ℤ → Prop
  | flat : (∀ i < k, z i = 0) → ConvexInv z k false 0
  | up : (∀ i < k, 0 ≤ z i) → (∃ j < k, 0 < z j) → ConvexInv z k false 1
  | down : (∀ i < k, z i ≤ 0) → (∃ j < k, z j < 0) → ConvexInv z k false (-1)
  | mixed (dir : ℤ) : (∃ i < k, z i < 0) → (∃ j < k, 0 < z j) → ConvexInv z k true dir

section ConvexInv

variable {z : ℕ → α} {k : ℕ}

/-- Once both signs have been seen, one more step keeps the sweep marked concave. -/
theorem ConvexInv.succ_of_mixed {dir : ℤ} (h : ConvexInv z k true dir) :
    ConvexInv z (k + 1) true dir := by
  cases h with
  | mixed _ hneg hpos =>
    obtain ⟨⟨i, hi, hi'⟩, ⟨j, hj, hj'⟩⟩ := And.intro hneg hpos
    exact .mixed _ ⟨i, Nat.lt_succ_of_lt hi, hi'⟩ ⟨j, Nat.lt_succ_of_lt hj, hj'⟩

/-- One step of `convexStep`, on the cross product at `k`, keeps `ConvexInv`. -/
theorem ConvexInv.convexStep_succ {dir : ℤ} (h : ConvexInv z k false dir) :
    ConvexInv z (k + 1) (convexStep false dir (z k)).1 (convexStep false dir (z k)).2 := by
  have old : ∀ {P : ℕ → Prop}, (∃ j < k, P j) → ∃ j < k + 1, P j := fun ⟨j, hj, hp⟩ =>
    ⟨j, Nat.lt_succ_of_lt hj, hp⟩
  have now : ∀ {P : ℕ → Prop}, P k → ∃ j < k + 1, P j := fun hp => ⟨k, k.lt_succ_self, hp⟩
  have all : ∀ {P : ℕ → Prop}, (∀ i < k, P i) → P k → ∀ i < k + 1, P i := fun hp hk i hi =>
    (Nat.lt_succ_iff_lt_or_eq.1 hi).elim (hp i) (· ▸ hk)
  rcases lt_trichotomy (z k) 0 with hz | hz | hz
  · have hz' := hz.not_lt
    cases h with
    | flat h0 => simpa [convexStep, hz] using .down (all (fun i hi => (h0 i hi).le) hz.le) (now hz)
    | up _ hpos => simpa [convexStep, hz] using .mixed 1 (now hz) (old hpos)
    | down hneg hj => simpa [convexStep, hz] using .down (all hneg hz.le) (old hj)
  · cases h with
    | flat h0 => simpa [convexStep, hz] using .flat (all h0 hz)
    | up hpos hj => simpa [convexStep, hz] using .up (all hpos hz.ge) (old hj)
    | down hneg hj => simpa [convexStep, hz] using .down (all hneg hz.le) (old hj)
  · have hz' := hz.not_lt
    cases h with
    | flat h0 => simpa [convexStep, hz, hz'] using .up (all (fun i hi => (h0 i hi).ge) hz.le) (now hz)
    | up hpos hj => simpa [convexStep, hz, hz'] using .up (all hpos hz.le) (old hj)
    | down _ hneg => simpa [convexStep, hz, hz'] using .mixed (-1) (old hneg) (now hz)

end ConvexInv

/-- The convexity variables after one iteration: left alone once `concave` is set, else
`convexStep` of the cross product the iteration reads. -/
theorem processStep_convex (points : List (Point α)) (st : Sweep α) (i : ℕ) :
    (processStep points st i).concave =
        (if st.concave then true else (convexStep false st.dir (crossAt points i)).1) ∧
      (processStep points st i).dir =
        (if st.concave then st.dir else (convexStep false st.dir (crossAt points i)).2) := by
  unfold processStep crossAt
  rcases st with ⟨_ | _, dir, rect, cwc⟩ <;> rcases sweepTriple points i with ⟨a, b, c⟩ <;>
    exact ⟨rfl, rfl⟩

/-- **The convexity invariant of the sweep.** After `k` steps from the initial state, the
`concave` flag and `dir` describe the signs of the first `k` cross products. -/
theorem foldl_processStep_convexInv (points : List (Point α)) (k : ℕ) :
    let st := (List.range k).foldl (processStep points) ⟨false, 0, Rect.zero, 0⟩
    ConvexInv (crossAt points) k st.concave st.dir := by
  induction k with
  | zero => exact .flat nofun
  | succ k ih =>
    simp only [List.range_succ, List.foldl_append, List.foldl_cons, List.foldl_nil]
    generalize (List.range k).foldl (processStep points) ⟨false, 0, Rect.zero, 0⟩ = st at ih ⊢
    dsimp only at ih ⊢
    rw [(processStep_convex points st k).1, (processStep_convex points st k).2]
    cases hc : st.concave <;> rw [hc] at ih
    · exact ih.convexStep_succ
    · exact ih.succ_of_mixed

/-- **What `processPoints` calls convex**: the cross products of the triples its sweep reads,
one per point, are all of one sign, zeros aside. -/
theorem processPoints_convex_iff {points : List (Point α)} {closed : Bool}
    (h : ¬((closed && points.length < 3) || points.length < 2)) :
    (processPoints points closed).1 = true ↔
      (∀ i < points.length, 0 ≤ crossAt points i) ∨ (∀ i < points.length, crossAt points i ≤ 0) := by
  have hinv := foldl_processStep_convexInv points points.length
  dsimp only at hinv
  simp only [processPoints, h, if_false]
  generalize (List.range points.length).foldl (processStep points) ⟨false, 0, Rect.zero, 0⟩ = st
    at hinv ⊢
  generalize st.concave = c at hinv ⊢
  generalize st.dir = d at hinv
  cases hinv with
  | flat h0 => exact iff_of_true rfl (.inl fun i hi => (h0 i hi).ge)
  | up hpos _ => exact iff_of_true rfl (.inl hpos)
  | down hneg _ => exact iff_of_true rfl (.inr hneg)
  | mixed _ hneg hpos =>
    obtain ⟨⟨i, hi, hi'⟩, ⟨j, hj, hj'⟩⟩ := And.intro hneg hpos
    refine iff_of_false Bool.false_ne_true ?_
    rintro (h | h)
    · exact (h i hi).not_lt hi'
    · exact (h j hj).not_lt hj'

/-- The turn of a ring at the vertex where segment `j` starts: the cross product of the segment
before it, cyclically among the `NumSegments()` segments, with segment `j`. -/
def BaseSeries.turn (s : BaseSeries α) (j : ℕ) : α :=
  let u := s.segmentAt ((j + s.numSegments - 1) % s.numSegments)
  let v := s.segmentAt j
  (u.b.x - u.a.x) * (v.b.y - v.a.y) - (u.b.y - u.a.y) * (v.b.x - v.a.x)

/-- Iteration `i` of the sweep reads `(p[i], p[i+1], p[i+2])`, indices modulo `n`. -/
theorem sweepTriple_eq (points : List (Point α)) {i : ℕ} (h2 : 2 ≤ points.length)
    (hi : i < points.length) :
    sweepTriple points i = (getPoint points i, getPoint points ((i + 1) % points.length),
      getPoint points ((i + 2) % points.length)) := by
  simp only [sweepTriple]
  split_ifs with h1 h2'
  · rw [show i + 2 = 1 + points.length by omega, show i + 1 = points.length by omega,
      Nat.add_mod_right, Nat.mod_self, Nat.mod_eq_of_lt (show 1 < points.length by omega)]
  · rw [show i + 2 = points.length by omega, Nat.mod_self,
      Nat.mod_eq_of_lt (show i + 1 < points.length by omega)]
  · rw [Nat.mod_eq_of_lt (show i + 1 < points.length by omega),
      Nat.mod_eq_of_lt (show i + 2 < points.length by omega)]

/-- Below the number of points, segment `k` runs from point `k` to the next point of the ring. -/
theorem BaseSeries.segmentAt_of_lt (s : BaseSeries α) {k : ℕ} (hk : k < s.points.length) :
    s.segmentAt k = ⟨getPoint s.points k, getPoint s.points ((k + 1) % s.points.length)⟩ := by
  unfold BaseSeries.segmentAt
  split_ifs with h
  · rw [show k + 1 = s.points.length by omega, Nat.mod_self]
  · rw [Nat.mod_eq_of_lt (show k + 1 < s.points.length by omega)]

/-- A property of every index below `n` is one of every successor modulo `n`. -/
theorem forall_lt_iff_succ_mod {n : ℕ} (hn : 0 < n) (P : ℕ → Prop) :
    (∀ j < n, P j) ↔ ∀ i < n, P ((i + 1) % n) := by
  refine ⟨fun h i _ => h _ (Nat.mod_lt _ hn), fun h j hj => ?_⟩
  have e : ((j + n - 1) % n + 1) % n = j := by
    rw [Nat.mod_add_mod, show j + n - 1 + 1 = j + n by omega, Nat.add_mod_right,
      Nat.mod_eq_of_lt hj]
  exact e ▸ h _ (Nat.mod_lt _ hn)

/-- **Without a repeated closing point, convexity is the sign of the turns**: a closed series
of `n ≥ 3` points whose last point is not its first has `n` segments, iteration `i` of the
sweep reads the turn at `p[i + 1]`, and so the series is convex exactly when its turns, zeros
aside, have one sign. -/
theorem convex_iff_turns (points : List (Point α)) (opts : Option IndexOptions)
    (h3 : 3 ≤ points.length) (hne : getPoint points (points.length - 1) ≠ getPoint points 0) :
    let s := makeSeries points true opts
    s.numSegments = points.length ∧
      (s.convex = true ↔
        (∀ j < s.numSegments, 0 ≤ s.turn j) ∨ (∀ j < s.numSegments, s.turn j ≤ 0)) := by
  intro s
  obtain ⟨hc, -, hp, hcl⟩ := makeSeries_flags points true opts
  have hn : s.numSegments = points.length := by
    simp only [s, BaseSeries.numSegments, hp, hcl, if_true, if_neg (show ¬ points.length < 3 by omega),
      if_neg hne]
  have hturn : ∀ i < points.length, s.turn ((i + 1) % points.length) = crossAt points i := by
    intro i hi
    have hj : ((i + 1) % points.length + points.length - 1) % points.length = i := by
      by_cases h : i + 1 < points.length
      · rw [Nat.mod_eq_of_lt h, show i + 1 + points.length - 1 = i + points.length by omega,
          Nat.add_mod_right, Nat.mod_eq_of_lt hi]
      · rw [show i + 1 = points.length by omega, Nat.mod_self, Nat.zero_add,
          Nat.mod_eq_of_lt (by omega)]
        omega
    have hps : s.points = points := hp
    have hk : (i + 1) % points.length < s.points.length := by
      rw [hps]; exact Nat.mod_lt _ (by omega)
    simp only [BaseSeries.turn, hn, hj, crossAt, zCross, sweepTriple_eq points (by omega) hi,
      s.segmentAt_of_lt (by rw [hps]; exact hi), s.segmentAt_of_lt hk, hps, Nat.mod_add_mod]
  refine ⟨hn, ?_⟩
  rw [hc, processPoints_convex_iff (by simp; omega), hn,
    forall_lt_iff_succ_mod (by omega : 0 < points.length) (fun j => 0 ≤ s.turn j),
    forall_lt_iff_succ_mod (by omega : 0 < points.length) (fun j => s.turn j ≤ 0)]
  exact or_congr (forall₂_congr fun i hi => by rw [hturn i hi])
    (forall₂_congr fun i hi => by rw [hturn i hi])

/-- The theorem at a triangle. -/
theorem convex_iff_turns_triangle :
    let p : List (Point ℚ) := [⟨0, 0⟩, ⟨1, 0⟩, ⟨0, 1⟩]
    3 ≤ p.length ∧ getPoint p (p.length - 1) ≠ getPoint p 0 ∧
      (makeSeries p true none).numSegments = p.length ∧
      ((makeSeries p true none).convex = true ↔
        (∀ j < (makeSeries p true none).numSegments, 0 ≤ (makeSeries p true none).turn j) ∨
        (∀ j < (makeSeries p true none).numSegments, (makeSeries p true none).turn j ≤ 0)) :=
  ⟨by decide, by decide, convex_iff_turns _ none (by decide) (by decide)⟩

/-- A dart closed explicitly, `p[4] = p[0]`, whose only reflex vertex is `p[0]`: the turn at
`p[0]`, from the last segment into the first, is negative and the other three are positive,
but the sweep's triples through the repeated point are degenerate and the triple at `p[0]`
never comes: `Convex()` is true. -/
theorem convex_dart :
    let s : BaseSeries ℚ := makeSeries [⟨2, 1⟩, ⟨4, 0⟩, ⟨2, 4⟩, ⟨0, 0⟩, ⟨2, 1⟩] true none
    s.convex = true ∧ s.numSegments = 4 ∧
      s.turn 0 < 0 ∧ 0 < s.turn 1 ∧ 0 < s.turn 2 ∧ 0 < s.turn 3 := by
  intro s
  obtain ⟨hc, -, hp, hcl⟩ := makeSeries_flags
    ([⟨2, 1⟩, ⟨4, 0⟩, ⟨2, 4⟩, ⟨0, 0⟩, ⟨2, 1⟩] : List (Point ℚ)) true none
  have hn : s.numSegments = 4 := by simp [s, BaseSeries.numSegments, hp, hcl, getPoint]
  refine ⟨?_, hn, ?_⟩
  · rw [hc, processPoints_convex_iff (by simp)]
    refine .inl fun i hi => ?_
    simp only [List.length_cons, List.length_nil] at hi
    interval_cases i <;>
      simp only [crossAt, sweepTriple, zCross, getPoint, List.length_cons, List.length_nil,
        List.getD_cons_zero, List.getD_cons_succ] <;> norm_num
  · simp only [BaseSeries.turn, hn, BaseSeries.segmentAt, s, hp, getPoint, List.length_cons,
      List.length_nil, List.getD_cons_zero, List.getD_cons_succ]
    norm_num

/-! ### Rotation and reversal -/

/-- A property of every index below `n` is one of every index shifted by `k` modulo `n`. -/
theorem forall_lt_iff_add_mod {n : ℕ} (hn : 0 < n) (P : ℕ → Prop) (k : ℕ) :
    (∀ j < n, P j) ↔ ∀ i < n, P ((i + k) % n) := by
  induction k with
  | zero => exact forall₂_congr fun i hi => by rw [Nat.add_zero, Nat.mod_eq_of_lt hi]
  | succ k ih =>
    refine ih.trans ((forall_lt_iff_succ_mod hn _).trans (forall₂_congr fun i _ => ?_))
    rw [Nat.mod_add_mod, Nat.add_right_comm, Nat.add_assoc]

/-- A property of every index below `n` is one of its images under a map that is its own
inverse there. -/
theorem forall_lt_iff_of_involutive {n : ℕ} {f : ℕ → ℕ} (hf : ∀ i < n, f i < n)
    (hff : ∀ i < n, f (f i) = i) (P : ℕ → Prop) : (∀ j < n, P j) ↔ ∀ i < n, P (f i) :=
  ⟨fun h i hi => h _ (hf i hi), fun h j hj => hff j hj ▸ h _ (hf j hj)⟩

/-- The sweep of a rotated ring reads at `i` the triple the sweep of the ring reads at
`i + k`. -/
theorem crossAt_rotate (points : List (Point α)) (k : ℕ) (h2 : 2 ≤ points.length) {i : ℕ}
    (hi : i < points.length) :
    crossAt (points.rotate k) i = crossAt points ((i + k) % points.length) := by
  have hn : 0 < points.length := by omega
  have e : ∀ j, ((i + j) % points.length + k) % points.length =
      ((i + k) % points.length + j) % points.length := fun j => by
    rw [Nat.mod_add_mod, Nat.mod_add_mod, Nat.add_right_comm]
  rw [crossAt, crossAt, sweepTriple_eq _ (by rwa [List.length_rotate]) (by rwa [List.length_rotate]),
    sweepTriple_eq _ h2 (Nat.mod_lt _ hn), List.length_rotate, getPoint_rotate _ _ hi,
    getPoint_rotate _ _ (Nat.mod_lt (i + 1) hn), getPoint_rotate _ _ (Nat.mod_lt (i + 2) hn), e, e]

/-- Point `i` of the reversed list is point `n - 1 - i` of the list. -/
theorem getPoint_reverse (points : List (Point α)) {i : ℕ} (hi : i < points.length) :
    getPoint points.reverse i = getPoint points (points.length - 1 - i) := by
  simp [getPoint, List.getD_eq_getElem?_getD, List.getElem?_reverse hi]

/-- Taking a triple backwards negates its cross product. -/
theorem zCross_reverse (a b c : Point α) : zCross c b a = -zCross a b c := by
  simp only [zCross]; ring

/-- The index the reversed sweep reads backwards at `i`: `-3 - i` modulo `n`. -/
def reverseIndex (n i : ℕ) : ℕ := n - 1 - (i + 2) % n

/-- The triple of the reversed ring that starts at `reverseIndex n i` is triple `i` of the ring
taken backwards: its next two vertices are the reversed positions of `(i + 1) % n` and `i`. -/
theorem reverseIndex_succ {n i : ℕ} (h2 : 2 ≤ n) (hi : i < n) :
    (reverseIndex n i + 1) % n = n - 1 - (i + 1) % n ∧ (reverseIndex n i + 2) % n = n - 1 - i := by
  unfold reverseIndex
  rcases (by omega : i + 2 < n ∨ i + 2 = n ∨ i + 2 = n + 1) with h | h | h
  · rw [Nat.mod_eq_of_lt h, Nat.mod_eq_of_lt (by omega : i + 1 < n),
      Nat.mod_eq_of_lt (by omega : n - 1 - (i + 2) + 1 < n),
      Nat.mod_eq_of_lt (by omega : n - 1 - (i + 2) + 2 < n)]
    omega
  · rw [h, Nat.mod_self, Nat.mod_eq_of_lt (by omega : i + 1 < n), Nat.sub_zero,
      show n - 1 + 1 = n by omega, show n - 1 + 2 = 1 + n by omega, Nat.mod_self,
      Nat.add_mod_right, Nat.mod_eq_of_lt (by omega : 1 < n)]
    omega
  · rw [h, show i + 1 = n by omega, Nat.add_mod_left, Nat.mod_self,
      Nat.mod_eq_of_lt (by omega : 1 < n), show n - 1 - 1 + 1 = n - 1 by omega,
      show n - 1 - 1 + 2 = n by omega, Nat.mod_self, Nat.mod_eq_of_lt (by omega : n - 1 < n)]
    omega

/-- `reverseIndex n` maps the vertices of a ring of `n` points to vertices. -/
theorem reverseIndex_lt {n : ℕ} (i : ℕ) (hn : 0 < n) : reverseIndex n i < n := by
  unfold reverseIndex; omega

/-- `reverseIndex n` is an involution on the vertices of a ring of at least two points. -/
theorem reverseIndex_reverseIndex {n i : ℕ} (h2 : 2 ≤ n) (hi : i < n) :
    reverseIndex n (reverseIndex n i) = i := by
  have := (reverseIndex_succ h2 hi).2
  unfold reverseIndex at this ⊢
  rw [this]; omega

/-- The sweep of the reversed ring reads at `i` backwards the triple the sweep of the ring
reads at `reverseIndex n i`: its cross product is negated. -/
theorem crossAt_reverse (points : List (Point α)) (h2 : 2 ≤ points.length) {i : ℕ}
    (hi : i < points.length) :
    crossAt points.reverse i = -crossAt points (reverseIndex points.length i) := by
  have hn : 0 < points.length := by omega
  obtain ⟨e1, e2⟩ := reverseIndex_succ h2 hi
  rw [crossAt, crossAt, sweepTriple_eq _ (by rwa [List.length_reverse]) (by rwa [List.length_reverse]),
    sweepTriple_eq _ h2 (reverseIndex_lt _ hn), List.length_reverse, getPoint_reverse _ hi,
    getPoint_reverse _ (Nat.mod_lt (i + 1) hn), getPoint_reverse _ (Nat.mod_lt (i + 2) hn), e1, e2,
    ← zCross_reverse]
  rfl

/-- **`Convex()` is a property of the polygon.** For a closed series of at least three points,
it does not change when the points are rotated, so that the ring starts at another vertex, nor
when they are reversed, so that the ring runs the other way; an explicit closing point
included. -/
theorem convex_rotate_reverse (points : List (Point α)) (opts : Option IndexOptions)
    (h3 : 3 ≤ points.length) :
    (∀ k, (makeSeries (points.rotate k) true opts).convex = (makeSeries points true opts).convex) ∧
      (makeSeries points.reverse true opts).convex = (makeSeries points true opts).convex := by
  have hn : 0 < points.length := by omega
  have hconv : ∀ q : List (Point α), 3 ≤ q.length → ((makeSeries q true opts).convex = true ↔
      (∀ i < q.length, 0 ≤ crossAt q i) ∨ ∀ i < q.length, crossAt q i ≤ 0) := fun q hq => by
    rw [(makeSeries_flags q true opts).1, processPoints_convex_iff (by simp; omega)]
  refine ⟨fun k => ?_, ?_⟩
  · rw [Bool.eq_iff_iff, hconv _ (by simpa using h3), hconv _ h3, List.length_rotate]
    exact or_congr
      ((forall₂_congr fun i hi => by rw [crossAt_rotate points k (by omega) hi]).trans
        (forall_lt_iff_add_mod hn _ k).symm)
      ((forall₂_congr fun i hi => by rw [crossAt_rotate points k (by omega) hi]).trans
        (forall_lt_iff_add_mod hn _ k).symm)
  · rw [Bool.eq_iff_iff, hconv _ (by simpa using h3), hconv _ h3, List.length_reverse, or_comm]
    have hf := forall_lt_iff_of_involutive (fun i _ => reverseIndex_lt i hn)
      (fun i hi => reverseIndex_reverseIndex (n := points.length) (by omega) hi)
    exact or_congr
      ((forall₂_congr fun i hi => by rw [crossAt_reverse points (by omega) hi, neg_nonpos]).trans
        (hf _).symm)
      ((forall₂_congr fun i hi => by rw [crossAt_reverse points (by omega) hi, neg_nonneg]).trans
        (hf _).symm)

/-- The theorem at the dart closed explicitly, whose only reflex vertex is `p[0]`. -/
theorem convex_rotate_reverse_dart :
    let p : List (Point ℚ) := [⟨2, 1⟩, ⟨4, 0⟩, ⟨2, 4⟩, ⟨0, 0⟩, ⟨2, 1⟩]
    3 ≤ p.length ∧
      (∀ k, (makeSeries (p.rotate k) true none).convex = (makeSeries p true none).convex) ∧
      (makeSeries p.reverse true none).convex = (makeSeries p true none).convex :=
  ⟨by decide, convex_rotate_reverse _ none (by decide)⟩


/-! ### Triangles -/

/-- **Every triangle is convex**, and it is clockwise exactly when it turns right at its second
vertex: the three cross products the sweep of a closed series of three points reads are each
twice the signed area, which is also its shoelace sum. -/
theorem triangle_convex_clockwise (a b c : Point α) (opts : Option IndexOptions) :
    (makeSeries [a, b, c] true opts).convex = true ∧
      ((makeSeries [a, b, c] true opts).clockwise = true ↔ zCross a b c < 0) := by
  have hz : ∀ i < [a, b, c].length, crossAt [a, b, c] i = zCross a b c := by
    intro i hi
    simp only [List.length_cons, List.length_nil] at hi
    interval_cases i <;> simp [crossAt, sweepTriple, getPoint, zCross] <;> ring
  have hs : shoelace [a, b, c] = zCross a b c := by
    simp [shoelace, sum_range_succ, getPoint, zCross]; ring
  refine ⟨?_, by rw [clockwise_iff_shoelace _ opts (by simp), hs]⟩
  rw [(makeSeries_flags _ true opts).1, processPoints_convex_iff (by simp)]
  rcases le_total 0 (zCross a b c) with h | h
  · exact .inl fun i hi => (hz i hi).symm ▸ h
  · exact .inr fun i hi => (hz i hi).symm ▸ h

/-! ### Open series -/

/-- `Clockwise()` as `processPoints` computes it: the winding sum over the `n` pairs its
sweep reads is positive. -/
theorem processPoints_clockwise_iff {points : List (Point α)} {closed : Bool}
    (h : ¬((closed && points.length < 3) || points.length < 2)) :
    (processPoints points closed).2.2 = true ↔ 0 < ∑ i ∈ range points.length, cwcTerm points i := by
  simp [processPoints, h, foldl_processStep_cwc]

/-- **An open series is swept as a ring.** `processPoints` reads the same `n` triples and
pairs whether the series is closed or not, wrapping from `p[n-1]` to `p[0]`: an open series
of `n ≥ 2` points is convex when the cross products of its `n` cyclic triples have one sign,
zeros aside, and clockwise when the winding sum over its `n` cyclic pairs is positive. -/
theorem open_series_cyclic (points : List (Point α)) (opts : Option IndexOptions)
    (h2 : 2 ≤ points.length) :
    ((makeSeries points false opts).convex = true ↔
      (∀ i < points.length, 0 ≤ zCross (getPoint points i)
        (getPoint points ((i + 1) % points.length)) (getPoint points ((i + 2) % points.length))) ∨
      (∀ i < points.length, zCross (getPoint points i)
        (getPoint points ((i + 1) % points.length)) (getPoint points ((i + 2) % points.length)) ≤ 0)) ∧
    ((makeSeries points false opts).clockwise = true ↔
      0 < ∑ i ∈ range points.length,
        ((getPoint points ((i + 1) % points.length)).x - (getPoint points i).x) *
          ((getPoint points ((i + 1) % points.length)).y + (getPoint points i).y)) := by
  obtain ⟨hc, hw, -, -⟩ := makeSeries_flags points false opts
  have h : ¬((false && points.length < 3) || points.length < 2) := by simp; omega
  refine ⟨?_, ?_⟩
  · rw [hc, processPoints_convex_iff h]
    exact or_congr (forall₂_congr fun i hi => by rw [crossAt, sweepTriple_eq points h2 hi])
      (forall₂_congr fun i hi => by rw [crossAt, sweepTriple_eq points h2 hi])
  · rw [hw, processPoints_clockwise_iff h]
    refine iff_of_eq (congrArg _ (sum_congr rfl fun i hi => ?_))
    obtain ⟨ha, hb⟩ := sweepTriple_pair points (mem_range.1 hi)
    rw [cwcTerm, ha, hb]

/-- The theorem at the open polyline `(0, 0), (2, 0), (2, 2), (1, -2)`: its flags are read off
the four cyclic triples and the four cyclic pairs, the wrap-around ones from `p[3]` back to
`p[0]` included. -/
theorem open_series_cyclic_four :
    let p : List (Point ℚ) := [⟨0, 0⟩, ⟨2, 0⟩, ⟨2, 2⟩, ⟨1, -2⟩]
    2 ≤ p.length ∧
      ((makeSeries p false none).convex = true ↔
        (∀ i < p.length, 0 ≤ zCross (getPoint p i)
          (getPoint p ((i + 1) % p.length)) (getPoint p ((i + 2) % p.length))) ∨
        (∀ i < p.length, zCross (getPoint p i)
          (getPoint p ((i + 1) % p.length)) (getPoint p ((i + 2) % p.length)) ≤ 0)) ∧
      ((makeSeries p false none).clockwise = true ↔
        0 < ∑ i ∈ range p.length,
          ((getPoint p ((i + 1) % p.length)).x - (getPoint p i).x) *
            ((getPoint p ((i + 1) % p.length)).y + (getPoint p i).y)) :=
  ⟨by decide, open_series_cyclic _ none (by decide)⟩

/-- An open polyline whose two linear triples turn left, but whose wrap-around triple, from
`p[2]` through `p[3]` back to `p[0]`, turns right: it is reported not convex. Its linear
winding sum is zero, and the wrap-around pair `(p[3], p[0])` makes `Clockwise()` true. -/
theorem open_series_wraps :
    let p : List (Point ℚ) := [⟨0, 0⟩, ⟨2, 0⟩, ⟨2, 2⟩, ⟨1, -2⟩]
    0 < zCross (getPoint p 0) (getPoint p 1) (getPoint p 2) ∧
      0 < zCross (getPoint p 1) (getPoint p 2) (getPoint p 3) ∧
      (makeSeries p false none).convex = false ∧
      ∑ i ∈ range 3, ((getPoint p (i + 1)).x - (getPoint p i).x) *
        ((getPoint p (i + 1)).y + (getPoint p i).y) = 0 ∧
      (makeSeries p false none).clockwise = true :=
  ⟨by norm_num [zCross, getPoint], by norm_num [zCross, getPoint], by with_unfolding_all decide,
    by norm_num [sum_range_succ, getPoint], by with_unfolding_all decide⟩

end SegmentIndex
