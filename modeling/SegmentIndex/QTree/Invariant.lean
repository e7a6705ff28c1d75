import SegmentIndex.QTree.Insert

/-!
# The Invariant of the Quadtree Builder

`QNode.Valid series inside bounds r` is the shape every tree the builder makes keeps, for a
subtree whose root has bounds `bounds` and `r` levels left under it (`r = qMaxDepth - depth`):

* every item `i` stored in the subtree satisfies `inside bounds i`;
* a split node lies above the depth cap and keeps only items that straddle its midlines;
* an unsplit node has no children and, above the depth cap, at most `qMaxItems` items;
* each child satisfies the invariant for its quadrant, one level down.

The predicate `inside` is a parameter: with `inside bounds i` saying that the rectangle of
segment `i` lies inside `bounds` it is the containment of the index; with `True` the invariant
is the bare shape, which every insertion sequence keeps. All that is asked of `inside` is that
it passes from a node to the quadrant `chooseQuad` picks (`Descends`).

`insertAux_valid` is the step lemma: one insertion keeps the invariant and adds exactly its
item. The split case is `insertSplit_valid`, used once per redistributed item and once more
for the retry (`foldl_insertSplit_valid`).

## Main results

* `insertAll_valid`: a sequence of insertions from an empty root, each rectangle inside the
  root bounds, gives a valid tree holding exactly the inserted items.
* `insert_sequence_invariant`: the same read at every node, along quadrant paths.
-/

namespace SegmentIndex

variable {α : Type*} [LinearOrderedField α] (series : BaseSeries α) (inside : Rect α → ℕ → Prop)

/-- The invariant of a subtree whose root has bounds `bounds` and `r` levels left under it. -/
def QNode.Valid : QNode → Rect α → ℕ → Prop
  | nil, _, _ => True
  | node split items q0 q1 q2 q3, bounds, r =>
      (∀ i ∈ (node split items q0 q1 q2 q3).elems, inside bounds i) ∧
      (split = true → 0 < r ∧ ∀ i ∈ items, chooseQuad bounds (series.segmentAt i).rect = -1) ∧
      (split = false →
        q0 = nil ∧ q1 = nil ∧ q2 = nil ∧ q3 = nil ∧ (0 < r → items.length ≤ qMaxItems)) ∧
      q0.Valid (quadBounds bounds 0) (r - 1) ∧ q1.Valid (quadBounds bounds 1) (r - 1) ∧
      q2.Valid (quadBounds bounds 2) (r - 1) ∧ q3.Valid (quadBounds bounds 3) (r - 1)

/-- `inside` passes from a node to the quadrant `chooseQuad` picks for an item. -/
def Descends : Prop :=
  ∀ bounds i, inside bounds i → chooseQuad bounds (series.segmentAt i).rect ≠ -1 →
    inside (quadBounds bounds (chooseQuad bounds (series.segmentAt i).rect).toNat) i

/-- Containment descends: the quadrant `chooseQuad` picks holds the rectangle. -/
theorem descends_contains :
    Descends series fun bounds i => bounds.Contains (series.segmentAt i).rect :=
  fun _ _ h hq => chooseQuad_contains h hq

variable {series inside}

namespace QNode

/-- Every item of a valid subtree satisfies `inside` at its root's bounds. -/
theorem Valid.contains {n : QNode} {bounds : Rect α} {r : ℕ} (h : n.Valid series inside bounds r) :
    ∀ i ∈ n.elems, inside bounds i := by
  cases n with
  | nil => simp
  | node => exact h.1

/-- A new node is valid. -/
theorem valid_empty (bounds : Rect α) (r : ℕ) : empty.Valid series inside bounds r := by
  simp [empty, Valid, elems]

/-- Creating a missing quadrant keeps it valid. -/
theorem Valid.orNew {n : QNode} {bounds : Rect α} {r : ℕ} (h : n.Valid series inside bounds r) :
    n.orNew.Valid series inside bounds r := by
  cases n with
  | nil => exact valid_empty bounds r
  | node => exact h

/-- A child of a valid node is valid for its quadrant, one level down. -/
theorem Valid.quad {n : QNode} {bounds : Rect α} {r q : ℕ} (h : n.Valid series inside bounds (r + 1)) :
    (n.quad q).Valid series inside (quadBounds bounds q) r := by
  cases n with
  | nil => simp [QNode.quad, Valid]
  | node s it q0 q1 q2 q3 =>
    obtain ⟨-, -, -, h0, h1, h2, h3⟩ := h
    rcases q with _ | _ | _ | _ | q
    exacts [h0, h1, h2, h3, trivial]

/-- Appending an item to a valid node keeps it valid when there is room for it (a leaf under
the depth limit below `qMaxItems`), or when the node is split and the item straddles a midline. -/
theorem valid_pushItem {n : QNode} {bounds : Rect α} {r i : ℕ} (h : n.Valid series inside bounds r)
    (hfull : n.split = false → 0 < r → n.items.length < qMaxItems)
    (hstr : n.split = true → chooseQuad bounds (series.segmentAt i).rect = -1)
    (hi : inside bounds i) :
    (n.pushItem i).Valid series inside bounds r := by
  have hc : ∀ j ∈ (n.pushItem i).elems, inside bounds j := by
    intro j hj
    rcases List.mem_append.1 ((elems_pushItem n i).mem_iff.1 hj) with hj | hj
    · exact h.contains j hj
    · rw [List.mem_singleton.1 hj]; exact hi
  cases n with
  | nil => exact ⟨hc, by simp, fun _ => ⟨rfl, rfl, rfl, rfl, fun _ => by simp [qMaxItems]⟩,
      trivial, trivial, trivial, trivial⟩
  | node s it q0 q1 q2 q3 =>
    obtain ⟨-, hs, hu, h0, h1, h2, h3⟩ := h
    refine ⟨hc, fun hst => ⟨(hs hst).1, ?_⟩, fun hsf => ?_, h0, h1, h2, h3⟩
    · simpa [or_imp, forall_and] using And.intro (hs hst).2 (hstr hst)
    · obtain ⟨e0, e1, e2, e3, hl⟩ := hu hsf
      exact ⟨e0, e1, e2, e3, fun hr => by simpa using hfull hsf hr⟩

/-- Giving a split node a new valid child keeps it valid. -/
theorem valid_setQuad {n c : QNode} {bounds : Rect α} {r q : ℕ} (h : n.Valid series inside bounds (r + 1))
    (hs : n.split = true) (hq : q < 4) (hc : c.Valid series inside (quadBounds bounds q) r)
    (hce : ∀ i ∈ c.elems, inside bounds i) :
    (n.setQuad q c).Valid series inside bounds (r + 1) := by
  cases n with
  | nil => cases hs
  | node s it q0 q1 q2 q3 =>
    have hall : ∀ i ∈ ((node s it q0 q1 q2 q3).setQuad q c).elems,
        inside bounds i := fun i hi =>
      (mem_setQuad (by simp) hq hi).elim (h.1 i) (hce i)
    obtain ⟨-, hsp, -, h0, h1, h2, h3⟩ := h
    simp only [QNode.split] at hs
    subst hs
    rcases q with _ | _ | _ | _ | q
    all_goals first
      | omega
      | exact ⟨hall, fun _ => hsp rfl, fun h => absurd h (by simp), by
          simp only [Nat.add_sub_cancel] at *; simp_all⟩

/-- Starting a split of a valid unsplit node gives a valid split node with no items. -/
theorem valid_startSplit {n : QNode} {bounds : Rect α} {r : ℕ}
    (h : n.Valid series inside bounds (r + 1)) (hs : n.split = false) :
    n.startSplit.Valid series inside bounds (r + 1) ∧ n.startSplit.elems = [] ∧
      n.elems = n.items := by
  cases n with
  | nil => exact ⟨by simp [startSplit, Valid, elems], rfl, rfl⟩
  | node s it q0 q1 q2 q3 =>
    obtain ⟨e0, e1, e2, e3, -⟩ := h.2.2.1 hs
    subst e0 e1 e2 e3
    simp [startSplit, Valid, elems, items]

/-- The items of a valid node lie inside its bounds. -/
theorem Valid.items_contains {n : QNode} {bounds : Rect α} {r : ℕ} (h : n.Valid series inside bounds r) :
    ∀ i ∈ n.items, inside bounds i := by
  cases n with
  | nil => simp [items]
  | node => exact fun i hi => h.1 i (by simp [elems, items] at hi ⊢; simp [hi])

/-- The items of a valid split node straddle its midlines. -/
theorem Valid.straddle {n : QNode} {bounds : Rect α} {r : ℕ} (h : n.Valid series inside bounds r)
    (hs : n.split = true) : ∀ i ∈ n.items, chooseQuad bounds (series.segmentAt i).rect = -1 := by
  cases n with
  | nil => cases hs
  | node => exact (h.2.1 hs).2

/-- A valid unsplit node above the depth cap holds at most `qMaxItems` items and no
children. -/
theorem Valid.unsplit {n : QNode} {bounds : Rect α} {r : ℕ} (h : n.Valid series inside bounds r)
    (hs : n.split = false) (hr : 0 < r) :
    n.items.length ≤ qMaxItems ∧ ∀ q, n.quad q = nil := by
  cases n with
  | nil => simp [items]
  | node s it q0 q1 q2 q3 =>
    obtain ⟨e0, e1, e2, e3, hl⟩ := h.2.2.1 hs
    subst e0 e1 e2 e3
    exact ⟨hl hr, fun q => by rcases q with _ | _ | _ | _ | q <;> rfl⟩

end QNode

open QNode

/-- **The split branch keeps the invariant**, given that `ins` does one level down. -/
theorem insertSplit_valid (hd : Descends series inside) {ins : QNode → Rect α → Rect α → ℕ → QNode}
    {r : ℕ}
    (hins : ∀ c b item, c.Valid series inside b r → inside b item →
      (ins c b (series.segmentAt item).rect item).Valid series inside b r ∧
      (ins c b (series.segmentAt item).rect item).elems.Perm (c.elems ++ [item]))
    {n : QNode} {bounds : Rect α} {item : ℕ} (hn : n.Valid series inside bounds (r + 1))
    (hs : n.split = true) (hb : inside bounds item) :
    (insertSplit ins n bounds (series.segmentAt item).rect item).Valid series inside bounds (r + 1) ∧
      (insertSplit ins n bounds (series.segmentAt item).rect item).elems.Perm (n.elems ++ [item]) ∧
      (insertSplit ins n bounds (series.segmentAt item).rect item).split = true := by
  simp only [insertSplit]
  split_ifs with hq
  · refine ⟨valid_pushItem hn (by simp [hs]) (fun _ => hq) hb, elems_pushItem n item, ?_⟩
    cases n <;> simp_all [pushItem, QNode.split]
  · have hq4 := chooseQuad_toNat_lt bounds (series.segmentAt item).rect
    obtain ⟨hv, hp⟩ := hins _ _ item hn.quad.orNew (hd _ _ hb hq)
    rw [elems_orNew] at hp
    refine ⟨valid_setQuad hn hs hq4 hv fun i hi => ?_, ?_, by simpa using hs⟩
    · rcases List.mem_append.1 (hp.mem_iff.1 hi) with hi | hi
      · exact hn.contains i (mem_elems_of_mem_quad hi)
      · rw [List.mem_singleton.1 hi]; exact hb
    · have hn0 : n ≠ nil := by rintro rfl; cases hs
      rw [List.perm_iff_count] at hp ⊢
      intro a
      have h1 := count_setQuad hn0 hq4
        (ins (n.quad (chooseQuad bounds (series.segmentAt item).rect).toNat).orNew
          (quadBounds bounds (chooseQuad bounds (series.segmentAt item).rect).toNat)
          (series.segmentAt item).rect item) a
      have h2 := hp a
      simp only [List.count_append] at h2 ⊢; omega

/-- The redistribution loop of a split keeps the invariant and moves exactly its items. -/
theorem foldl_insertSplit_valid (hd : Descends series inside)
    {ins : QNode → Rect α → Rect α → ℕ → QNode} {r : ℕ}
    (hins : ∀ c b item, c.Valid series inside b r → inside b item →
      (ins c b (series.segmentAt item).rect item).Valid series inside b r ∧
      (ins c b (series.segmentAt item).rect item).elems.Perm (c.elems ++ [item]))
    {bounds : Rect α} (xs : List ℕ) (hxs : ∀ i ∈ xs, inside bounds i) :
    ∀ acc : QNode, acc.Valid series inside bounds (r + 1) → acc.split = true →
      let acc' := xs.foldl (fun acc i => insertSplit ins acc bounds (series.segmentAt i).rect i) acc
      acc'.Valid series inside bounds (r + 1) ∧ acc'.elems.Perm (acc.elems ++ xs) ∧ acc'.split = true := by
  induction xs with
  | nil => intro acc hv hs; simpa using ⟨hv, hs⟩
  | cons x xs ih =>
    intro acc hv hs
    obtain ⟨hv', hp', hs'⟩ := insertSplit_valid hd hins hv hs (hxs x (by simp))
    obtain ⟨hv'', hp'', hs''⟩ := ih (fun i hi => hxs i (by simp [hi])) _ hv' hs'
    refine ⟨hv'', hp''.trans ?_, hs''⟩
    simpa using hp'.append_right xs

/-- **The step lemma of the builder.** Inserting an item whose rectangle lies inside the
bounds keeps the invariant and adds exactly that item. -/
theorem insertAux_valid (hd : Descends series inside) (r : ℕ) : ∀ (n : QNode) (bounds : Rect α) (item : ℕ),
    n.Valid series inside bounds r → inside bounds item →
    (insertAux series r n bounds (series.segmentAt item).rect item).Valid series inside bounds r ∧
      (insertAux series r n bounds (series.segmentAt item).rect item).elems.Perm
        (n.elems ++ [item]) := by
  induction r with
  | zero =>
    intro n bounds item hn hb
    refine ⟨valid_pushItem hn (fun _ h => absurd h (lt_irrefl 0)) (fun hs => ?_) hb,
      elems_pushItem n item⟩
    cases n with
    | nil => cases hs
    | node => exact absurd (hn.2.1 hs).1 (lt_irrefl 0)
  | succ r ih =>
    intro n bounds item hn hb
    simp only [insertAux]
    split_ifs with hs hfull
    · exact (insertSplit_valid hd ih hn hs hb).imp_right And.left
    · have hs' : n.split = false := by simpa using hs
      obtain ⟨hv0, he0, hitems⟩ := valid_startSplit hn hs'
      have hxs : ∀ i ∈ n.items, inside bounds i :=
        fun i hi => hn.contains i (hitems ▸ hi)
      obtain ⟨hv1, hp1, hs1⟩ := foldl_insertSplit_valid hd ih n.items hxs n.startSplit hv0
        (by cases n <;> rfl)
      obtain ⟨hv2, hp2, -⟩ := insertSplit_valid hd ih hv1 hs1 hb
      refine ⟨hv2, hp2.trans ?_⟩
      rw [he0, List.nil_append] at hp1
      rw [hitems]; exact hp1.append_right _
    · have hs' : n.split = false := by simpa using hs
      refine ⟨valid_pushItem hn (fun _ _ => ?_) (fun h => by simp_all) hb, elems_pushItem n item⟩
      cases n with
      | nil => simp [QNode.items, qMaxItems]
      | node s it q0 q1 q2 q3 =>
        have := (hn.2.2.1 hs').2.2.2.2 (Nat.succ_pos r)
        simp only [QNode.items] at hfull this ⊢; omega

/-! ### Whole runs of the builder -/

/-- A sequence of `root.insert(series, bounds, SegmentAt(i).Rect(), i, 0)` calls from
`new(qNode)`. -/
def insertAll (series : BaseSeries α) (bounds : Rect α) (is : List ℕ) : QNode :=
  is.foldl (fun root i => root.insert series bounds (series.segmentAt i).rect i 0) QNode.empty

/-- **Runs keep the invariant.** Inserting any sequence of items whose rectangles lie inside
the root bounds gives a valid tree that stores exactly the inserted items. -/
theorem insertAll_valid (hd : Descends series inside) (bounds : Rect α) (is : List ℕ)
    (his : ∀ i ∈ is, inside bounds i) :
    (insertAll series bounds is).Valid series inside bounds qMaxDepth ∧
      (insertAll series bounds is).elems.Perm is := by
  suffices ∀ (root : QNode), root.Valid series inside bounds qMaxDepth →
      (is.foldl (fun root i => root.insert series bounds (series.segmentAt i).rect i 0)
        root).Valid series inside bounds qMaxDepth ∧
      (is.foldl (fun root i => root.insert series bounds (series.segmentAt i).rect i 0)
        root).elems.Perm (root.elems ++ is) from
    by simpa using this QNode.empty (valid_empty bounds qMaxDepth)
  induction is with
  | nil => intro root h; simpa using h
  | cons i is ih =>
    intro root h
    obtain ⟨hv, hp⟩ := insertAux_valid hd qMaxDepth root bounds i h (his i (by simp))
    obtain ⟨hv', hp'⟩ := ih (fun j hj => his j (by simp [hj])) _ hv
    exact ⟨hv', hp'.trans (by simpa using hp.append_right is)⟩

/-- The node at the end of a quadrant path (`nil` when the path leaves the tree). -/
def QNode.subtree : QNode → List ℕ → QNode
  | n, [] => n
  | n, q :: path => (n.quad q).subtree path

/-- The bounds of the node at the end of a quadrant path from a root with bounds `bounds`. -/
def boundsAlong (bounds : Rect α) (path : List ℕ) : Rect α := path.foldl quadBounds bounds

/-- Every path from a nil node leads to nil. -/
@[simp] theorem QNode.nil_subtree (path : List ℕ) : QNode.nil.subtree path = nil := by
  induction path with
  | nil => rfl
  | cons q path ih => simpa [subtree, quad] using ih

/-- The invariant, read at the end of a quadrant path: the node lies at most `r` levels
down, and satisfies the invariant for the bounds of its path. -/
theorem QNode.Valid.subtree {n : QNode} {bounds : Rect α} {r : ℕ}
    (h : n.Valid series inside bounds r) (path : List ℕ) (hne : n.subtree path ≠ nil) :
    path.length ≤ r ∧
      (n.subtree path).Valid series inside (boundsAlong bounds path) (r - path.length) := by
  induction path generalizing n bounds r with
  | nil => exact ⟨Nat.zero_le r, h⟩
  | cons q path ih =>
    simp only [QNode.subtree] at hne ⊢
    have hq : n.quad q ≠ nil := by rintro hq; rw [hq, nil_subtree] at hne; exact hne rfl
    obtain ⟨r', rfl⟩ : ∃ r', r = r' + 1 := by
      cases n with
      | nil => simp at hq
      | node s it q0 q1 q2 q3 =>
        cases s
        · obtain ⟨e0, e1, e2, e3, -⟩ := h.2.2.1 rfl
          subst e0 e1 e2 e3
          rcases q with _ | _ | _ | _ | q <;> exact absurd rfl hq
        · exact ⟨r - 1, by have := (h.2.1 rfl).1; omega⟩
    obtain ⟨hl, hv⟩ := ih h.quad hne
    exact ⟨by simp; omega, by simpa [boundsAlong, Nat.sub_sub, Nat.add_comm] using hv⟩

/-- The builder's invariant read at every node of a tree `t` built from the items `is` under
root bounds `B`, along quadrant paths. -/
structure IndexShape (series : BaseSeries α) (B : Rect α) (is : List ℕ) (t : QNode) : Prop where
  /-- The tree stores exactly the inserted items. -/
  perm : t.elems.Perm is
  /-- The items of the node at the end of a path lie inside the bounds of the path. -/
  contained : ∀ path, ∀ i ∈ (t.subtree path).items,
    (boundsAlong B path).Contains (series.segmentAt i).rect
  /-- A split node keeps only items that straddle its midlines. -/
  straddles : ∀ path, (t.subtree path).split = true → ∀ i ∈ (t.subtree path).items,
    chooseQuad (boundsAlong B path) (series.segmentAt i).rect = -1
  /-- An unsplit node above the depth cap holds at most `qMaxItems` items and no children. -/
  unsplit : ∀ path, t.subtree path ≠ QNode.nil → (t.subtree path).split = false →
    path.length < qMaxDepth →
      (t.subtree path).items.length ≤ qMaxItems ∧ ∀ q, (t.subtree path).quad q = QNode.nil
  /-- No node lies deeper than `qMaxDepth`. -/
  depth : ∀ path, t.subtree path ≠ QNode.nil → path.length ≤ qMaxDepth

/-- **The builder's invariant, node by node.** After any sequence of insertions of
segment indices from an empty root, each segment rectangle inside the root bounds `B`, the
tree has the shape `IndexShape` describes. -/
theorem insert_sequence_invariant (B : Rect α) (is : List ℕ)
    (his : ∀ i ∈ is, B.Contains (series.segmentAt i).rect) :
    IndexShape series B is (insertAll series B is) := by
  obtain ⟨hv, hp⟩ := insertAll_valid (descends_contains series) B is his
  have hne : ∀ path, ((insertAll series B is).subtree path).items ≠ [] ∨
      ((insertAll series B is).subtree path).split = true →
      (insertAll series B is).subtree path ≠ QNode.nil := by
    rintro path h hn; simp [hn, QNode.items, QNode.split] at h
  exact ⟨hp, fun path i hi => ((hv.subtree path (hne path (.inl (List.ne_nil_of_mem hi)))).2
      |>.items_contains) i hi,
    fun path hs => (hv.subtree path (hne path (.inr hs))).2.straddle hs,
    fun path h hs hl => (hv.subtree path h).2.unsplit hs (by omega),
    fun path h => (hv.subtree path h).1⟩

/-- The theorem at the twenty unit segments of the closed ring `squareRing`, inserted in order
under the square `[0, 5] × [0, 5]`: the root holds twelve items, splits at the thirteenth, and
moves the items that fit a quadrant down. -/
theorem insert_sequence_invariant_squareRing :
    let s : BaseSeries ℚ := ⟨true, false, false, 0, [], ⟨⟨0, 0⟩, ⟨5, 5⟩⟩, squareRing⟩
    (insertAll s s.rect (List.range 20)).split = true ∧
      (∀ i ∈ List.range 20, s.rect.Contains (s.segmentAt i).rect) ∧
      IndexShape s s.rect (List.range 20) (insertAll s s.rect (List.range 20)) :=
  have h : ∀ i ∈ List.range 20, Rect.Contains ⟨⟨(0 : ℚ), 0⟩, ⟨5, 5⟩⟩
      (BaseSeries.segmentAt ⟨true, false, false, 0, [], ⟨⟨0, 0⟩, ⟨5, 5⟩⟩, squareRing⟩ i).rect := by
    decide
  ⟨by set_option maxRecDepth 20000 in with_unfolding_all decide, h,
    insert_sequence_invariant _ (List.range 20) h⟩

end SegmentIndex
