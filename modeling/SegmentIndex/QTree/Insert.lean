import SegmentIndex.Series

/-!
# The Quadtree Builder

The in-memory quadtree of `qtree.go`. A `QNode` is a `*qNode` pointer: `nil`, or a node with
its `split` flag, its `items` (segment indices) and the four quadrant children.

`insert` descends to the node that keeps an item: at depth `qMaxDepth` it appends; at a split
node the item goes to the quadrant `chooseQuad` picks, or stays at the node when its rectangle
straddles a midline; an unsplit node appends until it holds `qMaxItems`, and the next
insertion splits it. The body of the split's redistribution loop is the split branch itself
(each old item goes to its quadrant or stays), and the retry `n.insert(…)` that follows runs
the split branch for the new item: both are `insertSplit` below, so that `insertAux` recurses
structurally on the number of levels left under the node, `qMaxDepth - depth`. The recursion
as the code writes it, with the retry a call of `insert` on the same node, is `insertGo`: it
recurses on the lexicographic `insertMeasure` and computes the same tree
(`insert_terminates`).

`chooseQuad` and `quadBounds` number the quadrants alike (`chooseQuad_quadBounds`): `-1` is
answered exactly for a rectangle across a midline, any other answer is a quadrant that holds
the rectangle, and the quadrants lie inside the bounds.

The invariant every tree the builder makes satisfies is `QNode.Valid`; `insertAux_valid` is
its one step lemma.
-/

namespace SegmentIndex

/-- `qMaxItems`: the number of items an unsplit node holds before the next insertion splits
it. -/
def qMaxItems : ℕ := 12

/-- `qMaxDepth`: nodes at this depth never split. -/
def qMaxDepth : ℕ := 64

/-- A `*qNode`: `nil`, or a node with its `split` flag, `items` and `quads[0..3]`. -/
inductive QNode
  | nil
  | node (split : Bool) (items : List ℕ) (q0 q1 q2 q3 : QNode)
  deriving DecidableEq, Repr

namespace QNode

/-- `new(qNode)`. -/
def empty : QNode := node false [] nil nil nil nil

/-- `n.split`, read through a pointer that `insert` never sees `nil`. -/
def split : QNode → Bool
  | nil => false
  | node s _ _ _ _ _ => s

/-- `n.items`. -/
def items : QNode → List ℕ
  | nil => []
  | node _ items _ _ _ _ => items

/-- `n.quads[q]`. -/
def quad : QNode → ℕ → QNode
  | node _ _ q0 _ _ _, 0 => q0
  | node _ _ _ q1 _ _, 1 => q1
  | node _ _ _ _ q2 _, 2 => q2
  | node _ _ _ _ _ q3, 3 => q3
  | _, _ => nil

/-- `n.quads[q] = c`. -/
def setQuad : QNode → ℕ → QNode → QNode
  | node s it _ q1 q2 q3, 0, c => node s it c q1 q2 q3
  | node s it q0 _ q2 q3, 1, c => node s it q0 c q2 q3
  | node s it q0 q1 _ q3, 2, c => node s it q0 q1 c q3
  | node s it q0 q1 q2 _, 3, c => node s it q0 q1 q2 c
  | n, _, _ => n

/-- `n.items = append(n.items, item)`. -/
def pushItem : QNode → ℕ → QNode
  | nil, i => node false [i] nil nil nil nil
  | node s it q0 q1 q2 q3, i => node s (it ++ [i]) q0 q1 q2 q3

/-- `if n.quads[q] == nil { n.quads[q] = new(qNode) }`. -/
def orNew : QNode → QNode
  | nil => empty
  | n => n

/-- The state the split starts from: `split` set and the item list emptied (`nitems`). -/
def startSplit : QNode → QNode
  | nil => node true [] nil nil nil nil
  | node _ _ q0 q1 q2 q3 => node true [] q0 q1 q2 q3

/-- Every item stored in the subtree, node items first, then the quadrants in order. -/
def elems : QNode → List ℕ
  | nil => []
  | node _ items q0 q1 q2 q3 => items ++ q0.elems ++ q1.elems ++ q2.elems ++ q3.elems

end QNode

variable {α : Type*} [LinearOrderedField α]

/-- `chooseQuad`: the quadrant of `bounds` that holds `rect` (`0` NW, `1` NE, `2` SW, `3` SE),
or `-1` when `rect` straddles a midline. -/
def chooseQuad (bounds rect : Rect α) : ℤ :=
  let midX := (bounds.min.x + bounds.max.x) / 2
  let midY := (bounds.min.y + bounds.max.y) / 2
  if rect.max.x < midX then
    if rect.max.y < midY then 2
    else if rect.min.y < midY then -1
    else 0
  else if rect.min.x < midX then -1
  else if rect.max.y < midY then 3
  else if rect.min.y < midY then -1
  else 1

/-- `quadBounds`: the rectangle of quadrant `q` of `bounds`; other values of `q` leave `bounds`
as it is. -/
def quadBounds (bounds : Rect α) (q : ℕ) : Rect α :=
  let centerX := (bounds.min.x + bounds.max.x) / 2
  let centerY := (bounds.min.y + bounds.max.y) / 2
  match q with
  | 0 => ⟨⟨bounds.min.x, centerY⟩, ⟨centerX, bounds.max.y⟩⟩
  | 1 => ⟨⟨centerX, centerY⟩, bounds.max⟩
  | 2 => ⟨bounds.min, ⟨centerX, centerY⟩⟩
  | 3 => ⟨⟨centerX, bounds.min.y⟩, ⟨bounds.max.x, centerY⟩⟩
  | _ => bounds

/-- The split branch of `insert` at a node with bounds `bounds`: an item whose rectangle
straddles a midline is appended to the node, any other is inserted by `ins` into its
quadrant's child (created when nil), one level down. -/
def insertSplit (ins : QNode → Rect α → Rect α → ℕ → QNode) (n : QNode) (bounds rect : Rect α)
    (item : ℕ) : QNode :=
  let q := chooseQuad bounds rect
  if q = -1 then n.pushItem item
  else n.setQuad q.toNat (ins (n.quad q.toNat).orNew (quadBounds bounds q.toNat) rect item)

/-- `insert` at a node with `r = qMaxDepth - depth` levels left below it. A full unsplit node
is split: its items are run through the split branch in order, and then the new item. -/
def insertAux (series : BaseSeries α) : ℕ → QNode → Rect α → Rect α → ℕ → QNode
  | 0, n, _, _, item => n.pushItem item
  | r + 1, n, bounds, rect, item =>
    if n.split then insertSplit (insertAux series r) n bounds rect item
    else if n.items.length = qMaxItems then
      insertSplit (insertAux series r)
        (n.items.foldl (fun acc iitem =>
          insertSplit (insertAux series r) acc bounds (series.segmentAt iitem).rect iitem)
          n.startSplit)
        bounds rect item
    else n.pushItem item

/-- `qNode.insert`, for the depths `0, …, qMaxDepth` it is called with. -/
def QNode.insert (series : BaseSeries α) (n : QNode) (bounds rect : Rect α) (item : ℕ)
    (depth : Fin (qMaxDepth + 1)) : QNode :=
  insertAux series (qMaxDepth - depth) n bounds rect item

/-! ### Quadrants -/

/-- What `chooseQuad` answers, with the comparisons against the midlines that give each
answer. -/
theorem chooseQuad_spec (bounds rect : Rect α) :
    chooseQuad bounds rect = -1 ∨
      (chooseQuad bounds rect = 2 ∧ rect.max.x < (bounds.min.x + bounds.max.x) / 2 ∧
        rect.max.y < (bounds.min.y + bounds.max.y) / 2) ∨
      (chooseQuad bounds rect = 0 ∧ rect.max.x < (bounds.min.x + bounds.max.x) / 2 ∧
        (bounds.min.y + bounds.max.y) / 2 ≤ rect.min.y) ∨
      (chooseQuad bounds rect = 3 ∧ (bounds.min.x + bounds.max.x) / 2 ≤ rect.min.x ∧
        rect.max.y < (bounds.min.y + bounds.max.y) / 2) ∨
      (chooseQuad bounds rect = 1 ∧ (bounds.min.x + bounds.max.x) / 2 ≤ rect.min.x ∧
        (bounds.min.y + bounds.max.y) / 2 ≤ rect.min.y) := by
  dsimp only [chooseQuad]
  by_cases hx : rect.max.x < (bounds.min.x + bounds.max.x) / 2
  · by_cases hy : rect.max.y < (bounds.min.y + bounds.max.y) / 2
    · rw [if_pos hx, if_pos hy]; exact .inr (.inl ⟨rfl, hx, hy⟩)
    by_cases hy' : rect.min.y < (bounds.min.y + bounds.max.y) / 2
    · rw [if_pos hx, if_neg hy, if_pos hy']; exact .inl rfl
    · rw [if_pos hx, if_neg hy, if_neg hy']; exact .inr (.inr (.inl ⟨rfl, hx, not_lt.1 hy'⟩))
  by_cases hx' : rect.min.x < (bounds.min.x + bounds.max.x) / 2
  · rw [if_neg hx, if_pos hx']; exact .inl rfl
  by_cases hy : rect.max.y < (bounds.min.y + bounds.max.y) / 2
  · rw [if_neg hx, if_neg hx', if_pos hy]; exact .inr (.inr (.inr (.inl ⟨rfl, not_lt.1 hx', hy⟩)))
  by_cases hy' : rect.min.y < (bounds.min.y + bounds.max.y) / 2
  · rw [if_neg hx, if_neg hx', if_neg hy, if_pos hy']; exact .inl rfl
  · rw [if_neg hx, if_neg hx', if_neg hy, if_neg hy']
    exact .inr (.inr (.inr (.inr ⟨rfl, not_lt.1 hx', not_lt.1 hy'⟩)))

/-- `chooseQuad` answers a quadrant or `-1`. -/
theorem chooseQuad_cases (bounds rect : Rect α) :
    chooseQuad bounds rect = -1 ∨ chooseQuad bounds rect = 0 ∨ chooseQuad bounds rect = 1 ∨
      chooseQuad bounds rect = 2 ∨ chooseQuad bounds rect = 3 := by
  rcases chooseQuad_spec bounds rect with h | ⟨h, -⟩ | ⟨h, -⟩ | ⟨h, -⟩ | ⟨h, -⟩ <;> rw [h] <;>
    decide

/-- Read as a natural number, the answer of `chooseQuad` is below `4`. -/
theorem chooseQuad_toNat_lt (bounds rect : Rect α) : (chooseQuad bounds rect).toNat < 4 := by
  rcases chooseQuad_cases bounds rect with h | h | h | h | h <;> omega

/-- **The quadrant `chooseQuad` picks holds the rectangle**, when `bounds` does. -/
theorem chooseQuad_contains {bounds rect : Rect α} (h : bounds.Contains rect)
    (hq : chooseQuad bounds rect ≠ -1) :
    (quadBounds bounds (chooseQuad bounds rect).toNat).Contains rect := by
  obtain ⟨h1, h2, h3, h4⟩ := h
  rcases chooseQuad_spec bounds rect with h | ⟨h, hx, hy⟩ | ⟨h, hx, hy⟩ | ⟨h, hx, hy⟩ | ⟨h, hx, hy⟩ <;>
    rw [h] at hq ⊢
  · exact absurd rfl hq
  · exact ⟨h1, h2, hx.le, hy.le⟩
  · exact ⟨h1, hy, hx.le, h4⟩
  · exact ⟨hx, h2, h3, hy.le⟩
  · exact ⟨hx, hy, h3, h4⟩

/-- `chooseQuad` answers `-1` exactly when `rect` straddles a midline of `bounds`: it starts
before the midline and reaches it. -/
theorem chooseQuad_eq_neg_one_iff (bounds rect : Rect α) :
    chooseQuad bounds rect = -1 ↔
      (rect.min.x < (bounds.min.x + bounds.max.x) / 2 ∧
          (bounds.min.x + bounds.max.x) / 2 ≤ rect.max.x) ∨
        (rect.min.y < (bounds.min.y + bounds.max.y) / 2 ∧
          (bounds.min.y + bounds.max.y) / 2 ≤ rect.max.y) := by
  dsimp only [chooseQuad]
  split_ifs with h1 h2 h3 h4 h5 h6
  · exact iff_of_false (by decide) <| by
      rintro (⟨-, h⟩ | ⟨-, h⟩); exacts [(h.trans_lt h1).false, (h.trans_lt h2).false]
  · exact iff_of_true rfl (.inr ⟨h3, not_lt.1 h2⟩)
  · exact iff_of_false (by decide) <| by
      rintro (⟨-, h⟩ | ⟨h, -⟩); exacts [(h.trans_lt h1).false, h3 h]
  · exact iff_of_true rfl (.inl ⟨h4, not_lt.1 h1⟩)
  · exact iff_of_false (by decide) <| by
      rintro (⟨h, -⟩ | ⟨-, h⟩); exacts [h4 h, (h.trans_lt h5).false]
  · exact iff_of_true rfl (.inr ⟨h6, not_lt.1 h5⟩)
  · exact iff_of_false (by decide) <| by rintro (⟨h, -⟩ | ⟨h, -⟩); exacts [h4 h, h6 h]

/-- The midpoint of `a ≤ b` lies between them. -/
theorem midpoint_between {a b : α} (h : a ≤ b) : a ≤ (a + b) / 2 ∧ (a + b) / 2 ≤ b :=
  ⟨(le_div_iff₀ two_pos).2 (by rw [mul_two]; exact add_le_add_left h a),
    (div_le_iff₀ two_pos).2 (by rw [mul_two]; exact add_le_add_right h b)⟩

/-- The four quadrants of a rectangle with `min ≤ max` lie inside it. -/
theorem quadBounds_contained {bounds : Rect α} (hx : bounds.min.x ≤ bounds.max.x)
    (hy : bounds.min.y ≤ bounds.max.y) {q : ℕ} (hq : q < 4) :
    bounds.Contains (quadBounds bounds q) := by
  obtain ⟨hmx, hmx'⟩ := midpoint_between hx
  obtain ⟨hmy, hmy'⟩ := midpoint_between hy
  rcases q with _ | _ | _ | _ | q
  exacts [⟨le_rfl, hmy, hmx', le_rfl⟩, ⟨hmx, hmy, le_rfl, le_rfl⟩, ⟨le_rfl, le_rfl, hmx', hmy'⟩,
    ⟨hmx, le_rfl, le_rfl, hmy'⟩, absurd hq (by omega)]

/-- **`chooseQuad` and `quadBounds` number the quadrants alike.** For `bounds` with
`min ≤ max` holding `rect`, `chooseQuad` answers `-1` exactly when `rect` straddles a
midline; any other answer is a quadrant that holds `rect`; and each of the four quadrants lies
inside `bounds`. The first part needs neither `min ≤ max` nor containment. -/
theorem chooseQuad_quadBounds {bounds rect : Rect α} (hx : bounds.min.x ≤ bounds.max.x)
    (hy : bounds.min.y ≤ bounds.max.y) (hin : bounds.Contains rect) :
    (chooseQuad bounds rect = -1 ↔
      (rect.min.x < (bounds.min.x + bounds.max.x) / 2 ∧
          (bounds.min.x + bounds.max.x) / 2 ≤ rect.max.x) ∨
        (rect.min.y < (bounds.min.y + bounds.max.y) / 2 ∧
          (bounds.min.y + bounds.max.y) / 2 ≤ rect.max.y)) ∧
      (0 ≤ chooseQuad bounds rect →
        (quadBounds bounds (chooseQuad bounds rect).toNat).Contains rect) ∧
      ∀ q < 4, bounds.Contains (quadBounds bounds q) :=
  ⟨chooseQuad_eq_neg_one_iff bounds rect, fun h => chooseQuad_contains hin (by omega),
    fun _ hq => quadBounds_contained hx hy hq⟩

/-- The theorem for the square `[0, 4]²` at two rectangles: `[1, 3]²`, which straddles both
midlines, and `[3, 4]²`, which lies inside the upper right quadrant `1`. -/
theorem chooseQuad_quadBounds_square :
    let B : Rect ℚ := ⟨⟨0, 0⟩, ⟨4, 4⟩⟩
    let R₁ : Rect ℚ := ⟨⟨1, 1⟩, ⟨3, 3⟩⟩
    let R₂ : Rect ℚ := ⟨⟨3, 3⟩, ⟨4, 4⟩⟩
    B.min.x ≤ B.max.x ∧ B.min.y ≤ B.max.y ∧ B.Contains R₁ ∧ B.Contains R₂ ∧
      chooseQuad B R₁ = -1 ∧ chooseQuad B R₂ = 1 ∧
      ((chooseQuad B R₁ = -1 ↔
          (R₁.min.x < (B.min.x + B.max.x) / 2 ∧ (B.min.x + B.max.x) / 2 ≤ R₁.max.x) ∨
            (R₁.min.y < (B.min.y + B.max.y) / 2 ∧ (B.min.y + B.max.y) / 2 ≤ R₁.max.y)) ∧
        (0 ≤ chooseQuad B R₁ → (quadBounds B (chooseQuad B R₁).toNat).Contains R₁) ∧
        ∀ q < 4, B.Contains (quadBounds B q)) ∧
      ((chooseQuad B R₂ = -1 ↔
          (R₂.min.x < (B.min.x + B.max.x) / 2 ∧ (B.min.x + B.max.x) / 2 ≤ R₂.max.x) ∨
            (R₂.min.y < (B.min.y + B.max.y) / 2 ∧ (B.min.y + B.max.y) / 2 ≤ R₂.max.y)) ∧
        (0 ≤ chooseQuad B R₂ → (quadBounds B (chooseQuad B R₂).toNat).Contains R₂) ∧
        ∀ q < 4, B.Contains (quadBounds B q)) :=
  have h04 : (0 : ℚ) ≤ 4 := by norm_num
  have h₁ : (Rect.mk ⟨0, 0⟩ ⟨4, 4⟩ : Rect ℚ).Contains ⟨⟨1, 1⟩, ⟨3, 3⟩⟩ := by
    norm_num [Rect.Contains]
  have h₂ : (Rect.mk ⟨0, 0⟩ ⟨4, 4⟩ : Rect ℚ).Contains ⟨⟨3, 3⟩, ⟨4, 4⟩⟩ := by
    norm_num [Rect.Contains]
  ⟨h04, h04, h₁, h₂, by norm_num [chooseQuad], by norm_num [chooseQuad],
    chooseQuad_quadBounds h04 h04 h₁, chooseQuad_quadBounds h04 h04 h₂⟩

/-- A nil node holds no item. -/
@[simp] theorem QNode.elems_nil : QNode.nil.elems = [] := rfl

/-- Every quadrant of a nil node is nil. -/
@[simp] theorem QNode.nil_quad (q : ℕ) : QNode.nil.quad q = nil := by
  rcases q with _ | _ | _ | _ | q <;> rfl

/-- Setting a quadrant keeps the `split` flag. -/
@[simp] theorem QNode.split_setQuad (n c : QNode) (q : ℕ) : (n.setQuad q c).split = n.split := by
  cases n <;> rcases q with _ | _ | _ | _ | q <;> rfl

/-- An item of a quadrant is an item of the node. -/
theorem QNode.mem_elems_of_mem_quad {n : QNode} {q i : ℕ} (h : i ∈ (n.quad q).elems) :
    i ∈ n.elems := by
  cases n with
  | nil => exact absurd h (List.not_mem_nil i)
  | node s it q0 q1 q2 q3 =>
    simp only [elems, List.mem_append]
    rcases q with _ | _ | _ | _ | q
    exacts [.inl (.inl (.inl (.inr h))), .inl (.inl (.inr h)), .inl (.inr h), .inr h,
      absurd h (List.not_mem_nil i)]

/-- Creating a missing quadrant adds no item. -/
@[simp] theorem QNode.elems_orNew (n : QNode) : n.orNew.elems = n.elems := by
  cases n <;> rfl

/-- Appending an item to a node adds it to the items of the subtree. -/
theorem QNode.elems_pushItem (n : QNode) (i : ℕ) : (n.pushItem i).elems.Perm (n.elems ++ [i]) := by
  cases n with
  | nil => rfl
  | node s it q0 q1 q2 q3 =>
    simp only [pushItem, elems, List.append_assoc]
    exact List.Perm.append_left _ (List.perm_append_comm.trans (by simp))

/-- Replacing quadrant `q` swaps the elements of the old child for those of the new one. -/
theorem QNode.count_setQuad {n : QNode} (hn : n ≠ nil) {q : ℕ} (hq : q < 4) (c : QNode)
    (a : ℕ) : (n.setQuad q c).elems.count a + (n.quad q).elems.count a =
      n.elems.count a + c.elems.count a := by
  cases n with
  | nil => contradiction
  | node s it q0 q1 q2 q3 =>
    rcases q with _ | _ | _ | _ | q
    iterate 4 (simp only [setQuad, quad, elems, List.count_append]; omega)
    omega

/-- After a quadrant of a node is set to `c`, every item is the node's or `c`'s. -/
theorem QNode.mem_setQuad {n c : QNode} {q i : ℕ} (hn : n ≠ nil) (hq : q < 4)
    (h : i ∈ (n.setQuad q c).elems) : i ∈ n.elems ∨ i ∈ c.elems := by
  have := count_setQuad hn hq c i
  rw [← List.count_pos_iff] at h
  simp only [← List.count_pos_iff]; omega

/-! ### The code's recursion -/

/-- Appending an item keeps the `split` flag. -/
@[simp] theorem QNode.split_pushItem (n : QNode) (i : ℕ) : (n.pushItem i).split = n.split := by
  cases n <;> rfl

/-- A node that starts to split is marked split. -/
@[simp] theorem QNode.split_startSplit (n : QNode) : n.startSplit.split = true := by
  cases n <;> rfl

/-- The split branch of `insert` keeps the `split` flag. -/
theorem insertSplit_split (ins : QNode → Rect α → Rect α → ℕ → QNode) (n : QNode)
    (bounds rect : Rect α) (item : ℕ) : (insertSplit ins n bounds rect item).split = n.split := by
  simp only [insertSplit]
  split_ifs <;> simp

/-- The redistribution loop of a split keeps the node's `split` flag, whatever the children
do with the items. -/
theorem foldl_insertSplit_split (ins : QNode → Rect α → Rect α → ℕ → QNode) (bounds : Rect α)
    (rectOf : ℕ → Rect α) (items : List ℕ) (acc : QNode) :
    (items.foldl (fun acc i => insertSplit ins acc bounds (rectOf i) i) acc).split = acc.split := by
  induction items generalizing acc with
  | nil => rfl
  | cons i items ih => rw [List.foldl_cons, ih, insertSplit_split]

/-- The measure a call of `insert` at node `n` and depth `depth` decreases: the levels left
below the node, then `1` for an unsplit node and `0` for a split one, in lexicographic
order. -/
def insertMeasure (n : QNode) (depth : Fin (qMaxDepth + 1)) : ℕ × ℕ :=
  (qMaxDepth - depth, if n.split then 0 else 1)

/-- A descent into a child, one level deeper, decreases the measure. -/
theorem insertMeasure_descend {depth : Fin (qMaxDepth + 1)} (h : depth.val ≠ qMaxDepth)
    (c n : QNode) :
    Prod.Lex (· < ·) (· < ·) (insertMeasure c ⟨depth + 1, by omega⟩) (insertMeasure n depth) :=
  Prod.Lex.left _ _ (by simp only [insertMeasure]; omega)

/-- A call at the same depth on a node that has become split decreases the measure. -/
theorem insertMeasure_retry {n m : QNode} (hn : n.split = false) (hm : m.split = true)
    (depth : Fin (qMaxDepth + 1)) :
    Prod.Lex (· < ·) (· < ·) (insertMeasure m depth) (insertMeasure n depth) := by
  rw [insertMeasure, insertMeasure, hn, hm]
  exact Prod.Lex.right _ (by decide)

/-- `qNode.insert` as the code writes it: after the split of a full node, `insert` is called
again on the node, now split, at the same depth. The recursion is on `insertMeasure`. -/
def insertGo (series : BaseSeries α) (n : QNode) (bounds rect : Rect α) (item : ℕ)
    (depth : Fin (qMaxDepth + 1)) : QNode :=
  if h : depth.val = qMaxDepth then n.pushItem item
  else if n.split then
    insertSplit (fun c b r i => insertGo series c b r i ⟨depth + 1, by omega⟩) n bounds rect item
  else if n.items.length = qMaxItems then
    insertGo series
      (n.items.foldl (fun acc iitem =>
          insertSplit (fun c b r i => insertGo series c b r i ⟨depth + 1, by omega⟩) acc bounds
            (series.segmentAt iitem).rect iitem)
        n.startSplit)
      bounds rect item depth
  else n.pushItem item
termination_by insertMeasure n depth
decreasing_by
  · exact insertMeasure_descend h _ _
  · exact insertMeasure_descend h _ _
  · exact insertMeasure_retry (Bool.eq_false_iff.2 ‹_›)
      (by rw [foldl_insertSplit_split _ bounds, QNode.split_startSplit]) depth

/-- The code's recursion computes `insertAux` on the levels left below the node. -/
theorem insertGo_eq_insertAux (series : BaseSeries α) (r : ℕ) :
    ∀ depth : Fin (qMaxDepth + 1), qMaxDepth - depth = r → ∀ n bounds rect item,
      insertGo series n bounds rect item depth = insertAux series r n bounds rect item := by
  induction r with
  | zero =>
    intro depth hr n bounds rect item
    rw [insertGo, dif_pos (by omega), insertAux]
  | succ r ih =>
    intro depth hr n bounds rect item
    have hd : depth.val ≠ qMaxDepth := by omega
    have hins : (fun c b r i => insertGo series c b r i ⟨depth + 1, by omega⟩) =
        insertAux series r :=
      funext fun c => funext fun b => funext fun r' => funext fun i =>
        ih ⟨depth + 1, by omega⟩ (by show qMaxDepth - (depth.val + 1) = r; omega) c b r' i
    rw [insertGo, dif_neg hd, insertAux]
    simp only [hins]
    split_ifs with hs hf
    · rfl
    · rw [insertGo, dif_neg hd, if_pos (by rw [foldl_insertSplit_split _ bounds,
        QNode.split_startSplit]), hins]
    · rfl

/-- **`insert` terminates.** At every node and depth `≤ qMaxDepth`, with any items stored and
any rectangles, each call `insert` makes decreases `insertMeasure` lexicographically: a
descent into a child goes one level deeper, and the retry after a split is made at the node
once split, whatever the redistribution did, so it runs once per node. The recursion so
admitted computes `QNode.insert`. -/
theorem insert_terminates (series : BaseSeries α) (n : QNode) (bounds rect : Rect α)
    (item : ℕ) (depth : Fin (qMaxDepth + 1)) :
    (∀ (h : depth.val ≠ qMaxDepth) (c : QNode),
        Prod.Lex (· < ·) (· < ·) (insertMeasure c ⟨depth + 1, by omega⟩) (insertMeasure n depth)) ∧
      (∀ ins : QNode → Rect α → Rect α → ℕ → QNode, n.split = false →
        Prod.Lex (· < ·) (· < ·)
          (insertMeasure (n.items.foldl (fun acc i =>
            insertSplit ins acc bounds (series.segmentAt i).rect i) n.startSplit) depth)
          (insertMeasure n depth)) ∧
      insertGo series n bounds rect item depth = n.insert series bounds rect item depth :=
  ⟨fun h c => insertMeasure_descend h c n,
    fun _ hn => insertMeasure_retry hn
      (by rw [foldl_insertSplit_split _ bounds, QNode.split_startSplit]) depth,
    insertGo_eq_insertAux series _ depth rfl n bounds rect item⟩

end SegmentIndex
