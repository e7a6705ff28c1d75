import SegmentIndex.QTree.Invariant
import SegmentIndex.Varint

/-!
# The Compressed Layout

`compress` writes a node in pre-order: the item count, the items in ascending order, each as
its difference from the one before, one `split` byte, and for a split node the four quadrants
in order, each as `0` when nil, or as the size of the child's bytes followed by them.

`decodeNode` reads a node back under the reading discipline of the two searches
(`qCompressSearch`, `qCompressNearbySegment`): a uvarint count, the deltas accumulated from
`0` in `uint64`, the `split` byte (a node is split when it is `1`), and per quadrant a uvarint
`qsize`, `0` for an empty quadrant; otherwise the child is read at the cursor, and the cursor
then moves on by `int(qsize)`, in Go's wrapping `int` arithmetic, whatever the child read.

## Main results

* `decodeNode_compress`: the bytes of a well-shaped node decode to the node with its item
  lists sorted, consuming exactly those bytes, whatever surrounds them.
-/

namespace SegmentIndex

/-- `sort.Ints`. Every sort gives ascending integers the one order; this one is an insertion
sort, which recurses on the list and so evaluates by `decide`. -/
def sortInts (xs : List ℕ) : List ℕ := xs.insertionSort (· ≤ ·)

/-- The item loop of `compress`: each item as its difference from the one before, the first
from `last`. -/
def compressItems : List UInt8 → ℕ → List ℕ → List UInt8
  | dst, _, [] => dst
  | dst, last, item :: items => compressItems (appendUvarint dst (item - last)) item items

/-- A quadrant entry of `compress`: `0` for a nil quadrant, else the size of the child's bytes
`dst2` followed by them. -/
def appendQuad (dst : List UInt8) : QNode → List UInt8 → List UInt8
  | .nil, _ => dst ++ [0]
  | .node .., dst2 => appendUvarint dst dst2.length ++ dst2

/-- `qNode.compress`: the node appended to `dst`, its items sorted first (`sort.Ints`). -/
def QNode.compress : QNode → List UInt8 → List UInt8
  | nil, dst => dst
  | node split items q0 q1 q2 q3, dst =>
    let items := sortInts items
    let dst := compressItems (appendUvarint dst items.length) 0 items
    if !split then dst ++ [0]
    else
      appendQuad (appendQuad (appendQuad (appendQuad (dst ++ [1]) q0 (q0.compress [])) q1
        (q1.compress [])) q2 (q2.compress [])) q3 (q3.compress [])

/-- The item loop of the searches: `k` deltas, each added to the previous item in `uint64`. -/
def decodeItems (data : List UInt8) : ℕ → ℤ → ℕ → List ℕ → Except Fault (List ℕ × ℤ)
  | 0, addr, _, items => return (items, addr)
  | k + 1, addr, last, items => do
    let (item, addr) ← readUvarint data addr
    let item := (item + last) % 2 ^ 64
    decodeItems data k addr item (items ++ [item])

/-- A quadrant entry as the searches read it: `qsize = 0` is an empty quadrant; otherwise the
child is read at the cursor by `dec`, and the cursor moves on by `int(qsize)`. -/
def decodeQuad (dec : ℤ → Except Fault (QNode × ℤ)) (data : List UInt8) (addr : ℤ) :
    Except Fault (QNode × ℤ) := do
  let (qsize, addr) ← readUvarint data addr
  if qsize = 0 then return (.nil, addr)
  let (child, _) ← dec addr
  return (child, (addr + qsize).bmod (2 ^ 64))

/-- A node as the searches read it, with `fuel` bounding the nesting. -/
def decodeNode : ℕ → List UInt8 → ℤ → Except Fault (QNode × ℤ)
  | 0, _, _ => throw .outOfFuel
  | fuel + 1, data, addr => do
    let (nitems, addr) ← readUvarint data addr
    let (items, addr) ← decodeItems data nitems addr 0 []
    let split ← byteAt data addr
    if split = 1 then
      let (q0, addr) ← decodeQuad (decodeNode fuel data) data (addr + 1)
      let (q1, addr) ← decodeQuad (decodeNode fuel data) data addr
      let (q2, addr) ← decodeQuad (decodeNode fuel data) data addr
      let (q3, addr) ← decodeQuad (decodeNode fuel data) data addr
      return (.node true items q0 q1 q2 q3, addr)
    else return (.node false items .nil .nil .nil .nil, addr + 1)

namespace QNode

/-- The tree with every item list sorted, as `compress` leaves it. -/
def sortItems : QNode → QNode
  | nil => nil
  | node s items q0 q1 q2 q3 =>
    node s (sortInts items) q0.sortItems q1.sortItems q2.sortItems q3.sortItems

/-- The nesting of a tree. -/
def height : QNode → ℕ
  | nil => 0
  | node _ _ q0 q1 q2 q3 => max (max q0.height q1.height) (max q2.height q3.height) + 1

/-- A node that is not nil has a positive height. -/
theorem height_pos {n : QNode} (hn : n ≠ nil) : 0 < n.height := by
  cases n with
  | nil => exact absurd rfl hn
  | node => exact Nat.succ_pos _

/-- Unsplit nodes have no children: what `compress` drops, the tree does not hold. -/
def WellShaped : QNode → Prop
  | nil => True
  | node s _ q0 q1 q2 q3 =>
    (s = false → q0 = nil ∧ q1 = nil ∧ q2 = nil ∧ q3 = nil) ∧
      q0.WellShaped ∧ q1.WellShaped ∧ q2.WellShaped ∧ q3.WellShaped

end QNode

/-! ### Writing -/

/-- The item loop appends to whatever `dst` it is given. -/
theorem compressItems_eq (dst : List UInt8) (last : ℕ) (items : List ℕ) :
    compressItems dst last items = dst ++ compressItems [] last items := by
  induction items generalizing dst last with
  | nil => simp [compressItems]
  | cons x xs ih =>
    simp only [compressItems]
    rw [ih, ih (appendUvarint [] _), appendUvarint_eq_putUvarint,
      appendUvarint_eq_putUvarint, List.nil_append, List.append_assoc]

/-- A quadrant entry is appended to whatever `dst` it is given. -/
theorem appendQuad_eq (dst : List UInt8) (c : QNode) (b : List UInt8) :
    appendQuad dst c b = dst ++ appendQuad [] c b := by
  cases c <;> simp [appendQuad, appendUvarint_eq_putUvarint]

/-- `appendQuad_eq` with the prefix split in two. -/
theorem appendQuad_append (l₁ l₂ : List UInt8) (c : QNode) (b : List UInt8) :
    appendQuad (l₁ ++ l₂) c b = l₁ ++ (l₂ ++ appendQuad [] c b) := by
  rw [appendQuad_eq, List.append_assoc]

/-- `compress` appends to whatever `dst` it is given, so a node's bytes can be taken alone. -/
theorem QNode.compress_eq (n : QNode) (dst : List UInt8) :
    n.compress dst = dst ++ n.compress [] := by
  cases n with
  | nil => simp [compress]
  | node s items q0 q1 q2 q3 =>
    simp only [compress]
    rw [compressItems_eq, compressItems_eq (appendUvarint [] _), appendUvarint_eq_putUvarint,
      appendUvarint_eq_putUvarint]
    cases s
    · simp
    · simp only [Bool.not_true, Bool.false_eq_true, if_false, List.append_assoc,
        appendQuad_append, List.nil_append]

/-- The bytes of a node: count, deltas, `split` byte, and the four quadrant entries of a split
node. -/
theorem QNode.compress_node (s : Bool) (items : List ℕ) (q0 q1 q2 q3 : QNode) :
    (node s items q0 q1 q2 q3).compress [] =
      putUvarint (sortInts items).length ++ (compressItems [] 0 (sortInts items) ++
        if s then [1] ++ (appendQuad [] q0 (q0.compress []) ++ (appendQuad [] q1 (q1.compress []) ++
          (appendQuad [] q2 (q2.compress []) ++ appendQuad [] q3 (q3.compress []))))
        else [0]) := by
  rw [compress, compressItems_eq, appendUvarint_eq_putUvarint]
  cases s <;> simp [appendQuad_append]

/-- A node that is not nil writes at least one byte. -/
theorem QNode.compress_ne_nil {n : QNode} (hn : n ≠ nil) : n.compress [] ≠ [] := by
  cases n with
  | nil => exact absurd rfl hn
  | node s items q0 q1 q2 q3 =>
    rw [compress_node]
    have := putUvarint_length_pos (sortInts items).length
    intro h; have h2 := congrArg List.length h
    rw [List.length_append, List.length_nil] at h2; omega

/-- `sortInts` sorts ascending. -/
theorem sortInts_sorted (xs : List ℕ) : (sortInts xs).Pairwise (· ≤ ·) :=
  List.sorted_insertionSort _ xs

/-- `sortInts` keeps the items. -/
theorem sortInts_perm (xs : List ℕ) : (sortInts xs).Perm xs := List.perm_insertionSort _ xs

/-- The builder's trees have the shape `compress` assumes, and nest at most one level below
the depth cap. -/
theorem QNode.Valid.wellShaped {α : Type*} [LinearOrderedField α] {series : BaseSeries α}
    {inside : Rect α → ℕ → Prop} {n : QNode} {bounds : Rect α} {r : ℕ}
    (h : n.Valid series inside bounds r) : n.WellShaped ∧ n.height ≤ r + 1 := by
  induction n generalizing bounds r with
  | nil => simp [WellShaped, height]
  | node s items q0 q1 q2 q3 ih0 ih1 ih2 ih3 =>
    obtain ⟨-, hs, hu, h0, h1, h2, h3⟩ := h
    obtain ⟨w0, e0⟩ := ih0 h0
    obtain ⟨w1, e1⟩ := ih1 h1
    obtain ⟨w2, e2⟩ := ih2 h2
    obtain ⟨w3, e3⟩ := ih3 h3
    refine ⟨⟨fun hf => (hu hf).imp_right fun h => ⟨h.1, h.2.1, h.2.2.1⟩, w0, w1, w2, w3⟩, ?_⟩
    cases s with
    | false =>
      obtain ⟨rfl, rfl, rfl, rfl, -⟩ := hu rfl
      simp [height]
    | true =>
      have := (hs rfl).1
      simp only [height, max_le_iff]; omega

/-! ### Reading back -/

/-- One step of the item loop: the difference from the item before, then the rest. -/
theorem compressItems_cons (last x : ℕ) (xs : List ℕ) :
    compressItems [] last (x :: xs) = putUvarint (x - last) ++ compressItems [] x xs := by
  rw [compressItems, compressItems_eq, appendUvarint_eq_putUvarint, List.nil_append]

/-- One delta of the item loop, read at the cursor, adds back up to the item `compress`
wrote, and leaves the cursor on the next delta. -/
theorem readItem_of_drop {data rest : List UInt8} {a last x : ℕ} {xs : List ℕ} (hlx : last ≤ x)
    (hx : x < 2 ^ 64) (hd : data.drop a = compressItems [] last (x :: xs) ++ rest) :
    readUvarint data a = .ok (x - last, ((a + (putUvarint (x - last)).length : ℕ) : ℤ)) ∧
      (x - last + last) % 2 ^ 64 = x ∧
      data.drop (a + (putUvarint (x - last)).length) = compressItems [] x xs ++ rest := by
  rw [compressItems_cons, List.append_assoc] at hd
  exact ⟨readUvarint_of_drop (by omega) hd, by rw [Nat.sub_add_cancel hlx, Nat.mod_eq_of_lt hx],
    drop_add_of_drop hd⟩

/-- The item loop reads back the deltas `compressItems` wrote. -/
theorem decodeItems_of_drop {data rest : List UInt8} : ∀ (items : List ℕ) (a last : ℕ)
    (acc : List ℕ), items.Pairwise (· ≤ ·) → (∀ i ∈ items, last ≤ i ∧ i < 2 ^ 64) →
    data.drop a = compressItems [] last items ++ rest →
    decodeItems data items.length a last acc =
      .ok (acc ++ items, ((a + (compressItems [] last items).length : ℕ) : ℤ)) := by
  intro items
  induction items with
  | nil => intro a last acc _ _ _; simp [decodeItems, compressItems]
  | cons x xs ih =>
    intro a last acc hs hb hd
    obtain ⟨hlx, hx⟩ := hb x (by simp)
    obtain ⟨hr, hm, hd'⟩ := readItem_of_drop hlx hx hd
    have hs' := List.pairwise_cons.1 hs
    rw [List.length_cons, decodeItems, hr, except_ok_bind]
    simp only [hm]
    rw [ih _ x _ hs'.2 (fun i hi => ⟨hs'.1 i hi, (hb i (by simp [hi])).2⟩) hd', compressItems_cons]
    simp [Nat.add_assoc]

/-- The item loop writes at least one byte per item. -/
theorem compressItems_length_ge (last : ℕ) (items : List ℕ) :
    items.length ≤ (compressItems [] last items).length := by
  induction items generalizing last with
  | nil => simp [compressItems]
  | cons x xs ih =>
    rw [compressItems, compressItems_eq, appendUvarint_eq_putUvarint, List.length_append,
      List.length_cons]
    have := ih x
    have := putUvarint_length_pos (x - last)
    simp only [List.nil_append, List.length_append]; omega

/-- A quadrant entry reads back as the child `compress` wrote, the cursor ending after it. -/
theorem decodeQuad_of_drop {dec : ℤ → Except Fault (QNode × ℤ)} {data rest : List UInt8} {a : ℕ}
    (c : QNode) (hlen : a + (appendQuad [] c (c.compress [])).length < 2 ^ 63)
    (hd : data.drop a = appendQuad [] c (c.compress []) ++ rest)
    (hdec : ∀ b : ℕ, c ≠ .nil → b + (c.compress []).length < 2 ^ 63 →
      data.drop b = c.compress [] ++ rest → ∃ e, dec b = .ok (c.sortItems, e)) :
    decodeQuad dec data a =
      .ok (c.sortItems, ((a + (appendQuad [] c (c.compress [])).length : ℕ) : ℤ)) := by
  cases c with
  | nil =>
    simp only [appendQuad, List.nil_append] at hd ⊢
    rw [decodeQuad, readUvarint_of_drop (x := 0) (by norm_num) (by simpa [putUvarint] using hd)]
    simp [putUvarint, QNode.sortItems]
  | node s items q0 q1 q2 q3 =>
    have hne := QNode.compress_ne_nil (n := .node s items q0 q1 q2 q3) (by simp)
    have hpos : 0 < ((QNode.node s items q0 q1 q2 q3).compress []).length :=
      List.length_pos.2 hne
    simp only [appendQuad, appendUvarint_eq_putUvarint, List.nil_append, List.append_assoc,
      List.length_append] at hd hlen ⊢
    obtain ⟨e, he⟩ := hdec _ (by simp) (by omega) (drop_add_of_drop hd)
    rw [decodeQuad, readUvarint_of_drop (by omega) hd, except_ok_bind]
    simp only [if_neg hpos.ne', he, except_ok_bind, except_pure_eq, Except.ok.injEq, Prod.mk.injEq,
      true_and]
    rw [bmod_of_lt (by omega) (by push_cast; omega)]
    push_cast; ring

/-- **The compressed layout decodes back to the node**, with its item lists sorted: the reading
discipline of the searches consumes exactly the node's bytes, whatever surrounds them. -/
theorem decodeNode_compress (fuel : ℕ) (n : QNode) {data rest : List UInt8} {a : ℕ}
    (hn : n ≠ .nil) (hw : n.WellShaped) (hb : ∀ i ∈ n.elems, i < 2 ^ 64) (hh : n.height ≤ fuel)
    (hlen : a + (n.compress []).length < 2 ^ 63) (hd : data.drop a = n.compress [] ++ rest) :
    decodeNode fuel data a = .ok (n.sortItems, ((a + (n.compress []).length : ℕ) : ℤ)) := by
  induction fuel generalizing n a rest with
  | zero => exact absurd hh (Nat.not_le.2 (QNode.height_pos hn))
  | succ fuel ih =>
    cases n with
    | nil => exact absurd rfl hn
    | node s items q0 q1 q2 q3 =>
      obtain ⟨hw0, hw1, hw2, hw3, hw4⟩ := hw
      simp only [QNode.elems, List.mem_append] at hb
      simp only [QNode.height, Nat.add_le_add_iff_right, max_le_iff] at hh
      have hI := compressItems_length_ge 0 (sortInts items)
      rw [QNode.compress_node] at hd hlen ⊢
      rw [List.append_assoc] at hd
      simp only [List.length_append] at hlen ⊢
      rw [decodeNode, readUvarint_of_drop (by omega) hd, except_ok_bind]
      have hd1 := drop_add_of_drop hd
      rw [List.append_assoc] at hd1
      have hsb : ∀ i ∈ sortInts items, 0 ≤ i ∧ i < 2 ^ 64 := fun i hi =>
        ⟨Nat.zero_le i, hb i (Or.inl (Or.inl (Or.inl (Or.inl ((sortInts_perm items).mem_iff.1 hi)))))⟩
      simp only
      rw [decodeItems_of_drop _ _ _ _ (sortInts_sorted items) hsb hd1, except_ok_bind,
        List.nil_append]
      have hd2 := drop_add_of_drop hd1
      simp only
      cases s with
      | false =>
        obtain ⟨rfl, rfl, rfl, rfl⟩ := hw0 rfl
        simp only [Bool.false_eq_true, ↓reduceIte, List.singleton_append, List.cons_append,
          List.length_singleton] at hd2 ⊢
        rw [byteAt_of_drop hd2]
        simp [QNode.sortItems]; omega
      | true =>
        have key : ∀ (c : QNode) (rest' : List UInt8) (b : ℕ), c.WellShaped →
            (∀ i ∈ c.elems, i < 2 ^ 64) → c.height ≤ fuel →
            b + (appendQuad [] c (c.compress [])).length < 2 ^ 63 →
            data.drop b = appendQuad [] c (c.compress []) ++ rest' →
            decodeQuad (decodeNode fuel data) data b =
              .ok (c.sortItems, ((b + (appendQuad [] c (c.compress [])).length : ℕ) : ℤ)) :=
          fun c _ _ hw hb hh hl hd =>
            decodeQuad_of_drop c hl hd fun _ hc hl' hd' => ⟨_, ih c hc hw hb hh hl' hd'⟩
        simp only [↓reduceIte, List.append_assoc, List.length_append, List.length_singleton]
          at hd2 hlen ⊢
        rw [byteAt_of_drop (b := 1) hd2]
        have hq0 := drop_add_of_drop (l := [1]) hd2
        rw [List.length_singleton] at hq0
        have hq1 := drop_add_of_drop hq0
        have hq2 := drop_add_of_drop hq1
        have hq3 := drop_add_of_drop hq2
        rw [except_ok_bind, show (1 : UInt8).toNat = 1 from rfl, if_pos rfl, ← Nat.cast_succ, key q0 _ _ hw1 (fun i hi => hb i (by simp [hi])) hh.1.1 (by omega) hq0,
          except_ok_bind]
        simp only
        rw [key q1 _ _ hw2 (fun i hi => hb i (by simp [hi])) hh.1.2 (by omega) hq1, except_ok_bind]
        simp only
        rw [key q2 _ _ hw3 (fun i hi => hb i (by simp [hi])) hh.2.1 (by omega) hq2, except_ok_bind]
        simp only
        rw [key q3 _ _ hw4 (fun i hi => hb i (by simp [hi])) hh.2.2 (by omega) hq3]
        simp [QNode.sortItems]; omega

end SegmentIndex
