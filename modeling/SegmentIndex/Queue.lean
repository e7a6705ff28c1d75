import SegmentIndex.Geom

/-!
# The Priority Queue

`queue.go`: a binary min-heap of `qnode`s in a slice, ordered by `qnode.cmp`, which compares
`dist`, then `kind`, then `pos`. `push` appends and swaps the node up while its parent
compares greater; `pop` takes the root, moves the last node to the root and swaps it down
with the smaller of its children (the left one on a tie) while a child compares at most
equal.

Distances are the elements of a linear ordered field, so there is no NaN: under `cmp` the
nodes are totally preordered, `Qnode.Le`. The sifts are proved with the invariants of a heap
that is ordered except around one position (`UpOrder`, `DownOrder`): one step lemma per
swap and one lemma for the end of each loop.

## Main results

* `push_spec`, `pop_spec`: on a heap, `push` keeps a heap holding one more node, and `pop`
  answers `false` exactly on the empty queue, and otherwise a node that compares at most
  equal to every node it leaves, in a heap of the rest.
* `queue_run`: along every sequence of operations from the empty queue, the queue is a
  heap, it holds the pushed nodes minus the popped ones, and every pop is as above.
* `drain_run`: popping until `pop` answers `false`, as `TestQueue` does, then takes the rest in
  the order of `cmp`.
-/

namespace SegmentIndex

/-- `qrect`: a queue node for a quadrant. -/
def qrect : ℤ := 1

/-- `qseg`: a queue node for a segment. -/
def qseg : ℤ := 2

/-- `qnode`: a distance, the kind of node, a segment index or a blob address, and the two
points of the segment or the rectangle. -/
structure Qnode (α : Type) where
  dist : α
  kind : ℤ
  pos : ℤ
  a : Point α
  b : Point α
  deriving DecidableEq, Repr

variable {α : Type} [LinearOrderedField α]

/-- `qnode{}`. -/
def Qnode.zero : Qnode α := ⟨0, 0, 0, ⟨0, 0⟩, ⟨0, 0⟩⟩

/-- `qnode.cmp`: `-1`, `0` or `1` as `dist`, then `kind`, then `pos` compare. -/
def Qnode.cmp (qn other : Qnode α) : ℤ :=
  if qn.dist < other.dist then -1
  else if qn.dist > other.dist then 1
  else if qn.kind < other.kind then -1
  else if qn.kind > other.kind then 1
  else if qn.pos < other.pos then -1
  else if qn.pos > other.pos then 1
  else 0

/-- `a.cmp(b) <= 0`. -/
def Qnode.Le (a b : Qnode α) : Prop := a.cmp b ≤ 0

/-- `Le` is decided through the comparison. -/
instance (a b : Qnode α) : Decidable (a.Le b) := inferInstanceAs (Decidable (_ ≤ _))

/-- `nodes[i]`. -/
def nodeAt (nodes : List (Qnode α)) (i : ℕ) : Qnode α := nodes.getD i Qnode.zero

/-- `nodes[i], nodes[j] = nodes[j], nodes[i]`. -/
def swapAt (nodes : List (Qnode α)) (i j : ℕ) : List (Qnode α) :=
  (nodes.set i (nodeAt nodes j)).set j (nodeAt nodes i)

/-- `(i - 1) / 2`, the parent of a position `i > 0`. -/
def parent (i : ℕ) : ℕ := (i - 1) / 2

/-- The loop of `push`: swap the node at `i` with its parent while the parent compares
greater. -/
def siftUp (nodes : List (Qnode α)) (i : ℕ) : List (Qnode α) :=
  if _h : i ≠ 0 ∧ (nodeAt nodes (parent i)).cmp (nodeAt nodes i) > 0 then
    siftUp (swapAt nodes (parent i) i) (parent i)
  else nodes
termination_by i
decreasing_by unfold parent; omega

/-- `queue.push`. -/
def Queue.push (q : List (Qnode α)) (node : Qnode α) : List (Qnode α) :=
  siftUp (q ++ [node]) q.length

/-- The choice in the loop of `pop`: the left child when it compares at most equal to the
node at `i`, then the right child when it compares at most equal to that choice. -/
def smallestChild (nodes : List (Qnode α)) (i : ℕ) : ℕ :=
  let left := i * 2 + 1
  let right := i * 2 + 2
  let smallest :=
    if left < nodes.length ∧ (nodeAt nodes left).Le (nodeAt nodes i) then left else i
  if right < nodes.length ∧ (nodeAt nodes right).Le (nodeAt nodes smallest) then right
  else smallest

/-- `smallestChild` answers `i` itself or one of its children in range. -/
theorem smallestChild_cases (nodes : List (Qnode α)) (i : ℕ) :
    smallestChild nodes i = i ∨ smallestChild nodes i = i * 2 + 1 ∧ i * 2 + 1 < nodes.length ∨
      smallestChild nodes i = i * 2 + 2 ∧ i * 2 + 2 < nodes.length := by
  simp only [smallestChild]; split_ifs <;> simp_all

/-- Swapping two nodes keeps the length. -/
@[simp] theorem length_swapAt (nodes : List (Qnode α)) (i j : ℕ) :
    (swapAt nodes i j).length = nodes.length := by
  simp [swapAt]

/-- The loop of `pop`: swap the node at `i` with its smallest child while that is not the
node itself. -/
def siftDown (nodes : List (Qnode α)) (i : ℕ) : List (Qnode α) :=
  if _h : smallestChild nodes i = i then nodes
  else siftDown (swapAt nodes (smallestChild nodes i) i) (smallestChild nodes i)
termination_by nodes.length - i
decreasing_by
  rw [length_swapAt]
  rcases smallestChild_cases nodes i with h' | ⟨h', hl⟩ | ⟨h', hl⟩ <;> omega

/-- `queue.pop`: the root and `true`, the last node moved to the root and sifted down; or
`qnode{}` and `false` on the empty queue. -/
def Queue.pop (q : List (Qnode α)) : Qnode α × Bool × List (Qnode α) :=
  if q.length = 0 then (Qnode.zero, false, q)
  else (nodeAt q 0, true, siftDown ((q.set 0 (nodeAt q (q.length - 1))).take (q.length - 1)) 0)

/-! ### The order of `cmp` -/

/-- `cmp` is the lexicographic order on `(dist, kind, pos)`. -/
theorem Qnode.cmp_nonpos_iff (a b : Qnode α) : a.cmp b ≤ 0 ↔
    a.dist < b.dist ∨ a.dist = b.dist ∧ (a.kind < b.kind ∨ a.kind = b.kind ∧ a.pos ≤ b.pos) := by
  unfold Qnode.cmp
  rcases lt_trichotomy a.dist b.dist with h | h | h
  · simp [h]
  · simp only [h, lt_irrefl, gt_iff_lt, if_false, true_and, false_or]
    split_ifs <;> omega
  · simp [h, not_lt_of_gt h, ne_of_gt h]

/-- `Le` is reflexive. -/
theorem Qnode.le_refl (a : Qnode α) : a.Le a := by simp [Le, cmp_nonpos_iff]

/-- `Le` is total. -/
theorem Qnode.le_total (a b : Qnode α) : a.Le b ∨ b.Le a := by
  simp only [Le, cmp_nonpos_iff]
  rcases lt_trichotomy a.dist b.dist with h | h | h
  · exact .inl (.inl h)
  · simp only [h, lt_irrefl, true_and, false_or]; omega
  · exact .inr (.inl h)

/-- `Le` is transitive. -/
theorem Qnode.le_trans {a b c : Qnode α} (hab : a.Le b) (hbc : b.Le c) : a.Le c := by
  simp only [Le, cmp_nonpos_iff] at *
  rcases hab with h1 | ⟨h1, h1'⟩ <;> rcases hbc with h2 | ⟨h2, h2'⟩
  · exact .inl (h1.trans h2)
  · exact .inl (h2 ▸ h1)
  · exact .inl (h1 ▸ h2)
  · exact .inr ⟨h1.trans h2, by omega⟩

/-- A positive comparison is the failure of `Le`. -/
theorem Qnode.cmp_pos_iff {a b : Qnode α} : a.cmp b > 0 ↔ ¬ a.Le b := by
  simp only [Le, not_le, gt_iff_lt]

/-- Where `a ≤ b` fails, `b ≤ a` holds. -/
theorem Qnode.le_of_not_le {a b : Qnode α} (h : ¬ a.Le b) : b.Le a :=
  (le_total a b).resolve_left h

/-! ### Heaps -/

/-- The heap order: every node compares at least equal to its parent. -/
def IsHeap (nodes : List (Qnode α)) : Prop :=
  ∀ j, 0 < j → j < nodes.length → (nodeAt nodes (parent j)).Le (nodeAt nodes j)

/-- The empty queue is a heap. -/
theorem isHeap_nil : IsHeap ([] : List (Qnode α)) := fun _ _ hj => absurd hj (Nat.not_lt_zero _)

/-- Every position but the root has its parent before it. -/
theorem parent_lt {j : ℕ} (h : 0 < j) : parent j < j := by unfold parent; omega

/-- The nodes after a swap of two positions in range. -/
theorem nodeAt_swapAt {nodes : List (Qnode α)} {i j : ℕ} (hi : i < nodes.length)
    (hj : j < nodes.length) (k : ℕ) : nodeAt (swapAt nodes i j) k =
      if k = j then nodeAt nodes i else if k = i then nodeAt nodes j else nodeAt nodes k := by
  simp only [nodeAt, swapAt, List.getD_eq_getElem?_getD]
  by_cases hkj : k = j
  · subst hkj; simp [List.getElem?_set_self, hj]
  · rw [List.getElem?_set_ne (Ne.symm hkj)]
    by_cases hki : k = i
    · subst hki; simp [hkj, List.getElem?_set_self, hi]
    · rw [List.getElem?_set_ne (Ne.symm hki)]; simp [hkj, hki]

/-- **The root of a heap compares at most equal to every node.** -/
theorem IsHeap.root_le {nodes : List (Qnode α)} (h : IsHeap nodes) :
    ∀ j, j < nodes.length → (nodeAt nodes 0).Le (nodeAt nodes j) := by
  intro j
  induction j using Nat.strong_induction_on with
  | _ j ih =>
    intro hj
    rcases Nat.eq_zero_or_pos j with rfl | hj0
    · exact Qnode.le_refl _
    · exact Qnode.le_trans (ih _ (parent_lt hj0) (by have := parent_lt hj0; omega)) (h j hj0 hj)

/-- In range, `nodeAt` is the list's own indexing. -/
theorem nodeAt_eq {nodes : List (Qnode α)} {i : ℕ} (h : i < nodes.length) :
    nodeAt nodes i = nodes[i] := by
  simp [nodeAt, List.getElem?_eq_getElem h]

/-- A swap keeps the nodes. -/
theorem swapAt_perm {nodes : List (Qnode α)} {i j : ℕ} (hi : i < nodes.length)
    (hj : j < nodes.length) : (swapAt nodes i j).Perm nodes := by
  rw [List.perm_iff_count]
  intro b
  have hb : (if nodes[i] == b then 1 else 0) ≤ nodes.count b :=
    List.boole_getElem_le_countP (· == b) nodes i hi
  simp only [swapAt, nodeAt_eq hi, nodeAt_eq hj]
  rw [List.count_set _ _ _ _ (by simpa using hj), List.count_set _ _ _ _ hi, List.getElem_set]
  rw [ite_self]
  split_ifs at hb ⊢ <;> omega

/-! ### `push` -/

/-- The heap order while `push` sifts the node at `i` up: ordered but between `i` and its
parent, and that parent compares at most equal to the children of `i`. -/
structure UpOrder (nodes : List (Qnode α)) (i : ℕ) : Prop where
  lt : i < nodes.length
  except : ∀ j, 0 < j → j < nodes.length → j ≠ i →
    (nodeAt nodes (parent j)).Le (nodeAt nodes j)
  grand : i ≠ 0 → ∀ c, 0 < c → parent c = i → c < nodes.length →
    (nodeAt nodes (parent i)).Le (nodeAt nodes c)

/-- One swap of `push` moves the exception up to the parent. -/
theorem UpOrder.move {nodes : List (Qnode α)} {i : ℕ} (o : UpOrder nodes i) (hi : i ≠ 0)
    (hlt : ¬ (nodeAt nodes (parent i)).Le (nodeAt nodes i)) :
    UpOrder (swapAt nodes (parent i) i) (parent i) := by
  have hp := parent_lt (Nat.pos_of_ne_zero hi)
  have hpl : parent i < nodes.length := by have := o.lt; omega
  have hxy := Qnode.le_of_not_le hlt
  have get := nodeAt_swapAt hpl o.lt
  refine ⟨by simpa using hpl, fun j hj0 hjl hjp => ?_, fun hp0 c hc0 hcp hcl => ?_⟩
  · simp only [length_swapAt] at hjl
    rw [get, get]
    by_cases hji : j = i
    · subst hji; simpa [hp.ne] using hxy
    · have hjp' : j ≠ parent i := hjp
      by_cases hpj : parent j = i
      · simpa [hji, hjp', hpj] using o.grand hi j hj0 hpj hjl
      · by_cases hpp : parent j = parent i
        · simpa [hji, hjp', hpj, hpp, hp.ne] using
            Qnode.le_trans hxy (hpp ▸ o.except j hj0 hjl hji)
        · simpa [hji, hjp', hpj, hpp] using o.except j hj0 hjl hji
  · simp only [length_swapAt] at hcl
    have hpp := parent_lt (Nat.pos_of_ne_zero hp0)
    have hpi : parent (parent i) ≠ i := by omega
    have hpp' : parent (parent i) ≠ parent i := by omega
    have hpe := o.except (parent i) (Nat.pos_of_ne_zero hp0) hpl (by omega)
    rw [get, get]
    by_cases hci : c = i
    · subst hci; simpa [hpi, hpp'] using hpe
    · have hcp' : c ≠ parent i := by have := parent_lt hc0; omega
      simpa [hpi, hpp', hci, hcp'] using
        Qnode.le_trans hpe (hcp ▸ o.except c hc0 hcl hci)

/-- The loop of `push` ends on a heap. -/
theorem UpOrder.heap {nodes : List (Qnode α)} {i : ℕ} (o : UpOrder nodes i)
    (h : i = 0 ∨ (nodeAt nodes (parent i)).Le (nodeAt nodes i)) : IsHeap nodes := by
  intro j hj0 hjl
  by_cases hji : j = i
  · subst hji; exact h.resolve_left (by omega)
  · exact o.except j hj0 hjl hji

/-- **`siftUp` restores the heap.** From a queue ordered but around `i`, it makes a heap of
the same nodes. -/
theorem siftUp_spec (nodes : List (Qnode α)) (i : ℕ) (o : UpOrder nodes i) :
    IsHeap (siftUp nodes i) ∧ (siftUp nodes i).Perm nodes := by
  induction nodes, i using siftUp.induct with
  | case1 nodes i h ih =>
    rw [siftUp, dif_pos h]
    have hpl : parent i < nodes.length := by have := parent_lt (Nat.pos_of_ne_zero h.1); have := o.lt; omega
    obtain ⟨hh, hp⟩ := ih (o.move h.1 (Qnode.cmp_pos_iff.1 h.2))
    exact ⟨hh, hp.trans (swapAt_perm hpl o.lt)⟩
  | case2 nodes i h =>
    rw [siftUp, dif_neg h]
    refine ⟨o.heap ?_, List.Perm.refl _⟩
    by_cases hi : i = 0
    · exact .inl hi
    · exact .inr (not_not.1 fun hn => h ⟨hi, Qnode.cmp_pos_iff.2 hn⟩)

/-- Appending nodes keeps those before them. -/
theorem nodeAt_append_lt {q : List (Qnode α)} {j : ℕ} (l : List (Qnode α)) (h : j < q.length) :
    nodeAt (q ++ l) j = nodeAt q j := by
  simp [nodeAt, List.getElem?_append_left h]

/-- **`push` keeps a heap**, which holds one node more. -/
theorem push_spec {q : List (Qnode α)} (hq : IsHeap q) (node : Qnode α) :
    IsHeap (Queue.push q node) ∧ (Queue.push q node).Perm (q ++ [node]) := by
  refine siftUp_spec _ _ ⟨by simp, fun j hj0 hjl hjq => ?_, fun _ c hc0 hcp hcl => ?_⟩
  · have hj : j < q.length := by simp at hjl; omega
    rw [nodeAt_append_lt _ hj, nodeAt_append_lt _ (by have := parent_lt hj0; omega)]
    exact hq j hj0 hj
  · simp [parent] at hcp hcl; omega

/-! ### `pop` -/

/-- What the choice of `pop` gives: the node itself or one of its children, at most equal
to every child, and at most equal to the node when it is a child. -/
theorem smallestChild_spec (nodes : List (Qnode α)) (i : ℕ) :
    (smallestChild nodes i = i ∨
      0 < smallestChild nodes i ∧ parent (smallestChild nodes i) = i ∧
        smallestChild nodes i < nodes.length) ∧
    (∀ c, 0 < c → parent c = i → c < nodes.length →
      (nodeAt nodes (smallestChild nodes i)).Le (nodeAt nodes c)) ∧
    (smallestChild nodes i ≠ i → (nodeAt nodes (smallestChild nodes i)).Le (nodeAt nodes i)) := by
  have hc : ∀ c, 0 < c → parent c = i → c = i * 2 + 1 ∨ c = i * 2 + 2 := by
    intro c hc0 hcp; simp only [parent] at hcp; omega
  have hp1 : parent (i * 2 + 1) = i := by simp only [parent]; omega
  have hp2 : parent (i * 2 + 2) = i := by simp only [parent]; omega
  simp only [smallestChild]
  by_cases h1 : i * 2 + 1 < nodes.length ∧ (nodeAt nodes (i * 2 + 1)).Le (nodeAt nodes i)
  · rw [if_pos h1]
    by_cases h2 : i * 2 + 2 < nodes.length ∧
        (nodeAt nodes (i * 2 + 2)).Le (nodeAt nodes (i * 2 + 1))
    · rw [if_pos h2]
      refine ⟨.inr ⟨by omega, hp2, h2.1⟩, fun c hc0 hcp _ => ?_, fun _ => Qnode.le_trans h2.2 h1.2⟩
      rcases hc c hc0 hcp with rfl | rfl
      · exact h2.2
      · exact Qnode.le_refl _
    · rw [if_neg h2]
      refine ⟨.inr ⟨by omega, hp1, h1.1⟩, fun c hc0 hcp hcl => ?_, fun _ => h1.2⟩
      rcases hc c hc0 hcp with rfl | rfl
      · exact Qnode.le_refl _
      · exact Qnode.le_of_not_le fun h => h2 ⟨hcl, h⟩
  · rw [if_neg h1]
    have hl : i * 2 + 1 < nodes.length → (nodeAt nodes i).Le (nodeAt nodes (i * 2 + 1)) :=
      fun hl => Qnode.le_of_not_le fun h => h1 ⟨hl, h⟩
    by_cases h2 : i * 2 + 2 < nodes.length ∧ (nodeAt nodes (i * 2 + 2)).Le (nodeAt nodes i)
    · rw [if_pos h2]
      refine ⟨.inr ⟨by omega, hp2, h2.1⟩, fun c hc0 hcp hcl => ?_, fun _ => h2.2⟩
      rcases hc c hc0 hcp with rfl | rfl
      · exact Qnode.le_trans h2.2 (hl hcl)
      · exact Qnode.le_refl _
    · rw [if_neg h2]
      refine ⟨.inl rfl, fun c hc0 hcp hcl => ?_, fun h => absurd rfl h⟩
      rcases hc c hc0 hcp with rfl | rfl
      · exact hl hcl
      · exact Qnode.le_of_not_le fun h => h2 ⟨hcl, h⟩

/-- The heap order while `pop` sifts the node at `i` down: ordered but between `i` and its
children, and the parent of `i` compares at most equal to them. -/
structure DownOrder (nodes : List (Qnode α)) (i : ℕ) : Prop where
  except : ∀ j, 0 < j → j < nodes.length → parent j ≠ i →
    (nodeAt nodes (parent j)).Le (nodeAt nodes j)
  grand : i ≠ 0 → ∀ c, 0 < c → parent c = i → c < nodes.length →
    (nodeAt nodes (parent i)).Le (nodeAt nodes c)

/-- One swap of `pop` moves the exception down to the chosen child. -/
theorem DownOrder.move {nodes : List (Qnode α)} {i : ℕ} (o : DownOrder nodes i)
    (hm : smallestChild nodes i ≠ i) :
    DownOrder (swapAt nodes (smallestChild nodes i) i) (smallestChild nodes i) := by
  obtain ⟨hcase, hmin, hle⟩ := smallestChild_spec nodes i
  obtain ⟨hm0, hmp, hml⟩ := hcase.resolve_left hm
  set m := smallestChild nodes i
  have him : i < m := by rw [← hmp]; exact parent_lt hm0
  have get := nodeAt_swapAt hml (show i < nodes.length by omega)
  refine ⟨fun j hj0 hjl hjm => ?_, fun _ c hc0 hcp hcl => ?_⟩
  · simp only [length_swapAt] at hjl
    rw [get, get]
    by_cases hjm' : j = m
    · subst hjm'; simpa [hmp, hm] using hle hm
    · by_cases hji : j = i
      · subst hji
        have hpi := parent_lt hj0
        simpa [hpi.ne, show parent j ≠ m by omega] using o.grand (by omega) m hm0 hmp hml
      · by_cases hpj : parent j = i
        · simpa [hjm', hji, hpj] using hmin j hj0 hpj hjl
        · simpa [hjm', hji, hpj, hjm] using o.except j hj0 hjl hpj
  · simp only [length_swapAt] at hcl
    have hmc : m < c := by rw [← hcp]; exact parent_lt hc0
    rw [get, get]
    simpa [hcp, hmp, show c ≠ i by omega, show c ≠ m by omega] using
      o.except c hc0 hcl (by omega)

/-- The loop of `pop` ends on a heap. -/
theorem DownOrder.heap {nodes : List (Qnode α)} {i : ℕ} (o : DownOrder nodes i)
    (hm : smallestChild nodes i = i) : IsHeap nodes := by
  intro j hj0 hjl
  by_cases hpj : parent j = i
  · have := (smallestChild_spec nodes i).2.1 j hj0 hpj hjl
    rwa [hm, ← hpj] at this
  · exact o.except j hj0 hjl hpj

/-- **`siftDown` restores the heap.** From a queue ordered but around `i`, it makes a heap of
the same nodes. -/
theorem siftDown_spec (nodes : List (Qnode α)) (i : ℕ) (o : DownOrder nodes i) :
    IsHeap (siftDown nodes i) ∧ (siftDown nodes i).Perm nodes := by
  induction nodes, i using siftDown.induct with
  | case1 nodes i h =>
    rw [siftDown, dif_pos h]
    exact ⟨o.heap h, List.Perm.refl _⟩
  | case2 nodes i h ih =>
    rw [siftDown, dif_neg h]
    obtain ⟨hm0, hmp, hml⟩ := (smallestChild_spec nodes i).1.resolve_left h
    have him : i < smallestChild nodes i := by have := parent_lt hm0; omega
    obtain ⟨hh, hp⟩ := ih (o.move h)
    exact ⟨hh, hp.trans (swapAt_perm hml (by omega))⟩

/-- Sifting down keeps the length. -/
theorem length_siftDown (nodes : List (Qnode α)) (i : ℕ) :
    (siftDown nodes i).length = nodes.length := by
  induction nodes, i using siftDown.induct with
  | case1 nodes i h => rw [siftDown, dif_pos h]
  | case2 nodes i h ih => rw [siftDown, dif_neg h, ih, length_swapAt]

/-- `pop` takes one node off a nonempty queue. -/
theorem Queue.length_pop (q : List (Qnode α)) : (Queue.pop q).2.2.length = q.length - 1 := by
  unfold Queue.pop
  split_ifs with h
  · simp [h]
  · simp only [length_siftDown, List.length_take, List.length_set]; omega

/-- The nodes `pop` sifts down: the last node moved to the root and the last position
dropped, ordered but at the root. -/
theorem pop_downOrder {q : List (Qnode α)} (hq : IsHeap q) :
    DownOrder ((q.set 0 (nodeAt q (q.length - 1))).take (q.length - 1)) 0 := by
  refine ⟨fun j hj0 hjl hpj => ?_, fun h => absurd rfl h⟩
  simp only [List.length_take, List.length_set] at hjl
  have e : ∀ k, 0 < k → k < q.length - 1 →
      nodeAt ((q.set 0 (nodeAt q (q.length - 1))).take (q.length - 1)) k = nodeAt q k := by
    intro k hk0 hkl
    simp [nodeAt, List.getElem?_take_of_lt hkl, List.getElem?_set_ne (show 0 ≠ k by omega)]
  have hpl := parent_lt hj0
  rw [e j hj0 (by omega), e (parent j) (Nat.pos_of_ne_zero hpj) (by omega)]
  exact hq j hj0 (by omega)

/-- The root and the nodes `pop` sifts down are the nodes of the queue. -/
theorem pop_perm (a : Qnode α) (tl : List (Qnode α)) :
    (a :: tl).Perm (a :: ((a :: tl).set 0 (nodeAt (a :: tl) tl.length)).take tl.length) := by
  rcases tl.eq_nil_or_concat with rfl | ⟨L, b, rfl⟩
  · simp
  · have hb : nodeAt (a :: (L ++ [b])) (L.length + 1) = b := by simp [nodeAt]
    simp only [List.concat_eq_append, List.length_append, List.length_singleton,
      List.set_cons_zero, List.take_succ_cons, List.take_left', hb]
    exact List.Perm.cons a (List.perm_append_singleton b L)

/-- What `pop` answers on `q`: `(qnode{}, false)` exactly when `q` is empty, and otherwise
one node of `q` that compares at most equal to every node it leaves, the others staying. -/
structure PopSpec (q : List (Qnode α)) : Prop where
  empty : (Queue.pop q).2.1 = false ↔ q = []
  zero : q = [] → (Queue.pop q).1 = Qnode.zero ∧ (Queue.pop q).2.2 = []
  perm : q ≠ [] → q.Perm ((Queue.pop q).1 :: (Queue.pop q).2.2)
  least : ∀ y ∈ (Queue.pop q).2.2, ((Queue.pop q).1).Le y

/-- **`pop` on a heap** meets `PopSpec`, and leaves a heap. -/
theorem pop_spec {q : List (Qnode α)} (hq : IsHeap q) : PopSpec q ∧ IsHeap (Queue.pop q).2.2 := by
  rcases q with _ | ⟨a, tl⟩
  · exact ⟨⟨by simp [Queue.pop], fun _ => ⟨rfl, rfl⟩, fun h => absurd rfl h, by simp [Queue.pop]⟩,
      isHeap_nil⟩
  obtain ⟨hh, hp⟩ := siftDown_spec _ 0 (pop_downOrder hq)
  have hperm := (pop_perm a tl).trans (List.Perm.cons a hp.symm)
  simp only [List.length_cons, Nat.add_sub_cancel] at hh hperm
  have e : Queue.pop (a :: tl) =
      (a, true, siftDown (((a :: tl).set 0 (nodeAt (a :: tl) tl.length)).take tl.length) 0) := rfl
  refine ⟨⟨by rw [e]; simp, fun h => absurd h (List.cons_ne_nil a tl), fun _ => by rw [e]; exact hperm,
    fun y hy => ?_⟩, by rw [e]; exact hh⟩
  rw [e] at hy ⊢
  obtain ⟨j, hj, rfl⟩ := List.getElem_of_mem (hperm.symm.subset (List.mem_cons_of_mem _ hy))
  rw [← nodeAt_eq hj]
  exact hq.root_le j hj

/-- Pushing nodes one after another keeps a heap, which holds them all. -/
theorem pushAll_spec {q : List (Qnode α)} (hq : IsHeap q) (nodes : List (Qnode α)) :
    IsHeap (nodes.foldl Queue.push q) ∧ (nodes.foldl Queue.push q).Perm (q ++ nodes) := by
  induction nodes generalizing q with
  | nil => simpa using hq
  | cons n nodes ih =>
    obtain ⟨hh, hp⟩ := push_spec hq n
    obtain ⟨hh', hp'⟩ := ih hh
    exact ⟨hh', hp'.trans (by simpa using hp.append_right nodes)⟩

/-! ### Runs -/

/-- An operation on the queue, as `TestQueue` drives it. -/
inductive QueueOp (α : Type)
  | push (node : Qnode α)
  | pop

/-- One operation: the queue after it, and the node a pop takes (none if it answers
`false`). -/
def QueueOp.step (q : List (Qnode α)) : QueueOp α → List (Qnode α) × List (Qnode α)
  | .push node => (Queue.push q node, [])
  | .pop => ((Queue.pop q).2.2, if (Queue.pop q).2.1 then [(Queue.pop q).1] else [])

/-- A run of operations from `q`: the queue it leaves and the nodes its pops take. -/
def runQueue (q : List (Qnode α)) : List (QueueOp α) → List (Qnode α) × List (Qnode α)
  | [] => (q, [])
  | op :: ops => ((runQueue (op.step q).1 ops).1, (op.step q).2 ++ (runQueue (op.step q).1 ops).2)

/-- The nodes a sequence of operations pushes. -/
def pushed : List (QueueOp α) → List (Qnode α)
  | [] => []
  | .push node :: ops => node :: pushed ops
  | .pop :: ops => pushed ops

/-- One operation keeps a heap, and moves every node it pushes into the queue and every
node it takes out of it. -/
theorem QueueOp.step_spec {q : List (Qnode α)} (hq : IsHeap q) (op : QueueOp α) :
    IsHeap (op.step q).1 ∧ (q ++ pushed [op]).Perm ((op.step q).1 ++ (op.step q).2) := by
  cases op with
  | push node =>
    obtain ⟨hh, hp⟩ := push_spec hq node
    exact ⟨hh, by simpa [QueueOp.step, pushed] using hp.symm⟩
  | pop =>
    obtain ⟨ps, hh⟩ := pop_spec hq
    refine ⟨hh, ?_⟩
    rcases q with _ | ⟨a, tl⟩
    · simp [QueueOp.step, pushed, Queue.pop]
    · have htrue := mt ps.empty.1 (List.cons_ne_nil a tl)
      simp only [Bool.not_eq_false] at htrue
      simpa [QueueOp.step, pushed, htrue] using
        (ps.perm (List.cons_ne_nil a tl)).trans (List.perm_append_singleton _ _).symm

/-- A run keeps a heap, and the queue and the nodes taken are the nodes pushed. -/
theorem runQueue_spec {q : List (Qnode α)} (hq : IsHeap q) (ops : List (QueueOp α)) :
    IsHeap (runQueue q ops).1 ∧
      (q ++ pushed ops).Perm ((runQueue q ops).1 ++ (runQueue q ops).2) := by
  induction ops generalizing q with
  | nil => exact ⟨hq, by simp [runQueue, pushed]⟩
  | cons op ops ih =>
    obtain ⟨hh, hp⟩ := QueueOp.step_spec hq op
    obtain ⟨hh', hp'⟩ := ih hh
    refine ⟨hh', ?_⟩
    have e : pushed (op :: ops) = pushed [op] ++ pushed ops := by cases op <;> rfl
    rw [List.perm_iff_count] at hp hp' ⊢
    intro x
    have h1 := hp x
    have h2 := hp' x
    simp only [runQueue, e, List.count_append] at h1 h2 ⊢
    omega

/-- **The queue along every run.** From the empty queue, after any sequence of operations,
the queue is a heap; it holds the pushed nodes but the ones the pops took; a push keeps a
heap and adds exactly its node; and a pop answers as `PopSpec` says. -/
theorem queue_run (ops : List (QueueOp α)) :
    IsHeap (runQueue [] ops).1 ∧ ((runQueue [] ops).1 ++ (runQueue [] ops).2).Perm (pushed ops) ∧
      (∀ node, IsHeap (Queue.push (runQueue [] ops).1 node) ∧
        (Queue.push (runQueue [] ops).1 node).Perm ((runQueue [] ops).1 ++ [node])) ∧
      PopSpec (runQueue [] ops).1 := by
  obtain ⟨hh, hp⟩ := runQueue_spec isHeap_nil ops
  exact ⟨hh, hp.symm, push_spec hh, (pop_spec hh).1⟩

/-! ### Draining -/

/-- A `pop` that succeeds was made on a non-empty queue. -/
theorem Queue.pos_of_pop {q : List (Qnode α)} (h : (Queue.pop q).2.1 = true) : 0 < q.length := by
  unfold Queue.pop at h
  split_ifs at h with h0
  exact Nat.pos_of_ne_zero h0

/-- The loop of `TestQueue`: pop until `pop` answers `false`; the nodes in the order the pops
take them. -/
def drain (q : List (Qnode α)) : List (Qnode α) :=
  if _h : (Queue.pop q).2.1 = true then (Queue.pop q).1 :: drain (Queue.pop q).2.2 else []
termination_by q.length
decreasing_by rw [Queue.length_pop]; have := Queue.pos_of_pop _h; omega

/-- Draining a heap takes all of its nodes, each comparing at most equal to every node taken
after it. -/
theorem drain_spec {q : List (Qnode α)} (hq : IsHeap q) :
    (drain q).Pairwise Qnode.Le ∧ (drain q).Perm q := by
  induction q using drain.induct with
  | case1 q h ih =>
    obtain ⟨ps, hh⟩ := pop_spec hq
    obtain ⟨hs, hp⟩ := ih hh
    rw [drain, dif_pos h]
    exact ⟨List.pairwise_cons.2 ⟨fun y hy => ps.least y (hp.subset hy), hs⟩,
      (hp.cons _).trans (ps.perm (List.ne_nil_of_length_pos (Queue.pos_of_pop h))).symm⟩
  | case2 q h =>
    rw [drain, dif_neg h, (pop_spec hq).1.empty.1 (by simpa using h)]
    exact ⟨List.Pairwise.nil, List.Perm.refl _⟩

/-- **The queue hands out its nodes in order.** After any run of operations from the empty
queue, popping until `pop` answers `false`, as `TestQueue` does, takes the nodes in the order
of `cmp`: `lastNode.cmp(node) > 0` never happens. Every pushed node is taken exactly once,
by a pop of the run or by the drain. -/
theorem drain_run (ops : List (QueueOp α)) :
    (drain (runQueue [] ops).1).Pairwise Qnode.Le ∧
      ((runQueue [] ops).2 ++ drain (runQueue [] ops).1).Perm (pushed ops) := by
  obtain ⟨hh, hp⟩ := runQueue_spec isHeap_nil ops
  obtain ⟨hs, hp'⟩ := drain_spec hh
  exact ⟨hs, ((hp'.append_left _).trans List.perm_append_comm).trans (by simpa using hp.symm)⟩

end SegmentIndex
