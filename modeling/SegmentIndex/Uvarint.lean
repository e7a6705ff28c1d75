import SegmentIndex.Varint

/-!
# `readUvarint` against `binary.Uvarint`

`readUvarint` is documented as a fast alternative to `binary.Uvarint` of Go's standard
library. Both read seven-bit groups, least significant first, until a byte below `0x80`; they
differ in what they call an overflow. `Uvarint` reports one (a negative byte count) at an
eleventh byte, and at a tenth byte above `1`, whose group does not fit in 64 bits.
`readUvarint` answers the sentinel `-1` only once its shift reaches `70`, at a tenth
continuation byte: a tenth byte from `2` to `0x7f` ends the value, its high bits shifted out
of the `uint64`.

`readUvarintLoop` reads at a cursor of the whole blob; `readUvarintList` is the same decoder as
a recursion over the bytes from the cursor on (`readUvarint_eq_list`), which the comparison
and the evaluation at a given blob go through.

## Main results

* `readUvarint_eq_list`: `readUvarint` reads the bytes from its cursor on, one by one.
* `readUvarint_of_uvarint`: where `Uvarint` decodes a value from `n > 0` bytes, `readUvarint`
  decodes the same value and moves `n` bytes on.
* `readUvarint_continuation`: ten continuation bytes give the sentinel `-1`.
* `readUvarint_tenth_byte`: a tenth byte `2`, an overflow for `Uvarint`, is read by
  `readUvarint` as the end of the value `2 ^ 64 mod 2 ^ 64 = 0`.
-/

namespace SegmentIndex

/-! ### Go's decoder -/

/-- Modelled from the spec: the loop of Go's `encoding/binary.Uvarint` over `buf`, at byte
index `i` and shift `s` with the value `x` gathered. An eleventh byte, and a tenth byte above
`1`, are an overflow, `(0, -(i + 1))`; a byte below `0x80` ends the value, `i + 1` bytes read;
a buffer that ends inside the value gives `(0, 0)`. -/
def uvarintLoop (x s i : ℕ) : List UInt8 → ℕ × ℤ
  | [] => (0, 0)
  | b :: buf =>
    if i = 10 then (0, -((i + 1 : ℕ) : ℤ))
    else if b.toNat < 0x80 then
      if i = 9 ∧ 1 < b.toNat then (0, -((i + 1 : ℕ) : ℤ))
      else (x ||| (b.toNat <<< s) % 2 ^ 64, ((i + 1 : ℕ) : ℤ))
    else uvarintLoop (x ||| ((b.toNat &&& 0x7f) <<< s) % 2 ^ 64) (s + 7) (i + 1) buf

/-- Modelled from the spec: Go's `binary.Uvarint(buf)`, the value and the number of bytes
read, `0` when `buf` ends inside the value and negative on an overflow. -/
def uvarint (buf : List UInt8) : ℕ × ℤ := uvarintLoop 0 0 0 buf

/-- Past ten bytes `Uvarint` decodes nothing. -/
theorem uvarintLoop_ten_nonpos (x s : ℕ) (buf : List UInt8) : (uvarintLoop x s 10 buf).2 ≤ 0 := by
  cases buf <;> simp [uvarintLoop]

/-! ### The decoder over the bytes from its cursor -/

/-- `readUvarintLoop` over the bytes `bs` from the cursor `addr` on. -/
def readUvarintLoopList (addr : ℤ) (item s : ℕ) : List UInt8 → Except Fault (ℕ × ℤ)
  | [] => .error .outOfRange
  | b :: bs =>
    if b.toNat < 0x80 then .ok (item ||| (b.toNat <<< s) % 2 ^ 64, addr + 1)
    else if s + 7 = 70 then .ok (0, -1)
    else readUvarintLoopList (addr + 1) (item ||| ((b.toNat &&& 0x7f) <<< s) % 2 ^ 64) (s + 7) bs

/-- `readUvarint` over the bytes from the cursor `addr` on. -/
def readUvarintList (addr : ℤ) : List UInt8 → Except Fault (ℕ × ℤ)
  | [] => .error .outOfRange
  | b :: bs =>
    if b.toNat < 0x80 then .ok (b.toNat, addr + 1)
    else readUvarintLoopList (addr + 1) (b.toNat &&& 0x7f) 7 bs

/-- Past the end of the blob a byte read faults. -/
theorem byteAt_of_drop_nil {data : List UInt8} {a : ℕ} (h : data.drop a = []) :
    byteAt data a = .error .outOfRange := by
  have : data.length ≤ a := List.drop_eq_nil_iff.1 h
  simp [byteAt, List.getElem?_eq_none this]

/-- The decoding loop reads the blob only through the bytes from its cursor on. -/
theorem readUvarintLoop_eq_list (data : List UInt8) :
    ∀ (bs : List UInt8) (a item s : ℕ), data.drop a = bs →
      readUvarintLoop data a item s = readUvarintLoopList a item s bs
  | [], a, item, s, h => by
    rw [readUvarintLoop]
    split <;> rename_i hv <;> rw [byteAt_of_drop_nil h] at hv <;> cases hv
    rfl
  | b :: bs, a, item, s, h => by
    have hb := byteAt_of_drop h
    have hd : data.drop (a + 1) = bs := by rw [← List.drop_drop, h]; rfl
    rw [readUvarintLoop]
    split
    · simp_all
    · rename_i v hv
      rw [hb] at hv
      cases hv
      simp only [readUvarintLoopList]
      split_ifs
      · rfl
      · rfl
      · exact_mod_cast readUvarintLoop_eq_list data bs (a + 1) _ _ hd

/-- **`readUvarint` reads the bytes from its cursor on**, one by one. -/
theorem readUvarint_eq_list (data : List UInt8) (a : ℕ) :
    readUvarint data a = readUvarintList a (data.drop a) := by
  rcases h : data.drop a with _ | ⟨b, bs⟩
  · simp [readUvarint, readUvarintList, byteAt_of_drop_nil h]
  · have hd : data.drop (a + 1) = bs := by rw [← List.drop_drop, h]; rfl
    simp only [readUvarint, byteAt_of_drop h, readUvarintList]
    split_ifs
    · rfl
    · exact_mod_cast readUvarintLoop_eq_list data bs (a + 1) _ _ hd

/-! ### Agreement and overflow -/

/-- The loop of `readUvarint` at byte `i` of the value, shift `7 * i`, on bytes that `Uvarint`
decodes: the same value, and the cursor past the same bytes. -/
theorem readUvarintLoopList_of_uvarintLoop (a : ℤ) :
    ∀ (bs : List UInt8) (x i v : ℕ) (k : ℤ), i ≤ 9 → uvarintLoop x (7 * i) i bs = (v, k) → 0 < k →
      readUvarintLoopList (a + i) x (7 * i) bs = .ok (v, a + k)
  | [], _, _, _, _, _, h, hk => by simp only [uvarintLoop, Prod.mk.injEq] at h; omega
  | b :: bs, x, i, v, k, hi, h, hk => by
    simp only [uvarintLoop, if_neg (show i ≠ 10 by omega)] at h
    simp only [readUvarintLoopList]
    by_cases hb : b.toNat < 0x80
    · rw [if_pos hb] at h ⊢
      split_ifs at h
      · simp only [Prod.mk.injEq] at h; omega
      · obtain ⟨rfl, rfl⟩ := Prod.mk.inj h
        push_cast; ring_nf
    · rw [if_neg hb] at h ⊢
      by_cases h9 : i = 9
      · subst h9
        have := uvarintLoop_ten_nonpos (x ||| ((b.toNat &&& 0x7f) <<< (7 * 9)) % 2 ^ 64)
          (7 * 9 + 7) bs
        rw [h] at this; simp only at this; omega
      · rw [if_neg (show 7 * i + 7 ≠ 70 by omega)]
        have := readUvarintLoopList_of_uvarintLoop a bs _ (i + 1) v k (by omega) h hk
        push_cast at this
        rwa [← add_assoc] at this

/-- **Where `Uvarint` decodes, `readUvarint` agrees**: on every blob and cursor, a value that
`binary.Uvarint` decodes from the `n > 0` bytes at the cursor is the value `readUvarint`
returns, with the cursor moved `n` bytes on. -/
theorem readUvarint_of_uvarint (data : List UInt8) (a : ℕ) {v : ℕ} {k : ℤ}
    (h : uvarint (data.drop a) = (v, k)) (hk : 0 < k) : readUvarint data a = .ok (v, a + k) := by
  rw [readUvarint_eq_list]
  rcases hd : data.drop a with _ | ⟨b, bs⟩ <;> rw [hd] at h
  · simp only [uvarint, uvarintLoop, Prod.mk.injEq] at h; omega
  simp only [uvarint, uvarintLoop, if_neg (show (0 : ℕ) ≠ 10 by omega), Nat.shiftLeft_zero,
    Nat.zero_or] at h
  simp only [readUvarintList]
  have hb8 : b.toNat < 2 ^ 64 := lt_trans b.val.isLt (by decide)
  by_cases hb : b.toNat < 0x80
  · rw [if_pos hb, if_neg (by omega), Nat.mod_eq_of_lt hb8] at h
    obtain ⟨rfl, rfl⟩ := Prod.mk.inj h
    rw [if_pos hb]; rfl
  · rw [if_neg hb] at h ⊢
    rw [Nat.mod_eq_of_lt (Nat.and_le_right.trans_lt (by decide : (0x7f : ℕ) < 2 ^ 64))] at h
    exact_mod_cast readUvarintLoopList_of_uvarintLoop a bs _ 1 v k (by omega) h hk

/-- The theorem at the two bytes of `150`. -/
theorem readUvarint_of_uvarint_two :
    uvarint (([0x96, 0x01] : List UInt8).drop 0) = (150, 2) ∧ (0 : ℤ) < 2 ∧
      readUvarint [0x96, 0x01] (0 : ℕ) = .ok (150, (0 : ℕ) + 2) :=
  ⟨by decide, by decide, readUvarint_of_uvarint _ 0 (by decide) (by decide)⟩

/-- The loop on continuation bytes that take the shift to `70` answers the sentinel. -/
theorem readUvarintLoopList_continuation (a : ℤ) : ∀ (bs rest : List UInt8) (item s : ℕ),
    bs ≠ [] → (∀ b ∈ bs, 0x80 ≤ b.toNat) → s + 7 * bs.length = 70 →
    readUvarintLoopList a item s (bs ++ rest) = .ok (0, -1)
  | [], _, _, _, h, _, _ => absurd rfl h
  | b :: bs, rest, item, s, _, hb, hs => by
    have h0 := hb b (List.mem_cons_self b bs)
    simp only [List.cons_append, readUvarintLoopList, if_neg (show ¬ b.toNat < 0x80 by omega)]
    rcases bs with _ | ⟨c, cs⟩
    · simp only [List.length_singleton] at hs; rw [if_pos (by omega)]
    · rw [if_neg (by simp only [List.length_cons] at hs; omega)]
      exact readUvarintLoopList_continuation _ (c :: cs) rest _ _ (List.cons_ne_nil c cs)
        (fun x hx => hb x (List.mem_cons_of_mem b hx))
        (by simp only [List.length_cons] at hs ⊢; omega)

/-- **Ten continuation bytes are the overflow** `readUvarint` reports: the value `0` and the
sentinel offset `-1`. -/
theorem readUvarint_continuation {data bs rest : List UInt8} {a : ℕ}
    (h : data.drop a = bs ++ rest) (hl : bs.length = 10) (hb : ∀ b ∈ bs, 0x80 ≤ b.toNat) :
    readUvarint data a = .ok (0, -1) := by
  rw [readUvarint_eq_list, h]
  rcases bs with _ | ⟨b, bs⟩
  · simp at hl
  have h0 := hb b (List.mem_cons_self b bs)
  simp only [List.cons_append, readUvarintList, if_neg (show ¬ b.toNat < 0x80 by omega)]
  simp only [List.length_cons] at hl
  exact readUvarintLoopList_continuation _ bs rest _ 7 (List.ne_nil_of_length_pos (by omega))
    (fun x hx => hb x (List.mem_cons_of_mem b hx)) (by omega)

/-- The theorem at ten bytes `0x80`. -/
theorem readUvarint_continuation_ten :
    let data : List UInt8 := List.replicate 10 0x80
    data.drop 0 = data ++ [] ∧ data.length = 10 ∧ (∀ b ∈ data, 0x80 ≤ b.toNat) ∧
      readUvarint data (0 : ℕ) = .ok (0, -1) := by
  intro data
  have hd : data.drop 0 = data ++ [] := by simp
  have hb : ∀ b ∈ data, 0x80 ≤ b.toNat := by decide
  exact ⟨hd, rfl, hb, readUvarint_continuation hd rfl hb⟩

/-- Nine continuation bytes of group `0` and a tenth byte `2`: the value `2 ^ 64`, which
`binary.Uvarint` reports as an overflow, `(0, -10)`. `readUvarint` shifts the `2` out of the
`uint64` and returns the value `0` and the offset `10`, past the bytes, not the sentinel
`-1`. -/
theorem readUvarint_tenth_byte :
    uvarint [0x80, 0x80, 0x80, 0x80, 0x80, 0x80, 0x80, 0x80, 0x80, 0x02] = (0, -10) ∧
      readUvarint [0x80, 0x80, 0x80, 0x80, 0x80, 0x80, 0x80, 0x80, 0x80, 0x02] 0 = .ok (0, 10) :=
  ⟨by decide, (readUvarint_eq_list _ 0).trans rfl⟩

end SegmentIndex
