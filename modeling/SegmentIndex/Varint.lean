import Mathlib.Data.Nat.Bitwise
import Mathlib.Tactic.Ring

/-!
# The Varint Codec

`appendUvarint` writes an unsigned integer in seven-bit groups, least significant first, with
the continuation bit `0x80` on every byte but the last; values below `0x80` take the inline
one-byte path and the others go through `binary.PutUvarint` of Go's standard library.
`readUvarint` is the package's inlined decoder: it ORs the groups in at shifts `0, 7, …, 63`
and answers the sentinel offset `-1` once the shift reaches `70`.

Blobs are byte lists and offsets are Go `int`s, so `ℤ`: the sentinel `-1` is an offset like any
other, and a later read at it is Go's index panic. Values are `uint64`s, kept as natural
numbers; the one place where the decoder can exceed 64 bits, the shifted last group, is
reduced modulo `2 ^ 64` as Go's shift does.

## Main results

* `putUvarint_length_le`: values below `2 ^ 64` take at most ten bytes.
* `appendUvarint_wellFormed`: the bytes written are continuation bytes and one last byte, zero
  only for `0`.
* `readUvarint_appendUvarint`: reading at the end of `dst` what `appendUvarint dst x` wrote
  gives back `x` and the offset just past it, whatever follows.
* `appendUvarint_eq_putUvarint`: the inline one-byte path writes what `PutUvarint` writes.
-/

namespace SegmentIndex

/-- How a run of the model stops without a result: `outOfRange` is Go's index (or slice)
out-of-range panic, `outOfFuel` a recursion or loop that ran past the fuel of the model, the
stand-in for a Go run that does not come back. -/
inductive Fault
  | outOfRange
  | outOfFuel
  deriving DecidableEq, Repr

/-- Binding a success passes its value on. -/
@[simp] theorem except_ok_bind {ε β γ : Type} (a : β) (f : β → Except ε γ) :
    (Except.ok a >>= f) = f a := rfl

/-- `pure` in `Except` is a success. -/
@[simp] theorem except_pure_eq {ε β : Type} (a : β) : (pure a : Except ε β) = .ok a := rfl

/-- Binding a fault keeps the fault. -/
@[simp] theorem except_error_bind {ε β γ : Type} (e : ε) (f : β → Except ε γ) :
    (Except.error e >>= f) = Except.error e := rfl

/-- `uint64(data[addr])`: the byte at `addr`, or Go's index panic. -/
def byteAt (data : List UInt8) (addr : ℤ) : Except Fault ℕ :=
  if 0 ≤ addr then
    match data[addr.toNat]? with
    | some b => .ok b.toNat
    | none => .error .outOfRange
  else .error .outOfRange

/-- A byte read that succeeds was in range. -/
theorem byteAt_ok {data : List UInt8} {addr : ℤ} {b : ℕ} (h : byteAt data addr = .ok b) :
    0 ≤ addr ∧ addr < data.length := by
  unfold byteAt at h
  split_ifs at h with h0
  split at h
  · rename_i hb
    exact ⟨h0, by have := (List.getElem?_eq_some_iff.1 hb).1; omega⟩
  · cases h

/-- Reading a byte at a position inside a list given as `pre ++ b :: rest`. -/
@[simp] theorem byteAt_append_cons (pre rest : List UInt8) (b : UInt8) :
    byteAt (pre ++ b :: rest) pre.length = .ok b.toNat := by
  simp [byteAt, List.getElem_append_right, show (0 : ℤ) ≤ pre.length by omega]

/-- Go's `binary.PutUvarint`, the encoding of §4.1: while `x ≥ 0x80` it emits
`byte(x) | 0x80` and shifts `x` right by seven; the last byte is `byte(x)`. -/
def putUvarint (x : ℕ) : List UInt8 :=
  if x < 0x80 then [UInt8.ofNat x]
  else (UInt8.ofNat x ||| 0x80) :: putUvarint (x >>> 7)
termination_by x
decreasing_by rw [Nat.shiftRight_eq_div_pow]; omega

/-- `appendUvarint`: values below `0x80` are appended inline as one byte, the others through
`PutUvarint`. -/
def appendUvarint (dst : List UInt8) (x : ℕ) : List UInt8 :=
  if x < 0x80 then dst ++ [UInt8.ofNat x]
  else dst ++ putUvarint x

/-- The loop of `readUvarint`, at shift `s` with the groups read so far in `item`: a byte
below `0x80` ends the value, any other adds its seven low bits and moves on, and the shift
reaching `70` answers the sentinel `(0, -1)`. -/
def readUvarintLoop (data : List UInt8) (addr : ℤ) (item s : ℕ) : Except Fault (ℕ × ℤ) :=
  match h : byteAt data addr with
  | .error e => .error e
  | .ok b =>
    if b < 0x80 then .ok (item ||| (b <<< s) % 2 ^ 64, addr + 1)
    else if s + 7 = 70 then .ok (0, -1)
    else readUvarintLoop data (addr + 1) (item ||| ((b &&& 0x7f) <<< s) % 2 ^ 64) (s + 7)
termination_by (data.length - addr).toNat
decreasing_by have := byteAt_ok h; omega

/-- `readUvarint`, the inlined decoder: the value at `addr` and the offset past it. -/
def readUvarint (data : List UInt8) (addr : ℤ) : Except Fault (ℕ × ℤ) :=
  match byteAt data addr with
  | .error e => .error e
  | .ok item =>
    if item < 0x80 then .ok (item, addr + 1)
    else readUvarintLoop data (addr + 1) (item &&& 0x7f) 7

/-! ### The bytes of an encoding -/

/-- A byte made from a number keeps the number modulo `256`. -/
theorem UInt8.toNat_ofNat_eq (x : ℕ) : (UInt8.ofNat x).toNat = x % 256 := by
  simp [UInt8.ofNat, UInt8.toNat, BitVec.toNat_ofNat]

set_option maxRecDepth 4000 in
/-- Setting the continuation bit of a byte adds `128` to its low seven bits. -/
theorem lor_128_of_lt : ∀ n, n < 256 → n ||| 128 = n % 128 + 128 := by decide

/-- A continuation byte carries the low seven bits of `x` with the high bit set. -/
theorem UInt8.toNat_ofNat_or_128 (x : ℕ) : (UInt8.ofNat x ||| 0x80).toNat = x % 128 + 128 := by
  have h := lor_128_of_lt (x % 256) (Nat.mod_lt _ (by norm_num))
  have hx : x % 256 % 128 = x % 128 := Nat.mod_mod_of_dvd x (by norm_num)
  simp only [UInt8.toNat, BitVec.toNat_or] at h ⊢
  simpa [UInt8.ofNat, BitVec.toNat_ofNat, hx] using h

/-- A value below `0x80` is written as one byte. -/
theorem putUvarint_of_lt {x : ℕ} (h : x < 0x80) : putUvarint x = [UInt8.ofNat x] := by
  rw [putUvarint, if_pos h]

/-- A value of `0x80` or more is written as its low seven bits with the continuation bit set,
then the rest of it. -/
theorem putUvarint_of_le {x : ℕ} (h : 0x80 ≤ x) :
    putUvarint x = (UInt8.ofNat x ||| 0x80) :: putUvarint (x / 128) := by
  rw [putUvarint, if_neg (by omega), Nat.shiftRight_eq_div_pow]

/-- The inline one-byte path of `appendUvarint` writes what `PutUvarint` writes. -/
theorem appendUvarint_eq_putUvarint (dst : List UInt8) (x : ℕ) :
    appendUvarint dst x = dst ++ putUvarint x := by
  unfold appendUvarint
  split_ifs with h
  · rw [putUvarint_of_lt h]
  · rfl

/-- Every value takes at least one byte. -/
theorem putUvarint_length_pos (x : ℕ) : 0 < (putUvarint x).length := by
  rw [putUvarint]; split_ifs <;> simp

/-- A value below `2 ^ (7 * (k + 1))` takes at most `k + 1` bytes. -/
theorem putUvarint_length_le_of_lt (k : ℕ) : ∀ x, x < 2 ^ (7 * (k + 1)) →
    (putUvarint x).length ≤ k + 1 := by
  induction k with
  | zero => intro x hx; rw [putUvarint_of_lt (by simpa using hx)]; simp
  | succ k ih =>
    intro x hx
    by_cases h : x < 0x80
    · rw [putUvarint_of_lt h]; simp
    · rw [putUvarint_of_le (by omega), List.length_cons]
      have : x / 128 < 2 ^ (7 * (k + 1)) := by
        rw [Nat.div_lt_iff_lt_mul (by norm_num)]
        calc x < 2 ^ (7 * (k + 1 + 1)) := hx
          _ = 2 ^ (7 * (k + 1)) * 128 := by rw [mul_add, pow_add]; norm_num
      have := ih _ this
      omega

/-- Values of a `uint64` take at most ten bytes. -/
theorem putUvarint_length_le {x : ℕ} (hx : x < 2 ^ 64) : (putUvarint x).length ≤ 10 :=
  putUvarint_length_le_of_lt 9 x (hx.trans_le (Nat.pow_le_pow_right (by omega) (by omega)))

/-- The bytes of `PutUvarint`: continuation bytes with the bit `0x80` set, then one byte below
`0x80` that is zero only for `x = 0`. -/
theorem putUvarint_bytes (x : ℕ) :
    ∃ pre last, putUvarint x = pre ++ [last] ∧ (∀ b ∈ pre, 0x80 ≤ b.toNat) ∧
      last.toNat < 0x80 ∧ (last.toNat = 0 ↔ x = 0) := by
  induction x using putUvarint.induct with
  | case1 x h =>
    have hb : (UInt8.ofNat x).toNat = x := by rw [UInt8.toNat_ofNat_eq, Nat.mod_eq_of_lt (by omega)]
    exact ⟨[], _, putUvarint_of_lt h, by simp, by rw [hb]; exact h, by rw [hb]⟩
  | case2 x h ih =>
    obtain ⟨pre, last, he, hpre, hlast, hzero⟩ := ih
    rw [Nat.shiftRight_eq_div_pow] at he hzero
    refine ⟨(UInt8.ofNat x ||| 0x80) :: pre, last, by rw [putUvarint_of_le (by omega), he]; rfl,
      ?_, hlast, by rw [hzero]; omega⟩
    intro b hb
    rcases List.mem_cons.1 hb with rfl | hb
    · rw [UInt8.toNat_ofNat_or_128]; omega
    · exact hpre b hb

/-- **`appendUvarint` writes a well-formed uvarint.** After `dst` come continuation bytes,
each with the bit `0x80` set, and one last byte below `0x80`, which is zero only when `x` is:
the canonical encoding, with no trailing zero group. -/
theorem appendUvarint_wellFormed (dst : List UInt8) (x : ℕ) :
    ∃ pre last, appendUvarint dst x = dst ++ pre ++ [last] ∧ (∀ b ∈ pre, 0x80 ≤ b.toNat) ∧
      last.toNat < 0x80 ∧ (last.toNat = 0 ↔ x = 0) := by
  obtain ⟨pre, last, he, h⟩ := putUvarint_bytes x
  exact ⟨pre, last, by rw [appendUvarint_eq_putUvarint, he, List.append_assoc], h⟩

/-! ### Decoding what was encoded -/

/-- The low `s` bits of `x` and the group `g` placed above them combine by OR as by sum. -/
theorem mod_lor_shift {x s g : ℕ} (hg : g * 2 ^ s < 2 ^ 64) :
    x % 2 ^ s ||| (g <<< s) % 2 ^ 64 = 2 ^ s * g + x % 2 ^ s := by
  rw [Nat.shiftLeft_eq, Nat.mod_eq_of_lt hg, Nat.lor_comm, mul_comm,
    Nat.mul_add_lt_is_or (Nat.mod_lt _ (Nat.two_pow_pos s))]

/-- **The loop invariant of `readUvarint`.** At shift `s`, with the low `s` bits of `x`
gathered, the loop reads the encoding of the remaining groups `x / 2 ^ s` and ends with `x`
just past them. -/
theorem readUvarintLoop_putUvarint {x : ℕ} (hx : x < 2 ^ 64) (pre rest : List UInt8) :
    ∀ s, readUvarintLoop (pre ++ putUvarint (x / 2 ^ s) ++ rest) pre.length (x % 2 ^ s) s =
      .ok (x, pre.length + (putUvarint (x / 2 ^ s)).length) := by
  intro s
  obtain ⟨n, hn⟩ : ∃ n, x / 2 ^ s = n := ⟨_, rfl⟩
  induction n using Nat.strong_induction_on generalizing s pre with
  | _ n ih =>
  have hdm := Nat.div_add_mod x (2 ^ s)
  rw [hn] at hdm ⊢
  by_cases hn128 : n < 0x80
  · rw [putUvarint_of_lt hn128, List.append_assoc, List.singleton_append, readUvarintLoop,
      byteAt_append_cons]
    have hb : (UInt8.ofNat n).toNat = n := by rw [UInt8.toNat_ofNat_eq]; omega
    simp only [hb, if_pos hn128, List.length_singleton]
    rw [mod_lor_shift (by rw [mul_comm]; omega), hdm, Nat.cast_one]
  · obtain ⟨hgt, hs⟩ : 2 ^ (s + 7) ≤ x ∧ s + 7 < 64 := by
      have h1 : 2 ^ (s + 7) ≤ x := by
        have := Nat.mul_le_mul_left (2 ^ s) (show 128 ≤ n by omega)
        rw [pow_add]; omega
      exact ⟨h1, (Nat.pow_lt_pow_iff_right (by norm_num)).1 (lt_of_le_of_lt h1 hx)⟩
    have hnext : x / 2 ^ (s + 7) = n / 128 := by rw [pow_add, ← Nat.div_div_eq_div_mul, hn]; rfl
    have hmod : x % 2 ^ s ||| (((n % 128 + 128) &&& 0x7f) <<< s) % 2 ^ 64 =
        x % 2 ^ (s + 7) := by
      have hlow : (n % 128 + 128) &&& 0x7f = n % 128 := by
        rw [show (0x7f : ℕ) = 2 ^ 7 - 1 from rfl, Nat.and_pow_two_sub_one_eq_mod]; omega
      have := Nat.mul_le_mul_left (2 ^ s) (Nat.mod_le n 128)
      rw [hlow, mod_lor_shift (by rw [mul_comm]; omega), pow_add, Nat.mod_mul, hn,
        show (2 : ℕ) ^ 7 = 128 from rfl]
      omega
    rw [putUvarint_of_le (by omega), List.append_assoc, List.cons_append, readUvarintLoop,
      byteAt_append_cons]
    simp only [UInt8.toNat_ofNat_or_128, show ¬(n % 128 + 128 < 0x80) by omega, if_false,
      show s + 7 ≠ 70 by omega, hmod]
    have := ih (n / 128) (by omega) (pre ++ [UInt8.ofNat n ||| 0x80]) (s + 7) hnext
    simp only [List.append_assoc, List.singleton_append, List.cons_append, List.nil_append,
      List.length_append, List.length_singleton, hnext] at this
    rw [show (pre.length : ℤ) + 1 = ((pre.length + 1 : ℕ) : ℤ) by push_cast; rfl, this,
      List.length_cons]
    congr 2; omega

/-- **Round trip.** What `appendUvarint dst x` writes after `dst` reads back, at offset
`dst.length`, as `x` and the offset just past the encoding, whatever bytes follow. -/
theorem readUvarint_appendUvarint {x : ℕ} (hx : x < 2 ^ 64) (dst rest : List UInt8) :
    readUvarint (appendUvarint dst x ++ rest) dst.length =
      .ok (x, dst.length + (putUvarint x).length) := by
  rw [appendUvarint_eq_putUvarint]
  by_cases h : x < 0x80
  · rw [putUvarint_of_lt h, List.append_assoc, List.singleton_append, readUvarint,
      byteAt_append_cons]
    have hb : (UInt8.ofNat x).toNat = x := by rw [UInt8.toNat_ofNat_eq]; omega
    simp [hb, h]
  · have hloop := readUvarintLoop_putUvarint hx (dst ++ [UInt8.ofNat x ||| 0x80]) rest 7
    simp only [List.append_assoc, List.singleton_append, List.cons_append, List.nil_append,
      List.length_append, List.length_singleton, show (2 : ℕ) ^ 7 = 128 from rfl] at hloop
    rw [putUvarint_of_le (by omega), List.append_assoc, List.cons_append, readUvarint,
      byteAt_append_cons]
    simp only [UInt8.toNat_ofNat_or_128, show ¬(x % 128 + 128 < 0x80) by omega, if_false]
    rw [show (x % 128 + 128) &&& 0x7f = x % 128 by
        rw [show (0x7f : ℕ) = 2 ^ 7 - 1 from rfl, Nat.and_pow_two_sub_one_eq_mod]; omega,
      show (dst.length : ℤ) + 1 = ((dst.length + 1 : ℕ) : ℤ) by push_cast; rfl, hloop,
      List.length_cons]
    congr 2; omega

/-! ### Reading at a cursor -/

/-- What lies past the cursor after reading `l` from it. -/
theorem drop_add_of_drop {data l rest : List UInt8} {a : ℕ} (h : data.drop a = l ++ rest) :
    data.drop (a + l.length) = rest := by
  rw [← List.drop_drop, h, List.drop_left]

/-- The byte at `a` is the head of the bytes from `a` on. -/
theorem byteAt_of_drop {data rest : List UInt8} {a : ℕ} {b : UInt8}
    (h : data.drop a = b :: rest) : byteAt data a = .ok b.toNat := by
  have hlen : a < data.length := by
    by_contra hc; rw [List.drop_eq_nil_of_le (by omega)] at h; cases h
  have : data = data.take a ++ b :: rest := by rw [← h, List.take_append_drop]
  rw [this]
  simpa [List.length_take, min_eq_left hlen.le] using byteAt_append_cons (data.take a) rest b

/-- Reading a `uint64` at a cursor where its encoding starts. -/
theorem readUvarint_of_drop {data rest : List UInt8} {a x : ℕ} (hx : x < 2 ^ 64)
    (h : data.drop a = putUvarint x ++ rest) :
    readUvarint data a = .ok (x, ((a + (putUvarint x).length : ℕ) : ℤ)) := by
  have hlen : a ≤ data.length := by
    by_contra hc
    rw [List.drop_eq_nil_of_le (by omega)] at h
    have := putUvarint_length_pos x
    have := congrArg List.length h; simp at this; omega
  have hd : data = appendUvarint (data.take a) x ++ rest := by
    rw [appendUvarint_eq_putUvarint, List.append_assoc, ← h, List.take_append_drop]
  have := readUvarint_appendUvarint hx (data.take a) rest
  rw [← hd, List.length_take, min_eq_left hlen] at this
  rw [this]; push_cast; rfl

/-- Go's `int` sum of an offset and a size, while it stays below `2 ^ 63`. -/
theorem bmod_of_lt {x : ℤ} (h0 : 0 ≤ x) (h : x < 2 ^ 63) : x.bmod (2 ^ 64) = x := by
  rw [Int.bmod_pos _ _ (by rw [Int.emod_eq_of_lt h0 (by omega)]; omega),
    Int.emod_eq_of_lt h0 (by omega)]

/-- **The varint law.** For every `uint64` `x`, `appendUvarint dst x` is `dst` followed by the
`k` bytes of `PutUvarint` (the one-byte path writes the same byte), `1 ≤ k ≤ 10`, and
`readUvarint` reads `x` back at offset `dst.length` and moves to `dst.length + k`, whatever
bytes follow. -/
theorem appendUvarint_readUvarint_uint64 (x : UInt64) (dst rest : List UInt8) :
    appendUvarint dst x.toNat = dst ++ putUvarint x.toNat ∧
      1 ≤ (putUvarint x.toNat).length ∧ (putUvarint x.toNat).length ≤ 10 ∧
      readUvarint (appendUvarint dst x.toNat ++ rest) dst.length =
        .ok (x.toNat, dst.length + (putUvarint x.toNat).length) :=
  have hx : x.toNat < 2 ^ 64 := x.toNat_lt_size
  ⟨appendUvarint_eq_putUvarint dst x.toNat, putUvarint_length_pos _, putUvarint_length_le hx,
    readUvarint_appendUvarint hx dst rest⟩

end SegmentIndex
