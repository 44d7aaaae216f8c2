/-
# Machine words from bytes

A 64-bit word put together with shifts and ORs from bytes, the lowest first, and
the sign extension of a shorter one. A pattern that fits into its bytes
(`FitsBytes`) is read back from them (`readWord_toLE`), also from more than
eight: the shift amounts repeat then, and the bytes behind the eighth are zero.
-/
import Rustrapper.Codec.Bytes

namespace Codec

/-- `v |= (b as u64) << (k * 8)` for each byte, from `k` on; a shift is taken modulo the width
of the word. -/
def orBytes : List UInt8 → ℕ → ℕ
  | [], _ => 0
  | b :: bs, k => (b.toNat <<< (8 * k % 64)) ||| orBytes bs (k + 1)

/-- The word in some bytes; a signed one that is shorter than a word is sign-extended. -/
def readWord (signed : Bool) (bs : List UInt8) : ℕ :=
  let v := orBytes bs 0
  if signed ∧ bs.length < 8 ∧ v &&& 2 ^ (8 * bs.length - 1) ≠ 0 then
    v ||| (2 ^ 64 - 2 ^ (8 * bs.length))
  else v

/-- A 64-bit pattern is determined by its low `size` bytes: as a two's complement number, or as
one without a sign. -/
def FitsBytes (signed : Bool) (size u : ℕ) : Prop :=
  8 ≤ size ∨ if signed then u < 2 ^ (8 * size - 1) ∨ 2 ^ 64 - 2 ^ (8 * size - 1) ≤ u
    else u < 2 ^ (8 * size)

/-! ### Up to eight bytes -/

theorem or_shift_eq_add {b k : ℕ} (hb : b < 256) (a : ℕ) :
    (b <<< (8 * k)) ||| (a * 256 ^ (k + 1)) = (b + 256 * a) * 256 ^ k := by
  have hlt : b * 2 ^ (8 * k) < 2 ^ (8 * (k + 1)) := by
    calc b * 2 ^ (8 * k) < 256 * 2 ^ (8 * k) := Nat.mul_lt_mul_of_pos_right hb (Nat.two_pow_pos _)
      _ = 2 ^ (8 * (k + 1)) := by
          rw [Nat.mul_succ, Nat.pow_add, Nat.mul_comm]
  have hpow (m : ℕ) : 256 ^ m = 2 ^ (8 * m) := by rw [Nat.pow_mul]
  have hor := Nat.two_pow_add_eq_or_of_lt hlt a
  rw [Nat.shiftLeft_eq, hpow, Nat.or_comm, Nat.mul_comm a, ← hor, ← hpow, ← hpow, pow_succ]
  ring

theorem orBytes_eq : ∀ (bs : List UInt8) (k : ℕ), k + bs.length ≤ 8 → orBytes bs k = ofLE bs * 256 ^ k
  | [], _, _ => by simp [orBytes, ofLE]
  | b :: bs, k, h => by
    rw [List.length_cons] at h
    have ih := orBytes_eq bs (k + 1) (by omega)
    have hk : 8 * k % 64 = 8 * k := Nat.mod_eq_of_lt (by omega)
    rw [orBytes, ih, hk, or_shift_eq_add b.toNat_lt, ofLE]

/-! ### More than eight -/

theorem orBytes_zeros : ∀ n k : ℕ, orBytes (List.replicate n 0) k = 0
  | 0, _ => rfl
  | n + 1, k => by
    have ih := orBytes_zeros n (k + 1)
    simp [List.replicate_succ, orBytes, ih]

theorem orBytes_append : ∀ (as bs : List UInt8) (k : ℕ),
    orBytes (as ++ bs) k = orBytes as k ||| orBytes bs (k + as.length)
  | [], bs, k => by simp [orBytes]
  | a :: as, bs, k => by
    have ih := orBytes_append as bs (k + 1)
    rw [List.cons_append, orBytes, orBytes, ih, List.length_cons, Nat.or_assoc, Nat.add_right_comm]
    rfl

theorem toLE_zero : ∀ n : ℕ, toLE n 0 = List.replicate n 0
  | 0 => rfl
  | n + 1 => by
    have ih := toLE_zero n
    simp [toLE, ih, List.replicate_succ]

theorem toLE_add : ∀ m n v : ℕ, toLE (m + n) v = toLE m v ++ toLE n (v / 256 ^ m)
  | 0, n, v => by simp [toLE]
  | m + 1, n, v => by
    have ih := toLE_add m n (v / 256)
    rw [Nat.add_right_comm, toLE, toLE, ih, Nat.div_div_eq_div_mul, pow_succ', List.cons_append]

/-- The low bytes of a word, however many, give the word cut to them. -/
theorem orBytes_toLE {size u : ℕ} (hu : u < 2 ^ 64) :
    orBytes (toLE size u) 0 = u % 256 ^ min size 8 := by
  rcases Nat.le_total size 8 with h | h
  · rw [orBytes_eq _ 0 (by rw [length_toLE]; omega), ofLE_toLE, pow_zero, Nat.mul_one, min_eq_left h]
  · obtain ⟨n, rfl⟩ := Nat.exists_eq_add_of_le h
    have hz : u / 256 ^ 8 = 0 := Nat.div_eq_of_lt hu
    rw [toLE_add, hz, toLE_zero, orBytes_append, orBytes_zeros, Nat.or_zero,
      orBytes_eq _ 0 (by rw [length_toLE]), ofLE_toLE, pow_zero, Nat.mul_one, min_eq_right h]

/-! ### The sign -/

/-- The sign bit of a number of `n + 1` bits. -/
theorem and_top_ne_zero {n v : ℕ} (hv : v < 2 ^ (n + 1)) : v &&& 2 ^ n ≠ 0 ↔ 2 ^ n ≤ v := by
  have hpos : 0 < 2 ^ n := Nat.two_pow_pos n
  rw [Nat.and_two_pow, Nat.testBit_eq_decide_div_mod_eq]
  by_cases h : 2 ^ n ≤ v
  · have hd : v / 2 ^ n = 1 := by
      apply Nat.div_eq_of_lt_le
      · omega
      · rw [pow_succ] at hv
        omega
    simp [hd, h]
  · have hd : v / 2 ^ n = 0 := Nat.div_eq_of_lt (not_le.mp h)
    simp [hd, h]

theorem readWord_signed {size u : ℕ} (h1 : 1 ≤ size) (h8 : size < 8) (hu : u < 2 ^ 64)
    (h : u < 2 ^ (8 * size - 1) ∨ 2 ^ 64 - 2 ^ (8 * size - 1) ≤ u) :
    readWord true (toLE size u) = u := by
  obtain ⟨n, hn⟩ : ∃ n, 8 * size = n + 1 := ⟨8 * size - 1, by omega⟩
  have hlow : orBytes (toLE size u) 0 = u % 2 ^ (n + 1) := by
    rw [orBytes_toLE hu, min_eq_left h8.le, ← hn, Nat.pow_mul]
  have hlt : u % 2 ^ (n + 1) < 2 ^ (n + 1) := Nat.mod_lt _ (Nat.two_pow_pos _)
  have hpow : 2 ^ (n + 1) = 2 * 2 ^ n := by rw [pow_succ, Nat.mul_comm]
  have htop : 2 ^ 64 = 2 ^ (n + 1) * 2 ^ (63 - n) := by
    rw [← Nat.pow_add]
    congr 1
    omega
  have hle : 2 ^ (n + 1) ≤ 2 ^ 64 := Nat.pow_le_pow_right (by decide) (by omega)
  unfold readWord
  rw [hlow, length_toLE, hn, Nat.add_sub_cancel]
  rw [hn, Nat.add_sub_cancel] at h
  rcases h with h | h
  · have hm : u % 2 ^ (n + 1) = u := Nat.mod_eq_of_lt (by omega)
    rw [if_neg]
    · exact hm
    · rw [and_top_ne_zero hlt, hm]
      omega
  · have hsplit : u = 2 ^ (n + 1) * (2 ^ (63 - n) - 1) + (u - (2 ^ 64 - 2 ^ (n + 1))) := by
      rw [Nat.mul_sub, ← htop]
      omega
    have hrest : u - (2 ^ 64 - 2 ^ (n + 1)) < 2 ^ (n + 1) := by omega
    have hm : u % 2 ^ (n + 1) = u - (2 ^ 64 - 2 ^ (n + 1)) := by
      conv_lhs => rw [hsplit]
      rw [Nat.mul_add_mod, Nat.mod_eq_of_lt hrest]
    have hge : 2 ^ n ≤ u % 2 ^ (n + 1) := by omega
    rw [if_pos ⟨rfl, h8, (and_top_ne_zero hlt).mpr hge⟩, hm, Nat.or_comm]
    have hor := Nat.two_pow_add_eq_or_of_lt hrest (2 ^ (63 - n) - 1)
    have hmask : 2 ^ 64 - 2 ^ (n + 1) = 2 ^ (n + 1) * (2 ^ (63 - n) - 1) := by
      rw [Nat.mul_sub, ← htop, Nat.mul_one]
    rw [hmask] at hsplit hor ⊢
    rw [← hor, ← hsplit]

/-- **A pattern that fits is read back.** -/
theorem readWord_toLE {signed : Bool} {size u : ℕ} (h1 : 1 ≤ size) (hu : u < 2 ^ 64)
    (h : FitsBytes signed size u) : readWord signed (toLE size u) = u := by
  by_cases h8 : 8 ≤ size
  · unfold readWord
    rw [if_neg, orBytes_toLE hu, min_eq_right h8]
    · exact Nat.mod_eq_of_lt hu
    · rw [length_toLE]
      omega
  · have hfit := h.resolve_left h8
    cases signed with
    | true => exact readWord_signed h1 (not_le.mp h8) hu hfit
    | false =>
      have hlt : u < 256 ^ size := by
        rw [show 256 = 2 ^ 8 from rfl, ← Nat.pow_mul]
        exact hfit
      unfold readWord
      rw [if_neg (by simp), orBytes_toLE hu, min_eq_left (not_le.mp h8).le, Nat.mod_eq_of_lt hlt]

/-! ### Signed words -/

theorem ofNat_toUInt64 (n : Int64) : Int64.ofNat n.toUInt64.toNat = n := by
  rw [← Int64.toNat_toBitVec, ← Int64.toBitVec_inj]
  simp

theorem toInt_eq (n : Int64) : n.toInt =
    if n.toUInt64.toNat < 2 ^ 63 then (n.toUInt64.toNat : ℤ) else n.toUInt64.toNat - 2 ^ 64 := by
  rw [← Int64.toInt_toBitVec, BitVec.toInt_eq_toNat_cond, Int64.toNat_toBitVec]
  by_cases h : n.toUInt64.toNat < 2 ^ 63
  · rw [if_pos h, if_pos (by omega)]
  · rw [if_neg h, if_neg (by omega)]
    norm_num

end Codec
