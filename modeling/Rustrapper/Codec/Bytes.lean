/-
# Numbers as byte strings

A natural number in a fixed count of bytes, little end first or big end first,
and the number a byte string stands for. Reading back what was written gives
the number modulo the power of 256 that fits (`ofLE_toLE`, `ofBE_toBE`).
-/
import Mathlib

namespace Codec

/-- The `n` low bytes of `v`, the lowest first. -/
def toLE : ℕ → ℕ → List UInt8
  | 0, _ => []
  | n + 1, v => UInt8.ofNat v :: toLE n (v / 256)

/-- The number a byte string stands for, the lowest byte first. -/
def ofLE : List UInt8 → ℕ
  | [] => 0
  | b :: bs => b.toNat + 256 * ofLE bs

/-- The `n` low bytes of `v`, the highest first. -/
def toBE (n v : ℕ) : List UInt8 := (toLE n v).reverse

/-- The number a byte string stands for, the highest byte first. -/
def ofBE (bs : List UInt8) : ℕ := ofLE bs.reverse

/-- The `n` bytes from offset `i` on. -/
def slice (bs : List UInt8) (i n : ℕ) : List UInt8 := (bs.drop i).take n

@[simp] theorem length_toLE : ∀ n v, (toLE n v).length = n
  | 0, _ => rfl
  | n + 1, v => by simp [toLE, length_toLE n]

@[simp] theorem length_toBE (n v : ℕ) : (toBE n v).length = n := by simp [toBE]

theorem ofLE_lt : ∀ bs : List UInt8, ofLE bs < 256 ^ bs.length
  | [] => by simp [ofLE]
  | b :: bs => by
    have h := ofLE_lt bs
    have hb : b.toNat < 256 := b.toNat_lt
    simp only [ofLE, List.length_cons, pow_succ]
    omega

/-- **Reading back** the bytes of a number gives what of it fits. -/
@[simp] theorem ofLE_toLE : ∀ n v, ofLE (toLE n v) = v % 256 ^ n
  | 0, v => by simp [toLE, ofLE, Nat.mod_one]
  | n + 1, v => by
    have ih := ofLE_toLE n (v / 256)
    have hb : (UInt8.ofNat v).toNat = v % 256 := by simp
    rw [toLE, ofLE, ih, hb, pow_succ', Nat.mod_mul]

/-- The bytes of the number that a byte string stands for. -/
theorem toLE_ofLE : ∀ bs : List UInt8, toLE bs.length (ofLE bs) = bs
  | [] => rfl
  | b :: bs => by
    have hb := b.toNat_lt
    have hlow : UInt8.ofNat (b.toNat + 256 * ofLE bs) = b := by
      apply UInt8.toNat_inj.mp
      rw [UInt8.toNat_ofNat']
      omega
    have hhigh : (b.toNat + 256 * ofLE bs) / 256 = ofLE bs := by omega
    rw [List.length_cons, ofLE, toLE, hlow, hhigh, toLE_ofLE bs]

@[simp] theorem ofBE_toBE (n v : ℕ) : ofBE (toBE n v) = v % 256 ^ n := by simp [ofBE, toBE]

theorem length_slice (bs : List UInt8) (i n : ℕ) : (slice bs i n).length = min n (bs.length - i) := by
  simp [slice]

/-- A slice behind a prefix. -/
theorem slice_append (as bs : List UInt8) (n : ℕ) : slice (as ++ bs) as.length n = bs.take n := by
  simp [slice]

end Codec
