/-
# Bump allocation of aligned windows

`up next size` is the first multiple of `size` at or above `next`. A bump
allocator puts a window there and goes on behind it, so that what it hands out
is aligned and lies behind everything it handed out before. `toNat_align` is the
usual mask arithmetic on machine words, where it does not wrap.
-/
import Mathlib

namespace Store.Bump

/-- A range of addresses. -/
structure Window where
  base : ℕ
  size : ℕ
  deriving DecidableEq

/-- The two ranges have no address in common. -/
def Window.Apart (a b : Window) : Prop := a.base + a.size ≤ b.base ∨ b.base + b.size ≤ a.base

/-- The first multiple of `size` at or above `next`. -/
def up (next size : ℕ) : ℕ := (next + size - 1) / size * size

theorem dvd_up (next size : ℕ) : size ∣ up next size := Dvd.intro_left _ rfl

theorem le_up {next size : ℕ} (h : 0 < size) : next ≤ up next size := by
  unfold up
  have h1 := Nat.div_add_mod (next + size - 1) size
  have h2 := Nat.mod_lt (next + size - 1) h
  rw [Nat.mul_comm] at h1
  omega

variable {w : ℕ}

/-- Clearing the bits of a mask takes what the mask keeps away. -/
theorem toNat_and_not_add (x m : BitVec w) : (x &&& ~~~m).toNat + (x &&& m).toNat = x.toNat := by
  have hdisj : (x &&& ~~~m) &&& (x &&& m) = 0#w := by
    ext i hi
    simp only [BitVec.getElem_and, BitVec.getElem_not, BitVec.getElem_zero]
    cases m[i] <;> simp
  have hjoin : (x &&& ~~~m) ||| (x &&& m) = x := by
    ext i hi
    simp only [BitVec.getElem_or, BitVec.getElem_and, BitVec.getElem_not]
    cases m[i] <;> simp
  have hsum := BitVec.toNat_add_of_and_eq_zero hdisj
  rw [BitVec.add_eq_or_of_and_eq_zero _ _ hdisj, hjoin] at hsum
  exact hsum.symm

/-- Clearing the bits below a power of two rounds down. -/
theorem toNat_clear {x size : BitVec w} {k : ℕ} (hs : size.toNat = 2 ^ k) :
    (x &&& ~~~(size - 1)).toNat = x.toNat / 2 ^ k * 2 ^ k := by
  have hpos : 0 < 2 ^ k := Nat.two_pow_pos k
  have hw : 0 < w := by
    rcases Nat.eq_zero_or_pos w with rfl | hw
    · have hlt := size.isLt
      omega
    · exact hw
  have hone : (1 : BitVec w).toNat = 1 := by
    simp only [BitVec.ofNat_eq_ofNat, BitVec.toNat_ofNat]
    exact Nat.mod_eq_of_lt (Nat.one_lt_two_pow hw.ne')
  have hmask : (size - 1).toNat = 2 ^ k - 1 := by
    rw [BitVec.toNat_sub_of_le, hs, hone]
    rw [BitVec.le_def, hs, hone]
    omega
  have hsum := toNat_and_not_add x (size - 1)
  rw [BitVec.toNat_and x (size - 1), hmask, Nat.and_two_pow_sub_one_eq_mod] at hsum
  have hdiv := Nat.div_add_mod x.toNat (2 ^ k)
  rw [Nat.mul_comm] at hdiv
  omega

/-- **Aligning a machine word** rounds up when the sum does not wrap. -/
theorem toNat_align {next size : BitVec w} {k : ℕ} (hs : size.toNat = 2 ^ k)
    (h : next.toNat + size.toNat < 2 ^ w) :
    ((next + size - 1) &&& ~~~(size - 1)).toNat = up next.toNat (2 ^ k) := by
  have hpos : 0 < 2 ^ k := Nat.two_pow_pos k
  have hw : w ≠ 0 := by
    rintro rfl
    omega
  have hone : (1 : BitVec w).toNat = 1 := by
    simp only [BitVec.ofNat_eq_ofNat, BitVec.toNat_ofNat]
    exact Nat.mod_eq_of_lt (Nat.one_lt_two_pow hw)
  have hadd : (next + size).toNat = next.toNat + 2 ^ k := by
    rw [BitVec.toNat_add_of_lt h, hs]
  have hsub : (next + size - 1).toNat = next.toNat + 2 ^ k - 1 := by
    rw [BitVec.toNat_sub_of_le, hadd, hone]
    rw [BitVec.le_def, hadd, hone]
    omega
  rw [toNat_clear hs, hsub]
  rfl

end Store.Bump
