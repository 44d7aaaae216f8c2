/-
# Integers that unpack reads back

An integer that `string.pack` has written is read back by `string.unpack` with
the same option, provided that the option's field represents it (`InRange`). A
field of eight bytes or more represents every integer (`readInt_intBytes`).
-/
import Rustrapper.Lua.Unpack

namespace Rustrapper
namespace Lua
namespace Pack

open Codec

/-! ### Integers -/

/-- The integers a field of some bytes represents. From eight bytes on these are all there are:
an unsigned field takes the 64-bit pattern. -/
def InRange (signed : Bool) (size : ℕ) (n : Int64) : Prop :=
  8 ≤ size ∨ if signed then -2 ^ (8 * size - 1) ≤ n.toInt ∧ n.toInt < 2 ^ (8 * size - 1)
    else 0 ≤ n.toInt ∧ n.toInt < 2 ^ (8 * size)

theorem fitsBytes_of_inRange {signed : Bool} {size : ℕ} {n : Int64} (h : InRange signed size n) :
    FitsBytes signed size n.toUInt64.toNat := by
  rcases h with h | h
  · exact .inl h
  by_cases h8 : 8 ≤ size
  · exact .inl h8
  have hu := n.toUInt64.toNat_lt
  rw [toInt_eq] at h
  refine .inr ?_
  generalize n.toUInt64.toNat = u at h hu ⊢
  cases signed with
  | true =>
    have hp : (2 : ℕ) ^ (8 * size - 1) ≤ 2 ^ 55 := Nat.pow_le_pow_right (by decide) (by omega)
    have hc : ((2 ^ (8 * size - 1) : ℕ) : ℤ) = 2 ^ (8 * size - 1) := by push_cast; rfl
    simp only [if_true] at h ⊢
    rw [← hc] at h
    generalize 2 ^ (8 * size - 1) = p at h hp ⊢
    by_cases hs : u < 2 ^ 63
    · rw [if_pos hs] at h
      omega
    · rw [if_neg hs] at h
      omega
  | false =>
    have hp : (2 : ℕ) ^ (8 * size) ≤ 2 ^ 56 := Nat.pow_le_pow_right (by decide) (by omega)
    have hc : ((2 ^ (8 * size) : ℕ) : ℤ) = 2 ^ (8 * size) := by push_cast; rfl
    simp only [Bool.false_eq_true, if_false] at h ⊢
    rw [← hc] at h
    generalize 2 ^ (8 * size) = p at h hp ⊢
    by_cases hs : u < 2 ^ 63
    · rw [if_pos hs] at h
      omega
    · rw [if_neg hs] at h
      omega

theorem ordered_ordered (little : Bool) (bs : List UInt8) : ordered little (ordered little bs) = bs := by
  cases little <;> simp [ordered]

@[simp] theorem length_ordered (little : Bool) (bs : List UInt8) :
    (ordered little bs).length = bs.length := by
  cases little <;> simp [ordered]

@[simp] theorem length_intBytes (little : Bool) (size : ℕ) (n : Int64) :
    (intBytes little size n).length = size := by simp [intBytes]

/-- An integer in range is read back, whatever the byte order. -/
theorem readInt_intBytes (little : Bool) {signed : Bool} {size : ℕ} {n : Int64} (h1 : 1 ≤ size)
    (h : InRange signed size n) : readInt little signed (intBytes little size n) = n := by
  have hu := n.toUInt64.toNat_lt
  rw [readInt, intBytes, ordered_ordered, readWord_toLE h1 hu (fitsBytes_of_inRange h), ofNat_toUInt64]

end Pack
end Lua
end Rustrapper
