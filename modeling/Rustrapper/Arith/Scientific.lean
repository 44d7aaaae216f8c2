/-
# Scientific notation

`scientific n x` is the number of `n + 1` significant decimal digits nearest to
`x`, the even one of two, as its digits and the exponent of the first of them.
The exponents of the finite binary64 numbers have three digits at most
(`abs_exponent_lt`).
-/
import Mathlib
import Rustrapper.Arith.Binary64

namespace Arith.Scientific

open Float.Model Float.Model.UnpackedFloat Rounding Binary64

/-- The nearest number of `n + 1` digits: the digits, and the exponent of the first. -/
def scientific (n : ℕ) (x : ℚ) : ℕ × ℤ :=
  let k := Int.log 10 x
  let d := (roundEven (x / 10 ^ (k - n))).toNat
  if d = 10 ^ (n + 1) then (10 ^ n, k + 1) else (d, k)

section
variable {n : ℕ} {x : ℚ}

/-- In units of the last digit a number has `n + 1` digits. -/
theorem scaled_bounds (hx : 0 < x) :
    10 ^ n ≤ x / 10 ^ (Int.log 10 x - n) ∧ x / 10 ^ (Int.log 10 x - n) ≤ 10 ^ (n + 1) := by
  have hunit : (0 : ℚ) < 10 ^ (Int.log 10 x - n) := zpow_pos (by norm_num) _
  constructor
  · rw [le_div_iff₀ hunit]
    calc (10 : ℚ) ^ n * 10 ^ (Int.log 10 x - n) = 10 ^ Int.log 10 x := by
          rw [← zpow_natCast, ← zpow_add₀ (by norm_num), add_sub_cancel]
      _ ≤ x := by exact_mod_cast Int.zpow_log_le_self (b := 10) (by norm_num) hx
  · rw [div_le_iff₀ hunit]
    calc x ≤ 10 ^ (Int.log 10 x + 1) := by exact_mod_cast (Int.lt_zpow_succ_log_self (b := 10) (by norm_num) x).le
      _ = (10 : ℚ) ^ (n + 1) * 10 ^ (Int.log 10 x - n) := by
          rw [← zpow_natCast, ← zpow_add₀ (by norm_num)]
          congr 1
          push_cast
          ring

/-- **There are `n + 1` digits.** -/
theorem scientific_digits (hx : 0 < x) : 10 ^ n ≤ (scientific n x).1 ∧ (scientific n x).1 < 10 ^ (n + 1) := by
  obtain ⟨hlo, hhi⟩ := scaled_bounds (n := n) hx
  have hlo' : ((10 ^ n : ℕ) : ℤ) ≤ roundEven (x / 10 ^ (Int.log 10 x - n)) := le_roundEven (by exact_mod_cast hlo)
  have hhi' : roundEven (x / 10 ^ (Int.log 10 x - n)) ≤ ((10 ^ (n + 1) : ℕ) : ℤ) := roundEven_le (by exact_mod_cast hhi)
  have hstep : 10 ^ n < 10 ^ (n + 1) := Nat.pow_lt_pow_right (by norm_num) (Nat.lt_succ_self n)
  unfold scientific
  dsimp only
  split_ifs with hcarry
  · exact ⟨le_rfl, hstep⟩
  · dsimp only
    omega

/-- The exponent is that of the number, or the next one. -/
theorem scientific_exponent (n : ℕ) (x : ℚ) :
    Int.log 10 x ≤ (scientific n x).2 ∧ (scientific n x).2 ≤ Int.log 10 x + 1 := by
  unfold scientific
  dsimp only
  split_ifs <;> dsimp only <;> omega

end

/-! ### Finite floats -/

section
variable {f : Float} {s : Sign} {m : ℕ} {e : ℤ} {hpos : 0 < m}

/-- The mantissa and the exponent of a finite float. -/
theorem unpack_bounds (hf : f.toModel.unpack = .finite s m e hpos) : m < 2 ^ 53 ∧ -1074 ≤ e ∧ e ≤ 971 := by
  have hbias : ((Format.binary64.exponentBias : ℤ) + Format.binary64.mantissaBitsWithoutImplicit) = 1075 := rfl
  unfold Float.Model.unpack UnpackedFloat.unpack at hf
  dsimp only at hf
  rw [hbias] at hf
  split_ifs at hf with htop hmant hzero hmant'
  · -- no implicit bit
    cases hf
    have hm := (@unpackMantissa Format.binary64 f.toModel.toBits.toBitVec).isLt
    rw [hzero]
    change _ < 2 ^ 52 at hm
    refine ⟨by omega, ?_, ?_⟩ <;> norm_num
  · cases hf
    have hm := (1#1 ++ @unpackMantissa Format.binary64 f.toModel.toBits.toBitVec).isLt
    have he := (@unpackExponent Format.binary64 f.toModel.toBits.toBitVec).isLt
    have htop' : (@unpackExponent Format.binary64 f.toModel.toBits.toBitVec).toNat ≠ 2047 := by
      intro h
      exact htop (BitVec.eq_of_toNat_eq (h.trans rfl))
    have hzero' : (@unpackExponent Format.binary64 f.toModel.toBits.toBitVec).toNat ≠ 0 := by
      intro h
      exact hzero (BitVec.eq_of_toNat_eq (h.trans rfl))
    change _ < 2 ^ 53 at hm
    change _ < 2 ^ 11 at he
    exact ⟨hm, by omega, by omega⟩

/-- The format's range between powers of ten. -/
theorem range_in_tens : 2 ^ 1074 ≤ 10 ^ 324 ∧ 2 ^ 1024 < 10 ^ 309 := by decide +kernel

/-- **The decimal exponent of a finite float** has three digits at most, after rounding too. -/
theorem abs_exponent_lt (hf : f.toModel.unpack = .finite s m e hpos) (n : ℕ) :
    ((scientific n (m * 2 ^ e)).2).natAbs < 1000 := by
  obtain ⟨hm, hlo, hhi⟩ := unpack_bounds hf
  have hx : (0 : ℚ) < m * 2 ^ e := mul_pos (by exact_mod_cast hpos) (two_zpow_pos e)
  have hlow : -324 ≤ Int.log 10 ((m : ℚ) * 2 ^ e) := by
    refine (Int.zpow_le_iff_le_log (by norm_num) hx).mp ?_
    calc ((10 : ℕ) : ℚ) ^ (-324 : ℤ) = ((10 ^ 324 : ℕ) : ℚ)⁻¹ := by
          rw [zpow_neg, Nat.cast_pow]
          rfl
      _ ≤ ((2 ^ 1074 : ℕ) : ℚ)⁻¹ := inv_anti₀ (by positivity) (by exact_mod_cast range_in_tens.1)
      _ = 2 ^ (-1074 : ℤ) := by
          rw [zpow_neg, Nat.cast_pow]
          rfl
      _ ≤ 2 ^ e := zpow_le_zpow_right₀ (by norm_num) hlo
      _ ≤ m * 2 ^ e := le_mul_of_one_le_left (two_zpow_pos e).le (by exact_mod_cast hpos)
  have hhigh : Int.log 10 ((m : ℚ) * 2 ^ e) < 309 := by
    refine (Int.lt_zpow_iff_log_lt (by norm_num) hx).mp ?_
    calc (m : ℚ) * 2 ^ e ≤ 2 ^ 53 * 2 ^ e := by
          gcongr
          exact_mod_cast hm.le
      _ ≤ 2 ^ 53 * 2 ^ (971 : ℤ) := by
          gcongr
          norm_num
      _ = ((2 ^ 1024 : ℕ) : ℚ) := by
          rw [← zpow_natCast, ← zpow_add₀ (by norm_num), Nat.cast_pow]
          rfl
      _ < ((10 ^ 309 : ℕ) : ℚ) := by exact_mod_cast range_in_tens.2
      _ = ((10 : ℕ) : ℚ) ^ (309 : ℤ) := Nat.cast_pow 10 309
  obtain ⟨h1, h2⟩ := scientific_exponent n ((m : ℚ) * 2 ^ e)
  omega

end

end Arith.Scientific
