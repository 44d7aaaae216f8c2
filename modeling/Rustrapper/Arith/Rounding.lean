/-
# Rounding to a number of significant bits

The rationals with at most `p` significant bits (`Representable`), and rounding
to the nearest of them, ties to the even one (`rnd`). What the results about
rounding need is that it never goes past a representable number: it keeps
comparisons with one (`rnd_le`, `le_rnd`), so it keeps the number itself
(`rnd_eq_self_iff`).
-/
import Mathlib

namespace Arith.Rounding

/-! ### Rounding to an integer -/

/-- The nearest integer, the even one of two. -/
def roundEven (y : ℚ) : ℤ :=
  if Int.fract y < 1 / 2 then ⌊y⌋ else if 1 / 2 < Int.fract y then ⌊y⌋ + 1 else if Even ⌊y⌋ then ⌊y⌋ else ⌊y⌋ + 1

theorem floor_le_roundEven (y : ℚ) : ⌊y⌋ ≤ roundEven y := by
  unfold roundEven
  split_ifs <;> omega

theorem roundEven_le_floor_add_one (y : ℚ) : roundEven y ≤ ⌊y⌋ + 1 := by
  unfold roundEven
  split_ifs <;> omega

theorem le_roundEven {n : ℤ} {y : ℚ} (h : n ≤ y) : n ≤ roundEven y :=
  (Int.le_floor.mpr h).trans (floor_le_roundEven y)

theorem roundEven_le {n : ℤ} {y : ℚ} (h : y ≤ n) : roundEven y ≤ n := by
  rcases h.eq_or_lt with rfl | h
  · rw [roundEven, if_pos (by rw [Int.fract_intCast]; norm_num), Int.floor_intCast]
  · have := Int.floor_lt.mpr h
    have := roundEven_le_floor_add_one y
    omega

theorem roundEven_intCast (n : ℤ) : roundEven n = n := le_antisymm (roundEven_le le_rfl) (le_roundEven le_rfl)

theorem roundEven_neg (y : ℚ) : roundEven (-y) = -roundEven y := by
  by_cases hz : Int.fract y = 0
  · obtain ⟨n, rfl⟩ := Int.fract_eq_zero_iff.mp hz
    rw [← Int.cast_neg, roundEven_intCast, roundEven_intCast]
  · have hfract : Int.fract (-y) = 1 - Int.fract y := Int.fract_neg hz
    have hfloor : ⌊-y⌋ = -⌊y⌋ - 1 := by
      have h1 := Int.floor_add_fract y
      have h2 := Int.floor_add_fract (-y)
      have h3 : ((⌊-y⌋ : ℤ) : ℚ) = ((-⌊y⌋ - 1 : ℤ) : ℚ) := by
        push_cast
        linarith
      exact_mod_cast h3
    have heven : Even (-⌊y⌋ - 1) ↔ ¬Even ⌊y⌋ := by rw [Int.even_sub_one, even_neg]
    unfold roundEven
    rw [hfract, hfloor]
    rcases lt_trichotomy (Int.fract y) (1 / 2) with h | h | h
    · rw [if_neg (by linarith), if_pos (by linarith), if_pos h]
      omega
    · have h' : 1 - Int.fract y = 1 / 2 := by linarith
      rw [h', h, if_neg (lt_irrefl _), if_neg (lt_irrefl _)]
      by_cases he : Even ⌊y⌋
      · rw [if_neg (heven.not.mpr (not_not.mpr he)), if_neg (lt_irrefl _), if_neg (lt_irrefl _), if_pos he]
        omega
      · rw [if_pos (heven.mpr he), if_neg (lt_irrefl _), if_neg (lt_irrefl _), if_neg he]
        omega
    · rw [if_pos (by linarith), if_neg (by linarith), if_pos h]
      omega

/-! ### Significant bits -/

section Precision
variable (p : ℕ)

/-- A number with at most `p` significant bits. -/
def Representable (x : ℚ) : Prop := ∃ m e : ℤ, |m| ≤ 2 ^ p ∧ x = m * 2 ^ e

/-- The exponent of the last of `p` places. -/
def lastPlace (x : ℚ) : ℤ := Int.log 2 |x| + 1 - p

/-- The nearest number with at most `p` significant bits. -/
def rnd (x : ℚ) : ℚ := roundEven (x / 2 ^ lastPlace p x) * 2 ^ lastPlace p x

variable {p} {x y : ℚ}

theorem two_zpow_pos (e : ℤ) : (0 : ℚ) < 2 ^ e := zpow_pos (by norm_num) e

theorem Representable.neg (h : Representable p x) : Representable p (-x) := by
  obtain ⟨m, e, hm, rfl⟩ := h
  exact ⟨-m, e, by rwa [abs_neg], by push_cast; ring⟩

theorem representable_zero : Representable p 0 := ⟨0, 0, by simp, by simp⟩

theorem lastPlace_neg (x : ℚ) : lastPlace p (-x) = lastPlace p x := by rw [lastPlace, lastPlace, abs_neg]

theorem rnd_neg (x : ℚ) : rnd p (-x) = -rnd p x := by
  rw [rnd, rnd, lastPlace_neg, neg_div, roundEven_neg]
  push_cast
  ring

theorem rnd_zero : rnd p 0 = 0 := by
  rw [rnd, zero_div, show (0 : ℚ) = ((0 : ℤ) : ℚ) by norm_num, roundEven_intCast]
  simp

/-- In units of the last place a number has `p` bits. -/
theorem abs_div_lt (x : ℚ) : |x| / 2 ^ lastPlace p x < 2 ^ p := by
  rw [div_lt_iff₀ (two_zpow_pos _), ← zpow_natCast, ← zpow_add₀ (by norm_num), lastPlace,
    show (p : ℤ) + (Int.log 2 |x| + 1 - p) = Int.log 2 |x| + 1 by ring]
  exact_mod_cast Int.lt_zpow_succ_log_self (b := 2) (by norm_num) |x|

theorem le_abs_div (hx : x ≠ 0) (hp : 1 ≤ p) : 2 ^ (p - 1) ≤ |x| / 2 ^ lastPlace p x := by
  rw [le_div_iff₀ (two_zpow_pos _), ← zpow_natCast, ← zpow_add₀ (by norm_num), lastPlace,
    show ((p - 1 : ℕ) : ℤ) + (Int.log 2 |x| + 1 - p) = Int.log 2 |x| by push_cast [hp]; ring]
  exact_mod_cast Int.zpow_log_le_self (b := 2) (by norm_num) (abs_pos.mpr hx)

theorem representable_rnd (x : ℚ) : Representable p (rnd p x) := by
  by_cases hx : x = 0
  · rw [hx, rnd_zero]
    exact representable_zero
  refine ⟨_, _, ?_, rfl⟩
  have hlt : |x| / 2 ^ lastPlace p x < 2 ^ p := abs_div_lt x
  have habs : |x / 2 ^ lastPlace p x| = |x| / 2 ^ lastPlace p x := by rw [abs_div, abs_of_pos (two_zpow_pos _)]
  rw [← habs, abs_lt] at hlt
  rw [abs_le]
  constructor
  · refine le_roundEven ?_
    push_cast
    exact hlt.1.le
  · refine roundEven_le ?_
    push_cast
    exact hlt.2.le

/-- A representable number is a multiple of the last place of another, or smaller than every number that is not. -/
theorem Representable.cases (hy : Representable p y) (x : ℚ) :
    (∃ n : ℤ, y = n * 2 ^ lastPlace p x) ∨ |y| ≤ 2 ^ Int.log 2 |x| := by
  obtain ⟨m, e, hm, rfl⟩ := hy
  rcases le_or_gt (lastPlace p x) e with he | he
  · refine .inl ⟨m * 2 ^ (e - lastPlace p x).toNat, ?_⟩
    have hexp : e = (e - lastPlace p x).toNat + lastPlace p x := by omega
    conv_lhs => rw [hexp, zpow_add₀ (by norm_num), zpow_natCast]
    push_cast
    ring
  · refine .inr ?_
    rw [abs_mul, abs_of_pos (two_zpow_pos e)]
    have hm' : |(m : ℚ)| ≤ 2 ^ p := by exact_mod_cast hm
    calc |(m : ℚ)| * 2 ^ e ≤ 2 ^ p * 2 ^ e := by gcongr
      _ = 2 ^ ((p : ℤ) + e) := by rw [zpow_add₀ (by norm_num), zpow_natCast]
      _ ≤ 2 ^ Int.log 2 |x| := by
        refine zpow_le_zpow_right₀ (by norm_num) ?_
        unfold lastPlace at he
        omega

/-- The power of two below a number is a multiple of its last place. -/
theorem pow_log_eq (hp : 1 ≤ p) (x : ℚ) :
    ((2 ^ (p - 1) : ℤ) : ℚ) * 2 ^ lastPlace p x = 2 ^ Int.log 2 |x| := by
  push_cast
  rw [← zpow_natCast, ← zpow_add₀ (by norm_num), lastPlace]
  congr 1
  push_cast [hp]
  ring

/-- Rounding keeps what is at most a multiple of the last place. -/
theorem rnd_le_mul {n : ℤ} (h : x ≤ n * 2 ^ lastPlace p x) : rnd p x ≤ n * 2 ^ lastPlace p x := by
  have hle : roundEven (x / 2 ^ lastPlace p x) ≤ n := roundEven_le ((div_le_iff₀ (two_zpow_pos _)).mpr h)
  unfold rnd
  have := two_zpow_pos (lastPlace p x)
  have hcast : ((roundEven (x / 2 ^ lastPlace p x) : ℤ) : ℚ) ≤ n := by exact_mod_cast hle
  gcongr

/-- **Rounding does not go past a representable number** from below. -/
theorem rnd_le (hp : 1 ≤ p) (hy : Representable p y) (h : x ≤ y) : rnd p x ≤ y := by
  rcases hy.cases x with ⟨n, rfl⟩ | hsmall
  · exact rnd_le_mul h
  have hpow := pow_log_eq hp x
  by_cases hx : x = 0
  · rw [hx, rnd_zero, ← hx]
    exact h
  have hlog : (2 : ℚ) ^ Int.log 2 |x| ≤ |x| := by
    exact_mod_cast Int.zpow_log_le_self (b := 2) (by norm_num) (abs_pos.mpr hx)
  rcases lt_or_gt_of_ne hx with hneg | hpos
  · -- a negative number is at most the power of two, which `y` does not go below
    have hpl : x ≤ ((-2 ^ (p - 1) : ℤ) : ℚ) * 2 ^ lastPlace p x := by
      have : ((-2 ^ (p - 1) : ℤ) : ℚ) * 2 ^ lastPlace p x = -(2 ^ Int.log 2 |x|) := by
        rw [← hpow]
        push_cast
        ring
      rw [this]
      rw [abs_of_neg hneg] at hlog ⊢
      linarith
    have hr := rnd_le_mul hpl
    have : ((-2 ^ (p - 1) : ℤ) : ℚ) * 2 ^ lastPlace p x = -(2 ^ Int.log 2 |x|) := by
      rw [← hpow]
      push_cast
      ring
    rw [this] at hr
    have := neg_le_of_abs_le hsmall
    linarith
  · -- a positive one is at least the power of two, so it is `y`
    rw [abs_of_pos hpos] at hlog hsmall
    have hyx : y = ((2 ^ (p - 1) : ℤ) : ℚ) * 2 ^ lastPlace p x := by
      rw [hpow, abs_of_pos hpos]
      exact le_antisymm ((le_abs_self y).trans hsmall) (hlog.trans h)
    rw [hyx] at h ⊢
    exact rnd_le_mul h

theorem le_rnd (hp : 1 ≤ p) (hy : Representable p y) (h : y ≤ x) : y ≤ rnd p x := by
  have := rnd_le hp hy.neg (neg_le_neg h)
  rw [rnd_neg] at this
  linarith

/-- **A number is its own rounding** exactly when it is representable. -/
theorem rnd_eq_self_iff (hp : 1 ≤ p) : rnd p x = x ↔ Representable p x := by
  constructor
  · intro h
    rw [← h]
    exact representable_rnd x
  · exact fun h => le_antisymm (rnd_le hp h le_rfl) (le_rnd hp h le_rfl)

theorem Representable.rnd_eq (hp : 1 ≤ p) (h : Representable p x) : rnd p x = x := (rnd_eq_self_iff hp).mpr h

/-! ### Powers of two -/

theorem representable_two_zpow (e : ℤ) : Representable p (2 ^ e : ℚ) :=
  ⟨1, e, by rw [abs_one]; exact one_le_pow₀ (by norm_num), by simp⟩

theorem representable_units {n : ℤ} (e : ℤ) (h : |n| ≤ 2 ^ p) : Representable p ((n : ℚ) * 2 ^ e) := ⟨n, e, h, rfl⟩

/-- Rounding keeps the distance from zero above a power of two. -/
theorem two_zpow_le_abs_rnd (hp : 1 ≤ p) {e : ℤ} (h : (2 : ℚ) ^ e ≤ |x|) : 2 ^ e ≤ |rnd p x| := by
  rcases le_abs.mp h with h | h
  · exact le_abs.mpr (.inl (le_rnd hp (representable_two_zpow e) h))
  · have := le_rnd hp (representable_two_zpow e) h
    rw [rnd_neg] at this
    exact le_abs.mpr (.inr this)

theorem abs_rnd_le_two_zpow (hp : 1 ≤ p) {e : ℤ} (h : |x| ≤ 2 ^ e) : |rnd p x| ≤ 2 ^ e := by
  obtain ⟨h1, h2⟩ := abs_le.mp h
  exact abs_le.mpr ⟨le_rnd hp (representable_two_zpow e).neg h1, rnd_le hp (representable_two_zpow e) h2⟩

end Precision

end Arith.Rounding
