/-
# Progressions up to a limit

The values `start`, `start + step`, `start + 2 * step`, ... of a counter that
stops behind a limit: above it when the step is not negative, below it
otherwise. `steps` counts the steps that stay inside (`not_past_iff`), so the
values that do not pass the limit are those from `start` to `last`, and the one
behind `last` is the first that does.
-/
import Mathlib

namespace Arith.Progression

variable {start limit step : ℤ}

/-- Value `x` is behind the limit. -/
def Past (step limit x : ℤ) : Prop := if 0 ≤ step then limit < x else x < limit

instance (step limit x : ℤ) : Decidable (Past step limit x) := by
  unfold Past
  infer_instance

/-- Value number `i`. -/
def nth (start step : ℤ) (i : ℕ) : ℤ := start + i * step

/-- How many steps from `start` stay inside the limit. -/
def steps (start limit step : ℤ) : ℕ := ((limit - start).tdiv step).toNat

/-- The last value that does not pass the limit. -/
def last (start limit step : ℤ) : ℤ := nth start step (steps start limit step)

@[simp] theorem nth_zero (start step : ℤ) : nth start step 0 = start := by simp [nth]

theorem nth_succ (start step : ℤ) (i : ℕ) : nth start step (i + 1) = nth start step i + step := by
  unfold nth
  push_cast
  ring

theorem past_of_nonneg (h : 0 ≤ step) (x : ℤ) : Past step limit x ↔ limit < x := by
  rw [Past, if_pos h]

theorem past_of_neg (h : step < 0) (x : ℤ) : Past step limit x ↔ x < limit := by
  rw [Past, if_neg (not_le.mpr h)]

/-- **The values inside the limit** are those of the first `steps` steps. -/
theorem not_past_iff (hstep : step ≠ 0) (hstart : ¬ Past step limit start) (i : ℕ) :
    ¬ Past step limit (nth start step i) ↔ i ≤ steps start limit step := by
  unfold steps nth
  rcases lt_or_gt_of_ne hstep with hneg | hpos
  · rw [past_of_neg hneg, not_lt] at hstart ⊢
    have hdiv : (limit - start).tdiv step = (start - limit) / (-step) := by
      rw [← Int.neg_tdiv_neg, neg_sub, Int.tdiv_eq_ediv_of_nonneg (by omega)]
    have hmul : (i : ℤ) * step = -(i * -step) := by ring
    rw [hdiv, ← Int.ofNat_le, Int.toNat_of_nonneg (Int.ediv_nonneg (by omega) (by omega)),
      Int.le_ediv_iff_mul_le (by omega), hmul]
    constructor <;> intro h <;> linarith
  · rw [past_of_nonneg hpos.le, not_lt] at hstart ⊢
    rw [Int.tdiv_eq_ediv_of_nonneg (by omega), ← Int.ofNat_le,
      Int.toNat_of_nonneg (Int.ediv_nonneg (by omega) hpos.le), Int.le_ediv_iff_mul_le hpos]
    constructor <;> intro h <;> linarith

theorem not_past_last (hstep : step ≠ 0) (hstart : ¬ Past step limit start) :
    ¬ Past step limit (last start limit step) :=
  (not_past_iff hstep hstart _).mpr le_rfl

/-- The values inside the limit lie between the first and the last. -/
theorem nth_between_of_nonneg {i : ℕ} (hs : 0 ≤ step) (h : i ≤ steps start limit step) :
    start ≤ nth start step i ∧ nth start step i ≤ last start limit step := by
  have h1 : 0 ≤ (i : ℤ) * step := mul_nonneg (Int.natCast_nonneg i) hs
  have h2 : (i : ℤ) * step ≤ steps start limit step * step :=
    mul_le_mul_of_nonneg_right (Int.ofNat_le.mpr h) hs
  unfold last nth
  constructor <;> linarith

theorem nth_between_of_neg {i : ℕ} (hs : step < 0) (h : i ≤ steps start limit step) :
    last start limit step ≤ nth start step i ∧ nth start step i ≤ start := by
  have h1 : (i : ℤ) * step ≤ 0 := mul_nonpos_of_nonneg_of_nonpos (Int.natCast_nonneg i) hs.le
  have h2 : (steps start limit step : ℤ) * step ≤ i * step :=
    mul_le_mul_of_nonpos_right (Int.ofNat_le.mpr h) hs.le
  unfold last nth
  constructor <;> linarith

end Arith.Progression
