/-
# Modulo

`binop` computes `%` by the Euclidean remainder on integers and by
`a - floor(a / b) * b` on floats. `lua_modulo_iff` says for which integers the
first is the remainder with the sign of the divisor and the second agrees with
it: the divisor is positive or divides, `i64::MIN % -1` is left out, and on
operands of 53 bits no rounding of the float branch shows.
-/
import Rustrapper.Arith.Remainder
import Rustrapper.Lua.Integers
import Rustrapper.Lua.Numbers

namespace Rustrapper
namespace Lua

open Arith.Rounding Arith.Binary64

/-- What `%` should compute on integers: the remainder with the sign of the divisor, in both branches where both take
the operands. -/
structure LuaModulo (R : Rec) (L : Lib) (s : LuaState) (a b : Int64) : Prop where
  integer : R.exec (binop L .mod (.num a) (.num b)) s = .ok (.num (.ofInt (floorMod a.toInt b.toInt))) s
  float : ∀ {x y : Float}, Holds x a.toInt → Holds y b.toInt →
    ∃ f, R.exec (binop L .mod (.float x) (.float y)) s = .ok (.float f) s ∧ Holds f (floorMod a.toInt b.toInt)

/-- The roundings of the float branch leave the remainder: there is none, or the multiple of `b` below `a` and the
remainder have 53 bits and the quotient is not rounded up to the next integer. -/
def Unrounded (a b : ℤ) : Prop :=
  floorMod a b = 0 ∨ (Representable 53 ((a - floorMod a b : ℤ) : ℚ) ∧ Representable 53 (floorMod a b : ℚ) ∧
    rnd 53 ((a : ℚ) / b) < ⌊(a : ℚ) / b⌋ + 1)

/-! ### The integer branch -/

theorem emod_eq_floorMod_iff (a : ℤ) {b : ℤ} (hb : b ≠ 0) : a % b = floorMod a b ↔ 0 < b ∨ b ∣ a := by
  have hnonneg := Int.emod_nonneg a hb
  have hlt := Int.emod_lt_abs a hb
  have hmul := Int.emod_add_mul_ediv a b
  have hadd := floorMod_add a b
  constructor
  · intro h
    by_contra hcon
    obtain ⟨hneg, hdvd⟩ := not_or.mp hcon
    have hb' : 0 < -b := by omega
    have hpos := floorMod_of_pos (-a) hb'
    rw [floorMod_neg_neg, ← h] at hpos
    exact hdvd (Int.dvd_of_emod_eq_zero (by omega))
  · intro h
    -- both are `a` less a multiple of `b`, and no more than `b` apart
    obtain ⟨k, hk⟩ : ∃ k : ℤ, a % b - floorMod a b = k * b := by
      refine ⟨⌊(a : ℚ) / b⌋ - a / b, ?_⟩
      rw [sub_mul, mul_comm (a / b)]
      omega
    rcases h with hpos | hdvd
    · have hfl := floorMod_of_pos a hpos
      rw [abs_of_pos hpos] at hlt
      have hk0 : k = 0 := by
        have h1 : k * b < 1 * b := by omega
        have h2 : -1 * b < k * b := by omega
        have := lt_of_mul_lt_mul_right h1 hpos.le
        have := lt_of_mul_lt_mul_right h2 hpos.le
        omega
      rw [hk0, zero_mul] at hk
      omega
    · have h0 : a % b = 0 := Int.emod_eq_zero_of_dvd hdvd
      rcases floorMod_sign a hb with h' | ⟨-, hsmall⟩
      · rw [h0, h']
      · -- a multiple of `b` below it in size
        rw [h0] at hk ⊢
        have hd : b ∣ floorMod a b := ⟨-k, by rw [mul_neg, mul_comm]; omega⟩
        exact (Int.eq_zero_of_abs_lt_dvd ((abs_dvd _ _).mpr hd) hsmall).symm

theorem toInt_ne_zero {b : Int64} (hb : b ≠ 0) : b.toInt ≠ 0 := fun h => hb (Int64.toInt_inj.mp h)

theorem toInt_ofInt_floorMod (a : Int64) {b : Int64} (hb : b ≠ 0) :
    (Int64.ofInt (floorMod a.toInt b.toInt)).toInt = floorMod a.toInt b.toInt := by
  have hb' := toInt_ne_zero hb
  have hsize := abs_toInt_le b
  have hlo := b.le_toInt
  have hhi := b.toInt_lt
  rcases floorMod_sign a.toInt hb' with h | ⟨-, h⟩
  · rw [h]
    rfl
  · have := abs_lt.mp (lt_of_lt_of_le h hsize)
    exact Int64.toInt_ofInt_of_le (by omega) (by omega)

section
variable {R : Rec} {L : Lib} {s : LuaState} {a b : Int64}

theorem exec_mod_num_iff (hb : b ≠ 0) :
    R.exec (binop L .mod (.num a) (.num b)) s = .ok (.num (.ofInt (floorMod a.toInt b.toInt))) s ↔
      ¬ (a = Int64.minValue ∧ b = -1) ∧ (0 < b.toInt ∨ b.toInt ∣ a.toInt) := by
  have hb' := toInt_ne_zero hb
  rw [exec_binop_num R L .mod rfl]
  by_cases hab : a = Int64.minValue ∧ b = -1
  · obtain ⟨rfl, rfl⟩ := hab
    rw [intArith_overflow (.inr rfl)]
    exact iff_of_false (by simp [arithResult]) fun h => h.1 ⟨rfl, rfl⟩
  rw [intArith_of_divides (.inr rfl) hb hab, and_iff_right hab, ← emod_eq_floorMod_iff _ hb']
  have hexact : (Int64.ofInt (a.toInt % b.toInt)).toInt = a.toInt % b.toInt := by
    have h1 := Int.emod_nonneg a.toInt hb'
    have h2 := lt_of_lt_of_le (Int.emod_lt_abs a.toInt hb') (abs_toInt_le b)
    exact Int64.toInt_ofInt_of_le (by omega) h2
  constructor
  · intro h
    injection h with hval
    injection hval with hnum
    have := congrArg Int64.toInt hnum
    rw [toInt_ofInt_floorMod a hb] at this
    exact hexact.symm.trans this
  · intro h
    change EStateM.Result.ok (Value.num (.ofInt (a.toInt % b.toInt))) s = _
    rw [h]

/-! ### The float branch -/

theorem exec_mod_float (x y : Float) :
    R.exec (binop L .mod (.float x) (.float y)) s = .ok (.float (x - floatFloor (x / y) * y)) s := rfl

theorem fits_quotient (a : Int64) {b : Int64} (hb : b ≠ 0) : Arith.Binary64.Fits ((a.toInt : ℚ) / b.toInt) := by
  have hb' := toInt_ne_zero hb
  by_cases ha : a.toInt = 0
  · exact .inl (by rw [ha, Int.cast_zero, zero_div])
  have h1 : (1 : ℚ) ≤ |(a.toInt : ℚ)| := by exact_mod_cast Int.one_le_abs ha
  have h2 : |(a.toInt : ℚ)| ≤ 2 ^ (63 : ℤ) := by exact_mod_cast abs_toInt_le a
  have h3 : (1 : ℚ) ≤ |(b.toInt : ℚ)| := by exact_mod_cast Int.one_le_abs hb'
  have h4 : |(b.toInt : ℚ)| ≤ 2 ^ (63 : ℤ) := by exact_mod_cast abs_toInt_le b
  have hpos : (0 : ℚ) < |(b.toInt : ℚ)| := by linarith
  refine .inr ⟨?_, ?_⟩ <;> rw [abs_div]
  · rw [le_div_iff₀ hpos]
    calc (2 : ℚ) ^ (-1022 : ℤ) * |(b.toInt : ℚ)| ≤ 2 ^ (-1022 : ℤ) * 2 ^ (63 : ℤ) := by gcongr
      _ = 2 ^ (-959 : ℤ) := by
        rw [← zpow_add₀ (by norm_num)]
        norm_num
      _ ≤ 1 := zpow_le_one_of_nonpos₀ (by norm_num) (by norm_num)
      _ ≤ |(a.toInt : ℚ)| := h1
  · rw [div_lt_iff₀ hpos]
    calc |(a.toInt : ℚ)| ≤ 2 ^ (63 : ℤ) := h2
      _ < 2 ^ (1023 : ℤ) := zpow_lt_zpow_right₀ (by norm_num) (by norm_num)
      _ = 2 ^ (1023 : ℤ) * 1 := (mul_one _).symm
      _ ≤ 2 ^ (1023 : ℤ) * |(b.toInt : ℚ)| := by gcongr

theorem abs_quotient_le (a : Int64) {b : Int64} (hb : b ≠ 0) : |(a.toInt : ℚ) / b.toInt| ≤ 2 ^ 63 := by
  have hb' := toInt_ne_zero hb
  have h2 : |(a.toInt : ℚ)| ≤ 2 ^ 63 := by exact_mod_cast abs_toInt_le a
  have h3 : (1 : ℚ) ≤ |(b.toInt : ℚ)| := by exact_mod_cast Int.one_le_abs hb'
  rw [abs_div]
  exact (div_le_self (abs_nonneg _) h3).trans h2

theorem abs_floor_le {x : ℚ} {n : ℕ} (h : |x| ≤ n) : |⌊x⌋| ≤ n := by
  obtain ⟨h1, h2⟩ := abs_le.mp h
  refine abs_le.mpr ⟨Int.le_floor.mpr (by push_cast; exact h1), ?_⟩
  have : (⌊x⌋ : ℚ) ≤ n := (Int.floor_le x).trans h2
  exact_mod_cast this

/-- **The float branch computes the rounded remainder.** -/
theorem holds_mod {x y : Float} (hx : Holds x a.toInt) (hy : Holds y b.toInt) (hb : b ≠ 0) :
    Holds (x - floatFloor (x / y) * y) (rndMod 53 a.toInt b.toInt) := by
  have hb' : (b.toInt : ℚ) ≠ 0 := by exact_mod_cast toInt_ne_zero hb
  have habs : |rnd 53 ((a.toInt : ℚ) / b.toInt)| ≤ 2 ^ 63 := abs_rnd_le (abs_quotient_le a hb)
  have hquot := holds_floatFloor (hx.div hy hb' (fits_quotient a hb)) habs
  have hprod : |⌊rnd 53 ((a.toInt : ℚ) / b.toInt)⌋ * b.toInt| ≤ 2 ^ 126 := by
    have h1 : |⌊rnd 53 ((a.toInt : ℚ) / b.toInt)⌋| ≤ 2 ^ 63 := by
      exact_mod_cast @abs_floor_le _ (2 ^ 63) (by exact_mod_cast habs)
    have h2 := abs_toInt_le b
    rw [abs_mul]
    calc |⌊rnd 53 ((a.toInt : ℚ) / b.toInt)⌋| * |b.toInt| ≤ 2 ^ 63 * 2 ^ 63 := by gcongr
      _ = 2 ^ 126 := by norm_num
  have hmul := hquot.mul hy (by
    rw [← Int.cast_mul]
    exact fits_int (hprod.trans (by norm_num)))
  obtain ⟨k, hk⟩ := int_rnd (⌊rnd 53 ((a.toInt : ℚ) / b.toInt)⌋ * b.toInt)
  have hkle : |k| ≤ 2 ^ 126 := by
    have hcast : |((⌊rnd 53 ((a.toInt : ℚ) / b.toInt)⌋ * b.toInt : ℤ) : ℚ)| ≤ 2 ^ (126 : ℤ) := by
      rw [← Int.cast_abs]
      exact_mod_cast (Int.cast_le (R := ℚ)).mpr hprod
    have := abs_rnd_le_two_zpow (p := 53) (by norm_num) hcast
    rw [hk] at this
    exact_mod_cast this
  rw [Int.cast_mul] at hk
  refine hx.sub hmul ?_
  rw [hk, ← Int.cast_sub]
  refine fits_int ?_
  calc |a.toInt - k| ≤ |a.toInt| + |k| := abs_sub _ _
    _ ≤ 2 ^ 63 + 2 ^ 126 := add_le_add (abs_toInt_le a) hkle
    _ ≤ 2 ^ 128 := by norm_num

theorem mod_float_iff (hb : b ≠ 0) :
    (∀ {x y : Float}, Holds x a.toInt → Holds y b.toInt →
      ∃ f, R.exec (binop L .mod (.float x) (.float y)) s = .ok (.float f) s ∧ Holds f (floorMod a.toInt b.toInt)) ↔
      (Representable 53 a.toInt → Representable 53 b.toInt → Unrounded a.toInt b.toInt) := by
  have hb' := toInt_ne_zero hb
  constructor
  · intro h ha hrb
    have hx := holds_f64OfI64 a
    have hy := holds_f64OfI64 b
    rw [ha.rnd_eq (by norm_num)] at hx
    rw [hrb.rnd_eq (by norm_num)] at hy
    obtain ⟨f, hrun, hf⟩ := h hx hy
    rw [exec_mod_float] at hrun
    injection hrun with hval
    injection hval with hfloat
    have heq := (holds_mod hx hy hb).unique (hfloat.symm ▸ hf)
    exact (rndMod_eq_iff (by norm_num) ha hrb hb').mp heq
  · intro h x y hx hy
    refine ⟨_, exec_mod_float x y, ?_⟩
    have hmod := holds_mod hx hy hb
    rwa [(rndMod_eq_iff (by norm_num) hx.representable hy.representable hb').mpr
      (h hx.representable hy.representable)] at hmod

end

/-! ### Lua's modulo -/

/-- **`%` is Lua's modulo** exactly when the divisor is positive or divides, the operands are not `i64::MIN` and -1,
and on operands of 53 bits the float branch rounds nothing away. -/
theorem lua_modulo_iff (R : Rec) (L : Lib) (s : LuaState) (a : Int64) {b : Int64} (hb : b ≠ 0) :
    LuaModulo R L s a b ↔
      ¬ (a = Int64.minValue ∧ b = -1) ∧ (0 < b.toInt ∨ b.toInt ∣ a.toInt) ∧
        (Representable 53 a.toInt → Representable 53 b.toInt → Unrounded a.toInt b.toInt) := by
  rw [← mod_float_iff hb, ← and_assoc, ← exec_mod_num_iff hb]
  exact ⟨fun h => ⟨h.integer, h.float⟩, fun h => ⟨h.1, h.2⟩⟩

/-- `6 % 3` leaves nothing in either branch. -/
theorem six_mod_three : LuaModulo Rec.stuck bareLib {} 6 3 :=
  (lua_modulo_iff Rec.stuck bareLib {} 6 (by decide)).mpr
    ⟨by decide, .inl (by decide), fun _ _ => .inl (by decide +kernel)⟩

/-- `5 % -3` is 2, which is not the remainder with the sign of the divisor. -/
theorem five_mod_minus_three :
    Rec.stuck.exec (binop bareLib .mod (.num 5) (.num (-3))) {} = .ok (.num 2) {} ∧
      floorMod 5 (-3) = -1 ∧ ¬ LuaModulo Rec.stuck bareLib {} 5 (-3) := by
  have hrun : Rec.stuck.exec (binop bareLib .mod (.num 5) (.num (-3))) {} = .ok (.num 2) {} := rfl
  refine ⟨hrun, by decide +kernel, fun h => ?_⟩
  have hsame := hrun.symm.trans h.integer
  injection hsame with hval
  injection hval with hnum
  exact absurd hnum (by decide +kernel)

end Lua
end Rustrapper
