/-
# The numbers behind binary64 operations

`Float` computes on a packed sign, exponent and mantissa. `Holds f v` says that
`f` is the number `v`; the operations on floats that hold numbers then hold the
exact result, rounded to 53 significant bits (`Arith.Rounding.rnd`), as long as
it stays inside the exponent range. Infinities, NaN and the subnormal numbers
hold nothing.
-/
import Mathlib
import Rustrapper.Arith.Rounding

namespace Arith.Binary64

open Float.Model Float.Model.UnpackedFloat Rounding

/-! ### A mantissa with its residual bits -/

/-- The mantissa is the whole part of `y`, and the two bits say where in the unit above it `y` lies. -/
structure Extends (em : ExtendedMantissa) (y : ℚ) : Prop where
  le : (em.mantissa : ℚ) ≤ y
  lt : y < em.mantissa + 1
  roundBit : em.roundBit = true ↔ (em.mantissa : ℚ) + 1 / 2 ≤ y
  stickyBit : em.stickyBit = true ↔ y ≠ em.mantissa ∧ y ≠ em.mantissa + 1 / 2

variable {em : ExtendedMantissa} {y : ℚ}

theorem Extends.floor (h : Extends em y) : ⌊y⌋ = em.mantissa :=
  Int.floor_eq_iff.mpr ⟨by exact_mod_cast h.le, by exact_mod_cast h.lt⟩

theorem Extends.fract (h : Extends em y) : Int.fract y = y - em.mantissa := by
  rw [Int.fract, h.floor]
  norm_cast

theorem Extends.shiftRightOne (h : Extends em y) : Extends em.shiftRightOne (y / 2) := by
  have hdiv : em.mantissa = 2 * (em.mantissa / 2) + em.mantissa % 2 := (Nat.div_add_mod _ _).symm
  have hcast : (em.mantissa : ℚ) = 2 * (em.mantissa / 2 : ℕ) + (em.mantissa % 2 : ℕ) := by exact_mod_cast hdiv
  have hle := h.le
  have hlt := h.lt
  have hround := h.roundBit
  have hsticky := h.stickyBit
  have hor : (em.roundBit || em.stickyBit) = true ↔ y ≠ em.mantissa := by
    rw [Bool.or_eq_true, hround, hsticky]
    constructor
    · rintro (h1 | h1)
      · intro h2
        linarith
      · exact h1.1
    · intro h1
      by_cases h2 : (em.mantissa : ℚ) + 1 / 2 ≤ y
      · exact .inl h2
      · exact .inr ⟨h1, fun h3 => h2 h3.ge⟩
  rcases Nat.mod_two_eq_zero_or_one em.mantissa with hmod | hmod
  all_goals
    rw [hmod] at hcast
    norm_num at hcast
    rw [hcast] at hle hlt hor
  · -- an even mantissa: `y / 2` is below the half
    refine ⟨?_, ?_, ?_, ?_⟩
    · change ((em.mantissa / 2 : ℕ) : ℚ) ≤ y / 2
      linarith
    · change y / 2 < ((em.mantissa / 2 : ℕ) : ℚ) + 1
      linarith
    · change (em.mantissa % 2 != 0) = true ↔ ((em.mantissa / 2 : ℕ) : ℚ) + 1 / 2 ≤ y / 2
      rw [hmod]
      constructor
      · intro h1
        cases h1
      · intro h1
        linarith
    · change (em.roundBit || em.stickyBit) = true ↔
        y / 2 ≠ (em.mantissa / 2 : ℕ) ∧ y / 2 ≠ (em.mantissa / 2 : ℕ) + 1 / 2
      rw [hor]
      constructor
      · intro h1
        refine ⟨fun h2 => h1 ?_, fun h2 => ?_⟩ <;> linarith
      · intro h1 h2
        exact h1.1 (by linarith)
  · -- an odd one: `y / 2` is at the half or above it
    refine ⟨?_, ?_, ?_, ?_⟩
    · change ((em.mantissa / 2 : ℕ) : ℚ) ≤ y / 2
      linarith
    · change y / 2 < ((em.mantissa / 2 : ℕ) : ℚ) + 1
      linarith
    · change (em.mantissa % 2 != 0) = true ↔ ((em.mantissa / 2 : ℕ) : ℚ) + 1 / 2 ≤ y / 2
      rw [hmod]
      exact ⟨fun _ => by linarith, fun _ => rfl⟩
    · change (em.roundBit || em.stickyBit) = true ↔
        y / 2 ≠ (em.mantissa / 2 : ℕ) ∧ y / 2 ≠ (em.mantissa / 2 : ℕ) + 1 / 2
      rw [hor]
      constructor
      · intro h1
        refine ⟨fun h2 => ?_, fun h2 => h1 ?_⟩ <;> linarith
      · intro h1 h2
        exact h1.2 (by linarith)

theorem Extends.shiftRight (h : Extends em y) (k : ℕ) : Extends (em >>> k) (y / 2 ^ k) := by
  induction k with
  | zero =>
    rw [pow_zero, div_one]
    exact h
  | succ k ih =>
    rw [pow_succ, ← div_div]
    exact ih.shiftRightOne

/-- **The residual bits decide the rounding.** -/
theorem Extends.roundedMantissa (h : Extends em y) : (em.roundedMantissa : ℤ) = roundEven y := by
  obtain ⟨m, r, s⟩ := em
  have hround := h.roundBit
  have hsticky := h.stickyBit
  have hle := h.le
  unfold roundEven
  rw [h.fract, h.floor]
  dsimp only at hround hsticky hle ⊢
  cases r <;> cases s
  · have hy : y = m := by
      by_contra hne
      have h1 : ¬((m : ℚ) + 1 / 2 ≤ y) := by simpa using hround
      have h2 : ¬(y ≠ m ∧ y ≠ m + 1 / 2) := by simpa using hsticky
      exact h2 ⟨hne, fun h3 => h1 h3.ge⟩
    rw [if_pos (by rw [hy]; norm_num)]
    rfl
  · have h1 : ¬((m : ℚ) + 1 / 2 ≤ y) := by simpa using hround
    rw [if_pos (by linarith)]
    rfl
  · have h1 : (m : ℚ) + 1 / 2 ≤ y := by simpa using hround
    have h2 : ¬(y ≠ m ∧ y ≠ m + 1 / 2) := by simpa using hsticky
    have hy : y = m + 1 / 2 := by
      by_contra hne
      exact h2 ⟨fun h3 => by linarith, hne⟩
    rw [if_neg (by rw [hy]; norm_num), if_neg (by rw [hy]; norm_num)]
    change ((m + m % 2 : ℕ) : ℤ) = _
    split_ifs with he
    · have := Int.even_coe_nat m |>.mp he
      rw [Nat.even_iff.mp this, Nat.add_zero]
    · have := fun h => he (Int.even_coe_nat m |>.mpr h)
      rw [Nat.not_even_iff.mp this]
      push_cast
      rfl
  · have h1 : (m : ℚ) + 1 / 2 ≤ y := by simpa using hround
    have h2 : y ≠ m ∧ y ≠ m + 1 / 2 := by simpa using hsticky
    have h3 : (m : ℚ) + 1 / 2 < y := lt_of_le_of_ne h1 (Ne.symm h2.2)
    rw [if_neg (by linarith), if_pos (by linarith)]
    rfl

theorem extends_exact (m : ℕ) : Extends (.ofMantissaAndAccuracy m .exact) m := by
  refine ⟨le_rfl, by simp [ExtendedMantissa.ofMantissaAndAccuracy], ?_, ?_⟩ <;>
    simp [ExtendedMantissa.ofMantissaAndAccuracy]

theorem extends_fraction (m : ℕ) {d : ℕ} (hd : 0 < d) :
    Extends (.ofMantissaAndAccuracy (m / d) (accuracyOfFraction (m % d) d)) ((m : ℚ) / d) := by
  have hd' : (0 : ℚ) < d := by exact_mod_cast hd
  have hq : (m : ℚ) / d = (m / d : ℕ) + (m % d : ℕ) / d := by
    have : (m : ℚ) = d * (m / d : ℕ) + (m % d : ℕ) := by exact_mod_cast (Nat.div_add_mod m d).symm
    field_simp
    linarith
  have hmod : ((m % d : ℕ) : ℚ) / d < 1 := by
    rw [div_lt_one hd']
    exact_mod_cast Nat.mod_lt m hd
  have hhalf : 2 * (((m % d : ℕ) : ℚ) / d) = (2 * (m % d) : ℕ) / d := by
    push_cast
    ring
  rw [hq]
  by_cases hz : m % d = 0
  · rw [accuracyOfFraction, if_pos hz, hz, Nat.cast_zero, zero_div, add_zero]
    exact extends_exact _
  have hpos : (0 : ℚ) < ((m % d : ℕ) : ℚ) / d := div_pos (by exact_mod_cast Nat.pos_of_ne_zero hz) hd'
  rw [accuracyOfFraction, if_neg hz]
  rcases lt_trichotomy (2 * (m % d)) d with h | h | h
  · have : 2 * (((m % d : ℕ) : ℚ) / d) < 1 := by
      rw [hhalf, div_lt_one hd']
      exact_mod_cast h
    rw [Nat.compare_eq_lt.mpr h]
    refine ⟨?_, ?_, ⟨fun h => ?_, fun h => ?_⟩, ⟨fun _ => ⟨fun h => ?_, fun h => ?_⟩, fun _ => rfl⟩⟩ <;>
      simp only [ExtendedMantissa.ofMantissaAndAccuracy, Bool.false_eq_true] at * <;> linarith
  · have : 2 * (((m % d : ℕ) : ℚ) / d) = 1 := by rw [hhalf, h, div_self hd'.ne']
    rw [Nat.compare_eq_eq.mpr h]
    refine ⟨?_, ?_, ⟨fun h => ?_, fun h => rfl⟩, ⟨fun h => ?_, fun h => ?_⟩⟩
    · change ((m / d : ℕ) : ℚ) ≤ _
      linarith
    · change _ < ((m / d : ℕ) : ℚ) + 1
      linarith
    · change ((m / d : ℕ) : ℚ) + 1 / 2 ≤ _
      linarith
    · cases h
    · refine absurd ?_ h.2
      change _ = ((m / d : ℕ) : ℚ) + 1 / 2
      linarith
  · have : 1 < 2 * (((m % d : ℕ) : ℚ) / d) := by
      rw [hhalf, one_lt_div hd']
      exact_mod_cast h
    rw [Nat.compare_eq_gt.mpr h]
    refine ⟨?_, ?_, ⟨fun h => ?_, fun h => rfl⟩, ⟨fun _ => ⟨fun h => ?_, fun h => ?_⟩, fun _ => rfl⟩⟩ <;>
      simp only [ExtendedMantissa.ofMantissaAndAccuracy] at * <;> linarith

/-! ### The value of a float -/

/-- The factor of a sign. -/
def sgn (s : Sign) : ℚ := s.apply 1

theorem apply_eq (s : Sign) (n : ℤ) : (s.apply n : ℚ) = sgn s * n := by
  cases s <;> simp [sgn, Sign.apply]

theorem rnd_sgn (s : Sign) (x : ℚ) : rnd 53 (sgn s * x) = sgn s * rnd 53 x := by
  cases s <;> simp [sgn, Sign.apply, rnd_neg]

theorem sgn_neg (s : Sign) : sgn (-s) = -sgn s := by
  cases s <;> rfl

theorem sgn_mul (s t : Sign) : sgn (s * t) = sgn s * sgn t := by
  cases s <;> cases t <;> decide +kernel

theorem sgn_div (s t : Sign) : sgn (s / t) = sgn s / sgn t := by
  cases s <;> cases t <;> decide +kernel

/-- An unpacked float with an implicit bit, or zero, and its value. -/
inductive Stores : UnpackedFloat → ℚ → Prop where
  | zero (s : Sign) : Stores (.zero s) 0
  | finite (s : Sign) (m : ℕ) (e : ℤ) (hpos : 0 < m) (hlo : 2 ^ 52 ≤ m) (hhi : m < 2 ^ 53) (hemin : -1074 ≤ e)
      (hemax : e ≤ 971) : Stores (.finite s m e hpos) (sgn s * (m * 2 ^ e))

/-- The float is the number. -/
def Holds (f : Float) (v : ℚ) : Prop := Stores f.toModel.unpack v

/-- The numbers whose rounding has an exponent the format has. -/
def InRange (x : ℚ) : Prop := 2 ^ (-1022 : ℤ) ≤ |x| ∧ |x| < 2 ^ (1023 : ℤ)

/-! ### Rounding an exact result -/

theorem log_eq_of {x : ℚ} {k : ℤ} (hlo : 2 ^ k ≤ x) (hhi : x < 2 ^ (k + 1)) : Int.log 2 x = k := by
  have hx : 0 < x := (two_zpow_pos k).trans_le hlo
  have h1 : k ≤ Int.log 2 x := (Int.zpow_le_iff_le_log (by norm_num) hx).mp (by exact_mod_cast hlo)
  have h2 : Int.log 2 x < k + 1 := (Int.lt_zpow_iff_log_lt (by norm_num) hx).mp (by exact_mod_cast hhi)
  omega

theorem targetExponent_eq (m : ℕ) (e : ℤ) :
    Format.binary64.targetExponent (totalExponent m e) = max (m.log2 + e - 52) (-1074) := by
  unfold Format.targetExponent totalExponent
  have : Format.binary64.minExponent = -1074 := rfl
  have : (Format.binary64.mantissaBits : ℤ) = 53 := rfl
  omega

/-- What `roundWithAccuracy` does last. -/
def finish (s : Sign) (a : ExtendedMantissa × ℤ) : UnpackedFloat :=
  if h : a.1.mantissa = 0 then .zero s else .finite s a.1.mantissa a.2 (Nat.pos_of_ne_zero h)

theorem stores_finish (s : Sign) {a : ExtendedMantissa × ℤ} (hlo : 2 ^ 52 ≤ a.1.mantissa)
    (hhi : a.1.mantissa < 2 ^ 53) (hemin : -1074 ≤ a.2) (hemax : a.2 ≤ 971) : Stores (finish s a) (sgn s * (a.1.mantissa * 2 ^ a.2)) := by
  rw [finish, dif_neg (by omega)]
  exact .finite s _ _ _ hlo hhi hemin hemax

/-- A rounded mantissa takes 53 bits, or it is the next power of two and moves by one place. -/
theorem stores_carry (s : Sign) {r : ℕ} {e : ℤ} (hlo : 2 ^ 52 ≤ r) (hhi : r ≤ 2 ^ 53) (hemin : -1074 ≤ e)
    (hemax : e ≤ 970) :
    Stores (finish s (shiftToTargetExponent Format.binary64 r e .exact)) (sgn s * (r * 2 ^ e)) := by
  rcases hhi.lt_or_eq with hlt | rfl
  · have hlog : r.log2 = 52 := by
      have h1 := (Nat.le_log2 (by omega)).mpr hlo
      have h2 := (Nat.log2_lt (by omega)).mpr hlt
      omega
    have hshift : shiftToTargetExponent Format.binary64 r e .exact = (.ofMantissaAndAccuracy r .exact, e) := by
      unfold shiftToTargetExponent shiftToExponent
      have hk : (Format.binary64.targetExponent (totalExponent r e) - e).toNat = 0 := by
        rw [targetExponent_eq, hlog]
        omega
      dsimp only
      rw [hk]
      exact Prod.ext rfl (add_zero e)
    rw [hshift]
    exact stores_finish s hlo hlt hemin (by dsimp only; omega)
  · have hshift : shiftToTargetExponent Format.binary64 (2 ^ 53) e .exact = (⟨2 ^ 52, false, false⟩, e + 1) := by
      unfold shiftToTargetExponent shiftToExponent
      have hk : (Format.binary64.targetExponent (totalExponent (2 ^ 53) e) - e).toNat = 1 := by
        rw [targetExponent_eq, Nat.log2_two_pow]
        omega
      dsimp only
      rw [hk]
      rfl
    rw [hshift]
    have hval : (((2 ^ 53 : ℕ) : ℚ) * 2 ^ e) = ((2 ^ 52 : ℕ) : ℚ) * 2 ^ (e + 1) := by
      rw [zpow_add₀ (by norm_num)]
      push_cast
      ring
    rw [hval]
    exact @stores_finish s (⟨2 ^ 52, false, false⟩, e + 1) (le_refl _) (by norm_num) (by dsimp only; omega)
      (by dsimp only; omega)

theorem InRange.abs_pos {x : ℚ} (h : InRange x) : 0 < |x| := (two_zpow_pos _).trans_le h.1

theorem lastPlace_inRange {x : ℚ} (h : InRange x) : -1074 ≤ lastPlace 53 x ∧ lastPlace 53 x ≤ 970 := by
  have hx := h.abs_pos
  have h1 : -1022 ≤ Int.log 2 |x| := (Int.zpow_le_iff_le_log (by norm_num) hx).mp (by exact_mod_cast h.1)
  have h2 : Int.log 2 |x| < 1023 := (Int.lt_zpow_iff_log_lt (by norm_num) hx).mp (by exact_mod_cast h.2)
  unfold lastPlace
  push_cast
  omega

/-- The whole part of a number has its logarithm. -/
theorem log_whole {m : ℕ} (hm : 1 ≤ m) (hle : (m : ℚ) ≤ y) (hlt : y < m + 1) (e : ℤ) :
    Int.log 2 (y * 2 ^ e) = m.log2 + e := by
  have h1 : 2 ^ m.log2 ≤ m := (Nat.le_log2 (by omega)).mp le_rfl
  have h2 : m + 1 ≤ 2 ^ (m.log2 + 1) := Nat.lt_log2_self
  have h1' : (2 : ℚ) ^ m.log2 ≤ m := by exact_mod_cast h1
  have h2' : (m : ℚ) + 1 ≤ 2 ^ (m.log2 + 1) := by exact_mod_cast h2
  have := two_zpow_pos e
  apply log_eq_of
  · rw [zpow_add₀ (by norm_num), zpow_natCast]
    gcongr
    linarith
  · rw [show ((m.log2 : ℤ) + e + 1) = ((m.log2 + 1 : ℕ) : ℤ) + e by push_cast; ring, zpow_add₀ (by norm_num),
      zpow_natCast]
    gcongr
    linarith

theorem targetExponent_inRange {m : ℕ} (hm : 1 ≤ m) (hle : (m : ℚ) ≤ y) (hlt : y < m + 1) {e : ℤ}
    (hr : InRange (y * 2 ^ e)) :
    Format.binary64.targetExponent (totalExponent m e) = lastPlace 53 (y * 2 ^ e) := by
  obtain ⟨hmin, -⟩ := lastPlace_inRange hr
  have hy : 0 ≤ y := le_trans (by positivity) hle
  have habs : |y * 2 ^ e| = y * 2 ^ e := abs_of_nonneg (mul_nonneg hy (two_zpow_pos e).le)
  rw [targetExponent_eq]
  rw [lastPlace, habs, log_whole hm hle hlt] at hmin ⊢
  push_cast at hmin ⊢
  omega

/-- Where the unit is no larger than the last place, the whole part has all the bits. -/
theorem two_pow_le_of_lastPlace {e : ℤ} (hx : 0 < y * 2 ^ e) (he : e ≤ lastPlace 53 (y * 2 ^ e)) : (2 : ℚ) ^ 52 ≤ y := by
  have h : (2 : ℚ) ^ (52 : ℕ) * 2 ^ e ≤ y * 2 ^ e := by
    calc (2 : ℚ) ^ (52 : ℕ) * 2 ^ e = 2 ^ (((52 : ℕ) : ℤ) + e) := by rw [zpow_add₀ (by norm_num), zpow_natCast]
      _ ≤ 2 ^ Int.log 2 (y * 2 ^ e) := by
        refine zpow_le_zpow_right₀ (by norm_num) ?_
        rw [lastPlace, abs_of_pos hx] at he
        push_cast at he ⊢
        omega
      _ ≤ y * 2 ^ e := by exact_mod_cast Int.zpow_log_le_self (b := 2) (by norm_num) hx
  exact le_of_mul_le_mul_right h (two_zpow_pos e)

/-- **A mantissa that is exact, or says where the rest of it lies, is rounded right.** -/
theorem stores_roundWithAccuracy (s : Sign) {m : ℕ} {e : ℤ} {acc : Accuracy} {y : ℚ}
    (hy : Extends (.ofMantissaAndAccuracy m acc) y) (hr : InRange (y * 2 ^ e)) (he : e ≤ lastPlace 53 (y * 2 ^ e)) :
    Stores (roundWithAccuracy Format.binary64 s m e acc) (sgn s * rnd 53 (y * 2 ^ e)) := by
  obtain ⟨hmin, hmax⟩ := lastPlace_inRange hr
  have hm : (ExtendedMantissa.ofMantissaAndAccuracy m acc).mantissa = m := by
    rcases acc with _ | (_ | _ | _) <;> rfl
  have hle := hy.le
  have hlt := hy.lt
  rw [hm] at hle hlt
  have hy0 : 0 ≤ y := le_trans (by positivity) hle
  have habs : |y * 2 ^ e| = y * 2 ^ e := abs_of_nonneg (mul_nonneg hy0 (two_zpow_pos e).le)
  have hx : 0 < y * 2 ^ e := by
    rw [← habs]
    exact hr.abs_pos
  have hybig := two_pow_le_of_lastPlace hx he
  have hmbig : 2 ^ 52 ≤ m := by
    by_contra hcon
    have : m + 1 ≤ 2 ^ 52 := by omega
    have : ((m + 1 : ℕ) : ℚ) ≤ 2 ^ 52 := by exact_mod_cast this
    push_cast at this
    linarith
  have htarget := targetExponent_inRange (by omega) hle hlt hr
  obtain ⟨k, hk⟩ : ∃ k : ℕ, lastPlace 53 (y * 2 ^ e) = e + k := ⟨(lastPlace 53 (y * 2 ^ e) - e).toNat, by omega⟩
  have hround := (hy.shiftRight k).roundedMantissa
  have hscale : y / 2 ^ k = y * 2 ^ e / 2 ^ lastPlace 53 (y * 2 ^ e) := by
    rw [hk, zpow_add₀ (by norm_num), zpow_natCast]
    have := two_zpow_pos e
    field_simp
  rw [hscale] at hround
  have hshift : shiftToTargetExponent Format.binary64 m e acc =
      (ExtendedMantissa.ofMantissaAndAccuracy m acc >>> k, lastPlace 53 (y * 2 ^ e)) := by
    unfold shiftToTargetExponent shiftToExponent
    rw [htarget]
    dsimp only
    rw [show (lastPlace 53 (y * 2 ^ e) - e).toNat = k by omega, hk]
  have hfin : roundWithAccuracy Format.binary64 s m e acc = finish s (shiftToTargetExponent Format.binary64
      (ExtendedMantissa.ofMantissaAndAccuracy m acc >>> k).roundedMantissa (lastPlace 53 (y * 2 ^ e)) .exact) := by
    unfold roundWithAccuracy
    rw [hshift]
    rfl
  have hlow : ((2 ^ 52 : ℕ) : ℤ) ≤ roundEven (y * 2 ^ e / 2 ^ lastPlace 53 (y * 2 ^ e)) := by
    refine le_roundEven ?_
    have := le_abs_div (p := 53) hx.ne' (by norm_num)
    rw [habs] at this
    exact_mod_cast this
  have hhigh : roundEven (y * 2 ^ e / 2 ^ lastPlace 53 (y * 2 ^ e)) ≤ ((2 ^ 53 : ℕ) : ℤ) := by
    refine roundEven_le ?_
    have := abs_div_lt (p := 53) (y * 2 ^ e)
    rw [habs] at this
    exact_mod_cast this.le
  rw [hfin]
  rw [← hround] at hlow hhigh
  have hval : ((ExtendedMantissa.ofMantissaAndAccuracy m acc >>> k).roundedMantissa : ℚ) *
      2 ^ lastPlace 53 (y * 2 ^ e) = rnd 53 (y * 2 ^ e) := by
    rw [rnd, ← hround]
    norm_cast
  rw [← hval]
  exact stores_carry s (by exact_mod_cast hlow) (by exact_mod_cast hhigh) hmin hmax

/-! ### Packing -/

theorem unpackSign_packComponents (s : Sign) (e : BitVec 11) (m : BitVec 52) :
    unpackSign (packComponents Format.binary64 s e m) = s.toBitVec := by
  apply BitVec.eq_of_getLsbD_eq
  intro i hi
  obtain rfl : i = 0 := by omega
  unfold unpackSign packComponents
  rw [BitVec.getLsbD_cast, BitVec.getLsbD_extractLsb]
  change (decide (0 ≤ 63 - 63) && (s.toBitVec ++ e ++ m).getLsbD 63) = _
  rw [BitVec.getLsbD_append, BitVec.getLsbD_append]
  simp
theorem ofBitVec_toBitVec (s : Sign) : Sign.ofBitVec s.toBitVec = s := by
  cases s <;> rfl

theorem implicit_pos {w : ℕ} (m : BitVec w) : 0 < (1#1 ++ m).toNat := by
  simp

theorem unpack_packComponents (s : Sign) (e : BitVec 11) (m : BitVec 52) :
    UnpackedFloat.unpack Format.binary64 (packComponents Format.binary64 s e m) =
      if e = -1#11 then if m = 0#52 then .infinity s else .notANumber
      else if e = 0#11 then
        if h : m = 0#52 then .zero s
        else .finite s m.toNat ((e.toNat : ℤ) - (1023 + 52) + 1) (by simpa [BitVec.toNat_pos, BitVec.pos_iff_ne_zero])
      else .finite s (1#1 ++ m).toNat ((e.toNat : ℤ) - (1023 + 52)) (implicit_pos m) := by
  have hsign := ofBitVec_toBitVec s
  rw [← unpackSign_packComponents s e m] at hsign
  have hexp : unpackExponent (packComponents Format.binary64 s e m) = e :=
    @unpackExponent_packComponents Format.binary64 s e m
  have hman : unpackMantissa (packComponents Format.binary64 s e m) = m :=
    @unpackMantissa_packComponents Format.binary64 s e m
  unfold UnpackedFloat.unpack
  dsimp only
  simp only [hsign, hexp, hman]
  rfl

theorem toNat_implicit {m : ℕ} (hlo : 2 ^ 52 ≤ m) (hhi : m < 2 ^ 53) : (1#1 ++ BitVec.ofNat 52 m).toNat = m := by
  rw [BitVec.toNat_append, ← Nat.shiftLeft_add_eq_or_of_lt (BitVec.isLt _), BitVec.toNat_ofNat, BitVec.toNat_ofNat,
    Nat.shiftLeft_eq]
  omega

/-- **What has an implicit bit, or is zero, comes back from its bits.** -/
theorem Stores.unpack_pack {u : UnpackedFloat} {v : ℚ} (h : Stores u v) :
    UnpackedFloat.unpack Format.binary64 (UnpackedFloat.pack Format.binary64 u) = u := by
  rcases h with s | ⟨s, m, e, hpos, hlo, hhi, hemin, hemax⟩
  · change UnpackedFloat.unpack Format.binary64 (packComponents Format.binary64 s 0#11 0#52) = _
    rw [unpack_packComponents, if_neg (by decide), if_pos rfl, dif_pos rfl]
  · have hlog : m.log2 + 1 = Format.binary64.mantissaBits := by
      have h1 := (Nat.le_log2 (by omega)).mpr hlo
      have h2 := (Nat.log2_lt (by omega)).mpr hhi
      change m.log2 + 1 = 53
      omega
    obtain ⟨b, hb⟩ : ∃ b : ℕ, (b : ℤ) = e + 1023 + 52 := ⟨(e + 1023 + 52).toNat, by omega⟩
    have hbias : (e + Format.binary64.exponentBias + Format.binary64.mantissaBitsWithoutImplicit).toNat = b := by
      change (e + 1023 + 52).toNat = b
      omega
    have hpack : UnpackedFloat.pack Format.binary64 (.finite s m e hpos) =
        packComponents Format.binary64 s (BitVec.ofNat 11 b) (BitVec.ofNat 52 m) := by
      unfold UnpackedFloat.pack
      dsimp only
      rw [hbias, if_neg (by change ¬(2048 ≤ b + 1); omega), if_pos hlog]
    have hexp : (BitVec.ofNat 11 b).toNat = b := by
      rw [BitVec.toNat_ofNat]
      omega
    have hne1 : BitVec.ofNat 11 b ≠ -1#11 := by
      intro h
      have := congrArg BitVec.toNat h
      rw [hexp] at this
      change b = 2047 at this
      omega
    have hne0 : BitVec.ofNat 11 b ≠ 0#11 := by
      intro h
      have := congrArg BitVec.toNat h
      rw [hexp] at this
      change b = 0 at this
      omega
    rw [hpack, unpack_packComponents, if_neg hne1, if_neg hne0]
    congr 1
    · exact toNat_implicit hlo hhi
    · rw [hexp]
      omega

theorem Stores.holds {u : UnpackedFloat} {v : ℚ} (h : Stores u v) : Holds (.ofModel (.pack u)) v := by
  unfold Holds
  have : (Float.Model.pack u).unpack = u := h.unpack_pack
  rw [this]
  exact h

/-! ### Normalizing -/

/-- The numbers whose rounding is zero or has an exponent the format has. -/
def Fits (x : ℚ) : Prop := x = 0 ∨ InRange x

theorem inRange_sgn (s : Sign) {x : ℚ} : InRange (sgn s * x) ↔ InRange x := by
  unfold InRange
  cases s <;> simp [sgn, Sign.apply]

theorem lastPlace_le_of_log {x : ℚ} {k : ℤ} (hx : 0 < x) (h : (2 : ℚ) ^ (k + 52) ≤ x) : k ≤ lastPlace 53 x := by
  have : k + 52 ≤ Int.log 2 x := (Int.zpow_le_iff_le_log (by norm_num) hx).mp (by exact_mod_cast h)
  rw [lastPlace, abs_of_pos hx]
  push_cast
  omega

/-- `round` brings the exponent down first, so it takes every exponent. -/
theorem stores_round (s : Sign) {m : ℕ} {e : ℤ} (hm : 1 ≤ m) (hr : InRange ((m : ℚ) * 2 ^ e)) :
    Stores (UnpackedFloat.round Format.binary64 s m e) (sgn s * rnd 53 (m * 2 ^ e)) := by
  have htarget := targetExponent_inRange hm le_rfl (by linarith) hr
  unfold UnpackedFloat.round decreaseExponent
  rw [htarget]
  dsimp only
  obtain ⟨k, hk⟩ : ∃ k : ℕ, (e - lastPlace 53 ((m : ℚ) * 2 ^ e)).toNat = k := ⟨_, rfl⟩
  have hval : ((m <<< k : ℕ) : ℚ) * 2 ^ (e - k) = m * 2 ^ e := by
    rw [Nat.shiftLeft_eq, zpow_sub₀ (by norm_num), zpow_natCast]
    push_cast
    field_simp
  rw [hk]
  have h := stores_roundWithAccuracy s (extends_exact (m <<< k)) (e := e - k)
  rw [hval] at h
  exact h hr (by omega)

theorem stores_normalize {n : ℤ} {e : ℤ} (hr : Fits ((n : ℚ) * 2 ^ e)) :
    Stores (UnpackedFloat.normalize Format.binary64 n e .positive) (rnd 53 (n * 2 ^ e)) := by
  have hz : (2 : ℚ) ^ e ≠ 0 := (two_zpow_pos e).ne'
  unfold UnpackedFloat.normalize
  rcases lt_trichotomy n 0 with h | rfl | h
  · have hr' : InRange ((n : ℚ) * 2 ^ e) := by
      refine hr.resolve_left (mul_ne_zero ?_ hz)
      exact_mod_cast h.ne
    have hcast : (((-n).toNat : ℕ) : ℚ) * 2 ^ e = -(n * 2 ^ e) := by
      have : (((-n).toNat : ℕ) : ℤ) = -n := by omega
      have : (((-n).toNat : ℕ) : ℚ) = -n := by exact_mod_cast this
      rw [this, neg_mul]
    rw [Int.compare_eq_lt.mpr h]
    have h1 : InRange ((((-n).toNat : ℕ) : ℚ) * 2 ^ e) := by
      rw [hcast]
      unfold InRange
      rw [abs_neg]
      exact hr'
    have h2 := stores_round .negative (by omega) h1
    rw [hcast, rnd_neg] at h2
    have h3 : sgn .negative * -rnd 53 (n * 2 ^ e) = rnd 53 (n * 2 ^ e) := by simp [sgn, Sign.apply]
    rw [h3] at h2
    exact h2
  · rw [Int.compare_eq_eq.mpr rfl, Int.cast_zero, zero_mul, rnd_zero]
    exact .zero _
  · have hr' : InRange ((n : ℚ) * 2 ^ e) := by
      refine hr.resolve_left (mul_ne_zero ?_ hz)
      exact_mod_cast h.ne'
    have hcast : ((n.toNat : ℕ) : ℚ) * 2 ^ e = n * 2 ^ e := by
      have : ((n.toNat : ℕ) : ℤ) = n := by omega
      have : ((n.toNat : ℕ) : ℚ) = n := by exact_mod_cast this
      rw [this]
    rw [Int.compare_eq_gt.mpr h]
    have h2 := @stores_round .positive n.toNat e (by omega) (by rw [hcast]; exact hr')
    rw [hcast] at h2
    have h3 : sgn .positive * rnd 53 (n * 2 ^ e) = rnd 53 (n * 2 ^ e) := by simp [sgn, Sign.apply]
    rw [h3] at h2
    exact h2

end Arith.Binary64
