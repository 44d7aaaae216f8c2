/-
# The remainder computed with rounding

`a - floor(a / b) * b` is the remainder with the sign of `b` (`floorMod`).
Computed with rounding after every operation (`rndMod`) it is right exactly when
the quotient does not round up to the next integer and both the multiple of `b`
that is taken away and the remainder have at most `p` significant bits
(`rndMod_eq_iff`).
-/
import Rustrapper.Arith.Rounding

namespace Arith.Rounding

/-! ### The remainder -/

/-- The remainder of the division that rounds down. -/
def floorMod (a b : ℤ) : ℤ := a - ⌊(a : ℚ) / b⌋ * b

theorem floorMod_add (a b : ℤ) : ⌊(a : ℚ) / b⌋ * b + floorMod a b = a := by
  unfold floorMod
  omega

theorem floorMod_neg_neg (a b : ℤ) : floorMod (-a) (-b) = -floorMod a b := by
  unfold floorMod
  rw [Int.cast_neg, Int.cast_neg, neg_div_neg_eq]
  ring

theorem floorMod_of_pos (a : ℤ) {b : ℤ} (hb : 0 < b) : 0 ≤ floorMod a b ∧ floorMod a b < b := by
  have hb' : (0 : ℚ) < b := by exact_mod_cast hb
  have h1 := (le_div_iff₀ hb').mp (Int.floor_le ((a : ℚ) / b))
  have h2 := (div_lt_iff₀ hb').mp (Int.lt_floor_add_one ((a : ℚ) / b))
  have h1' : ⌊(a : ℚ) / b⌋ * b ≤ a := by exact_mod_cast h1
  have h2' : a < (⌊(a : ℚ) / b⌋ + 1) * b := by exact_mod_cast h2
  unfold floorMod
  constructor
  · omega
  · rw [add_mul, one_mul] at h2'
    omega

/-- **The remainder is zero or has the sign of the divisor.** -/
theorem floorMod_sign (a : ℤ) {b : ℤ} (hb : b ≠ 0) :
    floorMod a b = 0 ∨ (floorMod a b).sign = b.sign ∧ |floorMod a b| < |b| := by
  rcases lt_or_gt_of_ne hb with h | h
  · have hpos := floorMod_of_pos (-a) (neg_pos.mpr h)
    rw [floorMod_neg_neg] at hpos
    by_cases h0 : floorMod a b = 0
    · exact .inl h0
    · have hneg : floorMod a b < 0 := by omega
      rw [Int.sign_eq_neg_one_of_neg hneg, Int.sign_eq_neg_one_of_neg h, abs_of_neg hneg, abs_of_neg h]
      exact .inr ⟨rfl, hpos.2⟩
  · have hpos := floorMod_of_pos a h
    by_cases h0 : floorMod a b = 0
    · exact .inl h0
    · have hgt : 0 < floorMod a b := by omega
      rw [Int.sign_eq_one_of_pos hgt, Int.sign_eq_one_of_pos h, abs_of_pos hgt, abs_of_pos h]
      exact .inr ⟨rfl, hpos.2⟩

section Precision
variable (p : ℕ)

/-- The remainder with every operation rounded. -/
def rndMod (a b : ℚ) : ℚ := rnd p (a - rnd p (⌊rnd p (a / b)⌋ * b))

variable {p} {x y : ℚ}

theorem rndMod_neg_neg (a b : ℚ) : rndMod p (-a) (-b) = -rndMod p a b := by
  unfold rndMod
  rw [neg_div_neg_eq, mul_neg, rnd_neg, sub_neg_eq_add, neg_add_eq_sub, ← neg_sub, rnd_neg]

/-! ### Multiples of a power of two -/

/-- A number with at most `p` bits, written with fewer than `2 ^ p` units. -/
theorem Representable.strict (hp : 1 ≤ p) (h : Representable p y) : ∃ m e : ℤ, |m| < 2 ^ p ∧ y = m * 2 ^ e := by
  obtain ⟨m, e, hm, rfl⟩ := h
  rcases hm.lt_or_eq with hlt | heq
  · exact ⟨m, e, hlt, rfl⟩
  · -- the unit is doubled
    have hpow : (2 : ℤ) ^ p = 2 * 2 ^ (p - 1) := by
      rw [← pow_succ']
      congr 1
      omega
    obtain ⟨k, hk⟩ : ∃ k : ℤ, m = 2 * k := by
      rcases abs_choice m with h | h
      · exact ⟨2 ^ (p - 1), by rw [← hpow, ← heq, h]⟩
      · exact ⟨-2 ^ (p - 1), by rw [mul_neg, ← hpow, ← heq, h, neg_neg]⟩
    refine ⟨k, e + 1, ?_, ?_⟩
    · rw [hk, abs_mul, abs_two] at heq
      have : (0 : ℤ) < 2 ^ p := by positivity
      omega
    · rw [hk, zpow_add₀ (by norm_num)]
      push_cast
      ring

/-- **A large number with few bits is a multiple of a large power of two.** -/
theorem Representable.multiple (hp : 1 ≤ p) (h : Representable p y) {j : ℤ} (hj : (2 : ℚ) ^ (p + j) ≤ |y|) :
    ∃ n : ℤ, y = n * 2 ^ (j + 1) := by
  obtain ⟨m, e, hm, rfl⟩ := h.strict hp
  have hm' : |(m : ℚ)| < 2 ^ (p : ℤ) := by
    rw [zpow_natCast]
    exact_mod_cast hm
  have he := two_zpow_pos e
  rw [abs_mul, abs_of_pos he] at hj
  have hlt : (2 : ℚ) ^ (p + j) < 2 ^ (p + e) := by
    calc (2 : ℚ) ^ (p + j) ≤ |(m : ℚ)| * 2 ^ e := hj
      _ < 2 ^ (p : ℤ) * 2 ^ e := by gcongr
      _ = 2 ^ (p + e) := (zpow_add₀ (by norm_num) _ _).symm
  have hje : j < e := by
    have := (zpow_lt_zpow_iff_right₀ (by norm_num : (1 : ℚ) < 2)).mp hlt
    omega
  obtain ⟨k, rfl⟩ : ∃ k : ℕ, e = k + (j + 1) := ⟨(e - (j + 1)).toNat, by omega⟩
  refine ⟨m * 2 ^ k, ?_⟩
  rw [zpow_add₀ (by norm_num) (k : ℤ), zpow_natCast]
  push_cast
  ring

/-- Rounding keeps a multiple of a power of two. -/
theorem rnd_multiple (hp : 1 ≤ p) (n : ℤ) (j : ℤ) : ∃ k : ℤ, rnd p (n * 2 ^ j) = k * 2 ^ j := by
  rcases le_or_gt |n| (2 ^ p) with h | h
  · exact ⟨n, (representable_units j h).rnd_eq hp⟩
  · have hbig : (2 : ℚ) ^ (p + j) ≤ |(n : ℚ) * 2 ^ j| := by
      have : (2 : ℚ) ^ (p : ℤ) ≤ |(n : ℚ)| := by
        rw [zpow_natCast]
        exact_mod_cast h.le
      have hj := two_zpow_pos j
      rw [abs_mul, abs_of_pos hj, zpow_add₀ (by norm_num)]
      gcongr
    obtain ⟨k, hk⟩ := (representable_rnd _).multiple hp (two_zpow_le_abs_rnd hp hbig)
    refine ⟨2 * k, ?_⟩
    rw [hk, zpow_add₀ (by norm_num)]
    push_cast
    ring

/-- Two multiples of a unit are not rounded to one another when the result has bits left. -/
theorem eq_of_rnd_units (hp : 1 ≤ p) {i k j : ℤ} (hk0 : 0 < k) (hkp : k < 2 ^ p)
    (h : rnd p ((i : ℚ) * 2 ^ j) = k * 2 ^ j) : i = k := by
  have hu := two_zpow_pos j
  have hnext : ∀ c : ℤ, |c| ≤ 1 → Representable p (((k + c : ℤ) : ℚ) * 2 ^ j) := by
    intro c hc
    refine representable_units j ?_
    rw [abs_le] at hc ⊢
    omega
  rcases lt_trichotomy i k with hlt | heq | hgt
  · have hle : (i : ℚ) * 2 ^ j ≤ (k + -1 : ℤ) * 2 ^ j := by
      have : (i : ℚ) ≤ (k + -1 : ℤ) := by exact_mod_cast (by omega : i ≤ k + -1)
      gcongr
    have := rnd_le hp (hnext (-1) (by simp)) hle
    rw [h] at this
    push_cast at this
    nlinarith
  · exact heq
  · have hle : ((k + 1 : ℤ) : ℚ) * 2 ^ j ≤ i * 2 ^ j := by
      have : ((k + 1 : ℤ) : ℚ) ≤ i := by exact_mod_cast (by omega : k + 1 ≤ i)
      gcongr
    have := le_rnd hp (hnext 1 (by simp)) hle
    rw [h] at this
    push_cast at this
    nlinarith

/-! ### Factors of a number with few bits -/

/-- An integer with at most `p` bits has an odd part of at most `p` bits. -/
theorem odd_part_le {n m k : ℕ} (h : Representable p ((n : ℤ) : ℚ)) (hn : n ≠ 0) (hm : Odd m) (hdvd : n = 2 ^ k * m) :
    m ≤ 2 ^ p := by
  obtain ⟨c, e, hc, heq⟩ := h
  have hcabs : (c.natAbs : ℤ) ≤ 2 ^ p := by rwa [Int.natCast_natAbs]
  have hcn : c.natAbs ≤ 2 ^ p := by exact_mod_cast hcabs
  have hc0 : c ≠ 0 := by
    rintro rfl
    rw [Int.cast_zero, zero_mul] at heq
    exact hn (by exact_mod_cast heq)
  rcases le_or_gt 0 e with he | he
  · obtain ⟨i, rfl⟩ : ∃ i : ℕ, e = i := ⟨e.toNat, by omega⟩
    have hint : (n : ℤ) = c * 2 ^ i := by
      rw [zpow_natCast] at heq
      exact_mod_cast heq
    have hnat : n = c.natAbs * 2 ^ i := by
      have := congrArg Int.natAbs hint
      rwa [Int.natAbs_natCast, Int.natAbs_mul, Int.natAbs_pow] at this
    have hdiv : m ∣ c.natAbs * 2 ^ i := ⟨2 ^ k, by rw [← hnat, hdvd, mul_comm]⟩
    have hcop : Nat.Coprime m (2 ^ i) := Nat.Coprime.pow_right i hm.coprime_two_right
    exact (Nat.le_of_dvd (Int.natAbs_pos.mpr hc0) (hcop.dvd_of_dvd_mul_right hdiv)).trans hcn
  · -- the unit is at most one, so the whole number is small
    have hunit : (2 : ℚ) ^ e ≤ 1 := zpow_le_one_of_nonpos₀ (by norm_num) he.le
    have hle : ((n : ℤ) : ℚ) ≤ 2 ^ p := by
      calc ((n : ℤ) : ℚ) = c * 2 ^ e := heq
        _ ≤ |(c : ℚ)| * 2 ^ e := by
          have := two_zpow_pos e
          gcongr
          exact le_abs_self _
        _ ≤ |(c : ℚ)| * 1 := by gcongr
        _ ≤ 2 ^ p := by
          rw [mul_one]
          exact_mod_cast hc
    have hn' : n ≤ 2 ^ p := by exact_mod_cast hle
    calc m ≤ n := by
          rw [hdvd]
          exact Nat.le_mul_of_pos_left m (by positivity)
      _ ≤ 2 ^ p := hn'

/-- **A factor of an integer with at most `p` bits has at most `p` bits.** -/
theorem representable_factor {q b : ℤ} (h : Representable p ((q * b : ℤ) : ℚ)) (hb : b ≠ 0) :
    Representable p (q : ℚ) := by
  by_cases hq : q = 0
  · rw [hq, Int.cast_zero]
    exact representable_zero
  obtain ⟨k, m, hm, hqm⟩ := Nat.exists_eq_two_pow_mul_odd (Int.natAbs_ne_zero.mpr hq)
  obtain ⟨i, l, hl, hbl⟩ := Nat.exists_eq_two_pow_mul_odd (Int.natAbs_ne_zero.mpr hb)
  have hprod : (q * b).natAbs = 2 ^ (k + i) * (m * l) := by
    rw [Int.natAbs_mul, hqm, hbl, pow_add]
    ring
  have hrep : Representable p (((q * b).natAbs : ℤ) : ℚ) := by
    rw [Int.natCast_natAbs]
    rcases abs_choice (q * b) with h' | h' <;> rw [h']
    · exact h
    · rw [Int.cast_neg]
      exact h.neg
  have hle := odd_part_le hrep (Int.natAbs_ne_zero.mpr (mul_ne_zero hq hb)) (hm.mul hl) hprod
  have hm' : m ≤ 2 ^ p := (Nat.le_mul_of_pos_right m hl.pos).trans hle
  have hqm' : |(q : ℤ)| = m * 2 ^ k := by
    rw [← Int.natCast_natAbs, hqm]
    push_cast
    ring
  have habs : Representable p ((m : ℤ) * 2 ^ (k : ℤ) : ℚ) := representable_units _ (by
    rw [abs_of_nonneg (by positivity)]
    exact_mod_cast hm')
  rcases abs_choice q with h' | h'
  · rw [h'] at hqm'
    rw [hqm']
    push_cast at habs ⊢
    exact habs
  · rw [h'] at hqm'
    have hneg : q = -(m * 2 ^ k) := by omega
    rw [hneg]
    push_cast at habs ⊢
    exact habs.neg

/-! ### Rounding and the remainder -/

/-- Where the quotient has at most `p` bits, rounding leaves it in its unit or takes it to the next integer. -/
theorem floor_rnd_of_small (hp : 1 ≤ p) {a b : ℤ} (hq : |(a : ℚ) / b| < 2 ^ p) :
    ⌊rnd p ((a : ℚ) / b)⌋ = ⌊(a : ℚ) / b⌋ ∧ rnd p ((a : ℚ) / b) < ⌊(a : ℚ) / b⌋ + 1 ∨
      ⌊rnd p ((a : ℚ) / b)⌋ = ⌊(a : ℚ) / b⌋ + 1 := by
  obtain ⟨hlo, hhi⟩ := abs_lt.mp hq
  have h1 : -2 ^ p ≤ ⌊(a : ℚ) / b⌋ := Int.le_floor.mpr (by push_cast; exact hlo.le)
  have h2 : ⌊(a : ℚ) / b⌋ < 2 ^ p := Int.floor_lt.mpr (by push_cast; exact hhi)
  have hrep : ∀ z : ℤ, -2 ^ p ≤ z → z ≤ 2 ^ p → Representable p (z : ℚ) := fun z h h' =>
    ⟨z, 0, abs_le.mpr ⟨h, h'⟩, by simp⟩
  have hge := le_rnd hp (hrep _ h1 h2.le) (Int.floor_le ((a : ℚ) / b))
  have hle := rnd_le hp (hrep (⌊(a : ℚ) / b⌋ + 1) (by omega) (by omega))
    (by push_cast; exact (Int.lt_floor_add_one ((a : ℚ) / b)).le)
  rcases hle.lt_or_eq with h | h
  · push_cast at h
    exact .inl ⟨Int.floor_eq_iff.mpr ⟨hge, h⟩, h⟩
  · exact .inr (by rw [h, Int.floor_intCast])

section Positive
variable {a b : ℤ} (hp : 1 ≤ p) (ha : Representable p (a : ℚ)) (hb : 0 < b)
include hp ha hb

/-- A remainder that is left shows in no result once the quotient has more than `p` bits: all that is computed is a
multiple of a power of two above `b`. -/
theorem rndMod_ne_of_large (hr : floorMod a b ≠ 0) (hq : (2 : ℚ) ^ p ≤ |(a : ℚ) / b|) :
    rndMod p a b ≠ floorMod a b := by
  obtain ⟨hr0, hrb⟩ := floorMod_of_pos a hb
  have hb' : (0 : ℚ) < b := by exact_mod_cast hb
  have hlb : (2 : ℚ) ^ Int.log 2 (b : ℚ) ≤ b := by
    exact_mod_cast Int.zpow_log_le_self (b := 2) (by norm_num) hb'
  have hbl : (b : ℚ) < 2 ^ (Int.log 2 (b : ℚ) + 1) := by
    exact_mod_cast Int.lt_zpow_succ_log_self (b := 2) (by norm_num) (b : ℚ)
  generalize Int.log 2 (b : ℚ) = j at hlb hbl
  have hscale : ∀ z : ℚ, (2 : ℚ) ^ p ≤ |z| → (2 : ℚ) ^ (p + j) ≤ |z * b| := by
    intro z hz
    have hj := two_zpow_pos j
    rw [abs_mul, abs_of_pos hb', zpow_add₀ (by norm_num), zpow_natCast]
    gcongr
  have hab : (a : ℚ) = a / b * b := by rw [div_mul_cancel₀ _ hb'.ne']
  obtain ⟨m, hm⟩ := ha.multiple hp (by rw [hab]; exact hscale _ hq)
  have hfloor : (2 : ℚ) ^ p ≤ |((⌊rnd p ((a : ℚ) / b)⌋ : ℤ) : ℚ)| := by
    rw [← zpow_natCast] at hq ⊢
    rcases le_abs.mp hq with h | h
    · have hle := le_rnd hp (representable_two_zpow _) h
      rw [zpow_natCast] at hle ⊢
      have : ((2 ^ p : ℤ)) ≤ ⌊rnd p ((a : ℚ) / b)⌋ := Int.le_floor.mpr (by exact_mod_cast hle)
      exact le_abs.mpr (.inl (by exact_mod_cast this))
    · have hle := le_rnd hp (representable_two_zpow _) h
      rw [rnd_neg] at hle
      have := Int.floor_le (rnd p ((a : ℚ) / b))
      exact le_abs.mpr (.inr (by linarith))
  have hprod : (2 : ℚ) ^ (p + j) ≤ |rnd p (⌊rnd p ((a : ℚ) / b)⌋ * b)| := two_zpow_le_abs_rnd hp (hscale _ hfloor)
  obtain ⟨n, hn⟩ := (representable_rnd _).multiple hp hprod
  obtain ⟨k, hk⟩ := rnd_multiple hp (m - n) (j + 1)
  have hres : rndMod p a b = k * 2 ^ (j + 1) := by
    unfold rndMod
    rw [hn, hm, ← sub_mul, ← hk]
    push_cast
    rfl
  intro heq
  rw [hres] at heq
  have hpos : (0 : ℚ) < floorMod a b := by exact_mod_cast (by omega : 0 < floorMod a b)
  have hless : (floorMod a b : ℚ) < 2 ^ (j + 1) := lt_trans (by exact_mod_cast hrb) hbl
  have hu := two_zpow_pos (j + 1)
  rw [← heq] at hpos hless
  have h0 : 0 < k := by
    have := (mul_pos_iff_of_pos_right hu).mp hpos
    exact_mod_cast this
  have h1 : (1 : ℚ) ≤ k := by exact_mod_cast h0
  have : (1 : ℚ) * 2 ^ (j + 1) ≤ k * 2 ^ (j + 1) := by gcongr
  linarith

/-- A quotient that is rounded up to the next integer leaves nothing above zero. -/
theorem rndMod_nonpos (hup : ⌊rnd p ((a : ℚ) / b)⌋ = ⌊(a : ℚ) / b⌋ + 1) : rndMod p a b ≤ 0 := by
  have hb' : (0 : ℚ) < b := by exact_mod_cast hb
  have hle : (a : ℚ) ≤ (⌊rnd p ((a : ℚ) / b)⌋ : ℤ) * b := by
    rw [hup, ← div_le_iff₀ hb']
    push_cast
    exact (Int.lt_floor_add_one _).le
  have hprod := le_rnd hp ha hle
  exact rnd_le hp representable_zero (by linarith)

/-- The multiple of `b` that is taken away has to have at most `p` bits: otherwise it is rounded by a multiple of the
remainder's last place, and so is what remains. -/
theorem representable_of_rndMod_eq (hbr : Representable p (b : ℚ)) (hr : floorMod a b ≠ 0)
    (hfl : ⌊rnd p ((a : ℚ) / b)⌋ = ⌊(a : ℚ) / b⌋) (h : rndMod p a b = floorMod a b) :
    Representable p ((⌊(a : ℚ) / b⌋ * b : ℤ) : ℚ) := by
  obtain ⟨hr0, hrb⟩ := floorMod_of_pos a hb
  have hadd := floorMod_add a b
  have hrep : Representable p (floorMod a b : ℚ) := by
    rw [← h]
    exact representable_rnd _
  unfold rndMod at h
  rw [hfl] at h
  generalize ⌊(a : ℚ) / b⌋ = q at h hadd ⊢
  generalize floorMod a b = r at *
  by_contra hnot
  have hpos : (0 : ℚ) < r := by exact_mod_cast (by omega : 0 < r)
  have hlr : (2 : ℚ) ^ Int.log 2 (r : ℚ) ≤ r := by
    exact_mod_cast Int.zpow_log_le_self (b := 2) (by norm_num) hpos
  have hrl : (r : ℚ) < 2 ^ (Int.log 2 (r : ℚ) + 1) := by
    exact_mod_cast Int.lt_zpow_succ_log_self (b := 2) (by norm_num) (r : ℚ)
  -- the last place of the remainder is `2 ^ (j + 1)`
  obtain ⟨j, hj⟩ : ∃ j : ℤ, Int.log 2 (r : ℚ) = p + j := ⟨Int.log 2 (r : ℚ) - p, by ring⟩
  rw [hj] at hlr hrl
  have hfar : ∀ z : ℤ, r ≤ |z| → (2 : ℚ) ^ (p + j) ≤ |(z : ℚ)| := fun z hz => hlr.trans (by exact_mod_cast hz)
  have hq0 : q ≠ 0 := by
    rintro rfl
    rw [zero_mul, Int.cast_zero] at hnot
    exact hnot representable_zero
  have hq1 : q ≠ -1 := by
    rintro rfl
    rw [neg_one_mul, Int.cast_neg] at hnot
    exact hnot hbr.neg
  have hbig : r ≤ |q * b| ∧ r ≤ |a| := by
    rcases lt_or_gt_of_ne hq0 with hneg | hgt
    · have : q * b ≤ -2 * b := by
        have : q ≤ -2 := by omega
        gcongr
      exact ⟨le_abs.mpr (.inr (by omega)), le_abs.mpr (.inr (by omega))⟩
    · have : 1 * b ≤ q * b := by
        have : 1 ≤ q := by omega
        gcongr
      exact ⟨le_abs.mpr (.inl (by omega)), le_abs.mpr (.inl (by omega))⟩
  obtain ⟨m, hm⟩ := ha.multiple hp (hfar a hbig.2)
  obtain ⟨n, hn⟩ := (representable_rnd _).multiple hp (two_zpow_le_abs_rnd hp (hfar _ hbig.1))
  obtain ⟨k, hk⟩ := hrep.multiple hp (by rw [abs_of_pos hpos]; exact hlr)
  have hu := two_zpow_pos (j + 1)
  have hsub : (a : ℚ) - rnd p (q * b) = (m - n : ℤ) * 2 ^ (j + 1) := by
    have hn' : rnd p ((q : ℚ) * b) = n * 2 ^ (j + 1) := by exact_mod_cast hn
    rw [hm, hn']
    push_cast
    ring
  have hk0 : 0 < k := by
    rw [hk] at hpos
    have := (mul_pos_iff_of_pos_right hu).mp hpos
    exact_mod_cast this
  have hkp : k < 2 ^ p := by
    rw [hk, add_assoc, zpow_add₀ (by norm_num) (p : ℤ), zpow_natCast] at hrl
    have := lt_of_mul_lt_mul_right hrl hu.le
    exact_mod_cast this
  rw [hsub, hk] at h
  have heq := eq_of_rnd_units hp hk0 hkp h
  -- nothing was rounded away
  refine hnot ((rnd_eq_self_iff hp).mp ?_)
  have h1 : (a : ℚ) = (q * b : ℤ) + r := by exact_mod_cast hadd.symm
  have h2 : (a : ℚ) - rnd p ((q * b : ℤ) : ℚ) = r := by
    push_cast
    rw [hsub, heq, hk]
  linarith

theorem rndMod_eq_iff_of_pos (hbr : Representable p (b : ℚ)) :
    rndMod p a b = floorMod a b ↔ floorMod a b = 0 ∨
      (Representable p ((a - floorMod a b : ℤ) : ℚ) ∧ Representable p (floorMod a b : ℚ) ∧
        rnd p ((a : ℚ) / b) < ⌊(a : ℚ) / b⌋ + 1) := by
  have hadd := floorMod_add a b
  have hmul : a - floorMod a b = ⌊(a : ℚ) / b⌋ * b := by omega
  have hb0 : (b : ℚ) ≠ 0 := by exact_mod_cast hb.ne'
  -- where the multiple of `b` is exact, so is the quotient's floor
  have hback : Representable p ((⌊(a : ℚ) / b⌋ * b : ℤ) : ℚ) → rnd p ((a : ℚ) / b) < ⌊(a : ℚ) / b⌋ + 1 →
      rndMod p a b = rnd p (floorMod a b) := by
    intro h hlt
    have hge := le_rnd hp (representable_factor h hb.ne') (Int.floor_le ((a : ℚ) / b))
    have hfl : ⌊rnd p ((a : ℚ) / b)⌋ = ⌊(a : ℚ) / b⌋ := Int.floor_eq_iff.mpr ⟨hge, hlt⟩
    have hprod : rnd p ((⌊(a : ℚ) / b⌋ : ℚ) * b) = (⌊(a : ℚ) / b⌋ : ℚ) * b := by
      have := h.rnd_eq hp
      push_cast at this
      exact this
    rw [rndMod, hfl, hprod]
    congr 1
    rw [sub_eq_iff_eq_add']
    exact_mod_cast hadd.symm
  rw [hmul]
  constructor
  · intro h
    by_cases hr : floorMod a b = 0
    · exact .inl hr
    refine .inr ?_
    rcases lt_or_ge |(a : ℚ) / b| (2 ^ p) with hq | hq
    · rcases floor_rnd_of_small hp hq with ⟨hfl, hlt⟩ | hup
      · refine ⟨representable_of_rndMod_eq hp ha hb hbr hr hfl h, ?_, hlt⟩
        rw [← h]
        exact representable_rnd _
      · have hpos : (0 : ℚ) < floorMod a b := by
          have := (floorMod_of_pos a hb).1
          exact_mod_cast (by omega : 0 < floorMod a b)
        have := rndMod_nonpos hp ha hb hup
        rw [h] at this
        linarith
    · exact absurd h (rndMod_ne_of_large hp ha hb hr hq)
  · rintro (hr | ⟨hrep, hrem, hlt⟩)
    · -- an exact quotient has at most `p` bits, as a factor of `a`
      rw [hr, add_zero] at hadd
      have hrep : Representable p ((⌊(a : ℚ) / b⌋ * b : ℤ) : ℚ) := by rwa [hadd]
      have hquot : (a : ℚ) / b = ⌊(a : ℚ) / b⌋ := by
        rw [div_eq_iff hb0]
        exact_mod_cast hadd.symm
      have hlt : rnd p ((a : ℚ) / b) < ⌊(a : ℚ) / b⌋ + 1 := by
        rw [hquot, (representable_factor hrep hb.ne').rnd_eq hp, Int.floor_intCast]
        linarith
      rw [hback hrep hlt, hr, Int.cast_zero, rnd_zero]
    · rw [hback hrep hlt, hrem.rnd_eq hp]

end Positive

/-- **When the rounded remainder is the remainder**: there is none, or the multiple of `b` below `a` and what is left
have at most `p` bits and the quotient is not rounded up to the next integer. -/
theorem rndMod_eq_iff (hp : 1 ≤ p) {a b : ℤ} (ha : Representable p (a : ℚ)) (hbr : Representable p (b : ℚ))
    (hb : b ≠ 0) :
    rndMod p a b = floorMod a b ↔ floorMod a b = 0 ∨
      (Representable p ((a - floorMod a b : ℤ) : ℚ) ∧ Representable p (floorMod a b : ℚ) ∧
        rnd p ((a : ℚ) / b) < ⌊(a : ℚ) / b⌋ + 1) := by
  rcases lt_or_gt_of_ne hb with h | h
  · have hneg : ∀ {z : ℤ}, Representable p ((-z : ℤ) : ℚ) ↔ Representable p (z : ℚ) := by
      intro z
      rw [Int.cast_neg]
      exact ⟨fun h => by simpa using h.neg, fun h => h.neg⟩
    have hiff := rndMod_eq_iff_of_pos hp (hneg.mpr ha) (neg_pos.mpr h) (hneg.mpr hbr)
    have hdiff : -a - -floorMod a b = -(a - floorMod a b) := by ring
    rw [floorMod_neg_neg, hdiff, hneg, hneg, neg_eq_zero] at hiff
    push_cast at hiff
    rw [rndMod_neg_neg, neg_inj, neg_div_neg_eq] at hiff
    push_cast
    exact hiff
  · exact rndMod_eq_iff_of_pos hp ha h hbr

end Precision

end Arith.Rounding
