/-
# Operations on floats that hold numbers

On floats that hold numbers (`Arith.Binary64.Holds`) the operations compute the
rounded exact result: `-`, `*`, `/` and the conversion of an integer round to 53
significant bits, negation, comparison and the conversion to an integer are
exact.
-/
import Rustrapper.Arith.Binary64

namespace Arith.Binary64

open Float.Model Float.Model.UnpackedFloat Rounding

variable {u w : UnpackedFloat} {f g : Float} {x y : ℚ}

/-! ### What a float stores -/

theorem sgn_ne_zero (s : Sign) : sgn s ≠ 0 := by
  cases s <;> simp [sgn, Sign.apply]

theorem representable_sgn (s : Sign) {m : ℕ} (e : ℤ) (hm : m < 2 ^ 53) : Representable 53 (sgn s * (m * 2 ^ e)) := by
  refine ⟨s.apply m, e, ?_, ?_⟩
  · cases s
    · change |-(m : ℤ)| ≤ _
      rw [abs_neg, abs_of_nonneg (by positivity)]
      exact_mod_cast hm.le
    · change |(m : ℤ)| ≤ _
      rw [abs_of_nonneg (by positivity)]
      exact_mod_cast hm.le
  · rw [apply_eq]
    push_cast
    ring

/-- **A float holds a number of 53 bits.** -/
theorem Stores.representable (h : Stores u x) : Representable 53 x := by
  rcases h with s | ⟨s, m, e, -, -, hhi, -, -⟩
  · exact representable_zero
  · exact representable_sgn s e hhi

theorem Holds.representable (h : Holds f x) : Representable 53 x := Stores.representable h

theorem Stores.rnd_eq (h : Stores u x) : rnd 53 x = x := h.representable.rnd_eq (by norm_num)

theorem Holds.rnd_eq (h : Holds f x) : rnd 53 x = x := Stores.rnd_eq h

/-! ### Sign, subtraction and multiplication -/

theorem Stores.neg (h : Stores u x) : Stores u.neg (-x) := by
  rcases h with s | ⟨s, m, e, hpos, hlo, hhi, hemin, hemax⟩
  · rw [neg_zero]
    exact .zero _
  · rw [← neg_mul, ← sgn_neg]
    exact .finite _ _ _ _ hlo hhi hemin hemax

/-- **Negation is exact.** -/
theorem Holds.neg (h : Holds f x) : Holds (-f) (-x) := (Stores.neg h).holds

/-- Bringing the exponent down keeps the value. -/
theorem decreaseExponent_fst (s : Sign) (m : ℕ) {e t : ℤ} (h : t ≤ e) :
    ((s.apply (decreaseExponent m e t).1 : ℤ) : ℚ) * 2 ^ t = sgn s * (m * 2 ^ e) := by
  obtain ⟨k, hk⟩ : ∃ k : ℕ, e = t + k := ⟨(e - t).toNat, by omega⟩
  subst hk
  unfold decreaseExponent
  dsimp only
  rw [show (t + (k : ℤ) - t).toNat = k by omega, Nat.shiftLeft_eq, apply_eq, zpow_add₀ (by norm_num), zpow_natCast]
  push_cast
  ring

theorem Stores.sub (hu : Stores u x) (hw : Stores w y) (hr : Fits (x - y)) :
    Stores (UnpackedFloat.sub Format.binary64 u w) (rnd 53 (x - y)) := by
  have hw' := hw
  rcases hu with s | ⟨s, m, e, hpos, hlo, hhi, hemin, hemax⟩ <;>
    rcases hw with t | ⟨t, n, d, hpos', hlo', hhi', hemin', hemax'⟩
  · rw [sub_zero, rnd_zero]
    unfold UnpackedFloat.sub
    dsimp only
    split_ifs <;> exact .zero _
  · rw [zero_sub, rnd_neg, hw'.rnd_eq]
    exact hw'.neg
  · rw [sub_zero, (representable_sgn s e hhi).rnd_eq (by norm_num)]
    exact .finite _ _ _ _ hlo hhi hemin hemax
  · have hval : ((s.apply (decreaseExponent m e (min e d)).1 - t.apply (decreaseExponent n d (min e d)).1 : ℤ) : ℚ) *
        2 ^ min e d = sgn s * (m * 2 ^ e) - sgn t * (n * 2 ^ d) := by
      push_cast
      rw [sub_mul, decreaseExponent_fst s m (min_le_left e d), decreaseExponent_fst t n (min_le_right e d)]
    rw [← hval] at hr ⊢
    exact stores_normalize hr

/-- **`-` is the rounded difference.** -/
theorem Holds.sub (hf : Holds f x) (hg : Holds g y) (hr : Fits (x - y)) : Holds (f - g) (rnd 53 (x - y)) :=
  (Stores.sub hf hg hr).holds

theorem Stores.add (hu : Stores u x) (hw : Stores w y) (hr : Fits (x + y)) :
    Stores (UnpackedFloat.add Format.binary64 u w) (rnd 53 (x + y)) := by
  have hw' := hw
  rcases hu with s | ⟨s, m, e, hpos, hlo, hhi, hemin, hemax⟩ <;>
    rcases hw with t | ⟨t, n, d, hpos', hlo', hhi', hemin', hemax'⟩
  · rw [add_zero, rnd_zero]
    unfold UnpackedFloat.add
    dsimp only
    split_ifs <;> exact .zero _
  · rw [zero_add, hw'.rnd_eq]
    exact hw'
  · rw [add_zero, (representable_sgn s e hhi).rnd_eq (by norm_num)]
    exact .finite _ _ _ _ hlo hhi hemin hemax
  · have hval : ((s.apply (decreaseExponent m e (min e d)).1 + t.apply (decreaseExponent n d (min e d)).1 : ℤ) : ℚ) *
        2 ^ min e d = sgn s * (m * 2 ^ e) + sgn t * (n * 2 ^ d) := by
      push_cast
      rw [add_mul, decreaseExponent_fst s m (min_le_left e d), decreaseExponent_fst t n (min_le_right e d)]
    rw [← hval] at hr ⊢
    exact stores_normalize hr

/-- **`+` is the rounded sum.** -/
theorem Holds.add (hf : Holds f x) (hg : Holds g y) (hr : Fits (x + y)) : Holds (f + g) (rnd 53 (x + y)) :=
  (Stores.add hf hg hr).holds

/-- A product of whole mantissas is rounded exactly. -/
theorem stores_exact (s : Sign) {m : ℕ} {e : ℤ} (hm : 2 ^ 52 ≤ m) (hr : InRange ((m : ℚ) * 2 ^ e)) :
    Stores (roundWithAccuracy Format.binary64 s m e .exact) (sgn s * rnd 53 (m * 2 ^ e)) := by
  refine stores_roundWithAccuracy s (extends_exact m) hr ?_
  have hm' : (2 : ℚ) ^ 52 ≤ m := by exact_mod_cast hm
  have := two_zpow_pos e
  refine lastPlace_le_of_log (mul_pos (by linarith [two_zpow_pos 52]) this) ?_
  rw [add_comm, zpow_add₀ (by norm_num)]
  gcongr
  exact_mod_cast hm'

theorem Stores.mul (hu : Stores u x) (hw : Stores w y) (hr : Fits (x * y)) :
    Stores (UnpackedFloat.mul Format.binary64 u w) (rnd 53 (x * y)) := by
  rcases hu with s | ⟨s, m, e, hpos, hlo, hhi, hemin, hemax⟩ <;>
    rcases hw with t | ⟨t, n, d, hpos', hlo', hhi', hemin', hemax'⟩
  · rw [zero_mul, rnd_zero]
    exact .zero _
  · rw [zero_mul, rnd_zero]
    exact .zero _
  · rw [mul_zero, rnd_zero]
    exact .zero _
  · have hval : sgn s * (m * 2 ^ e) * (sgn t * (n * 2 ^ d)) = sgn (s * t) * ((m * n : ℕ) * 2 ^ (e + d)) := by
      rw [sgn_mul, zpow_add₀ (by norm_num)]
      push_cast
      ring
    have hne : sgn s * (m * 2 ^ e) * (sgn t * (n * 2 ^ d)) ≠ 0 := by
      have h1 : (0 : ℚ) < m := by exact_mod_cast hpos
      have h2 : (0 : ℚ) < n := by exact_mod_cast hpos'
      have := two_zpow_pos e
      have := two_zpow_pos d
      have := sgn_ne_zero s
      have := sgn_ne_zero t
      positivity
    have hr' := hr.resolve_left hne
    rw [hval] at hr' ⊢
    rw [rnd_sgn]
    refine stores_exact (s * t) ?_ ((inRange_sgn _).mp hr')
    calc 2 ^ 52 ≤ m * 1 := by omega
      _ ≤ m * n := Nat.mul_le_mul_left m hpos'

/-- **`*` is the rounded product.** -/
theorem Holds.mul (hf : Holds f x) (hg : Holds g y) (hr : Fits (x * y)) : Holds (f * g) (rnd 53 (x * y)) :=
  (Stores.mul hf hg hr).holds

/-! ### Division -/

theorem log2_mantissa {m : ℕ} (hlo : 2 ^ 52 ≤ m) (hhi : m < 2 ^ 53) : m.log2 = 52 := by
  have h1 := (Nat.le_log2 (by omega)).mpr hlo
  have h2 := (Nat.log2_lt (by omega)).mpr hhi
  omega

/-- The exponent at which mantissas of 53 bits are divided. -/
def divExponent (e d : ℤ) : ℤ := min (e - d) (max (e - d - 53) (-1074))

theorem divCore_eq {m n : ℕ} (e d : ℤ) (hm : 2 ^ 52 ≤ m) (hm' : m < 2 ^ 53) (hn : 2 ^ 52 ≤ n) (hn' : n < 2 ^ 53) :
    divCore Format.binary64 m e n d =
      ((m <<< (e - d - divExponent e d).toNat) / n, divExponent e d,
        accuracyOfFraction ((m <<< (e - d - divExponent e d).toNat) % n) n) := by
  have ht : min (e - d) (Format.binary64.targetExponent (totalExponent m e - totalExponent n d)) =
      divExponent e d := by
    unfold divExponent Format.targetExponent totalExponent
    have h1 : Format.binary64.minExponent = -1074 := rfl
    have h2 : (Format.binary64.mantissaBits : ℤ) = 53 := rfl
    rw [log2_mantissa hm hm', log2_mantissa hn hn', h1, h2]
    omega
  unfold divCore
  rw [ht]

theorem Stores.div (hu : Stores u x) (hw : Stores w y) (hy : y ≠ 0) (hr : Fits (x / y)) :
    Stores (UnpackedFloat.div Format.binary64 u w) (rnd 53 (x / y)) := by
  rcases hw with t | ⟨t, n, d, hpos', hlo', hhi', hemin', hemax'⟩
  · exact absurd rfl hy
  rcases hu with s | ⟨s, m, e, hpos, hlo, hhi, hemin, hemax⟩
  · rw [zero_div, rnd_zero]
    exact .zero _
  have hm : (0 : ℚ) < m := by exact_mod_cast hpos
  have hn : (0 : ℚ) < n := by exact_mod_cast hpos'
  have he := two_zpow_pos e
  have hd := two_zpow_pos d
  obtain ⟨k, hk⟩ : ∃ k : ℕ, (e - d - divExponent e d).toNat = k := ⟨_, rfl⟩
  have hexp : divExponent e d = e - d - k := by
    unfold divExponent at hk ⊢
    omega
  have hval : ((m <<< k : ℕ) : ℚ) / n * 2 ^ divExponent e d = m * 2 ^ e / (n * 2 ^ d) := by
    rw [hexp, Nat.shiftLeft_eq, zpow_sub₀ (by norm_num), zpow_sub₀ (by norm_num), zpow_natCast]
    push_cast
    field_simp
  have hquot : sgn s * (m * 2 ^ e) / (sgn t * (n * 2 ^ d)) =
      sgn (s / t) * (((m <<< k : ℕ) : ℚ) / n * 2 ^ divExponent e d) := by
    rw [hval, sgn_div]
    have := sgn_ne_zero t
    field_simp
  have hne : sgn s * (m * 2 ^ e) / (sgn t * (n * 2 ^ d)) ≠ 0 := by
    have := sgn_ne_zero s
    have := sgn_ne_zero t
    positivity
  have hr' := hr.resolve_left hne
  rw [hquot] at hr' ⊢
  rw [inRange_sgn] at hr'
  rw [rnd_sgn]
  have hdiv : UnpackedFloat.div Format.binary64 (.finite s m e hpos) (.finite t n d hpos') =
      roundWithAccuracy Format.binary64 (s / t) ((m <<< k) / n) (divExponent e d)
        (accuracyOfFraction ((m <<< k) % n) n) := by
    unfold UnpackedFloat.div
    dsimp only
    rw [divCore_eq e d hlo hhi hlo' hhi', hk]
  rw [hdiv]
  refine stores_roundWithAccuracy (s / t) (extends_fraction (m <<< k) hpos') hr' ?_
  -- the quotient of two mantissas is over a half, so it has enough bits
  have hhalf : (2 : ℚ) ^ (-1 : ℤ) ≤ m / n := by
    rw [le_div_iff₀ hn]
    have h1 : (n : ℚ) ≤ 2 ^ 53 := by exact_mod_cast hhi'.le
    have h2 : (2 : ℚ) ^ 52 ≤ m := by exact_mod_cast hlo
    rw [zpow_neg_one]
    linarith
  have hle : e - d - 53 ≤ lastPlace 53 (((m <<< k : ℕ) : ℚ) / n * 2 ^ divExponent e d) := by
    rw [hval]
    refine lastPlace_le_of_log (by positivity) ?_
    calc (2 : ℚ) ^ (e - d - 53 + 52) = 2 ^ (-1 : ℤ) * (2 ^ e / 2 ^ d) := by
          rw [← zpow_sub₀ (by norm_num), ← zpow_add₀ (by norm_num)]
          congr 1
          ring
      _ ≤ m / n * (2 ^ e / 2 ^ d) := by gcongr
      _ = m * 2 ^ e / (n * 2 ^ d) := by rw [div_mul_div_comm]
  have hmin := (lastPlace_inRange hr').1
  unfold divExponent at hle hmin ⊢
  omega

/-- **`/` is the rounded quotient.** -/
theorem Holds.div (hf : Holds f x) (hg : Holds g y) (hy : y ≠ 0) (hr : Fits (x / y)) :
    Holds (f / g) (rnd 53 (x / y)) :=
  (Stores.div hf hg hy hr).holds

/-! ### Comparison -/

theorem mantissa_pos {m : ℕ} (hpos : 0 < m) (e : ℤ) : (0 : ℚ) < m * 2 ^ e :=
  mul_pos (by exact_mod_cast hpos) (two_zpow_pos e)

theorem cmp_neg_swap (x y : ℚ) : cmp (-x) (-y) = (cmp x y).swap := by
  rw [cmp_swap]
  rcases lt_trichotomy x y with h | rfl | h
  · rw [(cmp_eq_gt_iff _ _).mpr (by linarith), (cmp_eq_gt_iff _ _).mpr h]
  · rw [cmp_self_eq_eq, cmp_self_eq_eq]
  · rw [(cmp_eq_lt_iff _ _).mpr (by linarith), (cmp_eq_lt_iff _ _).mpr h]

/-- Of two numbers of 53 bits the one with the larger exponent is larger. -/
theorem compare_mantissas {m n : ℕ} {e d : ℤ} (hm : 2 ^ 52 ≤ m) (hm' : m < 2 ^ 53) (hn : 2 ^ 52 ≤ n)
    (hn' : n < 2 ^ 53) :
    (compare e d).then (compare m n) = cmp ((m : ℚ) * 2 ^ e) (n * 2 ^ d) := by
  have hless : ∀ (m n : ℕ) (e d : ℤ), m < 2 ^ 53 → 2 ^ 52 ≤ n → e < d → (m : ℚ) * 2 ^ e < n * 2 ^ d := by
    intro m n e d hm' hn h
    have h1 : (m : ℚ) < 2 ^ 53 := by exact_mod_cast hm'
    have h2 : (2 : ℚ) ^ 52 ≤ n := by exact_mod_cast hn
    have := two_zpow_pos e
    have := two_zpow_pos d
    calc (m : ℚ) * 2 ^ e < 2 ^ 53 * 2 ^ e := by gcongr
      _ = 2 ^ 52 * 2 ^ (e + 1) := by
        rw [zpow_add₀ (by norm_num)]
        ring
      _ ≤ 2 ^ 52 * 2 ^ d := by
        gcongr
        · norm_num
        · omega
      _ ≤ n * 2 ^ d := by gcongr
  rcases lt_trichotomy e d with h | rfl | h
  · rw [Int.compare_eq_lt.mpr h, (cmp_eq_lt_iff _ _).mpr (hless m n e d hm' hn h)]
    rfl
  · have := two_zpow_pos e
    rw [Int.compare_eq_eq.mpr rfl]
    rcases lt_trichotomy m n with h | rfl | h
    · rw [(cmp_eq_lt_iff _ _).mpr (by gcongr)]
      exact Nat.compare_eq_lt.mpr h
    · rw [cmp_self_eq_eq]
      exact Nat.compare_eq_eq.mpr rfl
    · rw [(cmp_eq_gt_iff _ _).mpr (by gcongr)]
      exact Nat.compare_eq_gt.mpr h
  · rw [Int.compare_eq_gt.mpr h, (cmp_eq_gt_iff _ _).mpr (hless n m d e hn' hm h)]
    rfl

theorem Stores.compare_eq (hu : Stores u x) (hw : Stores w y) : UnpackedFloat.compare u w = some (cmp x y) := by
  rcases hu with s | ⟨s, m, e, hpos, hlo, hhi, hemin, hemax⟩ <;>
    rcases hw with t | ⟨t, n, d, hpos', hlo', hhi', hemin', hemax'⟩
  · rw [cmp_self_eq_eq]
    rfl
  · have := mantissa_pos hpos' d
    cases t
    · rw [(cmp_eq_gt_iff _ _).mpr (by simpa [sgn, Sign.apply] using this)]
      rfl
    · rw [(cmp_eq_lt_iff _ _).mpr (by simpa [sgn, Sign.apply] using this)]
      rfl
  · have := mantissa_pos hpos e
    cases s
    · rw [(cmp_eq_lt_iff _ _).mpr (by simpa [sgn, Sign.apply] using this)]
      rfl
    · rw [(cmp_eq_gt_iff _ _).mpr (by simpa [sgn, Sign.apply] using this)]
      rfl
  · have h1 := mantissa_pos hpos e
    have h2 := mantissa_pos hpos' d
    have hneg : sgn .negative = -1 := by simp [sgn, Sign.apply]
    have hone : sgn .positive = 1 := by simp [sgn, Sign.apply]
    cases s <;> cases t
    · rw [hneg, neg_one_mul, neg_one_mul, cmp_neg_swap, ← compare_mantissas hlo hhi hlo' hhi']
      rfl
    · rw [hneg, hone, (cmp_eq_lt_iff _ _).mpr (by linarith)]
      rfl
    · rw [hneg, hone, (cmp_eq_gt_iff _ _).mpr (by linarith)]
      rfl
    · rw [hone, one_mul, one_mul, ← compare_mantissas hlo hhi hlo' hhi']
      rfl

/-- **Floats compare as the numbers they hold.** -/
theorem Holds.lt_iff (hf : Holds f x) (hg : Holds g y) : f < g ↔ x < y := by
  change decide ((UnpackedFloat.compare f.toModel.unpack g.toModel.unpack == some .lt) = true) = true ↔ _
  rw [decide_eq_true_iff, Stores.compare_eq hf hg, ← cmp_eq_lt_iff]
  simp

theorem Holds.le_iff (hf : Holds f x) (hg : Holds g y) : f ≤ g ↔ x ≤ y := by
  change decide ((UnpackedFloat.compare f.toModel.unpack g.toModel.unpack).any (·.isLE) = true) = true ↔ _
  rw [decide_eq_true_iff, Stores.compare_eq hf hg, ← not_lt, ← cmp_eq_gt_iff]
  cases cmp x y <;> simp [Ordering.isLE]

theorem Holds.beq_iff (hf : Holds f x) (hg : Holds g y) : (f == g) = true ↔ x = y := by
  change (UnpackedFloat.compare f.toModel.unpack g.toModel.unpack == some .eq) = true ↔ _
  rw [Stores.compare_eq hf hg, ← cmp_eq_eq_iff]
  simp

/-- A float holds one number. -/
theorem Holds.unique (hf : Holds f x) (hg : Holds f y) : x = y := (hf.beq_iff hg).mp ((hf.beq_iff hf).mpr rfl)

theorem Stores.isNaN (h : Stores u x) : u.isNaN = false := by
  rcases h with _ | _ <;> rfl

theorem Stores.isFinite (h : Stores u x) : u.isFinite = true := by
  rcases h with _ | _ <;> rfl

theorem Holds.isNaN (h : Holds f x) : f.isNaN = false := Stores.isNaN h

theorem Holds.isFinite (h : Holds f x) : f.isFinite = true := Stores.isFinite h

/-! ### Conversions -/

/-- Cutting the bits behind the point rounds down. -/
theorem roundToInt_eq (s : Sign) (m : ℕ) (e : ℤ) : roundToInt s m e = s.apply ⌊(m : ℚ) * 2 ^ e⌋ := by
  unfold roundToInt decreaseExponent shiftToExponent
  dsimp only
  rcases le_or_gt 0 e with he | he
  · obtain ⟨k, rfl⟩ : ∃ k : ℕ, e = k := ⟨e.toNat, by omega⟩
    rw [show (((k : ℤ) - 0).toNat) = k by omega, show (0 - ((k : ℤ) - k)).toNat = 0 by omega]
    have : (m : ℚ) * 2 ^ (k : ℤ) = ((m <<< k : ℕ) : ℤ) := by
      rw [Nat.shiftLeft_eq, zpow_natCast]
      push_cast
      ring
    rw [this, Int.floor_intCast]
    rfl
  · obtain ⟨k, rfl⟩ : ∃ k : ℕ, e = -k := ⟨(-e).toNat, by omega⟩
    have h := (extends_exact m).shiftRight k
    have hdiv : (m : ℚ) * 2 ^ (-(k : ℤ)) = m / 2 ^ k := by rw [zpow_neg, zpow_natCast, div_eq_mul_inv]
    rw [show (-(k : ℤ) - 0).toNat = 0 by omega, show (0 - (-(k : ℤ) - (0 : ℕ))).toNat = k by omega, hdiv, h.floor,
      Nat.shiftLeft_zero]

/-- **A number that is not negative is cut to its whole part.** -/
theorem Holds.toUInt64 (h : Holds f x) (h0 : 0 ≤ x) (hlt : x < 2 ^ 64) : (f.toUInt64.toNat : ℤ) = ⌊x⌋ := by
  have hint : ∀ n : ℤ, 0 ≤ n → n < 2 ^ 64 → ((UInt64.ofNatClamp n.toNat).toNat : ℤ) = n := by
    intro n h1 h2
    unfold UInt64.ofNatClamp
    rw [dif_pos (by change n.toNat < 2 ^ 64; omega)]
    rw [UInt64.toNat_ofNatLT]
    omega
  change ((UnpackedFloat.toUInt64 f.toModel.unpack).toNat : ℤ) = _
  have hfloor : UnpackedFloat.toInt 0 (UInt64.size - 1) f.toModel.unpack = ⌊x⌋ := by
    unfold Holds at h
    generalize f.toModel.unpack = u at h
    rcases h with s | ⟨s, m, e, hpos, -, -, -, -⟩
    · rw [Int.floor_zero]
      rfl
    · have := mantissa_pos hpos e
      cases s
      · exact absurd h0 (by simpa [sgn, Sign.apply] using this)
      · rw [UnpackedFloat.toInt, roundToInt_eq]
        simp [sgn, Sign.apply]
  unfold UnpackedFloat.toUInt64
  rw [hfloor]
  refine hint _ (Int.floor_nonneg.mpr h0) ?_
  rw [Int.floor_lt]
  exact_mod_cast hlt

theorem representable_int {n : ℤ} (h : |n| ≤ 2 ^ 53) : Representable 53 (n : ℚ) := ⟨n, 0, h, by simp⟩

theorem fits_int {n : ℤ} (h : |n| ≤ 2 ^ 128) : Fits (n : ℚ) := by
  by_cases h0 : n = 0
  · exact .inl (by exact_mod_cast h0)
  have h1 : (1 : ℚ) ≤ |(n : ℚ)| := by exact_mod_cast Int.one_le_abs h0
  have h2 : |(n : ℚ)| ≤ 2 ^ (128 : ℤ) := by exact_mod_cast h
  refine .inr ⟨le_trans ?_ h1, lt_of_le_of_lt h2 ?_⟩
  · exact zpow_le_one_of_nonpos₀ (by norm_num) (by norm_num)
  · exact zpow_lt_zpow_right₀ (by norm_num) (by norm_num)

theorem holds_one : Holds (Float.ofBits 0x3FF0000000000000) 1 := by
  have h := Stores.finite .positive (2 ^ 52) (-52) (by norm_num) le_rfl (by norm_num) (by norm_num) (by norm_num)
  have hval : sgn .positive * (((2 ^ 52 : ℕ) : ℚ) * 2 ^ (-52 : ℤ)) = 1 := by
    norm_num [sgn, Sign.apply]
  rw [hval] at h
  have hbits : Float.ofBits 0x3FF0000000000000 =
      .ofModel (.pack (.finite .positive (2 ^ 52) (-52) (by norm_num))) := by decide +kernel
  rw [hbits]
  exact h.holds

theorem abs_natCast_le {n : ℕ} (h : n < 2 ^ 64) : |(n : ℤ)| ≤ 2 ^ 128 := by
  rw [abs_of_nonneg (by positivity)]
  omega

theorem holds_toFloat {n : ℕ} (h : n < 2 ^ 64) : Holds n.toUInt64.toFloat (rnd 53 n) := by
  have hn : n.toUInt64.toNat = n := by rw [Nat.toUInt64, UInt64.toNat_ofNat_of_lt' h]
  have hof : n.toUInt64.toFloat = .ofModel (.pack (UnpackedFloat.normalize Format.binary64 n 0 .positive)) := by
    change Float.ofModel (.pack (UnpackedFloat.normalize Format.binary64 (n.toUInt64.toNat : ℤ) 0 .positive)) = _
    rw [hn]
  have hstore := @stores_normalize n 0 (by simpa using fits_int (abs_natCast_le h))
  rw [zpow_zero, mul_one] at hstore
  rw [hof]
  exact hstore.holds

theorem holds_ofNat {n : ℕ} (h : n < 2 ^ 64) : Holds (Float.ofNat n) (rnd 53 n) := by
  have hfits := fits_int (abs_natCast_le h)
  by_cases hsmall : n < 2 ^ 53
  · -- a table of powers of ten, here of its first one
    have hof : Float.ofNat n = n.toUInt64.toFloat * Float.ofBits 0x3FF0000000000000 := by
      change Float.ofScientific n false 0 = _
      unfold Float.ofScientific
      rw [dif_pos ⟨hsmall, by norm_num⟩]
      rfl
    have hrep : Representable 53 (n : ℚ) :=
      ⟨n, 0, by rw [abs_of_nonneg (by positivity)]; exact_mod_cast hsmall.le, by simp⟩
    have hrnd : rnd 53 (n : ℚ) = n := hrep.rnd_eq (by norm_num)
    have hf := holds_toFloat h
    rw [hrnd] at hf
    have hmul := hf.mul holds_one (by rw [mul_one]; exact hfits)
    rw [mul_one] at hmul
    rw [hof]
    exact hmul
  · have hsci : UnpackedFloat.ofScientific Format.binary64 n 0 =
        roundWithAccuracy Format.binary64 (.positive * .positive) ((n <<< 53) * 1) (-53 + 0) .exact := by
      unfold UnpackedFloat.ofScientific
      rw [dif_neg (by omega), if_neg (by norm_num), if_neg (by change ¬((0 : ℤ) < -((2 : ℤ) ^ 11 + n.log2)); omega),
        if_pos le_rfl]
      rfl
    have hof : Float.ofNat n = .ofModel (.pack (UnpackedFloat.ofScientific Format.binary64 n 0)) := by
      change Float.ofScientific n false 0 = _
      unfold Float.ofScientific
      rw [dif_neg fun h => hsmall h.1]
      rfl
    have hval : (((n <<< 53) * 1 : ℕ) : ℚ) * 2 ^ (-53 + 0 : ℤ) = n := by
      rw [Nat.shiftLeft_eq]
      push_cast
      norm_num
      ring
    have hin : InRange (n : ℚ) := hfits.resolve_left (by exact_mod_cast (by omega : n ≠ 0))
    have hstore := @stores_exact (.positive * .positive) ((n <<< 53) * 1) (-53 + 0)
      (by rw [Nat.shiftLeft_eq]; omega) (by rw [hval]; exact hin)
    rw [hval, sgn_mul, ← hsci] at hstore
    have hone : sgn .positive * sgn .positive * rnd 53 (n : ℚ) = rnd 53 n := by simp [sgn, Sign.apply]
    rw [hone] at hstore
    rw [hof]
    exact hstore.holds

/-- **An integer becomes the nearest float.** -/
theorem holds_ofInt {n : ℤ} (h : |n| < 2 ^ 64) : Holds (Float.ofInt n) (rnd 53 n) := by
  obtain ⟨k, rfl | rfl⟩ := n.eq_nat_or_neg
  · exact_mod_cast holds_ofNat (by rw [abs_of_nonneg (by positivity)] at h; exact_mod_cast h)
  · have hk : k < 2 ^ 64 := by
      rw [abs_neg, abs_of_nonneg (by positivity)] at h
      exact_mod_cast h
    rcases k with _ | k
    · exact_mod_cast holds_ofNat hk
    · have hof : Float.ofInt (-((k + 1 : ℕ) : ℤ)) = -Float.ofNat (k + 1) := rfl
      rw [hof]
      push_cast
      rw [rnd_neg]
      exact_mod_cast (holds_ofNat hk).neg

end Arith.Binary64
