/-
# Float conversions of string.format

`format_float` writes the text of a float into a buffer of 128 bytes and lays it
out. The text of `%f` has the sign, the whole part and as many digits behind the
point as the precision says; with so many digits that the buffer could overflow,
the whole part is 0 (`integerPart_of_fine`). A conversion stays inside its
buffers exactly when its width and its text do (`formatFloat_bounded`).
-/
import Rustrapper.Lua.SciText

namespace Rustrapper
namespace Lua
namespace Format

open Arith.Rounding Arith.Binary64

/-! ### Float helpers -/

/-- `float_ceil`. -/
def floatCeil (x : Float) : Float :=
  let tf := f64OfI64 (i64OfF64 x)
  if tf < x then tf + 1.0 else tf

/-- `float_trunc`. -/
def floatTrunc (x : Float) : Float := if x ≥ 0.0 then floatFloor x else floatCeil x

/-- `float_round`. -/
def floatRound (x : Float) : Float := if x ≥ 0.0 then floatFloor (x + 0.5) else floatCeil (x - 0.5)

/-- `pow10_u32`. -/
def pow10U32 : ℕ → Float
  | 0 => 1.0
  | exp + 1 => pow10U32 exp * 10.0

/-! ### `format_fixed` -/

/-- The sign is negative, and the float is not zero. -/
def isNegative (f : Float) : Bool := isSignNegative f && f != 0.0

/-- The value, rounded to the precision. -/
def roundedTo (prec : ℕ) (v : Float) : Float :=
  if prec > 0 then
    let factor := pow10U32 (prec % 2 ^ 32)
    floatRound (v * factor) / factor
  else floatRound v

/-- The length of `tmp` in `format_fixed`. -/
def FRAC_CAP : ℕ := 20

/-- The digits of the fraction. -/
def fractionDigits (fracPart : ℕ) : Except Exc (List UInt8) :=
  if fracPart = 0 then .ok [48]
  else do
    let tmp ← digitLoop 10 false FRAC_CAP fracPart
    .ok (Sort.Reversal.reverseLoop tmp 0 tmp.length)

/-- `format_fixed`. -/
def formatFixed (cap : ℕ) (f : Float) (prec : ℕ) : Except Exc (List UInt8) :=
  if f.isNaN then write cap (bytesOf "nan") []
  else if f.isInf then write cap (if f < 0.0 then bytesOf "-inf" else bytesOf "inf") []
  else do
    let neg := isNegative f
    let v := roundedTo prec (if neg then -f else f)
    let intPart := floatTrunc v
    let fracPart := floatRound ((v - intPart) * pow10U32 (prec % 2 ^ 32))
    let out ← write cap (if neg then [45] else []) []
    let out ← write cap (itoa (i64OfF64 intPart)) out
    if prec > 0 then do
      let out ← write cap [46] out
      let digits ← fractionDigits fracPart.toUInt64.toNat
      let out ← write cap (List.replicate (prec - digits.length) 48) out
      write cap digits out
    else .ok out

/-! ### `format_float` -/

def upperByte (b : UInt8) : UInt8 := if 97 ≤ b ∧ b ≤ 122 then b - 97 + 65 else b

/-- The text of a conversion, in `tmp`; other types do not get here. -/
def floatText (C : CoreFmt) (spec : FormatSpec) (f : Float) : Except Exc (List UInt8) :=
  let prec := spec.precision.getD 6
  match Char.ofNat spec.ty.toNat with
  | 'f' => formatFixed TMP_CAP f prec
  | 'e' => expText C 101 prec f
  | 'E' => expText C 69 prec f
  | 'g' => fmtFloat C TMP_CAP f
  | 'G' => do
    let text ← fmtFloat C TMP_CAP f
    .ok (text.map upperByte)
  | _ => .error (.fault .library)

/-- The sign of the piece, and the text behind it. -/
def splitSign (spec : FormatSpec) (text : List UInt8) : Option UInt8 × List UInt8 :=
  if text.head? = some 45 then (some 45, text.tail)
  else if spec.plus then (some 43, text)
  else if spec.space then (some 32, text)
  else (none, text)

/-- `format_float`. -/
def formatFloat (C : CoreFmt) (cap : ℕ) (v : Value) (spec : FormatSpec) : Except Exc (List UInt8) :=
  match floatOf v with
  | none => .error (.lua (.msg "bad argument (number expected, got string)"))
  | some f => do
    let text ← floatText C spec f
    let (sign, body) := splitSign spec text
    applyLayout cap sign [] body { spec with precision := none } true

/-! ### Powers of ten -/

section
variable {n : ℕ}

theorem holds_ten : Holds 10.0 10 := by
  have heq : (10.0 : Float) = Float.ofInt 10 := by decide +kernel
  have h := @holds_ofInt 10 (by norm_num)
  rw [(representable_int (n := 10) (by norm_num)).rnd_eq (by norm_num), ← heq] at h
  exact_mod_cast h

/-- A product with ten lies between eight times and sixteen times the factor. -/
theorem holds_pow10U32 (h : n ≤ 250) : ∃ x, Holds (pow10U32 n) x ∧ 2 ^ (3 * n : ℤ) ≤ x ∧ x ≤ 2 ^ (4 * n : ℤ) := by
  induction n with
  | zero => exact ⟨1, holds_one', by norm_num, by norm_num⟩
  | succ n ih =>
    obtain ⟨x, hx, hlo, hhi⟩ := ih (by omega)
    have hpos : 0 < x := (two_zpow_pos _).trans_le hlo
    have hlow : (2 : ℚ) ^ (3 * (n + 1 : ℕ) : ℤ) ≤ x * 10 := by
      calc (2 : ℚ) ^ (3 * (n + 1 : ℕ) : ℤ) = 2 ^ (3 * n : ℤ) * 8 := by
            rw [Nat.cast_succ, mul_add, zpow_add₀ (by norm_num)]
            norm_num
        _ ≤ x * 8 := by gcongr
        _ ≤ x * 10 := by linarith
    have hhigh : x * 10 ≤ 2 ^ (4 * (n + 1 : ℕ) : ℤ) := by
      calc x * 10 ≤ x * 16 := by linarith
        _ ≤ 2 ^ (4 * n : ℤ) * 16 := by gcongr
        _ = 2 ^ (4 * (n + 1 : ℕ) : ℤ) := by
            rw [Nat.cast_succ, mul_add, zpow_add₀ (by norm_num)]
            norm_num
    have hrange : Arith.Binary64.InRange (x * 10) := by
      rw [Arith.Binary64.InRange, abs_of_pos (by linarith)]
      constructor
      · exact (zpow_le_zpow_right₀ (by norm_num) (by omega)).trans hlow
      · exact hhigh.trans_lt (zpow_lt_zpow_right₀ (by norm_num) (by omega))
    refine ⟨_, hx.mul holds_ten (.inr hrange), ?_, ?_⟩
    · exact le_rnd (by norm_num) (representable_two_zpow _) hlow
    · exact rnd_le (by norm_num) (representable_two_zpow _) hhigh

end

/-! ### The whole part -/

/-- The whole part that `%f` writes. -/
def integerPart (prec : ℕ) (v : Float) : Int64 := i64OfF64 (floatTrunc (roundedTo prec v))

section
variable {x v : Float} {w : ℚ} {k : ℤ}

/-- A step up or down from a cast integer. -/
theorem abs_rnd_step (hk : |k| ≤ 2 ^ 63) (d : ℤ) (hd : |d| ≤ 1) :
    ∃ q : ℤ, rnd 53 ((k + d : ℤ) : ℚ) = q ∧ |q| ≤ 2 ^ 64 := by
  obtain ⟨q, hq⟩ := int_rnd (k + d)
  have hsum : |k + d| ≤ 2 ^ 64 := (abs_add_le k d).trans (by omega)
  have hbound : |rnd 53 ((k + d : ℤ) : ℚ)| ≤ 2 ^ (64 : ℤ) :=
    abs_rnd_le_two_zpow (by norm_num) (by exact_mod_cast hsum)
  rw [hq] at hbound
  exact ⟨q, hq, by exact_mod_cast hbound⟩

/-- `float_floor` and `float_ceil` have an integer near the range of `i64`, whatever they are given. -/
theorem holds_floor_ceil (x : Float) : (∃ q : ℤ, |q| ≤ 2 ^ 64 ∧ Holds (floatFloor x) q) ∧
    ∃ q : ℤ, |q| ≤ 2 ^ 64 ∧ Holds (floatCeil x) q := by
  obtain ⟨k, hk, hbound⟩ := whole_f64OfI64 (i64OfF64 x)
  have htf := holds_f64OfI64 (i64OfF64 x)
  have hwide : |k| ≤ 2 ^ 64 := hbound.trans (by norm_num)
  have hfits : ∀ d : ℤ, |d| ≤ 1 → Arith.Binary64.Fits ((k + d : ℤ) : ℚ) := fun d hd =>
    fits_int ((abs_add_le k d).trans (by omega))
  rw [hk] at htf
  constructor
  · obtain ⟨q, hq, hle⟩ := abs_rnd_step hbound (-1) (by norm_num)
    have hsub : (k : ℚ) - 1 = ((k + -1 : ℤ) : ℚ) := by
      push_cast
      ring
    have hdown := htf.sub holds_one' (by rw [hsub]; exact hfits (-1) (by norm_num))
    rw [hsub, hq] at hdown
    unfold floatFloor
    dsimp only
    split_ifs
    · exact ⟨q, hle, hdown⟩
    · exact ⟨k, hwide, htf⟩
  · obtain ⟨q, hq, hle⟩ := abs_rnd_step hbound 1 (by norm_num)
    have hadd : (k : ℚ) + 1 = ((k + 1 : ℤ) : ℚ) := by
      push_cast
      ring
    have hup := htf.add holds_one' (by rw [hadd]; exact hfits 1 (by norm_num))
    rw [hadd, hq] at hup
    unfold floatCeil
    dsimp only
    split_ifs
    · exact ⟨q, hle, hup⟩
    · exact ⟨k, hwide, htf⟩

theorem holds_floatRound (x : Float) : ∃ q : ℤ, |q| ≤ 2 ^ 64 ∧ Holds (floatRound x) q := by
  unfold floatRound
  split_ifs
  · exact (holds_floor_ceil _).1
  · exact (holds_floor_ceil _).2

/-- A float between -1 and 1 is cut to 0. -/
theorem floatTrunc_small (h : Holds v w) (hw : |w| < 1) : i64OfF64 (floatTrunc v) = 0 := by
  obtain ⟨hlo, hhi⟩ := abs_lt.mp hw
  have hzero : ∀ {u : Float} {y : ℚ}, Holds u y → |y| < 1 → i64OfF64 u = 0 := by
    intro u y hu hy
    obtain ⟨hlo, hhi⟩ := abs_lt.mp hy
    apply Int64.toInt_inj.mp
    rw [toInt_i64OfF64 hu, saturate, if_neg (by linarith), if_neg (by linarith), Int64.toInt_zero]
    split_ifs with h0
    · exact Int.floor_eq_zero_iff.mpr ⟨h0, hhi⟩
    · rw [Int.floor_eq_zero_iff.mpr ⟨by linarith, by linarith⟩, neg_zero]
  have htf : Holds (f64OfI64 (i64OfF64 v)) 0 := by
    have := holds_f64OfI64 (i64OfF64 v)
    rw [hzero h hw, Int64.toInt_zero, Int.cast_zero, rnd_zero] at this
    rw [hzero h hw]
    exact this
  have heq : floatTrunc v = f64OfI64 (i64OfF64 v) := by
    unfold floatTrunc
    split_ifs with h0
    · have hw0 := (holds_zero.le_iff h).mp h0
      exact if_neg fun hlt => absurd ((h.lt_iff htf).mp hlt) (not_lt.mpr hw0)
    · have hw0 := not_le.mp ((holds_zero.le_iff h).not.mp h0)
      exact if_neg fun hlt => absurd ((htf.lt_iff h).mp hlt) (not_lt.mpr hw0.le)
  rw [heq]
  exact hzero htf (by norm_num)

/-- **With many digits the whole part is 0**: the product with the power of ten is cut to the range of `i64` before it
is divided. -/
theorem integerPart_of_fine {prec : ℕ} (hlo : 107 ≤ prec) (hhi : prec ≤ 126) (v : Float) : integerPart prec v = 0 := by
  obtain ⟨x, hx, hxlo, hxhi⟩ := holds_pow10U32 (n := prec) (by omega)
  obtain ⟨q, hq, hround⟩ := holds_floatRound (v * pow10U32 prec)
  have hmod : prec % 2 ^ 32 = prec := Nat.mod_eq_of_lt (by omega)
  have hpos : 0 < x := (two_zpow_pos _).trans_le hxlo
  have hbig : (2 : ℚ) ^ (321 : ℤ) ≤ x := (zpow_le_zpow_right₀ (by norm_num) (by omega)).trans hxlo
  have hsmall : x ≤ 2 ^ (504 : ℤ) := hxhi.trans (zpow_le_zpow_right₀ (by norm_num) (by omega))
  have hqle : |(q : ℚ)| ≤ 2 ^ (64 : ℤ) := by exact_mod_cast hq
  have hquot : |(q : ℚ) / x| ≤ 2 ^ (-257 : ℤ) := by
    rw [abs_div, abs_of_pos hpos, div_le_iff₀ hpos]
    calc |(q : ℚ)| ≤ 2 ^ (64 : ℤ) := hqle
      _ = 2 ^ (-257 : ℤ) * 2 ^ (321 : ℤ) := by rw [← zpow_add₀ (by norm_num)]; norm_num
      _ ≤ 2 ^ (-257 : ℤ) * x := by gcongr
  have hfits : Arith.Binary64.Fits ((q : ℚ) / x) := by
    rcases eq_or_ne q 0 with rfl | hne
    · exact .inl (by rw [Int.cast_zero, zero_div])
    refine .inr ⟨?_, hquot.trans_lt (zpow_lt_zpow_right₀ (by norm_num) (by norm_num))⟩
    have hone : (1 : ℚ) ≤ |(q : ℚ)| := by exact_mod_cast Int.one_le_abs hne
    rw [abs_div, abs_of_pos hpos, le_div_iff₀ hpos]
    calc (2 : ℚ) ^ (-1022 : ℤ) * x ≤ 2 ^ (-1022 : ℤ) * 2 ^ (504 : ℤ) := by gcongr
      _ = 2 ^ (-518 : ℤ) := by rw [← zpow_add₀ (by norm_num)]; norm_num
      _ ≤ 1 := zpow_le_one_of_nonpos₀ (by norm_num) (by norm_num)
      _ ≤ |(q : ℚ)| := hone
  have hdiv := hround.div hx hpos.ne' hfits
  have hlt : |rnd 53 ((q : ℚ) / x)| < 1 := by
    refine (abs_rnd_le_two_zpow (by norm_num) hquot).trans_lt ?_
    exact zpow_lt_one_of_neg₀ (by norm_num) (by norm_num)
  rw [integerPart, roundedTo, if_pos (by omega), hmod]
  exact floatTrunc_small hdiv hlt

end

/-! ### `%f` -/

/-- The digits behind the point fit. -/
def FixedFits (prec : ℕ) (f : Float) : Prop :=
  f.isNaN = true ∨ f.isInf = true ∨ prec = 0 ∨ prec + (if isNegative f then 3 else 2) ≤ TMP_CAP

theorem length_itoa (n : Int64) : 1 ≤ (itoa n).length ∧ (itoa n).length ≤ 20 := by
  have hlo := n.le_toInt
  have hhi := n.toInt_lt
  have hdigits := length_natDigits_le (n := n.toInt.natAbs) (k := 19) (by norm_num) (by omega)
  have hpos : 0 < (natDigits n.toInt.natAbs).length := by
    rw [natDigits_eq_decimal]
    exact List.length_pos_iff.mpr (decimal_ne_nil _)
  unfold itoa
  split_ifs
  · rw [List.length_cons]
    omega
  · omega

theorem fractionDigits_ok {n : ℕ} (h : n < 2 ^ 64) :
    ∃ ds, fractionDigits n = .ok ds ∧ ds.length ≤ FRAC_CAP := by
  unfold fractionDigits
  split_ifs
  · exact ⟨[48], rfl, by decide⟩
  · obtain ⟨ds, hds, -, hlen, -⟩ := @digitLoop_spec 10 false (by norm_num) (by norm_num) 20
      FRAC_CAP _ (by norm_num) le_rfl (h.trans (by norm_num))
    refine ⟨ds.reverse, ?_, by rwa [List.length_reverse]⟩
    rw [hds, ok_bind, Sort.Reversal.reverseLoop_whole]

/-- **When `%f` stays inside its buffer.** -/
theorem formatFixed_bounded (prec : ℕ) (f : Float) :
    BoundedWhen TMP_CAP (FixedFits prec f) (formatFixed TMP_CAP f prec) := by
  have hshort : ∀ {bs : List UInt8}, bs.length ≤ TMP_CAP →
      BoundedWhen TMP_CAP True (write TMP_CAP bs []) := by
    intro bs hbs
    exact boundedWhen_write.congr (iff_of_true (by rwa [List.length_nil, Nat.zero_add]) trivial)
  unfold formatFixed FixedFits
  by_cases hnan : f.isNaN = true
  · rw [if_pos hnan]
    exact (hshort (by decide +kernel)).congr (iff_of_true trivial (.inl hnan))
  by_cases hinf : f.isInf = true
  · rw [if_neg hnan, if_pos hinf]
    refine (hshort ?_).congr (iff_of_true trivial (.inr (.inl hinf)))
    split_ifs <;> decide +kernel
  rw [if_neg hnan, if_neg hinf, or_iff_right hnan, or_iff_right hinf]
  dsimp only
  generalize hv : (if isNegative f = true then -f else f) = v
  obtain ⟨hpos, hlen⟩ := length_itoa (integerPart prec v)
  have hsign : (if isNegative f = true then [(45 : UInt8)] else []).length = if isNegative f = true then 1 else 0 := by
    split_ifs <;> rfl
  obtain ⟨neg, hneg, hone⟩ : ∃ neg, (if isNegative f = true then 1 else 0) = neg ∧ neg ≤ 1 := by
    refine ⟨_, rfl, ?_⟩
    split_ifs <;> decide
  have hroom : (if isNegative f = true then 3 else 2) = neg + 2 := by
    rw [← hneg]
    split_ifs <;> rfl
  rw [hneg] at hsign
  rw [hroom, ← integerPart]
  by_cases hprec : prec > 0
  · obtain ⟨ds, hds, hcap⟩ := fractionDigits_ok (UInt64.toNat_lt (floatRound
      ((roundedTo prec v - floatTrunc (roundedTo prec v)) * pow10U32 (prec % 2 ^ 32))).toUInt64)
    simp only [if_pos hprec, hds, ok_bind, write_write]
    refine boundedWhen_write.congr ?_
    simp only [List.length_append, List.length_cons, List.length_nil, List.length_replicate, hsign]
    rw [or_iff_right (by omega)]
    unfold FRAC_CAP at hcap
    unfold TMP_CAP
    by_cases hfine : 107 ≤ prec ∧ prec ≤ 126
    · have hzero : (itoa (integerPart prec v)).length = 1 := by
        rw [integerPart_of_fine hfine.1 hfine.2]
        decide +kernel
      omega
    · omega
  · simp only [if_neg hprec, bind_ok, write_write]
    refine boundedWhen_write.congr (iff_of_true ?_ (.inl (by omega)))
    simp only [List.length_append, List.length_nil, hsign]
    unfold TMP_CAP
    omega

/-! ### The conversions -/

/-- The type of a float conversion. -/
def IsFloatType (ty : UInt8) : Prop := Char.ofNat ty.toNat ∈ ['f', 'e', 'E', 'g', 'G']

instance (ty : UInt8) : Decidable (IsFloatType ty) := by
  unfold IsFloatType
  infer_instance

/-- The text of the conversion fits. -/
def FloatFits (C : CoreFmt) (spec : FormatSpec) (f : Float) : Prop :=
  match Char.ofNat spec.ty.toNat with
  | 'f' => FixedFits (spec.precision.getD 6) f
  | 'e' | 'E' => ExpFits C (spec.precision.getD 6) f
  | _ => True

section
variable {C : CoreFmt} {spec : FormatSpec}

theorem floatText_bounded (hty : IsFloatType spec.ty) (f : Float) :
    BoundedWhen TMP_CAP (FloatFits C spec f) (floatText C spec f) := by
  obtain ⟨text, htext, hlen⟩ := fmtFloat_ok C (show FLOAT_BUF ≤ TMP_CAP by decide) f
  have hcap : text.length ≤ TMP_CAP := hlen.trans (by decide)
  unfold IsFloatType at hty
  unfold FloatFits floatText
  simp only [List.mem_cons, List.not_mem_nil, or_false] at hty
  rcases hty with h | h | h | h | h <;> rw [h]
  · exact formatFixed_bounded _ f
  · exact expText_bounded rfl _ f
  · exact expText_bounded rfl _ f
  · dsimp only
    rw [htext]
    exact .of_ok hcap
  · dsimp only
    rw [htext]
    exact .of_ok (by rwa [List.length_map])

/-- The sign and the rest have one byte more than the text at most. -/
theorem contentLen_splitSign (spec : FormatSpec) (text : List UInt8) :
    contentLen (splitSign spec text).1 [] (splitSign spec text).2 ≤ text.length + 1 := by
  unfold splitSign contentLen
  split_ifs <;> simp <;> omega

/-- **When a float conversion stays inside its buffers**: when its text and its width do. -/
theorem formatFloat_bounded (hty : IsFloatType spec.ty) {v : Value} {f : Float} (hv : floatOf v = some f) :
    BoundedWhen PIECE_CAP (FloatFits C spec f ∧ spec.width ≤ PIECE_CAP) (formatFloat C PIECE_CAP v spec) := by
  rw [formatFloat, hv]
  dsimp only
  refine (floatText_bounded hty f).bind fun text htext => ?_
  have hcap : TMP_CAP + 1 ≤ PIECE_CAP := by decide
  have hcontent := contentLen_splitSign spec text
  exact boundedWhen_width { spec with precision := none } true (by omega)

end

end Format
end Lua
end Rustrapper
