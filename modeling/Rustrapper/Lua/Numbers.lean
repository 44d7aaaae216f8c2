/-
# Numbers in the library

`math.floor`, `math.ceil`, `math.tointeger` and `tonumber`. The first two send
an integer through a float and back, so they return it exactly when it has at
most 53 significant bits, or is the largest of all (`integers_survive`);
`math.tointeger` and `tonumber(tostring(n))` return every integer.

Results about floats are stated for those that hold a number
(`Arith.Binary64.Holds`).
-/
import Rustrapper.Arith.FloatOps
import Rustrapper.Lua.Arena
import Rustrapper.Lua.Lists
import Rustrapper.Lua.Spelling
import Rustrapper.Lua.Steps

namespace Rustrapper
namespace Lua

open Arith.Rounding Arith.Binary64 Store

/-! ### Rounding to an integer -/

/-- `ceil_f64`. -/
def ceilF64 (x : Float) : Float :=
  if x ≥ 0.0 then
    let tf := f64OfI64 (i64OfF64 x)
    if tf < x then tf + 1.0 else tf
  else f64OfI64 (i64OfF64 x)

/-- `floor_f64`. -/
def floorF64 (x : Float) : Float := floatFloor x

/-- An integer where the float is one of `i64`, the float elsewhere. -/
def wholeValue (f : Float) : Value :=
  if f.isFinite && f ≥ f64OfI64 Int64.minValue && f ≤ f64OfI64 Int64.maxValue && f == f64OfI64 (i64OfF64 f) then
    .num (i64OfF64 f)
  else .float f

/-- `math.ceil` and `math.floor`. -/
def mathRound (name : String) (round : Float → Float) (args : List Value) : LuaM ExecResult :=
  match args with
  | [v] =>
    match floatOf v with
    | some f => pure (.ret (wholeValue (round f)))
    | none => err (name ++ " expects a number")
  | _ => err (name ++ " expects 1 argument")

/-- `math.ceil(x)`. -/
def mathCeil (args : List Value) : LuaM ExecResult := mathRound "math.ceil" ceilF64 args

/-- `math.floor(x)`. -/
def mathFloor (args : List Value) : LuaM ExecResult := mathRound "math.floor" floorF64 args

/-- `math.tointeger(x)`. -/
def mathTointeger (args : List Value) : LuaM ExecResult :=
  match args with
  | [.num n] => pure (.ret (.num n))
  | [.float f] =>
    if f.isFinite && f == floatFloor f && f ≥ f64OfI64 Int64.minValue && f ≤ f64OfI64 Int64.maxValue then
      pure (.ret (.num (i64OfF64 f)))
    else pure (.ret .nil)
  | [_] => pure (.ret .nil)
  | _ => err "math.tointeger expects 1 argument"

/-! ### Numbers from strings -/

/-- `is_ascii_whitespace`. -/
def isAsciiBlank (c : UInt8) : Bool := c = 32 || c = 9 || c = 10 || c = 12 || c = 13

/-- `trim_ascii`. -/
def trimAscii (b : List UInt8) : List UInt8 := (b.dropWhile isAsciiBlank).rdropWhile isAsciiBlank

/-- A sign, and what comes behind it. -/
def signOf : List UInt8 → Bool × List UInt8
  | 45 :: t => (true, t)
  | 43 :: t => (false, t)
  | t => (false, t)

/-- `text.parse::<i64>()`. -/
def parseI64 (t : List UInt8) : Option Int64 :=
  let (neg, ds) := signOf t
  let v : ℤ := if neg then -(decValue ds : ℤ) else decValue ds
  if ds ≠ [] ∧ ds.all isDigit ∧ -2 ^ 63 ≤ v ∧ v < 2 ^ 63 then some (.ofInt v) else none

/-- The digits around the point, and what comes behind them. -/
def splitPoint (t : List UInt8) : List UInt8 × List UInt8 × List UInt8 :=
  match t.dropWhile isDigit with
  | 46 :: r => (t.takeWhile isDigit, r.takeWhile isDigit, r.dropWhile isDigit)
  | r => (t.takeWhile isDigit, [], r)

/-- `str_to_number` on what is no integer. -/
def strToFloat (t : List UInt8) : Option Float :=
  let (neg, u) := signOf t
  let (ip, fp, rest) := splitPoint u
  let signed := fun f : Float => if neg then -f else f
  if ip.length + fp.length = 0 then none
  else match lexExponent rest with
    | some (ep, []) => some (signed (parseF64 ip fp (some ep)))
    | some (_, _ :: _) => none
    | none => if rest = [] then some (signed (parseF64 ip fp none)) else none

/-- `str_to_number`. -/
def strToNumber (b : List UInt8) : Option Value :=
  let t := trimAscii b
  if t = [] ∨ !isUtf8 t then none
  else match parseI64 t with
    | some i => some (.num i)
    | none => (strToFloat t).map .float

/-- The value of a digit of base 36. -/
def digitOf (c : UInt8) : Option ℕ :=
  if isDigit c then some (c.toNat - 48)
  else if 97 ≤ c && c ≤ 122 then some (c.toNat - 97 + 10)
  else if 65 ≤ c && c ≤ 90 then some (c.toNat - 65 + 10)
  else none

/-- The loop of `str_to_base`: `checked_mul` and `checked_add` refuse what passes `i64::MAX`. -/
def baseLoop (base : ℕ) : ℕ → List UInt8 → Option ℕ
  | n, [] => some n
  | n, c :: cs => do
    let d ← digitOf c
    if d ≥ base then none
    else if n * base + d < 2 ^ 63 then baseLoop base (n * base + d) cs
    else none

/-- `str_to_base`. -/
def strToBase (b : List UInt8) (base : ℕ) : Option Int64 :=
  let (neg, ds) := signOf (trimAscii b)
  if ds = [] then none
  else (baseLoop base 0 ds).map fun n => .ofInt (if neg then -(n : ℤ) else n)

/-- `tonumber(e [, base])`. -/
def tonumber (args : List Value) : LuaM ExecResult := do
  if args.length < 1 ∨ args.length > 2 then err "tonumber expects 1 or 2 arguments"
  let e := args.headD .nil
  if args.length = 1 ∨ args.getD 1 .nil = .nil then
    match e with
    | .num _ | .float _ => pure (.ret e)
    | .str r => do pure (.ret ((strToNumber ((← get).strBytes r)).getD .nil))
    | _ => pure (.ret .nil)
  else
    match wholeOf (args.getD 1 .nil) with
    | none => err "tonumber base must be an integer"
    | some base => do
      if base.toInt < 2 ∨ base.toInt > 36 then err "tonumber base out of range"
      match e with
      | .str r => do pure (.ret (((strToBase ((← get).strBytes r) base.toInt.toNat).map .num).getD .nil))
      | _ => err "tonumber expects a string with a base"

/-! ### Floats and integers -/

section
variable {f : Float} {v : ℚ}

theorem abs_toInt_le (n : Int64) : |n.toInt| ≤ 2 ^ 63 := abs_le.mpr ⟨n.le_toInt, n.toInt_lt.le⟩

theorem representable_two_pow : Representable 53 ((2 ^ 63 : ℤ) : ℚ) := ⟨1, 63, by norm_num, by norm_num⟩

/-- **An integer becomes the nearest float.** -/
theorem holds_f64OfI64 (n : Int64) : Holds (f64OfI64 n) (rnd 53 n.toInt) :=
  holds_ofInt (lt_of_le_of_lt (abs_toInt_le n) (by norm_num))

theorem abs_rnd_le {x : ℚ} (h : |x| ≤ 2 ^ 63) : |rnd 53 x| ≤ 2 ^ 63 := by
  have := abs_rnd_le_two_zpow (p := 53) (by norm_num) (e := 63) (by exact_mod_cast h)
  exact_mod_cast this

/-- A number of 53 bits from `2 ^ 53` on is an integer. -/
theorem int_of_representable {x : ℚ} (hx : Representable 53 x) (h : 2 ^ 53 ≤ |x|) : ∃ n : ℤ, x = n := by
  obtain ⟨m, e, hm, rfl⟩ := hx
  rcases le_or_gt 0 e with he | he
  · obtain ⟨k, rfl⟩ : ∃ k : ℕ, e = k := ⟨e.toNat, by omega⟩
    exact ⟨m * 2 ^ k, by push_cast; rw [zpow_natCast]⟩
  · exfalso
    have hm' : |(m : ℚ)| ≤ 2 ^ 53 := by exact_mod_cast hm
    have h1 : (2 : ℚ) ^ e ≤ 2 ^ (-1 : ℤ) := zpow_le_zpow_right₀ (by norm_num) (by omega)
    have h0 := two_zpow_pos e
    rw [abs_mul, abs_of_pos h0] at h
    have : |(m : ℚ)| * 2 ^ e ≤ 2 ^ 53 * 2 ^ (-1 : ℤ) := by gcongr
    norm_num at this h
    linarith

theorem int_rnd (n : ℤ) : ∃ k : ℤ, rnd 53 (n : ℚ) = k := by
  rcases le_or_gt |n| (2 ^ 53) with h | h
  · exact ⟨n, (rnd_eq_self_iff (by norm_num)).mpr ⟨n, 0, h, by simp⟩⟩
  · refine int_of_representable (representable_rnd _) ?_
    have hp : Representable 53 (2 ^ 53 : ℚ) := ⟨1, 53, by norm_num, by norm_num⟩
    rcases lt_abs.mp h with h | h
    · have : (2 ^ 53 : ℚ) ≤ n := by exact_mod_cast h.le
      exact le_abs.mpr (.inl (le_rnd (by norm_num) hp this))
    · have : (n : ℚ) ≤ -2 ^ 53 := by
        have : n ≤ -2 ^ 53 := by omega
        exact_mod_cast this
      have := rnd_le (by norm_num) hp.neg this
      exact le_abs.mpr (.inr (by linarith))

theorem holds_max : Holds 9223372036854775808.0 (2 ^ 63) := by
  have heq : (9223372036854775808.0 : Float) = Float.ofInt (2 ^ 63) := by decide +kernel
  have h := @holds_ofInt (2 ^ 63) (by norm_num)
  rw [representable_two_pow.rnd_eq (by norm_num), ← heq] at h
  exact_mod_cast h

theorem holds_min : Holds (-9223372036854775808.0) (-2 ^ 63) := holds_max.neg

theorem holds_zero : Holds 0.0 0 := by
  have heq : (0.0 : Float) = Float.ofInt 0 := by decide +kernel
  have h := @holds_ofInt 0 (by norm_num)
  rw [Int.cast_zero, rnd_zero, ← heq] at h
  exact h

theorem holds_one' : Holds 1.0 1 := by
  have heq : (1.0 : Float) = Float.ofBits 0x3FF0000000000000 := by decide +kernel
  rw [heq]
  exact holds_one

/-- A number cut towards zero and kept inside `i64`. -/
def saturate (v : ℚ) : ℤ :=
  if 2 ^ 63 ≤ v then 2 ^ 63 - 1 else if v ≤ -2 ^ 63 then -2 ^ 63 else if 0 ≤ v then ⌊v⌋ else -⌊-v⌋

theorem toInt_i64OfF64 (h : Holds f v) : (i64OfF64 f).toInt = saturate v := by
  unfold i64OfF64 saturate
  rw [h.isNaN, if_neg (by decide)]
  by_cases hmax : 2 ^ 63 ≤ v
  · rw [if_pos ((holds_max.le_iff h).mpr hmax), if_pos hmax]
    rfl
  rw [if_neg ((holds_max.le_iff h).not.mpr hmax), if_neg hmax]
  by_cases hmin : v ≤ -2 ^ 63
  · rw [if_pos ((h.le_iff holds_min).mpr hmin), if_pos hmin]
    rfl
  rw [if_neg ((h.le_iff holds_min).not.mpr hmin), if_neg hmin]
  have hlt : ∀ {g : Float} {w : ℚ}, Holds g w → 0 ≤ w → w < 2 ^ 63 →
      g.toUInt64.toNat < 2 ^ 63 ∧ (g.toUInt64.toNat : ℤ) = ⌊w⌋ := by
    intro g w hg h0 h1
    have hnat := hg.toUInt64 h0 (h1.trans (by norm_num))
    have hfl : ⌊w⌋ < 2 ^ 63 := Int.floor_lt.mpr (by exact_mod_cast h1)
    exact ⟨by omega, hnat⟩
  by_cases h0 : 0 ≤ v
  · obtain ⟨hb, hnat⟩ := hlt h h0 (not_le.mp hmax)
    rw [if_pos ((holds_zero.le_iff h).mpr h0), if_pos h0, Int64.toInt_ofNat_of_lt hb, hnat]
  · obtain ⟨hb, hnat⟩ := hlt h.neg (by linarith) (by linarith)
    rw [if_neg ((holds_zero.le_iff h).not.mpr h0), if_neg h0, Int64.toInt_neg_ofNat_of_le hb.le, hnat]

theorem saturate_int {n : ℤ} (hlo : -2 ^ 63 ≤ n) (hhi : n < 2 ^ 63) : saturate n = n := by
  unfold saturate
  have h1 : ¬(2 ^ 63 : ℚ) ≤ n := by
    rw [not_le]
    exact_mod_cast hhi
  rw [if_neg h1]
  split_ifs with h2 h3
  · have : n ≤ -2 ^ 63 := by exact_mod_cast h2
    omega
  · exact Int.floor_intCast n
  · rw [← Int.cast_neg, Int.floor_intCast, neg_neg]

theorem saturate_max : saturate (2 ^ 63) = 2 ^ 63 - 1 := if_pos le_rfl

/-- The largest integer is rounded up, out of `i64`. -/
theorem rnd_max : rnd 53 ((2 ^ 63 - 1 : ℤ) : ℚ) = 2 ^ 63 := by
  have hlog : Int.log 2 |((2 ^ 63 - 1 : ℤ) : ℚ)| = 62 := by
    apply log_eq_of <;> norm_num
  have hlast : lastPlace 53 ((2 ^ 63 - 1 : ℤ) : ℚ) = 10 := by
    rw [lastPlace, hlog]
    rfl
  have hfloor : ⌊((2 ^ 63 - 1 : ℤ) : ℚ) / 2 ^ (10 : ℤ)⌋ = 2 ^ 53 - 1 := by
    rw [Int.floor_eq_iff]
    norm_num
  have hfract : 1 / 2 < Int.fract (((2 ^ 63 - 1 : ℤ) : ℚ) / 2 ^ (10 : ℤ)) := by
    rw [Int.fract, hfloor]
    norm_num
  rw [rnd, hlast, roundEven, if_neg (not_lt.mpr hfract.le), if_pos hfract, hfloor]
  norm_num

/-- **A whole float comes back from the integer it is cast to**, also from the largest one. -/
theorem holds_back {k : ℤ} (h : Holds f k) (hk : |k| ≤ 2 ^ 63) : Holds (f64OfI64 (i64OfF64 f)) k := by
  have hback := holds_f64OfI64 (i64OfF64 f)
  rw [toInt_i64OfF64 h] at hback
  obtain ⟨hlo, hhi⟩ := abs_le.mp hk
  rcases hhi.lt_or_eq with hlt | rfl
  · rw [saturate_int hlo hlt, h.rnd_eq] at hback
    exact hback
  · rw [show (((2 ^ 63 : ℤ) : ℚ)) = 2 ^ 63 by norm_num, saturate_max, rnd_max] at hback
    exact_mod_cast hback

/-- A float inside `i64` that is no integer has a fraction of its 53 bits left. -/
theorem abs_lt_of_not_int (h : Holds f v) (hv : ∀ n : ℤ, v ≠ n) : |v| < 2 ^ 53 := by
  by_contra hcon
  obtain ⟨n, hn⟩ := int_of_representable h.representable (not_lt.mp hcon)
  exact hv n hn

/-- **`float_floor` is the floor** where its cast does not saturate. -/
theorem holds_floatFloor (h : Holds f v) (hv : |v| ≤ 2 ^ 63) : Holds (floatFloor f) ⌊v⌋ := by
  unfold floatFloor
  dsimp only
  by_cases hint : ∃ n : ℤ, v = n
  · obtain ⟨n, rfl⟩ := hint
    have hback := holds_back h (by exact_mod_cast hv)
    rw [if_neg (fun hlt => lt_irrefl _ ((h.lt_iff hback).mp hlt)), Int.floor_intCast]
    exact hback
  · have hne : ∀ n : ℤ, v ≠ n := fun n hn => hint ⟨n, hn⟩
    have hsmall := abs_lt.mp (abs_lt_of_not_int h hne)
    have hback := holds_f64OfI64 (i64OfF64 f)
    rw [toInt_i64OfF64 h, saturate, if_neg (by linarith), if_neg (by linarith)] at hback
    by_cases h0 : 0 ≤ v
    · -- cut towards zero from above
      have hfl : Representable 53 (⌊v⌋ : ℚ) := by
        have h1 : 0 ≤ ⌊v⌋ := Int.floor_nonneg.mpr h0
        have h2 : ⌊v⌋ < 2 ^ 53 := Int.floor_lt.mpr (by exact_mod_cast hsmall.2)
        exact representable_int (by rw [abs_of_nonneg h1]; exact h2.le)
      rw [if_pos h0, hfl.rnd_eq (by norm_num)] at hback
      rw [if_neg fun hlt => not_lt.mpr (Int.floor_le v) ((h.lt_iff hback).mp hlt)]
      exact hback
    · -- cut towards zero from below, one step too high
      have hfl : ⌊v⌋ = -⌊-v⌋ - 1 := by
        have h1 : Int.fract v ≠ 0 := fun h1 => hne ⌊v⌋ (by rw [← Int.floor_add_fract v, h1]; simp)
        have h2 := Int.floor_add_fract v
        have h3 := Int.floor_add_fract (-v)
        rw [Int.fract_neg h1] at h3
        have h4 : (⌊v⌋ : ℚ) = ((-⌊-v⌋ - 1 : ℤ) : ℚ) := by
          push_cast
          linarith
        exact_mod_cast h4
      have h1 : 0 ≤ ⌊-v⌋ := Int.floor_nonneg.mpr (by linarith)
      have h2 : ⌊-v⌋ < 2 ^ 53 := Int.floor_lt.mpr (by push_cast; linarith)
      have hrep : Representable 53 ((-⌊-v⌋ : ℤ) : ℚ) :=
        representable_int (by rw [abs_neg, abs_of_nonneg h1]; exact h2.le)
      have hrep' : Representable 53 (⌊v⌋ : ℚ) := representable_int (by rw [hfl, abs_le]; omega)
      rw [if_neg h0, hrep.rnd_eq (by norm_num)] at hback
      have hgt : v < ((-⌊-v⌋ : ℤ) : ℚ) := by
        refine lt_of_le_of_ne ?_ (hne _)
        push_cast
        linarith [Int.floor_le (-v)]
      have hsub := hback.sub holds_one' (by
        rw [← Int.cast_one, ← Int.cast_sub, ← hfl]
        exact fits_int (by rw [hfl, abs_le]; omega))
      rw [← Int.cast_one, ← Int.cast_sub, ← hfl, hrep'.rnd_eq (by norm_num)] at hsub
      rw [if_pos ((h.lt_iff hback).mpr hgt)]
      exact hsub

end

/-! ### An integer through a float -/

section
variable {f : Float} {k : ℤ}

theorem holds_i64Max : Holds (f64OfI64 Int64.maxValue) (2 ^ 63) := by
  have h := holds_f64OfI64 Int64.maxValue
  rw [show Int64.maxValue.toInt = 2 ^ 63 - 1 by decide, rnd_max] at h
  exact h

theorem holds_i64Min : Holds (f64OfI64 Int64.minValue) (-2 ^ 63) := by
  have h := holds_f64OfI64 Int64.minValue
  rw [show Int64.minValue.toInt = -2 ^ 63 by decide, Int.cast_neg, rnd_neg,
    representable_two_pow.rnd_eq (by norm_num)] at h
  exact_mod_cast h

/-- Casting rounds to an integer that is in `i64`, or one above it. -/
theorem whole_f64OfI64 (n : Int64) : ∃ k : ℤ, rnd 53 n.toInt = k ∧ |k| ≤ 2 ^ 63 := by
  obtain ⟨k, hk⟩ := int_rnd n.toInt
  have h : |(n.toInt : ℚ)| ≤ 2 ^ 63 := by exact_mod_cast abs_toInt_le n
  refine ⟨k, hk, ?_⟩
  have := abs_rnd_le h
  rw [hk] at this
  exact_mod_cast this

theorem wholeValue_int (h : Holds f k) (hk : |k| ≤ 2 ^ 63) : wholeValue f = .num (.ofInt (saturate k)) := by
  have hk' : |(k : ℚ)| ≤ 2 ^ 63 := by exact_mod_cast hk
  obtain ⟨hlo, hhi⟩ := abs_le.mp hk'
  have h1 : f ≥ f64OfI64 Int64.minValue := (holds_i64Min.le_iff h).mpr hlo
  have h2 : f ≤ f64OfI64 Int64.maxValue := (h.le_iff holds_i64Max).mpr hhi
  have h3 : (f == f64OfI64 (i64OfF64 f)) = true := (h.beq_iff (holds_back h hk)).mpr rfl
  have hto : i64OfF64 f = .ofInt (saturate k) := by rw [← toInt_i64OfF64 h, Int64.ofInt_toInt]
  rw [wholeValue, if_pos (by rw [h.isFinite, decide_eq_true h1, decide_eq_true h2, h3]; rfl), hto]

theorem holds_ceilF64 (h : Holds f k) (hk : |k| ≤ 2 ^ 63) : Holds (ceilF64 f) k := by
  have hback := holds_back h hk
  unfold ceilF64
  dsimp only
  rw [if_neg (c := f64OfI64 (i64OfF64 f) < f) fun hlt => lt_irrefl _ ((hback.lt_iff h).mp hlt), ite_self]
  exact hback

theorem holds_floorF64 (h : Holds f k) (hk : |k| ≤ 2 ^ 63) : Holds (floorF64 f) k := by
  have hfl := holds_floatFloor h (by exact_mod_cast hk)
  rw [Int.floor_intCast] at hfl
  exact hfl

variable {R : Rec} {s : LuaState}

/-- **An integer that goes through a float is rounded**, and kept inside `i64`. -/
theorem exec_mathRound (name : String) {round : Float → Float}
    (hround : ∀ {f : Float} {k : ℤ}, Holds f k → |k| ≤ 2 ^ 63 → Holds (round f) k) (n : Int64) :
    R.exec (mathRound name round [.num n]) s = .ok (.ret (.num (.ofInt (saturate (rnd 53 n.toInt))))) s := by
  obtain ⟨k, hk, hle⟩ := whole_f64OfI64 n
  have h := holds_f64OfI64 n
  rw [hk] at h ⊢
  change EStateM.Result.ok (ExecResult.ret (wholeValue (round (f64OfI64 n)))) s = _
  rw [wholeValue_int (hround h hle) hle]

theorem exec_mathFloor (n : Int64) :
    R.exec (mathFloor [.num n]) s = .ok (.ret (.num (.ofInt (saturate (rnd 53 n.toInt))))) s :=
  exec_mathRound _ holds_floorF64 n

theorem exec_mathCeil (n : Int64) :
    R.exec (mathCeil [.num n]) s = .ok (.ret (.num (.ofInt (saturate (rnd 53 n.toInt))))) s :=
  exec_mathRound _ holds_ceilF64 n

/-- **Which integers come back**: those of 53 bits, and the largest, which is rounded up and cut again. -/
theorem ofInt_saturate_rnd_iff (n : Int64) :
    Int64.ofInt (saturate (rnd 53 n.toInt)) = n ↔ Representable 53 n.toInt ∨ n = Int64.maxValue := by
  obtain ⟨k, hk, hle⟩ := whole_f64OfI64 n
  obtain ⟨hlo, hhi⟩ := abs_le.mp hle
  rw [hk]
  rcases hhi.lt_or_eq with hlt | rfl
  · have hne : n ≠ Int64.maxValue := by
      rintro rfl
      rw [show Int64.maxValue.toInt = 2 ^ 63 - 1 by decide, rnd_max] at hk
      have : (2 ^ 63 : ℤ) = k := by exact_mod_cast hk
      omega
    have hto : (Int64.ofInt k).toInt = k := Int64.toInt_ofInt_of_le hlo hlt
    rw [saturate_int hlo hlt, ← Int64.toInt_inj, hto, or_iff_left hne, ← rnd_eq_self_iff (by norm_num), hk]
    exact_mod_cast Iff.rfl
  · rw [show (((2 ^ 63 : ℤ) : ℚ)) = 2 ^ 63 by norm_num, saturate_max]
    constructor
    · exact fun h => .inr h.symm
    · rintro (h | rfl)
      · have heq := h.rnd_eq (by norm_num)
        rw [hk] at heq
        have : (2 ^ 63 : ℤ) = n.toInt := by exact_mod_cast heq
        have := n.toInt_lt
        omega
      · decide

end

/-! ### The digits of an integer -/

theorem ascii_char {c : UInt8} (h : c < 128) :
    (Char.ofNat c.toNat).toUInt8 = c ∧ (Char.ofNat c.toNat).utf8Size = 1 := by
  have hn : c.toNat < 128 := h
  have hv : c.toNat.isValidChar := .inl (by omega)
  have hval : (Char.ofNat c.toNat).val.toNat = c.toNat := by
    rw [Char.ofNat, dif_pos hv]
    rfl
  constructor
  · apply UInt8.toNat_inj.mp
    rw [Char.toUInt8, UInt32.toNat_toUInt8, hval]
    omega
  · rw [Char.utf8Size]
    have : (Char.ofNat c.toNat).val ≤ 127 := by
      rw [UInt32.le_iff_toNat_le, hval]
      exact Nat.le_of_lt_succ hn
    exact if_pos this

/-- ASCII text is UTF-8. -/
theorem isUtf8_of_ascii (w : List UInt8) (h : ∀ c ∈ w, c < 128) : isUtf8 w = true := by
  unfold isUtf8
  rw [ByteArray.validateUTF8_eq_true_iff]
  induction w using List.reverseRecOn with
  | nil => exact ByteArray.isValidUTF8_empty
  | append_singleton w c ih =>
    obtain ⟨hc, hsize⟩ := ascii_char (h c (by simp))
    have hpush := (ih fun d hd => h d (by simp [hd])).push hsize
    rw [hc] at hpush
    have heq : ByteArray.mk (w ++ [c]).toArray = (ByteArray.mk w.toArray).push c := by
      rw [ByteArray.push]
      simp
    rw [heq]
    exact hpush

theorem natDigits_eq_decimal (n : ℕ) : natDigits n = decimal n := by
  induction n using decimal.induct with
  | case1 n h =>
    rw [decimal, if_pos h, natDigits, Nat.toDigits_of_lt_base h]
    interval_cases n <;> rfl
  | case2 n h ih =>
    have hd := Nat.mod_lt n (by omega : 0 < 10)
    rw [decimal, if_neg h, ← ih, natDigits, Nat.toDigits_eq_if (by omega), if_neg h, List.map_append]
    refine congrArg (_ ++ ·) ?_
    generalize n % 10 = d at hd
    interval_cases d <;> rfl
theorem itoa_bytes (n : Int64) : ∀ c ∈ itoa n, c = 45 ∨ isDigit c = true := by
  have hdec : ∀ c ∈ decimal n.toInt.natAbs, isDigit c = true := by simpa using decimal_digits n.toInt.natAbs
  intro c hc
  rw [itoa, natDigits_eq_decimal] at hc
  split_ifs at hc with h
  · exact (List.mem_cons.mp hc).imp id (hdec c)
  · exact .inr (hdec c hc)

theorem not_blank_of_digit {c : UInt8} (h : c = 45 ∨ isDigit c = true) : isAsciiBlank c = false ∧ c < 128 := by
  rcases h with rfl | h
  · decide
  · unfold isDigit at h
    unfold isAsciiBlank
    grind

theorem trimAscii_eq_self {b : List UInt8} (h : ∀ c ∈ b, isAsciiBlank c = false) : trimAscii b = b := by
  have h1 : b.dropWhile isAsciiBlank = b := by
    rw [List.dropWhile_eq_self_iff]
    intro hl
    simp [h _ (List.getElem_mem hl)]
  rw [trimAscii, h1, List.rdropWhile_eq_self_iff]
  intro hl
  simp [h _ (List.getLast_mem hl)]

theorem signOf_digit {c : UInt8} (h : isDigit c = true) (cs : List UInt8) : signOf (c :: cs) = (false, c :: cs) := by
  have h45 : c ≠ 45 := by rintro rfl; cases h
  have h43 : c ≠ 43 := by rintro rfl; cases h
  unfold signOf
  split <;> simp_all

theorem parseI64_itoa (n : Int64) : parseI64 (itoa n) = some n := by
  have hlo := n.le_toInt
  have hhi := n.toInt_lt
  have hsign : signOf (itoa n) = (decide (n < 0), decimal n.toInt.natAbs) := by
    rw [itoa, natDigits_eq_decimal]
    by_cases h : n < 0
    · rw [if_pos h, decide_eq_true h]
      rfl
    · rw [if_neg h, decide_eq_false h]
      have hdec := decimal_digits n.toInt.natAbs
      rcases hd : decimal n.toInt.natAbs with _ | ⟨c, cs⟩
      · rfl
      · rw [hd, List.all_cons, Bool.and_eq_true] at hdec
        exact signOf_digit hdec.1 cs
  have hval : (if decide (n < 0) = true then -(decValue (decimal n.toInt.natAbs) : ℤ)
      else decValue (decimal n.toInt.natAbs)) = n.toInt := by
    rw [decValue_decimal]
    by_cases h : n < 0
    · have := Int64.lt_iff_toInt_lt.mp h
      rw [Int64.toInt_zero] at this
      rw [if_pos (decide_eq_true h)]
      omega
    · have := Int64.lt_iff_toInt_lt.not.mp h
      rw [Int64.toInt_zero] at this
      rw [if_neg (by rw [decide_eq_true_iff]; exact h)]
      omega
  unfold parseI64
  rw [hsign]
  dsimp only
  rw [hval, if_pos ⟨decimal_ne_nil _, decimal_digits _, hlo, hhi⟩, Int64.ofInt_toInt]

/-- **`tonumber` reads the digits of an integer back.** -/
theorem strToNumber_itoa (n : Int64) : strToNumber (itoa n) = some (.num n) := by
  have hbytes := itoa_bytes n
  have hne : itoa n ≠ [] := by
    rw [itoa, natDigits_eq_decimal]
    split_ifs
    · exact List.cons_ne_nil _ _
    · exact decimal_ne_nil _
  have hutf : isUtf8 (itoa n) = true := isUtf8_of_ascii _ fun c hc => (not_blank_of_digit (hbytes c hc)).2
  unfold strToNumber
  rw [trimAscii_eq_self fun c hc => (not_blank_of_digit (hbytes c hc)).1]
  dsimp only
  rw [if_neg (by simp [hne, hutf]), parseI64_itoa]

/-! ### Integers in the library -/

section Survival
variable {R : Rec} {L : Lib} {s : LuaState}

/-- `tonumber(tostring(n))`. -/
def numberOfString (L : Lib) (n : Int64) : LuaM ExecResult := do
  let r ← valueToString L (.num n)
  tonumber [.str r]

/-- **`tonumber(tostring(n))` is `n`**, when the arena takes the digits. -/
theorem exec_numberOfString (hs : s.toHeap.Sound) {n : Int64} {r : StrRef} {h : Heap}
    (hi : s.toHeap.intern (itoa n) = .ok (r, h)) :
    R.exec (numberOfString L n) s = .ok (.ret (.num n)) { s with toHeap := h } := by
  obtain ⟨-, hbytes⟩ := hs.intern hi
  have hfirst : R.exec (valueToString L (.num n)) s = .ok r { s with toHeap := h } := by
    have := exec_intern R s (itoa n)
    rw [hi] at this
    exact this
  have hsecond : ∀ t : LuaState, t.strBytes r = itoa n →
      R.exec (tonumber [.str r]) t = .ok (.ret (.num n)) t := by
    intro t ht
    change EStateM.Result.ok (ExecResult.ret ((strToNumber (t.strBytes r)).getD .nil)) t = _
    rw [ht, strToNumber_itoa]
    rfl
  rw [numberOfString, exec_bind, bind_ok hfirst]
  exact hsecond _ hbytes

/-- The numeric library returns the integer it is given: `math.floor`, `math.ceil`, `math.tointeger`, and `tonumber`
on the digits, where the arena takes them. -/
structure Survives (R : Rec) (L : Lib) (s : LuaState) (n : Int64) : Prop where
  floor : R.exec (mathFloor [.num n]) s = .ok (.ret (.num n)) s
  ceil : R.exec (mathCeil [.num n]) s = .ok (.ret (.num n)) s
  tointeger : R.exec (mathTointeger [.num n]) s = .ok (.ret (.num n)) s
  tonumber : ∀ {r h}, s.toHeap.intern (itoa n) = .ok (r, h) →
    R.exec (numberOfString L n) s = .ok (.ret (.num n)) { s with toHeap := h }

/-- **An integer survives the library** exactly when it has at most 53 significant bits or is the largest one. -/
theorem integers_survive (R : Rec) (L : Lib) (s : LuaState) (hs : s.toHeap.Sound) (n : Int64) :
    Survives R L s n ↔ Representable 53 n.toInt ∨ n = Int64.maxValue := by
  rw [← ofInt_saturate_rnd_iff]
  constructor
  · intro h
    have hfloor := (exec_mathFloor (R := R) (s := s) n).symm.trans h.floor
    injection hfloor with hres
    injection hres with hval
    injection hval
  · intro h
    refine ⟨?_, ?_, rfl, exec_numberOfString hs⟩
    · rw [exec_mathFloor, h]
    · rw [exec_mathCeil, h]

theorem seven_survives : Survives Rec.stuck bareLib {} 7 :=
  (integers_survive Rec.stuck bareLib {} (Heap.sound_empty rfl rfl) 7).mpr (.inl ⟨7, 0, by decide, by decide +kernel⟩)

/-- The first integer that does not fit a float becomes the one below. -/
theorem floor_changes_integer : Rec.stuck.exec (mathFloor [.num 9007199254740993]) {} =
    .ok (.ret (.num 9007199254740992)) {} ∧ ¬ Survives Rec.stuck bareLib {} 9007199254740993 := by
  have hfloor : floorF64 (f64OfI64 9007199254740993) = Float.ofInt 9007199254740992 := by decide +kernel
  have hval : wholeValue (Float.ofInt 9007199254740992) = .num 9007199254740992 := by decide +kernel
  have hrun : Rec.stuck.exec (mathFloor [.num 9007199254740993]) {} = .ok (.ret (.num 9007199254740992)) {} := by
    change EStateM.Result.ok (ExecResult.ret (wholeValue (floorF64 (f64OfI64 9007199254740993)))) _ = _
    rw [hfloor, hval]
  refine ⟨hrun, fun h => ?_⟩
  have hsame := hrun.symm.trans h.floor
  injection hsame with hres
  injection hres with hval
  injection hval with hnum
  exact absurd hnum (by decide)

end Survival

end Lua
end Rustrapper
