/-
# Integer arithmetic and random integers

`binop` on two integers computes the exact result, reduced to 64 bits, for all
operands but one pair: `i64::MIN / -1` and `i64::MIN % -1` abort
(`integer_arithmetic`). `math.random` reduces a 64-bit number modulo the
interval's length, which it computes in signed arithmetic; the number is in the
interval, and nothing overflows, exactly when the length is below `2^63`
(`random_in_interval`).

`checks` says whether the build checks the overflow of `+` and `-`; without
the checks they wrap.
-/
import Rustrapper.Effect.Ensures
import Rustrapper.Lua.Lists
import Rustrapper.Lua.Run

namespace Rustrapper
namespace Lua

open Effect

/-! ### The operators -/

/-- What an operator computes on whole numbers: `/` cuts towards zero, `%` is
the remainder that is not negative. -/
def Op.exact (op : Op) (a b : ℤ) : ℤ :=
  match op with
  | .add => a + b
  | .sub => a - b
  | .mul => a * b
  | .div => a.tdiv b
  | _ => a % b

/-- `/` and `%`. -/
def Op.divides (op : Op) : Prop := op = .div ∨ op = .mod

instance (op : Op) : Decidable op.divides := inferInstanceAs (Decidable (_ ∨ _))

/-- Total integer arithmetic: a division by zero is an error, and every other
pair of operands has the exact result, reduced to 64 bits. -/
def ComputesExactly (op : Op) (a b : Int64) (s : LuaState) (r : EStateM.Result Stop LuaState Value) : Prop :=
  if op.divides ∧ b = 0 then r = .error (.lua (.msg "division by zero")) s
  else r = .ok (.num (.ofInt (op.exact a.toInt b.toInt))) s

/-- How the operator ends on integers. -/
def arithResult (s : LuaState) : Option (Except String Int64) → EStateM.Result Stop LuaState Value
  | none => .error (.fault .arith) s
  | some (.error m) => .error (.lua (.msg m)) s
  | some (.ok z) => .ok (.num z) s

theorem exec_binop_num (R : Rec) (L : Lib) (op : Op) (hop : op.isArith = true) (a b : Int64) (s : LuaState) :
    R.exec (binop L op (.num a) (.num b)) s = arithResult s (intArith op a b) := by
  have hb : binop L op (.num a) (.num b) = arith op (.num a) (.num b) := by
    cases op <;> first | rfl | simp [Op.isArith] at hop
  rw [hb, arith]
  rcases intArith op a b with _ | _ | _ <;> rfl

/-- The wrapped result of `+`, `-` and `*` is the exact one modulo `2^64`. -/
theorem intArith_of_not_divides {op : Op} (hop : op.isArith = true) (hd : ¬ op.divides) (a b : Int64) :
    intArith op a b = some (.ok (.ofInt (op.exact a.toInt b.toInt))) := by
  cases op <;> simp [Op.isArith, Op.divides] at hop hd
  · simp [intArith, Op.exact, Int64.ofInt_add]
  · simp [intArith, Op.exact, Int64.ofInt_sub]
  · simp [intArith, Op.exact, Int64.ofInt_mul]

theorem intArith_zero {op : Op} (hd : op.divides) (a : Int64) :
    intArith op a 0 = some (.error "division by zero") := by
  rcases hd with rfl | rfl <;> rfl

theorem intArith_overflow {op : Op} (hd : op.divides) : intArith op Int64.minValue (-1) = none := by
  rcases hd with rfl | rfl <;> rfl

theorem intArith_of_divides {op : Op} (hd : op.divides) {a b : Int64} (hb : b ≠ 0)
    (hab : ¬ (a = Int64.minValue ∧ b = -1)) :
    intArith op a b = some (.ok (.ofInt (op.exact a.toInt b.toInt))) := by
  rcases hd with rfl | rfl
  · have hq : a / b = .ofInt (a.toInt.tdiv b.toInt) := by
      refine Int64.toInt_inj.mp ?_
      rw [Int64.toInt_div, Int64.toInt_ofInt]
    rw [intArith, if_neg hb, if_neg hab, hq, Op.exact]
  · rw [intArith, if_neg hb, if_neg hab]
    rfl

/-- **Integer arithmetic is total** but for one pair of operands of `/` and `%`. -/
theorem integer_arithmetic (R : Rec) (L : Lib) (op : Op) (hop : op.isArith = true) (a b : Int64) (s : LuaState) :
    ComputesExactly op a b s (R.exec (binop L op (.num a) (.num b)) s) ↔
      ¬ (op.divides ∧ a = Int64.minValue ∧ b = -1) := by
  rw [exec_binop_num R L op hop, ComputesExactly]
  by_cases hd : op.divides
  · by_cases hb : b = 0
    · subst hb
      rw [intArith_zero hd, if_pos ⟨hd, rfl⟩]
      exact iff_of_true rfl fun h => absurd h.2.2 (by decide)
    · rw [if_neg fun h => hb h.2]
      by_cases hab : a = Int64.minValue ∧ b = -1
      · obtain ⟨rfl, rfl⟩ := hab
        rw [intArith_overflow hd]
        exact iff_of_false (by simp [arithResult]) fun h => h ⟨hd, rfl, rfl⟩
      · rw [intArith_of_divides hd hb hab]
        exact iff_of_true rfl fun h => hab h.2
  · rw [intArith_of_not_divides hop hd, if_neg fun h => hd h.1]
    exact iff_of_true rfl fun h => hd h.1

/-- `-7 % 3` is 2. -/
theorem integer_arithmetic_mod : ComputesExactly .mod (-7) 3 {}
    (Rec.stuck.exec (binop bareLib .mod (.num (-7)) (.num 3)) {}) :=
  (integer_arithmetic Rec.stuck bareLib .mod rfl (-7) 3 {}).mpr (by decide)

/-- The least integer divided by -1 aborts. -/
theorem least_div_minus_one : ¬ ∀ (R : Rec) (L : Lib) (op : Op), op.isArith = true → ∀ (a b : Int64) (s : LuaState),
    ComputesExactly op a b s (R.exec (binop L op (.num a) (.num b)) s) := by
  intro h
  have hc := h Rec.stuck bareLib .div rfl Int64.minValue (-1) {}
  rw [exec_binop_num _ _ _ rfl, intArith_overflow (.inl rfl), ComputesExactly, if_neg (by decide)] at hc
  simp [arithResult] at hc

/-! ### Random integers -/

/-- A step of the generator. -/
def xorshift (x : UInt64) : UInt64 :=
  let x := x ^^^ (x <<< 13)
  let x := x ^^^ (x >>> 7)
  x ^^^ (x <<< 17)

/-- `next_random_int`. -/
def nextRandomInt : LuaM UInt64 := do
  let x := xorshift (← get).rngState
  modify fun s => { s with rngState := x }
  pure x

/-- `next_random`: the upper 53 bits as a fraction. -/
def nextRandom : LuaM Float := do
  let x ← nextRandomInt
  pure ((x >>> 11).toFloat / (9007199254740992 : UInt64).toFloat)

/-- A signed sum or difference: one outside 64 bits aborts or wraps. -/
def signed (checks : Bool) (z : ℤ) : LuaM Int64 :=
  if checks ∧ ¬ (-2 ^ 63 ≤ z ∧ z < 2 ^ 63) then fault .arith else pure (.ofInt z)

/-- `next_random_int(range) % range`. -/
def randomBelow (range : UInt64) : LuaM UInt64 := do
  let x ← nextRandomInt
  if range = 0 then fault .arith else pure (x % range)

/-- A number below `range`, moved to the start `m` of the interval. -/
def randomFrom (checks : Bool) (range : UInt64) (m : Int64) : LuaM ExecResult := do
  let x ← randomBelow range
  pure (.ret (.num (← signed checks (x.toInt64.toInt + m.toInt))))

/-- `math.random`. -/
def mathRandom (checks : Bool) : List Value → LuaM ExecResult
  | [] => do pure (.ret (.float (← nextRandom)))
  | [v] => do
    let m ← toIntegerForFormat v
    if m < 1 then err "math.random: interval is empty"
    else randomFrom checks m.toUInt64 1
  | [v, w] => do
    let m ← toIntegerForFormat v
    let n ← toIntegerForFormat w
    if m > n then err "math.random: interval is empty"
    else do
      let d ← signed checks (n.toInt - m.toInt)
      let range ← signed checks (d.toInt + 1)
      randomFrom checks range.toUInt64 m
  | _ => err "math.random expects 0 to 2 arguments"

/-- `math.randomseed`. -/
def mathRandomseed : List Value → LuaM ExecResult
  | v :: more => do
    if more.length > 1 then err "math.randomseed expects 1 or 2 arguments"
    else do
      let seed ← match v with
        | .num n => pure n.toUInt64
        | .float f => pure f.toBits
        | _ => err "math.randomseed expects a number"
      modify fun s => { s with rngState := if seed = 0 then 1 else seed }
      pure .normal
  | [] => err "math.randomseed expects 1 or 2 arguments"

/-- The interval a call of `math.random` asks for. -/
def interval : List Value → Option (Int64 × Int64)
  | [v] => (wholeOf v).map fun n => (1, n)
  | [v, w] => (wholeOf v).bind fun m => (wholeOf w).map fun n => (m, n)
  | _ => none

/-- A call returns an integer of the interval. -/
def DrawsWithin (m n : Int64) : EStateM.Result Stop LuaState ExecResult → Prop
  | .ok (.ret (.num r)) _ => m ≤ r ∧ r ≤ n
  | _ => False

/-- The state behind a draw. -/
def LuaState.drawn (s : LuaState) : LuaState := { s with rngState := xorshift s.rngState }

section Draws
variable (R : Rec) (s : LuaState)

theorem toNat_toUInt64_ofInt (z : ℤ) : (Int64.ofInt z).toUInt64.toNat = (z % 2 ^ 64).toNat := by
  have h : (Int64.ofInt z).toUInt64.toBitVec = BitVec.ofInt 64 z := rfl
  rw [← UInt64.toNat_toBitVec, h, BitVec.toNat_ofInt]
  rfl

theorem toInt_toInt64 (x : UInt64) : x.toInt64.toInt = (x.toNat : ℤ).bmod (2 ^ 64) := by
  have h : x.toInt64.toBitVec = x.toBitVec := rfl
  rw [← Int64.toInt_toBitVec, h, BitVec.toInt_eq_toNat_bmod]
  rfl

theorem exec_toIntegerForFormat {v : Value} {n : Int64} (h : wholeOf v = some n) :
    R.exec (toIntegerForFormat v) s = .ok n s := by
  rw [toIntegerForFormat, h]
  rfl

theorem exec_randomBelow (range : UInt64) :
    R.exec (randomBelow range) s =
      if range = 0 then .error (.fault .arith) s.drawn else .ok (xorshift s.rngState % range) s.drawn := by
  have hx : R.exec nextRandomInt s = .ok (xorshift s.rngState) s.drawn := rfl
  rw [randomBelow, exec_bind, bind_ok hx, exec_ite]
  split_ifs <;> rfl

theorem exec_signed_ok {checks : Bool} {z : ℤ} (h : checks = true → -2 ^ 63 ≤ z ∧ z < 2 ^ 63) :
    R.exec (signed checks z) s = .ok (.ofInt z) s := by
  rw [signed, if_neg (fun hc => hc.2 (h hc.1))]
  rfl

theorem exec_signed_fault {z : ℤ} (h : ¬ (-2 ^ 63 ≤ z ∧ z < 2 ^ 63)) :
    R.exec (signed true z) s = .error (.fault .arith) s := by
  rw [signed, if_pos ⟨rfl, h⟩]
  rfl

/-- A 64-bit number reduced to a length, moved to the start of the interval. -/
theorem draw_within {x range : UInt64} {m n : Int64} (hmn : m ≤ n) (hr : (range.toNat : ℤ) = n.toInt - m.toInt + 1) :
    (Int64.ofInt ((x % range).toInt64.toInt + m.toInt)).toInt = (x % range).toNat + m.toInt ∧
      (x % range).toNat + m.toInt ≤ n.toInt := by
  have hle : m.toInt ≤ n.toInt := Int64.le_iff_toInt_le.mp hmn
  have hlo := m.le_toInt
  have hhi := n.toInt_lt
  have hx : (x % range).toNat < range.toNat := by
    rw [UInt64.toNat_mod]
    exact Nat.mod_lt _ (by omega)
  have hsize : Int64.size = 2 ^ 64 := rfl
  constructor
  · rw [Int64.toInt_ofInt, toInt_toInt64, hsize, Int.bmod_add_bmod, Int.bmod_eq_of_le (by omega) (by omega)]
  · omega

/-- The draw is in the interval when `range` is its length; with overflow checks, one below `2^63`. -/
theorem randomFrom_within {checks : Bool} {range : UInt64} {m n : Int64} (hmn : m ≤ n)
    (hr : (range.toNat : ℤ) = n.toInt - m.toInt + 1) (hc : checks = true → n.toInt - m.toInt + 1 < 2 ^ 63) :
    DrawsWithin m n (R.exec (randomFrom checks range m) s) := by
  have hle : m.toInt ≤ n.toInt := Int64.le_iff_toInt_le.mp hmn
  have hne : range ≠ 0 := by
    rintro rfl
    simp at hr
    omega
  obtain ⟨hsum, hup⟩ := @draw_within (xorshift s.rngState) range m n hmn hr
  have hx : R.exec (randomBelow range) s = .ok (xorshift s.rngState % range) s.drawn := by
    rw [exec_randomBelow, if_neg hne]
  rw [randomFrom, exec_bind, bind_ok hx, exec_bind, bind_ok (exec_signed_ok R s.drawn ?_)]
  · change m ≤ _ ∧ _ ≤ n
    rw [Int64.le_iff_toInt_le, Int64.le_iff_toInt_le, hsum]
    omega
  · intro h
    have hlt : (xorshift s.rngState % range).toNat < range.toNat := by
      rw [UInt64.toNat_mod]
      exact Nat.mod_lt _ (by omega)
    have hlo := m.le_toInt
    have hhi := n.toInt_lt
    have hlen := hc h
    rw [toInt_toInt64, Int.bmod_eq_of_le (by omega) (by omega)]
    omega

/-- The length of the interval, as the code computes it without overflow checks. -/
theorem range_toNat (m n : Int64) :
    ((Int64.ofInt ((Int64.ofInt (n.toInt - m.toInt)).toInt + 1)).toUInt64.toNat : ℤ) =
      (n.toInt - m.toInt + 1) % 2 ^ 64 := by
  have hsize : Int64.size = 2 ^ 64 := rfl
  have hmod : ((n.toInt - m.toInt).bmod (2 ^ 64)) % 2 ^ 64 = (n.toInt - m.toInt) % 2 ^ 64 := Int.bmod_emod
  rw [toNat_toUInt64_ofInt, Int64.toInt_ofInt, hsize, Int.toNat_of_nonneg (Int.emod_nonneg _ (by norm_num)),
    Int.add_emod, hmod, ← Int.add_emod]

/-- `math.random(n)` on an integer that is no empty interval. -/
theorem exec_mathRandom_one (checks : Bool) {v : Value} {n : Int64} (hv : wholeOf v = some n) (hn : 1 ≤ n) :
    R.exec (mathRandom checks [v]) s = R.exec (randomFrom checks n.toUInt64 1) s := by
  have hlt : ¬ n < 1 := by
    rw [Int64.lt_iff_toInt_lt]
    exact not_lt.mpr (Int64.le_iff_toInt_le.mp hn)
  rw [mathRandom, exec_bind, bind_ok (exec_toIntegerForFormat R s hv), if_neg hlt]

/-- `math.random(m, n)` on integers that are no empty interval. -/
theorem exec_mathRandom_two (checks : Bool) {v w : Value} {m n : Int64} (hv : wholeOf v = some m)
    (hw : wholeOf w = some n) (hmn : m ≤ n) :
    R.exec (mathRandom checks [v, w]) s = R.exec (do
      let d ← signed checks (n.toInt - m.toInt)
      let range ← signed checks (d.toInt + 1)
      randomFrom checks range.toUInt64 m) s := by
  have hlt : ¬ m > n := by
    rw [gt_iff_lt, Int64.lt_iff_toInt_lt]
    exact not_lt.mpr (Int64.le_iff_toInt_le.mp hmn)
  rw [mathRandom, exec_bind, bind_ok (exec_toIntegerForFormat R s hv), exec_bind,
    bind_ok (exec_toIntegerForFormat R s hw), if_neg hlt]

/-- The draw in a build without overflow checks, when the length does not wrap to 0. -/
theorem random_two_within {checks : Bool} {v w : Value} {m n : Int64} (hv : wholeOf v = some m)
    (hw : wholeOf w = some n) (hmn : m ≤ n) (hc : checks = true → n.toInt - m.toInt + 1 < 2 ^ 63)
    (hlen : n.toInt - m.toInt + 1 < 2 ^ 64) : DrawsWithin m n (R.exec (mathRandom checks [v, w]) s) := by
  have hle : m.toInt ≤ n.toInt := Int64.le_iff_toInt_le.mp hmn
  have hsize : Int64.size = 2 ^ 64 := rfl
  have hd : checks = true → -2 ^ 63 ≤ n.toInt - m.toInt ∧ n.toInt - m.toInt < 2 ^ 63 := by
    intro h
    have := hc h
    omega
  have hr : checks = true → -2 ^ 63 ≤ (Int64.ofInt (n.toInt - m.toInt)).toInt + 1 ∧
      (Int64.ofInt (n.toInt - m.toInt)).toInt + 1 < 2 ^ 63 := by
    intro h
    have := hc h
    rw [Int64.toInt_ofInt_of_le (by omega) (by omega)]
    omega
  rw [exec_mathRandom_two R s checks hv hw hmn, exec_bind, bind_ok (exec_signed_ok R s hd), exec_bind,
    bind_ok (exec_signed_ok R s hr)]
  refine randomFrom_within R s hmn ?_ hc
  rw [range_toNat, Int.emod_eq_of_lt (by omega) hlen]

/-- A checked build aborts where the length does not fit. -/
theorem random_two_overflow {v w : Value} {m n : Int64} (hv : wholeOf v = some m)
    (hw : wholeOf w = some n) (hmn : m ≤ n) (hlen : 2 ^ 63 ≤ n.toInt - m.toInt + 1) :
    R.exec (mathRandom true [v, w]) s = .error (.fault .arith) s := by
  rw [exec_mathRandom_two R s true hv hw hmn, exec_bind]
  by_cases hd : n.toInt - m.toInt < 2 ^ 63
  · rw [bind_ok (exec_signed_ok R s fun _ => ⟨by omega, hd⟩), exec_bind, bind_error (exec_signed_fault R s ?_)]
    rw [Int64.toInt_ofInt_of_le (by omega) hd]
    omega
  · rw [bind_error (exec_signed_fault R s fun h => hd h.2)]

/-- The length of the full range wraps to 0, by which the draw is then divided. -/
theorem random_full_range {v w : Value} {m n : Int64} (hv : wholeOf v = some m) (hw : wholeOf w = some n)
    (hmn : m ≤ n) (hlen : n.toInt - m.toInt + 1 = 2 ^ 64) :
    R.exec (mathRandom false [v, w]) s = .error (.fault .arith) s.drawn := by
  have hrange := range_toNat m n
  rw [hlen, Int.emod_self] at hrange
  have hzero : (Int64.ofInt ((Int64.ofInt (n.toInt - m.toInt)).toInt + 1)).toUInt64 = 0 := by
    rw [← UInt64.toNat_inj]
    exact_mod_cast hrange
  rw [exec_mathRandom_two R s false hv hw hmn, exec_bind, bind_ok (exec_signed_ok R s (by simp)), exec_bind,
    bind_ok (exec_signed_ok R s (by simp)), hzero, randomFrom, exec_bind,
    bind_error ((exec_randomBelow R s 0).trans (if_pos rfl))]

end Draws

/-- `math.random(n)` draws from `1 .. n`. -/
theorem random_one_within (R : Rec) (s : LuaState) (checks : Bool) {v : Value} {n : Int64} (hv : wholeOf v = some n)
    (hn : 1 ≤ n) : DrawsWithin 1 n (R.exec (mathRandom checks [v]) s) := by
  have hpos : 1 ≤ n.toInt := Int64.le_iff_toInt_le.mp hn
  have hlt := n.toInt_lt
  have h1 : (1 : Int64).toInt = 1 := rfl
  rw [exec_mathRandom_one R s checks hv hn]
  refine randomFrom_within R s hn ?_ fun _ => by omega
  have hnat := toNat_toUInt64_ofInt n.toInt
  rw [Int64.ofInt_toInt] at hnat
  omega

/-- The two forms of a call with an interval. -/
theorem interval_cases {args : List Value} {m n : Int64} (h : interval args = some (m, n)) :
    (∃ v, args = [v] ∧ m = 1 ∧ wholeOf v = some n) ∨
      ∃ v w, args = [v, w] ∧ wholeOf v = some m ∧ wholeOf w = some n := by
  rcases args with _ | ⟨v, _ | ⟨w, _ | ⟨_, _⟩⟩⟩
  · simp [interval] at h
  · obtain ⟨n', hn, he⟩ := Option.map_eq_some_iff.mp h
    obtain ⟨rfl, rfl⟩ := Prod.mk.inj he
    exact .inl ⟨v, rfl, rfl, hn⟩
  · obtain ⟨m', hm, hn⟩ := Option.bind_eq_some_iff.mp h
    obtain ⟨n', hn', he⟩ := Option.map_eq_some_iff.mp hn
    obtain ⟨rfl, rfl⟩ := Prod.mk.inj he
    exact .inr ⟨v, w, rfl, hm, hn'⟩
  · simp [interval] at h

/-- **`math.random` stays in its interval**, and no step of it overflows or wraps, exactly when the
interval's length is below `2^63`. -/
theorem random_in_interval (R : Rec) {args : List Value} {m n : Int64} (h : interval args = some (m, n))
    (hmn : m ≤ n) (s : LuaState) :
    (∀ checks, DrawsWithin m n (R.exec (mathRandom checks args) s)) ↔ n.toInt - m.toInt + 1 < 2 ^ 63 := by
  rcases interval_cases h with ⟨v, rfl, rfl, hv⟩ | ⟨v, w, rfl, hv, hw⟩
  · have hlt := n.toInt_lt
    have h1 : (1 : Int64).toInt = 1 := rfl
    exact iff_of_true (fun checks => random_one_within R s checks hv hmn) (by omega)
  · constructor
    · intro hdraw
      by_contra hlen
      have hc := hdraw true
      rw [random_two_overflow R s hv hw hmn (by omega)] at hc
      exact hc
    · intro hlen checks
      exact random_two_within R s hv hw hmn (fun _ => hlen) (by omega)

/-- **`math.random` without overflow checks** leaves its interval only for the full range, whose
length wraps to 0. -/
theorem random_in_interval_unchecked (R : Rec) {args : List Value} {m n : Int64} (h : interval args = some (m, n))
    (hmn : m ≤ n) (s : LuaState) :
    DrawsWithin m n (R.exec (mathRandom false args) s) ↔ n.toInt - m.toInt + 1 < 2 ^ 64 := by
  rcases interval_cases h with ⟨v, rfl, rfl, hv⟩ | ⟨v, w, rfl, hv, hw⟩
  · have hlt := n.toInt_lt
    have h1 : (1 : Int64).toInt = 1 := rfl
    exact iff_of_true (random_one_within R s false hv hmn) (by omega)
  · refine ⟨fun hdraw => ?_, random_two_within R s hv hw hmn (by simp)⟩
    by_contra hlen
    have hlo := m.le_toInt
    have hhi := n.toInt_lt
    rw [random_full_range R s hv hw hmn (by omega)] at hdraw
    exact hdraw

/-- A die. -/
theorem die_in_interval :
    (∀ checks, DrawsWithin 1 6 (Rec.stuck.exec (mathRandom checks [.num 1, .num 6]) {})) ↔
      (6 : Int64).toInt - (1 : Int64).toInt + 1 < 2 ^ 63 :=
  random_in_interval Rec.stuck rfl (by decide) {}

/-- `math.random(math.mininteger, math.maxinteger)` divides by zero, also where overflow is not checked. -/
theorem full_range_aborts : ¬ ∀ (R : Rec) (args : List Value) (m n : Int64), interval args = some (m, n) → m ≤ n →
    ∀ (s : LuaState) (checks : Bool), DrawsWithin m n (R.exec (mathRandom checks args) s) := by
  intro h
  have hc := h Rec.stuck [.num Int64.minValue, .num Int64.maxValue] _ _ rfl (by decide) {} false
  rw [random_full_range Rec.stuck {} rfl rfl (by decide) (by decide)] at hc
  exact hc

/-! ### The generator's state -/

section State

/-- A word that a shift to the left keeps is 0. -/
theorem eq_zero_of_shiftLeft {x : BitVec 64} {k : ℕ} (hk : 0 < k) (h : x <<< k = x) : x = 0 := by
  have hj : ∀ j, x <<< (k * j) = x := by
    intro j
    induction j with
    | zero => simp
    | succ j ih => rw [Nat.mul_succ, BitVec.shiftLeft_add, ih, h]
  rw [← hj 64]
  exact BitVec.shiftLeft_eq_zero (Nat.le_mul_of_pos_left 64 hk)

/-- A word that a shift to the right keeps is 0. -/
theorem eq_zero_of_ushiftRight {x : BitVec 64} {k : ℕ} (hk : 0 < k) (h : x >>> k = x) : x = 0 := by
  have hj : ∀ j, x >>> (k * j) = x := by
    intro j
    induction j with
    | zero => simp
    | succ j ih => rw [Nat.mul_succ, BitVec.shiftRight_add, ih, h]
  rw [← hj 64]
  exact BitVec.ushiftRight_eq_zero (Nat.le_mul_of_pos_left 64 hk)

/-- A step of the generator loses no state: from a word other than 0 it never gets to 0. -/
theorem xorshift_ne_zero {x : UInt64} (h : x ≠ 0) : xorshift x ≠ 0 := by
  have hleft : ∀ (y : BitVec 64) {k : ℕ}, 0 < k → y ^^^ (y <<< k) = 0 → y = 0 := fun y k hk hz =>
    eq_zero_of_shiftLeft hk (BitVec.xor_eq_zero_iff.mp hz).symm
  have hright : ∀ (y : BitVec 64) {k : ℕ}, 0 < k → y ^^^ (y >>> k) = 0 → y = 0 := fun y k hk hz =>
    eq_zero_of_ushiftRight hk (BitVec.xor_eq_zero_iff.mp hz).symm
  intro hz
  have hb : (xorshift x).toBitVec = 0 := congrArg UInt64.toBitVec hz
  exact h (UInt64.toBitVec_inj.mp
    (hleft _ (by decide) (hright _ (by decide) (hleft _ (by decide) hb))))

/-- The generator is not stuck at 0. -/
def Lively (s : LuaState) : Prop := s.rngState ≠ 0

variable (R : Rec)

theorem lively_toIntegerForFormat (v : Value) : Maintains Lively (R.exec (toIntegerForFormat v)) := by
  unfold toIntegerForFormat
  cases wholeOf v with
  | none => exact .throw
  | some n => exact .pure n

theorem lively_nextRandomInt : Maintains Lively (R.exec nextRandomInt) := by
  intro s x s' hs h
  cases h
  exact xorshift_ne_zero hs

theorem lively_signed (checks : Bool) (z : ℤ) : Maintains Lively (R.exec (signed checks z)) := by
  rw [signed, exec_ite]
  exact .ite .throw (.pure _)

theorem lively_randomBelow (range : UInt64) : Maintains Lively (R.exec (randomBelow range)) := by
  rw [randomBelow, exec_bind]
  refine .bind (lively_nextRandomInt R) fun x => ?_
  rw [exec_ite]
  exact .ite .throw (.pure _)

theorem lively_randomFrom (checks : Bool) (range : UInt64) (m : Int64) :
    Maintains Lively (R.exec (randomFrom checks range m)) := by
  rw [randomFrom, exec_bind]
  refine .bind (lively_randomBelow R range) fun x => ?_
  rw [exec_bind]
  exact .bind (lively_signed R checks _) fun r => .pure _

theorem lively_nextRandom : Maintains Lively (R.exec nextRandom) := by
  rw [nextRandom, exec_bind]
  exact .bind (lively_nextRandomInt R) fun x => .pure _

theorem lively_mathRandom (checks : Bool) (args : List Value) : Maintains Lively (R.exec (mathRandom checks args)) := by
  rcases args with _ | ⟨v, _ | ⟨w, _ | ⟨_, _⟩⟩⟩
  · rw [mathRandom, exec_bind]
    exact .bind (lively_nextRandom R) fun x => .pure _
  · rw [mathRandom, exec_bind]
    refine .bind (lively_toIntegerForFormat R v) fun m => ?_
    rw [exec_ite]
    exact .ite .throw (lively_randomFrom R checks _ 1)
  · rw [mathRandom, exec_bind]
    refine .bind (lively_toIntegerForFormat R v) fun m => ?_
    rw [exec_bind]
    refine .bind (lively_toIntegerForFormat R w) fun n => ?_
    rw [exec_ite, exec_bind]
    refine .ite .throw (.bind (lively_signed R checks _) fun d => ?_)
    rw [exec_bind]
    exact .bind (lively_signed R checks _) fun range => lively_randomFrom R checks _ m
  · exact .throw

theorem lively_mathRandomseed (args : List Value) (s s' : LuaState) (r : ExecResult)
    (h : R.exec (mathRandomseed args) s = .ok r s') : Lively s' := by
  have hseed : ∀ seed : UInt64, (if seed = 0 then 1 else seed) ≠ 0 := by
    intro seed
    split_ifs with h0
    · decide
    · exact h0
  rcases args with _ | ⟨v, more⟩
  · cases h
  · rw [mathRandomseed] at h
    by_cases hm : more.length > 1
    · rw [if_pos hm] at h
      cases h
    · rw [if_neg hm] at h
      cases v <;> cases h <;> exact hseed _

/-- One call of `math.random` or `math.randomseed` that returns. -/
def RandomCall (checks : Bool) (s s' : LuaState) : Prop :=
  ∃ args r, R.exec (mathRandom checks args) s = .ok r s' ∨ R.exec (mathRandomseed args) s = .ok r s'

/-- **The generator never dies**: no run of calls takes it to the state 0, which it would not leave. -/
theorem lively_of_calls (checks : Bool) {s s' : LuaState} (hs : Lively s)
    (h : Relation.ReflTransGen (RandomCall R checks) s s') : Lively s' := by
  induction h with
  | refl => exact hs
  | tail _ hcall ih =>
    obtain ⟨args, r, hr | hr⟩ := hcall
    · exact lively_mathRandom R checks args _ _ _ ih hr
    · exact lively_mathRandomseed R args _ _ _ hr

end State

end Lua
end Rustrapper
