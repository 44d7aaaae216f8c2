/-
# string.unpack with checks

`stringUnpackChecked` is `string.unpack` with every position and length computed
under an overflow check. A call is safe when it returns values or an error of
the language and the checks change nothing. That is so exactly when every option
it comes to is clear (`unpack_safe_iff`): each of the ways to go wrong is a
condition on the option, the position and the bytes in front of it.
-/
import Rustrapper.Codec.Text
import Rustrapper.Effect.Reached
import Rustrapper.Lua.Ranges
import Rustrapper.Lua.Unpack

namespace Rustrapper
namespace Lua
namespace Pack

open Codec

/-! ### Checked arithmetic -/

/-- `a + b`, checked. -/
def add (bits a b : ℕ) : Except Exc ℕ := if a + b < 2 ^ bits then .ok (a + b) else .error (.fault .arith)

/-- The digits that go on with the number `n`: `n * 10 + d`, checked. -/
def digitsChecked (bits : ℕ) : List UInt8 → ℕ → Except Exc ℕ
  | [], n => .ok n
  | b :: bs, n =>
    if isAsciiDigit b then
      if n * 10 + (b.toNat - 48) < 2 ^ bits then digitsChecked bits bs (n * 10 + (b.toNat - 48))
      else .error (.fault .arith)
    else .ok n

/-- The number behind the letter `op`, if it takes one. -/
def numberChecked (bits : ℕ) (op : UInt8) (rest : List UInt8) : Except Exc ℕ :=
  match Char.ofNat op.toNat with
  | '!' | 'i' | 'I' | 'c' | 's' => digitsChecked bits rest 0
  | 'X' => digitsChecked bits rest.tail 0
  | _ => .ok 0

/-- `align_pos`, checked. -/
def alignChecked (bits pos size alignMax : ℕ) : Except Exc ℕ :=
  let a := min size alignMax
  if a ≤ 1 then .ok pos
  else
    let mask := a - 1
    if pos &&& mask = 0 then .ok pos
    else do
      let sum ← add bits pos a
      .ok (BitVec.ofNat bits (sum - 1) &&& ~~~ BitVec.ofNat bits mask).toNat

/-- The `n` bytes from a position on. -/
def spanChecked (bits : ℕ) (src : List UInt8) (pos n : ℕ) : Except Exc (List UInt8) := do
  let stop ← add bits pos n
  if stop > src.length then .error (msg "string.unpack: out of string") else .ok (slice src pos n)

/-- `(b as u64) << (k * 8)` for the bytes of a length. -/
def shiftsChecked (size : ℕ) : Except Exc Unit := if size ≤ 8 then .ok () else .error (.fault .arith)

/-- What a field reads, and the position behind it. -/
def decodeChecked (bits : ℕ) (src : List UInt8) (little : Bool) (f : Field) (pos : ℕ) : Except Exc (Item × ℕ) :=
  match f with
  | .int size signed => do
    let bs ← spanChecked bits src pos size
    .ok (.int (readInt little signed bs), pos + size)
  | .single => do
    let bs ← spanChecked bits src pos 4
    .ok (.float (Float32.ofBits (.ofNat (ofLE (ordered little bs)))).toFloat, pos + 4)
  | .double => do
    let bs ← spanChecked bits src pos 8
    .ok (.float (Float.ofBits (.ofNat (ofLE (ordered little bs)))), pos + 8)
  | .chars n => do
    let bs ← spanChecked bits src pos n
    .ok (.str bs, pos + n)
  | .zstr =>
    if pos > src.length then .error (.fault .index)
    else
      let bs := (src.drop pos).takeWhile (· ≠ 0)
      let stop := pos + bs.length
      .ok (.str bs, if stop < src.length then stop + 1 else stop)
  | .sized size => do
    let bs ← spanChecked bits src pos size
    shiftsChecked size
    let len := orBytes (ordered little bs) 0 % 2 ^ bits
    let val ← spanChecked bits src (pos + size) len
    .ok (.str val, pos + size + len)

/-- One option, and the value it reads. -/
def stepChecked (bits : ℕ) (src : List UInt8) (o : Opt) (u : Unpacking) : Except Exc (Option Item × Unpacking) :=
  match o with
  | .endian little => .ok (none, { u with little })
  | .maxAlign n => .ok (none, { u with alignMax := n })
  | .space => .ok (none, u)
  | .pad =>
    if u.pos ≥ src.length then .error (msg "string.unpack: out of string")
    else .ok (none, { u with pos := u.pos + 1 })
  | .align size => do
    let pos ← alignChecked bits u.pos size u.alignMax
    .ok (none, { u with pos })
  | .field f => do
    let pos ← alignChecked bits u.pos f.alignment u.alignMax
    let (item, pos) ← decodeChecked bits src u.little f pos
    .ok (some item, { u with pos })

/-- The loop of `string.unpack` over the rest of the format. -/
def loopChecked (bits : ℕ) (src : List UInt8) : List UInt8 → Unpacking → ℕ → LuaM (ℕ × ℕ)
  | [], u, nres => pure (u.pos, nres)
  | op :: rest, u, nres => do
    let _ ← ofExcept (numberChecked bits op rest)
    match readOption bits op rest with
    | .error m => err m
    | .ok p => do
      let (item, u) ← ofExcept (stepChecked bits src p.1.1 u)
      match item with
      | none => loopChecked bits src p.1.2 u nres
      | some item => do
        emit item
        loopChecked bits src p.1.2 u (nres + 1)
termination_by fmt => fmt.length
decreasing_by
  all_goals
    have := p.2
    rw [List.length_cons]
    omega

/-- The start position. -/
def startChecked (bits : ℕ) : List Value → LuaM ℕ
  | [] => pure 0
  | v :: _ =>
    match wholeOf v with
    | some n => if n = Int64.minValue then fault .arith else pure ((n - 1).toUInt64.toNat % 2 ^ bits)
    | none => err "bad argument (number expected, got string)"

/-- The results behind the loop: the values, and the position behind them counted from 1. -/
def resultsAt (pos nres : ℕ) : LuaM ExecResult := do
  pushVal (.num (.ofNat pos))
  if nres + 1 = 2 then do
    let b ← pop
    let a ← pop
    pure (.ret2 a b)
  else pure (.retN (nres + 1))

def unpackAtChecked (bits : ℕ) (fmt src : List UInt8) (pos : ℕ) : LuaM ExecResult :=
  if pos > src.length then err "initial position out of string"
  else if fmt.length > STR_CAP then err "format string too long"
  else do
    let (pos, nres) ← loopChecked bits src fmt ⟨pos, true, 1⟩ 0
    let next ← ofExcept (add bits pos 1)
    resultsAt next nres

/-- `string.unpack`, its arithmetic on positions and lengths checked. -/
def stringUnpackChecked (bits : ℕ) (args : List Value) : LuaM ExecResult :=
  if args.length < 2 ∨ args.length > 3 then err "string.unpack expects 2 or 3 arguments"
  else
    match args with
    | .str f :: .str r :: more => do
      let s ← get
      if (s.strBytes r).length > PACK_CAP then err "string too long"
      else do
        let pos ← startChecked bits more
        unpackAtChecked bits (s.strBytes f) (s.strBytes r) pos
    | .str _ :: _ => err "string.unpack expects a string"
    | _ => err "string.unpack expects a string format"

/-! ### Where an option is clear -/

/-- The number that a letter takes is a machine word. -/
def NumberFits (bits : ℕ) (op : UInt8) (rest : List UInt8) : Prop :=
  match Char.ofNat op.toNat with
  | '!' | 'i' | 'I' | 'c' | 's' => decimalFrom 0 (rest.takeWhile isAsciiDigit) < 2 ^ bits
  | 'X' => decimalFrom 0 (rest.tail.takeWhile isAsciiDigit) < 2 ^ bits
  | _ => True

/-- The position is aligned, or there is room for the alignment behind it. -/
def AlignFits (bits pos size alignMax : ℕ) : Prop :=
  min size alignMax ≤ 1 ∨ pos &&& (min size alignMax - 1) = 0 ∨ pos + min size alignMax < 2 ^ bits

/-- The field at the position ends before `2 ^ bits`. A string up to a NUL starts inside the source; the length of a
sized one has at most 8 bytes, and the string behind it ends before `2 ^ bits` as well. -/
def FieldFits (bits : ℕ) (src : List UInt8) (little : Bool) (f : Field) (pos : ℕ) : Prop :=
  match f with
  | .int size _ => pos + size < 2 ^ bits
  | .single => pos + 4 < 2 ^ bits
  | .double => pos + 8 < 2 ^ bits
  | .chars n => pos + n < 2 ^ bits
  | .zstr => pos ≤ src.length
  | .sized size => pos + size < 2 ^ bits ∧ (pos + size ≤ src.length → size ≤ 8 ∧
      pos + size + orBytes (ordered little (slice src pos size)) 0 % 2 ^ bits < 2 ^ bits)

/-- The option is clear. -/
def OptFits (bits : ℕ) (src : List UInt8) (o : Opt) (u : Unpacking) : Prop :=
  match o with
  | .align size => AlignFits bits u.pos size u.alignMax
  | .field f => AlignFits bits u.pos f.alignment u.alignMax ∧
      FieldFits bits src u.little f (alignPos bits u.pos f.alignment u.alignMax)
  | _ => True

/-- What the loop is about to do: the rest of the format, its variables and the state of the interpreter. -/
abbrev Config := List UInt8 × Unpacking × LuaState

/-- The next option of the format is clear; at its end, the next position is a machine word. -/
def Clear (bits : ℕ) (src : List UInt8) : Config → Prop
  | ([], u, _) => u.pos + 1 < 2 ^ bits
  | (op :: rest, u, _) => NumberFits bits op rest ∧ ∀ p, readOption bits op rest = .ok p → OptFits bits src p.1.1 u

/-- One option of the loop: a value it reads is pushed. -/
inductive Next (R : Rec) (bits : ℕ) (src : List UInt8) : Config → Config → Prop
  | skip {op : UInt8} {rest : List UInt8} {p : { p : Opt × List UInt8 // p.2.length ≤ rest.length }} {u u' : Unpacking}
      {s : LuaState} (hread : readOption bits op rest = .ok p) (hstep : unpackStep bits src p.1.1 u = .ok (none, u')) :
      Next R bits src (op :: rest, u, s) (p.1.2, u', s)
  | read {op : UInt8} {rest : List UInt8} {p : { p : Opt × List UInt8 // p.2.length ≤ rest.length }} {u u' : Unpacking}
      {item : Item} {s s' : LuaState} (hread : readOption bits op rest = .ok p)
      (hstep : unpackStep bits src p.1.1 u = .ok (some item, u')) (hemit : R.exec (emit item) s = .ok () s') :
      Next R bits src (op :: rest, u, s) (p.1.2, u', s')

/-- Where the loop of a call starts. -/
inductive Starts (bits : ℕ) (s : LuaState) (f r : StrRef) : List Value → Config → Prop
  | first (hle : (s.strBytes r).length ≤ PACK_CAP) (hfmt : (s.strBytes f).length ≤ STR_CAP) :
      Starts bits s f r [] (s.strBytes f, ⟨0, true, 1⟩, s)
  | given {v : Value} {n : Int64} (hle : (s.strBytes r).length ≤ PACK_CAP) (hfmt : (s.strBytes f).length ≤ STR_CAP)
      (hv : wholeOf v = some n) (hpos : (n - 1).toUInt64.toNat % 2 ^ bits ≤ (s.strBytes r).length) :
      Starts bits s f r [v] (s.strBytes f, ⟨(n - 1).toUInt64.toNat % 2 ^ bits, true, 1⟩, s)

/-! ### Checked computations -/

/-- The checked computation `x` is `y` under the condition, and faults without it; `y` fails with an error of the
language only. -/
structure Checks {α : Type} (c : Prop) (x y : Except Exc α) : Prop where
  same : c → x = y
  benign : c → ∀ e, y = .error e → ∃ m, e = .lua m
  faults : ¬ c → ∃ f, x = .error (.fault f)

section
variable {α β : Type} {c c' : Prop} {x y : Except Exc α} {k k' : α → Except Exc β} {d : α → Prop}

theorem Checks.congr (h : Checks c x y) (hc : c ↔ c') : Checks c' x y :=
  ⟨fun h' => h.same (hc.mpr h'), fun h' => h.benign (hc.mpr h'), fun h' => h.faults (hc.not.mpr h')⟩

theorem Checks.ok (a : α) : Checks True (.ok a) (.ok a) := by
  refine ⟨fun _ => rfl, fun _ e he => ?_, fun h => absurd trivial h⟩
  cases he

theorem Checks.lua (e : LuaError) : Checks True (.error (.lua e) : Except Exc α) (.error (.lua e)) := by
  refine ⟨fun _ => rfl, fun _ e' he => ?_, fun h => absurd trivial h⟩
  cases he
  exact ⟨e, rfl⟩

/-- The second part is only looked at behind a result of the first. -/
theorem Checks.bind (h : Checks c x y) (hk : ∀ a, y = .ok a → Checks (d a) (k a) (k' a)) :
    Checks (c ∧ ∀ a, y = .ok a → d a) (x >>= k) (y >>= k') := by
  by_cases hc : c
  · rw [h.same hc]
    cases hy : y with
    | error e =>
      obtain ⟨m, rfl⟩ := h.benign hc e hy
      refine (Checks.lua m).congr (iff_of_true trivial ⟨hc, fun a ha => ?_⟩)
      cases ha
    | ok a =>
      refine (hk a hy).congr ⟨fun hd => ⟨hc, fun b hb => ?_⟩, fun hd => hd.2 a rfl⟩
      cases hb
      exact hd
  · obtain ⟨f, hf⟩ := h.faults hc
    rw [hf]
    exact ⟨fun h' => absurd h'.1 hc, fun h' => absurd h'.1 hc, fun _ => ⟨f, rfl⟩⟩

theorem Checks.then_ok (h : Checks c x y) (g : α → β) :
    Checks c (x >>= fun a => .ok (g a)) (y >>= fun a => .ok (g a)) :=
  (h.bind fun a _ => Checks.ok (g a)).congr (by simp)

end

section
variable (bits : ℕ) (src : List UInt8)

theorem checks_add (a b : ℕ) : Checks (a + b < 2 ^ bits) (add bits a b) (.ok (a + b)) := by
  refine ⟨fun h => if_pos h, fun _ e he => ?_, fun h => ⟨.arith, if_neg h⟩⟩
  cases he

theorem checks_align (pos size alignMax : ℕ) :
    Checks (AlignFits bits pos size alignMax) (alignChecked bits pos size alignMax)
      (.ok (alignPos bits pos size alignMax)) := by
  unfold AlignFits alignChecked alignPos
  dsimp only
  generalize min size alignMax = a
  by_cases h1 : a ≤ 1
  · rw [if_pos h1, if_pos h1]
    exact (Checks.ok pos).congr (iff_of_true trivial (.inl h1))
  rw [if_neg h1, if_neg h1]
  by_cases h0 : pos &&& (a - 1) = 0
  · rw [if_pos h0, if_pos h0]
    exact (Checks.ok pos).congr (iff_of_true trivial (.inr (.inl h0)))
  rw [if_neg h0, if_neg h0]
  have hsum : pos + a - 1 = pos + (a - 1) := by omega
  have h := (checks_add bits pos a).then_ok fun sum =>
    (BitVec.ofNat bits (sum - 1) &&& ~~~ BitVec.ofNat bits (a - 1)).toNat
  rw [← hsum]
  exact h.congr (by simp [h1, h0])

theorem checks_span (pos n : ℕ) : Checks (pos + n < 2 ^ bits) (spanChecked bits src pos n) (span bits src pos n) := by
  unfold spanChecked span
  by_cases h : pos + n < 2 ^ bits
  · rw [(checks_add bits pos n).same h, Nat.mod_eq_of_lt h]
    by_cases hlen : pos + n > src.length
    · rw [if_pos hlen]
      change Checks _ (if pos + n > src.length then _ else _) _
      rw [if_pos hlen]
      exact (Checks.lua _).congr (iff_of_true trivial h)
    · rw [if_neg hlen, if_neg hlen]
      change Checks _ (if pos + n > src.length then _ else _) _
      rw [if_neg hlen]
      exact (Checks.ok _).congr (iff_of_true trivial h)
  · obtain ⟨f, hf⟩ := (checks_add bits pos n).faults h
    rw [hf]
    exact ⟨fun h' => absurd h' h, fun h' => absurd h' h, fun _ => ⟨f, rfl⟩⟩

theorem checks_shifts (size : ℕ) : Checks (size ≤ 8) (shiftsChecked size) (.ok ()) := by
  refine ⟨fun h => if_pos h, fun _ e he => ?_, fun h => ⟨.arith, if_neg h⟩⟩
  cases he

variable {bits src} in
theorem span_eq_ok {pos n : ℕ} (h : pos + n < 2 ^ bits) {bs : List UInt8} :
    span bits src pos n = .ok bs ↔ pos + n ≤ src.length ∧ bs = slice src pos n := by
  rw [span, Nat.mod_eq_of_lt h]
  by_cases hlen : pos + n > src.length
  · simp [hlen]
  · rw [if_neg hlen, if_neg hlen, Except.ok.injEq, eq_comm, and_iff_right (not_lt.mp hlen)]

/-- **A field is clear** when its reading is checked without effect. -/
theorem checks_decode (little : Bool) (f : Field) (pos : ℕ) :
    Checks (FieldFits bits src little f pos) (decodeChecked bits src little f pos) (decode bits src little f pos) := by
  cases f with
  | int size signed => exact (checks_span bits src pos size).then_ok _
  | single => exact (checks_span bits src pos 4).then_ok _
  | double => exact (checks_span bits src pos 8).then_ok _
  | chars n => exact (checks_span bits src pos n).then_ok _
  | zstr =>
    unfold FieldFits decodeChecked decode
    dsimp only
    by_cases hpos : pos > src.length
    · rw [if_pos hpos]
      exact ⟨fun h => absurd h (not_le.mpr hpos), fun h => absurd h (not_le.mpr hpos), fun _ => ⟨.index, rfl⟩⟩
    · rw [if_neg hpos]
      exact (Checks.ok _).congr (iff_of_true trivial (not_lt.mp hpos))
  | sized size =>
    have hval := fun bs : List UInt8 =>
      (checks_span bits src (pos + size) (orBytes (ordered little bs) 0 % 2 ^ bits)).then_ok
        fun val => (Item.str val, pos + size + orBytes (ordered little bs) 0 % 2 ^ bits)
    have h := (checks_span bits src pos size).bind fun bs _ =>
      (checks_shifts size).bind fun _ _ => hval bs
    refine h.congr (and_congr_right fun hfit => ?_)
    constructor
    · intro hall hle
      obtain ⟨h8, hlen⟩ := hall _ ((span_eq_ok hfit).mpr ⟨hle, rfl⟩)
      exact ⟨h8, hlen () rfl⟩
    · intro hall bs hbs
      obtain ⟨hle, rfl⟩ := (span_eq_ok hfit).mp hbs
      exact ⟨(hall hle).1, fun _ _ => (hall hle).2⟩

/-- **An option is clear** when it is checked without effect. -/
theorem checks_step (o : Opt) (u : Unpacking) :
    Checks (OptFits bits src o u) (stepChecked bits src o u) (unpackStep bits src o u) := by
  cases o with
  | endian little => exact Checks.ok _
  | maxAlign n => exact Checks.ok _
  | space => exact Checks.ok _
  | pad =>
    unfold stepChecked unpackStep
    dsimp only
    split_ifs
    · exact Checks.lua _
    · exact Checks.ok _
  | align size => exact (checks_align bits u.pos size u.alignMax).then_ok fun pos => (none, { u with pos })
  | field f =>
    have h := (checks_align bits u.pos f.alignment u.alignMax).bind fun pos _ =>
      (checks_decode bits src u.little f pos).then_ok fun r => (some r.1, { u with pos := r.2 })
    refine h.congr ?_
    simp [OptFits]

/-- The digits overflow exactly when their number is no machine word. -/
theorem checks_digits (bs : List UInt8) {n : ℕ} (hn : n < 2 ^ bits) :
    Checks (decimalFrom n (bs.takeWhile isAsciiDigit) < 2 ^ bits) (digitsChecked bits bs n)
      (.ok (decimalFrom n (bs.takeWhile isAsciiDigit))) := by
  induction bs generalizing n with
  | nil => exact (Checks.ok n).congr (iff_of_true trivial hn)
  | cons b bs ih =>
    rw [digitsChecked, List.takeWhile_cons]
    by_cases hb : isAsciiDigit b = true
    · rw [if_pos hb, if_pos hb, decimalFrom, List.foldl_cons]
      by_cases hfit : n * 10 + (b.toNat - 48) < 2 ^ bits
      · rw [if_pos hfit]
        exact ih hfit
      · have hle := le_decimalFrom (n * 10 + (b.toNat - 48)) (bs.takeWhile isAsciiDigit)
        have hbig : ¬ decimalFrom (n * 10 + (b.toNat - 48)) (bs.takeWhile isAsciiDigit) < 2 ^ bits := by omega
        rw [if_neg hfit]
        exact ⟨fun h => absurd h hbig, fun h => absurd h hbig, fun _ => ⟨.arith, rfl⟩⟩
    · rw [if_neg hb, if_neg hb]
      exact (Checks.ok n).congr (iff_of_true trivial hn)

/-- The number behind a letter overflows exactly when it is no machine word. -/
theorem checks_number (op : UInt8) (rest : List UInt8) :
    ∃ n, Checks (NumberFits bits op rest) (numberChecked bits op rest) (.ok n) := by
  have hzero : 0 < 2 ^ bits := Nat.two_pow_pos bits
  unfold NumberFits numberChecked
  split
  · exact ⟨_, checks_digits bits rest hzero⟩
  · exact ⟨_, checks_digits bits rest hzero⟩
  · exact ⟨_, checks_digits bits rest hzero⟩
  · exact ⟨_, checks_digits bits rest hzero⟩
  · exact ⟨_, checks_digits bits rest hzero⟩
  · exact ⟨_, checks_digits bits rest.tail hzero⟩
  · exact ⟨_, Checks.ok 0⟩

end

/-! ### Running -/

section
variable {R : Rec} {s : LuaState} {α β : Type}

theorem exec_ofExcept_ok {x : Except Exc α} {a : α} (h : x = .ok a) (k : α → LuaM β) :
    R.exec (ofExcept x >>= k) s = R.exec (k a) s := by rw [h]; rfl

theorem exec_ofExcept_error {x : Except Exc α} {e : Exc} (h : x = .error e) (k : α → LuaM β) :
    R.exec (ofExcept x >>= k) s = .error e.toStop s := by rw [h]; rfl

/-- A value that was read is on the stack, or there is an error of the language. -/
theorem exec_emit (item : Item) : (∃ t, R.exec (emit item) s = .ok () t ∧ t.vsp = s.vsp + 1) ∨
    ∃ e t, R.exec (emit item) s = .error (.lua e) t := by
  have hpush : ∀ (v : Value) (s : LuaState), (∃ t, R.exec (pushVal v) s = .ok () t ∧ t.vsp = s.vsp + 1) ∨
      ∃ e t, R.exec (pushVal v) s = .error (.lua e) t := by
    intro v s
    by_cases hroom : s.vsp < STACK_CAP
    · exact .inl ⟨_, exec_pushVal R s v hroom, rfl⟩
    · exact .inr ⟨_, _, exec_pushVal_full R s v hroom⟩
  cases item with
  | int n => exact hpush _ s
  | float x => exact hpush _ s
  | str b =>
    rw [emit, exec_bind]
    have hintern := exec_intern R s b
    cases hcase : s.toHeap.intern b with
    | error m =>
      rw [hcase] at hintern
      exact .inr ⟨_, _, bind_error hintern _⟩
    | ok p =>
      rw [hcase] at hintern
      rw [bind_ok hintern]
      exact hpush _ _

/-- The results are there to be popped. -/
theorem resultsAt_safe (pos : ℕ) {nres : ℕ} (h : nres ≤ s.vsp) : Pattern.Safe (R.exec (resultsAt pos nres) s) := by
  rw [resultsAt, exec_bind]
  by_cases hroom : s.vsp < STACK_CAP
  · rw [bind_ok (exec_pushVal R s _ hroom)]
    by_cases htwo : nres + 1 = 2
    · obtain ⟨v, vs, hstack⟩ : ∃ v vs, s.vstack = v :: vs := by
        apply List.exists_cons_of_ne_nil
        rintro hnil
        rw [Machine.vsp, hnil, List.length_nil] at h
        omega
      rw [if_pos htwo, exec_bind, bind_ok (exec_pop R _ rfl), exec_bind, bind_ok (exec_pop R _ hstack)]
      exact Pattern.safe_ok _
    · rw [if_neg htwo]
      exact Pattern.safe_ok _
  · rw [bind_error (exec_pushVal_full R s _ hroom)]
    exact Pattern.safe_lua _

end

/-! ### The loop -/

section
variable {R : Rec} {bits : ℕ} {src : List UInt8}

section
variable {op : UInt8} {rest : List UInt8} {p : { p : Opt × List UInt8 // p.2.length ≤ rest.length }}
  {u u' : Unpacking} {item : Item} {s t : LuaState} {c' : Config}

theorem not_next_end : ¬ Next R bits src ([], u, s) c' := by
  intro h
  cases h

theorem not_next_malformed {m : String} (hread : readOption bits op rest = .error m) :
    ¬ Next R bits src (op :: rest, u, s) c' := by
  rintro (⟨h, -⟩ | ⟨h, -⟩) <;> cases hread.symm.trans h

theorem not_next_error {e : Exc} (hread : readOption bits op rest = .ok p)
    (hstep : unpackStep bits src p.1.1 u = .error e) : ¬ Next R bits src (op :: rest, u, s) c' := by
  rintro (⟨h, hs⟩ | ⟨h, hs, -⟩) <;> cases hread.symm.trans h <;> cases hstep.symm.trans hs

theorem not_next_full {e : Stop} (hread : readOption bits op rest = .ok p)
    (hstep : unpackStep bits src p.1.1 u = .ok (some item, u')) (hemit : R.exec (emit item) s = .error e t) :
    ¬ Next R bits src (op :: rest, u, s) c' := by
  rintro (⟨h, hs⟩ | ⟨h, hs, he⟩) <;> cases hread.symm.trans h <;> cases hstep.symm.trans hs
  cases hemit.symm.trans he

theorem next_skip_iff (hread : readOption bits op rest = .ok p) (hstep : unpackStep bits src p.1.1 u = .ok (none, u')) :
    Next R bits src (op :: rest, u, s) c' ↔ c' = (p.1.2, u', s) := by
  constructor
  · rintro (⟨h, hs⟩ | ⟨h, hs, -⟩) <;> cases hread.symm.trans h <;> cases hstep.symm.trans hs
    rfl
  · rintro rfl
    exact .skip hread hstep

theorem next_read_iff (hread : readOption bits op rest = .ok p)
    (hstep : unpackStep bits src p.1.1 u = .ok (some item, u')) (hemit : R.exec (emit item) s = .ok () t) :
    Next R bits src (op :: rest, u, s) c' ↔ c' = (p.1.2, u', t) := by
  constructor
  · rintro (⟨h, hs⟩ | ⟨h, hs, he⟩) <;> cases hread.symm.trans h <;> cases hstep.symm.trans hs
    cases hemit.symm.trans he
    rfl
  · rintro rfl
    exact .read hread hstep hemit

end

/-- The loop with checks, and the results. -/
def runChecked (bits : ℕ) (src fmt : List UInt8) (u : Unpacking) (nres : ℕ) : LuaM ExecResult := do
  let (pos, nres) ← loopChecked bits src fmt u nres
  let next ← ofExcept (add bits pos 1)
  resultsAt next nres

/-- The loop, and the results. -/
def runPlain (bits : ℕ) (src fmt : List UInt8) (u : Unpacking) (nres : ℕ) : LuaM ExecResult := do
  let (pos, nres) ← unpackLoop bits src (options bits fmt) u nres
  resultsAt ((pos + 1) % 2 ^ bits) nres

/-- What is done behind an option. -/
def behind (run : List UInt8 → Unpacking → ℕ → LuaM ExecResult) (rest : List UInt8) (nres : ℕ) :
    Option Item × Unpacking → LuaM ExecResult
  | (none, u) => run rest u nres
  | (some item, u) => do
    emit item
    run rest u (nres + 1)

section
variable {op : UInt8} {rest : List UInt8} {u : Unpacking} {nres : ℕ} {s : LuaState}

theorem runChecked_fault {f : Fault} (hn : numberChecked bits op rest = .error (.fault f)) :
    R.exec (runChecked bits src (op :: rest) u nres) s = .error (.fault f) s := by
  rw [runChecked, loopChecked, hn]
  rfl

theorem runChecked_malformed {n : ℕ} {m : String} (hn : numberChecked bits op rest = .ok n)
    (hread : readOption bits op rest = .error m) :
    R.exec (runChecked bits src (op :: rest) u nres) s = .error (.lua (.msg m)) s := by
  rw [runChecked, loopChecked, hn, hread]
  rfl

theorem runChecked_step {n : ℕ} {p : { p : Opt × List UInt8 // p.2.length ≤ rest.length }}
    (hn : numberChecked bits op rest = .ok n) (hread : readOption bits op rest = .ok p) :
    R.exec (runChecked bits src (op :: rest) u nres) s =
      R.exec (ofExcept (stepChecked bits src p.1.1 u) >>= behind (runChecked bits src) p.1.2 nres) s := by
  rw [runChecked, loopChecked, hn, hread]
  dsimp only
  rcases stepChecked bits src p.1.1 u with e | ⟨_ | item, u'⟩
  · rfl
  · rfl
  · change R.exec ((emit item >>= fun _ => loopChecked bits src p.1.2 u' (nres + 1)) >>= _) s =
      R.exec (emit item >>= fun _ => runChecked bits src p.1.2 u' (nres + 1)) s
    simp only [exec_bind, bind_assoc, runChecked]

theorem runChecked_nil : R.exec (runChecked bits src [] u nres) s =
    R.exec (ofExcept (add bits u.pos 1) >>= fun next => resultsAt next nres) s := by
  rw [runChecked, loopChecked]
  rfl

theorem runPlain_nil : R.exec (runPlain bits src [] u nres) s =
    R.exec (resultsAt ((u.pos + 1) % 2 ^ bits) nres) s := by
  rw [runPlain, options]
  rfl

theorem runPlain_malformed {m : String} (hread : readOption bits op rest = .error m) :
    R.exec (runPlain bits src (op :: rest) u nres) s = .error (.lua (.msg m)) s := by
  rw [runPlain, options, hread]
  rfl

theorem runPlain_step {p : { p : Opt × List UInt8 // p.2.length ≤ rest.length }}
    (hread : readOption bits op rest = .ok p) :
    R.exec (runPlain bits src (op :: rest) u nres) s =
      R.exec (ofExcept (unpackStep bits src p.1.1 u) >>= behind (runPlain bits src) p.1.2 nres) s := by
  rw [runPlain, options, hread]
  dsimp only
  rw [unpackLoop]
  rcases unpackStep bits src p.1.1 u with e | ⟨_ | item, u'⟩
  · rfl
  · rfl
  · change R.exec ((emit item >>= fun _ => unpackLoop bits src (options bits p.1.2) u' (nres + 1)) >>= _) s =
      R.exec (emit item >>= fun _ => runPlain bits src p.1.2 u' (nres + 1)) s
    simp only [exec_bind, bind_assoc, runPlain]

end

/-- A call with checks `x` is safe as long as all it comes to from `c` on is clear, and then it is the call `y`. -/
def SafeFrom (R : Rec) (bits : ℕ) (src : List UInt8) (x y : EStateM.Result Stop LuaState ExecResult) (c : Config) :
    Prop :=
  (Pattern.Safe x ↔ ∀ d, Relation.ReflTransGen (Next R bits src) c d → Clear bits src d) ∧ (Pattern.Safe x → x = y)

section
variable {x y : EStateM.Result Stop LuaState ExecResult} {c c' : Config} {s : LuaState}

theorem safeFrom_fault (f : Fault) (h : ¬ Clear bits src c) : SafeFrom R bits src (.error (.fault f) s) y c :=
  ⟨iff_of_false (Pattern.not_safe_fault f) fun hall => h (hall c .refl),
    fun hsafe => absurd hsafe (Pattern.not_safe_fault f)⟩

/-- Nothing comes behind. -/
theorem safeFrom_last (hx : Pattern.Safe x) (hc : Clear bits src c) (hlast : ∀ c', ¬ Next R bits src c c') :
    SafeFrom R bits src x x c :=
  ⟨iff_of_true hx ((Effect.allReached_last hlast).mpr hc), fun _ => rfl⟩

theorem SafeFrom.next (h : SafeFrom R bits src x y c') (hc : Clear bits src c)
    (hnext : ∀ d, Next R bits src c d ↔ d = c') : SafeFrom R bits src x y c := by
  refine ⟨h.1.trans ?_, h.2⟩
  exact ((Effect.allReached_next hnext).trans (and_iff_right hc)).symm

end

/-- **The loop is safe as long as all it comes to is clear**, and then the checks change nothing. -/
theorem runChecked_safe (R : Rec) (bits : ℕ) (src fmt : List UInt8) (u : Unpacking) (nres : ℕ) (s : LuaState)
    (hres : nres ≤ s.vsp) :
    SafeFrom R bits src (R.exec (runChecked bits src fmt u nres) s) (R.exec (runPlain bits src fmt u nres) s)
      (fmt, u, s) := by
  induction hlen : fmt.length using Nat.strong_induction_on generalizing fmt u nres s with
  | h k ih =>
    cases fmt with
    | nil =>
      have hadd := checks_add bits u.pos 1
      rw [runChecked_nil, runPlain_nil]
      by_cases hfit : u.pos + 1 < 2 ^ bits
      · rw [exec_ofExcept_ok (hadd.same hfit), Nat.mod_eq_of_lt hfit]
        exact safeFrom_last (resultsAt_safe _ hres) hfit fun _ => not_next_end
      · obtain ⟨f, hf⟩ := hadd.faults hfit
        rw [exec_ofExcept_error hf]
        exact safeFrom_fault f hfit
    | cons op rest =>
      obtain ⟨n, hnumber⟩ := checks_number bits op rest
      by_cases hfits : NumberFits bits op rest
      · have hn := hnumber.same hfits
        cases hread : readOption bits op rest with
        | error m =>
          rw [runChecked_malformed hn hread, runPlain_malformed hread]
          refine safeFrom_last (Pattern.safe_lua _) ⟨hfits, fun p hp => ?_⟩ fun _ => not_next_malformed hread
          cases hread.symm.trans hp
        | ok p =>
          have hshort : p.1.2.length < k := by
            have := p.2
            rw [← hlen, List.length_cons]
            omega
          have hstep := checks_step bits src p.1.1 u
          have hclear : Clear bits src (op :: rest, u, s) ↔ OptFits bits src p.1.1 u := by
            refine ⟨fun h => h.2 p hread, fun h => ⟨hfits, fun p' hp => ?_⟩⟩
            cases hread.symm.trans hp
            exact h
          rw [runChecked_step hn hread, runPlain_step hread]
          by_cases hopt : OptFits bits src p.1.1 u
          · have hc := hclear.mpr hopt
            rw [hstep.same hopt]
            cases hout : unpackStep bits src p.1.1 u with
            | error e =>
              obtain ⟨m, rfl⟩ := hstep.benign hopt e hout
              rw [exec_ofExcept_error rfl, exec_ofExcept_error rfl]
              exact safeFrom_last (Pattern.safe_lua _) hc fun _ => not_next_error hread hout
            | ok q =>
              obtain ⟨_ | item, u'⟩ := q
              · exact (ih _ hshort p.1.2 u' nres s hres rfl).next hc fun _ => next_skip_iff hread hout
              · rw [exec_ofExcept_ok rfl, exec_ofExcept_ok rfl, behind, behind, exec_bind, exec_bind]
                rcases exec_emit (R := R) (s := s) item with ⟨t, ht, hvsp⟩ | ⟨e, t, ht⟩
                · rw [bind_ok ht, bind_ok ht]
                  exact (ih _ hshort p.1.2 u' (nres + 1) t (by omega) rfl).next hc fun _ => next_read_iff hread hout ht
                · rw [bind_error ht, bind_error ht]
                  exact safeFrom_last (Pattern.safe_lua _) hc fun _ => not_next_full hread hout ht
          · obtain ⟨f, hf⟩ := hstep.faults hopt
            rw [exec_ofExcept_error hf]
            exact safeFrom_fault f fun hc => hopt (hclear.mp hc)
      · obtain ⟨f, hf⟩ := hnumber.faults hfits
        rw [runChecked_fault hf]
        exact safeFrom_fault f fun hc => hfits hc.1

end

/-! ### The call -/

section
variable {R : Rec} {bits : ℕ} {s : LuaState} {f r : StrRef} {more : List Value}

/-- The start position does not underflow. -/
def StartFits (s : LuaState) (r : StrRef) (more : List Value) : Prop :=
  (s.strBytes r).length ≤ PACK_CAP → ∀ v, more = [v] → wholeOf v ≠ some Int64.minValue

/-- The start position, and all options the call comes to, are clear. -/
def AllClear (R : Rec) (bits : ℕ) (s : LuaState) (f r : StrRef) (more : List Value) : Prop :=
  StartFits s r more ∧ ∀ c, Starts bits s f r more c →
    ∀ d, Relation.ReflTransGen (Next R bits (s.strBytes r)) c d → Clear bits (s.strBytes r) d

/-- The call returns values or an error of the language, and no position or length of it overflows. -/
structure UnpackSafe (R : Rec) (bits : ℕ) (s : LuaState) (f r : StrRef) (more : List Value) : Prop where
  returns : Pattern.Safe (R.exec (stringUnpack bits (.str f :: .str r :: more)) s)
  exact : R.exec (stringUnpackChecked bits (.str f :: .str r :: more)) s =
    R.exec (stringUnpack bits (.str f :: .str r :: more)) s

/-- The call from a start position on. -/
theorem unpackAt_safe (R : Rec) (bits : ℕ) (s : LuaState) (fmt src : List UInt8) (pos : ℕ) :
    (Pattern.Safe (R.exec (unpackAtChecked bits fmt src pos) s) ↔
      (pos ≤ src.length → fmt.length ≤ STR_CAP →
        ∀ d, Relation.ReflTransGen (Next R bits src) (fmt, ⟨pos, true, 1⟩, s) d → Clear bits src d)) ∧
    (Pattern.Safe (R.exec (unpackAtChecked bits fmt src pos) s) →
      R.exec (unpackAtChecked bits fmt src pos) s = R.exec (unpackAt bits fmt src pos) s) := by
  rw [unpackAtChecked, unpackAt, exec_ite, exec_ite, exec_ite, exec_ite]
  by_cases hpos : pos > src.length
  · rw [if_pos hpos, if_pos hpos]
    exact ⟨iff_of_true (Pattern.safe_lua _) fun h => absurd h (not_le.mpr hpos), fun _ => rfl⟩
  rw [if_neg hpos, if_neg hpos]
  by_cases hfmt : fmt.length > STR_CAP
  · rw [if_pos hfmt, if_pos hfmt]
    exact ⟨iff_of_true (Pattern.safe_lua _) fun _ h => absurd h (not_le.mpr hfmt), fun _ => rfl⟩
  rw [if_neg hfmt, if_neg hfmt]
  obtain ⟨hsafe, hsame⟩ := runChecked_safe R bits src fmt ⟨pos, true, 1⟩ 0 s (Nat.zero_le _)
  exact ⟨hsafe.trans ⟨fun h _ _ => h, fun h => h (not_lt.mp hpos) (not_lt.mp hfmt)⟩, hsame⟩

/-- The call with checks is safe as long as all it comes to is clear, and then it is the call. -/
theorem stringUnpackChecked_safe (R : Rec) (bits : ℕ) (s : LuaState) (f r : StrRef) (more : List Value) :
    (Pattern.Safe (R.exec (stringUnpackChecked bits (.str f :: .str r :: more)) s) ↔ AllClear R bits s f r more) ∧
    (Pattern.Safe (R.exec (stringUnpackChecked bits (.str f :: .str r :: more)) s) →
      R.exec (stringUnpackChecked bits (.str f :: .str r :: more)) s =
        R.exec (stringUnpack bits (.str f :: .str r :: more)) s) := by
  rw [stringUnpackChecked, stringUnpack, exec_ite, exec_ite]
  by_cases hargs : (Value.str f :: Value.str r :: more).length < 2 ∨ (Value.str f :: Value.str r :: more).length > 3
  · rw [if_pos hargs, if_pos hargs]
    have hmore : 1 < more.length := by
      simp only [List.length_cons] at hargs
      omega
    refine ⟨iff_of_true (Pattern.safe_lua _) ⟨fun _ v hv => ?_, fun c hc => ?_⟩, fun _ => rfl⟩
    · rw [hv] at hmore
      exact absurd hmore (by simp)
    · cases hc <;> exact absurd hmore (by simp)
  rw [if_neg hargs, if_neg hargs]
  rw [exec_bind, exec_bind, exec_get, bind_ok (getMachine_apply s), bind_ok (getMachine_apply s), exec_ite, exec_ite]
  by_cases hlong : (s.strBytes r).length > PACK_CAP
  · rw [if_pos hlong, if_pos hlong]
    refine ⟨iff_of_true (Pattern.safe_lua _) ⟨fun hle => absurd hle (not_le.mpr hlong), fun c hc => ?_⟩, fun _ => rfl⟩
    cases hc with
    | first hle => exact absurd hle (not_le.mpr hlong)
    | given hle => exact absurd hle (not_le.mpr hlong)
  rw [if_neg hlong, if_neg hlong, exec_bind, exec_bind]
  have hle := not_lt.mp hlong
  have hfrom := fun pos => unpackAt_safe R bits s (s.strBytes f) (s.strBytes r) pos
  rcases more with _ | ⟨v, _ | ⟨w, more⟩⟩
  · refine ⟨(hfrom 0).1.trans ⟨fun h => ⟨fun _ v hv => ?_, fun c hc => ?_⟩, fun h _ hfmt => ?_⟩, (hfrom 0).2⟩
    · cases hv
    · cases hc with
      | first hle hfmt => exact h (Nat.zero_le _) hfmt
    · exact h.2 _ (.first hle hfmt)
  · rw [startChecked, startPos]
    cases hv : wholeOf v with
    | none =>
      refine ⟨iff_of_true (Pattern.safe_lua _) ⟨fun _ v' hv' => ?_, fun c hc => ?_⟩, fun _ => rfl⟩
      · cases hv'
        simp [hv]
      · cases hc with
        | given hle hfmt hn => cases hv.symm.trans hn
    | some n =>
      dsimp only
      rw [exec_ite]
      by_cases hmin : n = Int64.minValue
      · rw [if_pos hmin]
        refine ⟨iff_of_false (Pattern.not_safe_fault .arith) fun h => ?_,
          fun h => absurd h (Pattern.not_safe_fault .arith)⟩
        exact h.1 hle v rfl (hv.trans (congrArg some hmin))
      · rw [if_neg hmin]
        generalize hpos : (n - 1).toUInt64.toNat % 2 ^ bits = pos
        refine ⟨(hfrom pos).1.trans ⟨fun h => ⟨fun _ v' hv' => ?_, fun c hc => ?_⟩, fun h hsrc hfmt => ?_⟩,
          (hfrom pos).2⟩
        · cases hv'
          simp [hv, hmin]
        · cases hc with
          | given hle hfmt hn hsrc =>
            cases hv.symm.trans hn
            rw [hpos] at hsrc ⊢
            exact h hsrc hfmt
        · have hgiven : Starts bits s f r [v] _ := .given hle hfmt hv (hpos ▸ hsrc)
          rw [hpos] at hgiven
          exact h.2 _ hgiven
  · exact absurd (show 3 < more.length + 1 + 1 + 1 + 1 by omega) fun h => hargs (.inr h)

end

/-- A state with the format `s` and a string of eight bytes 255 in the arena. -/
def holdsPrefix : LuaState := { strregs := [(0, bytesOf "s"), (1, List.replicate 8 255)], strNext := 9 }

end Pack
end Lua
end Rustrapper
