/-
# Integer conversions of string.format

A conversion writes its digits into a buffer of 64 bytes and the body, with the
zeros that the precision asks for, into one of 80; `apply_layout` puts sign,
prefix, body and padding into the piece. With a precision and a width that fit
these buffers, the piece reads back as the integer (`formatInteger_reads`).
-/
import Rustrapper.Codec.Words
import Rustrapper.Lua.BaseNumbers
import Rustrapper.Lua.Call
import Rustrapper.Sort.Reversal

namespace Rustrapper
namespace Lua
namespace Format

/-! ### Specifiers -/

/-- A format specifier; the flags are the bits of the source's `flags`. -/
structure FormatSpec where
  left : Bool := false
  plus : Bool := false
  space : Bool := false
  zero : Bool := false
  hash : Bool := false
  width : ℕ := 0
  precision : Option ℕ := none
  ty : UInt8

/-- The base of an integer conversion, and whether it is unsigned. -/
def integerBase (ty : UInt8) : Option (ℕ × Bool) :=
  match Char.ofNat ty.toNat with
  | 'd' | 'i' => some (10, false)
  | 'u' => some (10, true)
  | 'o' => some (8, true)
  | 'x' | 'X' => some (16, true)
  | _ => none

/-! ### Buffers -/

/-- The length of `out`, of a `piece` and of `quoted`. -/
def PIECE_CAP : ℕ := 1024

/-- The length of `body`. -/
def BODY_CAP : ℕ := 80

/-- The length of `digits`. -/
def DIGITS_CAP : ℕ := 64

/-- Write bytes behind those that are in a buffer of `cap` bytes. -/
def write (cap : ℕ) (bs out : List UInt8) : Except Exc (List UInt8) :=
  if out.length + bs.length ≤ cap then .ok (out ++ bs) else .error (.fault .index)

/-- `apply_layout`. -/
def applyLayout (cap : ℕ) (sign : Option UInt8) (pre body : List UInt8) (spec : FormatSpec) (allowZeroPad : Bool) :
    Except Exc (List UInt8) := do
  let contentLen := (if sign.isSome then 1 else 0) + pre.length + body.length
  let pad := if spec.width > contentLen then spec.width - contentLen else 0
  let zero := !spec.left && allowZeroPad && spec.zero && spec.precision.isNone
  let out ← if !spec.left && !zero then write cap (List.replicate pad 32) [] else .ok []
  let out ← write cap sign.toList out
  let out ← write cap pre out
  let out ← if zero then write cap (List.replicate pad 48) out else .ok out
  let out ← write cap body out
  if spec.left then write cap (List.replicate pad 32) out else .ok out

/-! ### Integers -/

/-- `to_integer_for_format`. -/
def toIntegerForFormat (v : Value) : Except Exc Int64 :=
  match wholeOf v with
  | some n => .ok n
  | none => .error (.lua (.msg "bad argument (number expected, got string)"))

/-- The digit of a value below 36. -/
def digitByte (upper : Bool) (d : ℕ) : UInt8 :=
  if d < 10 then UInt8.ofNat (48 + d) else if upper then UInt8.ofNat (65 + (d - 10)) else UInt8.ofNat (97 + (d - 10))

/-- The digits of a magnitude, the lowest first, in the `room` that is left in `digits`. -/
def digitLoop (base : ℕ) (upper : Bool) : (room mag : ℕ) → Except Exc (List UInt8)
  | 0, _ => .error (.fault .index)
  | room + 1, mag =>
    if mag / base = 0 then .ok [digitByte upper (mag % base)]
    else do
      let ds ← digitLoop base upper room (mag / base)
      .ok (digitByte upper (mag % base) :: ds)

/-- The magnitude of an integer, and whether it is negative. -/
def magnitude (unsigned : Bool) (n : Int64) : ℕ × Bool :=
  if unsigned then (n.toUInt64.toNat, false)
  else if n < 0 then ((-n).toUInt64.toNat, true)
  else (n.toUInt64.toNat, false)

def signByte (spec : FormatSpec) (negative : Bool) : Option UInt8 :=
  if negative then some 45 else if spec.plus then some 43 else if spec.space then some 32 else none

/-- The prefix that the `#` flag asks for. -/
def hashPrefix (ty : UInt8) : List UInt8 :=
  match Char.ofNat ty.toNat with
  | 'o' => bytesOf "0"
  | 'x' => bytesOf "0x"
  | 'X' => bytesOf "0X"
  | _ => []

/-- The digits, the highest first, unless they are skipped. -/
def integerDigits (base : ℕ) (upper skipDigits : Bool) (mag : ℕ) : Except Exc (List UInt8) :=
  if skipDigits then .ok []
  else do
    let digits ← digitLoop base upper DIGITS_CAP mag
    .ok (Sort.Reversal.reverseLoop digits 0 digits.length)

/-- `format_integer`. -/
def formatInteger (cap : ℕ) (v : Value) (spec : FormatSpec) (base : ℕ) (unsigned : Bool) :
    Except Exc (List UInt8) := do
  let n ← toIntegerForFormat v
  let (mag, negative) := magnitude unsigned n
  let skipDigits : Bool := spec.precision = some 0 ∧ mag = 0
  let digits ← integerDigits base (spec.ty = 88) skipDigits mag
  let pre := if spec.hash && !skipDigits then hashPrefix spec.ty else []
  let prec := spec.precision.getD 0
  let leadingZeros := if digits.length < prec then prec - digits.length else 0
  let body ← write BODY_CAP (List.replicate leadingZeros 48) []
  let body ← write BODY_CAP digits body
  applyLayout cap (signByte spec negative) pre body spec true

/-! ### Layout -/

section
variable {cap : ℕ} {bs out : List UInt8}

theorem write_ok (h : out.length + bs.length ≤ cap) : write cap bs out = .ok (out ++ bs) := if_pos h

theorem write_fault (h : cap < out.length + bs.length) : write cap bs out = .error (.fault .index) :=
  if_neg (not_le.mpr h)

theorem ok_bind {α β : Type} (a : α) (k : α → Except Exc β) : (Except.ok a >>= k) = k a := rfl

theorem bind_ok {α : Type} (x : Except Exc α) : (x >>= fun a => Except.ok a) = x := bind_pure x

/-- One write behind another is one write of both. -/
theorem write_write (cs : List UInt8) :
    (write cap bs out >>= fun out => write cap cs out) = write cap (bs ++ cs) out := by
  by_cases h : out.length + bs.length ≤ cap
  · rw [write_ok h, ok_bind, write, write, List.append_assoc, List.length_append, List.length_append, Nat.add_assoc]
  · rw [write_fault (not_le.mp h), write_fault (by rw [List.length_append]; omega)]
    rfl

end

section
variable (sign : Option UInt8) (pre body : List UInt8) (spec : FormatSpec) (allowZeroPad : Bool)

/-- Whether zeros fill the width. -/
def zeroPads : Bool := !spec.left && allowZeroPad && spec.zero && spec.precision.isNone

/-- Sign, prefix and body. -/
def contentLen : ℕ := sign.toList.length + pre.length + body.length

/-- The bytes that fill the width. -/
def padding (b : UInt8) : List UInt8 := List.replicate (spec.width - contentLen sign pre body) b

/-- The piece: the content, and the padding in front, behind the prefix or at the end. -/
def layout : List UInt8 :=
  let pad := padding sign pre body spec
  if spec.left then sign.toList ++ pre ++ body ++ pad 32
  else if zeroPads spec allowZeroPad then sign.toList ++ pre ++ pad 48 ++ body
  else pad 32 ++ sign.toList ++ pre ++ body

theorem length_layout :
    (layout sign pre body spec allowZeroPad).length = max spec.width (contentLen sign pre body) := by
  unfold layout padding
  dsimp only
  split_ifs <;> simp only [List.length_append, List.length_replicate, contentLen] <;> omega

/-- **`apply_layout`** writes the layout if it fits, and otherwise leaves the buffer. -/
theorem applyLayout_eq (cap : ℕ) : applyLayout cap sign pre body spec allowZeroPad =
    write cap (layout sign pre body spec allowZeroPad) [] := by
  have hsign : (if sign.isSome then 1 else 0) = sign.toList.length := by cases sign <;> rfl
  have hpad : (if spec.width > contentLen sign pre body then spec.width - contentLen sign pre body else 0) =
      spec.width - contentLen sign pre body := by
    split_ifs <;> omega
  have hzero : zeroPads spec allowZeroPad = true → spec.left = false := by
    unfold zeroPads
    cases spec.left <;> simp
  unfold applyLayout layout padding
  dsimp only
  rw [hsign, ← contentLen, hpad, ← zeroPads]
  by_cases hl : spec.left = true
  · have hz : ¬ zeroPads spec allowZeroPad = true := fun h => absurd (hzero h) (by simp [hl])
    simp only [hl, Bool.not_true, Bool.false_and, Bool.false_eq_true, if_false, if_true, if_neg hz, ok_bind,
      write_write, List.append_assoc]
  · rw [Bool.not_eq_true] at hl
    by_cases hz : zeroPads spec allowZeroPad = true
    · simp only [hl, hz, Bool.not_true, Bool.and_false, Bool.false_eq_true, if_false, if_true, ok_bind, bind_ok,
        write_write, List.append_assoc]
    · simp only [hl, hz, Bool.not_false, Bool.and_true, Bool.false_eq_true, if_false, if_true, ok_bind, bind_ok,
        write_write, List.append_assoc]

end

/-! ### Digits -/

/-- The bytes are digits of the base. -/
def InBase (base : ℕ) (ds : List UInt8) : Prop := ∀ c ∈ ds, ∃ d, digitOf c = some d ∧ d < base

section
variable {base : ℕ}

theorem digitOf_digitByte (upper : Bool) {d : ℕ} (h : d < 36) : digitOf (digitByte upper d) = some d := by
  have hall : ∀ d : Fin 36, digitOf (digitByte upper d) = some d.val := by
    cases upper <;> decide +kernel
  exact hall ⟨d, h⟩

theorem baseValue_concat {ds : List UInt8} {c : UInt8} {d : ℕ} (h : digitOf c = some d) :
    baseValue base (ds ++ [c]) = baseValue base ds * base + d := by
  simp [baseValue, baseValueFrom, h]

/-- Zeros in front do not count. -/
theorem baseValue_zeros (k : ℕ) (ds : List UInt8) : baseValue base (List.replicate k 48 ++ ds) = baseValue base ds := by
  induction k with
  | zero => rfl
  | succ k ih =>
    have hzero : digitOf 48 = some 0 := by decide
    rw [List.replicate_succ, List.cons_append, baseValue, baseValueFrom_cons hzero, Nat.zero_mul]
    exact ih

theorem inBase_zeros (hb : 0 < base) (k : ℕ) : InBase base (List.replicate k 48) := by
  intro c hc
  rw [List.eq_of_mem_replicate hc]
  exact ⟨0, by decide, hb⟩

/-- **The digits that are written**, read from the last to the first, stand for the magnitude. -/
theorem digitLoop_spec (upper : Bool) (hb : 2 ≤ base) (hb' : base ≤ 36) {k room mag : ℕ} (hk : 0 < k) (hroom : k ≤ room)
    (hmag : mag < base ^ k) : ∃ ds, digitLoop base upper room mag = .ok ds ∧ ds ≠ [] ∧ ds.length ≤ k ∧
      InBase base ds ∧ baseValue base ds.reverse = mag := by
  induction k generalizing room mag with
  | zero => omega
  | succ k ih =>
    obtain ⟨room, rfl⟩ := Nat.exists_eq_add_one_of_ne_zero (by omega : room ≠ 0)
    have hbase : 0 < base := by omega
    have hlt : mag % base < base := Nat.mod_lt _ hbase
    have hdigit := digitOf_digitByte upper (hlt.trans_le hb')
    rw [digitLoop]
    by_cases hlast : mag / base = 0
    · have hmod : mag % base = mag := Nat.mod_eq_of_lt ((Nat.div_eq_zero_iff_lt hbase).mp hlast)
      rw [hmod] at hdigit hlt ⊢
      refine ⟨_, if_pos hlast, by simp, by simp, ?_, ?_⟩
      · intro c hc
        rw [List.mem_singleton.mp hc]
        exact ⟨_, hdigit, hlt⟩
      · simp [baseValue, baseValueFrom, hdigit]
    · have hrest : mag / base < base ^ k := by
        rw [Nat.div_lt_iff_lt_mul hbase, ← pow_succ]
        exact hmag
      have hk' : 0 < k := by
        rw [pow_succ] at hmag
        rcases Nat.eq_zero_or_pos k with rfl | hpos
        · exact absurd ((Nat.div_eq_zero_iff_lt hbase).mpr (by simpa using hmag)) hlast
        · exact hpos
      obtain ⟨ds, hds, -, hlen, hin, hval⟩ := ih hk' (by omega : k ≤ room) hrest
      refine ⟨digitByte upper (mag % base) :: ds, ?_, List.cons_ne_nil _ _, ?_, ?_, ?_⟩
      · rw [if_neg hlast, hds]
        rfl
      · rw [List.length_cons]
        omega
      · exact List.forall_mem_cons.mpr ⟨⟨_, hdigit, hlt⟩, hin⟩
      · rw [List.reverse_cons, baseValue_concat hdigit, hval, Nat.mul_comm]
        exact Nat.div_add_mod _ _

end

/-! ### Integers, written -/

/-- Whether no digits are asked for. -/
def NoDigits (spec : FormatSpec) (n : Int64) : Prop := spec.precision = some 0 ∧ n = 0

instance (spec : FormatSpec) (n : Int64) : Decidable (NoDigits spec n) := by
  unfold NoDigits
  infer_instance

/-- The magnitude and the sign are those of the integer. -/
theorem magnitude_spec (unsigned : Bool) (n : Int64) : (magnitude unsigned n).1 < 2 ^ 64 ∧
    ((magnitude unsigned n).1 = 0 ↔ n = 0) ∧ (magnitude unsigned n).2 = decide (unsigned = false ∧ n < 0) ∧
    if unsigned then ((magnitude unsigned n).1 : ℤ) = n.toInt % 2 ^ 64
    else n.toInt = if n < 0 then -((magnitude unsigned n).1 : ℤ) else (magnitude unsigned n).1 := by
  have hint := Codec.toInt_eq n
  have hzero : n = 0 ↔ n.toInt = 0 := by rw [← Int64.toInt_inj, Int64.toInt_zero]
  have hneg : n < 0 ↔ n.toInt < 0 := by rw [Int64.lt_iff_toInt_lt, Int64.toInt_zero]
  have hu := n.toUInt64.toNat_lt
  have hminus : (-n).toUInt64.toNat = (2 ^ 64 - n.toUInt64.toNat) % 2 ^ 64 := by
    rw [Int64.toUInt64_neg]
    exact UInt64.toNat_neg _
  unfold magnitude
  cases unsigned with
  | true =>
    simp only [if_true, hzero, Bool.true_eq_false, false_and, decide_false, true_and]
    exact ⟨hu, by omega, by omega⟩
  | false =>
    simp only [Bool.false_eq_true, if_false, true_and, hzero]
    by_cases h : n < 0
    · have hlt := hneg.mp h
      simp only [h, if_true, decide_true, hminus]
      exact ⟨by omega, by omega, trivial, by omega⟩
    · have hge := hneg.not.mp h
      simp only [h, if_false, decide_false]
      exact ⟨hu, by omega, trivial, by omega⟩

theorem integerBase_bounds {ty : UInt8} {base : ℕ} {unsigned : Bool} (h : integerBase ty = some (base, unsigned)) :
    8 ≤ base ∧ base ≤ 16 := by
  unfold integerBase at h
  split at h <;> simp at h <;> omega

/-- **`format_integer`** lays out the digits of the magnitude, with zeros in front up to the precision. -/
theorem formatInteger_eq {spec : FormatSpec} {base : ℕ} {unsigned : Bool} {v : Value} {n : Int64}
    (hbase : 8 ≤ base ∧ base ≤ 16) (hv : wholeOf v = some n) : ∃ ds, InBase base ds ∧ (ds = [] → NoDigits spec n) ∧
      spec.precision.getD 0 ≤ ds.length ∧ ds.length ≤ max (spec.precision.getD 0) 22 ∧
      baseValue base ds = (magnitude unsigned n).1 ∧ ∀ cap, formatInteger cap v spec base unsigned =
        write BODY_CAP ds [] >>= fun body => applyLayout cap (signByte spec (magnitude unsigned n).2)
          (if spec.hash = true ∧ ¬ NoDigits spec n then hashPrefix spec.ty else []) body spec true := by
  obtain ⟨hmag, hzero, -, -⟩ := magnitude_spec unsigned n
  have hskip : (decide (spec.precision = some 0 ∧ (magnitude unsigned n).1 = 0) = true) ↔ NoDigits spec n := by
    rw [decide_eq_true_iff, hzero, NoDigits]
  have hpre : (spec.hash && !decide (spec.precision = some 0 ∧ (magnitude unsigned n).1 = 0)) = true ↔
      spec.hash = true ∧ ¬ NoDigits spec n := by
    rw [Bool.and_eq_true, Bool.not_eq_true', ← Bool.not_eq_true, hskip]
  obtain ⟨digits, hdigits, hin, hlen, hval, hempty⟩ : ∃ digits,
      integerDigits base (spec.ty = 88) (decide (spec.precision = some 0 ∧ (magnitude unsigned n).1 = 0))
        (magnitude unsigned n).1 = .ok digits ∧
      InBase base digits ∧ digits.length ≤ 22 ∧ baseValue base digits = (magnitude unsigned n).1 ∧
      (digits = [] → NoDigits spec n) := by
    rw [integerDigits]
    by_cases hno : NoDigits spec n
    · exact ⟨[], if_pos (hskip.mpr hno), by simp [InBase], by simp, (hzero.mpr hno.2).symm, fun _ => hno⟩
    · have hfit : (magnitude unsigned n).1 < base ^ 22 := by
        calc (magnitude unsigned n).1 < 2 ^ 64 := hmag
          _ ≤ 8 ^ 22 := by norm_num
          _ ≤ base ^ 22 := Nat.pow_le_pow_left hbase.1 22
      obtain ⟨ds, hds, hne, hlen, hin, hval⟩ := digitLoop_spec (spec.ty = 88) (by omega) (by omega) (by norm_num)
        (by decide : 22 ≤ DIGITS_CAP) hfit
      refine ⟨ds.reverse, ?_, fun c hc => hin c (List.mem_reverse.mp hc), by simpa using hlen, hval, by simp [hne]⟩
      rw [if_neg (hskip.not.mpr hno), hds, ok_bind, Sort.Reversal.reverseLoop_whole]
  refine ⟨List.replicate (spec.precision.getD 0 - digits.length) 48 ++ digits, ?_, ?_, ?_, ?_, ?_, fun cap => ?_⟩
  · exact List.forall_mem_append.mpr ⟨inBase_zeros (by omega) _, hin⟩
  · exact fun h => hempty (List.append_eq_nil_iff.mp h).2
  · rw [List.length_append, List.length_replicate]
    omega
  · rw [List.length_append, List.length_replicate]
    omega
  · rw [baseValue_zeros, hval]
  · have hzeros : (if digits.length < spec.precision.getD 0 then spec.precision.getD 0 - digits.length else 0) =
        spec.precision.getD 0 - digits.length := by
      split_ifs <;> omega
    rw [formatInteger, toIntegerForFormat, hv]
    dsimp only
    rw [ok_bind, hdigits, ok_bind, hzeros, ← write_write, bind_assoc]
    simp only [hpre]

/-- The piece stands for the integer: it fills the width, and without its padding, its sign and the `#` prefix it
holds digits of the base with the value of the integer, or of its 64 bits when the conversion is unsigned. -/
structure Reads (spec : FormatSpec) (base : ℕ) (unsigned : Bool) (n : Int64) (piece : List UInt8) : Prop where
  wide : spec.width ≤ piece.length
  digits : ∃ front sign pre ds back,
    piece = List.replicate front 32 ++ (sign ++ (pre ++ ds)) ++ List.replicate back 32 ∧
    InBase base ds ∧ (ds = [] → NoDigits spec n) ∧
    sign = (if unsigned = false ∧ n < 0 then [45] else if spec.plus then [43] else if spec.space then [32] else []) ∧
    pre = (if spec.hash = true ∧ ¬ NoDigits spec n then hashPrefix spec.ty else []) ∧
    if unsigned then (baseValue base ds : ℤ) = n.toInt % 2 ^ 64
    else n.toInt = if n < 0 then -(baseValue base ds : ℤ) else baseValue base ds

/-- The layout of digits stands for what the digits do. -/
theorem layout_digits {base : ℕ} (hb : 0 < base) (sign : Option UInt8) (pre : List UInt8) {ds : List UInt8}
    (hds : InBase base ds) (spec : FormatSpec) : ∃ front zeros back, layout sign pre ds spec true =
      List.replicate front 32 ++ (sign.toList ++ (pre ++ (List.replicate zeros 48 ++ ds))) ++ List.replicate back 32 ∧
      InBase base (List.replicate zeros 48 ++ ds) := by
  have hin : ∀ zeros, InBase base (List.replicate zeros 48 ++ ds) := fun zeros =>
    List.forall_mem_append.mpr ⟨inBase_zeros hb zeros, hds⟩
  unfold layout padding
  dsimp only
  generalize spec.width - contentLen sign pre ds = pad
  split_ifs
  · exact ⟨0, 0, pad, by simp, hin 0⟩
  · exact ⟨0, pad, 0, by simp, hin pad⟩
  · exact ⟨pad, 0, 0, by simp, hin 0⟩

theorem length_hashPrefix (ty : UInt8) : (hashPrefix ty).length ≤ 2 := by
  unfold hashPrefix
  split <;> decide

/-- **Integer formatting is faithful**: with a precision and a width that fit the buffers, the piece stands for the
integer. -/
theorem formatInteger_reads (spec : FormatSpec) (n : Int64) {base : ℕ} {unsigned : Bool}
    (hbase : integerBase spec.ty = some (base, unsigned)) (hprec : spec.precision.getD 0 ≤ BODY_CAP)
    (hwidth : spec.width ≤ PIECE_CAP) :
    ∃ piece, formatInteger PIECE_CAP (.num n) spec base unsigned = .ok piece ∧ Reads spec base unsigned n piece := by
  have hb := integerBase_bounds hbase
  obtain ⟨ds, hin, hempty, -, hlen, hval, hformat⟩ := @formatInteger_eq spec base unsigned (.num n) n hb
    (show wholeOf (.num n) = some n from rfl)
  obtain ⟨-, -, hneg, hmag⟩ := magnitude_spec unsigned n
  generalize hpre : (if spec.hash = true ∧ ¬ NoDigits spec n then hashPrefix spec.ty else []) = pre at hformat
  have hprelen : pre.length ≤ 2 := by
    have := length_hashPrefix spec.ty
    rw [← hpre]
    split_ifs <;> simp [this]
  generalize hsign : signByte spec (magnitude unsigned n).2 = sign at hformat
  have hbody : ds.length ≤ BODY_CAP := hlen.trans (max_le hprec (by decide))
  have hcontent : contentLen sign pre ds ≤ PIECE_CAP := by
    have hone : sign.toList.length ≤ 1 := by cases sign <;> simp
    have hcap : BODY_CAP + 3 ≤ PIECE_CAP := by decide
    rw [contentLen]
    omega
  have hlayout := length_layout sign pre ds spec true
  have hpiece : formatInteger PIECE_CAP (.num n) spec base unsigned = .ok (layout sign pre ds spec true) := by
    rw [hformat, write_ok (by simpa using hbody), ok_bind, applyLayout_eq, write_ok, List.nil_append]
    · rfl
    · rw [List.nil_append, hlayout, List.length_nil, Nat.zero_add]
      exact max_le hwidth hcontent
  obtain ⟨front, zeros, back, heq, hin'⟩ := layout_digits (by omega) sign pre hin spec
  refine ⟨_, hpiece, ?_, front, sign.toList, pre, List.replicate zeros 48 ++ ds, back, heq, hin', ?_, ?_, hpre.symm, ?_⟩
  · rw [hlayout]
    exact le_max_left _ _
  · exact fun h => hempty (List.append_eq_nil_iff.mp h).2
  · rw [← hsign, signByte, hneg]
    simp only [decide_eq_true_iff]
    split_ifs <;> rfl
  · rw [baseValue_zeros, hval]
    exact hmag

theorem smallest_in_hex : ∃ piece, formatInteger PIECE_CAP (.num Int64.minValue)
      { hash := true, zero := true, width := 30, ty := 120 } 16 true = .ok piece ∧
    Reads { hash := true, zero := true, width := 30, ty := 120 } 16 true Int64.minValue piece :=
  formatInteger_reads _ _ (by decide) (by decide) (by decide)

end Format
end Lua
end Rustrapper
