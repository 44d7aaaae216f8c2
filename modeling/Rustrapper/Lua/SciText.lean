/-
# Scientific text

`core::fmt` writes a float in scientific notation piece after piece into a
buffer of fixed length, up to the first piece that does not fit; then
`normalize_exponent` gives the exponent a sign and two digits, in place. It
writes past the buffer when the mark of the exponent is in it and the room
behind is too small (`expText_bounded`). The text of `%g`, which `fmt_float`
arranges from 14 digits, has 40 bytes at most (`fmtFloat_ok`).
-/
import Rustrapper.Arith.Scientific
import Rustrapper.Codec.Text
import Rustrapper.Lua.Format
import Rustrapper.Lua.Numbers

namespace Rustrapper
namespace Lua
namespace Format

open Float.Model Float.Model.UnpackedFloat Arith.Scientific

/-! ### `core::fmt` -/

/-- What the code relies on of `core::fmt`: the largest precision it takes, and the pieces in which it writes the
digits behind the point. -/
structure CoreFmt where
  maxPrecision : ℕ
  pieces : List UInt8 → List (List UInt8)
  flatten_pieces : ∀ ds, (pieces ds).flatten = ds

def signPiece : Sign → List (List UInt8)
  | .negative => [[45]]
  | .positive => []

/-- The point and the digits behind it, if there are any. -/
def fraction (C : CoreFmt) (ds : List UInt8) : List (List UInt8) := if ds = [] then [] else [46] :: C.pieces ds

/-- The pieces in front of the exponent. -/
def mantissaPieces (C : CoreFmt) (s : Sign) (ds : List UInt8) : List (List UInt8) :=
  signPiece s ++ ds.take 1 :: fraction C (ds.drop 1)

/-- The pieces of an exponent behind its mark. -/
def exponentPieces (mark : UInt8) (k : ℤ) : List (List UInt8) :=
  [if k < 0 then [mark, 45] else [mark], natDigits k.natAbs]

/-- What `{:.prec$e}` writes, or `{:.prec$E}`. -/
def sciPieces (C : CoreFmt) (mark : UInt8) (prec : ℕ) (f : Float) : List (List UInt8) :=
  match f.toModel.unpack with
  | .notANumber => [bytesOf "NaN"]
  | .infinity s => signPiece s ++ [bytesOf "inf"]
  | .zero s => mantissaPieces C s (List.replicate (prec + 1) 48) ++ [[mark, 48]]
  | .finite s m e _ =>
    let (d, k) := scientific prec (m * 2 ^ e)
    mantissaPieces C s (natDigits d) ++ exponentPieces mark k

/-- `write_str` of `FmtBuf` for the pieces, up to one that does not fit: the text, and whether it is whole. -/
def fmtWrite (cap : ℕ) : List (List UInt8) → List UInt8 → List UInt8 × Bool
  | [], out => (out, true)
  | p :: ps, out => if out.length + p.length > cap then (out, false) else fmtWrite cap ps (out ++ p)

/-! ### `normalize_exponent` -/

/-- The length of `tmp`. -/
def TMP_CAP : ℕ := 128

/-- Move the bytes from `p` on to make room for `bs`, and write these. The text is the front of a buffer of `cap`
bytes that is zero behind it; the last byte written may lie behind the text. -/
def insertAt (cap p : ℕ) (bs text : List UInt8) : Except Exc (List UInt8) :=
  if max p text.length + bs.length ≤ cap then
    .ok ((text.take p ++ List.replicate (p - text.length) 0 ++ bs ++ text.drop p).take (text.length + bs.length))
  else .error (.fault .index)

def isMark (b : UInt8) : Bool := b = 101 || b = 69

/-- A `+` in front of an exponent that starts with a digit. -/
def plusSign (cap after : ℕ) (text : List UInt8) : Except Exc (List UInt8) :=
  if (text.drop after).head?.any isDigit then insertAt cap after [43] text else .ok text

/-- Zeros in front of the digits of an exponent, up to two of them. -/
def twoDigits (cap start : ℕ) (text : List UInt8) : Except Exc (List UInt8) :=
  let nd := ((text.drop start).takeWhile isDigit).length
  if nd < 2 then insertAt cap start (List.replicate (2 - nd) 48) text else .ok text

/-- `normalize_exponent`. -/
def normalizeExponent (cap : ℕ) (text : List UInt8) : Except Exc (List UInt8) :=
  match text.findIdx? isMark with
  | none => .ok text
  | some pos => do
    let text ← plusSign cap (pos + 1) text
    twoDigits cap (pos + 2) text

/-- The text of `%e`, or of `%E`; `core::fmt` panics at a precision that it does not take. -/
def expText (C : CoreFmt) (mark : UInt8) (prec : ℕ) (f : Float) : Except Exc (List UInt8) :=
  if prec > C.maxPrecision then .error (.fault .library)
  else normalizeExponent TMP_CAP (fmtWrite TMP_CAP (sciPieces C mark prec f) []).1

/-! ### `fmt_float` -/

/-- The length of `sci`. -/
def SCI_CAP : ℕ := 32

/-- The length that `fmt_float` needs. -/
def FLOAT_BUF : ℕ := 40

def isSignNegative (f : Float) : Bool := f.toBits >>> 63 = 1

/-- The number behind the mark. -/
def readExponent : List UInt8 → ℤ
  | 45 :: ds => -(Codec.decimalFrom 0 ds : ℤ)
  | 43 :: ds => Codec.decimalFrom 0 ds
  | ds => Codec.decimalFrom 0 ds

/-- The digits of the mantissa of `-d.ddddddddddddd`, without the zeros at the end. -/
def mantissaDigits (sci : List UInt8) : List UInt8 :=
  let body := if sci.head? = some 45 then sci.tail else sci
  body.take 1 ++ ((body.drop 2).take 13).rdropWhile (· = 48)

/-- The digits in the layout of `%.14g`. -/
def generalText (digits : List UInt8) (exp : ℤ) : List UInt8 :=
  if exp < -4 ∨ exp ≥ 14 then
    digits.take 1 ++ (if digits.length > 1 then 46 :: digits.drop 1 else []) ++ [101, if exp < 0 then 45 else 43] ++
      (if exp.natAbs < 10 then [48] else []) ++ natDigits exp.natAbs
  else if exp ≥ 0 then
    let ip := exp.toNat + 1
    digits.take ip ++ List.replicate (ip - digits.length) 48 ++ [46] ++
      (if digits.length > ip then digits.drop ip else [48])
  else [48, 46] ++ List.replicate (-exp - 1).toNat 48 ++ digits

/-- `fmt_float`. -/
def fmtFloat (C : CoreFmt) (cap : ℕ) (f : Float) : Except Exc (List UInt8) :=
  if f.isNaN then write cap (bytesOf "nan") []
  else if f.isInf then write cap (if f < 0.0 then bytesOf "-inf" else bytesOf "inf") []
  else if f == 0.0 then write cap (if isSignNegative f then bytesOf "-0.0" else bytesOf "0.0") []
  else
    let (sci, whole) := fmtWrite SCI_CAP (sciPieces C 101 13 f) []
    if !whole then .ok []
    else
      match sci.findIdx? (· = 101) with
      | none => write cap sci []
      | some epos =>
        let sign := if sci.head? = some 45 then [45] else []
        write cap (sign ++ generalText (mantissaDigits sci) (readExponent (sci.drop (epos + 1)))) []

/-! ### Bounded texts -/

/-- A text of at most `cap` bytes under the condition, and a fault without it. -/
structure BoundedWhen (cap : ℕ) (c : Prop) (x : Except Exc (List UInt8)) : Prop where
  ok : c → ∃ text, x = .ok text ∧ text.length ≤ cap
  faults : ¬ c → ∃ f, x = .error (.fault f)

section
variable {cap p : ℕ} {c c' : Prop} {x : Except Exc (List UInt8)} {bs out text : List UInt8}

theorem BoundedWhen.congr (h : BoundedWhen cap c x) (hc : c ↔ c') : BoundedWhen cap c' x :=
  ⟨fun h' => h.ok (hc.mpr h'), fun h' => h.faults (hc.not.mpr h')⟩

theorem BoundedWhen.of_ok (h : text.length ≤ cap) : BoundedWhen cap True (.ok text) :=
  ⟨fun _ => ⟨text, rfl, h⟩, fun h' => absurd trivial h'⟩

theorem BoundedWhen.of_fault (f : Fault) : BoundedWhen cap False (.error (.fault f)) :=
  ⟨False.elim, fun _ => ⟨f, rfl⟩⟩

theorem boundedWhen_write : BoundedWhen cap (out.length + bs.length ≤ cap) (write cap bs out) := by
  refine ⟨fun h => ⟨out ++ bs, write_ok h, ?_⟩, fun h => ⟨.index, write_fault (not_le.mp h)⟩⟩
  rw [List.length_append]
  exact h

theorem boundedWhen_insertAt :
    BoundedWhen cap (max p text.length + bs.length ≤ cap) (insertAt cap p bs text) := by
  refine ⟨fun h => ⟨_, if_pos h, ?_⟩, fun h => ⟨.index, if_neg h⟩⟩
  calc _ ≤ text.length + bs.length := List.length_take_le _ _
    _ ≤ max p text.length + bs.length := Nat.add_le_add_right (le_max_right _ _) _
    _ ≤ cap := h

/-- A text that is worked on. -/
theorem BoundedWhen.bind {cap' : ℕ} {d : Prop} {k : List UInt8 → Except Exc (List UInt8)} (h : BoundedWhen cap c x)
    (hk : ∀ text, text.length ≤ cap → BoundedWhen cap' d (k text)) : BoundedWhen cap' (c ∧ d) (x >>= k) := by
  by_cases hc : c
  · obtain ⟨text, rfl, hlen⟩ := h.ok hc
    exact (hk text hlen).congr (and_iff_right hc).symm
  · obtain ⟨f, rfl⟩ := h.faults hc
    exact (BoundedWhen.of_fault f).congr (iff_of_false not_false fun h' => hc h'.1)

/-- **A layout fits** when its width and its content do. -/
theorem boundedWhen_layout (sign : Option UInt8) (pre body : List UInt8) (spec : FormatSpec) (allowZeroPad : Bool) :
    BoundedWhen cap (max spec.width (contentLen sign pre body) ≤ cap)
      (applyLayout cap sign pre body spec allowZeroPad) := by
  rw [applyLayout_eq]
  refine boundedWhen_write.congr ?_
  rw [List.length_nil, Nat.zero_add, length_layout]

/-- A short content does not matter. -/
theorem boundedWhen_width {sign : Option UInt8} {pre body : List UInt8} (spec : FormatSpec) (allowZeroPad : Bool)
    (h : contentLen sign pre body ≤ cap) :
    BoundedWhen cap (spec.width ≤ cap) (applyLayout cap sign pre body spec allowZeroPad) :=
  (boundedWhen_layout sign pre body spec allowZeroPad).congr ⟨fun h' => (le_max_left _ _).trans h', fun h' => max_le h' h⟩

end

/-! ### Decimal digits -/

theorem natDigits_digit {n : ℕ} {b : UInt8} (h : b ∈ natDigits n) : isDigit b = true := by
  rw [natDigits_eq_decimal] at h
  exact List.all_eq_true.mp (decimal_digits n) b h

/-- A number below a power of ten has that many digits at most. -/
theorem length_natDigits_le {n k : ℕ} (hk : 0 < k) (h : n < 10 ^ k) : (natDigits n).length ≤ k := by
  rw [natDigits_eq_decimal]
  induction k generalizing n with
  | zero => omega
  | succ k ih =>
    rw [decimal]
    split_ifs with hn
    · simp
    · rw [List.length_append, List.length_singleton]
      have hk : 0 < k := by
        rcases Nat.eq_zero_or_pos k with rfl | hk
        · omega
        · exact hk
      have := ih (n := n / 10) hk (by rw [pow_succ] at h; omega)
      omega

theorem lt_length_natDigits {n k : ℕ} (h : 10 ^ k ≤ n) : k < (natDigits n).length := by
  rw [natDigits_eq_decimal]
  induction k generalizing n with
  | zero => exact List.length_pos_iff.mpr (decimal_ne_nil n)
  | succ k ih =>
    have hpos : 0 < 10 ^ k := by positivity
    rw [pow_succ] at h
    rw [decimal, if_neg (by omega), List.length_append, List.length_singleton]
    have := ih (n := n / 10) (by omega)
    omega

/-- The digits are read back. -/
theorem decimalFrom_natDigits (n : ℕ) : Codec.decimalFrom 0 (natDigits n) = n := by
  rw [natDigits_eq_decimal]
  exact decValue_decimal n

/-! ### The sink -/

section
variable {cap : ℕ} {ps qs : List (List UInt8)} {out : List UInt8}

/-- Pieces that fit are written. -/
theorem fmtWrite_fits (h : out.length + ps.flatten.length ≤ cap) :
    fmtWrite cap (ps ++ qs) out = fmtWrite cap qs (out ++ ps.flatten) := by
  induction ps generalizing out with
  | nil => rw [List.nil_append, List.flatten_nil, List.append_nil]
  | cons p ps ih =>
    rw [List.flatten_cons, List.length_append] at h
    have hrest : (out ++ p).length + ps.flatten.length ≤ cap := by
      rw [List.length_append]
      omega
    rw [List.cons_append, fmtWrite, if_neg (by omega), ih hrest, List.flatten_cons, List.append_assoc]

/-- Pieces that do not fit are cut, and nothing is written behind them. -/
theorem fmtWrite_overflow (hout : out.length ≤ cap) (h : cap < out.length + ps.flatten.length) :
    ∃ w, (fmtWrite cap (ps ++ qs) out).1 = out ++ w ∧ w <+: ps.flatten ∧ (out ++ w).length ≤ cap := by
  induction ps generalizing out with
  | nil =>
    rw [List.flatten_nil, List.length_nil] at h
    omega
  | cons p ps ih =>
    rw [List.cons_append, fmtWrite]
    by_cases hp : out.length + p.length > cap
    · rw [if_pos hp]
      exact ⟨[], (List.append_nil out).symm, List.nil_prefix, by rwa [List.append_nil]⟩
    · rw [List.flatten_cons, List.length_append] at h
      have hfit : (out ++ p).length ≤ cap := by
        rw [List.length_append]
        omega
      obtain ⟨w, hw, hpre, hlen⟩ := ih hfit (by rw [List.length_append]; omega)
      refine ⟨p ++ w, ?_, ?_, ?_⟩
      · rw [if_neg hp, hw, List.append_assoc]
      · rw [List.flatten_cons]
        exact (List.prefix_append_right_inj p).mpr hpre
      · rwa [← List.append_assoc]

end

/-! ### The exponent -/

/-- There is no mark of an exponent. -/
def NoMark (text : List UInt8) : Prop := ∀ b ∈ text, isMark b = false

instance (text : List UInt8) : Decidable (NoMark text) := by
  unfold NoMark
  infer_instance

theorem not_mark_of_digit {b : UInt8} (h : isDigit b = true) : isMark b = false := by
  revert b
  decide +kernel

section
variable {cap : ℕ} {pre ds : List UInt8} {mark : UInt8}

theorem findIdx?_mark (hpre : NoMark pre) (hmark : isMark mark = true) (tail : List UInt8) :
    (pre ++ mark :: tail).findIdx? isMark = some pre.length := by
  have hnone : pre.findIdx? isMark = none := List.findIdx?_eq_none_iff.mpr hpre
  rw [List.findIdx?_append, hnone, List.findIdx?_cons, if_pos hmark]
  simp

theorem normalizeExponent_noMark {text : List UInt8} (h : NoMark text) : normalizeExponent cap text = .ok text := by
  rw [normalizeExponent, List.findIdx?_eq_none_iff.mpr h]

/-- Behind a front of the text, the digits of the exponent are brought to two. -/
theorem twoDigits_bounded (hds : ∀ b ∈ ds, isDigit b = true) (hlen : (pre ++ ds).length ≤ cap) :
    BoundedWhen cap (pre.length + max 2 ds.length ≤ cap) (twoDigits cap pre.length (pre ++ ds)) := by
  rw [List.length_append] at hlen
  have hnd : ((pre ++ ds).drop pre.length).takeWhile isDigit = ds := by
    rw [List.drop_left]
    exact List.takeWhile_eq_self_iff.mpr hds
  unfold twoDigits
  dsimp only
  rw [hnd]
  by_cases htwo : ds.length < 2
  · rw [if_pos htwo]
    refine boundedWhen_insertAt.congr ?_
    rw [List.length_append, List.length_replicate]
    omega
  · rw [if_neg htwo]
    exact (BoundedWhen.of_ok (by rwa [List.length_append])).congr (iff_of_true trivial (by omega))

theorem plusSign_bounded {d : UInt8} (hd : isDigit d = true) :
    plusSign cap pre.length (pre ++ d :: ds) =
      if (pre ++ d :: ds).length + 1 ≤ cap then .ok (pre ++ 43 :: d :: ds) else .error (.fault .index) := by
  have hdigit : ((pre ++ d :: ds).drop pre.length).head?.any isDigit = true := by
    rw [List.drop_left]
    exact hd
  have hmax : max pre.length (pre ++ d :: ds).length = (pre ++ d :: ds).length := by
    rw [List.length_append]
    omega
  have htext : pre ++ List.replicate (pre.length - (pre ++ d :: ds).length) 0 ++ [43] ++ d :: ds =
      pre ++ 43 :: d :: ds := by
    rw [List.length_append, Nat.sub_eq_zero_of_le (Nat.le_add_right _ _)]
    simp
  have hlen : (pre ++ 43 :: d :: ds).length = (pre ++ d :: ds).length + [(43 : UInt8)].length := by
    simp only [List.length_append, List.length_cons, List.length_nil]
    omega
  rw [plusSign, if_pos hdigit, insertAt, hmax, List.take_left, List.drop_left, htext, ← hlen, List.take_length, hlen]
  rfl

/-- The exponent may start with a sign. -/
theorem normalizeExponent_bounded (hpre : NoMark pre) (hmark : isMark mark = true) (minus : Bool)
    (hds : ∀ b ∈ ds, isDigit b = true) (hlen : (pre ++ mark :: ((if minus then [45] else []) ++ ds)).length ≤ cap) :
    BoundedWhen cap (pre.length + 2 + max 2 ds.length ≤ cap)
      (normalizeExponent cap (pre ++ mark :: ((if minus then [45] else []) ++ ds))) := by
  rw [normalizeExponent, findIdx?_mark hpre hmark]
  dsimp only
  cases minus with
  | true =>
    have hfront : pre ++ mark :: ((if true = true then [45] else []) ++ ds) = (pre ++ [mark, 45]) ++ ds := by simp
    have hpos : pre.length + 2 = (pre ++ [mark, 45]).length := by simp
    have hplus : plusSign cap (pre.length + 1) ((pre ++ [mark, 45]) ++ ds) = .ok ((pre ++ [mark, 45]) ++ ds) := by
      have hsplit : (pre ++ [mark, 45]) ++ ds = (pre ++ [mark]) ++ 45 :: ds := by simp
      have hone : pre.length + 1 = (pre ++ [mark]).length := by simp
      rw [plusSign, hsplit, hone, List.drop_left]
      exact if_neg (by simp; decide)
    rw [hfront] at hlen ⊢
    rw [hplus, ok_bind, hpos]
    exact twoDigits_bounded hds hlen
  | false =>
    cases ds with
    | nil =>
      -- only the mark has been written: the zeros start behind the end of the text
      have htext : pre ++ mark :: ((if false = true then [45] else []) ++ []) = pre ++ [mark] := by simp
      have hplus : plusSign cap (pre.length + 1) (pre ++ [mark]) = .ok (pre ++ [mark]) := by
        rw [plusSign, List.drop_eq_nil_of_le (by simp)]
        rfl
      have hnone : (pre ++ [mark]).drop (pre.length + 2) = [] := List.drop_eq_nil_of_le (by simp)
      rw [htext, hplus, ok_bind, twoDigits, hnone]
      refine boundedWhen_insertAt.congr ?_
      simp
    | cons d ds =>
      have htext : pre ++ mark :: ((if false = true then [45] else []) ++ d :: ds) = (pre ++ [mark]) ++ d :: ds := by
        simp
      have hone : pre.length + 1 = (pre ++ [mark]).length := by simp
      rw [htext] at hlen ⊢
      rw [hone, plusSign_bounded (hds d (List.mem_cons_self ..))]
      by_cases hfit : ((pre ++ [mark]) ++ d :: ds).length + 1 ≤ cap
      · have hfront : (pre ++ [mark]) ++ 43 :: d :: ds = (pre ++ [mark, 43]) ++ d :: ds := by simp
        have hpos : pre.length + 2 = (pre ++ [mark, 43]).length := by simp
        rw [if_pos hfit, ok_bind, hfront, hpos]
        refine twoDigits_bounded hds ?_
        simp only [List.length_append, List.length_cons, List.length_nil] at hfit ⊢
        omega
      · rw [if_neg hfit]
        refine (BoundedWhen.of_fault .index).congr (iff_of_false not_false fun h => hfit ?_)
        simp only [List.length_append, List.length_cons, List.length_nil] at h ⊢
        omega

end

/-! ### `%e` -/

/-- The bytes in front of the mark: the sign, a digit, and the point and the other digits. -/
def mantissaLen (s : Sign) (prec : ℕ) : ℕ :=
  (signPiece s).flatten.length + 1 + if prec = 0 then 0 else prec + 1

/-- Where the mark fits into the buffer, there is room for a sign and two digits behind it, or for all digits. -/
def ExpFits (C : CoreFmt) (prec : ℕ) (f : Float) : Prop :=
  prec ≤ C.maxPrecision ∧
    match f.toModel.unpack with
    | .notANumber | .infinity _ => True
    | .zero s => mantissaLen s prec + 2 ≤ TMP_CAP → mantissaLen s prec + 4 ≤ TMP_CAP
    | .finite s m e _ =>
      let k := (scientific prec (m * 2 ^ e)).2
      if k < 0 then mantissaLen s prec + 2 ≤ TMP_CAP → mantissaLen s prec + 4 ≤ TMP_CAP
      else mantissaLen s prec + 1 ≤ TMP_CAP → mantissaLen s prec + 2 + max 2 (natDigits k.natAbs).length ≤ TMP_CAP

section
variable {C : CoreFmt} {s : Sign} {ds : List UInt8} {prec cap : ℕ} {mark : UInt8}

theorem flatten_mantissa : (mantissaPieces C s ds).flatten =
    (signPiece s).flatten ++ (ds.take 1 ++ if ds.drop 1 = [] then [] else 46 :: ds.drop 1) := by
  rw [mantissaPieces, List.flatten_append, List.flatten_cons, fraction]
  split_ifs
  · rfl
  · rw [List.flatten_cons, C.flatten_pieces]
    rfl

theorem length_mantissa (h : ds.length = prec + 1) : (mantissaPieces C s ds).flatten.length = mantissaLen s prec := by
  have hdrop : ds.drop 1 = [] ↔ prec = 0 := by
    rw [← List.length_eq_zero_iff, List.length_drop]
    omega
  rw [flatten_mantissa, mantissaLen, List.length_append, List.length_append, List.length_take, Nat.add_assoc]
  simp only [hdrop]
  split_ifs
  · rw [List.length_nil]
    omega
  · rw [List.length_cons, List.length_drop]
    omega

theorem noMark_sign (s : Sign) : NoMark (signPiece s).flatten := by
  cases s <;> decide +kernel

theorem noMark_mantissa (h : ∀ b ∈ ds, isDigit b = true) : NoMark (mantissaPieces C s ds).flatten := by
  rw [flatten_mantissa]
  refine List.forall_mem_append.mpr ⟨noMark_sign s, List.forall_mem_append.mpr ⟨?_, ?_⟩⟩
  · exact fun b hb => not_mark_of_digit (h b (List.mem_of_mem_take hb))
  · split_ifs
    · exact List.forall_mem_nil _
    · refine List.forall_mem_cons.mpr ⟨by decide, fun b hb => not_mark_of_digit (h b (List.mem_of_mem_drop hb))⟩

/-- A text that is cut in front of the mark stays as it is. -/
theorem normalize_cut {ps qs : List (List UInt8)} (hps : NoMark ps.flatten) (hcut : cap < ps.flatten.length) :
    BoundedWhen cap True (normalizeExponent cap (fmtWrite cap (ps ++ qs) []).1) := by
  obtain ⟨w, hw, hpre, hlen⟩ := @fmtWrite_overflow cap ps qs [] (Nat.zero_le cap)
    (by rwa [List.length_nil, Nat.zero_add])
  rw [List.nil_append] at hw hlen
  rw [hw, normalizeExponent_noMark fun b hb => hps b (hpre.subset hb)]
  exact .of_ok hlen

/-- The mark and the digits of the exponent in pieces of their own. -/
theorem normalize_pieces {ps : List (List UInt8)} (hps : NoMark ps.flatten) (hmark : isMark mark = true) (minus : Bool)
    (hds : ∀ b ∈ ds, isDigit b = true) (hlen : ds.length ≤ 3) :
    BoundedWhen cap (if minus then ps.flatten.length + 2 ≤ cap → ps.flatten.length + 4 ≤ cap
        else ps.flatten.length + 1 ≤ cap → ps.flatten.length + 2 + max 2 ds.length ≤ cap)
      (normalizeExponent cap (fmtWrite cap (ps ++ [if minus then [mark, 45] else [mark], ds]) []).1) := by
  have hpiece : (if minus then [mark, 45] else [mark]) = mark :: if minus then [45] else [] := by cases minus <;> rfl
  have hfront : (mark :: if minus then [(45 : UInt8)] else []).length = if minus then 2 else 1 := by
    cases minus <;> rfl
  rw [hpiece]
  by_cases hbody : cap < ps.flatten.length
  · refine (normalize_cut hps hbody).congr (iff_of_true trivial ?_)
    cases minus <;> simp only [if_true, if_false, Bool.false_eq_true] <;> omega
  rw [fmtWrite_fits (by rwa [List.length_nil, Nat.zero_add, ← not_lt]), List.nil_append, fmtWrite]
  by_cases hm : ps.flatten.length + (mark :: if minus then [(45 : UInt8)] else []).length > cap
  · -- the mark does not fit
    rw [if_pos hm, normalizeExponent_noMark hps]
    refine (BoundedWhen.of_ok (not_lt.mp hbody)).congr (iff_of_true trivial ?_)
    rw [hfront] at hm
    cases minus <;> simp only [if_true, if_false, Bool.false_eq_true] at hm ⊢ <;> omega
  rw [if_neg hm, fmtWrite]
  by_cases hd : (ps.flatten ++ mark :: if minus then [(45 : UInt8)] else []).length + ds.length > cap
  · -- the digits do not fit
    have hnone : ps.flatten ++ (mark :: if minus then [(45 : UInt8)] else []) =
        ps.flatten ++ mark :: ((if minus then [45] else []) ++ []) := by rw [List.append_nil]
    rw [if_pos hd, hnone]
    refine (normalizeExponent_bounded hps hmark minus (List.forall_mem_nil _) ?_).congr ?_
    · rw [← hnone, List.length_append]
      omega
    · rw [List.length_append] at hd
      rw [hfront] at hm hd
      cases minus <;> simp only [if_true, if_false, Bool.false_eq_true] at hm hd ⊢ <;> rw [List.length_nil] <;> omega
  · have hall : ps.flatten ++ (mark :: if minus then [(45 : UInt8)] else []) ++ ds =
        ps.flatten ++ mark :: ((if minus then [45] else []) ++ ds) := by simp
    rw [if_neg hd, fmtWrite, hall]
    refine (normalizeExponent_bounded hps hmark minus hds ?_).congr ?_
    · rw [← hall, List.length_append]
      omega
    · rw [List.length_append] at hd
      rw [hfront] at hm hd
      cases minus <;> simp only [if_true, if_false, Bool.false_eq_true] at hm hd ⊢ <;> omega

/-- The exponent of zero is written with its mark. -/
theorem normalize_zero {ps : List (List UInt8)} (hps : NoMark ps.flatten) (hmark : isMark mark = true) :
    BoundedWhen cap (ps.flatten.length + 2 ≤ cap → ps.flatten.length + 4 ≤ cap)
      (normalizeExponent cap (fmtWrite cap (ps ++ [[mark, 48]]) []).1) := by
  by_cases hbody : cap < ps.flatten.length
  · exact (normalize_cut hps hbody).congr (iff_of_true trivial (by omega))
  rw [fmtWrite_fits (by rwa [List.length_nil, Nat.zero_add, ← not_lt]), List.nil_append, fmtWrite]
  by_cases hm : ps.flatten.length + [mark, 48].length > cap
  · rw [if_pos hm, normalizeExponent_noMark hps]
    refine (BoundedWhen.of_ok (not_lt.mp hbody)).congr (iff_of_true trivial fun h => ?_)
    exact absurd hm (not_lt.mpr h)
  · have hfit : ps.flatten.length + 2 ≤ cap := not_lt.mp hm
    rw [if_neg hm, fmtWrite]
    refine (@normalizeExponent_bounded cap _ [48] mark hps hmark false (List.forall_mem_singleton.mpr rfl) ?_).congr ?_
    · rw [List.length_append]
      exact hfit
    · simp only [List.length_singleton]
      omega

/-- **When `%e` stays inside its buffer.** -/
theorem expText_bounded (hmark : isMark mark = true) (prec : ℕ) (f : Float) :
    BoundedWhen TMP_CAP (ExpFits C prec f) (expText C mark prec f) := by
  unfold ExpFits expText
  by_cases hmax : prec > C.maxPrecision
  · rw [if_pos hmax]
    exact (BoundedWhen.of_fault .library).congr (iff_of_false not_false fun h => absurd h.1 (not_le.mpr hmax))
  rw [if_neg hmax, and_iff_right (not_lt.mp hmax), sciPieces]
  cases hf : f.toModel.unpack with
  | notANumber =>
    have hnan : NoMark (fmtWrite TMP_CAP [bytesOf "NaN"] []).1 ∧
        (fmtWrite TMP_CAP [bytesOf "NaN"] []).1.length ≤ TMP_CAP := by decide +kernel
    exact ⟨fun _ => ⟨_, normalizeExponent_noMark hnan.1, hnan.2⟩, fun h => absurd trivial h⟩
  | infinity s =>
    have hinf : ∀ s, NoMark (fmtWrite TMP_CAP (signPiece s ++ [bytesOf "inf"]) []).1 ∧
        (fmtWrite TMP_CAP (signPiece s ++ [bytesOf "inf"]) []).1.length ≤ TMP_CAP := by
      intro s
      cases s <;> decide +kernel
    exact ⟨fun _ => ⟨_, normalizeExponent_noMark (hinf s).1, (hinf s).2⟩, fun h => absurd trivial h⟩
  | zero s =>
    have hzeros : ∀ b ∈ List.replicate (prec + 1) (48 : UInt8), isDigit b = true := by
      intro b hb
      rw [List.eq_of_mem_replicate hb]
      rfl
    have h := @normalize_zero TMP_CAP mark _ (@noMark_mantissa C s _ hzeros) hmark
    rw [length_mantissa List.length_replicate] at h
    exact h
  | finite s m e hpos =>
    have hx : (0 : ℚ) < m * 2 ^ e := mul_pos (by exact_mod_cast hpos) (Arith.Rounding.two_zpow_pos e)
    obtain ⟨hlo, hhi⟩ := scientific_digits (n := prec) hx
    have hdigits : (natDigits (scientific prec ((m : ℚ) * 2 ^ e)).1).length = prec + 1 :=
      le_antisymm (length_natDigits_le (Nat.succ_pos prec) hhi) (lt_length_natDigits hlo)
    have hexp := length_natDigits_le (k := 3) (by norm_num) (abs_exponent_lt hf prec)
    have hmantissa : NoMark (mantissaPieces C s (natDigits (scientific prec ((m : ℚ) * 2 ^ e)).1)).flatten :=
      noMark_mantissa fun b hb => natDigits_digit hb
    have h := @normalize_pieces _ TMP_CAP mark _ hmantissa hmark (decide ((scientific prec ((m : ℚ) * 2 ^ e)).2 < 0))
      (fun b hb => natDigits_digit hb) hexp
    rw [length_mantissa hdigits] at h
    simp only [decide_eq_true_eq] at h
    exact h

end

/-! ### `%g` -/

theorem length_generalText {digits : List UInt8} {exp : ℤ} (hdigits : digits.length ≤ 14) (hexp : exp.natAbs < 1000) :
    (generalText digits exp).length < FLOAT_BUF := by
  have hk := length_natDigits_le (k := 3) (by norm_num) hexp
  unfold generalText FLOAT_BUF
  dsimp only
  split_ifs <;> simp only [List.length_append, List.length_cons, List.length_nil, List.length_take,
    List.length_drop, List.length_replicate] <;> omega

theorem length_mantissaDigits (sci : List UInt8) : (mantissaDigits sci).length ≤ 14 := by
  unfold mantissaDigits
  dsimp only
  generalize (if sci.head? = some 45 then sci.tail else sci) = body
  have hdrop := (List.rdropWhile_prefix (· = 48) (l := (body.drop 2).take 13)).length_le
  rw [List.length_append]
  have h1 := List.length_take_le 1 body
  have h2 := List.length_take_le 13 (body.drop 2)
  omega

/-- The exponent is read back. -/
theorem readExponent_eq (k : ℤ) : readExponent ((if k < 0 then [45] else []) ++ natDigits k.natAbs) = k := by
  have hvalue := decimalFrom_natDigits k.natAbs
  split_ifs with hk
  · change -(Codec.decimalFrom 0 (natDigits k.natAbs) : ℤ) = k
    omega
  · rw [List.nil_append]
    have hdigits : ∀ ds : List UInt8, (∀ b ∈ ds, isDigit b = true) → readExponent ds = Codec.decimalFrom 0 ds := by
      intro ds hds
      unfold readExponent
      split
      · exact absurd (hds 45 (List.mem_cons_self ..)) (by decide)
      · exact absurd (hds 43 (List.mem_cons_self ..)) (by decide)
      · rfl
    rw [hdigits _ fun b hb => natDigits_digit hb]
    omega

/-- What is in `sci` for a finite float that is not zero. -/
theorem sciPieces_finite (C : CoreFmt) {f : Float} {s : Sign} {m : ℕ} {e : ℤ} {hpos : 0 < m}
    (hf : f.toModel.unpack = .finite s m e hpos) : ∃ (pre : List UInt8) (k : ℤ), NoMark pre ∧ k.natAbs < 1000 ∧
      fmtWrite SCI_CAP (sciPieces C 101 13 f) [] =
        (pre ++ 101 :: ((if k < 0 then [45] else []) ++ natDigits k.natAbs), true) := by
  have hx : (0 : ℚ) < m * 2 ^ e := mul_pos (by exact_mod_cast hpos) (Arith.Rounding.two_zpow_pos e)
  obtain ⟨hlo, hhi⟩ := scientific_digits (n := 13) hx
  have hdigits : (natDigits (scientific 13 ((m : ℚ) * 2 ^ e)).1).length = 13 + 1 :=
    le_antisymm (length_natDigits_le (by norm_num) hhi) (lt_length_natDigits hlo)
  have hexp := abs_exponent_lt hf 13
  have hlen := length_natDigits_le (k := 3) (by norm_num) hexp
  have hmantissa : mantissaLen s 13 ≤ 16 := by cases s <;> decide
  refine ⟨(mantissaPieces C s (natDigits (scientific 13 ((m : ℚ) * 2 ^ e)).1)).flatten, _,
    noMark_mantissa fun b hb => natDigits_digit hb, hexp, ?_⟩
  have hpieces : sciPieces C 101 13 f = mantissaPieces C s (natDigits (scientific 13 ((m : ℚ) * 2 ^ e)).1) ++
      exponentPieces 101 (scientific 13 ((m : ℚ) * 2 ^ e)).2 := by
    rw [sciPieces, hf]
  have hbody := length_mantissa (C := C) (s := s) hdigits
  have htail : ∀ k : ℤ, (exponentPieces 101 k).flatten =
      101 :: ((if k < 0 then [45] else []) ++ natDigits k.natAbs) := by
    intro k
    unfold exponentPieces
    split_ifs <;> simp
  have hfit : ([] : List UInt8).length + (sciPieces C 101 13 f).flatten.length ≤ SCI_CAP := by
    rw [hpieces, List.flatten_append, List.length_append, hbody, htail, List.length_cons, List.length_append]
    unfold SCI_CAP
    split_ifs <;> simp only [List.length_cons, List.length_nil] <;> omega
  have hwrite := @fmtWrite_fits SCI_CAP _ [] [] hfit
  rw [List.append_nil, fmtWrite] at hwrite
  rw [hwrite, hpieces, List.flatten_append, htail, List.nil_append]

/-- **The text of `%g`** has 40 bytes at most. -/
theorem fmtFloat_ok (C : CoreFmt) {cap : ℕ} (hcap : FLOAT_BUF ≤ cap) (f : Float) :
    ∃ text, fmtFloat C cap f = .ok text ∧ text.length ≤ FLOAT_BUF := by
  have hwrite : ∀ {bs : List UInt8}, bs.length ≤ FLOAT_BUF →
      ∃ text, write cap bs [] = .ok text ∧ text.length ≤ FLOAT_BUF := by
    intro bs hbs
    exact ⟨bs, write_ok (by rw [List.length_nil, Nat.zero_add]; exact hbs.trans hcap), hbs⟩
  unfold fmtFloat
  by_cases hnan : f.isNaN = true
  · rw [if_pos hnan]
    exact hwrite (by decide +kernel)
  by_cases hinf : f.isInf = true
  · rw [if_neg hnan, if_pos hinf]
    apply hwrite
    split_ifs <;> decide +kernel
  by_cases hzero : (f == 0.0) = true
  · rw [if_neg hnan, if_neg hinf, if_pos hzero]
    apply hwrite
    split_ifs <;> decide +kernel
  rw [if_neg hnan, if_neg hinf, if_neg hzero]
  cases hf : f.toModel.unpack with
  | notANumber =>
    have : f.isNaN = true := by
      unfold Float.isNaN Float.Model.isNaN
      rw [hf]
      rfl
    exact absurd this hnan
  | infinity s =>
    have : f.isInf = true := by
      unfold Float.isInf Float.Model.isInf
      rw [hf]
      rfl
    exact absurd this hinf
  | zero s =>
    have h : Arith.Binary64.Holds f 0 := by
      unfold Arith.Binary64.Holds
      rw [hf]
      exact .zero s
    exact absurd ((h.beq_iff holds_zero).mpr rfl) hzero
  | finite s m e hpos =>
    obtain ⟨pre, k, hpre, hk, hsci⟩ := sciPieces_finite C hf
    have hnone : pre.findIdx? (· = 101) = none := by
      refine List.findIdx?_eq_none_iff.mpr fun b hb => ?_
      have := hpre b hb
      simp only [isMark, Bool.or_eq_false_iff] at this
      exact this.1
    have hfind : (pre ++ 101 :: ((if k < 0 then [45] else []) ++ natDigits k.natAbs)).findIdx? (· = 101) =
        some pre.length := by
      rw [List.findIdx?_append, hnone, List.findIdx?_cons, if_pos (by decide)]
      simp
    have hdrop : (pre ++ 101 :: ((if k < 0 then [45] else []) ++ natDigits k.natAbs)).drop (pre.length + 1) =
        (if k < 0 then [45] else []) ++ natDigits k.natAbs := by
      rw [List.drop_append, Nat.add_sub_cancel_left, List.drop_eq_nil_of_le (Nat.le_succ _)]
      rfl
    rw [hsci]
    dsimp only
    rw [if_neg (by decide), hfind]
    dsimp only
    rw [hdrop, readExponent_eq]
    refine hwrite ?_
    have hlen := length_generalText (length_mantissaDigits
      (pre ++ 101 :: ((if k < 0 then [45] else []) ++ natDigits k.natAbs))) hk
    rw [List.length_append]
    have hsign : ∀ c : Prop, [Decidable c] → (if c then [(45 : UInt8)] else []).length ≤ 1 := by
      intro c _
      split_ifs <;> decide
    have := hsign ((pre ++ 101 :: ((if k < 0 then [45] else []) ++ natDigits k.natAbs)).head? = some 45)
    omega

end Format
end Lua
end Rustrapper
