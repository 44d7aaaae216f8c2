/-
# string.format

The loop of `string.format` writes bytes and pieces into a buffer of 1024 bytes;
each piece is first laid out in a buffer of its own. The output is checked
against its length, but the width, the precision of an integer, the digits of a
float and the bytes of a `%s` are not: a call is bounded exactly when every
conversion it comes to fits the buffers (`stringFormat_bounded_iff`).
-/
import Rustrapper.Effect.Reached
import Rustrapper.Lua.FormatFloat
import Rustrapper.Lua.Pack
import Rustrapper.Lua.Quote
import Rustrapper.Lua.Ranges
import Rustrapper.Lua.Run

namespace Rustrapper
namespace Lua
namespace Format

/-! ### Specifiers -/

def isFlag (b : UInt8) : Bool := (bytesOf "-+ 0#").contains b

/-- A number of at most `bits` bits: the products and sums saturate. -/
def saturating (bits : ℕ) (ds : List UInt8) : ℕ :=
  ds.foldl (fun n b => min (min (n * 10) (2 ^ bits - 1) + (b.toNat - 48)) (2 ^ bits - 1)) 0

/-- The precision, if there is a point, and what is behind it. -/
def parsePrecision (bits : ℕ) : List UInt8 → Option ℕ × List UInt8
  | 46 :: bs => (some (saturating bits (bs.takeWhile isDigit)), bs.dropWhile isDigit)
  | bs => (none, bs)

/-- `parse_format_spec` behind the `%`: the specifier and the format behind it. -/
def parseFormatSpec (bits : ℕ) (bs : List UInt8) : Except String (FormatSpec × List UInt8) :=
  let flags := bs.takeWhile isFlag
  let bs := bs.dropWhile isFlag
  let width := saturating bits (bs.takeWhile isDigit)
  let (precision, bs) := parsePrecision bits (bs.dropWhile isDigit)
  match bs with
  | [] => .error "malformed format string"
  | ty :: bs =>
    if (bytesOf "sqcdiuoxXfeEgG").contains ty then
      .ok ({ left := flags.contains 45, plus := flags.contains 43, space := flags.contains 32,
             zero := flags.contains 48, hash := flags.contains 35, width, precision, ty }, bs)
    else .error "invalid option in format string"

theorem length_parsePrecision (bits : ℕ) (bs : List UInt8) : (parsePrecision bits bs).2.length ≤ bs.length := by
  unfold parsePrecision
  split
  · exact (List.length_dropWhile_le _ _).trans (Nat.le_succ _)
  · exact le_rfl

theorem length_parseFormatSpec {bits : ℕ} {bs : List UInt8} {p : FormatSpec × List UInt8}
    (h : parseFormatSpec bits bs = .ok p) : p.2.length ≤ bs.length := by
  have hflags := List.length_dropWhile_le isFlag bs
  have hwidth := List.length_dropWhile_le isDigit (bs.dropWhile isFlag)
  have hprec := length_parsePrecision bits ((bs.dropWhile isFlag).dropWhile isDigit)
  unfold parseFormatSpec at h
  dsimp only at h
  cases hrest : (parsePrecision bits ((bs.dropWhile isFlag).dropWhile isDigit)).2 with
  | nil =>
    rw [hrest] at h
    cases h
  | cons ty rest =>
    rw [hrest, List.length_cons] at hprec
    rw [hrest] at h
    dsimp only at h
    split_ifs at h
    cases h
    dsimp only
    omega

/-! ### Values -/

/-- The bytes of a `%s` that its precision leaves. -/
def shown (spec : FormatSpec) (bytes : List UInt8) : List UInt8 :=
  match spec.precision with
  | some p => bytes.take p
  | none => bytes

/-- `%s`. -/
def formatShown (L : Lib) (spec : FormatSpec) (arg : Value) : LuaM (List UInt8) := do
  let sr ← valueToString L arg
  let s ← get
  Pack.ofExcept (applyLayout PIECE_CAP none [] (shown spec (s.strBytes sr)) spec false)

/-- `%q`. -/
def formatQuoted (spec : FormatSpec) (arg : Value) : LuaM (List UInt8) :=
  match arg with
  | .str r => do
    let s ← get
    match quoteString PIECE_CAP (s.strBytes r) with
    | .error m => err m
    | .ok quoted => Pack.ofExcept (applyLayout PIECE_CAP none [] quoted spec false)
  | _ => err "bad argument #2 (string expected)"

/-- `%c`. -/
def formatChar (spec : FormatSpec) (arg : Value) : LuaM (List UInt8) := do
  let n ← Pack.ofExcept (toIntegerForFormat arg)
  if n < 0 ∨ n > 255 then err "bad argument (value out of range)"
  else Pack.ofExcept (applyLayout PIECE_CAP none [] [n.toUInt64.toUInt8] spec false)

/-- The conversions of numbers. -/
def formatNumber (C : CoreFmt) (spec : FormatSpec) (arg : Value) : LuaM (List UInt8) :=
  match integerBase spec.ty with
  | some (base, unsigned) => Pack.ofExcept (formatInteger PIECE_CAP arg spec base unsigned)
  | none =>
    if IsFloatType spec.ty then Pack.ofExcept (formatFloat C PIECE_CAP arg spec)
    else err "invalid option in format string"

/-- `format_value`. -/
def formatValue (L : Lib) (C : CoreFmt) (spec : FormatSpec) (arg : Value) : LuaM (List UInt8) :=
  match Char.ofNat spec.ty.toNat with
  | 's' => formatShown L spec arg
  | 'q' => formatQuoted spec arg
  | 'c' => formatChar spec arg
  | _ => formatNumber C spec arg

/-! ### The loop -/

/-- What the loop finds in the format. -/
inductive Directive where
  | byte (b : UInt8)
  | conversion (spec : FormatSpec)

/-- The directive that starts with `b`, and the format behind it. -/
def nextDirective (bits : ℕ) (b : UInt8) (rest : List UInt8) :
    Except String { p : Directive × List UInt8 // p.2.length ≤ rest.length } :=
  if b ≠ 37 then .ok ⟨(.byte b, rest), le_rfl⟩
  else
    match rest with
    | [] => .error "malformed format string"
    | c :: more =>
      if c = 37 then .ok ⟨(.byte 37, more), Nat.le_succ _⟩
      else
        match h : parseFormatSpec bits (c :: more) with
        | .error m => .error m
        | .ok p => .ok ⟨(.conversion p.1, p.2), length_parseFormatSpec h⟩

/-- The bytes of a directive, and the arguments behind it. -/
def pieceOf (L : Lib) (C : CoreFmt) : Directive → List Value → LuaM (List UInt8 × List Value)
  | .byte b, args => pure ([b], args)
  | .conversion _, [] => err "not enough arguments for string.format"
  | .conversion spec, arg :: args => do
    let piece ← formatValue L C spec arg
    pure (piece, args)

/-- The loop of `string.format`; `out` has room for 1024 bytes. -/
def formatLoop (L : Lib) (C : CoreFmt) (bits : ℕ) : List UInt8 → List Value → List UInt8 →
    LuaM (List Value × List UInt8)
  | [], args, out => pure (args, out)
  | b :: rest, args, out =>
    match nextDirective bits b rest with
    | .error m => err m
    | .ok p => do
      let (piece, args) ← pieceOf L C p.1.1 args
      if out.length + piece.length > PIECE_CAP then err "string.format result too long"
      else formatLoop L C bits p.1.2 args (out ++ piece)
termination_by fmt => fmt.length
decreasing_by
  have := p.2
  rw [List.length_cons]
  omega

/-- The length of `fmt_buf`. -/
def FMT_CAP : ℕ := 1024

/-- What is done behind the loop. -/
def finish (args : List Value) (out : List UInt8) : LuaM ExecResult :=
  if args.isEmpty then do
    let r ← intern out
    pure (.ret (.str r))
  else err "too many arguments for string.format"

/-- `string.format`. -/
def stringFormat (L : Lib) (C : CoreFmt) (bits : ℕ) (args : List Value) : LuaM ExecResult :=
  match args with
  | [] => err "string.format expects at least 1 argument"
  | .str r :: args => do
    let s ← get
    if (s.strBytes r).length > FMT_CAP then err "string.format format string too long"
    else do
      let (args, out) ← formatLoop L C bits (s.strBytes r) args []
      finish args out
  | _ => err "string.format expects a string format"

/-! ### Conversions that fit -/

/-- The text of a `%s` fits; the metamethod that renders the argument has to end. -/
def ShownFits (R : Rec) (L : Lib) (spec : FormatSpec) (arg : Value) (s : LuaState) : Prop :=
  Pattern.Safe (R.exec (tostringMM arg) s) ∧
    ∀ r t, R.exec (valueToString L arg) s = .ok r t → max spec.width (shown spec (t.strBytes r)).length ≤ PIECE_CAP

/-- The width of a `%q` fits where the quoted text does. -/
def QuotedFits (spec : FormatSpec) (arg : Value) (s : LuaState) : Prop :=
  ∀ r, arg = .str r → (∃ quoted, quoteString PIECE_CAP (s.strBytes r) = .ok quoted) → spec.width ≤ PIECE_CAP

/-- The width of a `%c` fits where its argument is a byte. -/
def CharFits (spec : FormatSpec) (arg : Value) : Prop :=
  ∀ n, wholeOf arg = some n → 0 ≤ n → n ≤ 255 → spec.width ≤ PIECE_CAP

/-- The width of a number, the precision of an integer and the text of a float fit. -/
def NumberFits (C : CoreFmt) (spec : FormatSpec) (arg : Value) : Prop :=
  match integerBase spec.ty with
  | some _ => ∀ n, wholeOf arg = some n → spec.precision.getD 0 ≤ BODY_CAP ∧ spec.width ≤ PIECE_CAP
  | none => IsFloatType spec.ty → ∀ f, floatOf arg = some f → FloatFits C spec f ∧ spec.width ≤ PIECE_CAP

/-- The piece of the conversion fits the buffers it is written to. An argument that the conversion refuses is not
written. -/
def ConversionFits (R : Rec) (L : Lib) (C : CoreFmt) (spec : FormatSpec) (arg : Value) (s : LuaState) : Prop :=
  match Char.ofNat spec.ty.toNat with
  | 's' => ShownFits R L spec arg s
  | 'q' => QuotedFits spec arg s
  | 'c' => CharFits spec arg
  | _ => NumberFits C spec arg

section
variable {R : Rec} {L : Lib} {C : CoreFmt} {spec : FormatSpec} {arg : Value} {s : LuaState}

theorem safe_ofExcept {cap : ℕ} {c : Prop} {x : Except Exc (List UInt8)} (h : BoundedWhen cap c x) :
    Pattern.Safe (R.exec (Pack.ofExcept x) s) ↔ c := by
  by_cases hc : c
  · obtain ⟨text, rfl, -⟩ := h.ok hc
    exact iff_of_true (Pattern.safe_ok text) hc
  · obtain ⟨f, rfl⟩ := h.faults hc
    exact iff_of_false (Pattern.not_safe_fault f) hc

/-- What comes behind a part that stops is not reached. -/
theorem safe_error {α β : Type} {e : Stop} {t : LuaState} :
    Pattern.Safe (.error e t : EStateM.Result Stop LuaState α) ↔
      Pattern.Safe (.error e t : EStateM.Result Stop LuaState β) := by
  constructor <;> intro h x t' hx <;> cases hx <;> exact h _ _ rfl

theorem intern_safe (b : List UInt8) : Pattern.Safe (R.exec (intern b) s) := by
  rw [exec_intern]
  cases s.toHeap.intern b with
  | error m => exact Pattern.safe_lua _
  | ok p => exact Pattern.safe_ok _

/-- The rendering of an argument ends when its metamethod does. -/
theorem valueToString_safe :
    Pattern.Safe (R.exec (valueToString L arg) s) ↔ Pattern.Safe (R.exec (tostringMM arg) s) := by
  rw [valueToString, exec_bind]
  cases htext : R.exec (tostringMM arg) s with
  | error e t =>
    rw [bind_error htext]
    exact safe_error
  | ok r t =>
    rw [Lua.bind_ok htext]
    refine iff_of_true ?_ (Pattern.safe_ok r)
    unfold internValue
    split
    · exact Pattern.safe_ok _
    · exact intern_safe _

theorem formatShown_safe : Pattern.Safe (R.exec (formatShown L spec arg) s) ↔ ShownFits R L spec arg s := by
  rw [ShownFits, ← valueToString_safe (L := L), formatShown, exec_bind]
  cases htext : R.exec (valueToString L arg) s with
  | error e t =>
    rw [bind_error htext]
    refine safe_error.trans (and_iff_left fun r t' hr => ?_).symm
    cases hr
  | ok r t =>
    have hcontent : contentLen none [] (shown spec (t.strBytes r)) = (shown spec (t.strBytes r)).length := by
      simp [contentLen]
    rw [Lua.bind_ok htext, exec_bind, exec_get, Lua.bind_ok (getMachine_apply t),
      safe_ofExcept (boundedWhen_layout none [] (shown spec (t.strBytes r)) spec false), hcontent,
      and_iff_right (Pattern.safe_ok r)]
    refine ⟨fun h r' t' hr => ?_, fun h => h r t rfl⟩
    cases hr
    exact h

theorem formatQuoted_safe : Pattern.Safe (R.exec (formatQuoted spec arg) s) ↔ QuotedFits spec arg s := by
  by_cases hstr : ∃ r, arg = .str r
  · obtain ⟨r, rfl⟩ := hstr
    rw [QuotedFits, formatQuoted, exec_bind, exec_get, Lua.bind_ok (getMachine_apply s)]
    simp only [Value.str.injEq, forall_eq']
    cases hquote : quoteString PIECE_CAP (s.strBytes r) with
    | error m =>
      exact iff_of_true (Pattern.safe_lua _) (by simp)
    | ok quoted =>
      have hlen : contentLen none [] quoted ≤ PIECE_CAP := by
        have := (quoteString_eq_ok hquote).2
        simpa [contentLen] using this
      have hsafe : Pattern.Safe (R.exec (Pack.ofExcept (applyLayout PIECE_CAP none [] quoted spec false)) s) ↔
          spec.width ≤ PIECE_CAP := safe_ofExcept (boundedWhen_width spec false hlen)
      exact hsafe.trans ⟨fun h _ => h, fun h => h ⟨quoted, rfl⟩⟩
  · refine iff_of_true ?_ fun r hr => absurd ⟨r, hr⟩ hstr
    unfold formatQuoted
    split
    · exact absurd ⟨_, rfl⟩ hstr
    · exact Pattern.safe_lua _

theorem formatChar_safe : Pattern.Safe (R.exec (formatChar spec arg) s) ↔ CharFits spec arg := by
  rw [formatChar, toIntegerForFormat, CharFits, exec_bind]
  cases hn : wholeOf arg with
  | none => exact iff_of_true (Pattern.safe_lua _) (by simp)
  | some n =>
    have hrun : R.exec (Pack.ofExcept (.ok n)) s = .ok n s := rfl
    simp only [Option.some.injEq, forall_eq']
    rw [Lua.bind_ok hrun, exec_ite]
    by_cases hrange : n < 0 ∨ n > 255
    · rw [if_pos hrange]
      refine iff_of_true (Pattern.safe_lua _) fun hlo hhi => ?_
      rcases hrange with h | h
      · exact absurd hlo (Int64.not_le.mpr h)
      · exact absurd hhi (Int64.not_le.mpr h)
    · have hone : contentLen none [] [n.toUInt64.toUInt8] ≤ PIECE_CAP := show 1 ≤ PIECE_CAP by decide
      obtain ⟨hlo, hhi⟩ := not_or.mp hrange
      rw [if_neg hrange, safe_ofExcept (boundedWhen_width spec false hone)]
      exact ⟨fun h _ _ => h, fun h => h (Int64.not_lt.mp hlo) (Int64.not_lt.mp hhi)⟩

/-- **When an integer conversion stays inside its buffers**: when its precision and its width do. -/
theorem formatInteger_bounded {base : ℕ} {unsigned : Bool} (hbase : 8 ≤ base ∧ base ≤ 16) {v : Value} {n : Int64}
    (hv : wholeOf v = some n) : BoundedWhen PIECE_CAP (spec.precision.getD 0 ≤ BODY_CAP ∧ spec.width ≤ PIECE_CAP)
      (formatInteger PIECE_CAP v spec base unsigned) := by
  obtain ⟨ds, -, -, hlo, hhi, -, hformat⟩ := @formatInteger_eq spec base unsigned v n hbase hv
  have hbody : BoundedWhen BODY_CAP (spec.precision.getD 0 ≤ BODY_CAP) (write BODY_CAP ds []) := by
    refine boundedWhen_write.congr ?_
    rw [List.length_nil, Nat.zero_add]
    exact ⟨fun h => hlo.trans h, fun h => hhi.trans (max_le h (by decide))⟩
  rw [hformat]
  refine hbody.bind fun body hlen => boundedWhen_width spec true ?_
  have hsign : (signByte spec (magnitude unsigned n).2).toList.length ≤ 1 := by
    cases signByte spec (magnitude unsigned n).2 <;> simp
  have hpre : (if spec.hash = true ∧ ¬ NoDigits spec n then hashPrefix spec.ty else []).length ≤ 2 := by
    have := length_hashPrefix spec.ty
    split_ifs
    · exact this
    · exact Nat.zero_le _
  have hcap : BODY_CAP + 3 ≤ PIECE_CAP := by decide
  rw [contentLen]
  omega

theorem formatNumber_safe : Pattern.Safe (R.exec (formatNumber C spec arg) s) ↔ NumberFits C spec arg := by
  unfold formatNumber NumberFits
  cases hbase : integerBase spec.ty with
  | some p =>
    obtain ⟨base, unsigned⟩ := p
    dsimp only
    cases hn : wholeOf arg with
    | none =>
      have hrefused : formatInteger PIECE_CAP arg spec base unsigned =
          .error (.lua (.msg "bad argument (number expected, got string)")) := by
        rw [formatInteger, toIntegerForFormat, hn]
        rfl
      rw [hrefused]
      exact iff_of_true (Pattern.safe_lua _) (by simp)
    | some n =>
      rw [safe_ofExcept (formatInteger_bounded (integerBase_bounds hbase) hn)]
      simp
  | none =>
    dsimp only
    rw [exec_ite]
    by_cases hty : IsFloatType spec.ty
    · rw [if_pos hty]
      cases hf : floatOf arg with
      | none =>
        refine iff_of_true ?_ (by simp)
        rw [formatFloat, hf]
        exact Pattern.safe_lua _
      | some f =>
        rw [safe_ofExcept (formatFloat_bounded hty hf)]
        simp [hty]
    · rw [if_neg hty]
      exact iff_of_true (Pattern.safe_lua _) fun h => absurd h hty

/-- **A conversion is safe exactly when it fits.** -/
theorem formatValue_safe :
    Pattern.Safe (R.exec (formatValue L C spec arg) s) ↔ ConversionFits R L C spec arg s := by
  unfold formatValue ConversionFits
  split
  · exact formatShown_safe
  · exact formatQuoted_safe
  · exact formatChar_safe
  · exact formatNumber_safe

end

/-! ### The call -/

/-- An error of the language, or a string of at most 1024 bytes: the reference is what `intern` gives for it. -/
inductive Bounded : EStateM.Result Stop LuaState ExecResult → Prop
  | error (e : LuaError) (t : LuaState) : Bounded (.error (.lua e) t)
  | returned {out : List UInt8} {r : StrRef} {t : LuaState} {h : Heap} (hlen : out.length ≤ PIECE_CAP)
      (hintern : t.toHeap.intern out = .ok (r, h)) : Bounded (.ok (.ret (.str r)) { t with toHeap := h })

/-- What the loop is about to do: the rest of the format, the arguments left, the output and the state. -/
abbrev Config := List UInt8 × List Value × List UInt8 × LuaState

/-- One directive of the loop: its piece is put behind the output. -/
inductive Next (R : Rec) (L : Lib) (C : CoreFmt) (bits : ℕ) : Config → Config → Prop
  | piece {b : UInt8} {rest out piece : List UInt8} {p : { p : Directive × List UInt8 // p.2.length ≤ rest.length }}
      {args args' : List Value} {s t : LuaState} (hread : nextDirective bits b rest = .ok p)
      (hpiece : R.exec (pieceOf L C p.1.1 args) s = .ok (piece, args') t)
      (hroom : out.length + piece.length ≤ PIECE_CAP) :
      Next R L C bits (b :: rest, args, out, s) (p.1.2, args', out ++ piece, t)

/-- The next conversion of the format fits. -/
def Fits (R : Rec) (L : Lib) (C : CoreFmt) (bits : ℕ) : Config → Prop
  | (b :: rest, arg :: _, _, s) =>
    ∀ p spec, nextDirective bits b rest = .ok p → p.1.1 = .conversion spec → ConversionFits R L C spec arg s
  | _ => True

section
variable {R : Rec} {L : Lib} {C : CoreFmt} {bits : ℕ} {b : UInt8} {rest out : List UInt8} {args : List Value}
  {s t : LuaState} {p : { p : Directive × List UInt8 // p.2.length ≤ rest.length }} {c : Config}

/-- A directive is safe when its conversion fits. -/
theorem pieceOf_safe (hread : nextDirective bits b rest = .ok p) :
    Pattern.Safe (R.exec (pieceOf L C p.1.1 args) s) ↔ Fits R L C bits (b :: rest, args, out, s) := by
  have hone : ∀ spec arg args, p.1.1 = .conversion spec →
      (Fits R L C bits (b :: rest, arg :: args, out, s) ↔ ConversionFits R L C spec arg s) := by
    intro spec arg args hspec
    constructor
    · exact fun h => h p spec hread hspec
    · intro h p' spec' hread' hspec'
      cases hread.symm.trans hread'
      cases hspec.symm.trans hspec'
      exact h
  cases hdirective : p.1.1 with
  | byte b' =>
    refine iff_of_true (Pattern.safe_ok _) ?_
    cases args with
    | nil => trivial
    | cons arg args =>
      intro p' spec hread' hspec
      cases hread.symm.trans hread'
      cases hdirective.symm.trans hspec
  | conversion spec =>
    cases args with
    | nil => exact iff_of_true (Pattern.safe_lua _) trivial
    | cons arg args =>
      rw [hone spec arg args hdirective, ← formatValue_safe, pieceOf, exec_bind]
      cases hvalue : R.exec (formatValue L C spec arg) s with
      | error e t =>
        rw [bind_error hvalue]
        exact safe_error
      | ok piece t =>
        rw [Lua.bind_ok hvalue]
        exact iff_of_true (Pattern.safe_ok _) (Pattern.safe_ok _)

theorem not_bounded_of_unsafe {α : Type} {e : Stop}
    (h : ¬ Pattern.Safe (.error e t : EStateM.Result Stop LuaState α)) : ¬ Bounded (.error e t) := by
  intro hb
  cases hb with
  | error e t => exact h (Pattern.safe_lua e)

theorem bounded_of_safe {α : Type} {e : Stop} (h : Pattern.Safe (.error e t : EStateM.Result Stop LuaState α)) :
    Bounded (.error e t) := by
  obtain ⟨m, rfl⟩ := h e t rfl
  exact .error m t

/-- Behind the loop nothing is written any more. -/
theorem finish_bounded (hout : out.length ≤ PIECE_CAP) : Bounded (R.exec (finish args out) s) := by
  rw [finish, exec_ite]
  split_ifs
  · rw [exec_bind]
    have hintern := exec_intern R s out
    cases hcase : s.toHeap.intern out with
    | error m =>
      rw [hcase] at hintern
      rw [bind_error hintern]
      exact .error _ _
    | ok q =>
      rw [hcase] at hintern
      rw [Lua.bind_ok hintern]
      exact .returned hout hcase
  · exact .error _ _

/-- The loop, and what is behind it. -/
def formatFrom (L : Lib) (C : CoreFmt) (bits : ℕ) (fmt : List UInt8) (args : List Value) (out : List UInt8) :
    LuaM ExecResult := do
  let (args, out) ← formatLoop L C bits fmt args out
  finish args out

theorem formatFrom_nil : R.exec (formatFrom L C bits [] args out) s = R.exec (finish args out) s := by
  rw [formatFrom, formatLoop]
  rfl

theorem formatFrom_malformed {m : String} (hread : nextDirective bits b rest = .error m) :
    R.exec (formatFrom L C bits (b :: rest) args out) s = .error (.lua (.msg m)) s := by
  rw [formatFrom, formatLoop, hread]
  rfl

theorem formatFrom_error {e : Stop} (hread : nextDirective bits b rest = .ok p)
    (hpiece : R.exec (pieceOf L C p.1.1 args) s = .error e t) :
    R.exec (formatFrom L C bits (b :: rest) args out) s = .error e t := by
  rw [formatFrom, formatLoop, hread]
  dsimp only
  rw [exec_bind, exec_bind, bind_error (bind_error hpiece _)]

theorem formatFrom_piece {piece : List UInt8} {args' : List Value} (hread : nextDirective bits b rest = .ok p)
    (hpiece : R.exec (pieceOf L C p.1.1 args) s = .ok (piece, args') t) :
    R.exec (formatFrom L C bits (b :: rest) args out) s =
      if out.length + piece.length > PIECE_CAP then .error (.lua (.msg "string.format result too long")) t
      else R.exec (formatFrom L C bits p.1.2 args' (out ++ piece)) t := by
  rw [formatFrom, formatLoop, hread]
  dsimp only
  rw [exec_bind, exec_bind, bind_assoc, Lua.bind_ok hpiece]
  dsimp only
  split_ifs
  · rfl
  · rw [formatFrom, exec_bind]

/-- **The loop is bounded as long as all it comes to fits.** -/
theorem formatFrom_bounded (R : Rec) (L : Lib) (C : CoreFmt) (bits : ℕ) (fmt : List UInt8) (args : List Value)
    (out : List UInt8) (s : LuaState) (hout : out.length ≤ PIECE_CAP) :
    Bounded (R.exec (formatFrom L C bits fmt args out) s) ↔
      Effect.AllReached (Next R L C bits) (Fits R L C bits) (fmt, args, out, s) := by
  induction hlen : fmt.length using Nat.strong_induction_on generalizing fmt args out s with
  | h k ih =>
    cases fmt with
    | nil =>
      have hlast : ∀ c, ¬ Next R L C bits ([], args, out, s) c := by
        rintro c ⟨⟩
      rw [formatFrom_nil, Effect.allReached_last hlast]
      exact iff_of_true (finish_bounded hout) trivial
    | cons b rest =>
      cases hread : nextDirective bits b rest with
      | error m =>
        have hlast : ∀ c, ¬ Next R L C bits (b :: rest, args, out, s) c := by
          rintro c ⟨h⟩
          cases hread.symm.trans h
        rw [formatFrom_malformed hread, Effect.allReached_last hlast]
        refine iff_of_true (.error _ _) ?_
        cases args with
        | nil => trivial
        | cons arg args =>
          intro p spec h
          cases hread.symm.trans h
      | ok p =>
        have hsafe := @pieceOf_safe R L C bits b rest out args s p hread
        cases hpiece : R.exec (pieceOf L C p.1.1 args) s with
        | error e t =>
          have hlast : ∀ c, ¬ Next R L C bits (b :: rest, args, out, s) c := by
            rintro c ⟨h, hp⟩
            cases hread.symm.trans h
            cases hpiece.symm.trans hp
          rw [hpiece] at hsafe
          rw [formatFrom_error hread hpiece, Effect.allReached_last hlast, ← hsafe]
          exact ⟨fun h => not_imp_not.mp not_bounded_of_unsafe h, bounded_of_safe⟩
        | ok q t =>
          obtain ⟨piece, args'⟩ := q
          rw [hpiece] at hsafe
          have hfits := hsafe.mp (Pattern.safe_ok _)
          rw [formatFrom_piece hread hpiece]
          by_cases hroom : out.length + piece.length > PIECE_CAP
          · have hlast : ∀ c, ¬ Next R L C bits (b :: rest, args, out, s) c := by
              rintro c ⟨h, hp, hle⟩
              cases hread.symm.trans h
              cases hpiece.symm.trans hp
              exact absurd hle (not_le.mpr hroom)
            rw [if_pos hroom, Effect.allReached_last hlast]
            exact iff_of_true (.error _ _) hfits
          · have hnext : ∀ c, Next R L C bits (b :: rest, args, out, s) c ↔ c = (p.1.2, args', out ++ piece, t) := by
              intro c
              constructor
              · rintro ⟨h, hp, -⟩
                cases hread.symm.trans h
                cases hpiece.symm.trans hp
                rfl
              · rintro rfl
                exact .piece hread hpiece (not_lt.mp hroom)
            have hshort : p.1.2.length < k := by
              have := p.2
              rw [← hlen, List.length_cons]
              omega
            have hout' : (out ++ piece).length ≤ PIECE_CAP := by
              rw [List.length_append]
              exact not_lt.mp hroom
            rw [if_neg hroom, Effect.allReached_next hnext, and_iff_right hfits]
            exact ih _ hshort p.1.2 args' (out ++ piece) t hout' rfl

end

/-- **When `string.format` is bounded**: exactly when every conversion that the call comes to fits. -/
theorem stringFormat_bounded_iff (R : Rec) (L : Lib) (C : CoreFmt) (bits : ℕ) (args : List Value) (s : LuaState) :
    Bounded (R.exec (stringFormat L C bits args) s) ↔
      ∀ r more, args = .str r :: more → (s.strBytes r).length ≤ FMT_CAP →
        ∀ c, Relation.ReflTransGen (Next R L C bits) (s.strBytes r, more, [], s) c → Fits R L C bits c := by
  by_cases hstr : ∃ r more, args = .str r :: more
  · obtain ⟨r, more, rfl⟩ := hstr
    have hcall : R.exec (stringFormat L C bits (.str r :: more)) s =
        if (s.strBytes r).length > FMT_CAP then .error (.lua (.msg "string.format format string too long")) s
        else R.exec (formatFrom L C bits (s.strBytes r) more []) s := by
      rw [stringFormat, exec_bind, exec_get, Lua.bind_ok (getMachine_apply s), exec_ite]
      split_ifs <;> rfl
    rw [hcall]
    by_cases hlong : (s.strBytes r).length > FMT_CAP
    · rw [if_pos hlong]
      refine iff_of_true (.error _ _) fun r' more' heq hle => ?_
      cases heq
      exact absurd hle (not_le.mpr hlong)
    · rw [if_neg hlong, formatFrom_bounded R L C bits (s.strBytes r) more [] s (Nat.zero_le _)]
      constructor
      · intro h r' more' heq hle
        cases heq
        exact h
      · exact fun h => h r more rfl (not_lt.mp hlong)
  · refine iff_of_true ?_ fun r more heq => absurd ⟨r, more, heq⟩ hstr
    unfold stringFormat
    split
    · exact .error _ _
    · exact absurd ⟨_, _, rfl⟩ hstr
    · exact .error _ _

/-- Formatting that writes all digits in one piece, and takes a precision of 16 bits. -/
def onePiece : CoreFmt where
  maxPrecision := 65535
  pieces ds := [ds]
  flatten_pieces _ := List.flatten_singleton

/-- A state with the format `%2000d` in the arena. -/
def holdsWide : LuaState := { strregs := [(0, bytesOf "%2000d")], strNext := 6 }

/-- A state with the format `%.100d`. -/
def holdsPrecise : LuaState := { strregs := [(0, bytesOf "%.100d")], strNext := 6 }

/-- A width beyond the piece, and a precision beyond the body: both are written past the end. -/
theorem format_overflows :
    Rec.stuck.exec (stringFormat bareLib onePiece 64 [.str (strref 0 6), .num 1]) holdsWide =
      .error (.fault .index) holdsWide ∧
    Rec.stuck.exec (stringFormat bareLib onePiece 64 [.str (strref 0 6), .num 1]) holdsPrecise =
      .error (.fault .index) holdsPrecise ∧
    ¬ Bounded (Rec.stuck.exec (stringFormat bareLib onePiece 64 [.str (strref 0 6), .num 1]) holdsWide) := by
  have hwide : nextDirective 64 37 [50, 48, 48, 48, 100] =
      .ok ⟨(.conversion { width := 2000, ty := 100 }, []), Nat.zero_le _⟩ := by rfl
  have hprecise : nextDirective 64 37 [46, 49, 48, 48, 100] =
      .ok ⟨(.conversion { precision := some 100, ty := 100 }, []), Nat.zero_le _⟩ := by rfl
  have hcall : ∀ {s : LuaState} {fmt : List UInt8}, s.strBytes (strref 0 6) = fmt → fmt.length ≤ FMT_CAP →
      Rec.stuck.exec (stringFormat bareLib onePiece 64 [.str (strref 0 6), .num 1]) s =
        Rec.stuck.exec (formatFrom bareLib onePiece 64 fmt [.num 1] []) s := by
    intro s fmt hfmt hlen
    rw [stringFormat, exec_bind, exec_get, Lua.bind_ok (getMachine_apply s), exec_ite, hfmt, if_neg (not_lt.mpr hlen)]
    rfl
  have hpiece : ∀ {spec : FormatSpec} {s : LuaState}, spec.ty = 100 →
      formatInteger PIECE_CAP (.num 1) spec 10 false = .error (.fault .index) →
      Rec.stuck.exec (pieceOf bareLib onePiece (.conversion spec) [.num 1]) s = .error (.fault .index) s := by
    intro spec s hty hfault
    have hvalue : formatValue bareLib onePiece spec (.num 1) =
        Pack.ofExcept (formatInteger PIECE_CAP (.num 1) spec 10 false) := by
      unfold formatValue formatNumber
      rw [hty]
      rfl
    rw [pieceOf, hvalue, hfault]
    rfl
  have hrun : Rec.stuck.exec (stringFormat bareLib onePiece 64 [.str (strref 0 6), .num 1]) holdsWide =
      .error (.fault .index) holdsWide := by
    rw [@hcall holdsWide (37 :: [50, 48, 48, 48, 100]) (by decide +kernel) (by decide)]
    exact formatFrom_error hwide (hpiece rfl (by decide +kernel))
  refine ⟨hrun, ?_, ?_⟩
  · rw [@hcall holdsPrecise (37 :: [46, 49, 48, 48, 100]) (by decide +kernel) (by decide)]
    exact formatFrom_error hprecise (hpiece rfl (by decide +kernel))
  · rw [hrun]
    exact not_bounded_of_unsafe (α := ExecResult) (Pattern.not_safe_fault .index)

end Format
end Lua
end Rustrapper
