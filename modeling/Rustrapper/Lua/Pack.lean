/-
# string.pack

The options of a format and what `string.pack` does with them. A format is read
option by option (`options`); an integer, float or string option takes the next
value and writes its bytes (`encode`) at the aligned position of a buffer of
`PACK_CAP` bytes, and nothing checks that the value is one the bytes can stand
for. `usize` has `bits` bits and its arithmetic wraps.
-/
import Rustrapper.Codec.Words
import Rustrapper.Lua.Call
import Rustrapper.Lua.Arena

namespace Rustrapper
namespace Lua
namespace Pack

open Codec

/-- The length of `out` in `string.pack` and of `src_buf` in `string.unpack`. -/
def PACK_CAP : ℕ := 4096

/-! ### Formats -/

/-- What an option that takes a value writes. -/
inductive Field where
  | int (size : ℕ) (signed : Bool)
  | single
  | double
  | chars (n : ℕ)
  | zstr
  | sized (size : ℕ)
deriving DecidableEq

/-- An option of a format. -/
inductive Opt where
  | endian (little : Bool)
  | maxAlign (n : ℕ)
  | space
  | pad
  | align (size : ℕ)
  | field (f : Field)
deriving DecidableEq

def isAsciiDigit (b : UInt8) : Bool := 48 ≤ b && b ≤ 57

/-- The digits that go on with the number `n`, and what is behind them. -/
def digits (bits : ℕ) : (bs : List UInt8) → ℕ → { p : ℕ × List UInt8 // p.2.length ≤ bs.length }
  | [], n => ⟨(n, []), le_rfl⟩
  | b :: bs, n =>
    if isAsciiDigit b then
      let p := digits bits bs ((n * 10 + (b.toNat - 48)) % 2 ^ bits)
      ⟨p.1, p.2.trans (Nat.le_succ _)⟩
    else ⟨(n, b :: bs), le_rfl⟩

/-- `parse_fmt_num`. -/
def parseFmtNum (bits : ℕ) (bs : List UInt8) :
    { p : Option ℕ × List UInt8 // p.2.length ≤ bs.length } :=
  if bs.head?.any isAsciiDigit then
    let p := digits bits bs 0
    ⟨(some p.1.1, p.1.2), p.2⟩
  else ⟨(none, bs), le_rfl⟩

/-- `fmt_option_size`. -/
def fmtOptionSize (op : UInt8) (n : Option ℕ) : ℕ :=
  match Char.ofNat op.toNat with
  | 'b' | 'B' => 1
  | 'h' | 'H' => 2
  | 'i' | 'I' => n.getD 4
  | 'l' | 'L' => 8
  | 'j' | 'J' => 8
  | 'T' => 8
  | 'f' => 4
  | 'd' => 8
  | 'n' => 8
  | 'c' => n.getD 0
  | 'x' => 1
  | _ => 0

/-- The option with the letter `op`, and the format behind it. -/
def readOption (bits : ℕ) (op : UInt8) (rest : List UInt8) :
    Except String { p : Opt × List UInt8 // p.2.length ≤ rest.length } :=
  let num := parseFmtNum bits rest
  match Char.ofNat op.toNat with
  | '<' | '=' => .ok ⟨(.endian true, rest), le_rfl⟩
  | '>' => .ok ⟨(.endian false, rest), le_rfl⟩
  | '!' =>
    let n := num.1.1.getD 0
    .ok ⟨(.maxAlign (if 0 < n then n else 16), num.1.2), num.2⟩
  | ' ' => .ok ⟨(.space, rest), le_rfl⟩
  | 'x' => .ok ⟨(.pad, rest), le_rfl⟩
  | 'X' =>
    match rest with
    | [] => .error "invalid format"
    | op :: rest =>
      let num := parseFmtNum bits rest
      .ok ⟨(.align (fmtOptionSize op num.1.1), num.1.2), num.2.trans (Nat.le_succ _)⟩
  | 'b' => .ok ⟨(.field (.int 1 true), rest), le_rfl⟩
  | 'B' => .ok ⟨(.field (.int 1 false), rest), le_rfl⟩
  | 'h' => .ok ⟨(.field (.int 2 true), rest), le_rfl⟩
  | 'H' => .ok ⟨(.field (.int 2 false), rest), le_rfl⟩
  | 'i' =>
    let n := num.1.1.getD 4
    if n < 1 ∨ n > 16 then .error "invalid format"
    else .ok ⟨(.field (.int n true), num.1.2), num.2⟩
  | 'I' =>
    let n := num.1.1.getD 4
    if n < 1 ∨ n > 16 then .error "invalid format"
    else .ok ⟨(.field (.int n false), num.1.2), num.2⟩
  | 'l' | 'j' => .ok ⟨(.field (.int 8 true), rest), le_rfl⟩
  | 'L' | 'J' | 'T' => .ok ⟨(.field (.int 8 false), rest), le_rfl⟩
  | 'f' => .ok ⟨(.field .single, rest), le_rfl⟩
  | 'd' | 'n' => .ok ⟨(.field .double, rest), le_rfl⟩
  | 'c' =>
    match num.1.1 with
    | none => .error "invalid format"
    | some n =>
      if n < 1 then .error "invalid format" else .ok ⟨(.field (.chars n), num.1.2), num.2⟩
  | 'z' => .ok ⟨(.field .zstr, rest), le_rfl⟩
  | 's' =>
    let n := num.1.1.getD 0
    let sz := if n = 0 then 8 else n
    if sz < 1 ∨ sz > 16 then .error "invalid format"
    else .ok ⟨(.field (.sized sz), num.1.2), num.2⟩
  | _ => .error "invalid format"

/-- The options of a format, up to the first that is malformed. -/
def options (bits : ℕ) : List UInt8 → List (Except String Opt)
  | [] => []
  | op :: rest =>
    match readOption bits op rest with
    | .error m => [.error m]
    | .ok p => .ok p.1.1 :: options bits p.1.2
termination_by fmt => fmt.length
decreasing_by
  have := p.2
  rw [List.length_cons]
  omega

/-- `align_pos`. -/
def alignPos (bits pos size alignMax : ℕ) : ℕ :=
  let a := min size alignMax
  if a ≤ 1 then pos
  else
    let mask := a - 1
    if pos &&& mask = 0 then pos
    else (BitVec.ofNat bits (pos + mask) &&& ~~~ BitVec.ofNat bits mask).toNat

/-- What the position is aligned to in front of the bytes. -/
def Field.alignment : Field → ℕ
  | .int size _ => size
  | .single => 4
  | .double => 8
  | .chars _ => 0
  | .zstr => 0
  | .sized size => size

/-! ### Packing -/

/-- A static message. -/
def msg (m : String) : Exc := .lua (.msg m)

/-- `?` on the result of a function of the interpreter. -/
def ofExcept {α : Type} : Except Exc α → LuaM α
  | .ok a => pure a
  | .error e => .throw e

/-- The bytes in the order of the format. -/
def ordered (little : Bool) (bs : List UInt8) : List UInt8 := if little then bs else bs.reverse

/-- What `write_int` writes: the low bytes of the value, zeros behind the eighth. -/
def intBytes (little : Bool) (size : ℕ) (val : Int64) : List UInt8 :=
  ordered little (toLE size val.toUInt64.toNat)

/-- The first `n` bytes, and zeros if there are fewer. -/
def padded (n : ℕ) (bs : List UInt8) : List UInt8 := bs.take n ++ List.replicate (n - bs.length) 0

/-- What a field writes for a value, write by write. -/
def encode (h : Heap) (little : Bool) (f : Field) (v : Value) : Except Exc (List (List UInt8)) :=
  match f with
  | .int size _ =>
    match wholeOf v with
    | some n => .ok [intBytes little size n]
    | none => .error (msg "bad argument (number expected, got string)")
  | .single =>
    match floatOf v with
    | some x => .ok [ordered little (toLE 4 x.toFloat32.toBits.toNat)]
    | none => .error (msg "number expected")
  | .double =>
    match floatOf v with
    | some x => .ok [ordered little (toLE 8 x.toBits.toNat)]
    | none => .error (msg "number expected")
  | .chars n =>
    match v with
    | .str r => .ok [padded n (h.strBytes r)]
    | _ => .error (msg "string expected")
  | .zstr =>
    match v with
    | .str r => .ok [h.strBytes r ++ [0]]
    | _ => .error (msg "string expected")
  | .sized size =>
    match v with
    | .str r =>
      .ok [intBytes little size (Int64.ofNat (h.strBytes r).length), h.strBytes r]
    | _ => .error (msg "string expected")

/-- Write bytes at a position, `if pos + bytes.len() > out.len()` being the check. -/
def put (bits : ℕ) (bs : List UInt8) (at_ : List UInt8 × ℕ) : Except Exc (List UInt8 × ℕ) :=
  if (at_.2 + bs.length) % 2 ^ bits > at_.1.length then .error (msg "result too long")
  else if at_.2 + bs.length > at_.1.length then .error (.fault .index)
  else .ok (writeAt at_.1 at_.2 bs, at_.2 + bs.length)

/-- One write after the other. -/
def putAll (bits : ℕ) : List (List UInt8) → List UInt8 × ℕ → Except Exc (List UInt8 × ℕ)
  | [], at_ => .ok at_
  | bs :: rest, at_ => do
    let at_ ← put bits bs at_
    putAll bits rest at_

/-- The variables of the loop of `string.pack`; `vals` are the values not taken yet. -/
structure Packing where
  out : List UInt8
  pos : ℕ
  little : Bool
  alignMax : ℕ
  vals : List Value

/-- One option. -/
def packStep (bits : ℕ) (h : Heap) (o : Opt) (p : Packing) : Except Exc Packing :=
  match o with
  | .endian little => .ok { p with little }
  | .maxAlign n => .ok { p with alignMax := n }
  | .space => .ok p
  | .pad =>
    if p.pos ≥ p.out.length then .error (msg "string.pack result too long")
    else .ok { p with out := writeAt p.out p.pos [0], pos := p.pos + 1 }
  | .align size => .ok { p with pos := alignPos bits p.pos size p.alignMax }
  | .field f =>
    match p.vals with
    | [] => .error (msg "wrong number of arguments to string.pack")
    | v :: vals => do
      let chunks ← encode h p.little f v
      let (out, pos) ← putAll bits chunks (p.out, alignPos bits p.pos f.alignment p.alignMax)
      .ok { p with out, pos, vals }

/-- The loop of `string.pack`. -/
def packLoop (bits : ℕ) (h : Heap) : List (Except String Opt) → Packing → Except Exc Packing
  | [], p => .ok p
  | .error m :: _, _ => .error (msg m)
  | .ok o :: os, p => do
    let p ← packStep bits h o p
    packLoop bits h os p

/-- `string.pack`. -/
def stringPack (bits : ℕ) (args : List Value) : LuaM ExecResult := do
  match args with
  | [] => err "string.pack expects at least 1 argument"
  | .str f :: vals =>
    let s ← get
    let fmt := s.strBytes f
    if fmt.length > STR_CAP then err "format string too long"
    else
      let p ← ofExcept (packLoop bits s.toHeap (options bits fmt)
        ⟨List.replicate PACK_CAP 0, 0, true, 1, vals⟩)
      if p.pos > PACK_CAP then fault .index
      else
        let newstr ← intern (p.out.take p.pos)
        pure (.ret (.str newstr))
  | _ => err "string.pack expects a string format"

end Pack
end Lua
end Rustrapper
