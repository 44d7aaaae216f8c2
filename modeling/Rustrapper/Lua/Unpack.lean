/-
# string.unpack

`string.unpack` reads the options of a format as `string.pack` does and takes
for each field its bytes from the string (`decode`).
-/
import Rustrapper.Lua.Pack
import Rustrapper.Lua.Steps

namespace Rustrapper
namespace Lua
namespace Pack

open Codec

/-- A value that was read. -/
inductive Item where
  | int (n : Int64)
  | float (x : Float)
  | str (b : List UInt8)

/-- The `n` bytes from a position on, `if pos + n > src_str.len()` being the check. -/
def span (bits : ℕ) (src : List UInt8) (pos n : ℕ) : Except Exc (List UInt8) :=
  if (pos + n) % 2 ^ bits > src.length then .error (msg "string.unpack: out of string")
  else if pos + n > src.length then .error (.fault .index)
  else .ok (slice src pos n)

/-- `read_int`. -/
def readInt (little signed : Bool) (bs : List UInt8) : Int64 :=
  .ofNat (readWord signed (ordered little bs))

/-- What a field reads, and the position behind it. -/
def decode (bits : ℕ) (src : List UInt8) (little : Bool) (f : Field) (pos : ℕ) :
    Except Exc (Item × ℕ) :=
  match f with
  | .int size signed => do
    let bs ← span bits src pos size
    .ok (.int (readInt little signed bs), pos + size)
  | .single => do
    let bs ← span bits src pos 4
    .ok (.float (Float32.ofBits (.ofNat (ofLE (ordered little bs)))).toFloat, pos + 4)
  | .double => do
    let bs ← span bits src pos 8
    .ok (.float (Float.ofBits (.ofNat (ofLE (ordered little bs)))), pos + 8)
  | .chars n => do
    let bs ← span bits src pos n
    .ok (.str bs, pos + n)
  | .zstr =>
    if pos > src.length then .error (.fault .index)
    else
      let bs := (src.drop pos).takeWhile (· ≠ 0)
      let stop := pos + bs.length
      .ok (.str bs, if stop < src.length then stop + 1 else stop)
  | .sized size => do
    let bs ← span bits src pos size
    let len := orBytes (ordered little bs) 0 % 2 ^ bits
    let val ← span bits src (pos + size) len
    .ok (.str val, pos + size + len)

/-- The variables of the loop of `string.unpack`. -/
structure Unpacking where
  pos : ℕ
  little : Bool
  alignMax : ℕ

/-- One option, and the value it reads. -/
def unpackStep (bits : ℕ) (src : List UInt8) (o : Opt) (u : Unpacking) :
    Except Exc (Option Item × Unpacking) :=
  match o with
  | .endian little => .ok (none, { u with little })
  | .maxAlign n => .ok (none, { u with alignMax := n })
  | .space => .ok (none, u)
  | .pad =>
    if u.pos ≥ src.length then .error (msg "string.unpack: out of string")
    else .ok (none, { u with pos := u.pos + 1 })
  | .align size => .ok (none, { u with pos := alignPos bits u.pos size u.alignMax })
  | .field f => do
    let (item, pos) ← decode bits src u.little f (alignPos bits u.pos f.alignment u.alignMax)
    .ok (some item, { u with pos })

/-- Push a value that was read; a string is interned first. -/
def emit : Item → LuaM Unit
  | .int n => pushVal (.num n)
  | .float x => pushVal (.float x)
  | .str b => do
    let v ← intern b
    pushVal (.str v)

/-- The loop of `string.unpack`: the position behind the last option, and `nres`. -/
def unpackLoop (bits : ℕ) (src : List UInt8) :
    List (Except String Opt) → Unpacking → ℕ → LuaM (ℕ × ℕ)
  | [], u, nres => pure (u.pos, nres)
  | .error m :: _, _, _ => err m
  | .ok o :: os, u, nres => do
    let (item, u) ← ofExcept (unpackStep bits src o u)
    match item with
    | none => unpackLoop bits src os u nres
    | some item => do
      emit item
      unpackLoop bits src os u (nres + 1)

/-- The start position of `string.unpack`: the third argument, counted from 1. -/
def startPos (bits : ℕ) : List Value → LuaM ℕ
  | [] => pure 0
  | v :: _ =>
    match wholeOf v with
    | some n => pure ((n - 1).toUInt64.toNat % 2 ^ bits)
    | none => err "bad argument (number expected, got string)"

/-- `string.unpack`, its arguments checked: the loop, and the next position behind the values. -/
def unpackAt (bits : ℕ) (fmt src : List UInt8) (pos : ℕ) : LuaM ExecResult :=
  if pos > src.length then err "initial position out of string"
  else if fmt.length > STR_CAP then err "format string too long"
  else do
    let (pos, nres) ← unpackLoop bits src (options bits fmt) ⟨pos, true, 1⟩ 0
    pushVal (.num (.ofNat ((pos + 1) % 2 ^ bits)))
    if nres + 1 = 2 then do
      let b ← pop
      let a ← pop
      pure (.ret2 a b)
    else pure (.retN (nres + 1))

/-- `string.unpack`. -/
def stringUnpack (bits : ℕ) (args : List Value) : LuaM ExecResult :=
  if args.length < 2 ∨ args.length > 3 then err "string.unpack expects 2 or 3 arguments"
  else
    match args with
    | .str f :: .str r :: more => do
      let s ← get
      if (s.strBytes r).length > PACK_CAP then err "string too long"
      else do
        let pos ← startPos bits more
        unpackAt bits (s.strBytes f) (s.strBytes r) pos
    | .str _ :: _ => err "string.unpack expects a string"
    | _ => err "string.unpack expects a string format"

end Pack
end Lua
end Rustrapper
