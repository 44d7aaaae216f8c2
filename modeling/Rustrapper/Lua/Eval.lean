/-
# Tables, operators and rendering

The part of `eval.rs` that runs no script code: raw table access, the
arithmetic of `binop` on numbers, the decimal rendering of integers, and `Prog`,
the programs the library functions are written in.

A library function sees its arguments and the heap, may call a value back and
ends with results or an error; it has no access to frames, threads or
coroutines. `Lib` collects the library functions this development leaves open
(string, table, math, io, os, `fetch`, `tonumber`, the host's loader and the
rendering of doubles): what is proved with a `Lib` holds whatever they do.
-/
import Rustrapper.Lua.State

namespace Rustrapper
namespace Lua

/-! ### Library programs -/

/-- What a library function can do; `callValue` answers with the results of the
call or its error. -/
inductive LibOp : Type → Type where
  | getHeap : LibOp Heap
  | setHeap (h : Heap) : LibOp Unit
  | getChunks : LibOp Chunks
  | callValue (f : Value) (args : List Value) : LibOp (Except LuaError (List Value))

/-- How a library function stops without a result. -/
inductive LibStop where
  | fail (e : LuaError)
  | abort

/-- A program of the interpreter's library. -/
abbrev Prog := Effect.Cmd LibOp LibStop LuaError

/-- How a library function ends. -/
inductive NativeRet where
  | normal
  | ret (v : Value)
  | ret2 (a b : Value)
  | retN (vs : List Value)
  | shell
  | exit
deriving DecidableEq, Inhabited

/-- The library functions left open. `load` gives the chunk's bytes, `ioLine` a
line of a file handle, at most `cap` bytes, `dhcpInfo` prints the lease. -/
structure Lib where
  native : ℕ → List Value → Prog NativeRet
  gmatchAdvance : ℕ → Prog (List Value)
  ioLine : (id cap : ℕ) → Prog (Option (List UInt8))
  dhcp : Prog Bool
  dhcpInfo : Prog Unit
  load : List UInt8 → Prog (Option (List UInt8))
  fmtFloat : Float → List UInt8

/-! ### Raw tables -/

/-- The value at a key in a slot list. -/
def slotGet (slots : List (Value × Value)) (k : Value) : Value :=
  ((slots.find? fun p => valEq p.1 k).map (·.2)).getD .nil

/-- `raw_has` on a slot list. -/
def slotHas (slots : List (Value × Value)) (k : Value) : Bool := slots.any fun p => valEq p.1 k

/-- Remove the first slot with the key. -/
def slotErase (k : Value) : List (Value × Value) → List (Value × Value)
  | [] => []
  | p :: ps => if valEq p.1 k then ps else p :: slotErase k ps

/-- `raw_set` on a slot list: update, remove on `nil`, or append. -/
def slotSet (slots : List (Value × Value)) (k v : Value) : Except String (List (Value × Value)) :=
  if k = .nil then .error "table index is nil"
  else if (match k with | .float f => f.isNaN | _ => false) then .error "table index is NaN"
  else if slotHas slots k then
    .ok (if v = .nil then slotErase k slots
      else updateFirst (fun p => valEq p.1 k) (fun p => (p.1, v)) slots)
  else if v = .nil then .ok slots
  else if slots.length ≥ TABLE_SLOTS then .error "table full"
  else .ok (slots ++ [(k, v)])

/-- A table of the state. -/
def tableRec (tid : ℕ) : LuaM TableRec := do orFault .index (← get).tbls[tid]?

/-- `raw_get`. -/
def rawGet (tid : ℕ) (k : Value) : LuaM Value := do pure (slotGet (← tableRec tid).slots k)

/-- `raw_set`. -/
def rawSet (tid : ℕ) (k v : Value) : LuaM Unit := do
  let t ← tableRec tid
  match slotSet t.slots k v with
  | .error m => err m
  | .ok slots => modify fun s => { s with tbls := s.tbls.set tid { t with slots := slots } }

/-- `new_table`. -/
def newTable : LuaM ℕ := do
  let s ← get
  if s.tbls.length ≥ MAX_TABLES then err "too many tables"
  else do set { s with tbls := s.tbls ++ [TableRec.mk [] none] }; pure s.tbls.length

/-! ### Metamethod names -/

/-- The metamethods, in the order of `MM_NAMES`. -/
inductive MM where
  | index | newindex | eq | lt | le | concat | add | sub | mul | div | mod | unm
  | call | tostring | pairs
deriving DecidableEq, Inhabited

def MM.toNat : MM → ℕ
  | .index => 0 | .newindex => 1 | .eq => 2 | .lt => 3 | .le => 4 | .concat => 5
  | .add => 6 | .sub => 7 | .mul => 8 | .div => 9 | .mod => 10 | .unm => 11
  | .call => 12 | .tostring => 13 | .pairs => 14

def MM_NAMES : List String :=
  ["__index", "__newindex", "__eq", "__lt", "__le", "__concat", "__add", "__sub", "__mul",
   "__div", "__mod", "__unm", "__call", "__tostring", "__pairs"]

def MAX_MM_DEPTH : ℕ := 100

/-- Intern texts in order. -/
def internAll : List String → LuaM (List StrRef)
  | [] => pure []
  | m :: ms => do
    let r ← intern (bytesOf m)
    pure (r :: (← internAll ms))

/-- `mm_name`: the interned name, all of them interned at the first use. -/
def mmName (i : MM) : LuaM StrRef := do
  if (← get).mmReady then pure ((← get).mmRefs.getD i.toNat 0)
  else do
    let refs ← internAll MM_NAMES
    modify fun s => { s with mmRefs := refs, mmReady := true }
    pure (refs.getD i.toNat 0)

/-- `mt_lookup`. -/
def mtLookup (tid : ℕ) (i : MM) : LuaM Value := do
  match (← tableRec tid).mt with
  | none => pure .nil
  | some mt => do
    let name ← mmName i
    rawGet mt (.str name)

/-- `mm_of`: only tables have metatables. -/
def mmOf (v : Value) (i : MM) : LuaM Value :=
  match v with
  | .table tid => mtLookup tid i
  | _ => pure .nil

/-- `enter_mm`. -/
def enterMM : LuaM Unit := do
  let s ← get
  if s.mmDepth ≥ MAX_MM_DEPTH then err "metamethod chain too long (possible loop)"
  else set { s with mmDepth := s.mmDepth + 1 }

/-- `leave_mm`. -/
def leaveMM : LuaM Unit := modify fun s => { s with mmDepth := s.mmDepth - 1 }

/-- `binop_mm`: the first operand's metamethod, else the second's. -/
def binopMM (a b : Value) (i : MM) : LuaM (Option Value) := do
  let h ← mmOf a i
  if h ≠ .nil then pure (some h)
  else do
    let h ← mmOf b i
    if h ≠ .nil then pure (some h) else pure none

/-! ### Numbers -/

/-- `x as i64`: towards zero, saturating, 0 for NaN. -/
def i64OfF64 (x : Float) : Int64 :=
  if x.isNaN then 0
  else if x ≥ 9223372036854775808.0 then Int64.maxValue
  else if x ≤ -9223372036854775808.0 then Int64.minValue
  else if x ≥ 0.0 then Int64.ofNat x.toUInt64.toNat
  else -(Int64.ofNat (-x).toUInt64.toNat)

/-- `float_floor`. -/
def floatFloor (x : Float) : Float :=
  let tf := f64OfI64 (i64OfF64 x)
  if tf > x then tf - 1.0 else tf

/-- The arithmetic operators. -/
def Op.isArith : Op → Bool
  | .add | .sub | .mul | .div | .mod => true
  | _ => false

/-- Integer arithmetic: wrapping, `/` truncates, `%` is the euclidean
remainder. `None` of the outer option is the overflow of `i64::MIN / -1` and
`i64::MIN % -1`, where Rust aborts. -/
def intArith (op : Op) (x y : Int64) : Option (Except String Int64) :=
  match op with
  | .add => some (.ok (x + y))
  | .sub => some (.ok (x - y))
  | .mul => some (.ok (x * y))
  | .div =>
    if y = 0 then some (.error "division by zero")
    else if x = Int64.minValue ∧ y = -1 then none
    else some (.ok (x / y))
  | .mod =>
    if y = 0 then some (.error "division by zero")
    else if x = Int64.minValue ∧ y = -1 then none
    else some (.ok (Int64.ofInt (x.toInt.emod y.toInt)))
  | _ => some (.ok 0)

/-- Floating-point arithmetic; `%` is `a - floor(a / b) * b`. -/
def floatArith (op : Op) (x y : Float) : Float :=
  match op with
  | .add => x + y
  | .sub => x - y
  | .mul => x * y
  | .div => x / y
  | .mod => x - floatFloor (x / y) * y
  | _ => 0.0

/-- The metamethod of an arithmetic operator. -/
def Op.mm : Op → MM
  | .add => .add
  | .sub => .sub
  | .mul => .mul
  | .div => .div
  | _ => .mod

/-- `<` and `<=` on two numbers, when both are. -/
def numLess (strict : Bool) (a b : Value) : Option Bool :=
  match a, b with
  | .num x, .num y => some (if strict then x < y else x ≤ y)
  | a, b =>
    match floatOf a, floatOf b with
    | some x, some y => some (if strict then x < y else x ≤ y)
    | _, _ => none

/-- The decimal digits of a number. -/
def natDigits (n : ℕ) : List UInt8 := (Nat.toDigits 10 n).map fun c => c.toNat.toUInt8

/-- `itoa`. -/
def itoa (n : Int64) : List UInt8 :=
  if n < 0 then 45 :: natDigits n.toInt.natAbs else natDigits n.toInt.natAbs

/-! ### Rendering -/

/-- `type_name`. -/
def typeName : Value → String
  | .nil => "nil"
  | .bool _ => "boolean"
  | .num _ | .float _ => "number"
  | .str _ => "string"
  | .table _ => "table"
  | .co _ => "thread"
  | _ => "function"

/-- The text of a value that is no string, as `tostring` emits it. -/
def renderPlain (L : Lib) : Value → List UInt8
  | .nil => bytesOf "nil"
  | .bool true => bytesOf "true"
  | .bool false => bytesOf "false"
  | .num n => itoa n
  | .float f => L.fmtFloat f
  | .str _ => []
  | .table _ => bytesOf "table"
  | .native _ => bytesOf "native"
  | .shell => bytesOf "shell"
  | .dhcp => bytesOf "dhcp"
  | .exit => bytesOf "exit"
  | .ls => bytesOf "ls"
  | .co _ => bytesOf "thread"
  | .func _ | .closure _ | .wrapped _ | .gmatch _ | .ioLines _ => bytesOf "function"

/-- The bytes of a value without metamethods. -/
def render (L : Lib) (h : Heap) : Value → List UInt8
  | .str r => h.strBytes r
  | v => renderPlain L v

/-- The part of a name before its last `/`, and the part behind it. -/
def splitPath (name : List UInt8) : List UInt8 × List UInt8 :=
  let base := (name.reverse.takeWhile (· ≠ 47)).reverse
  if base.length = name.length then ([47], name)
  else
    let parent := name.take (name.length - base.length - 1)
    (if parent.isEmpty then [47] else parent, base)

/-- One line of `ls`. -/
def lsLine (name : List UInt8) (len : UInt64) : List UInt8 :=
  let base := (splitPath name).2
  (if base.isEmpty then name else base) ++ bytesOf " (" ++ itoa (Int64.ofUInt64 len)
    ++ bytesOf " bytes)\n"

/-- `ls_run`: the fetched files of the current directory. -/
def lsRun : LuaM Unit := do
  let s ← get
  if s.cwd ≠ [47] then emitBytes (bytesOf ".. (0 bytes)\n")
  emitBytes (s.fetched.flatMap fun (r, len) =>
    if (splitPath (s.strBytes r)).1 = s.cwd then lsLine (s.strBytes r) len else [])

end Lua
end Rustrapper
