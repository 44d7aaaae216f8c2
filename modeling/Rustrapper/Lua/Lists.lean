/-
# The list functions of the table library

`table.insert`, `table.remove`, `table.sort`, `table.pack`, `table.unpack` and
`table.concat` as programs of the interpreter. They take the live slots for
the list: a position is a place among the slots, whatever key stands there,
and the slots behind a place get new keys.

`usize` has `bits` bits; `n as usize` keeps the low ones.
-/
import Rustrapper.Lua.Call

namespace Rustrapper
namespace Lua

/-! ### Arguments and slots -/

/-- `n as usize`. -/
def asUsize (bits : ℕ) (n : Int64) : ℕ := (n.toInt % 2 ^ bits).toNat

/-- `to_integer_for_format`. -/
def toIntegerForFormat (v : Value) : LuaM Int64 :=
  match wholeOf v with
  | some n => pure n
  | none => err "bad argument (number expected, got string)"

/-- The table a value is. -/
def asTable (m : String) : Value → LuaM ℕ
  | .table tid => pure tid
  | _ => err m

/-- Write the slots of a table. -/
def setSlots (tid : ℕ) (t : TableRec) (slots : List (Value × Value)) : LuaM Unit :=
  modify fun s => { s with tbls := s.tbls.set tid { t with slots := slots } }

/-- Values under the keys `i + 1`, `i + 2`, ... -/
def numberSlots : ℕ → List Value → List (Value × Value)
  | _, [] => []
  | i, v :: vs => (.num (Int64.ofNat (i + 1)), v) :: numberSlots (i + 1) vs

/-! ### Insertion and removal -/

/-- The slots with `v` at place `i`; it and those behind it get new keys. -/
def insertSlots (slots : List (Value × Value)) (i : ℕ) (v : Value) : List (Value × Value) :=
  slots.take i ++ numberSlots i (v :: (slots.drop i).map Prod.snd)

/-- The slots without the one at place `i`; those behind it get new keys. -/
def removeSlots (slots : List (Value × Value)) (i : ℕ) : List (Value × Value) :=
  slots.take i ++ numberSlots i ((slots.drop (i + 1)).map Prod.snd)

/-- The body of `table.insert`. -/
def insertPos (bits tid : ℕ) (pos : Int64) (v : Value) : LuaM ExecResult := do
  let t ← tableRec tid
  if pos.toInt < 1 ∨ asUsize bits pos > t.slots.length + 1 then err "wrong position for insert"
  else if t.slots.length ≥ TABLE_SLOTS then err "table full"
  else if asUsize bits pos = 0 then fault .index
  else do
    setSlots tid t (insertSlots t.slots (asUsize bits pos - 1) v)
    pure .normal

/-- `table.insert(list, [pos,] value)`. -/
def tableInsert (bits : ℕ) : List Value → LuaM ExecResult
  | [list, v] => do
    let tid ← asTable "table.insert expects a table" list
    let t ← tableRec tid
    insertPos bits tid (Int64.ofNat (t.slots.length + 1)) v
  | [list, pos, v] => do
    let tid ← asTable "table.insert expects a table" list
    insertPos bits tid (← toIntegerForFormat pos) v
  | _ => err "table.insert expects 2 or 3 arguments"

/-- The body of `table.remove`. -/
def removePos (tid pos : ℕ) : LuaM ExecResult := do
  let t ← tableRec tid
  if pos < 1 ∨ pos > t.slots.length then err "position out of bounds"
  else do
    setSlots tid t (removeSlots t.slots (pos - 1))
    pure (.ret ((t.slots[pos - 1]?.map Prod.snd).getD .nil))

/-- `table.remove(list [, pos])`. -/
def tableRemove (bits : ℕ) : List Value → LuaM ExecResult
  | [list] => do
    let tid ← asTable "table.remove expects a table" list
    let len := (← tableRec tid).slots.length
    if len = 0 then pure (.ret .nil) else removePos tid len
  | [list, pos] => do
    let tid ← asTable "table.remove expects a table" list
    if (← tableRec tid).slots.length = 0 then pure (.ret .nil)
    else removePos tid (asUsize bits (← toIntegerForFormat pos))
  | _ => err "table.remove expects 1 or 2 arguments"

/-! ### Sorting -/

/-- The rank of a value's type in `default_less`. -/
def rank : Value → ℕ
  | .nil => 0
  | .bool _ => 1
  | .num _ | .float _ => 2
  | .str _ => 3
  | .table _ => 4
  | .co _ => 6
  | _ => 5

/-- `default_less`. -/
def defaultLess (h : Heap) (a b : Value) : Bool :=
  if rank a ≠ rank b then rank a < rank b
  else
    match a, b with
    | .bool x, .bool y => !x && y
    | .num x, .num y => x < y
    | .num x, .float y => f64OfI64 x < y
    | .float x, .num y => x < f64OfI64 y
    | .float x, .float y => x < y
    | .str x, .str y => h.strBytes x < h.strBytes y
    | _, _ => false

/-- The first value of a comparator's result. -/
def firstResult (base : ℕ) : ExecResult → LuaM Value
  | .ret v => pure v
  | .ret2 v _ => pure v
  | .retN n => if n > 0 then vstackAt base else pure .nil
  | _ => pure .nil

/-- A comparison of `table.sort`. -/
def sortLess (comp : Option Value) (a b : Value) : LuaM Bool := do
  match comp with
  | some c => do
    let base := (← get).vsp
    enterMM
    pushVal a
    pushVal b
    let r ← attempt (callValue c 2)
    leaveMM
    let r ← rethrow r
    let res ← firstResult base r
    setVsp base
    pure (truthy res)
  | none => do pure (defaultLess (← get).toHeap a b)

/-- The value of a slot. -/
def slotValue (tid i : ℕ) : LuaM Value := do
  let t ← tableRec tid
  pure ((t.slots[i]?.map Prod.snd).getD .nil)

/-- Write the value of a slot. -/
def setSlotValue (tid i : ℕ) (v : Value) : LuaM Unit := do
  let t ← tableRec tid
  setSlots tid t (t.slots.modify i fun p => (p.1, v))

/-- The inner loop of `table.sort`: the place where `x`, which stands at `j`,
goes. -/
def sortShift (comp : Option Value) (tid : ℕ) (x : Value) : ℕ → LuaM ℕ
  | 0 => pure 0
  | j + 1 => do
    let y ← slotValue tid j
    if ← sortLess comp x y then do
      setSlotValue tid (j + 1) (← slotValue tid j)
      sortShift comp tid x j
    else pure (j + 1)

/-- The outer loop of `table.sort`: `n` more elements, from place `i` on. -/
def sortLoop (comp : Option Value) (tid : ℕ) : ℕ → ℕ → LuaM Unit
  | 0, _ => pure ()
  | n + 1, i => do
    let x ← slotValue tid i
    let j ← sortShift comp tid x i
    setSlotValue tid j x
    sortLoop comp tid n (i + 1)

/-- The first `n` slots get the keys `1 .. n`. -/
def rekeySlots (n : ℕ) (slots : List (Value × Value)) : List (Value × Value) :=
  numberSlots 0 ((slots.take n).map Prod.snd) ++ slots.drop n

/-- The body of `table.sort`. -/
def sortTable (comp : Option Value) (tid : ℕ) : LuaM ExecResult := do
  let len := (← tableRec tid).slots.length
  sortLoop comp tid (len - 1) 1
  let t ← tableRec tid
  setSlots tid t (rekeySlots len t.slots)
  pure .normal

/-- `table.sort(list [, comp])`. -/
def tableSort : List Value → LuaM ExecResult
  | [list] => do sortTable none (← asTable "table.sort expects a table" list)
  | [list, comp] => do sortTable (some comp) (← asTable "table.sort expects a table" list)
  | _ => err "table.sort expects 1 or 2 arguments"

/-! ### Whole lists -/

/-- Clamp a range to `1 .. len`. -/
def clampRange (i j : Int64) (len : ℕ) : ℤ × ℤ := (max i.toInt 1, min j.toInt len)

/-- The keys of a range, which starts at 1 or behind it. -/
def rangeKeys (r : ℤ × ℤ) : List Value :=
  (List.range' r.1.toNat (r.2 + 1 - r.1).toNat).map fun k => .num (Int64.ofNat k)

/-- An argument that may be left out. -/
def optInteger (v : Option Value) (dflt : Int64) : LuaM Int64 :=
  match v with
  | some v => toIntegerForFormat v
  | none => pure dflt

/-- Push the values of the keys. -/
def pushKeys (tid : ℕ) : List Value → LuaM Unit
  | [] => pure ()
  | k :: ks => do
    pushVal (← rawGet tid k)
    pushKeys tid ks

/-- `table.unpack(list [, i [, j]])`. -/
def tableUnpack (args : List Value) : LuaM ExecResult := do
  if args.length < 1 ∨ args.length > 3 then err "table.unpack expects 1 to 3 arguments"
  let tid ← asTable "table.unpack expects a table" (args.headD .nil)
  let len := (← tableRec tid).slots.length
  let i ← optInteger args[1]? 1
  let j ← optInteger args[2]? (Int64.ofNat len)
  let r := clampRange i j len
  if r.1 > r.2 then pure .normal
  else do
    pushKeys tid (rangeKeys r)
    pure (.retN ((r.2 - r.1 + 1).toNat % 256))

/-- `table.pack(...)`. -/
def tablePack (args : List Value) : LuaM ExecResult := do
  if args.length + 1 > TABLE_SLOTS then err "too many arguments"
  let tid ← newTable
  let t ← tableRec tid
  setSlots tid t (numberSlots 0 args)
  let nkey ← intern (bytesOf "n")
  setSlots tid t (numberSlots 0 args ++ [(.str nkey, .num (Int64.ofNat args.length))])
  pure (.ret (.table tid))

/-- The size of the buffer `table.concat` builds its result in. -/
def CONCAT_CAP : ℕ := 4096

/-- Bytes added to the buffer. -/
def concatAdd (out b : List UInt8) : LuaM (List UInt8) :=
  if out.length + b.length > CONCAT_CAP then err "result too long" else pure (out ++ b)

/-- What `table.concat` writes for a value. -/
def concatBytes (L : Lib) (h : Heap) : Value → Option (List UInt8)
  | .str r => some (h.strBytes r)
  | .num n => some (itoa n)
  | .float f => some (L.fmtFloat f)
  | _ => none

/-- A separator, but not before the first value, and the bytes of a value. -/
def concatItem (sep : List UInt8) (first : Bool) (out b : List UInt8) : LuaM (List UInt8) :=
  if first || sep.isEmpty then concatAdd out b
  else do concatAdd (← concatAdd out sep) b

/-- The loop of `table.concat`. -/
def concatLoop (L : Lib) (tid : ℕ) (sep : List UInt8) : Bool → List Value → List UInt8 → LuaM (List UInt8)
  | _, [], out => pure out
  | first, k :: ks, out => do
    let v ← rawGet tid k
    match concatBytes L (← get).toHeap v with
    | none => err "invalid value in table for concat"
    | some b => do concatLoop L tid sep false ks (← concatItem sep first out b)

/-- The separator argument of `table.concat`. -/
def separator : Option Value → LuaM (List UInt8)
  | none => pure []
  | some (.str r) => do pure ((← get).strBytes r)
  | some _ => err "table.concat expects a string separator"

/-- `table.concat(list [, sep [, i [, j]]])`. -/
def tableConcat (L : Lib) (args : List Value) : LuaM ExecResult := do
  if args.length < 1 ∨ args.length > 4 then err "table.concat expects 1 to 4 arguments"
  let tid ← asTable "table.concat expects a table" (args.headD .nil)
  let len := (← tableRec tid).slots.length
  let sep ← separator args[1]?
  let i ← optInteger args[2]? 1
  let j ← optInteger args[3]? (Int64.ofNat len)
  let r := clampRange i j len
  if r.1 > r.2 then do pure (.ret (.str (← intern [])))
  else do
    let out ← concatLoop L tid sep true (rangeKeys r) []
    pure (.ret (.str (← intern out)))

end Lua
end Rustrapper
