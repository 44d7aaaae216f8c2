/-
# Values, errors and the sizes of the Lua interpreter

The data every other module of the interpreter's model is about: the sizing
constants of `lua/src/lib.rs`, the runtime values, the errors a script can
raise (`LuaError`), and `Exc`, the ways a step of the interpreter can stop: an
error of the script, a fault of the Rust program (an array access out of
range, an arithmetic overflow: the program aborts), or the end of the fuel
the model's recursion runs on.

Integers are `Int64` (wrapping, as `i64` under `wrapping_add`), floating-point
numbers are `Float` (IEEE-754 binary64).
-/
import Mathlib

namespace Rustrapper
namespace Lua

/-! ### Sizes -/

def MAX_NODES : ℕ := 1024
def STR_CAP : ℕ := 32768
def MAX_STRINGS : ℕ := 256
def STACK_CAP : ℕ := 128
def MAX_FRAMES : ℕ := 16
def MAX_LOCALS : ℕ := 16
def MAX_FUNCS : ℕ := 32
def MAX_GLOBALS : ℕ := 64
def TABLE_SLOTS : ℕ := 32
def MAX_TABLES : ℕ := 16
def MAX_STEPS : ℕ := 5000000
def DOFILE_CAP : ℕ := 4096
def MAX_FETCHED : ℕ := 16
def MAX_COS : ℕ := 3
def MM_COUNT : ℕ := 15
def MAX_UPVALS : ℕ := 8
def MAX_CELLS : ℕ := 64
def MAX_CLOSURES : ℕ := 32
def MAX_GMATCH : ℕ := 8
def MAX_CODE : ℕ := 4096

/-- The length of the argument and result buffers of `eval::call`,
`setup_func_frame` and `co_resume_value` (`[Value::Nil; 32]`). -/
def ARGBUF : ℕ := 32

/-- "All results" (`u16::MAX`). -/
def WANT_ALL : ℕ := 65535
/-- Return address of the root frame of a `run`. -/
def RET_HALT : ℕ := 0xFFFE
/-- Return address of the callee of a VM-level `pcall`. -/
def RET_PCALL : ℕ := 0xFFFD
/-- A local that holds its value directly. -/
def NO_CELL : ℕ := 65535
/-- A frame that runs no closure. -/
def NO_CLOSURE : ℕ := 65535

/-! ### Values -/

/-- Reference into the string arena, packed as `offset * 2^16 + length`. -/
abbrev StrRef := ℕ

/-- Pack an offset and a length. -/
def strref (off len : ℕ) : StrRef := off * 65536 + len

/-- A runtime value. -/
inductive Value where
  | nil
  | bool (b : Bool)
  | num (n : Int64)
  | float (f : Float)
  | str (r : StrRef)
  | table (t : ℕ)
  | func (fi : ℕ)
  | native (id : ℕ)
  | shell
  | dhcp
  | exit
  | ls
  | co (i : ℕ)
  | wrapped (i : ℕ)
  | gmatch (i : ℕ)
  | ioLines (i : ℕ)
  | closure (ci : ℕ)
deriving DecidableEq, Inhabited

/-- `nil` and `false` are false, every other value is true. -/
def truthy : Value → Bool
  | .nil => false
  | .bool false => false
  | _ => true

/-- `n as f64`. -/
def f64OfI64 (n : Int64) : Float := Float.ofInt n.toInt

/-- Numeric view of a value, accepting both integers and floats. -/
def floatOf : Value → Option Float
  | .num n => some (f64OfI64 n)
  | .float f => some f
  | _ => none

/-- Primitive equality: numbers compare across integers and floats, strings
are interned, so identity is equality. -/
def valEq : Value → Value → Bool
  | .num x, .float y => f64OfI64 x == y
  | .float x, .num y => f64OfI64 y == x
  | .float x, .float y => x == y
  | a, b => a = b

/-- Binary and unary operators. -/
inductive Op where
  | add | sub | mul | div | mod
  | eq | ne | lt | le | gt | ge
  | concat | and | or | not | neg
deriving DecidableEq, Inhabited

/-! ### Errors -/

/-- A runtime error of a script: a static message, or any value raised by
`error(v)`. -/
inductive LuaError where
  | msg (m : String)
  | obj (v : Value)
deriving DecidableEq, Inhabited

/-- What makes the Rust program abort. -/
inductive Fault where
  /-- an index past the operand stack, or a pop of an empty one -/
  | stack
  /-- an index past the frame stack, or a frame where there is none -/
  | frames
  /-- an index past another array -/
  | index
  /-- a checked arithmetic operation that overflows -/
  | arith
  /-- an `unwrap` of an error -/
  | unwrap
  /-- inside a library function -/
  | library
deriving DecidableEq, Inhabited

/-- Why a computation of the interpreter stopped without a result. -/
inductive Exc where
  | lua (e : LuaError)
  | fault (f : Fault)
  | fuel
deriving DecidableEq, Inhabited

/-- Why running a program stopped: as `Exc`, or at an index past the end of a
32-entry argument or result buffer. -/
inductive Stop where
  | lua (e : LuaError)
  | fault (f : Fault)
  | fuel
  | buffer
deriving DecidableEq, Inhabited

def Exc.toStop : Exc → Stop
  | .lua e => .lua e
  | .fault f => .fault f
  | .fuel => .fuel

/-- A static message is an error by `?`. -/
instance : Coe String LuaError := ⟨.msg⟩

/-- Result of executing a call or a statement chain. The `n` values of
`retN n` and `yield n` are the top `n` of the operand stack. -/
inductive ExecResult where
  | normal
  | ret (v : Value)
  | ret2 (a b : Value)
  | retN (n : ℕ)
  | shell
  | exit
  | yield (n : ℕ)
deriving DecidableEq, Inhabited

end Lua
end Rustrapper
