/-
# Running a script

`LuaState::run`: `reset` to empty stacks and an empty heap, the built-in
globals, then parse, compile and execute. A run ends with the result of the
script or an error; the state it leaves is the next one's start.
-/
import Rustrapper.Lua.Vm

namespace Rustrapper
namespace Lua

/-- `unwrap`. -/
def unwrap {α : Type} (x : LuaM α) : LuaM α := do
  match ← attempt x with
  | .ok a => pure a
  | .error _ => fault .unwrap

/-! ### Built-in globals -/

/-- A built-in global. -/
def addGlobal (name : String) (v : Value) : LuaM Unit := do
  setGlobal (← unwrap (intern (bytesOf name))) v

/-- The fields of a library table. Its table has no metatable, so `tset` on it
is `raw_set`. -/
def addFields (tid : ℕ) : List (String × Value) → LuaM Unit
  | [] => pure ()
  | (name, v) :: fs => do
    let r ← unwrap (intern (bytesOf name))
    unwrap (rawSet tid (.str r) v)
    addFields tid fs

/-- A library: a global table of built-ins. -/
def addLibrary (name : String) (fields : List (String × Value)) : LuaM Unit := do
  let r ← unwrap (intern (bytesOf name))
  let tid ← unwrap newTable
  addFields tid fields
  setGlobal r (.table tid)

/-- Globals in the order they are registered. -/
def addGlobals : List (String × Value) → LuaM Unit
  | [] => pure ()
  | (name, v) :: gs => do
    addGlobal name v
    addGlobals gs

/-- `record_fetch_ref` of the directory entry `/disks`. -/
def addDisks : LuaM Unit := do
  match ← attempt (intern (bytesOf "/disks")) with
  | .error _ => pure ()
  | .ok r => do
    let s ← get
    if s.fetched.any (·.1 = r) then
      modify fun s => { s with fetched := updateFirst (fun f => f.1 = r) (fun f => (f.1, 0)) s.fetched }
    else if s.fetched.length < MAX_FETCHED then
      modify fun s => { s with fetched := s.fetched ++ [(r, 0)] }

/-- Names from a number on. -/
def numbered (first : ℕ) (names : List String) : List (String × Value) :=
  names.zipIdx first |>.map fun (n, i) => (n, .native i)

/-- `register_builtins`. -/
def registerBuiltins : LuaM Unit := do
  addGlobals [("print", .native 0), ("fetch", .native 1), ("shell", .shell), ("dhcp", .dhcp),
    ("dofile", .native 2), ("exit", .exit), ("ls", .ls), ("cd", .native 75)]
  addDisks
  addGlobals (numbered 3 ["next", "pairs", "rawequal", "rawget", "rawlen", "rawset", "select",
    "setmetatable", "tonumber", "tostring", "type"])
  let version ← unwrap (intern (bytesOf "Lua 5.5"))
  addGlobal "_VERSION" (.str version)
  addGlobals [("warn", .native 14), ("pcall", .native 15), ("error", .native 16),
    ("assert", .native 25), ("xpcall", .native 26)]
  addLibrary "coroutine" (numbered 17
    ["create", "resume", "yield", "status", "wrap", "isyieldable", "running", "close"])
  addLibrary "string" (numbered 27
    ["byte", "char", "dump", "find", "format", "gmatch", "gsub", "len", "lower", "match", "pack",
     "packsize", "rep", "reverse", "sub", "unpack", "upper"])
  addLibrary "table" (numbered 44
    ["concat", "create", "insert", "move", "pack", "remove", "sort", "unpack"])
  addLibrary "math" ([("ceil", .native 52), ("floor", .native 53), ("random", .native 56),
    ("randomseed", .native 57), ("tointeger", .native 58), ("type", .native 59),
    ("maxinteger", .num Int64.maxValue), ("mininteger", .num Int64.minValue)])
  addLibrary "io" (numbered 60
    ["close", "flush", "input", "lines", "open", "output", "read", "tmpfile", "type", "write"])
  addLibrary "os" (numbered 72 ["exit", "remove", "rename"])

/-! ### Runs -/

/-- `reset`. What it leaves alone: the host callbacks, `warn_on`, `cwd`, the
contexts and records of the coroutines (apart from their status), `yield_ip`
and `yield_want`. The bytes of the arrays behind a counter set to 0 are gone. -/
def LuaState.reset (s : LuaState) : LuaState where
  toThread := {}
  toHeap := { warnOn := s.warnOn, cwd := s.cwd, callbacks := s.callbacks, world := s.world }
  toChunks := {}
  toCaptures := {}
  threads := s.threads
  cos := fun i => { s.cos i with status := .dead }
  current := 0
  yieldIp := s.yieldIp
  yieldWant := s.yieldWant

/-- `exec_script`. -/
def execScript (entry : ℕ) : LuaM Unit := do
  pushFrame { retIp := RET_HALT, want := 0, base := (← get).vsp }
  let _ ← runEntry entry

/-- `run` behind the `reset`. -/
def runScript (source : List UInt8) : LuaM Unit := do
  registerBuiltins
  let first ← parseScript source
  let entry ← compile first
  execScript entry

/-- `LuaState::run`. The output collected is that of this run. -/
def run (R : Rec) (source : List UInt8) : Exec Unit := do
  modify LuaState.reset
  R.exec (runScript source)

/-- How a computation stopped, when it did not end. -/
def stopOf {α : Type} : EStateM.Result Stop LuaState α → Option Stop
  | .ok _ _ => none
  | .error e _ => some e

/-- A library that has none of the functions left open. -/
def bareLib : Lib where
  native _ _ := .throw (.fail (.msg "not a function of this library"))
  gmatchAdvance _ := pure []
  ioLine _ _ := pure none
  dhcp := pure false
  dhcpInfo := pure ()
  load _ := pure none
  fmtFloat _ := []

end Lua
end Rustrapper
