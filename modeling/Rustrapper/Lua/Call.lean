/-
# Calls, coroutines and library functions

Everything that may run script code on behalf of another function: frames
for a call (`setupFuncFrame`), metamethod dispatch (`tget`, `tset`, `binop`,
`tostring`), coroutines (`coCreate`, `coResumeValue`), and `eval::call` with
the library functions that reach into the machine itself (`pcall`, `xpcall`,
`error`, `coroutine.*`, `select`, `pairs`, ...).

The interpreter is recursive (a call runs the machine, which calls). Where a
function starts `eval::call`, `run_at`, `tget`, `tset` or a coroutine, the
program has the operation (`doCall`, ...); `interp` ties the knot with fuel.
-/
import Rustrapper.Lua.Compile
import Rustrapper.Lua.Eval

namespace Rustrapper
namespace Lua

/-! ### Calling values -/

/-- The `n` values of a stack from position `i` on. -/
def stackVals (stack : List Value) (i n : ℕ) : List Value :=
  (List.range n).map fun j => (at? stack (i + j)).getD .nil

theorem stackVals_length (stack : List Value) (i n : ℕ) : (stackVals stack i n).length = n := by
  simp [stackVals]

theorem stackVals_reverse_append (vs rest : List Value) :
    stackVals (vs.reverse ++ rest) rest.length vs.length = vs := by
  refine List.ext_getElem (by simp [stackVals]) fun j h1 h2 => ?_
  simp only [stackVals, List.getElem_map, List.getElem_range]
  rw [at?_reverse_append vs rest h2, List.getElem?_eq_getElem h2, Option.getD_some]

/-- Read the `n` values from position `i` on. -/
def valsAt (i n : ℕ) : LuaM (List Value) := do
  let s ← get
  if i + n > STACK_CAP then fault .stack
  else pure (stackVals s.vstack i n)

/-- Copy `n` values from position `i` on into an argument buffer. -/
def loadArgs (i n : ℕ) : LuaM (List Value) := do
  useBuffer n
  valsAt i n

/-- Declare the names with the values, in order, `nil` for the missing ones. -/
def declareLocals : List StrRef → List Value → LuaM Unit
  | [], _ => pure ()
  | p :: ps, args => do
    declareLocal p (args.headD .nil)
    declareLocals ps args.tail

/-- A function of the program. -/
def funcDef (fi : ℕ) : LuaM FuncDef := do orFault .index (← get).funcs[fi]?

/-- A closure of the program. -/
def closureDef (ci : ℕ) : LuaM ClosureDef := do orFault .index (← get).closures[ci]?

/-- `setup_func_frame`: a frame for a call with `argc` arguments at
`base + argsOffset`; the operand stack of the body starts at `base`. -/
def setupFuncFrame (fi argc base argsOffset retIp want closure : ℕ) : LuaM Unit := do
  let fd ← funcDef fi
  let args ← loadArgs (base + argsOffset) argc
  pushFrame { retIp := retIp, want := want, base := base, closure := closure }
  declareLocals fd.params args
  setVsp base

/-- The function a value runs in the machine, and the closure it runs as. -/
def callee (v : Value) : LuaM (Option (ℕ × ℕ)) :=
  match v with
  | .func fi => pure (some (fi, NO_CLOSURE))
  | .closure ci => do pure (some ((← closureDef ci).func, ci))
  | _ => pure none

/-- `run`: the machine from `entry` until the root frame returns. -/
def runEntry (entry : ℕ) : LuaM ExecResult := do doRunAt entry (← get).fsp

/-- A nested run of a function on the `argc` values on top of the stack. -/
def runFunc (fi ci argc : ℕ) : LuaM ExecResult := do
  let s ← get
  if argc > s.vsp then fault .stack
  setupFuncFrame fi argc (s.vsp - argc) 0 RET_HALT WANT_ALL ci
  runEntry (← funcDef fi).entry

/-- `call_value`. -/
def callValue (fv : Value) (argc : ℕ) : LuaM ExecResult := do
  match ← callee fv with
  | some (fi, ci) => runFunc fi ci argc
  | none => doCall fv argc

/-- The values of a result; those of `retN` are taken off the stack. -/
def resultVals : ExecResult → LuaM (List Value)
  | .ret v => pure [v]
  | .ret2 a b => pure [a, b]
  | .retN n => topVals n
  | _ => pure []

/-- `call_mm`: call a metamethod and keep its first result. -/
def callMM (f : Value) (args : List Value) : LuaM Value := do
  if args.length > 32 then err "too many arguments"
  let base := (← get).vsp
  pushVals args
  let r ← callValue f args.length
  match r with
  | .yield _ => err "attempt to yield across a metamethod"
  | r => do
    let vs ← resultVals r
    setVsp base
    pure (vs.headD .nil)

/-- A metamethod call between `enter_mm` and `leave_mm`. -/
def dispatchMM {α : Type} (x : LuaM α) : LuaM α := do
  enterMM
  let r ← attempt x
  leaveMM
  rethrow r

/-! ### Metamethod dispatch -/

/-- `tget`. -/
def tget (t k : Value) : LuaM Value := do
  match t with
  | .table tid => do
    let v ← rawGet tid k
    if v ≠ .nil then pure v
    else
      match ← mtLookup tid .index with
      | .nil => pure .nil
      | .table h => dispatchMM (doTget (.table h) k)
      | h => dispatchMM (callMM h [t, k])
  | _ => err "attempt to index a non-table value"

/-- `tset`. -/
def tset (t k v : Value) : LuaM Unit := do
  match t with
  | .table tid => do
    if slotHas (← tableRec tid).slots k then rawSet tid k v
    else
      match ← mtLookup tid .newindex with
      | .nil => rawSet tid k v
      | .table h => dispatchMM (doTset (.table h) k v)
      | h => dispatchMM (do let _ ← callMM h [t, k, v]; pure ())
  | _ => err "attempt to index a non-table value"

/-- `eq_values`. -/
def eqValues (a b : Value) : LuaM Bool := do
  if valEq a b then pure true
  else
    match a, b with
    | .table _, .table _ => do
      match ← binopMM a b .eq with
      | some f => do pure (truthy (← dispatchMM (callMM f [a, b])))
      | none => pure false
    | _, _ => pure false

/-- `unm`. -/
def unm (v : Value) : LuaM Value := do
  match v with
  | .num n => pure (.num (-n))
  | .float f => pure (.float (-f))
  | _ => do
    match ← mmOf v .unm with
    | .nil => err "attempt to perform arithmetic on a non-number value"
    | f => dispatchMM (callMM f [v])

/-- The arithmetic operators of `binop`. -/
def arith (op : Op) (a b : Value) : LuaM Value := do
  match a, b with
  | .num x, .num y =>
    match intArith op x y with
    | none => fault .arith
    | some (.error m) => err m
    | some (.ok z) => pure (.num z)
  | a, b =>
    match floatOf a, floatOf b with
    | some x, some y => pure (.float (floatArith op x y))
    | _, _ => do
      match ← binopMM a b op.mm with
      | some f => dispatchMM (callMM f [a, b])
      | none => err "attempt to perform arithmetic on a non-number value"

/-- `<` (strict) and `<=` of `binop`. -/
def less (strict : Bool) (a b : Value) : LuaM Value := do
  match numLess strict a b with
  | some r => pure (.bool r)
  | none => do
    match ← binopMM a b (if strict then .lt else .le) with
    | some f => do pure (.bool (truthy (← dispatchMM (callMM f [a, b]))))
    | none => do
      if !strict then
        match ← binopMM b a .lt with
        | some f => do pure (.bool (!truthy (← dispatchMM (callMM f [b, a]))))
        | none => err "attempt to compare non-number values"
      else err "attempt to compare non-number values"

/-- Strings and numbers. -/
def isText : Value → Bool
  | .str _ | .num _ | .float _ => true
  | _ => false

/-- `string_of`. -/
def stringOf (L : Lib) (v : Value) : LuaM StrRef :=
  match v with
  | .str r => pure r
  | .num n => intern (itoa n)
  | .float f => intern (L.fmtFloat f)
  | _ => err "attempt to concatenate a non-string value"

/-- `..` of `binop`. -/
def concat (L : Lib) (a b : Value) : LuaM Value := do
  if isText a ∧ isText b then do
    let sa ← stringOf L a
    let sb ← stringOf L b
    let s ← get
    let bytes := s.strBytes sa ++ s.strBytes sb
    if bytes.length > 512 then err "string too long"
    else do pure (.str (← intern bytes))
  else do
    match ← binopMM a b .concat with
    | some f => dispatchMM (callMM f [a, b])
    | none => err "attempt to concatenate a non-string value"

/-- `binop`. -/
def binop (L : Lib) (op : Op) (a b : Value) : LuaM Value := do
  match op with
  | .add | .sub | .mul | .div | .mod => arith op a b
  | .eq => do pure (.bool (← eqValues a b))
  | .ne => do pure (.bool !(← eqValues a b))
  | .lt => less true a b
  | .le => less false a b
  | .gt => less true b a
  | .ge => less false b a
  | .concat => concat L a b
  | _ => err "internal error: operator handled elsewhere"

/-! ### Rendering with `__tostring` -/

/-- The result of a `__tostring` metamethod, when the value has one. -/
def tostringMM (v : Value) : LuaM (Option Value) := do
  match ← mmOf v .tostring with
  | .nil => pure none
  | h => do
    let r ← dispatchMM (callMM h [v])
    if isText r then pure (some r) else err "'__tostring' must return a string"

/-- `value_to_string` on a value without the metamethod. -/
def internValue (L : Lib) (v : Value) : LuaM StrRef :=
  match v with
  | .str r => pure r
  | v => intern (renderPlain L v)

/-- `value_to_string`. -/
def valueToString (L : Lib) (v : Value) : LuaM StrRef := do
  internValue L ((← tostringMM v).getD v)

/-- `tostring`: emit the rendering. The number a metamethod returns is
interned on the way. -/
def tostring (L : Lib) (v : Value) : LuaM Unit := do
  match ← tostringMM v with
  | some r => do
    let sr ← internValue L r
    emitBytes ((← get).strBytes sr)
  | none => emitBytes (render L (← get).toHeap v)

/-! ### Library programs on the machine -/

/-- The operations of the library on the machine. -/
def libOp {α : Type} : LibOp α → LuaM α
  | .getHeap => do pure (← get).toHeap
  | .setHeap h => setHeap h
  | .getChunks => do pure (← get).toChunks
  | .callValue f args => do
    let base := (← get).vsp
    let r ← attempt do
      pushVals args
      resultVals (← callValue f args.length)
    setVsp base
    pure r

def libThrow {α : Type} : LibStop → LuaM α
  | .fail e => raise e
  | .abort => fault .library

/-- The handler of the library. -/
def libHandler : Effect.Handler LibOp LibStop LuaError LuaM where
  op := libOp
  throw := libThrow
  attempt := attempt
  throw_bind := fun x _ => by cases x <;> rfl

/-- Run a library program. -/
def runProg {α : Type} (x : Prog α) : LuaM α := x.exec libHandler

/-- The result of a library function; its `retN` values are pushed. -/
def pushRet : NativeRet → LuaM ExecResult
  | .normal => pure .normal
  | .ret v => pure (.ret v)
  | .ret2 a b => pure (.ret2 a b)
  | .retN vs => do pushVals vs; pure (.retN vs.length)
  | .shell => pure .shell
  | .exit => pure .exit

/-! ### Coroutines -/

/-- `swap_threads` from thread `i` to thread `j`: the running context is saved
in slot `i`, that of slot `j` is loaded, and slot `j` gets what slot `i` held. -/
def LuaState.swapThreads (s : LuaState) (i j : ℕ) : LuaState :=
  if i = j then s
  else { s with
    toThread := s.threads j
    threads := Function.update (Function.update s.threads j (s.threads i)) i s.toThread
    current := j }

def swapThreads (i j : ℕ) : Exec Unit := modify (·.swapThreads i j)

/-- The status of the coroutine that runs as thread `t`, if it is one. -/
def setThreadStatus (t : ℕ) (st : CoStatus) : Exec Unit :=
  if t = 0 then pure () else setCo (t - 1) fun c => { c with status := st }

/-- `co_create`. -/
def coCreate (f : Value) : LuaM Value := do
  match f with
  | .func _ | .native _ | .closure _ => do
    match ← coSlot f with
    | none => err "too many coroutines"
    | some i => pure (.co i)
  | _ => err "coroutine.create expects a function"

/-- `normalize`: the values above `base` to exactly `want`. -/
def normalize (base want : ℕ) : LuaM Unit := do
  if want = WANT_ALL then pure ()
  else do
    let n := (← get).vsp - base
    if n > want then setVsp (base + want)
    else pushVals (List.replicate (want - n) .nil)

/-- The run of a coroutine's body on the arguments of its first resume. An
error before the run starts is no result of the run. -/
def startBody (f : Value) (args : List Value) : LuaM (Except LuaError ExecResult) := do
  pushVals args
  match ← callee f with
  | some (fi, ci) => do
    let base := (← get).vsp - args.length
    setupFuncFrame fi args.length base 0 RET_HALT WANT_ALL ci
    let entry := (← funcDef fi).entry
    attempt (runEntry entry)
  | none => attempt (doCall f args.length)

/-- The run of a coroutine from its last yield, whose results are the
arguments. -/
def continueBody (ip want : ℕ) (args : List Value) : LuaM (Except LuaError ExecResult) := do
  pushVals args
  normalize ((← get).vsp - args.length) want
  attempt (doRunAt ip 0)

/-- The `n` values on top of the stack, through the 32-entry result buffer. -/
def takeResults (n : ℕ) : LuaM (List Value) := do
  useBuffer n
  let vs ← topVals n
  setVsp ((← get).vsp - n)
  pure vs

/-- `collect_results`. -/
def collectResults : ExecResult → LuaM (List Value)
  | .ret v => pure [v]
  | .ret2 a b => pure [a, b]
  | .retN n => takeResults n
  | _ => pure []

/-- Where a coroutine is left at the end of a resume. -/
inductive Left where
  | suspended
  | dead
deriving DecidableEq, Inhabited

/-- The end of a resume, still in the coroutine's context: its values or its
error, and how it is left. -/
def finishBody (r : Except LuaError ExecResult) : LuaM (Resumed × Left) := do
  match r with
  | .ok (.yield n) => do pure (.done (← takeResults n), .suspended)
  | .ok r => do pure (.done (← collectResults r), .dead)
  | .error e => pure (.failed e, .dead)

/-- What runs in the coroutine's context. -/
def coBody (c : CoState) (args : List Value) : LuaM (Resumed × Left) := do
  finishBody (← if c.started then continueBody c.ip c.want args else startBody c.func args)

/-- The switch to coroutine `id`: the thread left, and the coroutine's record
before `started` is set. -/
def enterCo (id : ℕ) : Exec (ℕ × CoState) := do
  let parent := (← get).current
  setCo id fun c => { c with status := .running, parent := parent }
  setThreadStatus parent .normal
  swapThreads parent (id + 1)
  let c := (← get).cos id
  setCo id fun c => { c with started := true }
  pure (parent, c)

/-- The switch back; a suspended coroutine goes on behind its yield. -/
def leaveCo (id parent : ℕ) (left : Left) : Exec Unit := do
  let s ← get
  match left with
  | .suspended =>
    setCo id fun c => { c with status := .suspended, ip := s.yieldIp, want := s.yieldWant }
  | .dead => setCo id fun c => { c with status := .dead }
  swapThreads (id + 1) parent
  setThreadStatus parent .running

theorem total_setThreadStatus (t : ℕ) (st : CoStatus) : Total (setThreadStatus t st) := by
  unfold setThreadStatus
  split_ifs
  · exact .pure _
  · exact total_modify _

theorem total_enterCo (id : ℕ) : Total (enterCo id) :=
  total_get.bind fun _ => (total_modify _).bind fun _ => (total_setThreadStatus _ _).bind fun _ =>
    (total_modify _).bind fun _ => total_get.bind fun _ => (total_modify _).bind fun _ => .pure _

theorem total_leaveCo (id parent : ℕ) (left : Left) : Total (leaveCo id parent left) := by
  refine total_get.bind fun s => ?_
  cases left <;>
    exact (total_modify _).bind fun _ => (total_modify _).bind fun _ => total_setThreadStatus _ _

/-- `co_resume_value` on a suspended coroutine: switch to it, run it, switch
back. An error of `coBody` returns before the switch back. -/
def switch (R : Rec) (id : ℕ) (args : List Value) : Exec Resumed := do
  let (parent, c) ← enterCo id
  let (out, left) ← R.exec (coBody c args)
  leaveCo id parent left
  pure out

/-- `co_resume_value` between the arguments and the results. -/
def resume (R : Rec) (id : ℕ) (args : List Value) : Exec Resumed := do
  let s ← get
  if (s.cos id).status = .suspended then switch R id args
  else pure (.refused (s.cos id).status)

/-- The error object of an error: its value, or its message as a string. -/
def errorValue : LuaError → LuaM Value
  | .obj v => pure v
  | .msg m => do pure (.str (← intern (bytesOf m)))

/-- Push `first` and the values as the results of a resume. -/
def pushResults (first : Value) (vs : List Value) : LuaM ExecResult := do
  pushVal first
  pushVals vs
  pure (.retN (vs.length + 1))

/-- Take the arguments of a resume off the resumer's stack. -/
def takeArgs (argc : ℕ) : LuaM (List Value) := do
  if argc > (← get).vsp then fault .stack
  let args ← loadArgs ((← get).vsp - argc) argc
  setVsp ((← get).vsp - argc)
  pure args

/-- `co_resume_value`. -/
def coResumeValue (id argc : ℕ) : LuaM ExecResult := do
  if id ≥ MAX_COS then err "invalid coroutine"
  else do
    let args ← takeArgs argc
    match ← doResume id args with
    | .refused st => do
      let r ← intern (bytesOf (if st = .dead then "cannot resume dead coroutine"
        else "cannot resume non-suspended coroutine"))
      pushResults (.bool false) [.str r]
    | .failed e => do
      let v ← errorValue e
      pushResults (.bool false) [v]
    | .done vs => pushResults (.bool true) vs

/-- `co_wrap_call`. -/
def coWrapCall (id argc : ℕ) : LuaM ExecResult := do
  match ← coResumeValue id argc with
  | .retN n => do
    let vs ← topVals n
    match vs with
    | .bool true :: rest => do
      placeVals ((← get).vsp - n) rest
      match rest with
      | [] => pure .normal
      | [a] => pure (.ret a)
      | [a, b] => pure (.ret2 a b)
      | _ => pure (.retN rest.length)
    | _ => raise (.obj (vs.getD 1 .nil))
  | _ => err "internal error: bad resume result"

/-! ### Chunks -/

/-- `core::str::from_utf8`. -/
def isUtf8 (b : List UInt8) : Bool := (ByteArray.mk b.toArray).validateUTF8

/-- `exec_chunk`: load, compile and run a chunk; its first result. -/
def execChunk (L : Lib) (name : List UInt8) : LuaM Value := do
  if ((← get).callbacks .load).isNone then err "dofile not available (no file loader)"
  match ← runProg (L.load name) with
  | none => err "cannot open file"
  | some src => do
    if src.length > DOFILE_CAP then err "file too large"
    let first ← parseScript src
    let entry ← compile first
    pushFrame { retIp := RET_HALT, want := 1, base := (← get).vsp }
    match ← runEntry entry with
    | .normal => pure .nil
    | .ret v => pure v
    | .ret2 a _ => pure a
    | .retN n => do
      let vs ← topVals n
      setVsp ((← get).vsp - n)
      pure (vs.headD .nil)
    | .shell => pure .shell
    | .exit => pure .exit
    | .yield _ => err "attempt to yield across a dofile boundary"

/-! ### Protected calls of `eval::call` -/

/-- The results of a protected call behind `first`: those of `retN` are on the
stack, and `first` goes before them. -/
def prependResult (first : Value) : ExecResult → LuaM ExecResult
  | .normal => pure (.ret first)
  | .ret v => pure (.ret2 first v)
  | .ret2 a b => do
    pushVals [a, b, first]
    rotate 3
    pure (.retN 3)
  | .retN n => do
    pushVal first
    rotate (n + 1)
    pure (.retN (n + 1))
  | .shell => pure .shell
  | .exit => pure .exit
  | .yield _ => err "attempt to yield across a protected call"
where
  /-- Move the top value under the `n - 1` below it. -/
  rotate (n : ℕ) : LuaM Unit := do
    let vs ← topVals n
    modify fun s => { s with
      vstack := (vs.getLastD .nil :: vs.dropLast).reverse ++ s.vstack.drop n }

/-- `pcall` (`Native(15)`) and `xpcall` (`Native(26)`, with a handler) outside
of the machine's `Call`: `argc` arguments of `f` are on the stack, which is
unwound to `base` on an error. -/
def pcallNative (f : Value) (handler : Option Value) (argc base : ℕ) : LuaM ExecResult := do
  let s ← get
  match ← attempt (doCall f argc) with
  | .ok r => prependResult (.bool true) r
  | .error e => do
    setVsp base
    setFsp s.fsp
    setMarkSp s.markSp
    let v ← errorValue e
    match handler with
    | none => pure (.ret2 (.bool false) v)
    | some h => do
      pushVal v
      let r ← doCall h 1
      prependResult (.bool false) r

/-! ### The library functions of the machine -/

/-- `next`: the slot behind a key. -/
def nextSlot (slots : List (Value × Value)) (k : Value) : Option (Option (Value × Value)) :=
  if k = .nil then some slots[0]?
  else (slots.findIdx? fun p => valEq p.1 k).map fun i => slots[i + 1]?

/-- `rawlen` of a table: the run of integer keys from 1 on. -/
def rawLen (slots : List (Value × Value)) : ℕ :=
  ((List.range TABLE_SLOTS).takeWhile fun i => slotGet slots (.num (Int64.ofNat (i + 1))) ≠ .nil).length

/-- A number that is an integer. -/
def wholeOf : Value → Option Int64
  | .num n => some n
  | .float f => if f.isFinite && f == floatFloor f then some (i64OfF64 f) else none
  | _ => none

/-- `select`. -/
def selectF (args : List Value) : LuaM ExecResult := do
  match args with
  | [] => err "select expects at least 1 argument"
  | k :: extras => do
    let s ← get
    let isCount : Bool := match k with | .str r => s.strBytes r = bytesOf "#" | _ => false
    if isCount then pure (.ret (.num (Int64.ofNat extras.length)))
    else
      match wholeOf k with
      | none => err "select index must be an integer"
      | some n => do
        let total : ℤ := args.length
        let i := if n.toInt < 0 then n.toInt + total else min n.toInt total
        if i < 1 then err "select index out of range"
        else do
          let vs := args.drop i.toNat
          pushVals vs
          pure (.retN vs.length)

/-- `setmetatable`. -/
def setMetatable (args : List Value) : LuaM ExecResult := do
  match args with
  | [.table tid, m] => do
    let mt ← match m with
      | .nil => pure none
      | .table i => pure (some i)
      | _ => err "setmetatable expects a table or nil"
    let t ← tableRec tid
    match t.mt with
    | some cur => do
      let name ← intern (bytesOf "__metatable")
      if (← rawGet cur (.str name)) ≠ .nil then err "cannot change a protected metatable"
    | none => pure ()
    modify fun s => { s with tbls := s.tbls.set tid { t with mt := mt } }
    pure (.ret (.table tid))
  | [_, _] => err "setmetatable expects a table"
  | _ => err "setmetatable expects 2 arguments"

/-- `warn`. -/
def warnF (L : Lib) (args : List Value) : LuaM ExecResult := do
  let s ← get
  let control := match args with
    | [.str r] =>
      if s.strBytes r = bytesOf "@on" then some true
      else if s.strBytes r = bytesOf "@off" then some false else none
    | _ => none
  match control with
  | some on => set { s with warnOn := on }
  | none => pure ()
  if args.isEmpty then err "warn expects at least 1 argument"
  if !args.all isText then err "warn expects string arguments"
  if control.isNone ∧ s.warnOn then do
    emitBytes (bytesOf "Lua warning: ")
    args.forM (tostring L)
    emitBytes [10]
  pure .normal

/-- `print`: the arguments with tabs between them. -/
def printArgs (L : Lib) : List Value → LuaM Unit
  | [] => pure ()
  | [v] => tostring L v
  | v :: vs => do
    tostring L v
    emitBytes [9]
    printArgs L vs

/-- `coroutine.status`. -/
def statusName : CoStatus → String
  | .suspended => "suspended"
  | .running => "running"
  | .normal => "normal"
  | .dead => "dead"

/-- A built-in function on its arguments; `base` is where they start on the
stack. -/
def native (L : Lib) (id : ℕ) (args : List Value) (base : ℕ) : LuaM ExecResult := do
  match id, args with
  | 0, args => do printArgs L args; emitBytes [10]; pure .normal
  | 2, [.str r] => do
    let name := (← get).strBytes r
    if name.length ≥ 128 then err "dofile filename too long"
    if !isUtf8 name then err "dofile filename must be ASCII"
    pure (.ret (← execChunk L name))
  | 2, [_] => err "dofile expects a string filename"
  | 2, _ => err "dofile expects 1 argument"
  | 3, .table tid :: rest => do
    if rest.length > 1 then err "next expects 1 or 2 arguments"
    match nextSlot (← tableRec tid).slots (rest.headD .nil) with
    | none => err "invalid key to 'next'"
    | some none => pure (.ret .nil)
    | some (some (k, v)) => pure (.ret2 k v)
  | 3, args =>
    err (if args.length = 1 ∨ args.length = 2 then "next expects a table"
      else "next expects 1 or 2 arguments")
  | 4, [.table tid] => do
    match ← mtLookup tid .pairs with
    | .nil => pure (.ret2 (.native 3) (.table tid))
    | h => do
      pushVal (.table tid)
      dispatchMM (callValue h 1)
  | 4, [_] => err "pairs expects a table"
  | 4, _ => err "pairs expects 1 argument"
  | 5, [a, b] => pure (.ret (.bool (valEq a b)))
  | 5, _ => err "rawequal expects 2 arguments"
  | 6, [.table tid, k] => do pure (.ret (← rawGet tid k))
  | 6, [_, _] => err "rawget expects a table"
  | 6, _ => err "rawget expects 2 arguments"
  | 7, [.str r] => do pure (.ret (.num (Int64.ofNat ((← get).strBytes r).length)))
  | 7, [.table tid] => do pure (.ret (.num (Int64.ofNat (rawLen (← tableRec tid).slots))))
  | 7, [_] => err "rawlen expects a table or a string"
  | 7, _ => err "rawlen expects 1 argument"
  | 8, [.table tid, k, v] => do rawSet tid k v; pure (.ret (.table tid))
  | 8, [_, _, _] => err "rawset expects a table"
  | 8, _ => err "rawset expects 3 arguments"
  | 9, args => selectF args
  | 10, args => setMetatable args
  | 12, [v] => do pure (.ret (.str (← valueToString L v)))
  | 12, _ => err "tostring expects 1 argument"
  | 13, [v] => do pure (.ret (.str (← intern (bytesOf (typeName v)))))
  | 13, _ => err "type expects 1 argument"
  | 14, args => warnF L args
  | 15, f :: rest => pcallNative f none rest.length base
  | 15, [] => err "pcall expects at least 1 argument"
  | 16, args => do
    if args.length > 2 then err "error expects at most 2 arguments"
    if args.length = 2 ∧ (args[1]?.bind wholeOf).isNone then err "error level must be an integer"
    raise (.obj (args.headD .nil))
  | 17, [f] => do pure (.ret (← coCreate f))
  | 17, _ => err "coroutine.create expects 1 argument"
  | 18, .co i :: rest => coResumeValue i rest.length
  | 18, [] => err "coroutine.resume expects at least 1 argument"
  | 18, _ => err "coroutine.resume expects a coroutine"
  | 19, args => do
    if (← currentThread) = 0 then err "attempt to yield from outside a coroutine"
    pushVals args
    pure (.yield args.length)
  | 20, [.co i] => do pure (.ret (.str (← intern (bytesOf (statusName (← coStatus i))))))
  | 20, [_] => err "coroutine.status expects a coroutine"
  | 20, _ => err "coroutine.status expects 1 argument"
  | 21, [.co i] => pure (.ret (.wrapped i))
  | 21, [_] => err "coroutine.wrap expects a coroutine"
  | 21, _ => err "coroutine.wrap expects 1 argument"
  | 22, [] => do pure (.ret (.bool ((← currentThread) ≠ 0)))
  | 22, _ => err "coroutine.isyieldable expects no arguments"
  | 23, [] => do
    let t ← currentThread
    if t = 0 then pure (.ret2 .nil (.bool true)) else pure (.ret2 (.co (t - 1)) (.bool false))
  | 23, _ => err "coroutine.running expects no arguments"
  | 24, [.co i] => do
    match ← coClose i with
    | .dead | .suspended => pure (.ret (.bool true))
    | _ => err "cannot close a running coroutine"
  | 24, [_] => err "coroutine.close expects a coroutine"
  | 24, _ => err "coroutine.close expects 1 argument"
  | 25, [] => err "assert expects at least 1 argument"
  | 25, v :: rest => do
    if truthy v then pure (.retN (rest.length + 1))
    else do
      let obj ← match rest with
        | m :: _ => pure m
        | [] => do pure (.str (← intern (bytesOf "assertion failed!")))
      raise (.obj obj)
  | 26, f :: h :: rest => pcallNative f (some h) rest.length base
  | 26, _ => err "xpcall expects at least 2 arguments"
  | id, args => do pushRet (← runProg (L.native id args))

/-- The results of a call move down over its arguments. -/
def settle (base : ℕ) (r : ExecResult) : LuaM ExecResult := do
  match r with
  | .retN n | .yield n => do
    let vs ← topVals n
    placeVals base vs
  | _ => setVsp base
  pure r

/-- No arguments are expected. -/
def noArgs (argc : ℕ) (m : String) (x : LuaM ExecResult) : LuaM ExecResult :=
  if argc ≠ 0 then err m else x

/-- The callables of `eval::call` other than tables. -/
def callPlain (L : Lib) (fv : Value) (args : List Value) (base : ℕ) :
    LuaM ExecResult := do
  match fv with
  | .native id => native L id args base
  | .shell => noArgs args.length "shell expects no arguments" (pure .shell)
  | .exit => noArgs args.length "exit expects no arguments" (pure .exit)
  | .dhcp => noArgs args.length "dhcp expects no arguments" do
      pure (.ret (.bool (← runProg L.dhcp)))
  | .ls => noArgs args.length "ls expects no arguments" do lsRun; pure .normal
  | .wrapped id => coWrapCall id args.length
  | .gmatch id => noArgs args.length "gmatch iterator expects no arguments" do
      let vs ← runProg (L.gmatchAdvance id)
      pushVals vs
      if vs.isEmpty then pure (.ret .nil) else pure (.retN vs.length)
  | .ioLines id => noArgs args.length "io.lines iterator expects no arguments" do
      match ← runProg (L.ioLine id 4096) with
      | none | some [] => pure (.ret .nil)
      | some b => do pure (.ret (.str (← intern b)))
  | .co _ => err "attempt to call a thread value"
  | .num n => pure (.ret (.num n))
  | fv => callValue fv args.length

/-- A callable table: `__call` gets the table before the arguments. -/
def callTable (fv : Value) (args : List Value) (base : ℕ) : LuaM ExecResult := do
  match ← mmOf fv .call with
  | .nil => err "attempt to call a non-function value"
  | h => do
    if args.length ≥ 32 then err "too many arguments"
    placeVals base (fv :: args)
    dispatchMM (doCall h (args.length + 1))

/-- The values the last arm of `eval::call` is for. -/
def isOther (fv : Value) (argc : ℕ) : Bool :=
  match fv with
  | .nil | .bool _ | .float _ | .str _ | .table _ => true
  | .num n => !(argc = 0 && (n = Int64.maxValue || n = Int64.minValue))
  | _ => false

/-- `eval::call`: call a value with the `argc` arguments on top of the stack. -/
def call (L : Lib) (fv : Value) (argc : ℕ) : LuaM ExecResult := do
  let s ← get
  if argc > s.vsp then err "internal error: arg stack underflow"
  else do
    let base := s.vsp - argc
    let args ← loadArgs base argc
    if isOther fv argc then callTable fv args base
    else do settle base (← callPlain L fv args base)

end Lua
end Rustrapper
