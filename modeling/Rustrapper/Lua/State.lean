/-
# The interpreter's state

`LuaState` as a record: the running thread (operand stack, frames, call
marks, step counter), the heap the library functions work on (strings,
globals, tables, output), the compiled program, the captured variables and
the coroutines. A fixed array with a counter is the list of its live entries;
its capacity is checked where the source checks it. The three stacks of a
thread have their top at the head, so position `i` of a stack of `n` entries
is `n - 1 - i`, and lowering a stack pointer drops entries from the head.
Raising one over entries that nobody wrote exposes stale values in the
source; here they read as a default (`resize`).

The interpreter's functions are programs (`LuaM`) over the machine: the state
without the coroutines' saved contexts, which only `coroutine.*` and a resume
get at. `Rec` is what a program may start again, and `Rec.exec` runs it on the
state. An error keeps the state it was raised in: `pcall` goes on from there.
-/
import Rustrapper.Effect.Cmd
import Rustrapper.Lua.Ast

namespace Rustrapper
namespace Lua

/-! ### The parts of the state -/

/-- A local variable. When `cell` is not `NO_CELL` the value is in `cells`. -/
structure Local where
  name : StrRef
  value : Value
  cell : ℕ
deriving DecidableEq, Inhabited

/-- One call or block scope. A function frame has `retIp ≠ 0`. -/
structure Frame where
  locals : List Local := []
  retIp : ℕ := 0
  want : ℕ := 0
  base : ℕ := 0
  ctrl0 : Value := .nil
  ctrl1 : Value := .nil
  ctrl2 : Value := .nil
  closure : ℕ := NO_CLOSURE
  isProtected : Bool := false
  errHandler : Option Value := none
  markSp : ℕ := 0
deriving DecidableEq, Inhabited

/-- An execution context. -/
structure Thread where
  vstack : List Value := []
  frames : List Frame := []
  callMarks : List ℕ := []
  steps : ℕ := 0
deriving DecidableEq, Inhabited

/-- A table: its live slots in order, and its metatable. -/
structure TableRec where
  slots : List (Value × Value) := []
  mt : Option ℕ := none
deriving DecidableEq, Inhabited

structure GmatchState where
  subject : StrRef
  pattern : StrRef
  pos : ℕ
  done : Bool
deriving DecidableEq, Inhabited

/-- The host callbacks a state can hold. -/
inductive Slot where
  | fetch | dhcp | load | dhcpInfo | dhcpValues | cd
  | ioOpen | ioClose | ioRead | ioWrite | ioFlush | ioType | ioSize | ioSeek
  | osRemove | osRename
deriving DecidableEq, Inhabited

/-- What the library functions read and write. `out` collects the bytes given
to `putc`; a host callback is known by a number, and `world` is the host's own
state, of which the interpreter knows nothing. -/
structure Heap where
  /-- the registered strings: offset in the arena, and bytes -/
  strregs : List (ℕ × List UInt8) := []
  strNext : ℕ := 0
  globals : List (StrRef × Value) := []
  tbls : List TableRec := []
  mmRefs : List StrRef := []
  mmReady : Bool := false
  mmDepth : ℕ := 0
  warnOn : Bool := true
  cwd : List UInt8 := [47]
  fetched : List (StrRef × UInt64) := []
  gmatches : List GmatchState := []
  rngState : UInt64 := 0x123456789ABCDEF0
  ioDefaultInput : Option ℕ := none
  ioDefaultOutput : Option ℕ := none
  callbacks : Slot → Option ℕ := fun _ => none
  world : List UInt8 := []
  out : List UInt8 := []

/-- The program: the bytecode, the functions, the number of nodes the parser
has allocated and the targets of the `goto` nodes. -/
structure Chunks where
  code : List Instr := []
  funcs : List FuncDef := []
  nodeUsed : ℕ := 0
  gotos : List (ℕ × ℕ) := []

/-- The target of a `goto` node: `Node::Goto(0)` until it is patched. -/
def Chunks.gotoTarget (c : Chunks) (node : ℕ) : ℕ := (c.gotos.lookup node).getD 0

/-- One captured upvalue. -/
structure UpEntry where
  name : StrRef
  cell : ℕ
deriving DecidableEq, Inhabited

structure ClosureDef where
  func : ℕ
  ups : List UpEntry
deriving DecidableEq, Inhabited

/-- The captured variables. -/
structure Captures where
  cells : List Value := []
  closures : List ClosureDef := []

inductive CoStatus where
  | dead | suspended | running | normal
deriving DecidableEq, Inhabited

/-- A coroutine record. -/
structure CoState where
  status : CoStatus := .dead
  func : Value := .nil
  ip : ℕ := 0
  want : ℕ := 0
  parent : ℕ := 0
  started : Bool := false
deriving DecidableEq, Inhabited

/-- The saved contexts (0 is the main thread, `i + 1` coroutine `i`) and the
coroutine records. -/
structure Sched where
  threads : ℕ → Thread := fun _ => {}
  cos : ℕ → CoState := fun _ => {}
  current : ℕ := 0
  yieldIp : ℕ := 0
  yieldWant : ℕ := 0

/-- The state without the coroutines. -/
structure Machine extends Thread, Heap, Chunks, Captures

/-- All interpreter memory. -/
structure LuaState extends Machine, Sched

/-! ### Programs -/

/-- How a resume went. -/
inductive Resumed where
  /-- the coroutine was not suspended -/
  | refused (st : CoStatus)
  | failed (e : LuaError)
  | done (vs : List Value)
deriving DecidableEq, Inhabited

/-- What a program of the interpreter can do: read and write the machine, fill
a 32-entry buffer, start the interpreter again, and reach the coroutines. -/
inductive LuaOp : Type → Type where
  | get : LuaOp Machine
  | set (m : Machine) : LuaOp Unit
  /-- fill `n` entries of a buffer -/
  | buffer (n : ℕ) : LuaOp Unit
  /-- `eval::call` -/
  | call (f : Value) (argc : ℕ) : LuaOp ExecResult
  /-- `run_at` -/
  | runAt (ip floor : ℕ) : LuaOp ExecResult
  | tget (t k : Value) : LuaOp Value
  | tset (t k v : Value) : LuaOp Unit
  /-- run a coroutine, when it is suspended, until it yields, ends or fails -/
  | resume (id : ℕ) (args : List Value) : LuaOp Resumed
  | current : LuaOp ℕ
  | setYield (ip want : ℕ) : LuaOp Unit
  /-- take a dead slot, if there is one -/
  | coCreate (f : Value) : LuaOp (Option ℕ)
  | coStatus (i : ℕ) : LuaOp CoStatus
  /-- end a coroutine that is suspended; the answer is the status it had -/
  | coClose (i : ℕ) : LuaOp CoStatus

/-- Programs of the interpreter. -/
abbrev LuaM := Effect.Cmd LuaOp Exc LuaError

instance : MonadStateOf Machine LuaM where
  get := .perform .get
  set m := .perform (.set m)
  modifyGet f := do
    let m ← Effect.Cmd.perform .get
    Effect.Cmd.perform (.set (f m).2)
    pure (f m).1

/-- `return Err(e)`. -/
def raise {α : Type} (e : LuaError) : LuaM α := .throw (.lua e)

/-- `return Err(m.into())`. -/
def err {α : Type} (m : String) : LuaM α := raise (.msg m)

/-- The program aborts. -/
def fault {α : Type} (f : Fault) : LuaM α := .throw (.fault f)

/-- Run `x` and look at its `Result`, as a `match` on it does. -/
def attempt {α : Type} (x : LuaM α) : LuaM (Except LuaError α) := x.try

/-- The `?` of a looked-at result. -/
def rethrow {α : Type} : Except LuaError α → LuaM α
  | .ok a => pure a
  | .error e => raise e

/-- An array read: out of range is a fault. -/
def orFault {α : Type} (f : Fault) : Option α → LuaM α
  | some a => pure a
  | none => fault f

/-- Fill `n` entries of a `[Value; 32]`. -/
def useBuffer (n : ℕ) : LuaM Unit := .perform (.buffer n)
def doCall (f : Value) (argc : ℕ) : LuaM ExecResult := .perform (.call f argc)
def doRunAt (ip floor : ℕ) : LuaM ExecResult := .perform (.runAt ip floor)
def doTget (t k : Value) : LuaM Value := .perform (.tget t k)
def doTset (t k v : Value) : LuaM Unit := .perform (.tset t k v)
def doResume (id : ℕ) (args : List Value) : LuaM Resumed := .perform (.resume id args)
def currentThread : LuaM ℕ := .perform .current
def setYield (ip want : ℕ) : LuaM Unit := .perform (.setYield ip want)
def coSlot (f : Value) : LuaM (Option ℕ) := .perform (.coCreate f)
def coStatus (i : ℕ) : LuaM CoStatus := .perform (.coStatus i)
def coClose (i : ℕ) : LuaM CoStatus := .perform (.coClose i)

/-! ### Running programs -/

/-- Computations on the whole state. -/
abbrev Exec := EStateM Stop LuaState

/-- The entry points of the interpreter. -/
structure Rec where
  call : Value → ℕ → Exec ExecResult
  runAt : ℕ → ℕ → Exec ExecResult
  tget : Value → Value → Exec Value
  tset : Value → Value → Value → Exec Unit
  resume : ℕ → List Value → Exec Resumed

/-- Write a coroutine record. -/
def setCo (i : ℕ) (g : CoState → CoState) : Exec Unit :=
  modify fun s => { s with cos := Function.update s.cos i (g (s.cos i)) }

/-- The slot `co_create` takes: the first dead one, with a fresh context. -/
def takeSlot (f : Value) : Exec (Option ℕ) := do
  let s ← get
  match (List.range MAX_COS).find? fun i => (s.cos i).status = .dead with
  | none => pure none
  | some i => do
    set { s with
      threads := Function.update s.threads (i + 1) {}
      cos := Function.update s.cos i { status := .suspended, func := f } }
    pure (some i)

/-- End coroutine `i` when it is suspended. -/
def closeCo (i : ℕ) : Exec CoStatus := do
  let s ← get
  if (s.cos i).status = .suspended then setCo i fun c => { c with status := .dead }
  pure (s.cos i).status

def getMachine : Exec Machine := fun s => .ok s.toMachine s
def setMachine (m : Machine) : Exec Unit := fun s => .ok () { s with toMachine := m }

/-- The operations on the state. -/
def Rec.op (R : Rec) {α : Type} : LuaOp α → Exec α
  | .get => getMachine
  | .set m => setMachine m
  | .buffer n => if n > ARGBUF then throw .buffer else pure ()
  | .call f argc => R.call f argc
  | .runAt ip floor => R.runAt ip floor
  | .tget t k => R.tget t k
  | .tset t k v => R.tset t k v
  | .resume id args => R.resume id args
  | .current => do pure (← get).current
  | .setYield ip want => modify fun s => { s with yieldIp := ip, yieldWant := want }
  | .coCreate f => takeSlot f
  | .coStatus i => do pure ((← get).cos i).status
  | .coClose i => closeCo i

/-- The `Result` of a computation; a fault or the end of the fuel goes on. -/
def catchLua {α : Type} (x : Exec α) : Exec (Except LuaError α) := fun s =>
  match x s with
  | .ok a s' => .ok (.ok a) s'
  | .error (.lua e) s' => .ok (.error e) s'
  | .error e s' => .error e s'

/-- The handler of the interpreter. -/
def Rec.handler (R : Rec) : Effect.Handler LuaOp Exc LuaError Exec where
  op := R.op
  throw e := throw e.toStop
  attempt := catchLua
  throw_bind := fun _ _ => rfl

/-- Run a program of the interpreter. -/
def Rec.exec (R : Rec) {α : Type} (x : LuaM α) : Exec α := Effect.Cmd.exec R.handler x

section Equations
variable {α β : Type} (R : Rec)

@[simp] theorem exec_pure (a : α) : R.exec (pure a) = pure a := rfl

@[simp] theorem exec_bind (x : LuaM α) (f : α → LuaM β) :
    R.exec (x >>= f) = R.exec x >>= fun a => R.exec (f a) := Effect.exec_bind R.handler x f

@[simp] theorem exec_map (f : α → β) (x : LuaM α) : R.exec (f <$> x) = f <$> R.exec x := by
  rw [← bind_pure_comp, exec_bind, ← bind_pure_comp]
  rfl

@[simp] theorem exec_perform (o : LuaOp α) : R.exec (.perform o) = R.op o :=
  Effect.exec_perform R.handler o

@[simp] theorem exec_get : R.exec (get : LuaM Machine) = getMachine := exec_perform R .get

@[simp] theorem exec_set (m : Machine) : R.exec (set m : LuaM PUnit) = setMachine m :=
  exec_perform R (.set m)

@[simp] theorem exec_modify (f : Machine → Machine) :
    R.exec (modify f : LuaM PUnit) = getMachine >>= fun m => setMachine (f m) := rfl

@[simp] theorem exec_throw (e : Exc) : R.exec (.throw e : LuaM α) = throw e.toStop := rfl

@[simp] theorem exec_raise (e : LuaError) : R.exec (raise e : LuaM α) = throw (.lua e) := rfl

@[simp] theorem exec_err (m : String) : R.exec (err m : LuaM α) = throw (.lua (.msg m)) := rfl

@[simp] theorem exec_fault (f : Fault) : R.exec (fault f : LuaM α) = throw (.fault f) := rfl

@[simp] theorem exec_attempt (x : LuaM α) : R.exec (attempt x) = catchLua (R.exec x) :=
  Effect.exec_try R.handler x

@[simp] theorem exec_ite (c : Prop) [Decidable c] (x y : LuaM α) :
    R.exec (if c then x else y) = if c then R.exec x else R.exec y := by split <;> rfl

@[simp] theorem pure_apply (a : α) (s : LuaState) : (pure a : Exec α) s = .ok a s := rfl

@[simp] theorem getMachine_apply (s : LuaState) : getMachine s = .ok s.toMachine s := rfl

@[simp] theorem setMachine_apply (m : Machine) (s : LuaState) :
    setMachine m s = .ok () { s with toMachine := m } := rfl

@[simp] theorem get_apply (s : LuaState) : (get : Exec LuaState) s = .ok s s := rfl

@[simp] theorem set_apply (t s : LuaState) : (set t : Exec PUnit) s = .ok ⟨⟩ t := rfl

@[simp] theorem modify_apply (f : LuaState → LuaState) (s : LuaState) :
    (modify f : Exec PUnit) s = .ok ⟨⟩ (f s) := rfl

@[simp] theorem throw_apply (e : Stop) (s : LuaState) : (throw e : Exec α) s = .error e s := rfl

/-- Go on with the result of `x` where it has one. -/
theorem bind_apply (x : Exec α) (f : α → Exec β) (s : LuaState) :
    (x >>= f) s = match x s with | .ok a s' => f a s' | .error e s' => .error e s' := by
  simp only [bind, EStateM.bind]
  cases x s <;> rfl

theorem map_apply (x : Exec α) (f : α → β) (s : LuaState) :
    (f <$> x) s = match x s with | .ok a s' => .ok (f a) s' | .error e s' => .error e s' := by
  rw [← bind_pure_comp, bind_apply]
  rfl

theorem bind_ok {x : Exec α} {s s' : LuaState} {a : α} (h : x s = .ok a s') (f : α → Exec β) :
    (x >>= f) s = f a s' := by rw [bind_apply, h]

theorem bind_error {x : Exec α} {s s' : LuaState} {e : Stop} (h : x s = .error e s')
    (f : α → Exec β) : (x >>= f) s = .error e s' := by rw [bind_apply, h]

/-- A sequence that has a result has one at its first part. -/
theorem bind_eq_ok {x : Exec α} {f : α → Exec β} {s s' : LuaState} {b : β} :
    (x >>= f) s = .ok b s' ↔ ∃ a t, x s = .ok a t ∧ f a t = .ok b s' := by
  rw [bind_apply]
  cases h : x s with
  | ok a t => exact ⟨fun h' => ⟨a, t, rfl, h'⟩, by rintro ⟨_, _, h1, h2⟩; cases h1; exact h2⟩
  | error e t => exact ⟨fun h' => (nomatch h'), by rintro ⟨_, _, h1, -⟩; cases h1⟩

/-- The computation has a result from every state. -/
def Total (x : Exec α) : Prop := ∀ s, ∃ a t, x s = .ok a t

theorem Total.bind {x : Exec α} {f : α → Exec β} (hx : Total x) (hf : ∀ a, Total (f a)) :
    Total (x >>= f) := by
  intro s
  obtain ⟨a, t, h⟩ := hx s
  rw [bind_ok h]
  exact hf a t

theorem Total.pure (a : α) : Total (Pure.pure a : Exec α) := fun s => ⟨a, s, rfl⟩

theorem total_modify (f : LuaState → LuaState) : Total (modify f : Exec PUnit) :=
  fun s => ⟨⟨⟩, f s, rfl⟩

theorem total_get : Total (get : Exec LuaState) := fun s => ⟨s, s, rfl⟩

theorem total_closeCo (i : ℕ) : Total (closeCo i) := by
  refine total_get.bind fun s => ?_
  split
  · exact (total_modify _).bind fun _ => .pure _
  · exact .pure _

theorem total_set (t : LuaState) : Total (set t : Exec PUnit) := fun _ => ⟨⟨⟩, t, rfl⟩

theorem total_takeSlot (f : Value) : Total (takeSlot f) := by
  refine total_get.bind fun s => ?_
  split
  · exact .pure _
  · exact (total_set _).bind fun _ => .pure _

end Equations

/-! ### Stacks -/

/-- Set the pointer of a stack to `n`. -/
def resize {α : Type} (n : ℕ) (x : α) (l : List α) : List α :=
  if n ≤ l.length then l.drop (l.length - n) else List.replicate (n - l.length) x ++ l

theorem resize_length {α : Type} (n : ℕ) (x : α) (l : List α) : (resize n x l).length = n := by
  unfold resize
  split_ifs with h
  · simp only [List.length_drop]; omega
  · simp only [List.length_append, List.length_replicate]; omega

theorem resize_append {α : Type} (x : α) (a b : List α) : resize b.length x (a ++ b) = b := by
  simp [resize]

@[simp] theorem resize_self {α : Type} (x : α) (l : List α) : resize l.length x l = l := by
  simp [resize]

theorem resize_sub {α : Type} (x : α) {n : ℕ} {l : List α} (h : n ≤ l.length) :
    resize (l.length - n) x l = l.drop n := by
  unfold resize
  rw [if_pos (Nat.sub_le _ _)]
  congr 1
  omega

@[simp] theorem resize_behind {α : Type} (n : ℕ) (x : α) (a l : List α) :
    resize n x (a ++ resize n x l) = resize n x l := by
  have h := resize_append x a (resize n x l)
  rwa [resize_length] at h

/-- Change the first entry that satisfies `p`. -/
def updateFirst {α : Type} (p : α → Bool) (g : α → α) : List α → List α
  | [] => []
  | a :: as => if p a then g a :: as else a :: updateFirst p g as

/-- Position `i` (from the bottom) of a stack with its top at the head. -/
def at? {α : Type} (l : List α) (i : ℕ) : Option α :=
  if i < l.length then l[l.length - 1 - i]? else none

/-- The entries of a stack in the order they were pushed. -/
theorem at?_reverse_append {α : Type} (xs rest : List α) {j : ℕ} (h : j < xs.length) :
    at? (xs.reverse ++ rest) (rest.length + j) = xs[j]? := by
  have hlt : rest.length + j < (xs.reverse ++ rest).length := by
    rw [List.length_append, List.length_reverse]
    omega
  have hidx : (xs.reverse ++ rest).length - 1 - (rest.length + j) = xs.length - 1 - j := by
    rw [List.length_append, List.length_reverse]
    omega
  rw [at?, if_pos hlt, hidx, List.getElem?_append_left (by rw [List.length_reverse]; omega),
    List.getElem?_reverse (by omega)]
  congr 1
  omega

/-- `vsp`. -/
def Machine.vsp (s : Machine) : ℕ := s.vstack.length
/-- `fsp`. -/
def Machine.fsp (s : Machine) : ℕ := s.frames.length
/-- `mark_sp`. -/
def Machine.markSp (s : Machine) : ℕ := s.callMarks.length
/-- `ncode`. -/
def Machine.ncode (s : Machine) : ℕ := s.code.length

/-- `s.vsp = n`. -/
def setVsp (n : ℕ) : LuaM Unit := modify fun s => { s with vstack := resize n .nil s.vstack }
/-- `s.fsp = n`. -/
def setFsp (n : ℕ) : LuaM Unit := modify fun s => { s with frames := resize n {} s.frames }
/-- `s.mark_sp = n`. -/
def setMarkSp (n : ℕ) : LuaM Unit := modify fun s => { s with callMarks := resize n 0 s.callMarks }

/-- `push_val`. -/
def pushVal (v : Value) : LuaM Unit := do
  let s ← get
  if s.vsp ≥ STACK_CAP then err "stack overflow"
  else set { s with vstack := v :: s.vstack }

/-- Push the values in order. -/
def pushVals : List Value → LuaM Unit
  | [] => pure ()
  | v :: vs => do pushVal v; pushVals vs

/-- `pop`: the top of the operand stack. -/
def pop : LuaM Value := do
  let s ← get
  match s.vstack with
  | [] => fault .stack
  | v :: vs => do set { s with vstack := vs }; pure v

/-- The value at position `i`. -/
def vstackAt (i : ℕ) : LuaM Value := do orFault .stack (at? (← get).vstack i)

/-- The top `n` values, in push order. -/
def topVals (n : ℕ) : LuaM (List Value) := do
  let s ← get
  if n ≤ s.vsp then pure (s.vstack.take n).reverse else fault .stack

/-- Direct writes of `vs` at `base`, `base + 1`, ...; `vsp` ends behind them.
An index of `STACK_CAP` or more is out of range. -/
def placeVals (base : ℕ) (vs : List Value) : LuaM Unit := do
  if base + vs.length ≤ STACK_CAP then
    setVsp base
    modify fun s => { s with vstack := vs.reverse ++ s.vstack }
  else fault .stack

/-- `vs` with `nil`s up to `n`, or cut to `n`. -/
def padTo (n : ℕ) (vs : List Value) : List Value :=
  if n = WANT_ALL then vs else vs.take n ++ List.replicate (n - vs.length) .nil

/-! ### String arena -/

/-- `str_bytes`. -/
def Heap.strBytes (h : Heap) (r : StrRef) : List UInt8 :=
  ((h.strregs.find? fun reg => strref reg.1 reg.2.length = r).map (·.2)).getD []

/-- `intern` on the heap: the reference, and the heap with the string in it. -/
def Heap.intern (h : Heap) (b : List UInt8) : Except String (StrRef × Heap) :=
  match h.strregs.find? fun reg => reg.2 = b with
  | some reg => .ok (strref reg.1 reg.2.length, h)
  | none =>
    if h.strregs.length ≥ MAX_STRINGS then .error "too many strings"
    else if h.strNext + b.length > STR_CAP then .error "string overflow"
    else .ok (strref h.strNext b.length,
      { h with strregs := h.strregs ++ [(h.strNext, b)], strNext := h.strNext + b.length })

/-- `m.as_bytes()`. -/
def bytesOf (m : String) : List UInt8 := m.toUTF8.data.toList

def setHeap (h : Heap) : LuaM Unit := modify fun s => { s with toHeap := h }

/-- `intern`. -/
def intern (b : List UInt8) : LuaM StrRef := do
  match (← get).toHeap.intern b with
  | .ok (r, h) => do setHeap h; pure r
  | .error m => err m

/-- `emit_bytes`. -/
def emitBytes (b : List UInt8) : LuaM Unit := modify fun s => { s with out := s.out ++ b }

/-! ### Frames and variables -/

/-- `push_frame`: a frame with the given bookkeeping. -/
def pushFrame (f : Frame) : LuaM Unit := do
  let s ← get
  if s.fsp ≥ MAX_FRAMES then err "call stack overflow"
  else set { s with frames := f :: s.frames }

/-- `pop_frame`. -/
def popFrame : LuaM Unit := modify fun s => { s with frames := s.frames.tail }

/-- The frame `fsp - 1`. -/
def topFrame : LuaM Frame := do
  match (← get).frames with
  | [] => fault .frames
  | f :: _ => pure f

/-- Write the frame `fsp - 1`. -/
def setTopFrame (f : Frame) : LuaM Unit := do
  match (← get).frames with
  | [] => fault .frames
  | _ :: fs => modify fun s => { s with frames := f :: fs }

/-- `declare_local`. -/
def declareLocal (name : StrRef) (v : Value) : LuaM Unit := do
  match (← get).frames with
  | [] => err "no active scope"
  | f :: fs =>
    if f.locals.length ≥ MAX_LOCALS then err "too many locals"
    else modify fun s => { s with frames := { f with locals := f.locals ++ [⟨name, v, NO_CELL⟩] } :: fs }

/-- The first local called `name`. -/
def Frame.find (f : Frame) (name : StrRef) : Option Local := f.locals.find? fun l => l.name = name

/-- Change the first local called `name`. -/
def Frame.update (f : Frame) (name : StrRef) (g : Local → Local) : Frame :=
  { f with locals := updateFirst (fun l => l.name = name) g f.locals }

/-- The closure a frame runs. -/
def Machine.closureOf (s : Machine) (f : Frame) : Option ClosureDef :=
  if f.closure = NO_CLOSURE then none else s.closures[f.closure]?

/-- The value of a cell. -/
def Machine.cellValue (s : Machine) (cell : ℕ) : Value := s.cells[cell]?.getD .nil

/-- The value of a local. -/
def Machine.localValue (s : Machine) (l : Local) : Value :=
  if l.cell = NO_CELL then l.value else s.cellValue l.cell

/-- `alloc_cell`. -/
def allocCell (v : Value) : LuaM ℕ := do
  let s ← get
  if s.cells.length ≥ MAX_CELLS then err "too many captured variables"
  else do set { s with cells := s.cells ++ [v] }; pure s.cells.length

/-- `set_local_top`. -/
def setLocalTop (name : StrRef) (v : Value) : LuaM Unit := do
  match (← get).frames with
  | [] => err "no active scope"
  | f :: fs =>
    match f.find name with
    | some l =>
      if l.cell = NO_CELL then
        modify fun s => { s with frames := f.update name (fun l => { l with value := v }) :: fs }
      else modify fun s => { s with cells := s.cells.set l.cell v }
    | none => declareLocal name v

/-- `set_local_top_cell`: a fresh cell for the captured loop variable. -/
def setLocalTopCell (name : StrRef) (v : Value) : LuaM Unit := do
  match (← get).frames with
  | [] => err "no active scope"
  | f :: fs =>
    let cell ← allocCell v
    match f.find name with
    | some _ => modify fun s => { s with frames := f.update name (fun l => { l with cell := cell }) :: fs }
    | none =>
      if f.locals.length ≥ MAX_LOCALS then err "too many locals"
      else modify fun s => { s with frames := { f with locals := f.locals ++ [⟨name, .nil, cell⟩] } :: fs }

/-- What a name stands for in the running function: a local of one of its
frames (the frame's position from the top), or an upvalue of its closure. -/
inductive Place where
  | local (depth : ℕ) (l : Local)
  | upvalue (up : UpEntry)
deriving DecidableEq, Inhabited

/-- The search all variable accesses share: the frames from the innermost out,
each from its first local on, up to the function frame and its closure. -/
def Machine.findPlace (s : Machine) (name : StrRef) : List Frame → ℕ → Option Place
  | [], _ => none
  | f :: fs, d =>
    match f.find name with
    | some l => some (.local d l)
    | none =>
      if f.retIp ≠ 0 then
        ((s.closureOf f).bind fun c => c.ups.find? fun up => up.name = name).map .upvalue
      else s.findPlace name fs (d + 1)

/-- The value of a global. -/
def Heap.globalValue (h : Heap) (name : StrRef) : Option Value := h.globals.lookup name

/-- `lookup`. -/
def Machine.lookup (s : Machine) (name : StrRef) : Option Value :=
  match s.findPlace name s.frames 0 with
  | some (.local _ l) => some (s.localValue l)
  | some (.upvalue up) => some (if up.cell = NO_CELL then .nil else s.cellValue up.cell)
  | none => s.globalValue name

/-- `assign_local`: whether the name is a local or an upvalue, which then gets
the value. -/
def assignLocal (name : StrRef) (v : Value) : LuaM Bool := do
  let s ← get
  match s.findPlace name s.frames 0 with
  | some (.local d l) =>
    if l.cell = NO_CELL then
      set { s with frames := s.frames.modify d (·.update name fun l => { l with value := v }) }
    else set { s with cells := s.cells.set l.cell v }
    pure true
  | some (.upvalue up) =>
    if up.cell ≠ NO_CELL then set { s with cells := s.cells.set up.cell v }
    pure true
  | none => pure false

/-- `set_global` on the heap: a new name is dropped when there is no room. -/
def Heap.setGlobal (h : Heap) (name : StrRef) (v : Value) : Heap :=
  if h.globals.any (·.1 = name) then
    { h with globals := updateFirst (fun g => g.1 = name) (fun g => (g.1, v)) h.globals }
  else if h.globals.length < MAX_GLOBALS then { h with globals := h.globals ++ [(name, v)] }
  else h

/-- `set_global`. -/
def setGlobal (name : StrRef) (v : Value) : LuaM Unit :=
  modify fun s => { s with toHeap := s.toHeap.setGlobal name v }

/-- `assign_local`, then `set_global` where there is none. -/
def assignVar (name : StrRef) (v : Value) : LuaM Unit := do
  if ← assignLocal name v then pure () else setGlobal name v

/-- `alloc_closure`. -/
def allocClosure (func : ℕ) : LuaM ℕ := do
  let s ← get
  if s.closures.length ≥ MAX_CLOSURES then err "too many closures"
  else do set { s with closures := s.closures ++ [ClosureDef.mk func []] }; pure s.closures.length

/-- `find_or_box_local_cell`: the cell of a local of the running function,
made when it has none yet. -/
def findOrBoxLocalCell (name : StrRef) : LuaM (Option ℕ) := do
  let s ← get
  match s.findPlace name s.frames 0 with
  | some (.local d l) =>
    if l.cell ≠ NO_CELL then pure (some l.cell)
    else do
      let cell ← allocCell l.value
      modify fun s => { s with frames := s.frames.modify d (·.update name fun l => { l with cell := cell }) }
      pure (some cell)
  | _ => pure none

/-- `closure_up_cell`: the cell of an upvalue of the running closure. -/
def Machine.closureUpCell (s : Machine) (name : StrRef) : Option ℕ := do
  let f ← s.frames.find? fun f => f.retIp ≠ 0
  let c ← s.closureOf f
  let up ← c.ups.find? fun up => up.name = name
  pure up.cell

end Lua
end Rustrapper
