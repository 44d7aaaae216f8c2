/-
# The bytecode compiler

`vm.rs`, `Compiler`: statements and expressions to a flat instruction list,
appended to the code of the chunks before it. Forward jumps are emitted with
target 0 and patched; a loop's `break`s are patched at its end, a `goto` when
its function is done. Function bodies wait in `pending` until the chunk that
mentions them is done (`compile`).
-/
import Rustrapper.Lua.Parse

namespace Rustrapper
namespace Lua

def MAX_FIXUPS : ℕ := 256
def MAX_LABELS : ℕ := 256
def MAX_LOOPS : ℕ := 8
def MAX_LOOP_ENDS : ℕ := 16

/-- A loop being compiled: the scope depth outside of it, and its `break`s. -/
structure LoopCtx where
  scope : ℕ
  ends : List ℕ
deriving DecidableEq, Inhabited

/-- The compiler, with the program it adds to. Loops and pending functions have
the newest first. -/
structure Compiler where
  labels : List (ℕ × ℕ × ℕ) := []
  fixups : List (ℕ × ℕ × ℕ) := []
  loops : List LoopCtx := []
  scope : ℕ := 0
  pending : List ℕ := []
  compiled : List ℕ := []
  chunks : Chunks

abbrev CompM := EStateM Exc Compiler

def cerr {α : Type} (m : String) : CompM α := throw (.lua (.msg m))

/-- `emit`: the position of the instruction. -/
def emit (i : Instr) : CompM ℕ := do
  let c ← get
  if c.chunks.code.length ≥ MAX_CODE then cerr "script too complex (code overflow)"
  else do
    set { c with chunks := { c.chunks with code := c.chunks.code ++ [i] } }
    pure c.chunks.code.length

/-- `emit` where the position is not needed. -/
def emit_ (i : Instr) : CompM Unit := do let _ ← emit i; pure ()

/-- `s.ncode`. -/
def here : CompM ℕ := do pure (← get).chunks.code.length

/-- Change the instruction at `ip`. -/
def modifyInstr (ip : ℕ) (g : Instr → Instr) : CompM Unit :=
  modify fun c => { c with chunks := { c.chunks with code := c.chunks.code.modify ip g } }

/-- `s.code[ip].a = target`. -/
def patchA (ip target : ℕ) : CompM Unit := modifyInstr ip (·.setA target)

/-- `push_scope`. -/
def pushScope : CompM Unit := do
  if (← get).scope ≥ MAX_FRAMES then cerr "too many nested blocks"
  emit_ .pushScope
  modify fun c => { c with scope := c.scope + 1 }

/-- `pop_scope`. -/
def popScope : CompM Unit := do
  emit_ .popScope
  modify fun c => { c with scope := c.scope - 1 }

/-- `begin_loop`. -/
def beginLoop (scope : ℕ) : CompM Unit := do
  let c ← get
  if c.loops.length ≥ MAX_LOOPS then cerr "too many nested loops"
  else set { c with loops := ⟨scope, []⟩ :: c.loops }

/-- `emit_break`. -/
def emitBreak : CompM Unit := do
  let c ← get
  match c.loops with
  | [] => cerr "break outside loop"
  | l :: ls =>
    let ip ← emit (.jumpScopes 0 (c.scope - l.scope))
    if l.ends.length ≥ MAX_LOOP_ENDS then cerr "too many breaks in a loop"
    modify fun c => { c with loops := { l with ends := l.ends ++ [ip] } :: ls }

/-- Patch every position of a list. -/
def patchAll (target : ℕ) : List ℕ → CompM Unit
  | [] => pure ()
  | ip :: ips => do patchA ip target; patchAll target ips

/-- `end_loop`. -/
def endLoop (target : ℕ) : CompM Unit := do
  let c ← get
  match c.loops with
  | [] => throw (.fault .index)
  | l :: ls => do
    set { c with loops := ls }
    patchAll target l.ends

/-- `record_label` of `vm.rs`. -/
def recordLabelAt (node : ℕ) : CompM Unit := do
  let c ← get
  if c.labels.length ≥ MAX_LABELS then cerr "too many labels"
  else set { c with labels := c.labels ++ [(node, c.chunks.code.length, c.scope)] }

/-- `add_fixup`. -/
def addFixup (ip node depth : ℕ) : CompM Unit := do
  let c ← get
  if c.fixups.length ≥ MAX_FIXUPS then cerr "too many gotos"
  else set { c with fixups := c.fixups ++ [(ip, node, depth)] }

/-- The fixups of `resolve_fixups`, in order. The depths are `u8`s and their
difference wraps. -/
def resolveFixupList : List (ℕ × ℕ × ℕ) → CompM Unit
  | [] => pure ()
  | (ip, node, depth) :: fs => do
    match (← get).labels.lookup node with
    | some (target, labelDepth) =>
      modifyInstr ip fun i => (i.setA target).setB ((depth + 256 - labelDepth) % 256)
    | none => cerr "unknown label"
    resolveFixupList fs

/-- `resolve_fixups`. -/
def resolveFixups : CompM Unit := do resolveFixupList (← get).fixups

/-- `compile_func_value`. -/
def compileFuncValue (fi : ℕ) : CompM Unit := do
  let c ← get
  if fi ∉ c.compiled then
    if c.pending.length ≥ MAX_FUNCS then cerr "too many functions"
    set { c with compiled := fi :: c.compiled, pending := fi :: c.pending }
  match c.chunks.funcs[fi]? with
  | none => throw (.fault .index)
  | some fd => if fd.upNames.length > 0 then emit_ (.makeClosure fi) else emit_ (.loadFunc fi)

/-- Emit an instruction `n` times. -/
def emitN (i : Instr) : ℕ → CompM Unit
  | 0 => pure ()
  | n + 1 => do emit_ i; emitN i n

/-- A value that is not a call's, made `want` values. -/
def padWant (want : ℕ) : CompM Unit :=
  if want = 0 then emit_ .pop
  else if want ≠ 1 ∧ want ≠ WANT_ALL then emitN .pushNil (want - 1)
  else pure ()

/-- Whether a call's last argument expands. -/
def isDynamic (args : List Expr) : Bool := (args.getLast?.map (·.isCall)).getD false

mutual

/-- `compile_expr`: leaves `want` values on the operand stack (`WANT_ALL`:
every result of a call, one value otherwise). -/
def compileExpr : Expr → ℕ → CompM Unit
  | .call f args, want => do
    if isDynamic args then emit_ .mark
    compileExpr f 1
    let argc ← compileArgs args 0
    emit_ (.call (if isDynamic args then WANT_ALL else argc) want)
  | .nil, want => do emit_ (.pushConst .nil); padWant want
  | .true, want => do emit_ (.pushConst (.bool true)); padWant want
  | .false, want => do emit_ (.pushConst (.bool false)); padWant want
  | .num n, want => do emit_ (.pushConst (.num n)); padWant want
  | .float f, want => do emit_ (.pushConst (.float f)); padWant want
  | .str r, want => do emit_ (.pushConst (.str r)); padWant want
  | .var name, want => do emit_ (.getVar name); padWant want
  | .bin op l r, want => do
    if op = .and then
      compileExpr l 1
      let j ← emit (.jumpIfFalseKeep 0)
      compileExpr r 1
      patchA j (← here)
    else if op = .or then
      compileExpr l 1
      let j ← emit (.jumpIfTrueKeep 0)
      compileExpr r 1
      patchA j (← here)
    else
      compileExpr l 1
      compileExpr r 1
      emit_ (.binOp op)
    padWant want
  | .un op x, want => do
    compileExpr x 1
    emit_ (.unOp op)
    padWant want
  | .index base key, want => do
    compileExpr base 1
    compileExpr key 1
    emit_ .getIndex
    padWant want
  | .funcLit fi, want => do
    compileFuncValue fi
    padWant want
  | .tableLit fields, want => do
    emit_ .newTable
    compileFields fields
    padWant want

/-- The arguments of `compile_call`, the last one with all its values; the
result is their number. -/
def compileArgs : List Expr → ℕ → CompM ℕ
  | [], argc => pure argc
  | a :: rest, argc => do
    compileExpr a (if rest.isEmpty then WANT_ALL else 1)
    if argc + 1 > 32 then cerr "too many arguments"
    compileArgs rest (argc + 1)

/-- The fields of a table literal. -/
def compileFields : List (Expr × Expr) → CompM Unit
  | [] => pure ()
  | (k, v) :: rest => do
    emit_ .dup
    compileExpr k 1
    compileExpr v 1
    emit_ .setIndex
    compileFields rest

end

/-- How an assignment target is written at run time. -/
def targetOf : Expr → Target
  | .var name => .var name
  | .index .. => .index
  | _ => .other

/-- The prefixes of the index targets, evaluated before the value. -/
def compileTargets : List Expr → CompM Unit
  | [] => pure ()
  | .index base key :: ts => do
    compileExpr base 1
    compileExpr key 1
    compileTargets ts
  | _ :: ts => compileTargets ts

/-- Leave every block of the function, then return. -/
def compileReturn (n : ℕ) : CompM Unit := do
  emitN .popScope (← get).scope
  emit_ (.ret n)

mutual

/-- `compile_stmt`. -/
def compileStmt : Stmt → CompM Unit
  | .localDecl names val => do
    compileExpr val names.length
    emit_ (.declareLocal names names.length)
  | .localFunc name fi => do
    emit_ .pushNil
    emit_ (.declareLocal [name] 1)
    compileFuncValue fi
    emit_ (.setVar name)
  | .globalDecl name val => do
    match val with
    | some e => compileExpr e 1
    | none => emit_ .pushNil
    emit_ (.setGlobal name)
  | .assignStmt targets val => do
    compileTargets targets
    compileExpr val targets.length
    emit_ (.assignMulti (targets.map targetOf) targets.length)
  | .callStmt e => do
    compileExpr e 1
    emit_ .stmtCheck
  | .exprStmt e => do
    compileExpr e 1
    emit_ .print
  | .ifStmt cond thenB els => do
    compileExpr cond 1
    let jf ← emit (.jumpIfFalse 0)
    pushScope
    compileChain thenB
    popScope
    let jend ← emit (.jump 0)
    patchA jf (← here)
    if !els.isEmpty then
      pushScope
      compileChain els
      popScope
    patchA jend (← here)
  | .whileStmt cond body => do
    let loopIp ← here
    compileExpr cond 1
    let jf ← emit (.jumpIfFalse 0)
    beginLoop (← get).scope
    pushScope
    compileChain body
    popScope
    emit_ (.jump loopIp)
    let target ← here
    patchA jf target
    endLoop target
  | .repeatStmt body cond => do
    let loopIp ← here
    beginLoop (← get).scope
    pushScope
    compileChain body
    compileExpr cond 1
    popScope
    emit_ (.jumpIfFalse loopIp)
    let target ← here
    endLoop target
  | .forStmt captured var start limit step body => do
    pushScope
    compileExpr start 1
    compileExpr limit 1
    match step with
    | some e => compileExpr e 1
    | none => emit_ (.pushInt 1)
    let prep ← emit (.forPrep captured 0 var)
    let bodyIp ← here
    beginLoop ((← get).scope - 1)
    pushScope
    compileChain body
    popScope
    emit_ (.forLoop captured bodyIp var)
    let forEnd ← here
    popScope
    patchA prep forEnd
    let target ← here
    endLoop target
  | .forInStmt captured kvar vvar table body => do
    pushScope
    compileExpr table 2
    emit_ .forInPrep
    let loopIp ← here
    let next ← emit (.forInNext 0)
    match vvar with
    | some v => emit_ (if captured then .setLocalTopCell v else .setLocalTop v)
    | none => emit_ .pop
    emit_ (if captured then .setLocalTopCell kvar else .setLocalTop kvar)
    beginLoop ((← get).scope - 1)
    pushScope
    compileChain body
    popScope
    emit_ (.forInAdvance loopIp)
    let forEnd ← here
    popScope
    patchA next forEnd
    let target ← here
    endLoop target
  | .breakStmt => emitBreak
  | .label node _ => recordLabelAt node
  | .goto node => do
    let c ← get
    let ip ← emit (.jumpScopes 0 0)
    addFixup ip (c.chunks.gotoTarget node) c.scope
  | .returnStmt none => compileReturn 0
  | .returnStmt (some v) => do
    if v.isCall then
      compileExpr v WANT_ALL
      compileReturn WANT_ALL
    else
      compileExpr v 1
      compileReturn 1

/-- `compile_chain`. -/
def compileChain : Block → CompM Unit
  | [] => pure ()
  | st :: rest => do
    compileStmt st
    compileChain rest

end

/-- One function body, or the script: its chain, a `Return`, its gotos. -/
def compileBody (body : Block) : CompM Unit := do
  compileChain body
  emit_ (.ret 0)
  resolveFixups

/-- The pending functions; a function is queued once, so the fuel is their
number. -/
def compilePending : ℕ → CompM Unit
  | 0 => do if (← get).pending.isEmpty then pure () else throw .fuel
  | n + 1 => do
    let c ← get
    match c.pending with
    | [] => pure ()
    | fi :: rest =>
      match c.chunks.funcs[fi]? with
      | none => throw (.fault .index)
      | some fd =>
        set { c with
          pending := rest, labels := [], fixups := [], loops := [], scope := 0
          chunks := { c.chunks with
            funcs := c.chunks.funcs.set fi { fd with entry := c.chunks.code.length } } }
        compileBody fd.body
        compilePending n

/-- `compile` as a computation of the compiler: the entry of the script. -/
def compileScript (first : Block) : CompM ℕ := do
  let entry ← here
  compileBody first
  compilePending MAX_FUNCS
  pure entry

/-- `compile`. -/
def compile (first : Block) : LuaM ℕ := do
  let s ← get
  match compileScript first { chunks := s.toChunks } with
  | .ok entry c => do
    set { s with toChunks := c.chunks }
    pure entry
  | .error e c => do
    set { s with toChunks := c.chunks }
    .throw e

end Lua
end Rustrapper
