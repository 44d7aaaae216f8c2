/-
# The virtual machine

`run_at` of `vm.rs`: one instruction at a time (`execInstr`), errors caught at
the innermost protected frame at or above the floor (`unwindProtected`). A
step counts towards the step limit when its instruction neither failed nor
ended the run.

`interp` closes the recursion of the interpreter: `interp L n` is the machine
that may nest and loop `n` deep, and `interp L 0` gives up with `Exc.fuel`.
-/
import Rustrapper.Lua.Call

namespace Rustrapper
namespace Lua

/-- What an instruction does to its run. -/
inductive Next where
  | goto (ip : ℕ)
  | halt (r : ExecResult)
deriving DecidableEq, Inhabited

/-- Where a caught error leads. -/
inductive Unwind where
  | resume (ip : ℕ)
  | control (r : ExecResult)
  | propagate
deriving DecidableEq, Inhabited

/-! ### Results -/

/-- Direct writes of `vs` at `base`, then made `want` values. -/
def placeWant (base want : ℕ) (vs : List Value) : LuaM Unit := do
  placeVals base vs
  placeVals base (padTo want vs)

/-- `result_from_stack` on the values it reads. -/
def resultOf : List Value → ExecResult
  | [] => .normal
  | [a] => .ret a
  | [a, b] => .ret2 a b
  | vs => .retN vs.length

/-- The values on the stack from `base` on. -/
def valsFrom (base : ℕ) : LuaM (List Value) := do
  let s ← get
  if s.vsp < base then fault .stack else topVals (s.vsp - base)

/-- `finish_pcall`. -/
def finishPcall (base want : ℕ) (r : ExecResult) : LuaM Unit := do
  let n ← match r with
    | .ret v => do pushVal v; pure 1
    | .ret2 a b => do pushVals [a, b]; pure 2
    | .retN k => pure k
    | _ => pure 0
  let vs ← valsAt (base + 1) n
  placeWant base want (.bool true :: vs)
  popFrame

/-! ### Calls -/

/-- Enter a function of the program at its first instruction. -/
def enterFunc (fi argc base argsOffset ret want closure : ℕ) : LuaM Next := do
  setupFuncFrame fi argc base argsOffset ret want closure
  pure (.goto (← funcDef fi).entry)

/-- A protected call of `f` on the `argc` arguments at `base + 1`. -/
def protectedCall (ip want base : ℕ) (f : Value) (handler : Option Value) (argc : ℕ) :
    LuaM Next := do
  pushFrame { retIp := ip, want := want, base := base, isProtected := true, errHandler := handler,
              markSp := (← get).markSp }
  match ← callee f with
  | some (fi, ci) => enterFunc fi argc (base + 1) 0 RET_PCALL WANT_ALL ci
  | none =>
    match ← doCall f argc with
    | .shell => do popFrame; pure (.halt .shell)
    | .exit => do popFrame; pure (.halt .exit)
    | .yield _ => err "attempt to yield across a protected call"
    | r => do finishPcall base want r; pure (.goto ip)

/-- The results of a call that ran no frame of this machine. -/
def finishCall (ip want base : ℕ) (r : ExecResult) : LuaM Next := do
  match r with
  | .yield n => do
    setYield ip want
    pure (.halt (.yield n))
  | .shell => pure (.halt .shell)
  | .exit => pure (.halt .exit)
  | r => do
    match r with
    | .ret v => pushVal v
    | .ret2 a b => pushVals [a, b]
    | _ => pure ()
    normalize base want
    pure (.goto ip)

/-- Where a `Call` finds its callee, and with how many arguments: behind the
last mark when they were counted at run time. -/
def callBase (a : ℕ) : LuaM (ℕ × ℕ) := do
  let s ← get
  if a = WANT_ALL then
    match s.callMarks with
    | [] => err "internal error: missing call mark"
    | base :: marks => do
      set { s with callMarks := marks }
      if s.vsp < base + 1 then fault .stack
      pure (base, s.vsp - base - 1)
  else do
    if s.vsp < a + 1 then fault .stack
    pure (s.vsp - a - 1, a)

/-- `Call`: the arguments move down over the callee, unless it is a function
of the program. -/
def execCall (ip a want : ℕ) : LuaM Next := do
  let (base, argc) ← callBase a
  let fv ← vstackAt base
  match ← callee fv with
  | some (fi, ci) => enterFunc fi argc base 1 ip want ci
  | none => do
    let args ← valsAt (base + 1) argc
    match fv, args with
    | .native 15, [] => err "pcall expects at least 1 argument"
    | .native 15, f :: rest => do
      placeVals base (f :: rest)
      protectedCall ip want base f none rest.length
    | .native 26, f :: h :: rest => do
      placeVals base (f :: rest)
      protectedCall ip want base f (some h) rest.length
    | .native 26, _ => err "xpcall expects at least 2 arguments"
    | fv, args => do
      placeVals base args
      finishCall ip want base (← doCall fv argc)

/-- `Return`. The callee of a protected call finishes it, with `true` before
its results. -/
def execReturn (a : ℕ) : LuaM Next := do
  let f ← topFrame
  let vs ← if a = WANT_ALL then valsFrom f.base else topVals a
  placeWant f.base f.want vs
  popFrame
  if f.retIp = RET_HALT then pure (.halt (resultOf (padTo f.want vs)))
  else if f.retIp = RET_PCALL then do
    let pf ← topFrame
    let vs ← valsFrom (pf.base + 1)
    placeWant pf.base pf.want (.bool true :: vs)
    popFrame
    pure (.goto pf.retIp)
  else pure (.goto f.retIp)

/-! ### Loops -/

/-- Write the loop variable, into a fresh cell when it is captured. -/
def setLoopVar (captured : Bool) (var : StrRef) (v : Value) : LuaM Unit :=
  if captured then setLocalTopCell var v else setLocalTop var v

/-- Whether a counter is past its limit. -/
def numPast (step cur lim : Int64) : Bool := if step ≥ 0 then cur > lim else cur < lim
def floatPast (step cur lim : Float) : Bool := if step ≥ 0.0 then cur > lim else cur < lim

/-- A bound of a numeric `for` that is no integer. -/
def forBound (v : Value) : LuaM Float := do
  match floatOf v with
  | some f => pure f
  | none => err "for loop bound must be a number"

/-- `ForPrep`. -/
def execForPrep (captured : Bool) (ip a : ℕ) (var : StrRef) : LuaM Next := do
  let step ← pop
  let limit ← pop
  let start ← pop
  let (skip, value) ← match start, limit, step with
    | .num x, .num y, .num z => do
      setTopFrame { ← topFrame with ctrl0 := .num x, ctrl1 := .num y, ctrl2 := .num z }
      pure (numPast z x y, Value.num x)
    | x, y, z => do
      let fx ← forBound x
      let fy ← forBound y
      let fz ← forBound z
      setTopFrame { ← topFrame with ctrl0 := .float fx, ctrl1 := .float fy, ctrl2 := .float fz }
      pure (floatPast fz fx fy, Value.float fx)
  if skip then pure (.goto a)
  else do
    setLoopVar captured var value
    pure (.goto ip)

/-- The next value of a loop's counter, while there is one. -/
def forNext (f : Frame) : Option (Option Value) :=
  match f.ctrl0, f.ctrl1, f.ctrl2 with
  | .num cur, .num lim, .num stp =>
    some (if numPast stp (cur + stp) lim then none else some (.num (cur + stp)))
  | .float cur, .float lim, .float stp =>
    some (if floatPast stp (cur + stp) lim then none else some (.float (cur + stp)))
  | _, _, _ => none

/-- `ForLoop`. -/
def execForLoop (captured : Bool) (ip a : ℕ) (var : StrRef) : LuaM Next := do
  let f ← topFrame
  match forNext f with
  | none => err "internal error: bad for control"
  | some none => pure (.goto ip)
  | some (some v) => do
    setTopFrame { f with ctrl0 := v }
    setLoopVar captured var v
    pure (.goto a)

/-- `ForInPrep`. -/
def execForInPrep : LuaM Unit := do
  let second ← pop
  let first ← pop
  let f ← topFrame
  match first, second with
  | .gmatch id, _ => setTopFrame { f with ctrl0 := .gmatch id, ctrl1 := .nil, ctrl2 := .nil }
  | .ioLines id, _ => setTopFrame { f with ctrl0 := .ioLines id, ctrl1 := .nil, ctrl2 := .nil }
  | .table i, _ | .native 3, .table i =>
    setTopFrame { f with ctrl0 := .num (Int64.ofNat i), ctrl1 := .num 0, ctrl2 := .nil }
  | _, _ => err "'for in' requires a table, pairs(t), or gmatch(...)"

/-- A counter of a `for in` frame (`n as usize`). -/
def forInCtrl : Value → LuaM ℕ
  | .num n => pure n.toInt.toNat
  | _ => err "internal error: bad for-in control"

/-- `ForInNext`: two values, or the end of the loop. -/
def execForInNext (L : Lib) (ip a : ℕ) : LuaM Next := do
  let f ← topFrame
  match f.ctrl0 with
  | .gmatch id => do
    let vs ← runProg (L.gmatchAdvance id)
    if vs.isEmpty then pure (.goto a)
    else do
      pushVals vs
      setVsp ((← get).vsp - vs.length + min vs.length 2)
      pushVals (List.replicate (2 - vs.length) .nil)
      pure (.goto ip)
  | .ioLines id => do
    match ← runProg (L.ioLine id STR_CAP) with
    | none | some [] => pure (.goto a)
    | some b => do
      pushVals [.str (← intern b), .nil]
      pure (.goto ip)
  | c => do
    let tid ← forInCtrl c
    let i ← forInCtrl f.ctrl1
    match (← tableRec tid).slots[i]? with
    | none => pure (.goto a)
    | some (k, v) => do
      setTopFrame { f with ctrl2 := k }
      pushVals [k, v]
      pure (.goto ip)

/-- `ForInAdvance`: the position stays when the current entry was removed, for
the next one has shifted in. -/
def execForInAdvance (a : ℕ) : LuaM Next := do
  let f ← topFrame
  match f.ctrl0 with
  | .gmatch _ | .ioLines _ => pure (.goto a)
  | c => do
    let tid ← forInCtrl c
    let i ← forInCtrl f.ctrl1
    match (← tableRec tid).slots[i]? with
    | none => pure ()
    | some (k, _) =>
      if valEq k f.ctrl2 then setTopFrame { f with ctrl1 := .num (Int64.ofNat (i + 1)) }
    pure (.goto a)

/-! ### Variables -/

/-- The writes of `AssignMulti`, from the first target on; `prefixes` are the
base and key of the index targets. -/
def assignTargets : List Target → List Value → List Value → LuaM Unit
  | [], _, _ => pure ()
  | .var name :: ts, vs, prefixes => do
    assignVar name (vs.headD .nil)
    assignTargets ts vs.tail prefixes
  | .index :: ts, vs, base :: key :: prefixes => do
    doTset base key (vs.headD .nil)
    assignTargets ts vs.tail prefixes
  | .index :: _, _, _ => fault .stack
  | .other :: _, _, _ => err "invalid assignment target"

/-- `AssignMulti`. -/
def execAssign (targets : List Target) (count : ℕ) : LuaM Unit := do
  let nidx := targets.countP (· = .index)
  let vs ← topVals (count + 2 * nidx)
  assignTargets targets (vs.drop (2 * nidx)) (vs.take (2 * nidx))
  setVsp ((← get).vsp - (count + 2 * nidx))

/-- The cell an upvalue of a new closure gets: that of a local of the enclosing
function, or an upvalue of the running closure. -/
def captureCell (name : StrRef) : LuaM ℕ := do
  match ← findOrBoxLocalCell name with
  | some c => pure c
  | none => pure (((← get).closureUpCell name).getD NO_CELL)

/-- Fill the upvalues of a new closure, in order. -/
def captureAll (ci : ℕ) : List StrRef → LuaM Unit
  | [] => pure ()
  | n :: ns => do
    let cell ← captureCell n
    modify fun s => { s with
      closures := s.closures.modify ci fun c => { c with ups := c.ups ++ [⟨n, cell⟩] } }
    captureAll ci ns

/-- `MakeClosure`. -/
def execMakeClosure (fi : ℕ) : LuaM Unit := do
  let fd ← funcDef fi
  let ci ← allocClosure fi
  captureAll ci fd.upNames
  pushVal (.closure ci)

/-- `Mark`. -/
def execMark : LuaM Unit := do
  let s ← get
  if s.markSp ≥ MAX_FRAMES then err "call too complex"
  else set { s with callMarks := s.vsp :: s.callMarks }

/-! ### Instructions -/

/-- The value on top of the stack. -/
def topVal : LuaM Value := do
  match (← get).vstack with
  | [] => fault .stack
  | v :: _ => pure v

/-- `pop_frame`, `n` times. -/
def popFrames (n : ℕ) : LuaM Unit := modify fun s => { s with frames := s.frames.drop n }

/-- The rest of a statement made of a call: the values that act. -/
def execStmtCheck (L : Lib) (ip : ℕ) (v : Value) : LuaM Next := do
  match v with
  | .exit => pure (.halt .exit)
  | .shell => pure (.halt .shell)
  | .dhcp => do
    if ← runProg L.dhcp then runProg L.dhcpInfo
    pure (.goto ip)
  | .ls => do lsRun; pure (.goto ip)
  | _ => pure (.goto ip)

/-- One instruction; `ip` is the address behind it. -/
def execInstr (L : Lib) (ip : ℕ) : Instr → LuaM Next
  | .halt => pure (.halt .normal)
  | .pushConst v => do pushVal v; pure (.goto ip)
  | .pushNil => do pushVal .nil; pure (.goto ip)
  | .pushInt a => do pushVal (.num (Int64.ofNat a)); pure (.goto ip)
  | .getVar name => do
    match (← get).lookup name with
    | none => err "undefined variable"
    | some v => do pushVal v; pure (.goto ip)
  | .setVar name => do assignVar name (← pop); pure (.goto ip)
  | .setGlobal name => do setGlobal name (← pop); pure (.goto ip)
  | .setLocalTop name => do setLocalTop name (← pop); pure (.goto ip)
  | .setLocalTopCell name => do setLocalTopCell name (← pop); pure (.goto ip)
  | .declareLocal names count => do
    declareLocals names (← topVals count)
    setVsp ((← get).vsp - count)
    pure (.goto ip)
  | .getIndex => do
    let key ← pop
    let base ← pop
    pushVal (← doTget base key)
    pure (.goto ip)
  | .setIndex => do
    let v ← pop
    let key ← pop
    let base ← pop
    doTset base key v
    pure (.goto ip)
  | .assignMulti targets count => do execAssign targets count; pure (.goto ip)
  | .newTable => do pushVal (.table (← newTable)); pure (.goto ip)
  | .dup => do pushVal (← topVal); pure (.goto ip)
  | .pop => do let _ ← pop; pure (.goto ip)
  | .binOp op => do
    let b ← pop
    let a ← pop
    pushVal (← binop L op a b)
    pure (.goto ip)
  | .unOp op => do
    let v ← pop
    let r ← match op with
      | .not => pure (.bool !(truthy v))
      | .neg => unm v
      | _ => err "internal error: bad unary operator"
    pushVal r
    pure (.goto ip)
  | .jump a => pure (.goto a)
  | .jumpScopes a b => do popFrames b; pure (.goto a)
  | .jumpIfFalse a => do
    if truthy (← pop) then pure (.goto ip) else pure (.goto a)
  | .jumpIfFalseKeep a => do
    if truthy (← topVal) then do
      let _ ← pop
      pure (.goto ip)
    else pure (.goto a)
  | .jumpIfTrueKeep a => do
    if truthy (← topVal) then pure (.goto a)
    else do
      let _ ← pop
      pure (.goto ip)
  | .loadFunc fi => do pushVal (.func fi); pure (.goto ip)
  | .makeClosure fi => do execMakeClosure fi; pure (.goto ip)
  | .mark => do execMark; pure (.goto ip)
  | .call a want => execCall ip a want
  | .ret a => execReturn a
  | .print => do
    tostring L (← pop)
    emitBytes [10]
    pure (.goto ip)
  | .stmtCheck => do execStmtCheck L ip (← pop)
  | .pushScope => do pushFrame {}; pure (.goto ip)
  | .popScope => do popFrame; pure (.goto ip)
  | .forPrep captured a var => execForPrep captured ip a var
  | .forLoop captured a var => execForLoop captured ip a var
  | .forInPrep => do execForInPrep; pure (.goto ip)
  | .forInNext a => execForInNext L ip a
  | .forInAdvance a => execForInAdvance a
  | .yield => err "attempt to yield from outside a coroutine"

/-- Count an instruction that neither failed nor ended the run. -/
def countStep : Next → LuaM Next
  | .halt r => pure (.halt r)
  | .goto ip => do
    modify fun s => { s with steps := s.steps + 1 }
    if (← get).steps > MAX_STEPS then err "step limit exceeded" else pure (.goto ip)

/-- The body of the machine's loop: one instruction, then the step counter. -/
def execStep (L : Lib) (ip : ℕ) (i : Instr) : LuaM Next := do
  countStep (← execInstr L ip i)

/-! ### Protected calls -/

/-- The results of an error handler behind `false`; those of `retN` are on the
stack. -/
def handlerVals : ExecResult → LuaM (List Value)
  | .ret v => pure [.bool false, v]
  | .ret2 a b => pure [.bool false, a, b]
  | .retN k => do
    pushVal (.bool false)
    let vs ← topVals (k + 1)
    pure (.bool false :: vs.take k)
  | _ => pure [.bool false]

/-- `unwind_protected` over the frames below index `i`: the innermost protected
one at `floor` or above catches the error. An error of its handler goes on to
the frames below it. -/
def unwindProtected (floor : ℕ) : ℕ → LuaError → LuaM Unwind
  | 0, _ => pure .propagate
  | i + 1, e => do
    if i < floor then pure .propagate
    else do
      let f ← orFault .frames (at? (← get).frames i)
      if !f.isProtected then unwindProtected floor i e
      else do
        let v ← errorValue e
        setFsp i
        setVsp f.base
        setMarkSp f.markSp
        match f.errHandler with
        | none => do
          pushVal (.bool false)
          pushVal v
          normalize f.base f.want
          pure (.resume f.retIp)
        | some h => do
          pushVal v
          match ← attempt (doCall h 1) with
          | .error e => do
            setFsp i
            setVsp f.base
            unwindProtected floor i e
          | .ok .shell => pure (.control .shell)
          | .ok .exit => pure (.control .exit)
          | .ok (.yield _) => err "attempt to yield across a protected call"
          | .ok r => do
            placeWant f.base f.want (← handlerVals r)
            pure (.resume f.retIp)

/-! ### The loop -/

/-- One turn of the loop of `run_at`: an instruction, and its error caught. -/
def turn (L : Lib) (ip floor : ℕ) : LuaM Next := do
  match (← get).code[ip]? with
  | none => err "internal error: instruction pointer out of range"
  | some i =>
    match ← attempt (execStep L (ip + 1) i) with
    | .ok next => pure next
    | .error e =>
      match ← unwindProtected floor (← get).fsp e with
      | .resume ip => pure (.goto ip)
      | .control r => pure (.halt r)
      | .propagate => raise e

/-- `run_at`. -/
def runAt (L : Lib) (ip floor : ℕ) : LuaM ExecResult := do
  match ← turn L ip floor with
  | .goto ip => doRunAt ip floor
  | .halt r => pure r

/-- What may start again nothing more. -/
def Rec.stuck : Rec where
  call _ _ := throw .fuel
  runAt _ _ := throw .fuel
  tget _ _ := throw .fuel
  tset _ _ _ := throw .fuel
  resume _ _ := throw .fuel

/-- The interpreter that starts again what `R` does. -/
def Rec.next (L : Lib) (R : Rec) : Rec where
  call f argc := R.exec (Lua.call L f argc)
  runAt ip floor := R.exec (Lua.runAt L ip floor)
  tget t k := R.exec (Lua.tget t k)
  tset t k v := R.exec (Lua.tset t k v)
  resume id args := Lua.resume R id args

/-- The interpreter with fuel. -/
def interp (L : Lib) : ℕ → Rec
  | 0 => Rec.stuck
  | n + 1 => (interp L n).next L

end Lua
end Rustrapper
