/-
# The meaning of scripts

What a script does, told by its syntax alone: scopes of named variables, the
heap, and control that follows the tree. There are no instructions, jumps,
operand stack or frames here, and no bounds on them. The machine's code is
measured against this in `Lua/Preserve`.

The operators on numbers and strings and the raw table accesses are the
interpreter's. `Halt.unknown` gives up: the fuel is spent, or the script does
what is not told here (a metamethod, a callback or a protected call, a
coroutine, a closure over variables, `goto`).
-/
import Rustrapper.Lua.Vm

namespace Rustrapper
namespace Lua

/-- How an evaluation stops without a result. -/
inductive Halt where
  | error (e : LuaError)
  | abort (f : Fault)
  | unknown
deriving DecidableEq, Inhabited

/-- Evaluations: the heap is all that they change. -/
abbrev Sem := EStateM Halt Heap

def fails {α : Type} (m : String) : Sem α := throw (.error (.msg m))

def unknown {α : Type} : Sem α := throw .unknown

/-! ### Variables -/

/-- The variables of a block, the newest first. -/
abbrev Bindings := List (StrRef × Value)

/-- The blocks of the running function, the innermost first. -/
abbrev Env := List Bindings

/-- The value of the innermost, newest variable of that name. -/
def findVar (name : StrRef) : Env → Option Value
  | [] => none
  | sc :: ss => (sc.lookup name).or (findVar name ss)

/-- Give the innermost, newest variable of that name a value, if there is one. -/
def assignVarIn (name : StrRef) (v : Value) : Env → Option Env
  | [] => none
  | sc :: ss =>
    if sc.any (·.1 = name) then some (updateFirst (fun p => p.1 = name) (fun p => (p.1, v)) sc :: ss)
    else (assignVarIn name v ss).map (sc :: ·)

/-- Names with their values, `nil` for the missing ones. -/
def bindNames : List StrRef → List Value → Bindings
  | [], _ => []
  | p :: ps, vs => (p, vs.headD .nil) :: bindNames ps vs.tail

/-- New variables of the innermost block. -/
def declare (names : List StrRef) (vs : List Value) : Env → Env
  | [] => []
  | sc :: ss => ((bindNames names vs).reverse ++ sc) :: ss

def readVar (ss : Env) (name : StrRef) : Sem Value := do
  match findVar name ss with
  | some v => pure v
  | none =>
    match (← get).globalValue name with
    | some v => pure v
    | none => fails "undefined variable"

/-- A name that is no variable is a global. -/
def writeVar (ss : Env) (name : StrRef) (v : Value) : Sem Env := do
  match assignVarIn name v ss with
  | some ss => pure ss
  | none => do
    modify (·.setGlobal name v)
    pure ss

/-! ### Tables -/

def tableAt (i : ℕ) : Sem TableRec := do
  match (← get).tbls[i]? with
  | some t => pure t
  | none => unknown

/-- A value without metamethods. -/
def plain (v : Value) : Sem Unit := do
  match v with
  | .table i => if (← tableAt i).mt.isSome then unknown else pure ()
  | _ => pure ()

def indexOf (t k : Value) : Sem Value := do
  match t with
  | .table i => do
    let r ← tableAt i
    if slotGet r.slots k ≠ .nil then pure (slotGet r.slots k)
    else if r.mt.isSome then unknown else pure .nil
  | _ => fails "attempt to index a non-table value"

def setIndexOf (t k v : Value) : Sem Unit := do
  match t with
  | .table i => do
    let r ← tableAt i
    if !slotHas r.slots k && r.mt.isSome then unknown
    else
      match slotSet r.slots k v with
      | .error m => fails m
      | .ok slots => modify fun h => { h with tbls := h.tbls.set i { r with slots := slots } }
  | _ => fails "attempt to index a non-table value"

/-- A new, empty table. -/
def freshTable : Sem Value := do
  let h ← get
  if h.tbls.length ≥ MAX_TABLES then fails "too many tables"
  else do
    set { h with tbls := h.tbls ++ [TableRec.mk [] none] }
    pure (.table h.tbls.length)

/-! ### Operators -/

def arithOf (op : Op) (a b : Value) : Sem Value :=
  match a, b with
  | .num x, .num y =>
    match intArith op x y with
    | none => throw (.abort .arith)
    | some (.error m) => fails m
    | some (.ok z) => pure (.num z)
  | a, b =>
    match floatOf a, floatOf b with
    | some x, some y => pure (.float (floatArith op x y))
    | _, _ => do
      plain a
      plain b
      fails "attempt to perform arithmetic on a non-number value"

/-- Values that are equal are so without a metamethod; two tables may have one. -/
def equalOf (a b : Value) : Sem Bool := do
  if valEq a b then pure true
  else
    match a, b with
    | .table _, .table _ => do
      plain a
      plain b
      pure false
    | _, _ => pure false

def lessOf (strict : Bool) (a b : Value) : Sem Value := do
  match numLess strict a b with
  | some r => pure (.bool r)
  | none => do
    plain a
    plain b
    fails "attempt to compare non-number values"

def internOf (b : List UInt8) : Sem StrRef := do
  match (← get).intern b with
  | .ok (r, h) => do
    set h
    pure r
  | .error m => fails m

def plainText (L : Lib) (v : Value) : Sem StrRef :=
  match v with
  | .str r => pure r
  | .num n => internOf (itoa n)
  | .float f => internOf (L.fmtFloat f)
  | _ => fails "attempt to concatenate a non-string value"

def concatOf (L : Lib) (a b : Value) : Sem Value := do
  if isText a ∧ isText b then do
    let sa ← plainText L a
    let sb ← plainText L b
    let h ← get
    let bytes := h.strBytes sa ++ h.strBytes sb
    if bytes.length > 512 then fails "string too long"
    else do pure (.str (← internOf bytes))
  else do
    plain a
    plain b
    fails "attempt to concatenate a non-string value"

def binaryOf (L : Lib) (op : Op) (a b : Value) : Sem Value := do
  match op with
  | .add | .sub | .mul | .div | .mod => arithOf op a b
  | .eq => do pure (.bool (← equalOf a b))
  | .ne => do pure (.bool !(← equalOf a b))
  | .lt => lessOf true a b
  | .le => lessOf false a b
  | .gt => lessOf true b a
  | .ge => lessOf false b a
  | .concat => concatOf L a b
  | _ => unknown

def unaryOf (op : Op) (v : Value) : Sem Value := do
  match op, v with
  | .not, v => pure (.bool !(truthy v))
  | .neg, .num n => pure (.num (-n))
  | .neg, .float f => pure (.float (-f))
  | .neg, v => do
    plain v
    fails "attempt to perform arithmetic on a non-number value"
  | _, _ => unknown

/-! ### Output and the library -/

def emitOf (b : List UInt8) : Sem Unit := modify fun h => { h with out := h.out ++ b }

def printOf (L : Lib) (v : Value) : Sem Unit := do
  plain v
  emitOf (render L (← get) v)

/-- The values with tabs between them. -/
def printAll (L : Lib) : List Value → Sem Unit
  | [] => pure ()
  | [v] => printOf L v
  | v :: vs => do
    printOf L v
    emitOf [9]
    printAll L vs

/-- What the library functions get at here: the heap. -/
def heapOp {α : Type} : LibOp α → Sem α
  | .getHeap => get
  | .setHeap h => set h
  | .getChunks => unknown
  | .callValue _ _ => unknown

def heapThrow {α : Type} : LibStop → Sem α
  | .fail e => throw (.error e)
  | .abort => throw (.abort .library)

/-- The `Result` of a part of a library function. -/
def heapAttempt {α : Type} (x : Sem α) : Sem (Except LuaError α) := fun h =>
  match x h with
  | .ok a h' => .ok (.ok a) h'
  | .error (.error e) h' => .ok (.error e) h'
  | .error e h' => .error e h'

/-- The handler of the library on the heap alone. -/
def heapHandler : Effect.Handler LibOp LibStop LuaError Sem where
  op := heapOp
  throw := heapThrow
  attempt := heapAttempt
  throw_bind := fun x _ => by cases x <;> rfl

def retVals : NativeRet → Sem (List Value)
  | .normal => pure []
  | .ret v => pure [v]
  | .ret2 a b => pure [a, b]
  | .retN vs => pure vs
  | .shell | .exit => unknown

/-- A library function on its arguments. Told here: `print`, `pairs`,
`tostring`, `type`, `error`, `assert`, and those that keep to the heap. -/
def libraryOf (L : Lib) (id : ℕ) (args : List Value) : Sem (List Value) := do
  match id, args with
  | 0, args => do
    printAll L args
    emitOf [10]
    pure []
  | 4, [.table i] => do
    plain (.table i)
    pure [.native 3, .table i]
  | 12, [v] => do
    plain v
    match v with
    | .str r => pure [.str r]
    | v => do pure [.str (← internOf (renderPlain L v))]
  | 13, [v] => do pure [.str (← internOf (bytesOf (typeName v)))]
  | 16, [v] => throw (.error (.obj v))
  | 25, v :: rest =>
    if truthy v then pure (v :: rest)
    else
      match rest with
      | m :: _ => throw (.error (.obj m))
      | [] => do
        let r ← internOf (bytesOf "assertion failed!")
        throw (.error (.obj (.str r)))
  | id, args =>
    if id < 27 then unknown
    else do retVals (← (L.native id args).exec heapHandler)

/-! ### Numeric loops -/

/-- The control values of a loop, and whether it is skipped. -/
def loopStart (start limit step : Value) : Sem (Value × Value × Value × Bool) := do
  match start, limit, step with
  | .num x, .num y, .num z => pure (.num x, .num y, .num z, numPast z x y)
  | x, y, z =>
    match floatOf x, floatOf y, floatOf z with
    | some x, some y, some z => pure (.float x, .float y, .float z, floatPast z x y)
    | _, _, _ => fails "for loop bound must be a number"

/-- The next value of a loop's counter, while there is one. -/
def loopNext : Value → Value → Value → Option (Option Value)
  | .num cur, .num lim, .num stp =>
    some (if numPast stp (cur + stp) lim then none else some (.num (cur + stp)))
  | .float cur, .float lim, .float stp =>
    some (if floatPast stp (cur + stp) lim then none else some (.float (cur + stp)))
  | _, _, _ => none

/-! ### Loops over tables -/

/-- The table a generic loop goes through. -/
def loopTable (first second : Value) : Sem ℕ :=
  match first, second with
  | .gmatch _, _ | .ioLines _, _ => unknown
  | .table i, _ | .native 3, .table i => pure i
  | _, _ => fails "'for in' requires a table, pairs(t), or gmatch(...)"

/-- A position of a loop, which it keeps as a number of the script. -/
def atPosition (i : Int64) : ℕ := i.toInt.toNat

/-- The variables of a turn of the loop. -/
def loopVars (kvar : StrRef) (vvar : Option StrRef) (k v : Value) : Bindings :=
  match vvar with
  | some vvar => [(kvar, k), (vvar, v)]
  | none => [(kvar, k)]

/-- The position behind a turn for the key `k`: it stays when the entry is gone. -/
def nextPosition (slots : List (Value × Value)) (pos : Int64) (k : Value) : Int64 :=
  match slots[atPosition pos]? with
  | some (k', _) => if valEq k' k then Int64.ofNat (atPosition pos + 1) else pos
  | none => pos

/-! ### Scripts -/

/-- How a statement ends, with the variables behind it. -/
inductive Flow where
  | next (ss : Env)
  | brk (ss : Env)
  | ret (vs : List Value)
deriving DecidableEq, Inhabited

/-- Leave the innermost block. -/
def Flow.leave : Flow → Flow
  | .next ss => .next ss.tail
  | .brk ss => .brk ss.tail
  | .ret vs => .ret vs

/-- One value: the first, or `nil`. -/
def one (x : Sem (List Value)) : Sem Value := do pure ((← x).headD .nil)

/-- The writes of an assignment, from the first target on; `prefixes` are the
base and key of the index targets. -/
def assignAll (ss : Env) : List Target → List Value → List Value → Sem Env
  | [], _, _ => pure ss
  | .var name :: ts, vs, prefixes => do
    let ss ← writeVar ss name (vs.headD .nil)
    assignAll ss ts vs.tail prefixes
  | .index :: ts, vs, base :: key :: prefixes => do
    setIndexOf base key (vs.headD .nil)
    assignAll ss ts vs.tail prefixes
  | .index :: _, _, _ => unknown
  | .other :: _, _, _ => fails "invalid assignment target"

section Scripts
variable (L : Lib) (prog : ℕ → Option FuncDef)

mutual

/-- The values of an expression: those of a call are all its results. -/
def evalExpr : ℕ → Env → Expr → Sem (List Value)
  | 0, _, _ => unknown
  | n + 1, ss, e =>
    match e with
    | .nil => pure [.nil]
    | .true => pure [.bool true]
    | .false => pure [.bool false]
    | .num x => pure [.num x]
    | .float x => pure [.float x]
    | .str r => pure [.str r]
    | .var name => do pure [← readVar ss name]
    | .bin .and l r => do
      let a ← one (evalExpr n ss l)
      if truthy a then do pure [← one (evalExpr n ss r)] else pure [a]
    | .bin .or l r => do
      let a ← one (evalExpr n ss l)
      if truthy a then pure [a] else do pure [← one (evalExpr n ss r)]
    | .bin op l r => do
      let a ← one (evalExpr n ss l)
      let b ← one (evalExpr n ss r)
      pure [← binaryOf L op a b]
    | .un op x => do pure [← unaryOf op (← one (evalExpr n ss x))]
    | .index base key => do
      let t ← one (evalExpr n ss base)
      let k ← one (evalExpr n ss key)
      pure [← indexOf t k]
    | .call f args => do
      let fv ← one (evalExpr n ss f)
      let vs ← evalArgs n ss args
      applyValue n fv vs
    | .funcLit fi => do
      match prog fi with
      | some fd => if fd.upNames.length > 0 then unknown else pure [.func fi]
      | none => unknown
    | .tableLit fields => do
      let t ← freshTable
      evalFields n ss t fields
      pure [t]

/-- The arguments of a call: one value each, the last one all of its values. -/
def evalArgs : ℕ → Env → List Expr → Sem (List Value)
  | 0, _, _ => unknown
  | _ + 1, _, [] => pure []
  | n + 1, ss, [e] => evalExpr n ss e
  | n + 1, ss, e :: es => do
    let v ← one (evalExpr n ss e)
    pure (v :: (← evalArgs n ss es))

/-- The fields of a table literal, in order. -/
def evalFields : ℕ → Env → Value → List (Expr × Expr) → Sem Unit
  | 0, _, _, _ => unknown
  | _ + 1, _, _, [] => pure ()
  | n + 1, ss, t, (k, v) :: fields => do
    let kv ← one (evalExpr n ss k)
    let vv ← one (evalExpr n ss v)
    setIndexOf t kv vv
    evalFields n ss t fields

/-- A value called on arguments. -/
def applyValue : ℕ → Value → List Value → Sem (List Value)
  | 0, _, _ => unknown
  | n + 1, fv, args => do
    match fv with
    | .func fi =>
      match prog fi with
      | none => unknown
      | some fd => do
        match ← runBlock n [(bindNames fd.params args).reverse] fd.body with
        | .next _ => pure []
        | .ret vs => pure vs
        | .brk _ => unknown
    | .nil | .bool _ | .float _ | .str _ => fails "attempt to call a non-function value"
    | .table i => do
      plain (.table i)
      fails "attempt to call a non-function value"
    | .native id => libraryOf L id args
    | _ => unknown

/-- The base and key of the index targets. -/
def evalTargets : ℕ → Env → List Expr → Sem (List Value)
  | 0, _, _ => unknown
  | _ + 1, _, [] => pure []
  | n + 1, ss, .index base key :: ts => do
    let b ← one (evalExpr n ss base)
    let k ← one (evalExpr n ss key)
    pure (b :: k :: (← evalTargets n ss ts))
  | n + 1, ss, _ :: ts => evalTargets n ss ts

/-- A statement, and how it ends. -/
def runStmt : ℕ → Env → Stmt → Sem Flow
  | 0, _, _ => unknown
  | n + 1, ss, st =>
    match st with
    | .localDecl names val => do pure (.next (declare names (← evalExpr n ss val) ss))
    | .localFunc name fi => do
      match prog fi with
      | some fd =>
        if fd.upNames.length > 0 then unknown else pure (.next (declare [name] [.func fi] ss))
      | none => unknown
    | .globalDecl name val => do
      let v ← match val with
        | some e => one (evalExpr n ss e)
        | none => pure .nil
      modify (·.setGlobal name v)
      pure (.next ss)
    | .assignStmt targets val => do
      let prefixes ← evalTargets n ss targets
      let vs ← evalExpr n ss val
      pure (.next (← assignAll ss (targets.map targetOf) vs prefixes))
    | .callStmt e => do
      match ← one (evalExpr n ss e) with
      | .exit | .shell | .dhcp | .ls => unknown
      | _ => pure (.next ss)
    | .exprStmt e => do
      printOf L (← one (evalExpr n ss e))
      emitOf [10]
      pure (.next ss)
    | .ifStmt cond thenB els => do
      if truthy (← one (evalExpr n ss cond)) then do
        pure (← runBlock n ([] :: ss) thenB).leave
      else if els.isEmpty then pure (.next ss)
      else do pure (← runBlock n ([] :: ss) els).leave
    | .whileStmt cond body => do
      if truthy (← one (evalExpr n ss cond)) then do
        match ← runBlock n ([] :: ss) body with
        | .next ss => runStmt n ss.tail (.whileStmt cond body)
        | .brk ss => pure (.next ss.tail)
        | .ret vs => pure (.ret vs)
      else pure (.next ss)
    | .repeatStmt body cond => do
      match ← runBlock n ([] :: ss) body with
      | .next ss => do
        -- the condition sees the variables of the body
        if truthy (← one (evalExpr n ss cond)) then pure (.next ss.tail)
        else runStmt n ss.tail (.repeatStmt body cond)
      | .brk ss => pure (.next ss.tail)
      | .ret vs => pure (.ret vs)
    | .forStmt captured var start limit step body => do
      if captured then unknown
      else do
        let a ← one (evalExpr n ([] :: ss) start)
        let b ← one (evalExpr n ([] :: ss) limit)
        let c ← match step with
          | some e => one (evalExpr n ([] :: ss) e)
          | none => pure (.num 1)
        let (c0, c1, c2, skip) ← loopStart a b c
        if skip then pure (.next ss) else runFor n ss var c0 c1 c2 body
    | .breakStmt => pure (.brk ss)
    | .label _ _ => pure (.next ss)
    | .returnStmt none => pure (.ret [])
    | .returnStmt (some v) => do
      let vs ← evalExpr n ss v
      pure (.ret vs)
    | .forInStmt captured kvar vvar table body => do
      if captured then unknown
      else do
        let vs ← evalExpr n ([] :: ss) table
        let i ← loopTable (vs.headD .nil) (vs.tail.headD .nil)
        runForIn n ss kvar vvar (Int64.ofNat i) 0 body
    | .goto _ => unknown

/-- A numeric loop from the value `c0` of its variable on. -/
def runFor : ℕ → Env → StrRef → Value → Value → Value → Block → Sem Flow
  | 0, _, _, _, _, _, _ => unknown
  | n + 1, ss, var, c0, c1, c2, body => do
    match ← runBlock n ([] :: [(var, c0)] :: ss) body with
    | .next ss =>
      match loopNext c0 c1 c2 with
      | none => unknown
      | some none => pure (.next ss.tail.tail)
      | some (some v) => runFor n ss.tail.tail var v c1 c2 body
    | .brk ss => pure (.next ss.tail.tail)
    | .ret vs => pure (.ret vs)

/-- A loop over a table from a position on. -/
def runForIn : ℕ → Env → StrRef → Option StrRef → (i pos : Int64) → Block → Sem Flow
  | 0, _, _, _, _, _, _ => unknown
  | n + 1, ss, kvar, vvar, i, pos, body => do
    match (← tableAt (atPosition i)).slots[atPosition pos]? with
    | none => pure (.next ss)
    | some (k, v) => do
      match ← runBlock n ([] :: loopVars kvar vvar k v :: ss) body with
      | .next ss => do
        let r ← tableAt (atPosition i)
        runForIn n ss.tail.tail kvar vvar i (nextPosition r.slots pos k) body
      | .brk ss => pure (.next ss.tail.tail)
      | .ret vs => pure (.ret vs)

/-- The statements of a block, in order. -/
def runBlock : ℕ → Env → Block → Sem Flow
  | 0, _, _ => unknown
  | _ + 1, ss, [] => pure (.next ss)
  | n + 1, ss, st :: rest => do
    match ← runStmt n ss st with
    | .next ss => runBlock n ss rest
    | f => pure f

end

/-- A script, from its first statement. -/
def runMain (n : ℕ) (first : Block) : Sem (List Value) := do
  match ← runBlock L prog n [[]] first with
  | .next _ => pure []
  | .ret vs => pure vs
  | .brk _ => unknown

end Scripts

end Lua
end Rustrapper
