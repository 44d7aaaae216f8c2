/-
# The parser

`parse.rs`: recursive descent with one token of lookahead, building the
trees of `Ast`. Along the way the parser resolves names (which enclosing locals
a function captures) and labels (which label a `goto` reaches); both are side
effects on the parser's own tables, `locals`/`funcs` and `scopes`.

The recursion runs on fuel: a definition takes the parsers it may call again as
a record `PRec`, `parserAt n` ties the knot `n` times. A source of `n` bytes
has at most `n` tokens before its end, and between two calls of a field of
`PRec` a token is consumed, so `n + 2` is enough (`parseScript`).

Locals and function scopes are lists with the newest first. A record's
`decl_node` is left out: it is written when the record is about to be dropped,
so `mark_captured` never sees a loop's node through it.
-/
import Rustrapper.Lua.Lex

namespace Rustrapper
namespace Lua

def MAX_SCOPES : ℕ := 16
def MAX_LABELS_PER_SCOPE : ℕ := 8
def MAX_GOTOS_PER_SCOPE : ℕ := 8
def MAX_RESOLVED_LOCALS : ℕ := 64
def MAX_FUNC_SCOPES : ℕ := 8

/-- A declared local: its name, the nesting level of its function, and whether
a closure captures it. -/
structure LocalRec where
  name : StrRef
  func : ℕ
  captured : Bool
deriving DecidableEq, Inhabited

/-- A block's labels (name, node) and pending gotos (node, name). -/
structure Scope where
  labels : List (StrRef × ℕ) := []
  gotos : List (ℕ × StrRef) := []
deriving DecidableEq, Inhabited

/-- The parser and the parts of the state it writes. `scopes` is the fixed
array of block scopes, of which the first `nScopes` are in use; a function
scope is the list of its upvalue names. -/
structure PState where
  rest : List UInt8
  cur : Tok
  loopDepth : ℕ := 0
  scopes : ℕ → Scope := fun _ => {}
  nScopes : ℕ := 0
  locals : List LocalRec := []
  funcs : List (List StrRef) := [[]]
  heap : Heap
  chunks : Chunks

abbrev ParseM := EStateM Exc PState

def perr {α : Type} (m : String) : ParseM α := throw (.lua (.msg m))

/-! ### Name resolution -/

/-- `func_level`. -/
def PState.funcLevel (s : PState) : ℕ := s.funcs.length - 1

/-- `declare_local_rec`. -/
def declareLocalRec (name : StrRef) : ParseM Unit := do
  let s ← get
  if s.locals.length ≥ MAX_RESOLVED_LOCALS then perr "too many locals"
  else set { s with locals := ⟨name, s.funcLevel, false⟩ :: s.locals }

/-- `self.nlocals = mark`. -/
def dropLocals (mark : ℕ) : ParseM Unit :=
  modify fun s => { s with locals := s.locals.drop (s.locals.length - mark) }

/-- `add_up`: record an upvalue of one function. -/
def addUp (name : StrRef) (ups : List StrRef) : Option (List StrRef) :=
  if name ∈ ups then some ups
  else if ups.length ≥ MAX_UPVALS then none
  else some (ups ++ [name])

/-- `add_up` on the innermost `k` functions. -/
def addUps (name : StrRef) : ℕ → List (List StrRef) → Option (List (List StrRef))
  | 0, fs => some fs
  | _ + 1, [] => some []
  | k + 1, f :: fs => do
    let fs' ← addUps name k fs
    let f' ← addUp name f
    pure (f' :: fs')

/-- `resolve_name`: a local of an enclosing function is captured, and becomes
an upvalue of every function between its own and the current one. -/
def resolveName (name : StrRef) : ParseM Unit := do
  let s ← get
  match s.locals.find? fun l => l.name = name with
  | none => pure ()
  | some l =>
    if l.func = s.funcLevel then pure ()
    else
      match addUps name (s.funcs.length - (l.func + 1)) s.funcs with
      | none => perr "too many upvalues"
      | some fs =>
        set { s with
          locals := updateFirst (fun l => l.name = name) (fun l => { l with captured := true }) s.locals
          funcs := fs }

/-! ### Tokens and nodes -/

/-- `advance`. -/
def advance : ParseM Unit := do
  let s ← get
  match nextToken s.rest with
  | (.ok t, rest) => set { s with cur := t, rest := rest }
  | (.error m, rest) => do set { s with rest := rest }; perr m

def cur : ParseM Tok := do pure (← get).cur

/-- `expect`. -/
def expect (t : Tok) (m : String) : ParseM Unit := do
  if (← cur) = t then advance else perr m

/-- `opt_semi`: a lexical error after the `;` is dropped, and the `;` stays
the current token. -/
def optSemi : ParseM Unit := do
  let s ← get
  if s.cur = .semi then
    match nextToken s.rest with
    | (.ok t, rest) => set { s with cur := t, rest := rest }
    | (.error _, rest) => set { s with rest := rest }
  else pure ()

/-- `intern` from the parser. -/
def internP (b : List UInt8) : ParseM StrRef := do
  let s ← get
  match s.heap.intern b with
  | .ok (r, h) => do set { s with heap := h }; pure r
  | .error m => perr m

/-- The bytes of the current name token, interned; then `advance`. -/
def nameOr (m : String) : ParseM StrRef := do
  match ← cur with
  | .name b => do
    let r ← internP b
    advance
    pure r
  | _ => perr m

/-- `expect_name`. -/
def expectName : ParseM StrRef := nameOr "expected identifier"

/-- `alloc_node`: the number of the new node. -/
def alloc : ParseM ℕ := do
  let s ← get
  if s.chunks.nodeUsed ≥ MAX_NODES then perr "script too complex"
  else do
    set { s with chunks := { s.chunks with nodeUsed := s.chunks.nodeUsed + 1 } }
    pure s.chunks.nodeUsed

/-- Allocate the node of an expression. -/
def allocE (e : Expr) : ParseM Expr := do let _ ← alloc; pure e

/-- Allocate the node of a statement. -/
def allocS (t : Stmt) : ParseM Stmt := do let _ ← alloc; pure t

/-- `alloc_func`. -/
def allocFunc (params : List StrRef) (body : Block) (ups : List StrRef) : ParseM ℕ := do
  let s ← get
  if s.chunks.funcs.length ≥ MAX_FUNCS then perr "too many functions"
  else if ups.length > MAX_UPVALS then perr "too many upvalues"
  else do
    set { s with chunks := { s.chunks with funcs := s.chunks.funcs ++ [FuncDef.mk params body 0 ups] } }
    pure s.chunks.funcs.length

/-! ### Labels and gotos -/

/-- `find_label`: from scope `i` outwards, the first label of each with that
name. -/
def findLabel (scopes : ℕ → Scope) (name : StrRef) : ℕ → Option ℕ
  | 0 => (scopes 0).labels.lookup name
  | i + 1 => ((scopes (i + 1)).labels.lookup name).or (findLabel scopes name i)

/-- `record_label` of `parse.rs`. -/
def recordLabel (name : StrRef) (node : ℕ) : ParseM Unit := do
  let s ← get
  let i := s.nScopes - 1
  let sc := s.scopes i
  if sc.labels.length ≥ MAX_LABELS_PER_SCOPE then perr "too many labels"
  else set { s with scopes := Function.update s.scopes i { sc with labels := sc.labels ++ [(name, node)] } }

/-- Add a goto to the pending ones of scope `i`. -/
def addGoto (i node : ℕ) (name : StrRef) : ParseM Unit := do
  let s ← get
  let sc := s.scopes i
  if sc.gotos.length ≥ MAX_GOTOS_PER_SCOPE then perr "too many gotos"
  else set { s with scopes := Function.update s.scopes i { sc with gotos := sc.gotos ++ [(node, name)] } }

/-- `record_goto`. -/
def recordGoto (node : ℕ) (name : StrRef) : ParseM Unit := do addGoto ((← get).nScopes - 1) node name

/-- `self.state.nodes[node] = Node::Goto(target)`. -/
def patchGoto (node target : ℕ) : ParseM Unit :=
  modify fun s => { s with chunks := { s.chunks with gotos := (node, target) :: s.chunks.gotos } }

/-- The gotos of scope `i` against its labels and those of the enclosing
scopes; one that finds none is left to the enclosing scope. -/
def resolveGotos (i : ℕ) : List (ℕ × StrRef) → ParseM Unit
  | [] => pure ()
  | (node, name) :: gs => do
    match findLabel (← get).scopes name i with
    | some target => patchGoto node target
    | none => if i = 0 then perr "unknown label" else addGoto (i - 1) node name
    resolveGotos i gs

/-- `resolve_scope`. -/
def resolveScope : ParseM Unit := do
  let s ← get
  resolveGotos (s.nScopes - 1) (s.scopes (s.nScopes - 1)).gotos
  modify fun s => { s with nScopes := s.nScopes - 1 }

/-! ### Expressions -/

/-- The parsers a definition may call again, and the fuel of its loops. -/
structure PRec where
  fuel : ℕ
  expr : ParseM Expr
  concat : ParseM Expr
  unary : ParseM Expr
  block : ParseM Block
  ifTail : ParseM Block

/-- A level of left-associative operators: the operand `sub`, again after each
operator. -/
def leftAssoc (opOf : Tok → Option Op) (sub : ParseM Expr) : ℕ → Expr → ParseM Expr
  | 0, _ => throw .fuel
  | n + 1, l => do
    match opOf (← cur) with
    | none => pure l
    | some op => do
      advance
      let r ← sub
      let e ← allocE (.bin op l r)
      leftAssoc opOf sub n e

def orOp : Tok → Option Op
  | .or => some .or
  | _ => none

def andOp : Tok → Option Op
  | .and => some .and
  | _ => none

def cmpOp : Tok → Option Op
  | .eqEq => some .eq
  | .neq => some .ne
  | .lt => some .lt
  | .le => some .le
  | .gt => some .gt
  | .ge => some .ge
  | _ => none

def addsubOp : Tok → Option Op
  | .plus => some .add
  | .minus => some .sub
  | _ => none

def muldivOp : Tok → Option Op
  | .star => some .mul
  | .slash => some .div
  | .percent => some .mod
  | _ => none

def parseMuldiv (R : PRec) : ParseM Expr := do leftAssoc muldivOp R.unary R.fuel (← R.unary)

def parseAddsub (R : PRec) : ParseM Expr := do
  leftAssoc addsubOp (parseMuldiv R) R.fuel (← parseMuldiv R)

/-- `..` is right-associative. -/
def parseConcat (R : PRec) : ParseM Expr := do
  let l ← parseAddsub R
  if (← cur) = .dotDot then do
    advance
    let r ← R.concat
    allocE (.bin .concat l r)
  else pure l

def parseCmp (R : PRec) : ParseM Expr := do leftAssoc cmpOp (parseConcat R) R.fuel (← parseConcat R)

def parseAnd (R : PRec) : ParseM Expr := do leftAssoc andOp (parseCmp R) R.fuel (← parseCmp R)

def parseOr (R : PRec) : ParseM Expr := do leftAssoc orOp (parseAnd R) R.fuel (← parseAnd R)

/-- `parse_expr`. -/
def parseExpr (R : PRec) : ParseM Expr := parseOr R

/-- The arguments of `parse_arg_list` after the `(`, when there is one. -/
def argLoop (R : PRec) : ℕ → ParseM (List Expr)
  | 0 => throw .fuel
  | n + 1 => do
    let a ← R.expr
    let _ ← alloc
    if (← cur) = .comma then do
      advance
      pure (a :: (← argLoop R n))
    else pure [a]

/-- `parse_arg_list`. -/
def parseArgList (R : PRec) : ParseM (List Expr) := do
  if (← cur) = .rParen then do
    advance
    pure []
  else do
    let args ← argLoop R R.fuel
    expect .rParen "expected ')'"
    pure args

/-- The fields of a table literal; `ordinal` counts the positional ones. A
bare name is a variable, whatever follows it. -/
def fieldLoop (R : PRec) : ℕ → ℕ → ParseM (List (Expr × Expr))
  | 0, _ => throw .fuel
  | n + 1, ordinal => do
    let (field, ordinal) ← do
      match ← cur with
      | .lBracket => do
        advance
        let k ← R.expr
        expect .rBracket "expected ']'"
        expect .equals "expected '=' after '[expr]' key"
        let v ← R.expr
        pure ((k, v), ordinal)
      | .name b => do
        let name ← internP b
        advance
        if (← cur) = .equals then do
          advance
          let k ← allocE (.str name)
          let v ← R.expr
          pure ((k, v), ordinal)
        else do
          let k ← allocE (.num (Int64.ofNat (ordinal + 1)))
          let v ← allocE (.var name)
          pure ((k, v), ordinal + 1)
      | _ => do
        let k ← allocE (.num (Int64.ofNat (ordinal + 1)))
        let v ← R.expr
        pure ((k, v), ordinal + 1)
    let _ ← alloc
    if (← cur) = .comma then do
      advance
      pure (field :: (← fieldLoop R n ordinal))
    else pure [field]

/-- `parse_table_lit`. -/
def parseTableLit (R : PRec) : ParseM Expr := do
  advance
  let fields ← if (← cur) = .rBrace then pure [] else fieldLoop R R.fuel 0
  expect .rBrace "expected '\x7d' in table literal"
  allocE (.tableLit fields)

/-- The names of `parse_params` after the `(`. -/
def paramLoop : ℕ → ParseM (List StrRef)
  | 0 => throw .fuel
  | n + 1 => do
    let name ← expectName
    let _ ← alloc
    if (← cur) = .comma then do
      advance
      pure (name :: (← paramLoop n))
    else pure [name]

/-- `parse_params`: the parameters are counted in a `u8` that wraps, so every
256 of them are forgotten. -/
def parseParams (R : PRec) : ParseM (List StrRef) := do
  if (← cur) = .rParen then do
    advance
    pure []
  else do
    let ps ← paramLoop R.fuel
    expect .rParen "expected ')' after parameters"
    pure (ps.drop (ps.length / 256 * 256))

/-- `declare_local_rec` for each name. -/
def declareAll : List StrRef → ParseM Unit
  | [] => pure ()
  | n :: ns => do declareLocalRec n; declareAll ns

/-- `parse_func_body`. The body's blocks take the scopes from 0 on, over those
of the function around it. -/
def parseFuncBody (R : PRec) : ParseM ℕ := do
  expect .lParen "expected '(' after 'function'"
  let s ← get
  if s.funcs.length ≥ MAX_FUNC_SCOPES then perr "too many nested functions"
  set { s with funcs := [] :: s.funcs }
  let params ← parseParams R
  declareAll params
  let s1 ← get
  set { s1 with loopDepth := 0, nScopes := 0 }
  let body ← R.block
  modify fun t => { t with nScopes := s1.nScopes, loopDepth := s1.loopDepth }
  expect .end_ "expected 'end' to close function"
  let t ← get
  set { t with funcs := t.funcs.tail }
  dropLocals s.locals.length
  allocFunc params body (t.funcs.headD [])

/-- The suffixes of a primary expression: indexing and calls. -/
def suffixLoop (R : PRec) : ℕ → Expr → ParseM Expr
  | 0, _ => throw .fuel
  | n + 1, node => do
    match ← cur with
    | .dot => do
      advance
      let name ← nameOr "expected name after '.'"
      let key ← allocE (.str name)
      suffixLoop R n (← allocE (.index node key))
    | .colon => do
      advance
      let name ← nameOr "expected name after ':'"
      let key ← allocE (.str name)
      let method ← allocE (.index node key)
      expect .lParen "expected '(' after method name"
      let args ← parseArgList R
      -- the receiver's node is the first argument: the tree has it twice
      let _ ← alloc
      suffixLoop R n (← allocE (.call method (node :: args)))
    | .lBracket => do
      advance
      let key ← R.expr
      expect .rBracket "expected ']'"
      suffixLoop R n (← allocE (.index node key))
    | .lParen => do
      advance
      let args ← parseArgList R
      suffixLoop R n (← allocE (.call node args))
    | _ => pure node

/-- `parse_primary` before the suffixes. -/
def parseAtom (R : PRec) : ParseM Expr := do
  match ← cur with
  | .num v => do advance; allocE (.num v)
  | .float v => do advance; allocE (.float v)
  | .str b => do
    let r ← internP b
    advance
    allocE (.str r)
  | .true_ => do advance; allocE .true
  | .false_ => do advance; allocE .false
  | .nil => do advance; allocE .nil
  | .name b => do
    let r ← internP b
    advance
    resolveName r
    allocE (.var r)
  | .lParen => do
    advance
    let e ← R.expr
    expect .rParen "expected ')'"
    pure e
  | .lBrace => parseTableLit R
  | .function => do
    advance
    let fi ← parseFuncBody R
    allocE (.funcLit fi)
  | _ => perr "unexpected token in expression"

/-- `parse_primary`. -/
def parsePrimary (R : PRec) : ParseM Expr := do suffixLoop R R.fuel (← parseAtom R)

/-- `parse_unary`. -/
def parseUnary (R : PRec) : ParseM Expr := do
  match ← cur with
  | .not => do
    advance
    let x ← R.unary
    allocE (.un .not x)
  | .minus => do
    advance
    let x ← R.unary
    allocE (.un .neg x)
  | _ => parsePrimary R

/-! ### Statements -/

def isAssignTarget : Expr → Bool
  | .var _ => true
  | .index .. => true
  | _ => false

/-- `at_block_end`. -/
def atBlockEnd : Tok → Bool
  | .eof | .end_ | .else_ | .elseif | .until_ | .semi => true
  | _ => false

/-- The tokens `parse_block` stops at. -/
def blockStop : Tok → Bool
  | .eof | .end_ | .else_ | .elseif | .until_ => true
  | _ => false

/-- The further targets of an assignment. -/
def targetLoop (R : PRec) : ℕ → ParseM (List Expr)
  | 0 => throw .fuel
  | n + 1 => do
    if (← cur) = .comma then do
      advance
      let t ← R.expr
      if isAssignTarget t then pure (t :: (← targetLoop R n)) else perr "invalid assignment target"
    else pure []

/-- `parse_assignment_from`. -/
def parseAssignmentFrom (R : PRec) (first : Expr) : ParseM Stmt := do
  if !isAssignTarget first then perr "invalid assignment target"
  let ts ← targetLoop R R.fuel
  expect .equals "expected '=' in assignment"
  let v ← R.expr
  optSemi
  allocS (.assignStmt (first :: ts) v)

/-- `parse_expr_stat`. -/
def parseExprStat (R : PRec) : ParseM Stmt := do
  let e ← R.expr
  let t ← cur
  if t = .equals ∨ t = .comma then parseAssignmentFrom R e
  else do
    optSemi
    allocS (.callStmt e)

/-- The further names of a `local` declaration; `count` is how many came
before. -/
def nameLoop : ℕ → ℕ → ParseM (List StrRef)
  | 0, _ => throw .fuel
  | n + 1, count => do
    if (← cur) = .comma then do
      advance
      let name ← expectName
      let _ ← alloc
      if count + 1 ≥ MAX_LOCALS then perr "too many locals"
      pure (name :: (← nameLoop n (count + 1)))
    else pure []

/-- `local ...` after the keyword. -/
def parseLocal (R : PRec) : ParseM Stmt := do
  if (← cur) = .function then do
    advance
    let name ← expectName
    declareLocalRec name
    let fi ← parseFuncBody R
    let _ ← alloc
    allocS (.localFunc name fi)
  else do
    let name ← expectName
    let _ ← alloc
    let names ← nameLoop R.fuel 1
    expect .equals "expected '=' in local declaration"
    let v ← R.expr
    optSemi
    let node ← allocS (.localDecl (name :: names) v)
    declareAll (name :: names)
    pure node

/-- `global ...` after the keyword. -/
def parseGlobal (R : PRec) : ParseM Stmt := do
  let name ← expectName
  let v ← if (← cur) = .equals then do advance; pure (some (← R.expr)) else pure none
  optSemi
  let _ ← alloc
  allocS (.globalDecl name v)

/-- A loop body: `self.loop_depth` is one more inside. -/
def parseLoopBody (R : PRec) : ParseM Block := do
  modify fun s => { s with loopDepth := s.loopDepth + 1 }
  let body ← R.block
  modify fun s => { s with loopDepth := s.loopDepth - 1 }
  pure body

/-- Whether the local declared at position `i` is captured. -/
def PState.capturedAt (s : PState) (i : ℕ) : Bool := ((at? s.locals i).map (·.captured)).getD false

/-- `for ...` after the keyword. -/
def parseFor (R : PRec) : ParseM Stmt := do
  let name ← expectName
  let _ ← alloc
  if (← cur) = .equals then do
    advance
    let start ← R.expr
    expect .comma "expected ',' in for statement"
    let limit ← R.expr
    let step ← if (← cur) = .comma then do advance; pure (some (← R.expr)) else pure none
    expect .do_ "expected 'do'"
    let mark := (← get).locals.length
    declareLocalRec name
    let body ← parseLoopBody R
    expect .end_ "expected 'end' to close for"
    let node ← allocS (.forStmt ((← get).capturedAt mark) name start limit step body)
    dropLocals mark
    pure node
  else do
    let vvar ← if (← cur) = .comma then do
        advance
        let vname ← expectName
        let _ ← alloc
        pure (some vname)
      else pure none
    expect .in_ "expected 'in' in for statement"
    let table ← R.expr
    expect .do_ "expected 'do'"
    let mark := (← get).locals.length
    declareLocalRec name
    match vvar with
    | some v => declareLocalRec v
    | none => pure ()
    let body ← parseLoopBody R
    expect .end_ "expected 'end' to close for"
    let s ← get
    let captured := s.capturedAt mark || (vvar.isSome && s.capturedAt (mark + 1))
    let node ← allocS (.forInStmt captured name vvar table body)
    dropLocals mark
    pure node

/-- `parse_if_tail`. -/
def parseIfTail (R : PRec) : ParseM Block := do
  match ← cur with
  | .end_ => do
    advance
    pure []
  | .else_ => do
    advance
    let b ← R.block
    expect .end_ "expected 'end' after else"
    pure b
  | .elseif => do
    advance
    let c ← R.expr
    expect .then_ "expected 'then'"
    let t ← R.block
    let tail ← R.ifTail
    pure [← allocS (.ifStmt c t tail)]
  | _ => perr "expected 'end', 'else', or 'elseif'"

/-- `parse_stat`. -/
def parseStat (R : PRec) : ParseM Stmt := do
  match ← cur with
  | .local_ => do advance; parseLocal R
  | .global => do advance; parseGlobal R
  | .function => do
    advance
    let name ← expectName
    let fi ← parseFuncBody R
    let _ ← alloc
    let fl ← allocE (.funcLit fi)
    allocS (.assignStmt [.var name] fl)
  | .if_ => do
    advance
    let cond ← R.expr
    expect .then_ "expected 'then'"
    let thenB ← R.block
    let els ← R.ifTail
    allocS (.ifStmt cond thenB els)
  | .while_ => do
    advance
    let cond ← R.expr
    expect .do_ "expected 'do'"
    let body ← parseLoopBody R
    expect .end_ "expected 'end' to close while"
    allocS (.whileStmt cond body)
  | .for_ => do advance; parseFor R
  | .repeat_ => do
    advance
    let body ← parseLoopBody R
    expect .until_ "expected 'until' to close repeat"
    let cond ← R.expr
    allocS (.repeatStmt body cond)
  | .colonColon => do
    advance
    let name ← expectName
    expect .colonColon "expected '::' after label name"
    let node ← alloc
    recordLabel name node
    pure (.label node name)
  | .goto => do
    advance
    let name ← expectName
    let node ← alloc
    recordGoto node name
    pure (.goto node)
  | .break_ => do
    advance
    if (← get).loopDepth = 0 then perr "break outside loop"
    optSemi
    allocS .breakStmt
  | .return_ => do
    advance
    let v ← if atBlockEnd (← cur) then pure none else pure (some (← R.expr))
    optSemi
    allocS (.returnStmt v)
  | _ => parseExprStat R

/-- The statements of a block. -/
def statLoop (R : PRec) : ℕ → ParseM Block
  | 0 => throw .fuel
  | n + 1 => do
    if blockStop (← cur) then pure []
    else do
      let st ← parseStat R
      pure (st :: (← statLoop R n))

/-- `parse_block`. -/
def parseBlock (R : PRec) : ParseM Block := do
  let s ← get
  if s.nScopes ≥ MAX_SCOPES then perr "script too complex"
  set { s with scopes := Function.update s.scopes s.nScopes {}, nScopes := s.nScopes + 1 }
  let b ← statLoop R R.fuel
  dropLocals s.locals.length
  resolveScope
  pure b

/-! ### The parser -/

/-- The parsers with `n` levels of recursion. -/
def parserAt : ℕ → PRec
  | 0 => ⟨0, throw .fuel, throw .fuel, throw .fuel, throw .fuel, throw .fuel⟩
  | n + 1 =>
    let R := parserAt n
    ⟨n + 1, parseExpr R, parseConcat R, parseUnary R, parseBlock R, parseIfTail R⟩

theorem parserAt_fuel : ∀ n, (parserAt n).fuel = n
  | 0 => rfl
  | _ + 1 => rfl

/-- `Parser::new`: a malformed first token counts as the end. -/
def PState.new (src : List UInt8) (heap : Heap) (chunks : Chunks) : PState :=
  match nextToken src with
  | (.ok t, rest) => { rest := rest, cur := t, heap := heap, chunks := chunks }
  | (.error _, rest) => { rest := rest, cur := .eof, heap := heap, chunks := chunks }

/-- `parse_script`. -/
def parseScriptWith (R : PRec) : ParseM Block := do
  let first ← R.block
  if (← cur) ≠ .eof then perr "unexpected token after script"
  pure first

/-- Parse a chunk: `Parser::new` and `parse_script` on the state's strings and
nodes. -/
def parseScript (src : List UInt8) : LuaM Block := do
  let s ← get
  match parseScriptWith (parserAt (src.length + 2)) (PState.new src s.toHeap s.toChunks) with
  | .ok b p => do
    set { s with toHeap := p.heap, toChunks := p.chunks }
    pure b
  | .error e p => do
    set { s with toHeap := p.heap, toChunks := p.chunks }
    .throw e

end Lua
end Rustrapper
