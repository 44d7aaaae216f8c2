/-
# Syntax trees and bytecode

The parser's AST and the instructions `vm.rs` compiles it to. The source
keeps nodes in an arena (`nodes[]`, chains in `next[]`) and lets instructions
point at nodes; here a node is the tree below it and an instruction carries
the names it would read through its node (`GetVar`, `DeclareLocal`,
`AssignMulti`). Two node numbers stay: a label is known by the number of its
node, and a `goto` by its own, whose target the parser patches at the end of a
block (`gotoTarget`).
-/
import Rustrapper.Lua.Value

namespace Rustrapper
namespace Lua

/-- An expression node. -/
inductive Expr where
  | nil
  | true
  | false
  | num (n : Int64)
  | float (f : Float)
  | str (r : StrRef)
  | var (name : StrRef)
  | bin (op : Op) (l r : Expr)
  | un (op : Op) (x : Expr)
  | index (base key : Expr)
  | call (f : Expr) (args : List Expr)
  | funcLit (fi : ℕ)
  | tableLit (fields : List (Expr × Expr))
deriving Inhabited

/-- `Node::Call`: the nodes that can yield several values. -/
def Expr.isCall : Expr → Bool
  | .call .. => Bool.true
  | _ => Bool.false

/-- A statement node; a block is the list its chain makes (`[]` for
`NO_NODE`). `captured` tells `ForStmtCell` from `ForStmt`. -/
inductive Stmt where
  | localDecl (names : List StrRef) (val : Expr)
  | localFunc (name : StrRef) (fi : ℕ)
  | globalDecl (name : StrRef) (val : Option Expr)
  | assignStmt (targets : List Expr) (val : Expr)
  | callStmt (e : Expr)
  | exprStmt (e : Expr)
  | ifStmt (cond : Expr) (thenB els : List Stmt)
  | whileStmt (cond : Expr) (body : List Stmt)
  | repeatStmt (body : List Stmt) (cond : Expr)
  | forStmt (captured : Bool) (var : StrRef) (start limit : Expr) (step : Option Expr)
      (body : List Stmt)
  | forInStmt (captured : Bool) (kvar : StrRef) (vvar : Option StrRef) (table : Expr)
      (body : List Stmt)
  | breakStmt
  | goto (node : ℕ)
  | label (node : ℕ) (name : StrRef)
  | returnStmt (v : Option Expr)
deriving Inhabited

abbrev Block := List Stmt

/-- A defined function. `entry` is 0 until its body is compiled. -/
structure FuncDef where
  params : List StrRef
  body : Block
  entry : ℕ
  upNames : List StrRef
deriving Inhabited

/-- One target of an assignment list: a name, or an index whose base and key
are on the stack. -/
inductive Target where
  | var (name : StrRef)
  | index
  /-- a node that is no assignment target -/
  | other
deriving DecidableEq, Inhabited

/-- A bytecode instruction. `a` is the jump target where there is one. -/
inductive Instr where
  | halt
  | pushConst (v : Value)
  | pushNil
  | pushInt (a : ℕ)
  | getVar (name : StrRef)
  | setVar (name : StrRef)
  | setGlobal (name : StrRef)
  | setLocalTop (name : StrRef)
  | setLocalTopCell (name : StrRef)
  | declareLocal (names : List StrRef) (count : ℕ)
  | getIndex
  | setIndex
  | assignMulti (targets : List Target) (count : ℕ)
  | newTable
  | dup
  | pop
  | binOp (op : Op)
  | unOp (op : Op)
  | jump (a : ℕ)
  | jumpScopes (a b : ℕ)
  | jumpIfFalse (a : ℕ)
  | jumpIfFalseKeep (a : ℕ)
  | jumpIfTrueKeep (a : ℕ)
  | loadFunc (fi : ℕ)
  | makeClosure (fi : ℕ)
  | mark
  | call (a b : ℕ)
  | ret (a : ℕ)
  | print
  | stmtCheck
  | pushScope
  | popScope
  | forPrep (captured : Bool) (a : ℕ) (var : StrRef)
  | forLoop (captured : Bool) (a : ℕ) (var : StrRef)
  | forInPrep
  | forInNext (a : ℕ)
  | forInAdvance (a : ℕ)
  | yield
deriving DecidableEq, Inhabited

/-- `code[at].a = target`. -/
def Instr.setA : Instr → ℕ → Instr
  | .jump _, t => .jump t
  | .jumpScopes _ b, t => .jumpScopes t b
  | .jumpIfFalse _, t => .jumpIfFalse t
  | .jumpIfFalseKeep _, t => .jumpIfFalseKeep t
  | .jumpIfTrueKeep _, t => .jumpIfTrueKeep t
  | .forPrep c _ v, t => .forPrep c t v
  | .forLoop c _ v, t => .forLoop c t v
  | .forInNext _, t => .forInNext t
  | .forInAdvance _, t => .forInAdvance t
  | i, _ => i

/-- `code[at].b = n` (patched in `JumpScopes` only). -/
def Instr.setB : Instr → ℕ → Instr
  | .jumpScopes a _, n => .jumpScopes a n
  | i, _ => i

end Lua
end Rustrapper
