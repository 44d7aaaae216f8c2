/-
# The machine follows the meaning of expressions

`Follows n`: where an evaluation with fuel `n` leads, the code of it leads the
machine too. The fuel is that of the evaluation, and every part of a script is
evaluated with one less, so that what follows for one more fuel follows from
`Follows n` case by case. The cases of expressions are here, those of
statements in `Lua/Preserve`.
-/
import Rustrapper.Lua.Calls
import Rustrapper.Lua.Emission

namespace Rustrapper
namespace Lua

open Effect

/-! ### Rules for evaluations -/

section Rules
variable {C : Course} {α β : Type} {h : Heap} {K : α → Heap → Prop}

@[simp] theorem sem_pure (a : α) : C.sem (pure a) K h ↔ K a h := Iff.rfl

@[simp] theorem sem_unknown : C.sem (unknown : Sem α) K h ↔ False := Iff.rfl

@[simp] theorem sem_bind {K : β → Heap → Prop} {x : Sem α} {f : α → Sem β} :
    C.sem (x >>= f) K h ↔ C.sem x (fun a => C.sem (f a) K) h := wp_bind

theorem sem_one {K : Value → Heap → Prop} {x : Sem (List Value)} :
    C.sem (one x) K h ↔ C.sem x (fun vs => K (vs.headD .nil)) h := sem_bind

/-- What always holds of the results may be used. -/
theorem Course.sem_and {x : Sem α} {P : α → Prop} (hP : Wp x (fun a _ => P a) (fun _ _ => True) h)
    (hx : C.sem x K h) : C.sem x (fun a h' => P a ∧ K a h') h := by
  unfold Course.sem at *
  unfold Wp at *
  cases hr : x h with
  | ok a h' =>
    rw [hr] at hP hx
    exact ⟨hP, hx⟩
  | error e h' =>
    rw [hr] at hx
    exact hx

end Rules

/-! ### Places -/

/-- A place in the code of the image. -/
def Site.within (S : Site) (im : Image) (ups : List ℕ) : Prop := S.toImage = im ∧ S.ups = ups

theorem Site.within.deeper {S : Site} {im : Image} {ups : List ℕ} (h : S.within im ups) : S.deeper.within im ups := h

theorem Site.within.inLoop {S : Site} {im : Image} {ups : List ℕ} (h : S.within im ups) (target : ℕ) :
    (S.inLoop target).within im ups := h

/-- The names of new variables go to the innermost block. -/
def addNames (new : List StrRef) : List (List StrRef) → List (List StrRef)
  | [] => []
  | l :: ls => (new.reverse ++ l) :: ls

/-- No block has two variables of one name, with the new ones. -/
def Fresh (new : List StrRef) (env : Env) : Prop := ∀ l ∈ addNames new (scopeNames env), l.Nodup

/-- The names declared in a block itself. -/
def Stmt.declares : Stmt → List StrRef
  | .localDecl names _ => names
  | .localFunc name _ => [name]
  | _ => []

def Block.declares (b : Block) : List StrRef := b.flatMap Stmt.declares

mutual

/-- No block declares a name twice; as many values as there are targets is not all values. -/
def Stmt.tidy : Stmt → Bool
  | .localDecl names _ => names.length != WANT_ALL
  | .assignStmt targets _ => targets.length != WANT_ALL
  | .ifStmt _ thenB els =>
    decide (Block.declares thenB).Nodup && Block.tidy thenB && decide (Block.declares els).Nodup && Block.tidy els
  | .whileStmt _ body | .repeatStmt body _ | .forStmt _ _ _ _ _ body =>
    decide (Block.declares body).Nodup && Block.tidy body
  | .forInStmt _ kvar vvar _ body =>
    vvar != some kvar && decide (Block.declares body).Nodup && Block.tidy body
  | _ => true

def Block.tidy : Block → Bool
  | [] => true
  | st :: rest => st.tidy && Block.tidy rest

end

/-- The functions of a script stand in the code of the machine. -/
structure Hosts (C : Course) (prog : ℕ → Option FuncDef) (im : Image) (ups : List ℕ) : Prop where
  code : im.code = C.b.code
  room : C.b.code.length ≤ MAX_CODE
  func : ∀ {fi fd}, prog fi = some fd → ∃ fd', C.b.funcs[fi]? = some fd' ∧ fd'.params = fd.params ∧
    BodyAt im ups fd.body fd'.entry ∧ ups[fi]? = some fd.upNames.length ∧
    (fd.params ++ Block.declares fd.body).Nodup ∧ Block.tidy fd.body

/-- The frames of a running function, with its variables. -/
def InScope (fr : List Frame) (env : Env) : Prop :=
  ∃ sk rest, fr = lay sk env ++ rest ∧ IsBody sk ∧ sk.length = env.length ∧ Distinct env ∧ Unprotected (sk ++ rest)

theorem InScope.unprotected {fr : List Frame} {env : Env} (h : InScope fr env) : Unprotected fr := by
  obtain ⟨sk, rest, rfl, -, -, -, hu⟩ := h
  exact Course.unprotected_lay hu

section Padding
variable {C : Course} {prog : ℕ → Option FuncDef} {im : Image} {ups : List ℕ} {S : Site} {p q : ℕ}
  {st : List Value} {fr : List Frame} {mk : List ℕ} {h : Heap} {v : Value} {want : ℕ}

theorem Hosts.has (H : Hosts C prog im ups) (hS : S.within im ups) {i : Instr} (hi : S.has p i) :
    C.b.code[p]? = some i := by
  rw [← H.code, ← hS.1]
  exact hi

theorem padTo_one (vs : List Value) : padTo 1 vs = [vs.headD .nil] := by
  cases vs <;> simp [padTo, show (1 : ℕ) ≠ WANT_ALL by decide]

/-- One value, made as many as are wanted. -/
theorem Hosts.padded (H : Hosts C prog im ups) (hS : S.within im ups) (hu : Unprotected fr)
    (hp : Padded S want p q) (hn : C.leads q ((padTo want [v]).reverse ++ st) fr mk h) :
    C.leads p (v :: st) fr mk h := by
  unfold Padded at hp
  split_ifs at hp with h0 h1
  · subst h0
    obtain ⟨hi, rfl⟩ := hp
    exact Course.pop (H.has hS hi) hu hn
  · have hpad : (padTo want [v]).reverse = List.replicate (want - 1) .nil ++ [v] := by
      have ht : [v].take want = [v] := List.take_of_length_le (by simp; omega)
      rw [padTo, if_neg h1.2, ht, List.reverse_append, List.reverse_replicate]
      rfl
    rw [hpad, List.append_assoc] at hn
    refine Course.pushNils (S := S) ?_ hu hp hn
    rw [← H.code, ← hS.1]
  · subst hp
    have hpad : padTo want [v] = [v] := by
      unfold padTo
      split_ifs with hw
      · rfl
      · obtain rfl : want = 1 := by
          by_contra hne
          exact h1 ⟨hne, hw⟩
        rfl
    rw [hpad] at hn
    exact hn

end Padding

/-! ### Following -/

/-- Where the end of a statement is to lead: behind its code, behind the innermost loop, or back from
the function, from any of its returns. `ns` are the names of the variables in front of it, `new` those
it declares. -/
def Course.goesOn (C : Course) (S : Site) (f : Frame) (sk rest : List Frame) (st : List Value) (mk : List ℕ)
    (ns : List (List StrRef)) (new : List StrRef) (q : ℕ) : Flow → Heap → Prop
  | .next env', h => scopeNames env' = addNames new ns → C.leads q st (lay sk env' ++ rest) mk h
  | .brk env', h => scopeNames env'.tail = ns.tail → ∀ d t, S.loop = some (d, t) →
    C.leads t st (lay (sk.drop (S.depth - d)) (env'.drop (S.depth - d)) ++ rest) mk h
  | .ret vs, h => ∀ r a bs, C.b.code[r]? = some (.ret a) → (a = WANT_ALL ∨ a = vs.length) →
    C.leads r (vs.reverse ++ st) (Course.withVars f bs :: rest) mk h

/-- The frames of a function at a place of its code. -/
structure Running (S : Site) (f : Frame) (sk rest : List Frame) (st : List Value) (env : Env) : Prop where
  body : IsBody sk
  last : sk.drop S.depth = [f]
  base : f.base = st.length
  unprotected : Unprotected (sk ++ rest)
  length : sk.length = env.length
  loop : ∀ d t, S.loop = some (d, t) → d ≤ S.depth

/-- The variables of a loop over a table, the newest first. -/
def loopNames (kvar : StrRef) (vvar : Option StrRef) : List StrRef := kvar :: vvar.toList

theorem names_loopVars (kvar : StrRef) (vvar : Option StrRef) (k v : Value) :
    (loopVars kvar vvar k v).map Prod.fst = loopNames kvar vvar := by
  cases vvar <;> rfl

/-- With that fuel, the code leads where the evaluation does. -/
structure Follows (C : Course) (prog : ℕ → Option FuncDef) (im : Image) (ups : List ℕ) (n : ℕ) : Prop where
  expr : ∀ {S e want p q st fr mk env h}, S.within im ups → InScope fr env → ExprAt S e want p q →
    C.sem (evalExpr C.L prog n env e) (fun vs h' => C.leads q ((padTo want vs).reverse ++ st) fr mk h') h →
    C.leads p st fr mk h
  args : ∀ {S args p q st fr mk env h}, S.within im ups → InScope fr env → ArgsAt S args p q →
    C.sem (evalArgs C.L prog n env args) (fun vs h' => C.leads q (vs.reverse ++ st) fr mk h') h →
    C.leads p st fr mk h
  fields : ∀ {S fields p q t st fr mk env h}, S.within im ups → InScope fr env → FieldsAt S fields p q →
    C.sem (evalFields C.L prog n env t fields) (fun _ h' => C.leads q (t :: st) fr mk h') h →
    C.leads p (t :: st) fr mk h
  targets : ∀ {S ts p q st fr mk env h}, S.within im ups → InScope fr env → TargetsAt S ts p q →
    C.sem (evalTargets C.L prog n env ts) (fun vs h' => C.leads q (vs.reverse ++ st) fr mk h') h →
    C.leads p st fr mk h
  apply : ∀ {fv args a want p st fr mk mk₀ h}, C.b.code[p]? = some (.call a want) → Unprotected fr →
    Course.Counted a args st mk mk₀ →
    C.sem (applyValue C.L prog n fv args) (fun vs h' =>
      C.leads (p + 1) ((padTo want vs).reverse ++ st) fr mk₀ h') h →
    C.leads p (args.reverse ++ fv :: st) fr mk h
  stmt : ∀ {S x p q f sk rest st mk env h}, S.within im ups → StmtAt S x p q → x.tidy →
    Running S f sk rest st env → Fresh x.declares env →
    C.sem (runStmt C.L prog n env x) (C.goesOn S f sk rest st mk (scopeNames env) x.declares q) h →
    C.leads p st (lay sk env ++ rest) mk h
  block : ∀ {S b p q f sk rest st mk env h}, S.within im ups → BlockAt S b p q → Block.tidy b →
    Running S f sk rest st env → Fresh (Block.declares b) env →
    C.sem (runBlock C.L prog n env b) (C.goesOn S f sk rest st mk (scopeNames env) (Block.declares b) q) h →
    C.leads p st (lay sk env ++ rest) mk h
  rounds : ∀ {S var c0 c1 c2 body m m' f sk rest st mk env h} {g : Frame}, S.within im ups → S.has m .pushScope →
    BlockAt (S.inLoop (m' + 3)).deeper.deeper body (m + 1) m' → S.has m' .popScope →
    S.has (m' + 1) (.forLoop false m var) → S.has (m' + 2) .popScope → (Block.declares body).Nodup →
    Block.tidy body → Running S f sk rest st env → Distinct env → g.retIp = 0 → g.isProtected = false →
    C.sem (runFor C.L prog n env var c0 c1 c2 body)
      (C.goesOn S f sk rest st mk (scopeNames env) [] (m' + 3)) h →
    C.leads m st (lay (Course.controls g c0 c1 c2 :: sk) ([(var, c0)] :: env) ++ rest) mk h
  entries : ∀ {S kvar vvar i pos c body m m' f bs sk rest st mk env h} {g : Frame}, S.within im ups →
    S.has m (.forInNext (m' + 2)) →
    (∀ v, vvar = some v → S.has (m + 1) (.setLocalTop v)) → (vvar = none → S.has (m + 1) .pop) →
    S.has (m + 2) (.setLocalTop kvar) → S.has (m + 3) .pushScope →
    BlockAt (S.inLoop (m' + 3)).deeper.deeper body (m + 4) m' → S.has m' .popScope →
    S.has (m' + 1) (.forInAdvance m) → S.has (m' + 2) .popScope → vvar ≠ some kvar →
    (Block.declares body).Nodup → Block.tidy body → Running S f sk rest st env → Distinct env →
    g.retIp = 0 → g.isProtected = false →
    (bs = [] ∨ bs.map Prod.fst = loopNames kvar vvar) →
    C.sem (runForIn C.L prog n env kvar vvar i pos body)
      (C.goesOn S f sk rest st mk (scopeNames env) [] (m' + 3)) h →
    C.leads m st (lay (Course.controls g (.num i) (.num pos) c :: sk) (bs :: env) ++ rest) mk h

/-! ### Numbers of values -/

section Lengths
variable {L : Lib} {prog : ℕ → Option FuncDef} {env : Env} {h : Heap}

/-- What is no call has one value. -/
theorem evalExpr_length : ∀ (n : ℕ) {e : Expr}, e.isCall = false →
    Wp (evalExpr L prog n env e) (fun vs _ => vs.length = 1) (fun _ _ => True) h
  | 0, _, _ => trivial
  | n + 1, e, he => by
    cases e with
    | call f args => cases he
    | nil | «true» | «false» | num | float | str => exact rfl
    | var name => exact Wp.after fun _ _ => rfl
    | un op x => exact Wp.after fun _ _ => Wp.after fun _ _ => rfl
    | index base key => exact Wp.after fun _ _ => Wp.after fun _ _ => Wp.after fun _ _ => rfl
    | bin op l r =>
      cases op with
      | and | or =>
        refine Wp.after fun a _ => ?_
        rw [wp_ite]
        split_ifs
        · first | exact Wp.after fun _ _ => rfl | exact rfl
        · first | exact Wp.after fun _ _ => rfl | exact rfl
      | _ => exact Wp.after fun _ _ => Wp.after fun _ _ => Wp.after fun _ _ => rfl
    | funcLit fi =>
      rw [evalExpr]
      cases prog fi with
      | none => trivial
      | some fd =>
        dsimp only
        rw [wp_ite]
        split_ifs
        · trivial
        · exact rfl
    | tableLit fields => exact Wp.after fun _ _ => Wp.after fun _ _ => rfl

/-- Arguments that end in no call are as many as they are. -/
theorem evalArgs_length : ∀ (n : ℕ) (args : List Expr) {h : Heap}, isDynamic args = false →
    Wp (evalArgs L prog n env args) (fun vs _ => vs.length = args.length) (fun _ _ => True) h
  | 0, _, _, _ => trivial
  | _ + 1, [], _, _ => rfl
  | n + 1, [e], _, he => evalExpr_length n he
  | n + 1, e :: e' :: es, h, he => by
    refine Wp.after fun v t => ?_
    rw [wp_bind]
    refine Wp.imp (evalArgs_length n (e' :: es) (by simpa [isDynamic] using he)) (fun vs _ hvs => ?_) fun _ _ => id
    exact congrArg (· + 1) hvs

end Lengths

section Expressions
variable {C : Course} {prog : ℕ → Option FuncDef} {im : Image} {ups : List ℕ} {n : ℕ} {S : Site} {p q : ℕ}
  {st : List Value} {fr : List Frame} {mk : List ℕ} {env : Env} {h : Heap} {want : ℕ}

/-- The first value of an expression. -/
theorem Follows.one (F : Follows C prog im ups n) (hS : S.within im ups) (hi : InScope fr env) {e : Expr}
    (he : ExprAt S e 1 p q)
    (hy : C.sem (one (evalExpr C.L prog n env e)) (fun v h' => C.leads q (v :: st) fr mk h') h) :
    C.leads p st fr mk h := by
  rw [sem_one] at hy
  refine F.expr hS hi he (Course.sem_mono hy fun vs h' hn => ?_)
  rw [padTo_one]
  exact hn

/-- A constant. -/
theorem Hosts.const (H : Hosts C prog im ups) (hS : S.within im ups) (hu : Unprotected fr) {v : Value}
    (hs : Single S (.pushConst v) want p q) (hn : C.leads q ((padTo want [v]).reverse ++ st) fr mk h) :
    C.leads p st fr mk h :=
  Course.pushConst (H.has hS hs.1) hu (H.padded hS hu hs.2 hn)

/-- Expressions follow, where their parts do. -/
theorem Follows.expr_succ (H : Hosts C prog im ups) (F : Follows C prog im ups n) (hS : S.within im ups)
    (hi : InScope fr env) : ∀ {e : Expr}, ExprAt S e want p q →
    C.sem (evalExpr C.L prog (n + 1) env e) (fun vs h' => C.leads q ((padTo want vs).reverse ++ st) fr mk h') h →
    C.leads p st fr mk h := by
  have hu := hi.unprotected
  intro e he hy
  cases e with
  | nil => exact H.const hS hu he hy
  | «true» => exact H.const hS hu he hy
  | «false» => exact H.const hS hu he hy
  | num x => exact H.const hS hu he hy
  | float x => exact H.const hS hu he hy
  | str r => exact H.const hS hu he hy
  | var name =>
    obtain ⟨sk, rest, rfl, hb, hl, hd, -⟩ := id hi
    exact Course.getVar (H.has hS he.1) hu hb hl hd
      (Course.sem_mono (sem_bind.mp hy) fun v h' hn => H.padded hS hu he.2 hn)
  | un op x =>
    rw [ExprAt] at he
    obtain ⟨m, hx, hs, hpad⟩ := he
    refine F.one hS hi hx (Course.sem_mono (sem_bind.mp hy) fun v h' hv => ?_)
    exact Course.unOp (H.has hS hs) hu (Course.sem_mono (sem_bind.mp hv) fun w h' hn => H.padded hS hu hpad hn)
  | index base key =>
    rw [ExprAt] at he
    obtain ⟨m, m', hb, hk, hs, hpad⟩ := he
    refine F.one hS hi hb (Course.sem_mono (sem_bind.mp hy) fun t h' ht => ?_)
    refine F.one hS hi hk (Course.sem_mono (sem_bind.mp ht) fun k h' hk => ?_)
    exact Course.getIndex (H.has hS hs) hu (Course.sem_mono (sem_bind.mp hk) fun w h' hn => H.padded hS hu hpad hn)
  | bin op l r =>
    rw [ExprAt] at he
    obtain ⟨m, m', hl, hr, hpad⟩ := he
    cases op with
    | and =>
      rw [if_pos rfl] at hr
      refine F.one hS hi hl (Course.sem_mono (sem_bind.mp hy) fun a h' ha => ?_)
      refine Course.jumpIfFalseKeep (H.has hS hr.1) hu ?_
      split_ifs with ht
      · rw [if_pos ht] at ha
        exact F.one hS hi hr.2 (Course.sem_mono (sem_bind.mp ha) fun w h' hn => H.padded hS hu hpad hn)
      · rw [if_neg ht] at ha
        exact H.padded hS hu hpad ha
    | or =>
      rw [if_neg (by decide), if_pos rfl] at hr
      refine F.one hS hi hl (Course.sem_mono (sem_bind.mp hy) fun a h' ha => ?_)
      refine Course.jumpIfTrueKeep (H.has hS hr.1) hu ?_
      split_ifs with ht
      · rw [if_pos ht] at ha
        exact H.padded hS hu hpad ha
      · rw [if_neg ht] at ha
        exact F.one hS hi hr.2 (Course.sem_mono (sem_bind.mp ha) fun w h' hn => H.padded hS hu hpad hn)
    | _ =>
      rw [if_neg (by decide), if_neg (by decide)] at hr
      obtain ⟨m₁, hr, hop, rfl⟩ := hr
      refine F.one hS hi hl (Course.sem_mono (sem_bind.mp hy) fun a h' ha => ?_)
      refine F.one hS hi hr (Course.sem_mono (sem_bind.mp ha) fun b h' hb => ?_)
      exact Course.binOp (H.has hS hop) hu
        (Course.sem_mono (sem_bind.mp hb) fun w h' hn => H.padded hS hu hpad hn)
  | call f args =>
    rw [ExprAt] at he
    obtain ⟨p1, p2, p3, hm, hf, ha, hle, hc, rfl⟩ := he
    have hsmall : args.length ≠ WANT_ALL := fun heq => absurd (heq ▸ hle) (by decide)
    cases hdyn : isDynamic args with
    | true =>
      rw [hdyn, if_pos rfl] at hm hc
      obtain ⟨hm, rfl⟩ := hm
      refine Course.mark (H.has hS hm) hu ?_
      refine F.one hS hi hf (Course.sem_mono (sem_bind.mp hy) fun fv h' hfv => ?_)
      refine F.args hS hi ha (Course.sem_mono (sem_bind.mp hfv) fun vs h' hvs => ?_)
      exact F.apply (H.has hS hc) hu (.inl ⟨rfl, rfl⟩) hvs
    | false =>
      rw [hdyn, if_neg Bool.false_ne_true] at hm hc
      subst hm
      refine F.one hS hi hf (Course.sem_mono (sem_bind.mp hy) fun fv h' hfv => ?_)
      refine F.args hS hi ha (Course.sem_mono (Course.sem_and (evalArgs_length n args hdyn) (sem_bind.mp hfv))
        fun vs h' hvs => ?_)
      obtain ⟨hlen, hvs⟩ := hvs
      exact F.apply (H.has hS hc) hu (.inr ⟨hsmall, hlen.symm, rfl⟩) hvs
  | funcLit fi =>
    rw [ExprAt] at he
    obtain ⟨⟨-, hload⟩, hpad⟩ := he
    rw [evalExpr] at hy
    cases hfd : prog fi with
    | none =>
      rw [hfd] at hy
      exact hy.elim
    | some fd =>
      rw [hfd] at hy
      obtain ⟨fd', -, -, -, hups, -⟩ := H.func hfd
      dsimp only at hy
      split_ifs at hy with hup
      · exact hy.elim
      · have h0 : S.ups[fi]? = some 0 := by
          rw [hS.2, hups]
          congr 1
          omega
        exact Course.loadFunc (H.has hS (hload h0)) hu (H.padded hS hu hpad hy)
  | tableLit fields =>
    rw [ExprAt] at he
    obtain ⟨m, hnew, hf, hpad⟩ := he
    refine Course.newTable (H.has hS hnew) hu (Course.sem_mono (sem_bind.mp hy) fun t h' ht => ?_)
    exact F.fields hS hi hf (Course.sem_mono (sem_bind.mp ht) fun _ h' hn => H.padded hS hu hpad hn)

/-- Arguments follow, where their parts do. -/
theorem Follows.args_succ (F : Follows C prog im ups n) (hS : S.within im ups) (hi : InScope fr env) :
    ∀ {args : List Expr}, ArgsAt S args p q →
      C.sem (evalArgs C.L prog (n + 1) env args) (fun vs h' => C.leads q (vs.reverse ++ st) fr mk h') h →
      C.leads p st fr mk h
  | [], ha, hy => by
    obtain rfl : q = p := ha
    exact hy
  | [e], ha, hy => by
    obtain ⟨m, he, rfl⟩ := ha
    exact F.expr hS hi he hy
  | e :: e' :: es, ha, hy => by
    rw [ArgsAt] at ha
    obtain ⟨m, he, hes⟩ := ha
    refine F.one hS hi he (Course.sem_mono (sem_bind.mp hy) fun v h' hv => ?_)
    refine F.args hS hi hes (Course.sem_mono (sem_bind.mp hv) fun vs h' hn => ?_)
    have hn : C.leads q ((v :: vs).reverse ++ st) fr mk h' := hn
    rwa [List.reverse_cons, List.append_assoc] at hn

/-- The fields of a table literal follow, where their parts do. -/
theorem Follows.fields_succ (H : Hosts C prog im ups) (F : Follows C prog im ups n) (hS : S.within im ups)
    (hi : InScope fr env) {t : Value} : ∀ {fields : List (Expr × Expr)}, FieldsAt S fields p q →
      C.sem (evalFields C.L prog (n + 1) env t fields) (fun _ h' => C.leads q (t :: st) fr mk h') h →
      C.leads p (t :: st) fr mk h
  | [], hf, hy => by
    obtain rfl : q = p := hf
    exact hy
  | (k, v) :: fields, hf, hy => by
    have hu := hi.unprotected
    rw [FieldsAt] at hf
    obtain ⟨m, m', hdup, hk, hv, hset, hrest⟩ := hf
    refine Course.dup (H.has hS hdup) hu ?_
    refine F.one hS hi hk (Course.sem_mono (sem_bind.mp hy) fun kv h' hkv => ?_)
    refine F.one hS hi hv (Course.sem_mono (sem_bind.mp hkv) fun vv h' hvv => ?_)
    exact Course.setIndex (H.has hS hset) hu (Course.sem_mono (sem_bind.mp hvv) fun _ h' hn =>
      F.fields hS hi hrest hn)

/-- The bases and keys of targets follow. -/
theorem Follows.targets_succ (F : Follows C prog im ups n) (hS : S.within im ups) (hi : InScope fr env) :
    ∀ {ts : List Expr}, TargetsAt S ts p q →
      C.sem (evalTargets C.L prog (n + 1) env ts) (fun vs h' => C.leads q (vs.reverse ++ st) fr mk h') h →
      C.leads p st fr mk h
  | [], ht, hy => by
    obtain rfl : q = p := ht
    exact hy
  | .index base key :: ts, ht, hy => by
    obtain ⟨m, m', hb, hk, hts⟩ := ht
    refine F.one hS hi hb (Course.sem_mono (sem_bind.mp hy) fun b h' hb => ?_)
    refine F.one hS hi hk (Course.sem_mono (sem_bind.mp hb) fun k h' hk => ?_)
    refine F.targets hS hi hts (Course.sem_mono (sem_bind.mp hk) fun vs h' hn => ?_)
    have hn : C.leads q ((b :: k :: vs).reverse ++ st) fr mk h' := hn
    rwa [List.reverse_cons, List.reverse_cons, List.append_assoc, List.append_assoc] at hn
  | .nil :: ts, ht, hy | .true :: ts, ht, hy | .false :: ts, ht, hy | .num _ :: ts, ht, hy
  | .float _ :: ts, ht, hy | .str _ :: ts, ht, hy | .var _ :: ts, ht, hy | .bin .. :: ts, ht, hy
  | .un .. :: ts, ht, hy | .call .. :: ts, ht, hy | .funcLit _ :: ts, ht, hy
  | .tableLit _ :: ts, ht, hy => F.targets hS hi (show TargetsAt S ts p q from ht) hy

end Expressions

end Lua
end Rustrapper
