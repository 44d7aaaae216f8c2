/-
# Instructions along a course

For each instruction, where the machine gets to with it: from the address
behind it, or the address it jumps to, and what it leaves on the stacks and in
the heap. An instruction that evaluates something is followed by what its
evaluation (`Lua/Meaning`) ends in.
-/
import Rustrapper.Lua.Leads
import Rustrapper.Lua.Placement
import Rustrapper.Lua.Scoping

namespace Rustrapper
namespace Lua

open Effect

section Exec
variable (R : Rec) (b : LuaState) (st : List Value) (fr : List Frame) (mk : List ℕ) (h : Heap) (n : ℕ)

@[simp] theorem exec_pop_put (v : Value) :
    R.exec pop (b.put (v :: st) fr mk h n) = .ok v (b.put st fr mk h n) :=
  exec_pop R _ rfl

theorem exec_pushVal_put {v : Value} (hc : st.length < STACK_CAP) :
    R.exec (pushVal v) (b.put st fr mk h n) = .ok () (b.put (v :: st) fr mk h n) :=
  exec_pushVal R _ v hc

theorem exec_topVal_put (v : Value) :
    R.exec topVal (b.put (v :: st) fr mk h n) = .ok v (b.put (v :: st) fr mk h n) := by
  simp [topVal, bind_apply]

end Exec

namespace Course
variable {C : Course} {p p' : ℕ} {st st' : List Value} {fr fr' : List Frame} {mk mk' : List ℕ} {h h' : Heap}
  {i : Instr} {v : Value}

/-! ### Values -/

/-- An instruction that ends with pushing a value. -/
theorem push (hi : C.b.code[p]? = some i) (hu : Unprotected fr')
    (hx : ∀ k n, (interp C.L (k + 1)).exec (execInstr C.L (p + 1) i) (C.b.put st fr mk h n) =
      (interp C.L (k + 1)).exec (do pushVal v; pure (.goto p')) (C.b.put st' fr' mk' h' n))
    (hn : C.leads p' (v :: st') fr' mk' h') : C.leads p st fr mk h := by
  by_cases hc : st'.length < STACK_CAP
  · refine goto hi hu (fun k n => ?_) hn
    rw [hx, exec_bind, bind_ok (exec_pushVal_put _ _ _ _ _ _ _ hc)]
    rfl
  · refine giveUp st' mk' h' hi hu (fun k n => ?_) (e := .lua (.msg "stack overflow"))
      (by simp [GaveUp])
    rw [hx, exec_bind]
    exact bind_error (exec_pushVal_full _ (C.b.put st' fr' mk' h' n) v hc) _

theorem pushConst (hi : C.b.code[p]? = some (.pushConst v)) (hu : Unprotected fr)
    (hn : C.leads (p + 1) (v :: st) fr mk h) : C.leads p st fr mk h :=
  push hi hu (fun _ _ => rfl) hn

theorem pushNil (hi : C.b.code[p]? = some .pushNil) (hu : Unprotected fr)
    (hn : C.leads (p + 1) (.nil :: st) fr mk h) : C.leads p st fr mk h :=
  push hi hu (fun _ _ => rfl) hn

theorem pushInt {a : ℕ} (hi : C.b.code[p]? = some (.pushInt a)) (hu : Unprotected fr)
    (hn : C.leads (p + 1) (.num (Int64.ofNat a) :: st) fr mk h) : C.leads p st fr mk h :=
  push hi hu (fun _ _ => rfl) hn

theorem loadFunc {fi : ℕ} (hi : C.b.code[p]? = some (.loadFunc fi)) (hu : Unprotected fr)
    (hn : C.leads (p + 1) (.func fi :: st) fr mk h) : C.leads p st fr mk h :=
  push hi hu (fun _ _ => rfl) hn

theorem pop (hi : C.b.code[p]? = some .pop) (hu : Unprotected fr) (hn : C.leads (p + 1) st fr mk h) :
    C.leads p (v :: st) fr mk h := by
  refine goto hi hu (fun k n => ?_) hn
  rw [execInstr, exec_bind, bind_ok (exec_pop_put ..)]
  rfl

theorem dup (hi : C.b.code[p]? = some .dup) (hu : Unprotected fr)
    (hn : C.leads (p + 1) (v :: v :: st) fr mk h) : C.leads p (v :: st) fr mk h := by
  refine push hi hu (fun k n => ?_) hn
  rw [execInstr, exec_bind, bind_ok (exec_topVal_put ..)]

/-- `nil`s on top. -/
theorem pushNils {S : Site} (him : S.code = C.b.code) (hu : Unprotected fr) :
    ∀ {n p q : ℕ} {st : List Value}, Repeated S .pushNil n p q →
      C.leads q (List.replicate n .nil ++ st) fr mk h → C.leads p st fr mk h
  | 0, p, q, st, hr, hn => by
    obtain ⟨rfl, -⟩ := hr
    exact hn
  | n + 1, p, q, st, hr, hn => by
    obtain ⟨rfl, hcode⟩ := hr
    have h0 := hcode 0 (Nat.succ_pos n)
    refine pushNil (him ▸ h0) hu (pushNils him hu (n := n) (q := p + (n + 1)) ⟨by omega, fun j hj => ?_⟩ ?_)
    · have := hcode (j + 1) (by omega)
      rwa [show p + 1 + j = p + (j + 1) by omega]
    · rw [List.replicate_succ', List.append_assoc] at hn
      exact hn

/-! ### Jumps -/

theorem jump {a : ℕ} (hi : C.b.code[p]? = some (.jump a)) (hu : Unprotected fr) (hn : C.leads a st fr mk h) :
    C.leads p st fr mk h :=
  goto hi hu (fun _ _ => rfl) hn

theorem jumpIfFalse {a : ℕ} (hi : C.b.code[p]? = some (.jumpIfFalse a)) (hu : Unprotected fr)
    (hn : if truthy v then C.leads (p + 1) st fr mk h else C.leads a st fr mk h) :
    C.leads p (v :: st) fr mk h := by
  cases hv : truthy v with
  | true =>
    rw [hv, if_pos rfl] at hn
    refine goto hi hu (fun k n => ?_) hn
    rw [execInstr, exec_bind, bind_ok (exec_pop_put ..), hv]
    rfl
  | false =>
    rw [hv, if_neg Bool.false_ne_true] at hn
    refine goto hi hu (fun k n => ?_) hn
    rw [execInstr, exec_bind, bind_ok (exec_pop_put ..), hv]
    rfl

theorem jumpIfFalseKeep {a : ℕ} (hi : C.b.code[p]? = some (.jumpIfFalseKeep a)) (hu : Unprotected fr)
    (hn : if truthy v then C.leads (p + 1) st fr mk h else C.leads a (v :: st) fr mk h) :
    C.leads p (v :: st) fr mk h := by
  cases hv : truthy v with
  | true =>
    rw [hv, if_pos rfl] at hn
    refine goto hi hu (fun k n => ?_) hn
    rw [execInstr, exec_bind, bind_ok (exec_topVal_put ..), hv, if_pos rfl, exec_bind, bind_ok (exec_pop_put ..)]
    rfl
  | false =>
    rw [hv, if_neg Bool.false_ne_true] at hn
    refine goto hi hu (fun k n => ?_) hn
    rw [execInstr, exec_bind, bind_ok (exec_topVal_put ..), hv, if_neg Bool.false_ne_true]
    rfl

theorem jumpIfTrueKeep {a : ℕ} (hi : C.b.code[p]? = some (.jumpIfTrueKeep a)) (hu : Unprotected fr)
    (hn : if truthy v then C.leads a (v :: st) fr mk h else C.leads (p + 1) st fr mk h) :
    C.leads p (v :: st) fr mk h := by
  cases hv : truthy v with
  | true =>
    rw [hv, if_pos rfl] at hn
    refine goto hi hu (fun k n => ?_) hn
    rw [execInstr, exec_bind, bind_ok (exec_topVal_put ..), hv, if_pos rfl]
    rfl
  | false =>
    rw [hv, if_neg Bool.false_ne_true] at hn
    refine goto hi hu (fun k n => ?_) hn
    rw [execInstr, exec_bind, bind_ok (exec_topVal_put ..), hv, if_neg Bool.false_ne_true, exec_bind,
      bind_ok (exec_pop_put ..)]
    rfl

/-! ### Operators -/

theorem sem_mono {α : Type} {y : Sem α} {K K' : α → Heap → Prop} (hy : C.sem y K h)
    (hk : ∀ a h, K a h → K' a h) : C.sem y K' h :=
  Wp.mono hy hk

/-- An instruction that pushes what an operator makes of the values it took off. -/
theorem operator {x : LuaM Value} {y : Sem Value} (hi : C.b.code[p]? = some i) (hu : Unprotected fr)
    (hx : ∀ k n, (interp C.L (k + 1)).exec (execInstr C.L (p + 1) i) (C.b.put st fr mk h n) =
      (interp C.L (k + 1)).exec (do pushVal (← x); pure (.goto (p + 1))) (C.b.put st' fr mk h n))
    (ho : ∀ k n, OverHeap (interp C.L (k + 1)) (C.b.put st' fr mk h n) x y)
    (hy : C.sem y (fun v h' => C.leads (p + 1) (v :: st') fr mk h') h) : C.leads p st fr mk h :=
  overHeap hi hu hx ho (sem_mono hy fun _ _ hn hx' => push hi hu hx' hn)

/-- An instruction that does something with the values it took off. -/
theorem effect {α : Type} {x : LuaM α} {y : Sem α} (hi : C.b.code[p]? = some i) (hu : Unprotected fr)
    (hx : ∀ k n, (interp C.L (k + 1)).exec (execInstr C.L (p + 1) i) (C.b.put st fr mk h n) =
      (interp C.L (k + 1)).exec (do let _ ← x; pure (.goto (p + 1))) (C.b.put st' fr mk h n))
    (ho : ∀ k n, OverHeap (interp C.L (k + 1)) (C.b.put st' fr mk h n) x y)
    (hy : C.sem y (fun _ h' => C.leads (p + 1) st' fr mk h') h) : C.leads p st fr mk h :=
  overHeap hi hu hx ho (sem_mono hy fun _ _ hn hx' => goto hi hu hx' hn)

theorem binOp {op : Op} {a b : Value} (hi : C.b.code[p]? = some (.binOp op)) (hu : Unprotected fr)
    (hy : C.sem (binaryOf C.L op a b) (fun v h' => C.leads (p + 1) (v :: st) fr mk h') h) :
    C.leads p (b :: a :: st) fr mk h := by
  refine operator hi hu (fun k n => ?_) (fun k n => overHeap_binop C.L op a b) hy
  rw [execInstr, exec_bind, bind_ok (exec_pop_put ..), exec_bind, bind_ok (exec_pop_put ..)]

theorem unOp {op : Op} (hi : C.b.code[p]? = some (.unOp op)) (hu : Unprotected fr)
    (hy : C.sem (unaryOf op v) (fun v h' => C.leads (p + 1) (v :: st) fr mk h') h) :
    C.leads p (v :: st) fr mk h := by
  refine operator hi hu (fun k n => ?_) (fun k n => overHeap_unary op v) hy
  rw [execInstr, exec_bind, bind_ok (exec_pop_put ..)]
  cases op <;> rfl

/-- The table accesses are run by an interpreter with one less of fuel. -/
theorem overHeap_doTget (L : Lib) (k : ℕ) (s : LuaState) (t key : Value) :
    OverHeap (interp L (k + 1)) s (doTget t key) (indexOf t key) := by
  have ht := overHeap_tget (R := interp L k) (s := s) t key
  unfold OverHeap at ht ⊢
  rw [doTget, exec_perform]
  exact ht

theorem overHeap_doTset (L : Lib) (k : ℕ) (s : LuaState) (t key v : Value) :
    OverHeap (interp L (k + 1)) s (doTset t key v) (setIndexOf t key v) := by
  have ht := overHeap_tset (R := interp L k) (s := s) t key v
  unfold OverHeap at ht ⊢
  rw [doTset, exec_perform]
  exact ht

theorem getIndex {t key : Value} (hi : C.b.code[p]? = some .getIndex) (hu : Unprotected fr)
    (hy : C.sem (indexOf t key) (fun v h' => C.leads (p + 1) (v :: st) fr mk h') h) :
    C.leads p (key :: t :: st) fr mk h := by
  refine operator hi hu (fun k n => ?_) (fun k n => overHeap_doTget C.L k _ t key) hy
  rw [execInstr, exec_bind, bind_ok (exec_pop_put ..), exec_bind, bind_ok (exec_pop_put ..)]

theorem setIndex {t key : Value} (hi : C.b.code[p]? = some .setIndex) (hu : Unprotected fr)
    (hy : C.sem (setIndexOf t key v) (fun _ h' => C.leads (p + 1) st fr mk h') h) :
    C.leads p (v :: key :: t :: st) fr mk h := by
  refine effect hi hu (fun k n => ?_) (fun k n => overHeap_doTset C.L k _ t key v) hy
  rw [execInstr, exec_bind, bind_ok (exec_pop_put ..), exec_bind, bind_ok (exec_pop_put ..), exec_bind,
    bind_ok (exec_pop_put ..)]

theorem newTable (hi : C.b.code[p]? = some .newTable) (hu : Unprotected fr)
    (hy : C.sem freshTable (fun v h' => C.leads (p + 1) (v :: st) fr mk h') h) : C.leads p st fr mk h := by
  refine operator (x := do pure (.table (← Lua.newTable))) hi hu (fun k n => ?_) (fun k n => overHeap_newTable) hy
  rw [execInstr]
  simp only [exec_bind, exec_pure, bind_assoc, pure_bind]

theorem print (hi : C.b.code[p]? = some .print) (hu : Unprotected fr)
    (hy : C.sem (do printOf C.L v; emitOf [10]) (fun _ h' => C.leads (p + 1) st fr mk h') h) :
    C.leads p (v :: st) fr mk h := by
  refine effect (x := do tostring C.L v; emitBytes [10]) hi hu (fun k n => ?_)
    (fun k n => (overHeap_print C.L v).bind fun _ _ => overHeap_emit _) hy
  rw [execInstr, exec_bind, bind_ok (exec_pop_put ..)]
  simp only [exec_bind, exec_pure, bind_assoc]

theorem stmtCheck (hi : C.b.code[p]? = some .stmtCheck) (hu : Unprotected fr)
    (hv : v ≠ .exit ∧ v ≠ .shell ∧ v ≠ .dhcp ∧ v ≠ .ls) (hn : C.leads (p + 1) st fr mk h) :
    C.leads p (v :: st) fr mk h := by
  refine goto hi hu (fun k n => ?_) hn
  rw [execInstr, exec_bind, bind_ok (exec_pop_put ..)]
  obtain ⟨h1, h2, h3, h4⟩ := hv
  cases v with
  | exit => exact absurd rfl h1
  | shell => exact absurd rfl h2
  | dhcp => exact absurd rfl h3
  | ls => exact absurd rfl h4
  | _ => rfl

/-! ### Blocks -/

theorem unprotected_cons {f : Frame} (hf : f.isProtected = false) (hu : Unprotected fr) :
    Unprotected (f :: fr) := by
  intro g hg
  rcases List.mem_cons.mp hg with rfl | hg
  · exact hf
  · exact hu g hg

theorem pushScope (hi : C.b.code[p]? = some .pushScope) (hu : Unprotected fr)
    (hn : C.leads (p + 1) st ({} :: fr) mk h) : C.leads p st fr mk h := by
  by_cases hc : fr.length < MAX_FRAMES
  · refine goto hi (unprotected_cons rfl hu) (fun k n => ?_) hn
    rw [execInstr, exec_bind, bind_ok (exec_pushFrame _ (C.b.put st fr mk h n) _ hc)]
    rfl
  · refine giveUp st mk h hi hu (fun k n => ?_)
      (e := .lua (.msg "call stack overflow")) (by simp [GaveUp])
    rw [execInstr, exec_bind]
    exact bind_error (exec_pushFrame_full _ (C.b.put st fr mk h n) _ hc) _

theorem Unprotected.tail (hu : Unprotected fr) : Unprotected fr.tail :=
  fun f hf => hu f (List.mem_of_mem_tail hf)

theorem popScope (hi : C.b.code[p]? = some .popScope) (hu : Unprotected fr)
    (hn : C.leads (p + 1) st fr.tail mk h) : C.leads p st fr mk h := by
  refine goto hi (Unprotected.tail hu) (fun k n => ?_) hn
  rw [execInstr, exec_bind, bind_ok (exec_popFrame ..)]
  rfl

theorem popScopes {S : Site} (him : S.code = C.b.code) :
    ∀ {n p q : ℕ} {fr : List Frame}, Unprotected fr → Repeated S .popScope n p q →
      C.leads q st (fr.drop n) mk h → C.leads p st fr mk h
  | 0, p, q, fr, _, hr, hn => by
    obtain ⟨rfl, -⟩ := hr
    exact hn
  | n + 1, p, q, fr, hu, hr, hn => by
    obtain ⟨rfl, hcode⟩ := hr
    have h0 := hcode 0 (Nat.succ_pos n)
    refine popScope (him ▸ h0) hu (popScopes him (n := n) (q := p + (n + 1)) (Unprotected.tail hu)
      ⟨by omega, fun j hj => ?_⟩ ?_)
    · have := hcode (j + 1) (by omega)
      rwa [show p + 1 + j = p + (j + 1) by omega]
    · rwa [List.drop_tail]

theorem jumpScopes {a d : ℕ} (hi : C.b.code[p]? = some (.jumpScopes a d)) (hu : Unprotected fr)
    (hn : C.leads a st (fr.drop d) mk h) : C.leads p st fr mk h := by
  refine goto hi (fun f hf => hu f (List.mem_of_mem_drop hf)) (fun k n => ?_) hn
  rw [execInstr, exec_bind, popFrames, exec_modify]
  rfl

/-! ### Variables -/

section Variables
variable {sk rest : List Frame} {env : Env} {name : StrRef}

/-- A variable is read, or a global. -/
theorem getVar (hi : C.b.code[p]? = some (.getVar name)) (hu : Unprotected (lay sk env ++ rest)) (hb : IsBody sk)
    (hl : sk.length = env.length) (hd : Distinct env)
    (hy : C.sem (readVar env name) (fun v h' => C.leads (p + 1) (v :: st) (lay sk env ++ rest) mk h') h) :
    C.leads p st (lay sk env ++ rest) mk h := by
  have hlook : ∀ n, (C.b.put st (lay sk env ++ rest) mk h n).lookup name =
      (findVar name env).or (h.globalValue name) := fun n => lookup_lay rfl hb hl hd
  unfold sem Wp readVar at hy
  have hx : ∀ k n, (interp C.L (k + 1)).exec (execInstr C.L (p + 1) (.getVar name))
      (C.b.put st (lay sk env ++ rest) mk h n) = (interp C.L (k + 1)).exec
        (((findVar name env).or (h.globalValue name)).elim (err "undefined variable")
          fun v => do pushVal v; pure (.goto (p + 1))) (C.b.put st (lay sk env ++ rest) mk h n) := by
    intro k n
    rw [execInstr, exec_bind, exec_get, bind_ok (getMachine_apply _), hlook]
    cases (findVar name env).or (h.globalValue name) <;> rfl
  cases hv : findVar name env with
  | some v =>
    rw [hv] at hy
    simp only [hv] at hx
    exact push hi hu hx hy
  | none =>
    rw [hv] at hy
    simp only [hv, Option.none_or] at hx
    dsimp only at hy
    rw [run_get] at hy
    cases hg : h.globalValue name with
    | some v =>
      rw [hg] at hy
      simp only [hg] at hx
      exact push hi hu hx hy
    | none =>
      rw [hg] at hy
      simp only [hg] at hx
      exact stop st mk h hi hu hx fun n => hy _ rfl

theorem setGlobal (hi : C.b.code[p]? = some (.setGlobal name)) (hu : Unprotected fr)
    (hn : C.leads (p + 1) st fr mk (h.setGlobal name v)) : C.leads p (v :: st) fr mk h := by
  refine goto hi hu (fun k n => ?_) hn
  rw [execInstr, exec_bind, bind_ok (exec_pop_put ..), Lua.setGlobal, exec_bind, exec_modify]
  rfl

/-- What `assignVar` does to the frames and the globals. -/
theorem assignVar_wp (b : LuaState) (st : List Value) (rest : List Frame) (mk : List ℕ) (name : StrRef) (h : Heap)
    (hl : sk.length = env.length) (hb : IsBody sk) (hd : Distinct env) (v : Value) :
    Wp (writeVar env name v) (fun env' h' => (∀ (R : Rec) (n : ℕ), R.exec (assignVar name v)
        (b.put st (lay sk env ++ rest) mk h n) = .ok () (b.put st (lay sk env' ++ rest) mk h' n)) ∧
      scopeNames env' = scopeNames env) (fun _ _ => False) h := by
  have hplace : ∀ n, (b.put st (lay sk env ++ rest) mk h n).findPlace name (lay sk env ++ rest) 0 =
      placeIn name env 0 := fun n => findPlace_lay 0 hb hl hd
  unfold writeVar
  rcases assign_lay (v := v) 0 hl hd with ⟨h1, h2⟩ | ⟨d, w, env', h1, h2, h3⟩
  · rw [h2]
    refine ⟨fun R n => ?_, rfl⟩
    have hno : R.exec (assignLocal name v) (b.put st (lay sk env ++ rest) mk h n) =
        .ok false (b.put st (lay sk env ++ rest) mk h n) := by
      rw [assignLocal, exec_bind, exec_get, bind_ok (getMachine_apply _), put_frames, hplace, h1]
      rfl
    rw [assignVar, exec_bind, bind_ok hno]
    rfl
  · rw [h2]
    refine ⟨fun R n => ?_, assignVarIn_names h2⟩
    have hyes : R.exec (assignLocal name v) (b.put st (lay sk env ++ rest) mk h n) =
        .ok true (b.put st (lay sk env' ++ rest) mk h n) := by
      rw [assignLocal, exec_bind, exec_get, bind_ok (getMachine_apply _), put_frames, hplace, h1]
      rw [Nat.zero_add, ← h3]
      rfl
    rw [assignVar, exec_bind, bind_ok hyes]
    rfl

/-! ### Declarations -/

/-- Room for more variables in a frame. -/
def FitsLocals (f : Frame) (names : List StrRef) : Prop :=
  names = [] ∨ f.locals.length + names.length ≤ MAX_LOCALS

/-- The frame with more variables. -/
def grown (f : Frame) (names : List StrRef) (vs : List Value) : Frame :=
  { f with locals := f.locals ++ bindLocals names vs }

theorem declareLocals_put (R : Rec) (b : LuaState) : ∀ (names : List StrRef) (vs : List Value) (f : Frame)
    (n : ℕ), FitsLocals f names → R.exec (declareLocals names vs) (b.put st (f :: fr) mk h n) =
      .ok () (b.put st (grown f names vs :: fr) mk h n)
  | [], vs, f, n, _ => by simp [declareLocals, bindLocals, grown]
  | name :: names, vs, f, n, hf =>
    exec_declareLocals R (name :: names) vs _ rfl (hf.resolve_left (List.cons_ne_nil _ _))

theorem declareLocals_full (b : LuaState) : ∀ (names : List StrRef) (vs : List Value) (f : Frame),
    ¬ FitsLocals f names → ∃ ls, ∀ (R : Rec) (n : ℕ),
      R.exec (declareLocals names vs) (b.put st (f :: fr) mk h n) =
        .error (.lua (.msg "too many locals")) (b.put st ({ f with locals := ls } :: fr) mk h n)
  | [], vs, f, hf => absurd (.inl rfl) hf
  | name :: names, vs, f, hf => by
    by_cases hroom : f.locals.length < MAX_LOCALS
    · have hrest : ¬ FitsLocals { f with locals := f.locals ++ [⟨name, vs.headD .nil, NO_CELL⟩] } names := by
        rintro (rfl | hle)
        · exact hf (.inr (by simpa using hroom))
        · exact hf (.inr (by simp only [List.length_append, List.length_cons, List.length_nil] at hle ⊢; omega))
      obtain ⟨ls, hls⟩ := declareLocals_full b names vs.tail _ hrest
      refine ⟨ls, fun R n => ?_⟩
      rw [declareLocals, exec_bind,
        bind_ok (exec_declareLocal R (b.put st (f :: fr) mk h n) name _ rfl hroom)]
      exact hls R n
    · refine ⟨f.locals, fun R n => ?_⟩
      rw [declareLocals, exec_bind]
      exact bind_error (exec_declareLocal_full R (b.put st (f :: fr) mk h n) name _ rfl hroom) _

theorem topVals_put (R : Rec) (b : LuaState) {vs : List Value} {c n : ℕ} (hc : vs.length = c) :
    R.exec (topVals c) (b.put (vs.reverse ++ st) fr mk h n) = .ok vs (b.put (vs.reverse ++ st) fr mk h n) := by
  subst hc
  rw [exec_topVals R _ _ (by simp [Machine.vsp])]
  simp

theorem dropVals_put {α : Type} (R : Rec) (b : LuaState) {vs : List Value} {c n : ℕ} (hc : vs.length = c)
    (x : LuaM α) : R.exec (do
      setVsp ((← get).vsp - c)
      x) (b.put (vs.reverse ++ st) fr mk h n) = R.exec x (b.put st fr mk h n) := by
  subst hc
  have hlen : (b.put (vs.reverse ++ st) fr mk h n).vsp - vs.length = st.length := by simp [Machine.vsp]
  rw [exec_bind, exec_get, bind_ok (getMachine_apply _), exec_bind]
  change (R.exec (setVsp ((b.put (vs.reverse ++ st) fr mk h n).vsp - vs.length)) >>= _) _ = _
  rw [hlen, bind_ok (exec_setVsp ..), put_vstack, resize_append]
  rfl

theorem declareLocal {f : Frame} (names : List StrRef) (vs : List Value) {c : ℕ}
    (hi : C.b.code[p]? = some (.declareLocal names c)) (hf : f.isProtected = false)
    (hu : Unprotected fr) (hc : vs.length = c) (hn : C.leads (p + 1) st (grown f names vs :: fr) mk h) :
    C.leads p (vs.reverse ++ st) (f :: fr) mk h := by
  by_cases hfit : FitsLocals f names
  · refine goto hi (unprotected_cons (f := grown f names vs) hf hu) (fun k n => ?_) hn
    rw [execInstr, exec_bind, bind_ok (topVals_put _ _ hc), exec_bind,
      bind_ok (declareLocals_put _ C.b names vs f n hfit), dropVals_put _ _ hc]
    rfl
  · obtain ⟨ls, hls⟩ := declareLocals_full (h := h) C.b names vs f hfit
    refine giveUp (vs.reverse ++ st) mk h (e := .lua (.msg "too many locals")) hi
      (unprotected_cons (f := { f with locals := ls }) hf hu) (fun k n => ?_) (by simp [GaveUp])
    rw [execInstr, exec_bind, bind_ok (topVals_put _ _ hc), exec_bind]
    exact bind_error (hls _ n) _

/-- The variables of a block, when it declares more of them. -/
theorem grown_lay {f : Frame} {bs : Bindings} (names : List StrRef) (vs : List Value) :
    grown { f with locals := localsOf bs } names vs =
      { f with locals := localsOf ((bindNames names vs).reverse ++ bs) } := by
  rw [localsOf_declare]
  rfl

end Variables

end Course

end Lua
end Rustrapper
