/-
# The machine does what scripts mean

The cases of calls and statements, and from them the induction on the fuel of
the evaluation: where the meaning of a script ends, its compiled code ends the
same way on the machine, unless the machine gives up for want of room or steps
(`script_preserved`).
-/
import Rustrapper.Lua.Follows

namespace Rustrapper
namespace Lua

open Effect

/-! ### Names -/

theorem addNames_nil : ∀ ls : List (List StrRef), addNames [] ls = ls
  | [] => rfl
  | _ :: _ => rfl

theorem addNames_append (new new' : List StrRef) : ∀ ls : List (List StrRef),
    addNames new' (addNames new ls) = addNames (new ++ new') ls
  | [] => rfl
  | _ :: _ => by simp [addNames]

theorem addNames_tail (new : List StrRef) : ∀ ls : List (List StrRef), (addNames new ls).tail = ls.tail
  | [] => rfl
  | _ :: _ => rfl

theorem length_addNames (new : List StrRef) (ls : List (List StrRef)) : (addNames new ls).length = ls.length := by
  cases ls <;> rfl

theorem scopeNames_declare (names : List StrRef) (vs : List Value) : ∀ env : Env,
    scopeNames (declare names vs env) = addNames names (scopeNames env)
  | [] => rfl
  | bs :: env => by
    rw [declare, scopeNames_cons, List.map_append, List.map_reverse, names_bindNames]
    rfl

section Names
variable {new new' : List StrRef} {env env' : Env}

theorem Fresh.first (h : Fresh (new ++ new') env) : Fresh new env := by
  unfold Fresh at *
  cases env with
  | nil => exact h
  | cons bs env =>
    intro l hl
    rcases List.mem_cons.mp hl with rfl | hl
    · have hn := h _ (List.mem_cons_self ..)
      rw [List.reverse_append, List.append_assoc] at hn
      exact (List.nodup_append.mp hn).2.1
    · exact h l (List.mem_cons_of_mem _ hl)

theorem Fresh.rest (h : Fresh (new ++ new') env) (hn : scopeNames env' = addNames new (scopeNames env)) :
    Fresh new' env' := by
  unfold Fresh
  rw [hn, addNames_append]
  exact h

theorem fresh_nil : Fresh [] env ↔ Distinct env := by
  unfold Fresh Distinct scopeNames
  rw [addNames_nil]
  exact List.forall_mem_map

theorem Fresh.distinct (h : Fresh new env) : Distinct env :=
  fresh_nil.mp (Fresh.first h)

/-- A block that is entered. -/
theorem fresh_open (hd : Distinct env) (hn : new.Nodup) : Fresh new ([] :: env) := by
  intro l hl
  rcases List.mem_cons.mp hl with rfl | hl
  · simpa using hn
  · exact (fresh_nil.mpr hd) l (by rwa [addNames_nil])

theorem Distinct.cons {bs : Bindings} (hd : Distinct env) (hn : (bs.map Prod.fst).Nodup) : Distinct (bs :: env) := by
  intro b hb
  rcases List.mem_cons.mp hb with rfl | hb
  · exact hn
  · exact hd b hb

end Names

/-! ### Frames -/

theorem drop_lay (rest : List Frame) : ∀ {k : ℕ} {sk : List Frame} {env : Env}, k ≤ sk.length →
    sk.length = env.length → (lay sk env ++ rest).drop k = lay (sk.drop k) (env.drop k) ++ rest
  | 0, _, _, _, _ => rfl
  | k + 1, [], _, hk, _ => by simp at hk
  | k + 1, _ :: _, [], _, hl => by simp at hl
  | k + 1, f :: sk, bs :: env, hk, hl => by
    rw [lay_cons, List.cons_append, List.drop_succ_cons, List.drop_succ_cons, List.drop_succ_cons]
    exact drop_lay rest (by simpa using hk) (by simpa using hl)

section Running
variable {S : Site} {f g : Frame} {sk rest : List Frame} {st : List Value} {env env' : Env}

theorem Running.inScope (h : Running S f sk rest st env) (hd : Distinct env) : InScope (lay sk env ++ rest) env :=
  ⟨sk, rest, rfl, h.body, h.length, hd, h.unprotected⟩

theorem Running.depth_lt (h : Running S f sk rest st env) : S.depth < sk.length := by
  have := congrArg List.length h.last
  rw [List.length_drop, List.length_singleton] at this
  omega

theorem Running.congr (h : Running S f sk rest st env) (hl : env'.length = env.length) :
    Running S f sk rest st env' :=
  ⟨h.body, h.last, h.base, h.unprotected, h.length.trans hl.symm, h.loop⟩

/-- A block of the function is entered. -/
theorem Running.enter (h : Running S f sk rest st env) (bs : Bindings) (hr : g.retIp = 0)
    (hp : g.isProtected = false) : Running S.deeper f (g :: sk) rest st (bs :: env) := by
  refine ⟨?_, h.last, h.base, Course.unprotected_cons hp h.unprotected, congrArg (· + 1) h.length,
    fun d t hl => (h.loop d t hl).trans (Nat.le_succ _)⟩
  cases sk with
  | nil => exact h.body.elim
  | cons f' sk => exact ⟨hr, h.body⟩

/-- The body of a loop is entered. -/
theorem Running.inLoop (h : Running S f sk rest st env) (target : ℕ) : Running (S.inLoop target) f sk rest st env := by
  refine ⟨h.body, h.last, h.base, h.unprotected, h.length, fun d t hl => ?_⟩
  cases hl
  exact le_rfl

/-- The function's own frame is left when the others are dropped. -/
theorem Running.bottom (h : Running S f sk rest st env) : ∃ bs,
    (lay sk env ++ rest).drop S.depth = Course.withVars f bs :: rest := by
  have hlt := h.depth_lt
  rw [drop_lay rest hlt.le h.length, h.last]
  cases henv : env.drop S.depth with
  | nil =>
    have := congrArg List.length henv
    rw [List.length_drop, List.length_nil, ← h.length] at this
    omega
  | cons bs env' => exact ⟨bs, by rw [lay_cons, lay, List.zipWith_nil_left]; rfl⟩

end Running

section Calls
variable {C : Course} {prog : ℕ → Option FuncDef} {im : Image} {ups : List ℕ} {n : ℕ}

/-- Code addresses are no special return addresses. -/
theorem Hosts.ret_ne (H : Hosts C prog im ups) {p : ℕ} {i : Instr} (hi : C.b.code[p]? = some i) :
    p + 1 ≠ RET_HALT ∧ p + 1 ≠ RET_PCALL := by
  have hlt := (List.getElem?_eq_some_iff.mp hi).1
  have hroom := H.room
  simp only [MAX_CODE] at hroom
  simp only [RET_HALT, RET_PCALL]
  omega

/-- What a function whose body ends so returns. -/
def Flow.results : Flow → Sem (List Value)
  | .next _ => pure []
  | .ret vs => pure vs
  | .brk _ => unknown

/-- The body of a called function, and the return from it. -/
theorem Follows.called (H : Hosts C prog im ups) (F : Follows C prog im ups n) {fd fd' : FuncDef}
    {args st : List Value} {want p : ℕ} {fr : List Frame} {mk : List ℕ} {h : Heap} {i : Instr}
    (hi : C.b.code[p]? = some i) (hu : Unprotected fr) (hbody : BodyAt im ups fd.body fd'.entry)
    (hparams : fd'.params = fd.params) (hnodup : (fd.params ++ Block.declares fd.body).Nodup)
    (htidy : Block.tidy fd.body)
    (hy : C.sem (runBlock C.L prog n [(bindNames fd.params args).reverse] fd.body) (fun fl h' =>
      C.sem fl.results (fun vs h'' => C.leads (p + 1) ((padTo want vs).reverse ++ st) fr mk h'') h') h) :
    C.leads fd'.entry st (Course.calledFrame fd' args (p + 1) want st.length :: fr) mk h := by
  obtain ⟨m, hblock, hret⟩ := hbody
  have hne := H.ret_ne hi
  have hcode : C.b.code[m]? = some (.ret 0) := by rw [← H.code]; exact hret
  have hframe : Course.calledFrame fd' args (p + 1) want st.length :: fr =
      lay [Course.calledFrame fd' args (p + 1) want st.length] [(bindNames fd.params args).reverse] ++ fr := by
    rw [lay_cons, localsOf, List.reverse_reverse, ← bindLocals_eq, ← hparams]
    rfl
  have hback : ∀ {r a : ℕ} {bs : Bindings} {vs : List Value} {h'}, C.b.code[r]? = some (.ret a) →
      (a = WANT_ALL ∨ a = vs.length) → C.leads (p + 1) ((padTo want vs).reverse ++ st) fr mk h' →
      C.leads r (vs.reverse ++ st)
        (Course.withVars (Course.calledFrame fd' args (p + 1) want st.length) bs :: fr) mk h' :=
    fun hr ha hn => Course.ret hr (Course.unprotected_cons rfl hu) rfl ha hne hn
  rw [hframe]
  refine F.block (S := { im with depth := 0, loop := none, ups := ups }) ⟨rfl, rfl⟩ hblock htidy
    ⟨⟨Nat.succ_ne_zero p, rfl⟩, rfl, rfl, Course.unprotected_cons rfl hu, rfl, fun _ _ hl => by cases hl⟩ ?_ ?_
  · intro l hl
    obtain rfl := List.mem_singleton.mp hl
    change (_ ++ (bindNames fd.params args).reverse.map Prod.fst).Nodup
    rw [List.map_reverse, names_bindNames, ← List.reverse_append, List.nodup_reverse]
    exact hnodup
  · refine Course.sem_mono hy fun fl h' hfl => ?_
    cases fl with
    | next env' =>
      intro hnames
      have hlen := congrArg List.length hnames
      rw [length_addNames, length_scopeNames, length_scopeNames] at hlen
      cases env' with
      | nil => cases hlen
      | cons bs env' =>
        obtain rfl : env' = [] := List.length_eq_zero_iff.mp (by simpa using hlen)
        exact hback hcode (.inr rfl) hfl
    | brk env' => exact hfl.elim
    | ret vs => exact fun r a bs hr ha => hback hr ha hfl

/-- Calls follow, where the bodies of functions do. -/
theorem Follows.apply_succ (H : Hosts C prog im ups) (F : Follows C prog im ups n) {fv : Value}
    {args st : List Value} {a want p : ℕ} {fr : List Frame} {mk mk₀ : List ℕ} {h : Heap}
    (hi : C.b.code[p]? = some (.call a want)) (hu : Unprotected fr) (hc : Course.Counted a args st mk mk₀)
    (hy : C.sem (applyValue C.L prog (n + 1) fv args) (fun vs h' =>
      C.leads (p + 1) ((padTo want vs).reverse ++ st) fr mk₀ h') h) :
    C.leads p (args.reverse ++ fv :: st) fr mk h := by
  have hout : ∀ fv, (∀ (R : Rec) (s : LuaState), R.exec (callee fv) s = .ok none s) →
      isOther fv args.length = true →
      C.sem (do plain fv; fails "attempt to call a non-function value" : Sem (List Value)) (fun vs h' =>
        C.leads (p + 1) ((padTo want vs).reverse ++ st) fr mk₀ h') h →
      C.leads p (args.reverse ++ fv :: st) fr mk h := fun fv hf ho hy => Course.callOther hi hu hc ho hf hy
  cases fv with
  | nil => exact hout _ (fun _ _ => rfl) rfl hy
  | bool b => exact hout _ (fun _ _ => rfl) rfl hy
  | float x => exact hout _ (fun _ _ => rfl) rfl hy
  | str r => exact hout _ (fun _ _ => rfl) rfl hy
  | table i => exact hout _ (fun _ _ => rfl) rfl hy
  | native id => exact Course.callNative hi hu hc hy
  | func fi =>
    rw [applyValue] at hy
    cases hfd : prog fi with
    | none =>
      rw [hfd] at hy
      exact hy.elim
    | some fd =>
      rw [hfd] at hy
      obtain ⟨fd', hfd', hparams, hbody, -, hnodup, htidy⟩ := H.func hfd
      refine Course.callFunc hi hu hc hfd' ?_
      exact F.called H hi hu hbody hparams hnodup htidy (sem_bind.mp hy)
  | _ => exact hy.elim

end Calls

/-! ### Statements -/

section Statements
variable {C : Course} {prog : ℕ → Option FuncDef} {im : Image} {ups : List ℕ} {n : ℕ} {S : Site} {p q : ℕ}
  {f : Frame} {sk rest : List Frame} {st : List Value} {mk : List ℕ} {env : Env} {h : Heap}

/-- Behind a statement that declares nothing and has changed no block. -/
theorem Course.goesOn_next {ns : List (List StrRef)} {env' : Env}
    (hn : C.goesOn S f sk rest st mk ns [] q (.next env') h) (hnames : scopeNames env' = ns) : C.leads q st (lay sk env' ++ rest) mk h :=
  hn (hnames.trans (addNames_nil ns).symm)

theorem stmt_local (H : Hosts C prog im ups) (F : Follows C prog im ups n) (hS : S.within im ups)
    (hr : Running S f sk rest st env) {names : List StrRef} {val : Expr} {m : ℕ} (hfr : Fresh names env)
    (hw : names.length ≠ WANT_ALL) (he : ExprAt S val names.length p m)
    (hi : S.has m (.declareLocal names names.length))
    (hy : C.sem (evalExpr C.L prog n env val) (fun vs h' =>
      C.goesOn S f sk rest st mk (scopeNames env) names (m + 1) (.next (declare names vs env)) h') h) :
    C.leads p st (lay sk env ++ rest) mk h := by
  refine F.expr hS (hr.inScope hfr.distinct) he (Course.sem_mono hy fun vs h' hn => ?_)
  have hn := hn (scopeNames_declare names vs env)
  have hlen : (padTo names.length vs).length = names.length := by rw [padTo_length, if_neg hw]
  have hu := hr.unprotected
  have hl := hr.length
  cases sk with
  | nil => exact hr.body.elim
  | cons g sk =>
    cases env with
    | nil => simp at hl
    | cons bs env =>
      refine Course.declareLocal _ _ (H.has hS hi) (hu g (List.mem_cons_self ..))
        (Course.unprotected_lay fun f hf => hu f (List.mem_cons_of_mem _ hf)) hlen ?_
      rw [Course.grown_lay, padTo, if_neg hw, bindNames_padTo]
      exact hn

theorem evalTargets_length {L : Lib} : ∀ (n : ℕ) (ts : List Expr) {h : Heap},
    Wp (evalTargets L prog n env ts) (fun vs _ => vs.length = 2 * (ts.map targetOf).countP (· = .index))
      (fun _ _ => True) h
  | 0, _, _ => trivial
  | _ + 1, [], _ => rfl
  | n + 1, .index base key :: ts, h => by
    refine Wp.after fun _ _ => Wp.after fun _ t => ?_
    rw [wp_bind]
    refine Wp.imp (evalTargets_length n ts) (fun vs _ hvs => ?_) fun _ _ => id
    change vs.length + 1 + 1 = 2 * List.countP _ (Target.index :: ts.map targetOf)
    rw [List.countP_cons_of_pos (by simp), hvs]
    omega
  | n + 1, .nil :: ts, _ | n + 1, .true :: ts, _ | n + 1, .false :: ts, _ | n + 1, .num _ :: ts, _
  | n + 1, .float _ :: ts, _ | n + 1, .str _ :: ts, _ | n + 1, .var _ :: ts, _ | n + 1, .bin .. :: ts, _
  | n + 1, .un .. :: ts, _ | n + 1, .call .. :: ts, _ | n + 1, .funcLit _ :: ts, _
  | n + 1, .tableLit _ :: ts, _ => by
    refine Wp.imp (evalTargets_length n ts) (fun vs _ hvs => ?_) fun _ _ => id
    rw [hvs, List.map_cons, List.countP_cons_of_neg (by simp [targetOf])]

theorem stmt_assign (H : Hosts C prog im ups) (F : Follows C prog im ups n) (hS : S.within im ups)
    (hr : Running S f sk rest st env) (hd : Distinct env) {targets : List Expr} {val : Expr} {m m' : ℕ}
    (hw : targets.length ≠ WANT_ALL) (ht : TargetsAt S targets p m) (he : ExprAt S val targets.length m m')
    (hi : S.has m' (.assignMulti (targets.map targetOf) targets.length))
    (hy : C.sem (do
      let prefixes ← evalTargets C.L prog n env targets
      let vs ← evalExpr C.L prog n env val
      pure (.next (← assignAll env (targets.map targetOf) vs prefixes)))
        (C.goesOn S f sk rest st mk (scopeNames env) [] (m' + 1)) h) :
    C.leads p st (lay sk env ++ rest) mk h := by
  have hsc := hr.inScope hd
  refine F.targets hS hsc ht (Course.sem_mono (Course.sem_and (evalTargets_length n targets) (sem_bind.mp hy))
    fun prefixes h' hps => ?_)
  obtain ⟨hlen, hps⟩ := hps
  refine F.expr hS hsc he (Course.sem_mono (sem_bind.mp hps) fun vs h' hvs => ?_)
  have hc : (padTo targets.length vs).length = targets.length := by rw [padTo_length, if_neg hw]
  have hall : assignAll env (targets.map targetOf) (padTo targets.length vs) prefixes =
      assignAll env (targets.map targetOf) vs prefixes := by
    have := Course.assignAll_padTo (targets.map targetOf) vs prefixes env
    rw [List.length_map] at this
    rw [padTo, if_neg hw, this]
  rw [← List.append_assoc, ← List.reverse_append]
  refine Course.assignMulti (H.has hS hi) hr.unprotected hr.body hr.length hd hc hlen ?_
  rw [hall]
  exact Course.sem_mono (sem_bind.mp hvs) fun env' h' hn hnames =>
    Course.goesOn_next (S := S) (f := f) hn hnames

/-! ### Blocks that are left -/

/-- The end of an inner block, where that of the statement around it leads on. -/
theorem Running.leaves (hr : Running S f sk rest st env) {g : Frame} {l new : List StrRef} {ns : List (List StrRef)}
    {m : ℕ} (hpop : ∀ b env' h', C.leads q st (lay sk env' ++ rest) mk h' →
      C.leads m st (lay (g :: sk) (b :: env') ++ rest) mk h') {fl : Flow}
    (hk : C.goesOn S f sk rest st mk ns [] q fl.leave h) :
    C.goesOn S.deeper f (g :: sk) rest st mk (l :: ns) new m fl h := by
  cases fl with
  | next env' =>
    intro hnames
    cases env' with
    | nil => cases hnames
    | cons b env' => exact hpop b env' h (Course.goesOn_next hk (List.cons.inj hnames).2)
  | brk env' =>
    intro hnames d t hl
    have hd := hr.loop d t hl
    have hdrop : S.deeper.depth - d = S.depth - d + 1 := Nat.succ_sub hd
    have hn := hk ((scopeNames_tail _).trans (congrArg List.tail hnames)) d t hl
    rw [hdrop, List.drop_succ_cons, ← List.tail_drop]
    rw [List.drop_tail, ← List.tail_drop] at hn
    exact hn
  | ret vs => exact hk

/-- A block, and the `PopScope` behind it. -/
theorem Hosts.popped (H : Hosts C prog im ups) (hS : S.within im ups) {g : Frame} {m : ℕ} {b : Bindings}
    {env' : Env} (hu : Unprotected (g :: sk ++ rest)) (hi : S.has m .popScope)
    (hn : C.leads (m + 1) st (lay sk env' ++ rest) mk h) :
    C.leads m st (lay (g :: sk) (b :: env') ++ rest) mk h :=
  Course.popScope (H.has hS hi) (Course.unprotected_lay hu) hn

/-- A block that a statement is made of is entered. -/
theorem Follows.entered (H : Hosts C prog im ups) (F : Follows C prog im ups n) (hS : S.within im ups)
    (hr : Running S f sk rest st env) (hd : Distinct env) {b : Block} {m m' : ℕ} (hi : S.has m .pushScope)
    (hb : BlockAt S.deeper b (m + 1) m') (hnodup : (Block.declares b).Nodup) (ht : Block.tidy b)
    (hy : C.sem (runBlock C.L prog n ([] :: env) b)
      (C.goesOn S.deeper f ({} :: sk) rest st mk (scopeNames ([] :: env)) (Block.declares b) m') h) :
    C.leads m st (lay sk env ++ rest) mk h := by
  refine Course.pushScope (H.has hS hi) (Course.unprotected_lay hr.unprotected) ?_
  exact F.block (S := S.deeper) hS hb ht (hr.enter [] rfl rfl) (fresh_open hd hnodup) hy

theorem stmt_if (H : Hosts C prog im ups) (F : Follows C prog im ups n) (hS : S.within im ups)
    (hr : Running S f sk rest st env) (hd : Distinct env) {cond : Expr} {thenB els : Block}
    (ht : (Stmt.ifStmt cond thenB els).tidy) (hx : StmtAt S (.ifStmt cond thenB els) p q)
    (hy : C.sem (runStmt C.L prog (n + 1) env (.ifStmt cond thenB els))
      (C.goesOn S f sk rest st mk (scopeNames env) [] q) h) :
    C.leads p st (lay sk env ++ rest) mk h := by
  rw [StmtAt] at hx
  obtain ⟨m, m', hc, hj, hpush, hthen, hpop, hjump, hels⟩ := hx
  simp only [Stmt.tidy, Bool.and_eq_true, decide_eq_true_eq] at ht
  obtain ⟨⟨⟨hnt, htt⟩, hne⟩, hte⟩ := ht
  have hu : Unprotected (lay sk env ++ rest) := Course.unprotected_lay hr.unprotected
  have hug : Unprotected (({} : Frame) :: sk ++ rest) := Course.unprotected_cons rfl hr.unprotected
  refine F.one hS (hr.inScope hd) hc (Course.sem_mono (sem_bind.mp hy) fun v h' hv => ?_)
  refine Course.jumpIfFalse (H.has hS hj) hu ?_
  split_ifs with hv'
  · rw [if_pos hv'] at hv
    refine F.entered H hS hr hd hpush hthen hnt htt (Course.sem_mono (sem_bind.mp hv) fun fl h' hk => ?_)
    refine hr.leaves (fun b env' h' hn => ?_) hk
    exact H.popped hS hug hpop (Course.jump (H.has hS hjump) (Course.unprotected_lay hr.unprotected) hn)
  · rw [if_neg hv'] at hv
    split_ifs at hels with he
    · subst hels
      rw [if_pos he] at hv
      exact Course.goesOn_next (S := S) (f := f) hv rfl
    · obtain ⟨m₂, hpush₂, hb₂, hpop₂, rfl⟩ := hels
      rw [if_neg he] at hv
      refine F.entered H hS hr hd hpush₂ hb₂ hne hte (Course.sem_mono (sem_bind.mp hv) fun fl h' hk => ?_)
      exact hr.leaves (fun b env' h' hn => H.popped hS hug hpop₂ hn) hk

/-! ### Loops -/

/-- What follows the body of a loop that ends so. -/
def Flow.afterBody (round : Env → Sem Flow) : Flow → Sem Flow
  | .next env => round env
  | .brk env => pure (.next env.tail)
  | .ret vs => pure (.ret vs)

/-- The end of the body of a loop: what goes round, what leaves the loop, and what leaves the function. -/
theorem goesOn_body {g : Frame} {l new : List StrRef} {m : ℕ} {round : Env → Sem Flow} {fl : Flow}
    (hnext : ∀ b env' h', b.map Prod.fst = new.reverse ++ l → scopeNames env' = scopeNames env →
      C.sem (round (b :: env')) (C.goesOn S f sk rest st mk (scopeNames env) [] q) h' →
      C.leads m st (lay (g :: sk) (b :: env') ++ rest) mk h')
    (hy : C.sem (fl.afterBody round) (C.goesOn S f sk rest st mk (scopeNames env) [] q) h) :
    C.goesOn (S.inLoop q).deeper f (g :: sk) rest st mk (l :: scopeNames env) new m fl h := by
  cases fl with
  | next env' =>
    intro hnames
    cases env' with
    | nil => cases hnames
    | cons b env' =>
      obtain ⟨hb, henv⟩ := List.cons.inj hnames
      exact hnext b env' h hb henv hy
  | brk env' =>
    intro hnames d t hl
    obtain ⟨rfl, rfl⟩ := Prod.mk.inj (Option.some.inj hl)
    have hdrop : (S.inLoop q).deeper.depth - S.depth = 0 + 1 := Nat.add_sub_cancel_left ..
    have hn := Course.goesOn_next (S := S) (f := f) hy hnames
    rw [hdrop, List.drop_succ_cons, ← List.drop_tail]
    exact hn
  | ret vs => exact hy

theorem stmt_while (H : Hosts C prog im ups) (F : Follows C prog im ups n) (hS : S.within im ups)
    (hr : Running S f sk rest st env) (hd : Distinct env) {cond : Expr} {body : Block}
    (ht : (Stmt.whileStmt cond body).tidy) (hx : StmtAt S (.whileStmt cond body) p q)
    (hy : C.sem (runStmt C.L prog (n + 1) env (.whileStmt cond body))
      (C.goesOn S f sk rest st mk (scopeNames env) [] q) h) :
    C.leads p st (lay sk env ++ rest) mk h := by
  have hloop := hx
  rw [StmtAt] at hx
  obtain ⟨m, m', hc, hj, hpush, hbody, hpop, hjump, -⟩ := hx
  have hxt := ht
  simp only [Stmt.tidy, Bool.and_eq_true, decide_eq_true_eq] at hxt
  obtain ⟨hnb, htb⟩ := hxt
  have hug : Unprotected (({} : Frame) :: sk ++ rest) := Course.unprotected_cons rfl hr.unprotected
  refine F.one hS (hr.inScope hd) hc (Course.sem_mono (sem_bind.mp hy) fun v h' hv => ?_)
  refine Course.jumpIfFalse (H.has hS hj) (Course.unprotected_lay hr.unprotected) ?_
  split_ifs with hv'
  · rw [if_pos hv'] at hv
    refine F.entered (S := S.inLoop q) H hS (hr.inLoop q) hd hpush hbody hnb htb
      (Course.sem_mono (sem_bind.mp hv) fun fl h' hk => ?_)
    refine goesOn_body (fun b env' h' _ hnames hn => ?_) hk
    refine H.popped hS hug hpop (Course.jump (H.has hS hjump) (Course.unprotected_lay hr.unprotected) ?_)
    refine F.stmt hS hloop ht (hr.congr (scopeNames_length hnames)) (fresh_nil.mpr (hd.of_names hnames)) ?_
    rw [hnames]
    exact hn
  · rw [if_neg hv'] at hv
    exact Course.goesOn_next (S := S) (f := f) hv rfl

theorem stmt_repeat (H : Hosts C prog im ups) (F : Follows C prog im ups n) (hS : S.within im ups)
    (hr : Running S f sk rest st env) (hd : Distinct env) {cond : Expr} {body : Block}
    (ht : (Stmt.repeatStmt body cond).tidy) (hx : StmtAt S (.repeatStmt body cond) p q)
    (hy : C.sem (runStmt C.L prog (n + 1) env (.repeatStmt body cond))
      (C.goesOn S f sk rest st mk (scopeNames env) [] q) h) :
    C.leads p st (lay sk env ++ rest) mk h := by
  have hloop := hx
  rw [StmtAt] at hx
  obtain ⟨m, m', hpush, hbody, hc, hpop, hj, rfl⟩ := hx
  have hxt := ht
  simp only [Stmt.tidy, Bool.and_eq_true, decide_eq_true_eq] at hxt
  obtain ⟨hnb, htb⟩ := hxt
  have hug : Unprotected (({} : Frame) :: sk ++ rest) := Course.unprotected_cons rfl hr.unprotected
  refine F.entered (S := S.inLoop (m' + 2)) H hS (hr.inLoop _) hd hpush hbody hnb htb
    (Course.sem_mono (sem_bind.mp hy) fun fl h' hk => ?_)
  refine goesOn_body (fun b env' h' hb hnames hn => ?_) hk
  have hd' : Distinct env' := hd.of_names hnames
  have hr' := hr.congr (scopeNames_length hnames)
  have hsc : InScope (lay ({} :: sk) (b :: env') ++ rest) (b :: env') :=
    (hr'.enter b rfl rfl).inScope (hd'.cons (by rw [hb]; simpa using hnb))
  -- the condition is evaluated in the block of the body
  refine F.one (S := (S.inLoop (m' + 2)).deeper) hS hsc hc (Course.sem_mono (sem_bind.mp hn) fun v h' hv => ?_)
  refine H.popped hS hug hpop ?_
  refine Course.jumpIfFalse (H.has hS hj) (Course.unprotected_lay hr.unprotected) ?_
  split_ifs with hv'
  · rw [if_pos hv'] at hv
    exact Course.goesOn_next (S := S) (f := f) hv hnames
  · rw [if_neg hv'] at hv
    refine F.stmt hS hloop ht hr' (fresh_nil.mpr hd') ?_
    rw [hnames]
    exact hv

/-- The only variable of a block is set. -/
theorem bound_single {name : StrRef} {bs : Bindings} (hb : bs.map Prod.fst = [name]) (v : Value) :
    Course.bound name v bs = [(name, v)] := by
  cases bs with
  | nil => cases hb
  | cons b bs =>
    obtain ⟨hname, hnil⟩ := List.cons.inj hb
    obtain rfl : bs = [] := List.map_eq_nil_iff.mp hnil
    obtain ⟨k, w⟩ := b
    obtain rfl : k = name := hname
    simp [Course.bound, updateFirst]

/-- A `break` out of a loop that has a block for its variables. -/
theorem goesOn_break {g g' : Frame} {l l' new : List StrRef} {env' : Env} {m : ℕ}
    (hy : C.goesOn S f sk rest st mk (scopeNames env) [] q (.next env'.tail.tail) h) :
    C.goesOn (S.inLoop q).deeper.deeper f (g :: g' :: sk) rest st mk (l :: l' :: scopeNames env) new m
      (.brk env') h := by
  intro hnames d t hl
  obtain ⟨rfl, rfl⟩ := Prod.mk.inj (Option.some.inj hl)
  have hdrop : (S.inLoop q).deeper.deeper.depth - S.depth = 0 + 1 + 1 := by
    change S.depth + 1 + 1 - S.depth = 0 + 1 + 1
    omega
  have hn := Course.goesOn_next (S := S) (f := f) hy ((scopeNames_tail _).trans (congrArg List.tail hnames))
  rw [hdrop, List.drop_succ_cons, List.drop_succ_cons, ← List.drop_tail, ← List.drop_tail]
  exact hn

theorem Follows.rounds_succ (H : Hosts C prog im ups) (F : Follows C prog im ups n) {var : StrRef}
    {c0 c1 c2 : Value} {body : Block} {m m' : ℕ} {g : Frame} (hS : S.within im ups) (hpush : S.has m .pushScope)
    (hbody : BlockAt (S.inLoop (m' + 3)).deeper.deeper body (m + 1) m') (hpop : S.has m' .popScope)
    (hloop : S.has (m' + 1) (.forLoop false m var)) (hend : S.has (m' + 2) .popScope)
    (hnb : (Block.declares body).Nodup) (htb : Block.tidy body) (hr : Running S f sk rest st env)
    (hd : Distinct env) (hg : g.retIp = 0) (hgp : g.isProtected = false)
    (hy : C.sem (runFor C.L prog (n + 1) env var c0 c1 c2 body)
      (C.goesOn S f sk rest st mk (scopeNames env) [] (m' + 3)) h) :
    C.leads m st (lay (Course.controls g c0 c1 c2 :: sk) ([(var, c0)] :: env) ++ rest) mk h := by
  have hug : ∀ c0, Unprotected (Course.controls g c0 c1 c2 :: sk ++ rest) := fun _ =>
    Course.unprotected_cons hgp hr.unprotected
  have hd' : Distinct ([(var, c0)] :: env) := hd.cons (List.nodup_singleton _)
  refine F.entered (S := (S.inLoop (m' + 3)).deeper) H hS
    ((hr.inLoop _).enter (g := Course.controls g c0 c1 c2) [(var, c0)] hg hgp) hd' hpush hbody hnb htb
    (Course.sem_mono (sem_bind.mp hy) fun fl h' hk => ?_)
  cases fl with
  | next env' =>
    intro hnames
    obtain ⟨b, env', rfl⟩ := List.exists_cons_of_ne_nil (show env' ≠ [] by rintro rfl; cases hnames)
    obtain ⟨bs, env', rfl⟩ := List.exists_cons_of_ne_nil (show env' ≠ [] by rintro rfl; cases (List.cons.inj hnames).2)
    obtain ⟨hvars, hns⟩ := List.cons.inj (List.cons.inj hnames).2
    have hbs : bs.map Prod.fst = [var] := hvars
    have henv : scopeNames env' = scopeNames env := hns
    have hu : Unprotected (lay sk env' ++ rest) := Course.unprotected_lay hr.unprotected
    refine H.popped hS (g := {}) (Course.unprotected_cons rfl (hug c0)) hpop ?_
    cases hnext : loopNext c0 c1 c2 with
    | none =>
      dsimp only at hk
      rw [hnext] at hk
      exact hk.elim
    | some r =>
      dsimp only at hk
      rw [hnext] at hk
      refine Course.forLoop (f := g) (H.has hS hloop) (Course.unprotected_cons hgp hu)
        (by rw [hbs]; exact List.nodup_singleton _) hnext (fun hnone => ?_) fun v hv => ?_
      · subst hnone
        refine H.popped hS (hug c0) hend ?_
        exact Course.goesOn_next (S := S) (f := f) hk henv
      · subst hv
        rw [bound_single hbs]
        refine F.rounds hS hpush hbody hpop hloop hend hnb htb (hr.congr (scopeNames_length henv))
          (hd.of_names henv) hg hgp ?_
        rw [henv]
        exact hk
  | brk env' => exact goesOn_break hk
  | ret vs => exact hk

theorem stmt_for (H : Hosts C prog im ups) (F : Follows C prog im ups n) (hS : S.within im ups)
    (hr : Running S f sk rest st env) (hd : Distinct env) {captured : Bool} {var : StrRef} {start limit : Expr}
    {step : Option Expr} {body : Block} (ht : (Stmt.forStmt captured var start limit step body).tidy)
    (hx : StmtAt S (.forStmt captured var start limit step body) p q)
    (hy : C.sem (runStmt C.L prog (n + 1) env (.forStmt captured var start limit step body))
      (C.goesOn S f sk rest st mk (scopeNames env) [] q) h) :
    C.leads p st (lay sk env ++ rest) mk h := by
  rw [StmtAt] at hx
  obtain ⟨m₁, m₂, m₃, m₄, hpush, h1, h2, h3, hprep, hpush', hbody, hpop, hloop, hend, rfl⟩ := hx
  simp only [Stmt.tidy, Bool.and_eq_true, decide_eq_true_eq] at ht
  obtain ⟨hnb, htb⟩ := ht
  rw [runStmt] at hy
  cases captured with
  | true => exact hy.elim
  | false =>
    rw [if_neg Bool.false_ne_true] at hy
    have hr' : Running S.deeper f (({} : Frame) :: sk) rest st ([] :: env) := hr.enter [] rfl rfl
    have hd' : Distinct ([] :: env) := hd.cons List.nodup_nil
    have hsc := hr'.inScope hd'
    have hug : ∀ g : Frame, g.isProtected = false → Unprotected (g :: (lay sk env ++ rest)) := fun g hg =>
      Course.unprotected_cons hg (Course.unprotected_lay hr.unprotected)
    refine Course.pushScope (H.has hS hpush) (Course.unprotected_lay hr.unprotected) ?_
    refine F.one (S := S.deeper) hS hsc h1 (Course.sem_mono (sem_bind.mp hy) fun x h' hx => ?_)
    refine F.one (S := S.deeper) hS hsc h2 (Course.sem_mono (sem_bind.mp hx) fun y h' hy => ?_)
    have hstart : ∀ z h', C.sem (loopStart x y z >>= fun r =>
        if r.2.2.2 then pure (.next env) else runFor C.L prog n env var r.1 r.2.1 r.2.2.1 body)
          (C.goesOn S f sk rest st mk (scopeNames env) [] (m₄ + 3)) h' →
        C.leads m₃ (z :: y :: x :: st) (lay (({} : Frame) :: sk) ([] :: env) ++ rest) mk h' := by
      intro z h' hz
      refine Course.forPrep (f := {}) (H.has hS hprep) (hug {} rfl) List.nodup_nil
        (Course.sem_mono (sem_bind.mp hz) fun r h' hn => ?_)
      obtain ⟨c0, c1, c2, skip⟩ := r
      cases skip with
      | true =>
        refine H.popped (g := Course.controls {} c0 c1 c2) (b := []) hS
          (Course.unprotected_cons rfl hr.unprotected) hend ?_
        exact Course.goesOn_next (S := S) (f := f) hn rfl
      | false => exact F.rounds (g := {}) hS hpush' hbody hpop hloop hend hnb htb hr hd rfl rfl hn
    cases step with
    | some e =>
      refine F.one (S := S.deeper) hS hsc h3 (Course.sem_mono (sem_bind.mp hy) fun z h' hz => ?_)
      exact hstart z h' hz
    | none =>
      obtain ⟨hi, rfl⟩ := h3
      exact Course.pushInt (H.has hS hi) hsc.unprotected (hstart (.num 1) h' hy)

/-- The two variables of a block are set, the older one first. -/
theorem bound_pair {k v : StrRef} {bs : Bindings} (hne : v ≠ k) (hb : bs = [] ∨ bs.map Prod.fst = [k, v])
    (x y : Value) : (Course.bound v y bs).map Prod.fst ∈ [[v], [k, v]] ∧
      Course.bound k x (Course.bound v y bs) = [(k, x), (v, y)] := by
  rcases hb with rfl | hb
  · simp [Course.bound, hne]
  · obtain ⟨⟨k', a⟩, bs, rfl⟩ := List.exists_cons_of_ne_nil (show bs ≠ [] by rintro rfl; cases hb)
    obtain ⟨hk, hb⟩ := List.cons.inj hb
    obtain ⟨⟨v', b⟩, bs, rfl⟩ := List.exists_cons_of_ne_nil (show bs ≠ [] by rintro rfl; cases hb)
    obtain ⟨hv, hnil⟩ := List.cons.inj hb
    obtain rfl : bs = [] := List.map_eq_nil_iff.mp hnil
    obtain rfl : k' = k := hk
    obtain rfl : v' = v := hv
    simp [Course.bound, updateFirst, Ne.symm hne]

/-- The variables of a loop over a table are set. -/
theorem Hosts.loopVars_set (H : Hosts C prog im ups) (hS : S.within im ups) {kvar : StrRef} {vvar : Option StrRef}
    {m : ℕ} {fr : List Frame} {bs : Bindings} {k v : Value} (hne : vvar ≠ some kvar)
    (hv : ∀ v, vvar = some v → S.has m (.setLocalTop v)) (hnone : vvar = none → S.has m .pop)
    (hk : S.has (m + 1) (.setLocalTop kvar)) (hu : Unprotected (f :: fr))
    (hb : bs = [] ∨ bs.map Prod.fst = loopNames kvar vvar)
    (hn : C.leads (m + 2) st (Course.withVars f (loopVars kvar vvar k v) :: fr) mk h) :
    C.leads m (v :: k :: st) (Course.withVars f bs :: fr) mk h := by
  cases vvar with
  | none =>
    refine Course.pop (H.has hS (hnone rfl)) (Course.unprotected_top hu rfl) ?_
    have hset : Course.bound kvar k bs = [(kvar, k)] := by
      rcases hb with rfl | hb
      · rfl
      · exact bound_single hb k
    refine Course.setLocalTop (H.has hS hk) hu ?_ (by rw [hset]; exact hn)
    rcases hb with rfl | hb
    · exact List.nodup_nil
    · rw [hb]
      exact List.nodup_singleton _
  | some w =>
    have hne' : w ≠ kvar := fun he => hne (congrArg some he)
    obtain ⟨hnames, hset⟩ := bound_pair hne' hb k v
    have hpair : [kvar, w].Nodup := by simp [Ne.symm hne']
    refine Course.setLocalTop (H.has hS (hv w rfl)) hu ?_ ?_
    · rcases hb with rfl | hb
      · exact List.nodup_nil
      · rw [hb]
        exact hpair
    · refine Course.setLocalTop (H.has hS hk) hu ?_ (by rw [hset]; exact hn)
      rcases List.mem_cons.mp hnames with hnames | hnames
      · rw [hnames]
        exact List.nodup_singleton _
      · rw [List.mem_singleton.mp hnames]
        exact hpair

theorem Follows.entries_succ (H : Hosts C prog im ups) (F : Follows C prog im ups n) {kvar : StrRef}
    {vvar : Option StrRef} {i pos : Int64} {c : Value} {body : Block} {m m' : ℕ} {g : Frame} {bs : Bindings}
    (hS : S.within im ups) (hnext : S.has m (.forInNext (m' + 2)))
    (hv : ∀ v, vvar = some v → S.has (m + 1) (.setLocalTop v)) (hnone : vvar = none → S.has (m + 1) .pop)
    (hk' : S.has (m + 2) (.setLocalTop kvar)) (hpush : S.has (m + 3) .pushScope)
    (hbody : BlockAt (S.inLoop (m' + 3)).deeper.deeper body (m + 4) m') (hpop : S.has m' .popScope)
    (hloop : S.has (m' + 1) (.forInAdvance m)) (hend : S.has (m' + 2) .popScope) (hne : vvar ≠ some kvar)
    (hnb : (Block.declares body).Nodup) (htb : Block.tidy body) (hr : Running S f sk rest st env)
    (hd : Distinct env) (hg : g.retIp = 0) (hgp : g.isProtected = false)
    (hb : bs = [] ∨ bs.map Prod.fst = loopNames kvar vvar)
    (hy : C.sem (runForIn C.L prog (n + 1) env kvar vvar i pos body)
      (C.goesOn S f sk rest st mk (scopeNames env) [] (m' + 3)) h) :
    C.leads m st (lay (Course.controls g (.num i) (.num pos) c :: sk) (bs :: env) ++ rest) mk h := by
  have hu : Unprotected (g :: (lay sk env ++ rest)) :=
    Course.unprotected_cons hgp (Course.unprotected_lay hr.unprotected)
  have hug : ∀ pos c, Unprotected (Course.controls g (.num i) (.num pos) c :: sk ++ rest) := fun _ _ =>
    Course.unprotected_cons hgp hr.unprotected
  refine Course.forInNext (f := g) (H.has hS hnext) hu (Course.sem_mono (sem_bind.mp hy) fun r h' hr' => ?_)
  refine ⟨fun hslot => ?_, fun k v hslot => ?_⟩
  · rw [hslot] at hr'
    exact H.popped (g := Course.controls g (.num i) (.num pos) c) hS (hug pos c) hend
      (Course.goesOn_next (S := S) (f := f) hr' rfl)
  · rw [hslot] at hr'
    refine H.loopVars_set (f := Course.controls g (.num i) (.num pos) k) hS hne hv hnone hk'
      (Course.unprotected_cons hgp (Course.unprotected_lay hr.unprotected)) hb ?_
    have hnodup : (loopNames kvar vvar).Nodup := by
      cases vvar with
      | none => exact List.nodup_singleton _
      | some w =>
        have hne' : kvar ≠ w := fun he => hne (congrArg some he.symm)
        simp [loopNames, hne']
    have hd' : Distinct (loopVars kvar vvar k v :: env) := hd.cons (by rw [names_loopVars]; exact hnodup)
    refine F.entered (S := (S.inLoop (m' + 3)).deeper) H hS
      ((hr.inLoop _).enter (g := Course.controls g (.num i) (.num pos) k) (loopVars kvar vvar k v) hg hgp) hd' hpush
      hbody hnb htb (Course.sem_mono (sem_bind.mp hr') fun fl h' hk => ?_)
    cases fl with
    | next env' =>
      intro hnames
      obtain ⟨b, env', rfl⟩ := List.exists_cons_of_ne_nil (show env' ≠ [] by rintro rfl; cases hnames)
      obtain ⟨bs', env', rfl⟩ :=
        List.exists_cons_of_ne_nil (show env' ≠ [] by rintro rfl; cases (List.cons.inj hnames).2)
      obtain ⟨hvars, hns⟩ := List.cons.inj (List.cons.inj hnames).2
      have henv : scopeNames env' = scopeNames env := hns
      refine H.popped hS (g := {}) (Course.unprotected_cons rfl (hug pos k)) hpop ?_
      refine Course.forInAdvance (f := g) (H.has hS hloop)
        (Course.unprotected_cons hgp (Course.unprotected_lay hr.unprotected))
        (Course.sem_mono (sem_bind.mp hk) fun r h' hn => ?_)
      refine F.entries hS hnext hv hnone hk' hpush hbody hpop hloop hend hne hnb htb
        (hr.congr (scopeNames_length henv)) (hd.of_names henv) hg hgp (.inr ?_) ?_
      · exact hvars.trans (names_loopVars kvar vvar k v)
      · rw [henv]
        exact hn
    | brk env' => exact goesOn_break hk
    | ret vs => exact hk

theorem padTo_two (vs : List Value) : padTo 2 vs = [vs.headD .nil, vs.tail.headD .nil] := by
  have hwant : (2 : ℕ) ≠ WANT_ALL := by decide
  rcases vs with _ | ⟨v, _ | ⟨w, vs⟩⟩
  · rfl
  · simp [padTo, hwant]
  · simp [padTo, hwant]

theorem stmt_forIn (H : Hosts C prog im ups) (F : Follows C prog im ups n) (hS : S.within im ups)
    (hr : Running S f sk rest st env) (hd : Distinct env) {captured : Bool} {kvar : StrRef} {vvar : Option StrRef}
    {table : Expr} {body : Block} (ht : (Stmt.forInStmt captured kvar vvar table body).tidy)
    (hx : StmtAt S (.forInStmt captured kvar vvar table body) p q)
    (hy : C.sem (runStmt C.L prog (n + 1) env (.forInStmt captured kvar vvar table body))
      (C.goesOn S f sk rest st mk (scopeNames env) [] q) h) :
    C.leads p st (lay sk env ++ rest) mk h := by
  obtain ⟨m, m', hpush, he, hprep, hnext, hvv, hkk, hpush', hbody, hpop, hloop, hend, rfl⟩ := hx
  simp only [Stmt.tidy, Bool.and_eq_true, decide_eq_true_eq, bne_iff_ne] at ht
  obtain ⟨⟨hne, hnb⟩, htb⟩ := ht
  rw [runStmt] at hy
  cases captured with
  | true => exact hy.elim
  | false =>
    rw [if_neg Bool.false_ne_true] at hy hkk
    have hr' : Running S.deeper f (({} : Frame) :: sk) rest st ([] :: env) := hr.enter [] rfl rfl
    have hsc := hr'.inScope (hd.cons List.nodup_nil)
    refine Course.pushScope (H.has hS hpush) (Course.unprotected_lay hr.unprotected) ?_
    refine F.expr (S := S.deeper) hS hsc he (Course.sem_mono (sem_bind.mp hy) fun vs h' hvs => ?_)
    rw [padTo_two]
    refine Course.forInPrep [] (f := {}) (H.has hS hprep)
      (Course.unprotected_cons rfl (Course.unprotected_lay hr.unprotected))
      (Course.sem_mono (sem_bind.mp hvs) fun i h' hn => ?_)
    refine F.entries (g := {}) hS hnext (fun v hv => ?_) (fun hv => ?_) hkk hpush' hbody hpop hloop hend hne hnb htb
      hr hd rfl rfl (.inl rfl) hn
    · subst hv
      exact hvv
    · subst hv
      exact hvv

theorem stmt_localFunc (H : Hosts C prog im ups) (hS : S.within im ups) (hr : Running S f sk rest st env)
    {name : StrRef} {fi : ℕ} (hfr : Fresh [name] env) (hx : StmtAt S (.localFunc name fi) p q)
    (hy : C.sem (runStmt C.L prog (n + 1) env (.localFunc name fi))
      (C.goesOn S f sk rest st mk (scopeNames env) [name] q) h) :
    C.leads p st (lay sk env ++ rest) mk h := by
  rw [StmtAt] at hx
  obtain ⟨hnil, hdecl, ⟨-, hload⟩, hset, rfl⟩ := hx
  rw [runStmt] at hy
  cases hfd : prog fi with
  | none =>
    rw [hfd] at hy
    exact hy.elim
  | some fd =>
    rw [hfd] at hy
    obtain ⟨fd', -, -, -, hups, -⟩ := H.func hfd
    dsimp only at hy
    split_ifs at hy with hup
    · exact hy.elim
    · have h0 : S.ups[fi]? = some 0 := by
        rw [hS.2, hups]
        congr 1
        omega
      have hu := hr.unprotected
      have hl := hr.length
      cases sk with
      | nil => exact hr.body.elim
      | cons g sk =>
        cases env with
        | nil => simp at hl
        | cons bs env =>
          have hnames := scopeNames_declare [name] [.nil] (bs :: env)
          have hd : Distinct (declare [name] [.nil] (bs :: env)) :=
            Fresh.distinct (Fresh.rest (by rw [List.append_nil]; exact hfr) hnames)
          refine Course.pushNil (H.has hS hnil) (Course.unprotected_lay hu) ?_
          refine Course.declareLocal [name] [.nil] (H.has hS hdecl) (hu g (List.mem_cons_self ..))
            (Course.unprotected_lay fun f hf => hu f (List.mem_cons_of_mem _ hf)) rfl ?_
          rw [Course.grown_lay]
          change C.leads (p + 2) st (lay (g :: sk) (declare [name] [.nil] (bs :: env)) ++ rest) mk h
          refine Course.loadFunc (H.has hS (hload h0)) (Course.unprotected_lay hu) ?_
          have hwrite : assignVarIn name (.func fi) (declare [name] [.nil] (bs :: env)) =
              some (declare [name] [.func fi] (bs :: env)) := by
            simp [declare, bindNames, assignVarIn, updateFirst]
          refine Course.setVar (H.has hS hset) hu hr.body hl hd ?_
          rw [writeVar, hwrite]
          exact fun _ => hy (scopeNames_declare [name] [.func fi] (bs :: env))

/-- A return: every block of the function is left. -/
theorem stmt_return (H : Hosts C prog im ups) (hS : S.within im ups) (hr : Running S f sk rest st env) {a : ℕ}
    {vs : List Value} (hx : ReturnAt S a p q) (ha : a = WANT_ALL ∨ a = vs.length)
    (hy : C.goesOn S f sk rest st mk (scopeNames env) [] q (.ret vs) h) :
    C.leads p (vs.reverse ++ st) (lay sk env ++ rest) mk h := by
  obtain ⟨m, hpops, hret, -⟩ := hx
  obtain ⟨bs, hbottom⟩ := hr.bottom
  refine Course.popScopes (S := S) (by rw [← H.code, ← hS.1]) (Course.unprotected_lay hr.unprotected) hpops ?_
  rw [hbottom]
  exact hy m a bs (H.has hS hret) ha

/-- Statements follow, where their parts do. -/
theorem Follows.stmt_succ (H : Hosts C prog im ups) (F : Follows C prog im ups n) (hS : S.within im ups)
    (hr : Running S f sk rest st env) {x : Stmt} (hx : StmtAt S x p q) (ht : x.tidy) (hfr : Fresh x.declares env)
    (hy : C.sem (runStmt C.L prog (n + 1) env x) (C.goesOn S f sk rest st mk (scopeNames env) x.declares q) h) :
    C.leads p st (lay sk env ++ rest) mk h := by
  have hd := hfr.distinct
  have hsc := hr.inScope hd
  have hu := hsc.unprotected
  cases x with
  | localDecl names val =>
    obtain ⟨m, he, hi, rfl⟩ := hx
    rw [Stmt.tidy, bne_iff_ne] at ht
    exact stmt_local H F hS hr hfr ht he hi (sem_bind.mp hy)
  | localFunc name fi => exact stmt_localFunc H hS hr hfr hx hy
  | globalDecl name val =>
    cases val with
    | some e =>
      obtain ⟨m, he, hi, rfl⟩ := hx
      refine F.one hS hsc he (Course.sem_mono (sem_bind.mp hy) fun v h' hv => ?_)
      exact Course.setGlobal (H.has hS hi) hu (Course.goesOn_next (S := S) (f := f) hv rfl)
    | none =>
      obtain ⟨hnil, hi, rfl⟩ := hx
      refine Course.pushNil (H.has hS hnil) hu (Course.setGlobal (H.has hS hi) hu ?_)
      exact Course.goesOn_next (S := S) (f := f) hy rfl
  | assignStmt targets val =>
    obtain ⟨m, m', hts, he, hi, rfl⟩ := hx
    rw [Stmt.tidy, bne_iff_ne] at ht
    exact stmt_assign H F hS hr hd ht hts he hi hy
  | callStmt e =>
    obtain ⟨m, he, hi, rfl⟩ := hx
    refine F.one hS hsc he (Course.sem_mono (sem_bind.mp hy) fun v h' hv => ?_)
    have hacts : v ≠ .exit ∧ v ≠ .shell ∧ v ≠ .dhcp ∧ v ≠ .ls := by
      refine ⟨?_, ?_, ?_, ?_⟩ <;>
        · rintro rfl
          exact hv.elim
    have hv : C.goesOn S f sk rest st mk (scopeNames env) [] (m + 1) (.next env) h' := by
      cases v <;> first | exact hv | exact hv.elim
    exact Course.stmtCheck (H.has hS hi) hu hacts (Course.goesOn_next hv rfl)
  | exprStmt e =>
    obtain ⟨m, he, hi, rfl⟩ := hx
    refine F.one hS hsc he (Course.sem_mono (sem_bind.mp hy) fun v h' hv => ?_)
    refine Course.print (H.has hS hi) hu (sem_bind.mpr (Course.sem_mono (sem_bind.mp hv) fun _ h' he => ?_))
    exact Course.sem_mono (sem_bind.mp he) fun _ h' hn => Course.goesOn_next (S := S) (f := f) hn rfl
  | ifStmt cond thenB els => exact stmt_if H F hS hr hd ht hx hy
  | whileStmt cond body => exact stmt_while H F hS hr hd ht hx hy
  | repeatStmt body cond => exact stmt_repeat H F hS hr hd ht hx hy
  | forStmt captured var start limit step body => exact stmt_for H F hS hr hd ht hx hy
  | forInStmt captured kvar vvar table body => exact stmt_forIn H F hS hr hd ht hx hy
  | breakStmt =>
    obtain ⟨d, t, hl, hi, rfl⟩ := hx
    have hle : S.depth - d ≤ sk.length := (Nat.sub_le ..).trans hr.depth_lt.le
    refine Course.jumpScopes (H.has hS hi) hu ?_
    rw [drop_lay rest hle hr.length]
    exact hy (scopeNames_tail env) d t hl
  | label name _ =>
    obtain rfl : q = p := hx
    exact Course.goesOn_next (S := S) (f := f) hy rfl
  | returnStmt val =>
    cases val with
    | none => exact stmt_return H hS hr hx (.inr rfl) hy
    | some v =>
      obtain ⟨m, he, hret⟩ := hx
      cases hcall : v.isCall with
      | true =>
        rw [hcall, if_pos rfl] at he hret
        refine F.expr hS hsc he (Course.sem_mono (sem_bind.mp hy) fun vs h' hvs => ?_)
        exact stmt_return H hS hr hret (.inl rfl) hvs
      | false =>
        rw [hcall, if_neg Bool.false_ne_true] at he hret
        refine F.expr hS hsc he (Course.sem_mono (Course.sem_and (evalExpr_length n hcall) (sem_bind.mp hy))
          fun vs h' hvs => ?_)
        obtain ⟨hlen, hvs⟩ := hvs
        obtain ⟨v, rfl⟩ := List.length_eq_one_iff.mp hlen
        rw [padTo_one]
        exact stmt_return H hS hr hret (.inr rfl) hvs
  | goto name => exact hy.elim

/-- Blocks follow, where their statements do. -/
theorem Follows.block_succ (F : Follows C prog im ups n) (hS : S.within im ups)
    (hr : Running S f sk rest st env) : ∀ {b : Block}, BlockAt S b p q → Block.tidy b →
    Fresh (Block.declares b) env →
    C.sem (runBlock C.L prog (n + 1) env b) (C.goesOn S f sk rest st mk (scopeNames env) (Block.declares b) q) h →
    C.leads p st (lay sk env ++ rest) mk h
  | [], hb, _, _, hy => by
    obtain rfl : q = p := hb
    exact Course.goesOn_next (S := S) (f := f) hy rfl
  | x :: b, hb, ht, hfr, hy => by
    obtain ⟨m, hx, hb⟩ := hb
    rw [Block.tidy, Bool.and_eq_true] at ht
    have hfr : Fresh (x.declares ++ Block.declares b) env := hfr
    refine F.stmt hS hx ht.1 hr hfr.first (Course.sem_mono (sem_bind.mp hy) fun fl h' hk => ?_)
    cases fl with
    | next env' =>
      intro hnames
      have hlen : env'.length = env.length := by
        rw [← length_scopeNames, hnames, length_addNames, length_scopeNames]
      refine F.block hS hb ht.2 (hr.congr hlen) (hfr.rest hnames) (Course.sem_mono hk fun fl h' hk => ?_)
      rw [hnames]
      cases fl with
      | next env'' => exact fun hn => hk (hn.trans (addNames_append ..))
      | brk env'' => exact fun hn => hk (hn.trans (addNames_tail ..))
      | ret vs => exact hk
    | brk env' => exact hk
    | ret vs => exact hk

end Statements

/-- **The code of a script leads the machine where the script's meaning leads.** -/
theorem follows {C : Course} {prog : ℕ → Option FuncDef} {im : Image} {ups : List ℕ} (H : Hosts C prog im ups) :
    ∀ n, Follows C prog im ups n
  | 0 => by
    constructor <;> intros <;> exact False.elim ‹_›
  | n + 1 => by
    have F := follows H n
    exact {
      expr := fun hS hi he hy => F.expr_succ H hS hi he hy
      args := fun hS hi ha hy => F.args_succ hS hi ha hy
      fields := fun hS hi hf hy => F.fields_succ H hS hi hf hy
      targets := fun hS hi ht hy => F.targets_succ hS hi ht hy
      apply := fun hi hu hc hy => F.apply_succ H hi hu hc hy
      stmt := fun hS hx ht hr hfr hy => F.stmt_succ H hS hr hx ht hfr hy
      block := fun hS hb ht hr hfr hy => F.block_succ hS hr hb ht hfr hy
      rounds := fun hS h1 h2 h3 h4 h5 h6 h7 hr hd hg hgp hy =>
        F.rounds_succ H hS h1 h2 h3 h4 h5 h6 h7 hr hd hg hgp hy
      entries := fun hS h1 h2 h3 h4 h5 h6 h7 h8 h9 h10 h11 h12 hr hd hg hgp hb hy =>
        F.entries_succ H hS h1 h2 h3 h4 h5 h6 h7 h8 h9 h10 h11 h12 hr hd hg hgp hb hy }

end Lua
end Rustrapper
