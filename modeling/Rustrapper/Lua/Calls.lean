/-
# Calls along a course

A call leaves its arguments to a new frame, or to a library function, and its
results on the stack, as many as are wanted. A return gives them to the frame
below.
-/
import Rustrapper.Lua.Rounds

namespace Rustrapper
namespace Lua

open Effect

namespace Course
variable {C : Course} {p : ℕ} {st : List Value} {fr : List Frame} {mk : List ℕ} {h : Heap} {vs : List Value}

/-! ### Results -/

/-- Values on top are cut or padded to what is wanted. -/
theorem normalize_put (R : Rec) (b : LuaState) (want n : ℕ) :
    R.exec (normalize st.length want) (b.put (vs.reverse ++ st) fr mk h n) =
        .ok () (b.put ((padTo want vs).reverse ++ st) fr mk h n) ∨
      ∃ st', R.exec (normalize st.length want) (b.put (vs.reverse ++ st) fr mk h n) =
        .error (.lua (.msg "stack overflow")) (b.put st' fr mk h n) := by
  rcases normalize_cases R (b.put (vs.reverse ++ st) fr mk h n) want rfl with ⟨-, hx⟩ | ⟨hw, -⟩
  · exact .inl hx
  · right
    have hv : (b.put (vs.reverse ++ st) fr mk h n).vsp = vs.length + st.length := by simp [Machine.vsp]
    rw [normalize, if_neg fun h => hw (.inl h), exec_bind, exec_get, bind_ok (getMachine_apply _), exec_ite, hv,
      Nat.add_sub_cancel, if_neg fun h => hw (.inr (.inl (by omega)))]
    rcases pushVals_cases R (b.put (vs.reverse ++ st) fr mk h n) (List.replicate (want - vs.length) .nil) with
      ⟨hfit, -⟩ | ⟨-, hx⟩
    · rw [hv, List.length_replicate] at hfit
      omega
    · exact ⟨_, hx⟩

/-- Values are written at `base`, as many as are wanted. -/
theorem placeWant_put (R : Rec) (b : LuaState) {top : List Value} (want n : ℕ) :
    R.exec (placeWant st.length want vs) (b.put (top ++ st) fr mk h n) =
        .ok () (b.put ((padTo want vs).reverse ++ st) fr mk h n) ∨
      ∃ st', R.exec (placeWant st.length want vs) (b.put (top ++ st) fr mk h n) =
        .error (.fault .stack) (b.put st' fr mk h n) := by
  rw [placeWant, exec_bind]
  by_cases h1 : st.length + vs.length ≤ STACK_CAP
  · have hp := exec_placeVals R (b.put (top ++ st) fr mk h n) st.length vs h1
    rw [put_vstack, resize_append] at hp
    rw [bind_ok hp]
    by_cases h2 : st.length + (padTo want vs).length ≤ STACK_CAP
    · left
      refine (exec_placeVals R _ _ _ h2).trans ?_
      simp only [resize_append]
      rfl
    · exact .inr ⟨_, exec_placeVals_full R _ _ _ h2⟩
  · exact .inr ⟨_, bind_error (exec_placeVals_full R _ _ _ h1) _⟩

/-! ### Returns -/

/-- What a return does before it goes back. -/
theorem exec_return (R : Rec) (b : LuaState) {f : Frame} {a n : ℕ} (hb : f.base = st.length)
    (ha : a = WANT_ALL ∨ a = vs.length) :
    R.exec (execReturn a) (b.put (vs.reverse ++ st) (f :: fr) mk h n) = R.exec (do
      placeWant f.base f.want vs
      popFrame
      if f.retIp = RET_HALT then pure (.halt (resultOf (padTo f.want vs)))
      else if f.retIp = RET_PCALL then do
        let pf ← topFrame
        let vs ← valsFrom (pf.base + 1)
        placeWant pf.base pf.want (.bool true :: vs)
        popFrame
        pure (.goto pf.retIp)
      else pure (.goto f.retIp)) (b.put (vs.reverse ++ st) (f :: fr) mk h n) := by
  have hv : (b.put (vs.reverse ++ st) (f :: fr) mk h n).vsp = vs.length + st.length := by simp [Machine.vsp]
  rw [execReturn, exec_bind, bind_ok (exec_topFrame R _ rfl)]
  dsimp only
  by_cases hw : a = WANT_ALL
  · have hvals : R.exec (valsFrom f.base) (b.put (vs.reverse ++ st) (f :: fr) mk h n) =
        .ok vs (b.put (vs.reverse ++ st) (f :: fr) mk h n) := by
      rw [valsFrom, exec_bind, exec_get, bind_ok (getMachine_apply _), hb, hv, if_neg (by omega),
        Nat.add_sub_cancel]
      exact topVals_put R b rfl
    rw [if_pos hw, exec_bind, bind_ok hvals]
  · rw [if_neg hw, exec_bind, bind_ok (topVals_put R b (ha.resolve_left hw).symm)]

section Return
variable {f : Frame} {a : ℕ}

/-- A return to the machine's own code. -/
theorem ret (hi : C.b.code[p]? = some (.ret a)) (hu : Unprotected (f :: fr)) (hb : f.base = st.length)
    (ha : a = WANT_ALL ∨ a = vs.length) (hr : f.retIp ≠ RET_HALT ∧ f.retIp ≠ RET_PCALL)
    (hn : C.leads f.retIp ((padTo f.want vs).reverse ++ st) fr mk h) :
    C.leads p (vs.reverse ++ st) (f :: fr) mk h := by
  have hu' : Unprotected fr := fun g hg => hu g (List.mem_cons_of_mem _ hg)
  refine tries hi hu' (fun k n => ?_) hn
  rw [execInstr, exec_return _ _ hb ha, exec_bind, hb]
  rcases placeWant_put (interp C.L (k + 1)) C.b (h := h) f.want n with hx | ⟨st', hx⟩
  · left
    rw [bind_ok hx, exec_bind, bind_ok (exec_popFrame ..), if_neg hr.1, if_neg hr.2]
    rfl
  · exact .inr ⟨_, _, bind_error hx _, trivial, hu⟩

/-- The return of a script. -/
theorem retHalt (hi : C.b.code[p]? = some (.ret a)) (hu : Unprotected (f :: fr)) (hb : f.base = st.length)
    (ha : a = WANT_ALL ∨ a = vs.length) (hr : f.retIp = RET_HALT)
    (hq : ∀ n, C.Q (.ok (resultOf (padTo f.want vs)) (C.b.put ((padTo f.want vs).reverse ++ st) fr mk h n))) :
    C.leads p (vs.reverse ++ st) (f :: fr) mk h := by
  have hu' : Unprotected fr := fun g hg => hu g (List.mem_cons_of_mem _ hg)
  refine fun n => leads_of_halt C.tolerant hi (fun k => ?_) (hq n)
  rw [execInstr, exec_return _ _ hb ha, exec_bind, hb]
  rcases placeWant_put (interp C.L (k + 1)) C.b (h := h) f.want n with hx | ⟨st', hx⟩
  · left
    rw [bind_ok hx, exec_bind, bind_ok (exec_popFrame ..), if_pos hr]
    rfl
  · exact .inr ⟨_, _, bind_error hx _, trivial, hu⟩

end Return

/-! ### Calls of functions -/

/-- How a call counts its arguments: from a mark on, or as its operand says. -/
def Counted (a : ℕ) (args st : List Value) (mk mk₀ : List ℕ) : Prop :=
  (a = WANT_ALL ∧ mk = st.length :: mk₀) ∨ (a ≠ WANT_ALL ∧ a = args.length ∧ mk = mk₀)

/-- The place of the callee is marked. -/
theorem mark (hi : C.b.code[p]? = some .mark) (hu : Unprotected fr)
    (hn : C.leads (p + 1) st fr (st.length :: mk) h) : C.leads p st fr mk h := by
  refine tries hi hu (fun k n => ?_) hn
  rw [execInstr, exec_bind, execMark, exec_bind, exec_get, bind_apply, bind_ok (getMachine_apply _)]
  by_cases hm : (C.b.put st fr mk h n).markSp ≥ MAX_FRAMES
  · rw [if_pos hm]
    exact .inr ⟨.lua (.msg "call too complex"), _, rfl, by simp [GaveUp], hu⟩
  · rw [if_neg hm]
    exact .inl rfl

section Call
variable {mk₀ : List ℕ} {args : List Value} {a want : ℕ} {fv : Value}

theorem exec_callBase (R : Rec) (b : LuaState) (n : ℕ) (hc : Counted a args st mk mk₀) :
    R.exec (callBase a) (b.put (args.reverse ++ fv :: st) fr mk h n) =
      .ok (st.length, args.length) (b.put (args.reverse ++ fv :: st) fr mk₀ h n) := by
  have hv : (b.put (args.reverse ++ fv :: st) fr mk h n).vsp = args.length + (st.length + 1) := by
    simp [Machine.vsp]
  rw [callBase, exec_bind, exec_get, bind_ok (getMachine_apply _)]
  rcases hc with ⟨ha, hm⟩ | ⟨hne, ha, hm⟩
  · subst hm
    rw [if_pos ha, put_callMarks]
    dsimp only
    rw [exec_bind, exec_set, bind_ok (setMachine_apply ..), hv, if_neg (by omega)]
    rw [show args.length + (st.length + 1) - st.length - 1 = args.length by omega]
    rfl
  · rw [if_neg hne, hv, if_neg (by omega), ha, hm]
    rw [show args.length + (st.length + 1) - args.length - 1 = st.length by omega]
    rfl

theorem at?_callee (args : List Value) : at? (args.reverse ++ fv :: st) st.length = some fv := by
  have h := at?_reverse_append (fv :: args) st (j := 0) (Nat.succ_pos _)
  rw [List.reverse_cons, List.append_assoc] at h
  exact h

theorem exec_callee (R : Rec) (b : LuaState) (n : ℕ) :
    R.exec (vstackAt st.length) (b.put (args.reverse ++ fv :: st) fr mk h n) =
      .ok fv (b.put (args.reverse ++ fv :: st) fr mk h n) := by
  rw [vstackAt, exec_bind, exec_get, bind_ok (getMachine_apply _), put_vstack, at?_callee]
  rfl

/-- The frame of a call. -/
def calledFrame (fd : FuncDef) (args : List Value) (ret want base : ℕ) : Frame :=
  { locals := bindLocals fd.params args, retIp := ret, want := want, base := base }

/-- The frame of a call is pushed and the stack cut to its base, where there is room. -/
theorem setupFuncFrame_put (R : Rec) (b : LuaState) {fi ret n : ℕ} {fd : FuncDef} (hf : b.funcs[fi]? = some fd)
    (hu : Unprotected fr) :
    R.exec (setupFuncFrame fi args.length st.length 1 ret want NO_CLOSURE)
        (b.put (args.reverse ++ fv :: st) fr mk h n) =
          .ok () (b.put st (calledFrame fd args ret want st.length :: fr) mk h n) ∨
      ∃ e u, R.exec (setupFuncFrame fi args.length st.length 1 ret want NO_CLOSURE)
        (b.put (args.reverse ++ fv :: st) fr mk h n) = .error e u ∧ GaveUp e ∧ Unprotected u.frames := by
  have hdef : R.exec (funcDef fi) (b.put (args.reverse ++ fv :: st) fr mk h n) =
      .ok fd (b.put (args.reverse ++ fv :: st) fr mk h n) := by
    rw [exec_funcDef, show (b.put (args.reverse ++ fv :: st) fr mk h n).funcs = b.funcs from rfl, hf]
  have hargs : stackVals (args.reverse ++ fv :: st) (st.length + 1) args.length = args :=
    stackVals_reverse_append args (fv :: st)
  have hload := exec_loadArgs R (b.put (args.reverse ++ fv :: st) fr mk h n) (st.length + 1) args.length
  rw [setupFuncFrame, exec_bind, bind_ok hdef, exec_bind]
  by_cases h1 : args.length > ARGBUF
  · rw [if_pos h1] at hload
    exact .inr ⟨_, _, bind_error hload _, trivial, hu⟩
  · rw [if_neg h1] at hload
    by_cases h2 : st.length + 1 + args.length > STACK_CAP
    · rw [if_pos h2] at hload
      exact .inr ⟨_, _, bind_error hload _, trivial, hu⟩
    · rw [if_neg h2, put_vstack, hargs] at hload
      rw [bind_ok hload, exec_bind]
      by_cases h3 : fr.length < MAX_FRAMES
      · rw [bind_ok (exec_pushFrame R (b.put (args.reverse ++ fv :: st) fr mk h n) _ h3), exec_bind]
        by_cases h4 : FitsLocals { retIp := ret, want := want, base := st.length } fd.params
        · left
          have hdec : R.exec (declareLocals fd.params args) (b.put (args.reverse ++ fv :: st) (_ :: fr) mk h n) = _ :=
            declareLocals_put R b fd.params args { retIp := ret, want := want, base := st.length } n h4
          have hset := exec_setVsp R (b.put (args.reverse ++ fv :: st)
            (calledFrame fd args ret want st.length :: fr) mk h n) st.length
          have hr : resize st.length .nil (args.reverse ++ fv :: st) = st := by
            rw [show args.reverse ++ fv :: st = (args.reverse ++ [fv]) ++ st by simp, resize_append]
          rw [put_vstack, hr] at hset
          refine (bind_ok hdec _).trans ?_
          exact hset
        · obtain ⟨ls, hls⟩ := declareLocals_full (h := h) b fd.params args _ h4
          exact .inr ⟨_, _, bind_error (hls R n) _, by simp [GaveUp], unprotected_cons rfl hu⟩
      · exact .inr ⟨_, _, bind_error (exec_pushFrame_full R (b.put (args.reverse ++ fv :: st) fr mk h n) _ h3) _,
          by simp [GaveUp], hu⟩

/-- A function of the script is entered. -/
theorem callFunc {fi : ℕ} {fd : FuncDef} (hi : C.b.code[p]? = some (.call a want)) (hu : Unprotected fr)
    (hc : Counted a args st mk mk₀) (hf : C.b.funcs[fi]? = some fd)
    (hn : C.leads fd.entry st (calledFrame fd args (p + 1) want st.length :: fr) mk₀ h) :
    C.leads p (args.reverse ++ .func fi :: st) fr mk h := by
  refine tries hi (unprotected_cons (f := calledFrame fd args (p + 1) want st.length) rfl hu) (fun k n => ?_) hn
  rw [execInstr, execCall, exec_bind, bind_ok (exec_callBase _ _ _ hc), exec_bind, bind_ok (exec_callee ..)]
  change (interp C.L (k + 1)).exec (enterFunc fi args.length st.length 1 (p + 1) want NO_CLOSURE) _ = _ ∨
    NoWay ((interp C.L (k + 1)).exec (enterFunc fi args.length st.length 1 (p + 1) want NO_CLOSURE) _)
  rw [enterFunc, exec_bind]
  rcases setupFuncFrame_put (interp C.L (k + 1)) C.b (h := h) (n := n) hf hu with hx | ⟨e, u, hx, hg, hu'⟩
  · left
    rw [bind_ok hx, exec_bind]
    refine (bind_ok (a := fd) ?_ _).trans rfl
    rw [exec_funcDef]
    simp only [LuaState.put, hf]
  · exact .inr ⟨e, u, bind_error hx _, hg, hu'⟩

/-! ### Calls of library functions -/

/-- A value that is called by `eval::call`. -/
structure Outside (fv : Value) : Prop where
  callee : ∀ (R : Rec) (s : LuaState), R.exec (callee fv) s = .ok none s
  pcall : fv ≠ .native 15
  xpcall : fv ≠ .native 26

/-- The arguments move down over the callee; then `eval::call` has them. -/
theorem exec_callOutside (R : Rec) (b : LuaState) {ip n : ℕ} (hc : Counted a args st mk mk₀) (hu : Unprotected fr)
    (ho : Outside fv) :
    R.exec (execCall ip a want) (b.put (args.reverse ++ fv :: st) fr mk h n) =
        R.exec (do finishCall ip want st.length (← doCall fv args.length)) (b.put (args.reverse ++ st) fr mk₀ h n) ∨
      NoWay (R.exec (execCall ip a want) (b.put (args.reverse ++ fv :: st) fr mk h n)) := by
  have hargs : stackVals (args.reverse ++ fv :: st) (st.length + 1) args.length = args :=
    stackVals_reverse_append args (fv :: st)
  have hvals := exec_valsAt R (b.put (args.reverse ++ fv :: st) fr mk₀ h n) (st.length + 1) args.length
  rw [execCall, exec_bind, bind_ok (exec_callBase _ _ _ hc), exec_bind, bind_ok (exec_callee ..), exec_bind,
    bind_ok (ho.callee R _)]
  dsimp only
  rw [exec_bind]
  by_cases h1 : st.length + 1 + args.length > STACK_CAP
  · rw [if_pos h1] at hvals
    exact .inr ⟨_, _, bind_error hvals _, trivial, hu⟩
  · rw [if_neg h1, put_vstack, hargs] at hvals
    rw [bind_ok hvals]
    have hr : resize st.length .nil (args.reverse ++ fv :: st) = st := by
      rw [show args.reverse ++ fv :: st = (args.reverse ++ [fv]) ++ st by simp, resize_append]
    have hplace := exec_placeVals R (b.put (args.reverse ++ fv :: st) fr mk₀ h n) st.length args (by omega)
    rw [put_vstack, hr] at hplace
    left
    split
    · exact absurd rfl ho.pcall
    · exact absurd rfl ho.pcall
    · exact absurd rfl ho.xpcall
    · exact absurd rfl ho.xpcall
    · rw [exec_bind, bind_ok hplace]
      rfl

/-- What `eval::call` does before it looks at the value. -/
theorem exec_call (R : Rec) (L : Lib) (b : LuaState) (n : ℕ) (hu : Unprotected fr) :
    R.exec (Lua.call L fv args.length) (b.put (args.reverse ++ st) fr mk h n) =
        R.exec (if isOther fv args.length then callTable fv args st.length
          else do settle st.length (← callPlain L fv args st.length)) (b.put (args.reverse ++ st) fr mk h n) ∨
      ∃ e u, R.exec (Lua.call L fv args.length) (b.put (args.reverse ++ st) fr mk h n) = .error e u ∧
        GaveUp e ∧ Unprotected u.frames := by
  have hv : (b.put (args.reverse ++ st) fr mk h n).vsp = args.length + st.length := by simp [Machine.vsp]
  have hload := exec_loadArgs R (b.put (args.reverse ++ st) fr mk h n) st.length args.length
  rw [Lua.call, exec_bind, exec_get, bind_ok (getMachine_apply _), hv, if_neg (by omega),
    Nat.add_sub_cancel_left]
  dsimp only
  rw [exec_bind]
  by_cases h1 : args.length > ARGBUF
  · rw [if_pos h1] at hload
    exact .inr ⟨_, _, bind_error hload _, trivial, hu⟩
  · rw [if_neg h1] at hload
    by_cases h2 : st.length + args.length > STACK_CAP
    · rw [if_pos h2] at hload
      exact .inr ⟨_, _, bind_error hload _, trivial, hu⟩
    · rw [if_neg h2, put_vstack, stackVals_reverse_append] at hload
      rw [bind_ok hload]
      exact .inl rfl

/-- The values a call answers with; `top` is what it left on the stack. -/
def Answers (vs top : List Value) : ExecResult → Prop
  | .normal => vs = []
  | .ret v => vs = [v]
  | .ret2 v w => vs = [v, w]
  | .retN k => k = vs.length ∧ ∃ below, top = vs.reverse ++ below
  | _ => False

/-- Of the values, those that are on the stack. -/
def held (vs : List Value) : ExecResult → List Value
  | .retN _ => vs
  | _ => []

theorem exec_settle (R : Rec) (b : LuaState) {r : ExecResult} {top : List Value} (n : ℕ)
    (hr : Answers vs top r) :
    R.exec (settle st.length r) (b.put (top ++ st) fr mk h n) =
        .ok r (b.put ((held vs r).reverse ++ st) fr mk h n) ∨
      R.exec (settle st.length r) (b.put (top ++ st) fr mk h n) =
        .error (.fault .stack) (b.put (top ++ st) fr mk h n) := by
  have hset := exec_setVsp R (b.put (top ++ st) fr mk h n) st.length
  rw [put_vstack, resize_append] at hset
  cases r with
  | normal | ret v | ret2 v w =>
    left
    change R.exec (setVsp st.length >>= fun _ => pure _) _ = _
    rw [exec_bind, bind_ok hset]
    rfl
  | retN k =>
    obtain ⟨rfl, below, rfl⟩ := hr
    have htop : R.exec (topVals vs.length) (b.put (vs.reverse ++ (below ++ st)) fr mk h n) = _ := topVals_put R b rfl
    rw [← List.append_assoc] at htop
    rw [settle, exec_bind, bind_ok htop, exec_bind]
    by_cases hfit : st.length + vs.length ≤ STACK_CAP
    · have hplace := exec_placeVals R (b.put (vs.reverse ++ below ++ st) fr mk h n) st.length vs hfit
      rw [put_vstack, resize_append] at hplace
      rw [bind_ok hplace]
      exact .inl rfl
    · exact .inr (bind_error (exec_placeVals_full R _ _ _ hfit) _)
  | _ => exact hr.elim

/-- The results of a call are made as many as are wanted. -/
theorem exec_finishCall (R : Rec) (b : LuaState) {r : ExecResult} {top : List Value} {ip : ℕ} (n : ℕ)
    (hu : Unprotected fr) (hr : Answers vs top r) :
    R.exec (finishCall ip want st.length r) (b.put ((held vs r).reverse ++ st) fr mk h n) =
        .ok (.goto ip) (b.put ((padTo want vs).reverse ++ st) fr mk h n) ∨
      NoWay (R.exec (finishCall ip want st.length r) (b.put ((held vs r).reverse ++ st) fr mk h n)) := by
  have hnorm : ∀ {x : LuaM Unit} (s : LuaState), (R.exec x s = .ok () (b.put (vs.reverse ++ st) fr mk h n) ∨
      ∃ st', R.exec x s = .error (.lua (.msg "stack overflow")) (b.put st' fr mk h n)) →
      R.exec (x >>= fun _ => do normalize st.length want; pure (Next.goto ip)) s =
          .ok (.goto ip) (b.put ((padTo want vs).reverse ++ st) fr mk h n) ∨
        NoWay (R.exec (x >>= fun _ => do normalize st.length want; pure (Next.goto ip)) s) := by
    intro x s hx
    rw [exec_bind]
    rcases hx with hx | ⟨st', hx⟩
    · rw [bind_ok hx, exec_bind]
      rcases normalize_put (h := h) R b want n with hn | ⟨st', hn⟩
      · rw [bind_ok hn]
        exact .inl rfl
      · exact .inr ⟨_, _, bind_error hn _, by simp [GaveUp], hu⟩
    · exact .inr ⟨_, _, bind_error hx _, by simp [GaveUp], hu⟩
  have hpush := fun vs => pushVals_cases R (b.put st fr mk h n) vs
  cases r with
  | normal =>
    obtain rfl : vs = [] := hr
    exact hnorm (x := pure ()) _ (.inl rfl)
  | ret v =>
    obtain rfl : vs = [v] := hr
    refine hnorm (x := pushVal v) _ ?_
    by_cases hc : st.length < STACK_CAP
    · exact .inl (exec_pushVal_put R b st fr mk h n hc)
    · exact .inr ⟨_, exec_pushVal_full R (b.put st fr mk h n) v hc⟩
  | ret2 v w =>
    obtain rfl : vs = [v, w] := hr
    refine hnorm (x := pushVals [v, w]) _ ?_
    rcases hpush [v, w] with ⟨-, hx⟩ | ⟨-, hx⟩
    · exact .inl hx
    · exact .inr ⟨_, hx⟩
  | retN k => exact hnorm (x := pure ()) _ (.inl rfl)
  | _ => exact hr.elim

/-! ### Library functions -/

theorem native_library (L : Lib) {id : ℕ} (args : List Value) (base : ℕ) (h : 27 ≤ id) :
    native L id args base = (runProg (L.native id args) >>= pushRet) := by
  unfold native
  split <;> first | rfl | omega

/-- From `s`, the function `x` ends as the evaluation `y` does, or has no room. -/
def Serves (R : Rec) (b : LuaState) (top st : List Value) (fr : List Frame) (mk : List ℕ) (h : Heap) (n : ℕ)
    (x : LuaM ExecResult) (y : Sem (List Value)) : Prop :=
  Wp y
    (fun vs h' => (∃ r top', R.exec x (b.put (top ++ st) fr mk h n) = .ok r (b.put (top' ++ st) fr mk h' n) ∧
        Answers vs top' r) ∨
      ∃ st', R.exec x (b.put (top ++ st) fr mk h n) =
        .error (.lua (.msg "stack overflow")) (b.put st' fr mk h' n))
    (fun e h' => ∀ e', stopFor e = some e' →
      R.exec x (b.put (top ++ st) fr mk h n) = .error e' (b.put (top ++ st) fr mk h' n)) h

section Serves
variable {R : Rec} {b : LuaState} {top : List Value} {n : ℕ}

/-- A function that changes the heap only, then has its results. -/
theorem Serves.after {α : Type} {x : LuaM α} {y : Sem α} {f : α → LuaM ExecResult} {g : α → Sem (List Value)}
    (ho : OverHeap R (b.put (top ++ st) fr mk h n) x y)
    (hf : ∀ a h', Serves R b top st fr mk h' n (f a) (g a)) :
    Serves R b top st fr mk h n (x >>= f) (y >>= g) := by
  unfold OverHeap at ho
  rw [put_toHeap] at ho
  unfold Serves
  rw [wp_bind]
  unfold Wp at ho ⊢
  cases hy : y h with
  | ok a h' =>
    rw [hy] at ho
    have hf := hf a h'
    unfold Serves at hf
    rw [exec_bind, bind_ok ho]
    exact hf
  | error e h' =>
    rw [hy] at ho
    intro e' he
    rw [exec_bind]
    cases e with
    | error e =>
      cases he
      exact bind_error ho _
    | abort f =>
      cases he
      exact bind_error ho _
    | unknown => cases he

theorem Serves.pure {r : ExecResult} (hr : Answers vs top r) :
    Serves R b top st fr mk h n (pure r) (pure vs) := .inl ⟨r, top, rfl, hr⟩

theorem Serves.raise (x : LuaError) : Serves R b top st fr mk h n (raise x) (throw (.error x)) := by
  intro e he
  cases he
  rfl

theorem Serves.unknown (x : LuaM ExecResult) : Serves R b top st fr mk h n x unknown := by
  intro e he
  cases he

/-- What `plain` guards runs where it passes. -/
theorem Serves.guarded {v : Value} {x : LuaM ExecResult} {z : Sem (List Value)}
    (hx : (∀ i, R.exec (mmOf v i) (b.put (top ++ st) fr mk h n) = .ok .nil (b.put (top ++ st) fr mk h n)) →
      Serves R b top st fr mk h n x z) : Serves R b top st fr mk h n x (do plain v; z) := by
  unfold Serves
  rw [wp_bind, Wp]
  rcases plain_cases R (b.put (top ++ st) fr mk h n) v with ⟨hp, hm⟩ | hp
  · rw [put_toHeap] at hp
    rw [hp]
    exact hx hm
  · rw [put_toHeap] at hp
    rw [hp]
    exact Serves.unknown x

/-- The machine takes a step that the evaluation does not. -/
theorem Serves.step {α : Type} {x : LuaM α} {f : α → LuaM ExecResult} {y : Sem (List Value)} {a : α}
    (hx : R.exec x (b.put (top ++ st) fr mk h n) = .ok a (b.put (top ++ st) fr mk h n))
    (hf : Serves R b top st fr mk h n (f a) y) : Serves R b top st fr mk h n (x >>= f) y := by
  unfold Serves at hf ⊢
  rw [exec_bind, bind_ok hx]
  exact hf

theorem serves_ret (r : NativeRet) : Serves R b top st fr mk h n (pushRet r) (retVals r) := by
  cases r with
  | normal | ret v | ret2 v w => exact Serves.pure rfl
  | retN vs =>
    have hp := pushVals_cases R (b.put (top ++ st) fr mk h n) vs
    change Serves R b top st fr mk h n (pushVals vs >>= fun _ => pure (.retN vs.length)) (pure vs)
    unfold Serves
    rw [exec_bind]
    rcases hp with ⟨-, hx⟩ | ⟨-, hx⟩
    · refine .inl ⟨.retN vs.length, vs.reverse ++ top, (bind_ok hx _).trans ?_, rfl, top, rfl⟩
      simp only [put_vstack, List.append_assoc]
      rfl
    · exact .inr ⟨_, bind_error hx _⟩
  | shell => exact Serves.unknown _
  | exit => exact Serves.unknown _

/-- The text of a value without a metamethod. -/
def stringOf (L : Lib) : Value → Sem (List Value)
  | .str r => pure [.str r]
  | v => do pure [.str (← internOf (renderPlain L v))]

/-- `tostring`. -/
theorem serves_tostring (L : Lib) (v : Value) :
    Serves R b top st fr mk h n (do pure (.ret (.str (← valueToString L v)))) (do plain v; stringOf L v) := by
  refine Serves.guarded fun hv => ?_
  have hmm : R.exec (tostringMM v) (b.put (top ++ st) fr mk h n) = .ok none (b.put (top ++ st) fr mk h n) := by
    rw [tostringMM, exec_bind, bind_ok (hv .tostring)]
    rfl
  rw [valueToString, bind_assoc]
  refine Serves.step hmm ?_
  cases v with
  | str r => exact Serves.pure rfl
  | _ => exact Serves.after (overHeap_intern _) fun _ _ => Serves.pure rfl

/-- `assert`. -/
theorem serves_assert (L : Lib) (v : Value) (rest : List Value) :
    Serves R b (v :: rest).reverse st fr mk h n (native L 25 (v :: rest) st.length)
      (libraryOf L 25 (v :: rest)) := by
  cases ht : truthy v with
  | true =>
    have hx : native L 25 (v :: rest) st.length = pure (.retN (rest.length + 1)) := if_pos ht
    have hy : libraryOf L 25 (v :: rest) = pure (v :: rest) := if_pos ht
    rw [hx, hy]
    exact Serves.pure ⟨rfl, [], (List.append_nil _).symm⟩
  | false =>
    cases rest with
    | nil =>
      have hx : native L 25 [v] st.length = (do
          let r ← intern (bytesOf "assertion failed!")
          raise (.obj (.str r))) := (if_neg (by simp [ht])).trans (bind_assoc ..)
      have hy : libraryOf L 25 [v] = (do
          let r ← internOf (bytesOf "assertion failed!")
          throw (.error (.obj (.str r)))) := if_neg (by simp [ht])
      rw [hx, hy]
      exact Serves.after (overHeap_intern _) fun _ _ => Serves.raise _
    | cons m ms =>
      have hx : native L 25 (v :: m :: ms) st.length = raise (.obj m) := if_neg (by simp [ht])
      have hy : libraryOf L 25 (v :: m :: ms) = throw (.error (.obj m)) := if_neg (by simp [ht])
      rw [hx, hy]
      exact Serves.raise _

/-- The library functions told of in `Lua/Meaning`. -/
theorem serves_native (L : Lib) (id : ℕ) (args : List Value) :
    Serves R b args.reverse st fr mk h n (native L id args st.length) (libraryOf L id args) := by
  unfold libraryOf
  split
  · exact Serves.after (overHeap_printAll L args _) fun _ _ => Serves.after (overHeap_emit _) fun _ _ =>
      Serves.pure rfl
  · exact Serves.guarded fun hv => Serves.step (hv .pairs) (Serves.pure rfl)
  · exact serves_tostring L _
  · exact Serves.after (overHeap_intern _) fun _ _ => Serves.pure rfl
  · exact Serves.raise _
  · exact serves_assert L _ _
  · split_ifs with hid
    · exact Serves.unknown _
    · rw [native_library L _ _ (Nat.not_lt.mp hid)]
      exact Serves.after (overHeap_prog _ _) fun r _ => serves_ret r

end Serves

/-- The instruction, where its value is called by `eval::call`. -/
theorem exec_outside (k : ℕ) {n : ℕ} (hu : Unprotected fr) (hc : Counted a args st mk mk₀) (ho : Outside fv) :
    (interp C.L (k + 1)).exec (execInstr C.L (p + 1) (.call a want))
        (C.b.put (args.reverse ++ fv :: st) fr mk h n) =
      ((interp C.L k).exec (if isOther fv args.length then callTable fv args st.length
          else do settle st.length (← callPlain C.L fv args st.length)) >>= fun r =>
        (interp C.L (k + 1)).exec (finishCall (p + 1) want st.length r))
        (C.b.put (args.reverse ++ st) fr mk₀ h n) ∨
      NoWay ((interp C.L (k + 1)).exec (execInstr C.L (p + 1) (.call a want))
        (C.b.put (args.reverse ++ fv :: st) fr mk h n)) := by
  have hcall : (interp C.L (k + 1)).exec (doCall fv args.length) =
      (interp C.L k).exec (Lua.call C.L fv args.length) := by
    rw [doCall, exec_perform]
    rfl
  rw [execInstr]
  rcases exec_callOutside (interp C.L (k + 1)) C.b (h := h) (n := n) hc hu ho with hx | hx
  · rcases exec_call (interp C.L k) C.L C.b (h := h) n hu with hy | ⟨e, u, hy, hg, hu'⟩
    · left
      rw [hx, exec_bind, hcall, bind_apply, bind_apply, hy]
    · right
      rw [hx, exec_bind, hcall]
      exact ⟨e, u, bind_error hy _, hg, hu'⟩
  · exact .inr hx

theorem libraryOf_pcall (L : Lib) (args : List Value) : libraryOf L 15 args = unknown := by cases args <;> rfl

theorem libraryOf_xpcall (L : Lib) (args : List Value) : libraryOf L 26 args = unknown := by cases args <;> rfl

/-- A library function is called. -/
theorem callNative {id : ℕ} (hi : C.b.code[p]? = some (.call a want)) (hu : Unprotected fr)
    (hc : Counted a args st mk mk₀)
    (hy : C.sem (libraryOf C.L id args) (fun vs h' =>
      C.leads (p + 1) ((padTo want vs).reverse ++ st) fr mk₀ h') h) :
    C.leads p (args.reverse ++ .native id :: st) fr mk h := by
  by_cases h15 : id = 15
  · subst h15
    rw [libraryOf_pcall] at hy
    exact hy.elim
  by_cases h26 : id = 26
  · subst h26
    rw [libraryOf_xpcall] at hy
    exact hy.elim
  have ho : Outside (.native id) := ⟨fun _ _ => rfl, by simpa using h15, by simpa using h26⟩
  have hno : isOther (.native id) args.length = false := rfl
  have hserve : ∀ k n, Serves (interp C.L k) C.b args.reverse st fr mk₀ h n (native C.L id args st.length)
      (libraryOf C.L id args) := fun k n => serves_native C.L id args
  unfold sem at hy
  unfold Serves at hserve
  unfold Wp at hy hserve
  cases hr : libraryOf C.L id args h with
  | ok vs h' =>
    rw [hr] at hy hserve
    refine tries hi hu (fun k n => ?_) hy
    rcases exec_outside (C := C) (p := p) (h := h) k (n := n) hu hc ho with hx | hx
    · rw [hx, hno, if_neg Bool.false_ne_true, exec_bind]
      change (((interp C.L k).exec (native C.L id args st.length) >>= _) >>= _) _ = _ ∨
        NoWay ((((interp C.L k).exec (native C.L id args st.length) >>= _) >>= _) _)
      rcases hserve k n with ⟨r, top, hs, hans⟩ | ⟨st', hs⟩
      · rcases exec_settle (h := h') (interp C.L k) C.b n hans with ht | ht
        · rw [bind_ok (by rw [bind_ok hs]; exact ht)]
          exact exec_finishCall (interp C.L (k + 1)) C.b n hu hans
        · exact .inr ⟨.fault .stack, _, bind_error (by rw [bind_ok hs]; exact ht) _, trivial, hu⟩
      · exact .inr ⟨_, _, bind_error (bind_error hs _) _, by simp [GaveUp], hu⟩
    · exact .inr hx
  | error e h' =>
    rw [hr] at hy hserve
    have hstop : ∀ e', stopFor e = some e' → (∀ t : LuaState, t.toHeap = h' → C.Q (.error e' t)) →
        C.leads p (args.reverse ++ .native id :: st) fr mk h := by
      intro e' he hq
      refine triesStop (args.reverse ++ st) mk₀ h' hi hu (fun k n => ?_) fun n => hq _ rfl
      rcases exec_outside (C := C) (p := p) (h := h) k (n := n) hu hc ho with hx | hx
      · rw [hx, hno, if_neg Bool.false_ne_true, exec_bind]
        exact .inl (bind_error (bind_error (hserve k n e' he) _) _)
      · exact .inr hx
    cases e with
    | error e => exact hstop _ rfl hy
    | abort f => exact hstop _ rfl hy
    | unknown => exact hy.elim

/-- A value that is no function, and has no metamethod. -/
theorem callOther (hi : C.b.code[p]? = some (.call a want)) (hu : Unprotected fr)
    (hc : Counted a args st mk mk₀) (ho : isOther fv args.length = true)
    (hf : ∀ (R : Rec) (s : LuaState), R.exec (callee fv) s = .ok none s)
    (hy : C.sem (do plain fv; fails "attempt to call a non-function value" : Sem (List Value)) (fun vs h' =>
      C.leads (p + 1) ((padTo want vs).reverse ++ st) fr mk₀ h') h) :
    C.leads p (args.reverse ++ fv :: st) fr mk h := by
  have hnative : ∀ id, fv ≠ .native id := by
    rintro id rfl
    cases ho
  have hout : Outside fv := ⟨hf, hnative 15, hnative 26⟩
  have hplain := fun k n => plain_cases (interp C.L k) (C.b.put (args.reverse ++ st) fr mk₀ h n) fv
  simp only [put_toHeap] at hplain
  unfold sem at hy
  rw [wp_bind] at hy
  unfold Wp at hy
  rcases hplain 0 0 with ⟨hp, -⟩ | hp
  · rw [hp] at hy
    refine triesStop (args.reverse ++ st) mk₀ h hi hu (fun k n => ?_) fun n => hy _ rfl
    rcases exec_outside (C := C) (p := p) (h := h) k (n := n) hu hc hout with hx | hx
    · rcases hplain k n with ⟨-, hm⟩ | hp'
      · rw [hx, ho, if_pos rfl, callTable, exec_bind]
        exact .inl (bind_error ((bind_ok (hm .call) _).trans rfl) _)
      · rw [hp] at hp'
        cases hp'
    · exact .inr hx
  · rw [hp] at hy
    exact hy.elim

end Call

end Course

end Lua
end Rustrapper
