/-
# Yields

Where a yield comes from. Only `coroutine.yield` makes one, and every way it
takes to the machine's loop goes through a `Call`, which saves the continuation.
A `Call` that ran no machine on the way finds the thread as it was, but for the
values in place of its arguments (`Direct`); otherwise the last moment before it
is one of the machine it ran (`Nested`).
-/
import Rustrapper.Lua.Frame
import Rustrapper.Lua.Home

namespace Rustrapper
namespace Lua

open Effect (Logged unlogged record recordEnd)
open Effect.Cmd (Returns)

variable {α β : Type}

/-! ### Results that are no yield -/

/-- The result of a call that is suspended. -/
def ExecResult.isYield : ExecResult → Bool
  | .yield _ => true
  | _ => false

/-- The call is over. -/
def Final (r : ExecResult) : Prop := r.isYield = false

/-- The instruction does not end its run with a yield. -/
def GoesOn : Next → Prop
  | .goto _ => True
  | .halt r => Final r

theorem final_pushRet (r : NativeRet) : (pushRet r).Returns Final := by
  cases r with
  | retN vs => exact .after fun _ => .pure rfl
  | _ => exact .pure rfl

theorem final_pushResults (v : Value) (vs : List Value) : (pushResults v vs).Returns Final :=
  .after fun _ => .after fun _ => .pure rfl

theorem final_prependResult (v : Value) (r : ExecResult) : (prependResult v r).Returns Final := by
  cases r with
  | ret2 a b => exact .after fun _ => .after fun _ => .pure rfl
  | retN n => exact .after fun _ => .after fun _ => .pure rfl
  | yield n => exact .throw _
  | _ => exact .pure rfl

theorem final_pcallNative (f : Value) (h : Option Value) (argc base : ℕ) :
    (pcallNative f h argc base).Returns Final := by
  unfold pcallNative
  refine .after fun s => .after fun r => ?_
  cases r with
  | ok r => exact final_prependResult _ r
  | error e =>
    refine .after fun _ => .after fun _ => .after fun _ => .after fun v => ?_
    cases h with
    | none => exact .pure rfl
    | some h => exact .after fun _ => .after fun r => final_prependResult _ r

theorem final_coResumeValue (id argc : ℕ) : (coResumeValue id argc).Returns Final := by
  unfold coResumeValue
  refine .ite (.throw _) (.after fun args => .after fun r => ?_)
  cases r with
  | refused st => exact .after fun _ => final_pushResults _ _
  | failed e => exact .after fun _ => final_pushResults _ _
  | done vs => exact final_pushResults _ _

theorem final_coWrapCall (id argc : ℕ) : (coWrapCall id argc).Returns Final := by
  unfold coWrapCall
  refine .after fun r => ?_
  cases r with
  | retN n =>
    refine .after fun vs => ?_
    rcases vs with _ | ⟨v, rest⟩
    · exact .throw _
    · cases v with
      | bool b =>
        cases b with
        | false => exact .throw _
        | true =>
          refine .after fun m => .after fun _ => ?_
          rcases rest with _ | ⟨a, _ | ⟨b, _ | ⟨c, rest⟩⟩⟩ <;> exact .pure rfl
      | _ => exact .throw _
  | _ => exact .throw _

theorem final_selectF (args : List Value) : (selectF args).Returns Final := by
  unfold selectF
  cases args with
  | nil => exact .throw _
  | cons k extras =>
    refine .after fun s => .ite (.pure rfl) ?_
    cases wholeOf k with
    | none => exact .throw _
    | some n => exact .ite (.throw _) (.after fun _ => .pure rfl)

theorem final_setMetatable (args : List Value) : (setMetatable args).Returns Final := by
  unfold setMetatable
  split
  · dsimp only
    repeat' first
      | exact .pure rfl
      | exact .throw _
      | refine .ite ?_ ?_
      | refine .after fun _ => ?_
      | split
  · exact .throw _
  · exact .throw _

theorem final_warnF (L : Lib) (args : List Value) : (warnF L args).Returns Final := by
  unfold warnF
  dsimp only
  repeat' first
    | exact .pure rfl
    | exact .throw _
    | refine .ite ?_ ?_
    | refine .after fun _ => ?_
    | split

/-- The built-in functions that can end with a yield: `pairs`, for its
metamethod, and `coroutine.yield`. -/
theorem final_native (L : Lib) (id : ℕ) (args : List Value) (base : ℕ) (h4 : id ≠ 4) (h19 : id ≠ 19) :
    (native L id args base).Returns Final := by
  unfold native
  split
  all_goals first
    | exact .throw _
    | exact .pure rfl
    | exact absurd rfl h4
    | exact absurd rfl h19
    | exact final_selectF _
    | exact final_setMetatable _
    | exact final_warnF _ _
    | exact final_pcallNative _ _ _ _
    | exact final_coResumeValue _ _
    | exact .after fun _ => .pure rfl
    | exact .after fun _ => .after fun _ => .pure rfl
    | exact .after fun _ => final_pushRet _
    | skip
  · exact .after fun _ => .ite (.throw _) (.ite (.throw _) (.after fun _ => .pure rfl))
  · refine .ite (.throw _) (.after fun t => ?_)
    split <;> first | exact .throw _ | exact .pure rfl
  · exact .ite (.throw _) (.ite (.throw _) (.throw _))
  · exact .after fun _ => .ite (.pure rfl) (.pure rfl)
  · refine .after fun st => ?_
    cases st with
    | dead => exact .pure rfl
    | suspended => exact .pure rfl
    | running => exact .throw _
    | normal => exact .throw _
  · refine .ite (.pure rfl) ?_
    split
    · exact .throw _
    · exact .after fun _ => .throw _

/-! ### Instructions -/

theorem goesOn_enterFunc (fi argc base off ret want ci : ℕ) :
    (enterFunc fi argc base off ret want ci).Returns GoesOn :=
  .after fun _ => .after fun _ => .pure trivial

theorem goesOn_protectedCall (ip want base : ℕ) (f : Value) (h : Option Value) (argc : ℕ) :
    (protectedCall ip want base f h argc).Returns GoesOn := by
  unfold protectedCall
  refine .after fun s => .after fun _ => .after fun c => ?_
  cases c with
  | some p => exact goesOn_enterFunc _ _ _ _ _ _ _
  | none =>
    refine .after fun r => ?_
    cases r with
    | shell => exact .after fun _ => .pure rfl
    | exit => exact .after fun _ => .pure rfl
    | yield n => exact .throw _
    | _ => exact .after fun _ => .pure trivial

theorem final_resultOf (vs : List Value) : Final (resultOf vs) := by
  rcases vs with _ | ⟨a, _ | ⟨b, _ | ⟨c, vs⟩⟩⟩ <;> rfl

theorem goesOn_execReturn (a : ℕ) : (execReturn a).Returns GoesOn := by
  unfold execReturn
  refine .after fun f => ?_
  have hrest : ∀ vs, Returns GoesOn (do
      placeWant f.base f.want vs
      popFrame
      if f.retIp = RET_HALT then pure (.halt (resultOf (padTo f.want vs)))
      else if f.retIp = RET_PCALL then do
        let pf ← topFrame
        let vs ← valsFrom (pf.base + 1)
        placeWant pf.base pf.want (.bool true :: vs)
        popFrame
        pure (.goto pf.retIp)
      else pure (.goto f.retIp) : LuaM Next) := by
    intro vs
    refine .after fun _ => .after fun _ => .ite (.pure (final_resultOf _)) (.ite ?_ (.pure trivial))
    exact .after fun pf => .after fun _ => .after fun _ => .after fun _ => .pure trivial
  exact .ite (.after hrest) (.after hrest)

/-- The other instructions: each way through one ends behind it, at its target,
or at the end of the run. -/
theorem goesOn_instr (L : Lib) (ip : ℕ) {i : Instr} (h : ∀ a want, i ≠ .call a want) :
    (execInstr L ip i).Returns GoesOn := by
  cases i with
  | call a want => exact absurd rfl (h a want)
  | ret a => exact goesOn_execReturn a
  | halt => exact .pure rfl
  | stmtCheck =>
    refine .after fun v => ?_
    cases v with
    | exit => exact .pure rfl
    | shell => exact .pure rfl
    | dhcp => exact .after fun _ => .ite (.after fun _ => .pure trivial) (.pure trivial)
    | ls => exact .after fun _ => .pure trivial
    | _ => exact .pure trivial
  | _ =>
    unfold execInstr
    try unfold execForPrep
    try unfold execForLoop
    try unfold execForInNext
    try unfold execForInAdvance
    dsimp only
    repeat' first
      | exact .pure trivial
      | exact .throw _
      | refine .ite ?_ ?_
      | refine .after fun _ => ?_
      | split

/-! ### Programs that leave the thread alone -/

section Programs
variable {W : Logger}

theorem hist_bind (W : Logger) (x : LuaM α) (f : α → LuaM β) :
    W.exec (x >>= f) = W.exec x >>= fun a => W.exec (f a) := Effect.exec_bind W.handler x f

/-- A result of a sequence comes from one of its first part. -/
theorem hist_bind_ok {x : LuaM α} {f : α → LuaM β} {p q : LuaState × List Moment} {b : β}
    (h : W.exec (x >>= f) p = .ok b q) :
    ∃ a r, W.exec x p = .ok a r ∧ W.exec (f a) r = .ok b q := by
  rw [hist_bind] at h
  exact Effect.logged_bind_eq_ok h

theorem hist_perform (W : Logger) (o : LuaOp α) : W.exec (.perform o) = W.op o :=
  Effect.exec_perform W.handler o

theorem hist_get_ok {g : Machine → LuaM α} {p q : LuaState × List Moment} {a : α}
    (h : W.exec (MonadState.get >>= g) p = .ok a q) : W.exec (g p.1.toMachine) p = .ok a q := by
  rw [hist_bind, show W.exec (MonadState.get : LuaM Machine) = W.op .get from hist_perform W .get] at h
  exact h

theorem machine_ok {x : LuaM α} (hx : x.Only LuaOp.machine) {p q : LuaState × List Moment} {a : α}
    (h : W.exec x p = .ok a q) : q.2 = p.2 ∧ Rec.stuck.exec x p.1 = .ok a q.1 := by
  rw [exec_machine Rec.stuck hx, unlogged] at h
  cases hr : Rec.stuck.exec x p.1 with
  | ok b s =>
    rw [hr] at h
    cases h
    exact ⟨rfl, rfl⟩
  | error e s =>
    rw [hr] at h
    cases h

/-- The running thread is the same. -/
def SameThread (m m' : Machine) : Prop := m'.toThread = m.toThread

theorem sameThread_interns : Interns SameThread := ⟨fun _ _ _ => rfl, fun _ _ => rfl⟩

/-- The program reads and writes the heap alone. -/
abbrev OnHeap (x : LuaM α) : Prop := OnMachine SameThread x

theorem OnHeap.ok {x : LuaM α} (hx : OnHeap x) {p q : LuaState × List Moment} {a : α}
    (h : W.exec x p = .ok a q) : q.2 = p.2 ∧ q.1.toThread = p.1.toThread := by
  obtain ⟨hl, hs⟩ := machine_ok (hx p.1.toMachine).only h
  have hw : Writes SameThread x := fun m => (hx m).writes
  have ht := hw.exec (fun _ => rfl) (fun h h' => h'.trans h) (steps_stuck fun _ => rfl) p.1
  rw [hs] at ht
  exact ⟨hl, ht⟩

theorem machine_orFault (f : Fault) (o : Option α) : (orFault f o).Only LuaOp.machine := by
  cases o with
  | none => exact .throw _
  | some a => exact .pure a

theorem onHeap_mmOf (v : Value) (i : MM) : OnHeap (mmOf v i) := onMachine_mmOf sameThread_interns v i

theorem onHeap_enterMM : OnHeap enterMM :=
  .read fun _ => .ite (.throw _) ⟨.perform trivial, rfl, trivial⟩

theorem onHeap_leaveMM : OnHeap leaveMM := .modify fun _ => rfl

/-- What a metamethod call returns is what its body returns. -/
theorem dispatch_ok {x : LuaM α} {p q : LuaState × List Moment} {a : α}
    (h : W.exec (dispatchMM x) p = .ok a q) : ∃ p' q', W.exec x p' = .ok a q' ∧
      p'.2 = p.2 ∧ p'.1.toThread = p.1.toThread ∧ q.2 = q'.2 ∧ q.1.toThread = q'.1.toThread := by
  unfold dispatchMM at h
  obtain ⟨_, p', he, h⟩ := hist_bind_ok h
  obtain ⟨r, q', hx, h⟩ := hist_bind_ok h
  obtain ⟨_, q'', hl, h⟩ := hist_bind_ok h
  obtain ⟨hp, hpt⟩ := onHeap_enterMM.ok he
  obtain ⟨hq, hqt⟩ := onHeap_leaveMM.ok hl
  cases r with
  | error e => cases h
  | ok b =>
    cases h
    have hx' : catchHist (W.exec x) p' = .ok (.ok a) q' := by
      rw [← hx]
      exact (congrFun (Effect.exec_try W.handler x) p').symm
    unfold catchHist at hx'
    cases hr : W.exec x p' with
    | ok c r =>
      rw [hr] at hx'
      cases hx'
      exact ⟨p', q', hr, hp, hpt, hq, hqt⟩
    | error e r =>
      rw [hr] at hx'
      cases e <;> cases hx'

end Programs

/-! ### Where a yield comes from -/

/-- The thread without its top `j` values. -/
def Thread.drop (t : Thread) (j : ℕ) : Thread := { t with vstack := t.vstack.drop j }

/-- The thread with the values on top. -/
def Thread.push (t : Thread) (vs : List Value) : Thread := { t with vstack := vs.reverse ++ t.vstack }

/-- No machine ran, and `k` values are in place of the top `j`. -/
structure Direct (t : Thread) (l : List Moment) (j k : ℕ) (q : LuaState × List Moment) : Prop where
  log : q.2 = l
  thread : ∃ vs : List Value, vs.length = k ∧ q.1.toThread = (t.drop j).push vs

/-- A machine that ran has just ended. -/
def Nested (l : List Moment) : Prop := ∃ u rest, l = ⟨.uncounted, u⟩ :: rest

/-- What a yield can come from. -/
def Came (t : Thread) (l : List Moment) (j k : ℕ) (q : LuaState × List Moment) : Prop :=
  Direct t l j k q ∨ Nested q.2

theorem Came.after {t : Thread} {l : List Moment} {j k : ℕ} {q q' : LuaState × List Moment}
    (h : Came t l j k q) (hl : q'.2 = q.2) (ht : q'.1.toThread = q.1.toThread) : Came t l j k q' := by
  rcases h with h | h
  · obtain ⟨vs, hv, hq⟩ := h.thread
    exact .inl ⟨hl.trans h.log, vs, hv, ht.trans hq⟩
  · refine .inr ?_
    rw [hl]
    exact h

/-- The thread behind a `Call`: without the callee and its arguments. -/
def Thread.behindCall (t : Thread) (a : ℕ) : Thread :=
  if a = WANT_ALL then
    { t with vstack := resize (t.callMarks.headD 0) .nil t.vstack, callMarks := t.callMarks.tail }
  else t.drop (a + 1)

/-- The yield of a machine. Where its `Call` ran no other machine, the saved
continuation is behind that `Call`, and the `k` values are on top of the thread
that it leaves. -/
structure Saved (k : ℕ) (s : LuaState) (l : List Moment) : Prop where
  last : ∃ u y rest, l = ⟨.uncounted, u⟩ :: ⟨.yielded s.yieldIp s.yieldWant, y⟩ :: rest
  direct : ∀ u y ip sf older, l = u :: y :: ⟨.fetched ip, sf⟩ :: older →
    (Roomy l → sf.current = s.current) ∧ ∃ a, sf.code[ip]? = some (.call a s.yieldWant) ∧
      s.yieldIp = ip + 1 ∧ ∃ vs : List Value, vs.length = k ∧ s.toThread = (sf.behindCall a).push vs

/-- The yields of the entry points. -/
structure Logger.Yields (W : Logger) : Prop where
  call : ∀ f argc s l k q, W.call f argc (s, l) = .ok (.yield k) q → Came s.toThread l argc k q
  runAt : ∀ ip floor p k q, W.runAt ip floor p = .ok (.yield k) q → Saved k q.1 q.2

theorem Saved.nested {k : ℕ} {s : LuaState} {l : List Moment} (h : Saved k s l) : Nested l := by
  obtain ⟨u, y, rest, hl⟩ := h.last
  exact ⟨u, _, hl⟩

section Calls
variable {W : Logger} {s : LuaState} {l : List Moment} {k base : ℕ} {q : LuaState × List Moment}
  {L : Lib}

/-- A program whose results are over does not yield. -/
theorem not_yield {x : LuaM ExecResult} (hx : x.Returns Final) {p : LuaState × List Moment}
    (h : W.exec x p = .ok (.yield k) q) : False := by
  have hr := hx.result (H := W.handler) (fun x p b p' => by rintro ⟨⟩) h
  cases hr

theorem machine_topVals (n : ℕ) : (topVals n).Only LuaOp.machine :=
  .bind (.perform trivial) fun _ => .ite (.pure _) (.throw _)

theorem machine_placeVals (base : ℕ) (vs : List Value) : (placeVals base vs).Only LuaOp.machine :=
  .ite (.bind (machine_modify _) fun _ => machine_modify _) (.throw _)

theorem machine_loadArgs (i n : ℕ) : (loadArgs i n).Only LuaOp.machine :=
  .bind (.perform trivial) fun _ => .bind (.perform trivial) fun _ => .ite (.throw _) (.pure _)

theorem topVals_ok {n : ℕ} {p : LuaState × List Moment} {vs : List Value}
    (h : W.exec (topVals n) p = .ok vs q) :
    q = p ∧ n ≤ p.1.vstack.length ∧ vs = (p.1.vstack.take n).reverse := by
  obtain ⟨hl, hs⟩ := machine_ok (machine_topVals n) h
  by_cases hn : n ≤ p.1.vsp
  · rw [exec_topVals _ _ _ hn] at hs
    injection hs with hv hq
    exact ⟨Prod.ext hq.symm hl, hn, hv.symm⟩
  · simp only [topVals, exec_bind, exec_get, bind_apply, getMachine_apply, exec_ite, if_neg hn] at hs
    cases hs

theorem placeVals_ok {base : ℕ} {vs : List Value} {p : LuaState × List Moment}
    (h : W.exec (placeVals base vs) p = .ok () q) :
    q = ({ p.1 with vstack := vs.reverse ++ resize base .nil p.1.vstack }, p.2) := by
  obtain ⟨hl, hs⟩ := machine_ok (machine_placeVals base vs) h
  by_cases hn : base + vs.length ≤ STACK_CAP
  · rw [exec_placeVals _ _ _ _ hn] at hs
    injection hs with _ hq
    exact Prod.ext hq.symm hl
  · rw [exec_placeVals_full _ _ _ _ hn] at hs
    cases hs

theorem pushVals_ok {vs : List Value} {p : LuaState × List Moment}
    (h : W.exec (pushVals vs) p = .ok () q) :
    q = ({ p.1 with vstack := vs.reverse ++ p.1.vstack }, p.2) := by
  obtain ⟨hl, hs⟩ := machine_ok (machine_pushVals vs) h
  rcases pushVals_cases Rec.stuck p.1 vs with ⟨-, he⟩ | ⟨-, he⟩
  · rw [he] at hs
    injection hs with _ hq
    exact Prod.ext hq.symm hl
  · rw [he] at hs
    cases hs

theorem loadArgs_ok {i n : ℕ} {p : LuaState × List Moment} {vs : List Value}
    (h : W.exec (loadArgs i n) p = .ok vs q) : q = p ∧ vs.length = n := by
  obtain ⟨hl, hs⟩ := machine_ok (machine_loadArgs i n) h
  rw [exec_loadArgs] at hs
  split_ifs at hs
  injection hs with hv hq
  refine ⟨Prod.ext hq.symm hl, ?_⟩
  rw [← hv]
  exact stackVals_length _ _ _

/-- What is below the values on top. -/
theorem resize_below (v : Value) (xs : List Value) {n : ℕ} {ys : List Value} (h : n ≤ ys.length) :
    resize n v (xs ++ ys) = ys.drop (ys.length - n) := by
  have hle : n ≤ (xs ++ ys).length := by
    rw [List.length_append]
    omega
  have hxs : xs.length ≤ (xs ++ ys).length - n := by
    rw [List.length_append]
    omega
  have hys : (xs ++ ys).length - n - xs.length = ys.length - n := by
    rw [List.length_append]
    omega
  unfold resize
  rw [if_pos hle, List.drop_append, List.drop_eq_nil_of_le hxs, hys, List.nil_append]

/-- The values move down over the arguments. -/
theorem settle_came {argc j : ℕ} (hj : j ≤ argc) (ha : argc ≤ s.vsp) {p : LuaState × List Moment}
    (hp : Came s.toThread l j k p) {r : ExecResult}
    (h : W.exec (settle (s.vsp - argc) (.yield k)) p = .ok r q) : Came s.toThread l argc k q := by
  unfold settle at h
  obtain ⟨vs, p1, h1, h⟩ := hist_bind_ok h
  obtain ⟨_, p2, h2, h⟩ := hist_bind_ok h
  cases h
  obtain ⟨rfl, -, hvs⟩ := topVals_ok h1
  obtain rfl := placeVals_ok h2
  rcases hp with hd | hn
  · obtain ⟨ws, hw, ht⟩ := hd.thread
    have hst : p1.1.vstack = ws.reverse ++ s.vstack.drop j := congrArg Thread.vstack ht
    have hv : vs = ws := by
      rw [hvs, hst, List.take_left' (by rw [List.length_reverse, hw]), List.reverse_reverse]
    have hlen : s.vsp - argc ≤ (s.vstack.drop j).length := by
      rw [List.length_drop]
      exact Nat.sub_le_sub_left hj _
    have hdrop : resize (s.vsp - argc) (.nil : Value) p1.1.vstack = s.vstack.drop argc := by
      rw [hst, resize_below _ _ hlen, List.drop_drop, List.length_drop]
      congr 1
      simp only [Machine.vsp] at ha ⊢
      omega
    refine .inl ⟨hd.log, ws, hw, ?_⟩
    show { p1.1.toThread with vstack := vs.reverse ++ resize (s.vsp - argc) Value.nil p1.1.vstack } = _
    rw [hdrop, hv, ht]
    rfl
  · exact .inr hn

/-- `settle` keeps the result. -/
theorem settle_yields {b : ℕ} {r r' : ExecResult} {p : LuaState × List Moment}
    (h : W.exec (settle b r) p = .ok r' q) : r = r' := by
  unfold settle at h
  have hend : ∀ {x : LuaM Unit}, W.exec (x >>= fun _ => pure r) p = .ok r' q → r = r' := by
    intro x h
    obtain ⟨_, p1, -, h⟩ := hist_bind_ok h
    cases h
    rfl
  cases r with
  | retN n =>
    obtain ⟨vs, p1, -, h⟩ := hist_bind_ok h
    obtain ⟨_, p2, -, h⟩ := hist_bind_ok h
    cases h
    rfl
  | yield n =>
    obtain ⟨vs, p1, -, h⟩ := hist_bind_ok h
    obtain ⟨_, p2, -, h⟩ := hist_bind_ok h
    cases h
    rfl
  | _ => exact hend h

theorem callee_ok {v : Value} {p : LuaState × List Moment} {c : Option (ℕ × ℕ)}
    (h : W.exec (callee v) p = .ok c q) : q = p := by
  have hm : (callee v).Only LuaOp.machine := by
    cases v with
    | closure ci => exact .bind (.bind (.perform trivial) fun _ => machine_orFault _ _) fun _ => .pure _
    | _ => exact .pure _
  obtain ⟨hl, hs⟩ := machine_ok hm h
  rcases exec_callee_hard_or Rec.stuck p.1 v with ⟨e, t, he, -⟩ | ⟨he, -⟩ | ⟨fi, ci, he, -⟩
  · rw [he] at hs
    cases hs
  · rw [he] at hs
    injection hs with _ hq
    exact Prod.ext hq.symm hl
  · rw [he] at hs
    injection hs with _ hq
    exact Prod.ext hq.symm hl

theorem runFunc_nested (hW : W.Yields) {fi ci argc : ℕ} {p : LuaState × List Moment}
    (h : W.exec (runFunc fi ci argc) p = .ok (.yield k) q) : Nested q.2 := by
  unfold runFunc at h
  replace h := hist_get_ok h
  by_cases hc : argc > p.1.vsp
  · rw [if_pos hc] at h
    obtain ⟨_, _, h, -⟩ := hist_bind_ok h
    cases h
  · rw [if_neg hc] at h
    obtain ⟨_, p1, -, h⟩ := hist_bind_ok h
    obtain ⟨fd, p2, -, h⟩ := hist_bind_ok h
    replace h := hist_get_ok h
    rw [doRunAt, hist_perform] at h
    exact (hW.runAt _ _ _ _ _ h).nested

/-- A call of a value, from native code. -/
theorem callValue_came (hW : W.Yields) {fv : Value} {argc : ℕ}
    (h : W.exec (callValue fv argc) (s, l) = .ok (.yield k) q) : Came s.toThread l argc k q := by
  unfold callValue at h
  obtain ⟨c, p1, h1, h⟩ := hist_bind_ok h
  obtain rfl := callee_ok h1
  cases c with
  | some c => exact .inr (runFunc_nested hW h)
  | none =>
    rw [doCall, hist_perform] at h
    exact hW.call _ _ _ _ _ _ h

theorem yield_came (args : List Value) (h : W.exec (native L 19 args base) (s, l) = .ok (.yield k) q) :
    Came s.toThread l 0 k q := by
  obtain ⟨t, p1, h1, h⟩ := hist_bind_ok h
  rw [currentThread, hist_perform] at h1
  cases h1
  by_cases h0 : s.current = 0
  · rw [if_pos h0] at h
    obtain ⟨_, _, h, -⟩ := hist_bind_ok h
    cases h
  · rw [if_neg h0] at h
    obtain ⟨_, p2, h2, h⟩ := hist_bind_ok h
    obtain rfl := pushVals_ok h2
    cases h
    exact .inl ⟨rfl, args, rfl, rfl⟩

/-- `pairs` calls the metamethod on the table. -/
theorem pairs_came (hW : W.Yields) (args : List Value)
    (h : W.exec (native L 4 args base) (s, l) = .ok (.yield k) q) : Came s.toThread l 0 k q := by
  have hrest : ∀ {f : Value} {tid : ℕ} {p : LuaState × List Moment}, p.2 = l →
      p.1.toThread = s.toThread → W.exec (do
        pushVal (.table tid)
        dispatchMM (callValue f 1)) p = .ok (.yield k) q → Came s.toThread l 0 k q := by
    intro f tid p hl ht h
    obtain ⟨_, p1, h1, h⟩ := hist_bind_ok h
    have hp1 : W.exec (pushVals [.table tid]) p = .ok () p1 := by
      rw [pushVals, hist_bind, Effect.logged_bind_ok h1]
      rfl
    obtain rfl := pushVals_ok hp1
    obtain ⟨⟨s2, l2⟩, q', h2, hl2, ht2, hq, hqt⟩ := dispatch_ok h
    have hc := (callValue_came hW h2).after hq hqt
    rw [show s2.toThread = _ from ht2, show l2 = p.2 from hl2, hl] at hc
    rcases hc with hd | hn
    · obtain ⟨vs, hv, hst⟩ := hd.thread
      refine .inl ⟨hd.log, vs, hv, ?_⟩
      rw [hst, ← ht]
      rfl
    · exact .inr hn
  rcases args with _ | ⟨v, _ | ⟨w, rest⟩⟩
  · cases h
  · cases v with
    | table tid =>
      obtain ⟨f, p1, h1, h⟩ := hist_bind_ok h
      obtain ⟨hl, ht⟩ := (onHeap_mmOf (.table tid) .pairs).ok h1
      cases f with
      | nil => cases h
      | _ => exact hrest hl ht h
    | _ => cases h
  · cases v <;> cases h

/-- The callables of `eval::call` other than tables. -/
theorem callPlain_came (hW : W.Yields) {fv : Value} {args : List Value}
    (h : W.exec (callPlain L fv args base) (s, l) = .ok (.yield k) q) :
    ∃ j ≤ args.length, Came s.toThread l j k q := by
  have hno : ∀ {m : String} {x : LuaM ExecResult},
      W.exec (noArgs args.length m x) (s, l) = .ok (.yield k) q → x.Returns Final → False := by
    intro m x h hx
    exact not_yield (.ite (.throw _) hx) h
  cases fv with
  | native id =>
    by_cases h4 : id = 4
    · subst h4
      have hy : W.exec (native L 4 args base) (s, l) = .ok (.yield k) q := h
      exact ⟨0, Nat.zero_le _, pairs_came hW args hy⟩
    by_cases h19 : id = 19
    · subst h19
      have hy : W.exec (native L 19 args base) (s, l) = .ok (.yield k) q := h
      exact ⟨0, Nat.zero_le _, yield_came args hy⟩
    exact (not_yield (final_native L id args base h4 h19) h).elim
  | shell => exact (hno h (.pure rfl)).elim
  | exit => exact (hno h (.pure rfl)).elim
  | dhcp => exact (hno h (.after fun _ => .pure rfl)).elim
  | ls => exact (hno h (.after fun _ => .pure rfl)).elim
  | wrapped id => exact (not_yield (final_coWrapCall id args.length) h).elim
  | gmatch id =>
    exact (hno h (.after fun _ => .after fun _ => .ite (.pure rfl) (.pure rfl))).elim
  | ioLines id =>
    refine (hno h (.after fun r => ?_)).elim
    rcases r with _ | _ | ⟨b, bs⟩
    · exact .pure rfl
    · exact .pure rfl
    · exact .after fun _ => .pure rfl
  | co i => cases h
  | num n => cases h
  | _ => exact ⟨args.length, Nat.le_refl _, callValue_came hW h⟩

/-- A callable table passes the yield of its metamethod on. -/
theorem callTable_came (hW : W.Yields) {fv : Value} {args : List Value} (ha : args.length ≤ s.vsp)
    (h : W.exec (callTable fv args (s.vsp - args.length)) (s, l) = .ok (.yield k) q) :
    Came s.toThread l args.length k q := by
  have hrest : ∀ {f : Value} {p : LuaState × List Moment}, p.2 = l →
      p.1.toThread = s.toThread → W.exec (do
        if args.length ≥ 32 then err "too many arguments"
        placeVals (s.vsp - args.length) (fv :: args)
        dispatchMM (doCall f (args.length + 1))) p = .ok (.yield k) q →
      Came s.toThread l args.length k q := by
    intro f p hl ht h
    by_cases hn : args.length ≥ 32
    · rw [if_pos hn] at h
      cases h
    rw [if_neg hn] at h
    obtain ⟨_, p1, h1, h⟩ := hist_bind_ok h
    obtain rfl := placeVals_ok h1
    obtain ⟨⟨s2, l2⟩, q', h2, hl2, ht2, hq, hqt⟩ := dispatch_ok h
    rw [doCall, hist_perform] at h2
    have hc := (hW.call _ _ _ _ _ _ h2).after hq hqt
    rw [show s2.toThread = _ from ht2, show l2 = p.2 from hl2, hl] at hc
    rcases hc with hd | hn
    · obtain ⟨vs, hv, hst⟩ := hd.thread
      refine .inl ⟨hd.log, vs, hv, ?_⟩
      have hlen : (fv :: args).reverse.length = args.length + 1 := by simp
      have hvs : p.1.vstack = s.vstack := congrArg Thread.vstack ht
      have hdrop : resize (s.vsp - args.length) (.nil : Value) p.1.vstack = s.vstack.drop args.length := by
        rw [hvs]
        exact resize_sub .nil ha
      have hunder : ((fv :: args).reverse ++ resize (s.vsp - args.length) .nil p.1.vstack).drop
          (args.length + 1) = s.vstack.drop args.length := by
        rw [List.drop_left' hlen, hdrop]
      have hthread : Thread.drop { p.1.toThread with
          vstack := (fv :: args).reverse ++ resize (s.vsp - args.length) .nil p.1.vstack }
          (args.length + 1) = s.toThread.drop args.length := by
        rw [Thread.drop, hunder, ht]
        rfl
      rw [← hthread]
      exact hst
    · exact .inr hn
  obtain ⟨f, p1, h1, h⟩ := hist_bind_ok h
  obtain ⟨hl, ht⟩ := (onHeap_mmOf fv .call).ok h1
  cases f with
  | nil => cases h
  | _ => exact hrest hl ht h

/-- **The yield of a call**: the yielded values take the place of its arguments,
or a machine ran. -/
theorem call_came (hW : W.Yields) (L : Lib) {fv : Value} {argc : ℕ}
    (h : W.exec (Lua.call L fv argc) (s, l) = .ok (.yield k) q) : Came s.toThread l argc k q := by
  unfold Lua.call at h
  replace h := hist_get_ok h
  by_cases hc : argc > s.vsp
  · rw [if_pos hc] at h
    cases h
  rw [if_neg hc] at h
  have ha : argc ≤ s.vsp := Nat.not_lt.mp hc
  obtain ⟨args, p1, h1, h⟩ := hist_bind_ok h
  obtain ⟨rfl, rfl⟩ := loadArgs_ok h1
  by_cases ho : isOther fv args.length = true
  · rw [if_pos ho] at h
    exact callTable_came hW ha h
  · rw [if_neg ho] at h
    obtain ⟨r, p2, h2, h⟩ := hist_bind_ok h
    obtain rfl := settle_yields h
    obtain ⟨j, hj, hcame⟩ := callPlain_came hW h2
    exact settle_came hj ha hcame h

/-! ### The `Call` instruction -/

theorem vstackAt_ok {v : Value} {p : LuaState × List Moment} {b : ℕ}
    (h : W.exec (vstackAt b) p = .ok v q) : q = p := by
  have hm : (vstackAt b).Only LuaOp.machine := .bind (.perform trivial) fun _ => machine_orFault _ _
  obtain ⟨hl, hs⟩ := machine_ok hm h
  have hr : Rec.stuck.exec (vstackAt b) p.1 = Rec.stuck.exec (orFault .stack (at? p.1.vstack b)) p.1 := by
    rw [vstackAt, exec_bind, exec_get, bind_ok (getMachine_apply _)]
  rw [hr] at hs
  cases ha : at? p.1.vstack b with
  | none =>
    rw [ha] at hs
    cases hs
  | some w =>
    rw [ha] at hs
    injection hs with _ hq
    exact Prod.ext hq.symm hl

theorem valsAt_ok {i n : ℕ} {p : LuaState × List Moment} {vs : List Value}
    (h : W.exec (valsAt i n) p = .ok vs q) : q = p ∧ vs.length = n := by
  have hm : (valsAt i n).Only LuaOp.machine :=
    .bind (.perform trivial) fun _ => .ite (.throw _) (.pure _)
  obtain ⟨hl, hs⟩ := machine_ok hm h
  rw [exec_valsAt] at hs
  split_ifs at hs
  injection hs with hv hq
  refine ⟨Prod.ext hq.symm hl, ?_⟩
  rw [← hv]
  exact stackVals_length _ _ _

/-- Where the callee is, the thread behind the `Call` begins. -/
theorem callBase_ok {a b argc : ℕ} {p : LuaState × List Moment}
    (h : W.exec (callBase a) p = .ok (b, argc) q) : q.2 = p.2 ∧
      Thread.behindCall p.1.toThread a = { q.1.toThread with vstack := resize b .nil q.1.vstack } := by
  unfold callBase at h
  replace h := hist_get_ok h
  by_cases ha : a = WANT_ALL
  · rw [if_pos ha] at h
    unfold Thread.behindCall
    rw [if_pos ha]
    cases hm : p.1.callMarks with
    | nil =>
      rw [hm] at h
      cases h
    | cons base marks =>
      rw [hm] at h
      obtain ⟨_, p1, h1, h⟩ := hist_bind_ok h
      cases h1
      by_cases hv : p.1.vsp < base + 1
      · rw [if_pos hv] at h
        cases h
      · rw [if_neg hv] at h
        cases h
        exact ⟨rfl, rfl⟩
  · rw [if_neg ha] at h
    unfold Thread.behindCall
    rw [if_neg ha]
    by_cases hv : p.1.vsp < a + 1
    · rw [if_pos hv] at h
      cases h
    · rw [if_neg hv] at h
      cases h
      refine ⟨rfl, ?_⟩
      have hle : a + 1 ≤ q.1.vstack.length := Nat.not_lt.mp hv
      have hdrop : resize (q.1.vsp - a - 1) (.nil : Value) q.1.vstack = q.1.vstack.drop (a + 1) := by
        rw [Nat.sub_sub]
        exact resize_sub .nil hle
      rw [hdrop]
      rfl

/-- The yield of a `Call` saves the continuation behind it. -/
theorem finishCall_yield {ip want b : ℕ} {r : ExecResult} {p : LuaState × List Moment}
    (h : W.exec (finishCall ip want b r) p = .ok (.halt (.yield k)) q) : r = .yield k ∧
      q.1 = { p.1 with yieldIp := ip, yieldWant := want } ∧ q.2 = ⟨.yielded ip want, q.1⟩ :: p.2 := by
  have hend : ∀ {x : LuaM Unit}, W.exec (do
      x
      normalize b want
      pure (Next.goto ip)) p = .ok (Next.halt (.yield k)) q → False := by
    intro x h
    obtain ⟨_, p1, -, h⟩ := hist_bind_ok h
    obtain ⟨_, p2, -, h⟩ := hist_bind_ok h
    cases h
  cases r with
  | yield n =>
    obtain ⟨_, p1, h1, h⟩ := hist_bind_ok h
    rw [setYield, hist_perform] at h1
    cases h1
    cases h
    exact ⟨rfl, rfl, rfl⟩
  | shell => cases h
  | exit => cases h
  | normal => exact (@hend (pure ()) h).elim
  | ret v => exact (@hend (pushVal v) h).elim
  | ret2 v w => exact (@hend (pushVals [v, w]) h).elim
  | retN n => exact (@hend (pure ()) h).elim

/-- **The yield of a `Call`**: it saves the continuation behind itself, and what
is below is as it found it, unless a machine ran. -/
theorem execCall_saved (hW : W.Yields) {ip a want : ℕ} {p : LuaState × List Moment}
    (h : W.exec (execCall ip a want) p = .ok (.halt (.yield k)) q) :
    q.1.yieldIp = ip ∧ q.1.yieldWant = want ∧ ∃ rest, q.2 = ⟨.yielded ip want, q.1⟩ :: rest ∧
      ((rest = p.2 ∧ ∃ vs : List Value, vs.length = k ∧
        q.1.toThread = (Thread.behindCall p.1.toThread a).push vs) ∨ Nested rest) := by
  unfold execCall at h
  obtain ⟨⟨b, argc⟩, p1, h1, hcall⟩ := hist_bind_ok h
  obtain ⟨hl, hbehind⟩ := callBase_ok h1
  dsimp only at hcall
  obtain ⟨fv, p2, h2, hrun⟩ := hist_bind_ok hcall
  obtain rfl := vstackAt_ok h2
  obtain ⟨c, p3, h3, hways⟩ := hist_bind_ok hrun
  obtain rfl := callee_ok h3
  have hno : ∀ {x : LuaM Next} {p : LuaState × List Moment}, x.Returns GoesOn →
      W.exec x p = .ok (.halt (.yield k)) q → False := by
    intro x p hx h
    have hr := hx.result (H := W.handler) (fun x p b p' => by rintro ⟨⟩) h
    cases hr
  cases c with
  | some c => exact (hno (goesOn_enterFunc _ _ _ _ _ _ _) hways).elim
  | none =>
    obtain ⟨args, p4, h4, hmatch⟩ := hist_bind_ok hways
    obtain ⟨rfl, rfl⟩ := valsAt_ok h4
    -- protected calls refuse a yield
    split at hmatch
    · cases hmatch
    · exact (hno (.after fun _ => goesOn_protectedCall _ _ _ _ _ _) hmatch).elim
    · exact (hno (.after fun _ => goesOn_protectedCall _ _ _ _ _ _) hmatch).elim
    · cases hmatch
    obtain ⟨_, p5, h5, hdo⟩ := hist_bind_ok hmatch
    obtain rfl := placeVals_ok h5
    obtain ⟨r, p6, h6, hfin⟩ := hist_bind_ok hdo
    obtain ⟨rfl, hs, hq⟩ := finishCall_yield hfin
    rw [doCall, hist_perform] at h6
    refine ⟨by rw [hs], by rw [hs], p6.2, hq, ?_⟩
    rcases hW.call _ _ _ _ _ _ h6 with hd | hn
    · obtain ⟨vs, hv, ht⟩ := hd.thread
      refine .inl ⟨hd.log.trans hl, vs, hv, ?_⟩
      rw [hs, hbehind]
      show p6.1.toThread = _
      have hunder : (args.reverse ++ resize b (.nil : Value) p4.1.vstack).drop args.length =
          resize b .nil p4.1.vstack := List.drop_left' List.length_reverse
      rw [ht, Thread.drop]
      show Thread.push { p4.1.toThread with vstack := _ } vs = _
      exact congrArg (fun w => Thread.push { p4.1.toThread with vstack := w } vs) hunder
    · exact .inr hn

/-! ### The loop -/

/-- The end of an unwinding is no yield. -/
def UnwindGoesOn : Unwind → Prop
  | .control r => Final r
  | _ => True

theorem unwind_goesOn (floor : ℕ) : ∀ i e, (unwindProtected floor i e).Returns UnwindGoesOn
  | 0, _ => .pure trivial
  | i + 1, e => by
    unfold unwindProtected
    refine .ite (.pure trivial) (.after fun s => .after fun f => .ite (unwind_goesOn floor i e) ?_)
    refine .after fun v => .after fun _ => .after fun _ => .after fun _ => ?_
    cases f.errHandler with
    | none => exact .after fun _ => .after fun _ => .after fun _ => .pure trivial
    | some h =>
      refine .after fun _ => .after fun r => ?_
      cases r with
      | error e => exact .after fun _ => .after fun _ => unwind_goesOn floor i e
      | ok r =>
        cases r with
        | shell => exact .pure rfl
        | exit => exact .pure rfl
        | yield n => exact .throw _
        | _ => exact .after fun _ => .after fun _ => .pure trivial

theorem goesOn_turnEnd (floor : ℕ) (e : LuaError) : (turnEnd floor (.error e)).Returns GoesOn := by
  unfold turnEnd
  refine .after fun s => (unwind_goesOn floor s.fsp e).bind fun u hu => ?_
  cases u with
  | resume ip => exact .pure trivial
  | control r => exact .pure hu
  | propagate => exact .throw _

theorem execStep_yield (L : Lib) {ip : ℕ} {i : Instr} {p : LuaState × List Moment}
    (h : W.exec (execStep L ip i) p = .ok (.halt (.yield k)) q) : ∃ a want, i = .call a want ∧
      W.exec (execCall ip a want) p = .ok (.halt (.yield k)) q := by
  obtain ⟨next, p1, h1, h2⟩ := hist_bind_ok h
  have hnext : next = .halt (.yield k) ∧ p1 = q := by
    cases next with
    | goto ip =>
      obtain ⟨_, p2, -, h3⟩ := hist_bind_ok h2
      replace h3 := hist_get_ok h3
      by_cases hs : p2.1.steps > MAX_STEPS
      · rw [if_pos hs] at h3
        cases h3
      · rw [if_neg hs] at h3
        cases h3
    | halt r =>
      cases h2
      exact ⟨rfl, rfl⟩
  obtain ⟨rfl, rfl⟩ := hnext
  by_cases hc : ∃ a want, i = .call a want
  · obtain ⟨a, want, rfl⟩ := hc
    exact ⟨a, want, rfl, h1⟩
  · have hr := (goesOn_instr L ip fun a want hi => hc ⟨a, want, hi⟩).result (H := W.handler)
      (fun x p b p' => by rintro ⟨⟩) h1
    cases hr

/-- The yield of a turn is that of a `Call`. -/
theorem turn_saved (hW : W.Yields) (hH : W.Homes) (L : Lib) {ip floor : ℕ} {p : LuaState × List Moment}
    (h : W.turn L ip floor p = .ok (.halt (.yield k)) q) : Saved k q.1 q.2 := by
  obtain ⟨s, l⟩ := p
  unfold Logger.turn at h
  obtain ⟨_, _, h0, h⟩ := Effect.logged_bind_eq_ok h
  cases h0
  obtain ⟨_, _, h0, h⟩ := Effect.logged_bind_eq_ok h
  cases h0
  dsimp only at h
  cases hi : s.code[ip]? with
  | none =>
    rw [hi] at h
    cases h
  | some i =>
    rw [hi] at h
    obtain ⟨r, p1, h1, h2⟩ := Effect.logged_bind_eq_ok h
    cases r with
    | error e =>
      have hr := (goesOn_turnEnd floor e).result (H := W.handler) (fun x p b p' => by rintro ⟨⟩) h2
      cases hr
    | ok next =>
      cases h2
      unfold catchHist recordEnd at h1
      cases hx : W.exec (execStep L (ip + 1) i) (s, ⟨.fetched ip, s⟩ :: l) with
      | error e p2 =>
        rw [hx] at h1
        cases e <;> cases h1
      | ok next' p2 =>
        rw [hx] at h1
        cases h1
        obtain ⟨a, want, rfl, hcall⟩ := execStep_yield L hx
        obtain ⟨hip, hwant, rest, hq, hrest⟩ := execCall_saved hW hcall
        have hlog : (⟨.uncounted, p2.1⟩ :: p2.2 : List Moment) =
            ⟨.uncounted, p2.1⟩ :: ⟨.yielded p2.1.yieldIp p2.1.yieldWant, p2.1⟩ :: rest := by
          rw [hq, hip, hwant]
        refine ⟨⟨_, _, rest, hlog⟩, fun u y ip0 sf older hl => ?_⟩
        have hl' : (⟨.uncounted, p2.1⟩ :: ⟨.yielded p2.1.yieldIp p2.1.yieldWant, p2.1⟩ :: rest : List Moment) =
            u :: y :: ⟨.fetched ip0, sf⟩ :: older := hlog.symm.trans hl
        injection hl' with _ hl'
        injection hl' with _ hl'
        rcases hrest with ⟨hr, vs, hv, ht⟩ | ⟨v, r', hr⟩
        · rw [hr] at hl'
          cases hl'
          have hcur : Roomy p2.2 → p2.1.current = s.current := (homes_exec hH _).ok hx
          exact ⟨fun h => (hcur (h.of_suffix (List.suffix_cons _ _))).symm, a, by rw [hi, hwant], hip,
            vs, hv, ht⟩
        · rw [hr] at hl'
          cases hl'

theorem logger_yields (L : Lib) : ∀ n, (logger L n).Yields
  | 0 => ⟨fun _ _ _ _ _ _ h => (by cases h), fun _ _ _ _ _ h => (by cases h)⟩
  | n + 1 => by
    have ih := logger_yields L n
    refine ⟨fun f argc s l k q h => call_came ih L h, fun ip floor p k q h => ?_⟩
    obtain ⟨next, p1, h1, h2⟩ := Effect.logged_bind_eq_ok h
    cases next with
    | goto ip => exact ih.runAt _ _ _ _ _ h2
    | halt r =>
      cases h2
      exact turn_saved ih (logger_homes L n) L h1

/-! ### The body of a coroutine -/

/-- A function of the program. -/
def Value.isProgram : Value → Bool
  | .func _ | .closure _ => true
  | _ => false

/-- A coroutine of a program function that yields, when its last `Call` ran no
machine: its thread waits behind that `Call`, and so does its continuation. -/
def Waits (id : ℕ) (body : Value) (s : LuaState) (l : List Moment) : Prop :=
  body.isProgram = true → Roomy l → ∀ u y ip sf older, l = u :: y :: ⟨.fetched ip, sf⟩ :: older →
    sf.current = id + 1 ∧ ∃ a, sf.code[ip]? = some (.call a s.yieldWant) ∧ s.yieldIp = ip + 1 ∧
      s.toThread = sf.behindCall a

theorem takeResults_ok {n : ℕ} {p : LuaState × List Moment} {vs : List Value}
    (h : W.exec (takeResults n) p = .ok vs q) :
    q = ({ p.1 with vstack := p.1.vstack.drop n }, p.2) := by
  obtain ⟨_, p1, h1, h2⟩ := hist_bind_ok h
  obtain ⟨ws, p2, h3, h4⟩ := hist_bind_ok h2
  have hm : (useBuffer n).Only LuaOp.machine := .perform trivial
  obtain ⟨hl, hs⟩ := machine_ok hm h1
  rw [exec_useBuffer] at hs
  split_ifs at hs with hn
  obtain rfl : p1 = p := Prod.ext (EStateM.Result.ok.inj hs).2.symm hl
  obtain ⟨rfl, hle, -⟩ := topVals_ok h3
  replace h4 := hist_get_ok h4
  obtain ⟨_, p3, h5, h6⟩ := hist_bind_ok h4
  cases h6
  cases h5
  refine Prod.ext ?_ rfl
  show { p2.1 with vstack := resize (p2.1.vstack.length - n) .nil p2.1.vstack } = _
  rw [resize_sub .nil hle]

/-- A run that is watched for errors, and yields. -/
theorem attempt_ok {x : LuaM α} {p : LuaState × List Moment} {a : α}
    (h : W.exec (attempt x) p = .ok (.ok a) q) : W.exec x p = .ok a q := by
  have hc : catchHist (W.exec x) p = .ok (.ok a) q := by
    rw [← h]
    exact (congrFun (Effect.exec_try W.handler x) p).symm
  unfold catchHist at hc
  cases hx : W.exec x p with
  | ok b r =>
    rw [hx] at hc
    cases hc
    rfl
  | error e r =>
    rw [hx] at hc
    cases e <;> cases hc

theorem runEntry_saved (hW : W.Yields) {entry : ℕ} {p : LuaState × List Moment}
    (h : W.exec (attempt (runEntry entry)) p = .ok (.ok (.yield k)) q) : Saved k q.1 q.2 := by
  have h1 := hist_get_ok (attempt_ok h)
  rw [doRunAt, hist_perform] at h1
  exact hW.runAt _ _ _ _ _ h1

theorem startBody_saved (hW : W.Yields) {f : Value} (hf : f.isProgram = true) {args : List Value}
    {p : LuaState × List Moment} (h : W.exec (startBody f args) p = .ok (.ok (.yield k)) q) :
    Saved k q.1 q.2 := by
  obtain ⟨_, p1, -, h1⟩ := hist_bind_ok h
  obtain ⟨c, p2, h2, h3⟩ := hist_bind_ok h1
  have hc : c.isSome = true := by
    cases f with
    | func fi =>
      cases h2
      rfl
    | closure ci =>
      obtain ⟨cd, p3, -, h4⟩ := hist_bind_ok h2
      cases h4
      rfl
    | _ => cases hf
  cases c with
  | none => cases hc
  | some c =>
    obtain ⟨_, p4, -, h4⟩ := hist_bind_ok (hist_get_ok h3)
    obtain ⟨_, p5, -, h5⟩ := hist_bind_ok h4
    exact runEntry_saved hW h5

/-- **The yield of a body**: the thread and the continuation of a program
function wait behind its last `Call`. -/
theorem coBody_waits (hW : W.Yields) (hH : W.Homes) : W.YieldsWith Waits := by
  intro id c args p out s l hp h hf hroom u y ip sf older hl
  have hcur : s.current = id + 1 := ((homes_coBody hH id c args).ok h hroom).trans hp
  obtain ⟨r, p1, h1, h2⟩ := Effect.logged_bind_eq_ok h
  have hy : ∃ k, r = .ok (.yield k) ∧ (s, l) = ({ p1.1 with vstack := p1.1.vstack.drop k }, p1.2) := by
    have hdead : ∀ {x : LuaM (List Value)}, W.exec (x >>= fun vs =>
        (pure (Resumed.done vs, Left.dead) : LuaM (Resumed × Left))) p1 = .ok (out, .suspended) (s, l) →
        False := by
      intro x h
      obtain ⟨_, p2, -, h3⟩ := hist_bind_ok h
      cases h3
    cases r with
    | error e => cases h2
    | ok r =>
      cases r with
      | yield k =>
        obtain ⟨vs, p2, h3, h4⟩ := hist_bind_ok h2
        cases h4
        exact ⟨k, rfl, takeResults_ok h3⟩
      | _ => exact (hdead h2).elim
  obtain ⟨k, rfl, hs⟩ := hy
  cases hs
  have hsaved : Saved k p1.1 p1.2 := by
    unfold Logger.coRun at h1
    by_cases hst : c.started = true
    · rw [if_pos hst] at h1
      obtain ⟨_, p2, -, h3⟩ := Effect.logged_bind_eq_ok h1
      obtain ⟨_, p3, -, h4⟩ := Effect.logged_bind_eq_ok h3
      have h5 := attempt_ok h4
      rw [doRunAt, hist_perform] at h5
      exact hW.runAt _ _ _ _ _ h5
    · rw [if_neg hst] at h1
      exact startBody_saved hW hf h1
  obtain ⟨hc, a, hcode, hip, vs, hv, ht⟩ := hsaved.direct u y ip sf older hl
  refine ⟨(hc hroom).trans hcur, a, hcode, hip, ?_⟩
  have hst : p1.1.vstack.drop k = (sf.behindCall a).vstack := by
    rw [show p1.1.vstack = vs.reverse ++ (sf.behindCall a).vstack from congrArg Thread.vstack ht]
    exact List.drop_left' (by rw [List.length_reverse, hv])
  show { p1.1.toThread with vstack := p1.1.vstack.drop k } = _
  rw [hst, ht]
  rfl

end Calls

end Lua
end Rustrapper
