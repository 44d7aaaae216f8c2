/-
# Assignments and loops along a course

The instructions of assignments and of the loops (`Lua/Courses` has the simple
ones). The frame of a loop holds its control values and its variables; an
assignment of the body may change the variables, and does not change the
control values.
-/
import Rustrapper.Lua.Courses

namespace Rustrapper
namespace Lua

open Effect

namespace Course
variable {C : Course} {p : ℕ} {st : List Value} {fr : List Frame} {mk : List ℕ} {h : Heap} {v : Value}

/-! ### Assignments -/

section Assign
variable {sk rest : List Frame} {env : Env} {name : StrRef}

theorem unprotected_lay (hu : Unprotected (sk ++ rest)) : Unprotected (lay sk env ++ rest) := by
  intro f hf
  rcases List.mem_append.mp hf with hf | hf
  · obtain ⟨i, hi, rfl⟩ := List.getElem_of_mem hf
    have hsk : i < sk.length := by
      rw [lay, List.length_zipWith] at hi
      omega
    simp only [lay, List.getElem_zipWith]
    exact hu _ (List.mem_append_left _ (List.getElem_mem hsk))
  · exact hu f (List.mem_append_right _ hf)

/-- A variable is written, or a global. -/
theorem setVar (hi : C.b.code[p]? = some (.setVar name)) (hu : Unprotected (sk ++ rest)) (hb : IsBody sk)
    (hl : sk.length = env.length) (hd : Distinct env)
    (hy : C.sem (writeVar env name v) (fun env' h' => scopeNames env' = scopeNames env →
      C.leads (p + 1) st (lay sk env' ++ rest) mk h') h) :
    C.leads p (v :: st) (lay sk env ++ rest) mk h := by
  have hw := assignVar_wp C.b st rest mk name h hl hb hd v
  unfold sem at hy
  unfold Wp at hy hw
  cases hr : writeVar env name v h with
  | error e h' =>
    rw [hr] at hw
    exact hw.elim
  | ok env' h' =>
    rw [hr] at hy hw
    obtain ⟨hx, hnames⟩ := hw
    refine goto hi (unprotected_lay hu) (fun k n => ?_) (hy hnames)
    rw [execInstr, exec_bind, bind_ok (exec_pop_put ..), exec_bind, bind_ok (hx _ n)]
    rfl

/-- The stop of the machine for that of an evaluation. -/
def stopFor : Halt → Option Stop
  | .error e => some (.lua e)
  | .abort f => some (.fault f)
  | .unknown => none

/-- On the frames of a function, `x` does what `y` does to the variables and the heap. -/
def Writes (L : Lib) (b : LuaState) (st : List Value) (mk : List ℕ) (sk rest : List Frame) (env : Env)
    (h : Heap) (x : LuaM Unit) (y : Sem Env) : Prop :=
  Wp y
    (fun env' h' => (∀ k n, (interp L (k + 1)).exec x (b.put st (lay sk env ++ rest) mk h n) =
      .ok () (b.put st (lay sk env' ++ rest) mk h' n)) ∧ scopeNames env' = scopeNames env)
    (fun e h' => ∀ e', stopFor e = some e' → ∃ env', ∀ k n,
      (interp L (k + 1)).exec x (b.put st (lay sk env ++ rest) mk h n) =
        .error e' (b.put st (lay sk env' ++ rest) mk h' n)) h

theorem Writes.bind {L : Lib} {b : LuaState} {x x' : LuaM Unit} {y : Sem Env} {f : Env → Sem Env}
    (hx : Writes L b st mk sk rest env h x y)
    (hf : ∀ env' h', scopeNames env' = scopeNames env →
      Writes L b st mk sk rest env' h' x' (f env')) :
    Writes L b st mk sk rest env h (do x; x') (y >>= f) := by
  unfold Writes at hx hf ⊢
  rw [wp_bind]
  unfold Wp at hx ⊢
  cases hy : y h with
  | ok env₁ h₁ =>
    rw [hy] at hx
    obtain ⟨hok, hn₁⟩ := hx
    change Wp (f env₁) _ _ h₁
    refine Wp.imp (hf env₁ h₁ hn₁) (fun env₂ h₂ hx' => ⟨fun k n => ?_, hx'.2.trans hn₁⟩)
      fun e h₂ hx' e' he => ?_
    · rw [exec_bind, bind_ok (hok k n)]
      exact hx'.1 k n
    · obtain ⟨env₂, herr⟩ := hx' e' he
      refine ⟨env₂, fun k n => ?_⟩
      rw [exec_bind, bind_ok (hok k n)]
      exact herr k n
  | error e h₁ =>
    rw [hy] at hx
    intro e' he
    obtain ⟨env₁, herr⟩ := hx e' he
    refine ⟨env₁, fun k n => ?_⟩
    rw [exec_bind]
    exact bind_error (herr k n) _

/-- The writes of an assignment, one after the other. -/
theorem assignTargets_wp (L : Lib) (b : LuaState) (st : List Value) (rest : List Frame) (mk : List ℕ)
    (hb : IsBody sk) :
    ∀ (ts : List Target) (vs prefixes : List Value) (env : Env) (h : Heap), sk.length = env.length →
      Distinct env →
      Writes L b st mk sk rest env h (assignTargets ts vs prefixes) (assignAll env ts vs prefixes)
  | [], vs, prefixes, env, h, _, _ => ⟨fun _ _ => rfl, rfl⟩
  | .var name :: ts, vs, prefixes, env, h, hl, hd => by
    refine Writes.bind (x := assignVar name (vs.headD .nil)) ?_ fun env' h' hn =>
      assignTargets_wp L b st rest mk hb ts vs.tail prefixes env' h' ?_ (hd.of_names hn)
    · refine Wp.imp (assignVar_wp b st rest mk _ _ hl hb hd _) (fun env' h' hx => ⟨fun k n => hx.1 _ n, hx.2⟩)
        fun _ _ hf => hf.elim
    · rw [hl, scopeNames_length hn]
  | .index :: ts, vs, base :: key :: prefixes, env, h, hl, hd => by
    have hset : Writes L b st mk sk rest env h (doTset base key (vs.headD .nil)) (do
        setIndexOf base key (vs.headD .nil)
        pure env) := by
      have ho := fun k n => overHeap_doTset L k (b.put st (lay sk env ++ rest) mk h n) base key (vs.headD .nil)
      unfold OverHeap at ho
      simp only [put_toHeap] at ho
      unfold Writes
      rw [wp_bind]
      unfold Wp at ho ⊢
      cases hr : setIndexOf base key (vs.headD .nil) h with
      | ok u h' =>
        rw [hr] at ho
        exact ⟨fun k n => ho k n, rfl⟩
      | error e h' =>
        rw [hr] at ho
        intro e' he
        refine ⟨env, fun k n => ?_⟩
        cases e with
        | error e =>
          cases he
          exact ho k n
        | abort f =>
          cases he
          exact ho k n
        | unknown => cases he
    have hrest := Writes.bind hset fun env' h' hn =>
      assignTargets_wp L b st rest mk hb ts vs.tail prefixes env' h'
        (hl.trans (scopeNames_length hn).symm) (hd.of_names hn)
    rw [bind_assoc] at hrest
    exact hrest
  | .index :: ts, vs, [], env, h, _, _ => fun _ he => by cases he
  | .index :: ts, vs, [_], env, h, _, _ => fun _ he => by cases he
  | .other :: ts, vs, prefixes, env, h, _, _ => fun e' he => by
    cases he
    exact ⟨env, fun _ _ => rfl⟩

/-- The values beyond those there are do not matter. -/
theorem assignAll_padTo : ∀ (ts : List Target) (vs prefixes : List Value) (env : Env),
    assignAll env ts (vs.take ts.length ++ List.replicate (ts.length - vs.length) .nil) prefixes =
      assignAll env ts vs prefixes
  | [], _, _, _ => rfl
  | .var name :: ts, vs, prefixes, env => by
    have ih := assignAll_padTo ts vs.tail prefixes
    cases vs <;> simp [assignAll, List.replicate_succ] at ih ⊢ <;> simp [ih]
  | .index :: ts, vs, base :: key :: prefixes, env => by
    have ih := assignAll_padTo ts vs.tail prefixes
    cases vs <;> simp [assignAll, List.replicate_succ] at ih ⊢ <;> simp [ih]
  | .index :: ts, vs, [], env => rfl
  | .index :: ts, vs, [_], env => rfl
  | .other :: ts, vs, prefixes, env => rfl

theorem assignMulti {ts : List Target} {vs prefixes : List Value} {c : ℕ}
    (hi : C.b.code[p]? = some (.assignMulti ts c)) (hu : Unprotected (sk ++ rest)) (hb : IsBody sk)
    (hl : sk.length = env.length) (hd : Distinct env) (hc : vs.length = c)
    (hp : prefixes.length = 2 * ts.countP (· = .index))
    (hy : C.sem (assignAll env ts vs prefixes) (fun env' h' =>
      scopeNames env' = scopeNames env → C.leads (p + 1) st (lay sk env' ++ rest) mk h') h) :
    C.leads p ((prefixes ++ vs).reverse ++ st) (lay sk env ++ rest) mk h := by
  have hw := assignTargets_wp C.L C.b ((prefixes ++ vs).reverse ++ st) rest mk hb ts vs prefixes env h hl hd
  have hlen : (prefixes ++ vs).length = c + 2 * ts.countP (· = .index) := by
    rw [List.length_append]
    omega
  have hx : ∀ k n, (interp C.L (k + 1)).exec (execInstr C.L (p + 1) (.assignMulti ts c))
      (C.b.put ((prefixes ++ vs).reverse ++ st) (lay sk env ++ rest) mk h n) =
      (interp C.L (k + 1)).exec (do
        assignTargets ts vs prefixes
        setVsp ((← get).vsp - (c + 2 * ts.countP (· = .index)))
        pure (.goto (p + 1))) (C.b.put ((prefixes ++ vs).reverse ++ st) (lay sk env ++ rest) mk h n) := by
    intro k n
    rw [execInstr, execAssign, bind_assoc, exec_bind, bind_ok (topVals_put _ _ hlen), ← hp]
    simp
  unfold sem at hy
  unfold Writes at hw
  unfold Wp at hy hw
  cases hr : assignAll env ts vs prefixes h with
  | ok env' h' =>
    rw [hr] at hy hw
    obtain ⟨hok, hn⟩ := hw
    refine goto hi (unprotected_lay hu) (fun k n => ?_) (hy hn)
    rw [hx, exec_bind, bind_ok (hok k n), dropVals_put _ _ hlen]
    rfl
  | error e h' =>
    rw [hr] at hy hw
    have hstop : ∀ e', stopFor e = some e' → (∀ t : LuaState, t.toHeap = h' → C.Q (.error e' t)) →
        C.leads p ((prefixes ++ vs).reverse ++ st) (lay sk env ++ rest) mk h := by
      intro e' he hq
      obtain ⟨env', herr⟩ := hw e' he
      have hu' : Unprotected (lay sk env' ++ rest) := unprotected_lay hu
      refine stop ((prefixes ++ vs).reverse ++ st) mk h' hi hu' (fun k n => ?_) fun n => hq _ rfl
      rw [hx, exec_bind]
      exact bind_error (herr k n) _
    cases e with
    | error e => exact hstop _ rfl hy
    | abort f => exact hstop _ rfl hy
    | unknown => exact hy.elim

end Assign

/-! ### Loop variables -/

/-- The variables of a block with one of them set, or with one more. -/
def bound (name : StrRef) (v : Value) (bs : Bindings) : Bindings :=
  if bs.any (·.1 = name) then updateFirst (fun p => p.1 = name) (fun p => (p.1, v)) bs else (name, v) :: bs

/-- The frame of a block that has the variables. -/
def withVars (f : Frame) (bs : Bindings) : Frame := { f with locals := localsOf bs }

/-- The frame of a loop with its control values. -/
def controls (f : Frame) (c0 c1 c2 : Value) : Frame := { f with ctrl0 := c0, ctrl1 := c1, ctrl2 := c2 }

theorem setLocalTop_put (R : Rec) (b : LuaState) (f : Frame) {bs : Bindings} (name : StrRef) (v : Value)
    (n : ℕ) (hd : (bs.map Prod.fst).Nodup) :
    R.exec (setLocalTop name v) (b.put st (withVars f bs :: fr) mk h n) =
        .ok () (b.put st (withVars f (bound name v bs) :: fr) mk h n) ∨
      R.exec (setLocalTop name v) (b.put st (withVars f bs :: fr) mk h n) =
        .error (.lua (.msg "too many locals")) (b.put st (withVars f bs :: fr) mk h n) := by
  have hget : R.exec (setLocalTop name v) (b.put st (withVars f bs :: fr) mk h n) = R.exec
      (((withVars f bs).find name).elim (Lua.declareLocal name v) fun l =>
        if l.cell = NO_CELL then
          modify fun s => { s with frames := (withVars f bs).update name (fun l => { l with value := v }) :: fr }
        else modify fun s => { s with cells := s.cells.set l.cell v }) (b.put st (withVars f bs :: fr) mk h n) := by
    rw [setLocalTop, exec_bind, exec_get, bind_ok (getMachine_apply _)]
    dsimp only [LuaState.put]
    cases (withVars f bs).find name <;> rfl
  have hfind := find_localsOf f hd name
  change (withVars f bs).find name = _ at hfind
  have hany := lookup_isSome name bs
  rw [hget, hfind, bound]
  cases hlook : bs.lookup name with
  | some w =>
    rw [hlook, Option.isSome_some] at hany
    have hup := update_localsOf f hd name v
    change (withVars f bs).update name _ = _ at hup
    rw [if_pos hany.symm]
    left
    simp only [Option.map_some, Option.elim_some, if_true, exec_modify]
    rw [hup, bind_ok (getMachine_apply _)]
    rfl
  | none =>
    rw [hlook, Option.isSome_none] at hany
    rw [if_neg (by rw [← hany]; exact Bool.false_ne_true)]
    by_cases hroom : (withVars f bs).locals.length < MAX_LOCALS
    · left
      have hdec := exec_declareLocal R (b.put st (withVars f bs :: fr) mk h n) name v rfl hroom
      have hlocals := localsOf_declare [name] [v] bs
      change localsOf ((name, v) :: bs) = _ at hlocals
      refine hdec.trans ?_
      simp only [withVars, hlocals]
      rfl
    · exact .inr (exec_declareLocal_full R (b.put st (withVars f bs :: fr) mk h n) name v rfl hroom)

theorem setLocalTop {f : Frame} {bs : Bindings} {name : StrRef} (hi : C.b.code[p]? = some (.setLocalTop name))
    (hu : Unprotected (f :: fr)) (hd : (bs.map Prod.fst).Nodup)
    (hn : C.leads (p + 1) st (withVars f (bound name v bs) :: fr) mk h) :
    C.leads p (v :: st) (withVars f bs :: fr) mk h := by
  have hu' : ∀ bs, Unprotected (withVars f bs :: fr) := fun bs => unprotected_cons
    (hu f (List.mem_cons_self ..)) fun g hg => hu g (List.mem_cons_of_mem _ hg)
  refine tries hi (hu' _) (fun k n => ?_) hn
  rw [execInstr, exec_bind, bind_ok (exec_pop_put ..), exec_bind]
  rcases setLocalTop_put (interp C.L (k + 1)) C.b f name v n hd with hx | hx
  · rw [bind_ok hx]
    exact .inl rfl
  · rw [bind_error hx]
    exact .inr ⟨_, _, rfl, by simp [GaveUp], hu' bs⟩

/-! ### Numeric loops -/

theorem unprotected_top {f g : Frame} (hu : Unprotected (f :: fr)) (hg : g.isProtected = f.isProtected) :
    Unprotected (g :: fr) :=
  unprotected_cons (hg.trans (hu f (List.mem_cons_self ..))) fun g hg => hu g (List.mem_cons_of_mem _ hg)

theorem exec_forBound (R : Rec) (b : LuaState) (st : List Value) (fr : List Frame) (mk : List ℕ) (h : Heap)
    (v : Value) (n : ℕ) :
    R.exec (forBound v) (b.put st fr mk h n) = (floatOf v).elim
      (.error (.lua (.msg "for loop bound must be a number")) (b.put st fr mk h n))
      fun x => .ok x (b.put st fr mk h n) := by
  unfold forBound
  cases floatOf v <;> rfl

/-- The bounds of a loop, as the machine takes them. -/
theorem forPrep_bounds (R : Rec) (b : LuaState) (f : Frame) (bs : Bindings) (st : List Value) (fr : List Frame)
    (mk : List ℕ) (h : Heap) (x y z : Value) (ip a n : ℕ) (var : StrRef) :
    Wp (loopStart x y z) (fun r h' => h' = h ∧
        R.exec (execForPrep false ip a var) (b.put (z :: y :: x :: st) (withVars f bs :: fr) mk h n) =
          R.exec (if r.2.2.2 then pure (.goto a) else do
            Lua.setLocalTop var r.1
            pure (.goto ip)) (b.put st (withVars (controls f r.1 r.2.1 r.2.2.1) bs :: fr) mk h n))
      (fun e h' => h' = h ∧ ∃ m, e = .error (.msg m) ∧
        R.exec (execForPrep false ip a var) (b.put (z :: y :: x :: st) (withVars f bs :: fr) mk h n) =
          .error (.lua (.msg m)) (b.put st (withVars f bs :: fr) mk h n)) h := by
  obtain ⟨w, hw⟩ : ∃ w, w = R.exec (execForPrep false ip a var)
    (b.put (z :: y :: x :: st) (withVars f bs :: fr) mk h n) := ⟨_, rfl⟩
  rw [← hw]
  rw [execForPrep, exec_bind, bind_ok (exec_pop_put ..), exec_bind, bind_ok (exec_pop_put ..), exec_bind,
    bind_ok (exec_pop_put ..)] at hw
  unfold loopStart
  split
  · exact ⟨rfl, hw⟩
  · rename_i hne
    split at hw
    · exact absurd rfl (hne _ _ _ rfl rfl)
    · have hbound := exec_forBound R b st (withVars f bs :: fr) mk h
      rw [exec_bind] at hw
      cases hx : floatOf x with
      | none =>
        have := hbound x n
        rw [hx] at this
        rw [bind_error this] at hw
        exact ⟨rfl, _, rfl, hw⟩
      | some fx =>
        have := hbound x n
        rw [hx] at this
        rw [bind_ok this, exec_bind] at hw
        cases hy : floatOf y with
        | none =>
          have := hbound y n
          rw [hy] at this
          rw [bind_error this] at hw
          exact ⟨rfl, _, rfl, hw⟩
        | some fy =>
          have := hbound y n
          rw [hy] at this
          rw [bind_ok this, exec_bind] at hw
          cases hz : floatOf z with
          | none =>
            have := hbound z n
            rw [hz] at this
            rw [bind_error this] at hw
            exact ⟨rfl, _, rfl, hw⟩
          | some fz =>
            have := hbound z n
            rw [hz] at this
            rw [bind_ok this] at hw
            exact ⟨rfl, hw⟩

section Loops
variable {f : Frame} {bs : Bindings}

/-- The variable of a loop is set, and its body entered. -/
theorem enters {i : Instr} {st₀ : List Value} {fr₀ : List Frame} {var : StrRef} {body : ℕ}
    (hi : C.b.code[p]? = some i) (hu : Unprotected (f :: fr)) (hd : (bs.map Prod.fst).Nodup)
    (hx : ∀ k n, (interp C.L (k + 1)).exec (execInstr C.L (p + 1) i) (C.b.put st₀ fr₀ mk h n) =
      (interp C.L (k + 1)).exec (do
        Lua.setLocalTop var v
        pure (.goto body)) (C.b.put st (withVars f bs :: fr) mk h n))
    (hn : C.leads body st (withVars f (bound var v bs) :: fr) mk h) : C.leads p st₀ fr₀ mk h := by
  have hu' : ∀ bs, Unprotected (withVars f bs :: fr) := fun bs => unprotected_top hu rfl
  refine tries hi (hu' _) (fun k n => ?_) hn
  rw [hx, exec_bind]
  rcases setLocalTop_put (interp C.L (k + 1)) C.b f var v n hd with hx | hx
  · rw [bind_ok hx]
    exact .inl rfl
  · rw [bind_error hx]
    exact .inr ⟨_, _, rfl, by simp [GaveUp], hu' bs⟩

theorem forPrep {x y z : Value} {a : ℕ} {var : StrRef} (hi : C.b.code[p]? = some (.forPrep false a var))
    (hu : Unprotected (f :: fr)) (hd : (bs.map Prod.fst).Nodup)
    (hy : C.sem (loopStart x y z) (fun r h' =>
      if r.2.2.2 then C.leads a st (withVars (controls f r.1 r.2.1 r.2.2.1) bs :: fr) mk h'
      else C.leads (p + 1) st (withVars (controls f r.1 r.2.1 r.2.2.1) (bound var r.1 bs) :: fr) mk h') h) :
    C.leads p (z :: y :: x :: st) (withVars f bs :: fr) mk h := by
  have hb := fun k n => forPrep_bounds (interp C.L (k + 1)) C.b f bs st fr mk h x y z (p + 1) a n var
  unfold sem at hy
  unfold Wp at hy hb
  cases hr : loopStart x y z h with
  | ok r h' =>
    rw [hr] at hy hb
    obtain rfl : h' = h := (hb 0 0).1
    have hx : ∀ k n, (interp C.L (k + 1)).exec (execInstr C.L (p + 1) (.forPrep false a var))
        (C.b.put (z :: y :: x :: st) (withVars f bs :: fr) mk h' n) = _ := fun k n => (hb k n).2
    have hu' : Unprotected (controls f r.1 r.2.1 r.2.2.1 :: fr) := unprotected_top hu rfl
    change if r.2.2.2 then _ else _ at hy
    cases hs : r.2.2.2 with
    | true =>
      rw [hs, if_pos rfl] at hy
      refine goto hi (unprotected_top (g := withVars (controls f r.1 r.2.1 r.2.2.1) bs) hu' rfl) (fun k n => ?_) hy
      rw [hx, hs, if_pos rfl]
      rfl
    | false =>
      rw [hs, if_neg Bool.false_ne_true] at hy
      refine enters hi hu' hd (fun k n => ?_) hy
      rw [hx, hs, if_neg Bool.false_ne_true]
  | error e h' =>
    rw [hr] at hy hb
    obtain ⟨rfl, m, rfl, -⟩ := hb 0 0
    refine stop st mk h' hi (unprotected_top (g := withVars f bs) hu rfl)
      (fun k n => ?_) fun n => hy _ rfl
    obtain ⟨-, m', hm, hx⟩ := hb k n
    cases hm
    exact hx

theorem forLoop {c0 c1 c2 : Value} {a : ℕ} {var : StrRef} {r : Option Value}
    (hi : C.b.code[p]? = some (.forLoop false a var)) (hu : Unprotected (f :: fr))
    (hd : (bs.map Prod.fst).Nodup) (hr : loopNext c0 c1 c2 = some r)
    (hend : r = none → C.leads (p + 1) st (withVars (controls f c0 c1 c2) bs :: fr) mk h)
    (hnext : ∀ v, r = some v → C.leads a st (withVars (controls f v c1 c2) (bound var v bs) :: fr) mk h) :
    C.leads p st (withVars (controls f c0 c1 c2) bs :: fr) mk h := by
  have hfor : forNext (withVars (controls f c0 c1 c2) bs) = some r := hr
  have hu' : Unprotected (withVars (controls f c0 c1 c2) bs :: fr) := unprotected_top hu rfl
  cases r with
  | none =>
    refine goto hi hu' (fun k n => ?_) (hend rfl)
    rw [execInstr, execForLoop, exec_bind, bind_ok (exec_topFrame _ _ rfl), hfor]
    rfl
  | some v =>
    refine enters hi (unprotected_top (g := controls f v c1 c2) hu rfl) hd (fun k n => ?_)
      (hnext v rfl)
    rw [execInstr, execForLoop, exec_bind, bind_ok (exec_topFrame _ _ rfl), hfor]
    dsimp only
    rw [exec_bind, bind_ok (exec_setTopFrame _ _ rfl)]
    rfl

/-! ### Loops over tables -/

theorem forInPrep_put (R : Rec) (b : LuaState) (f : Frame) (bs : Bindings) (st : List Value) (fr : List Frame)
    (mk : List ℕ) (h : Heap) (x y : Value) (n : ℕ) :
    Wp (loopTable x y) (fun i h' => h' = h ∧
        R.exec execForInPrep (b.put (y :: x :: st) (withVars f bs :: fr) mk h n) =
          .ok () (b.put st (withVars (controls f (.num (Int64.ofNat i)) (.num 0) .nil) bs :: fr) mk h n))
      (fun e h' => h' = h ∧ (e = .unknown ∨ ∃ m, e = .error (.msg m) ∧
        R.exec execForInPrep (b.put (y :: x :: st) (withVars f bs :: fr) mk h n) =
          .error (.lua (.msg m)) (b.put st (withVars f bs :: fr) mk h n))) h := by
  obtain ⟨w, hw⟩ : ∃ w, w = R.exec execForInPrep (b.put (y :: x :: st) (withVars f bs :: fr) mk h n) := ⟨_, rfl⟩
  rw [← hw]
  rw [execForInPrep, exec_bind, bind_ok (exec_pop_put ..), exec_bind, bind_ok (exec_pop_put ..), exec_bind,
    bind_ok (exec_topFrame _ _ rfl)] at hw
  unfold loopTable
  split
  · exact ⟨rfl, .inl rfl⟩
  · exact ⟨rfl, .inl rfl⟩
  · exact ⟨rfl, hw⟩
  · exact ⟨rfl, hw⟩
  · rename_i h1 h2 h3 h4
    split at hw
    · exact absurd rfl (h1 _)
    · exact absurd rfl (h2 _)
    · exact absurd rfl (h3 _)
    · exact absurd rfl (h4 _ rfl)
    · exact ⟨rfl, .inr ⟨_, rfl, hw⟩⟩

theorem forInPrep {x y : Value} (bs : Bindings) (hi : C.b.code[p]? = some .forInPrep) (hu : Unprotected (f :: fr))
    (hy : C.sem (loopTable x y) (fun i h' =>
      C.leads (p + 1) st (withVars (controls f (.num (Int64.ofNat i)) (.num 0) .nil) bs :: fr) mk h') h) :
    C.leads p (y :: x :: st) (withVars f bs :: fr) mk h := by
  have hb := fun k n => forInPrep_put (interp C.L (k + 1)) C.b f bs st fr mk h x y n
  unfold sem at hy
  unfold Wp at hy hb
  cases hr : loopTable x y h with
  | ok i h' =>
    rw [hr] at hy hb
    obtain rfl : h' = h := (hb 0 0).1
    refine goto hi (unprotected_top (g := withVars (controls f (.num (Int64.ofNat i)) (.num 0) .nil) bs) hu rfl)
      (fun k n => ?_) hy
    rw [execInstr, exec_bind, bind_ok (hb k n).2]
    rfl
  | error e h' =>
    rw [hr] at hy hb
    obtain ⟨rfl, rfl | ⟨m, rfl, -⟩⟩ := hb 0 0
    · exact hy.elim
    · refine stop st mk h' hi (unprotected_top (g := withVars f bs) hu rfl)
        (fun k n => ?_) fun n => hy _ rfl
      obtain ⟨-, hm | ⟨m', hm, hx⟩⟩ := hb k n
      · cases hm
      · cases hm
        rw [execInstr, exec_bind]
        exact bind_error hx _

/-- The entry at the position is pushed, or the loop is left. -/
theorem forInNext {i pos : Int64} {c : Value} {a : ℕ} (hi : C.b.code[p]? = some (.forInNext a))
    (hu : Unprotected (f :: fr))
    (hy : C.sem (tableAt (atPosition i)) (fun r h' =>
      (r.slots[atPosition pos]? = none →
        C.leads a st (withVars (controls f (.num i) (.num pos) c) bs :: fr) mk h') ∧
      ∀ k v, r.slots[atPosition pos]? = some (k, v) →
        C.leads (p + 1) (v :: k :: st) (withVars (controls f (.num i) (.num pos) k) bs :: fr) mk h') h) :
    C.leads p st (withVars (controls f (.num i) (.num pos) c) bs :: fr) mk h := by
  have hu' : ∀ c, Unprotected (withVars (controls f (.num i) (.num pos) c) bs :: fr) := fun c =>
    unprotected_top hu rfl
  unfold sem Wp at hy
  cases ht : h.tbls[atPosition i]? with
  | none =>
    rw [tableAt_none ht] at hy
    exact hy.elim
  | some r =>
    rw [tableAt_some ht] at hy
    obtain ⟨hend, hnext⟩ := hy
    have hx : ∀ k n, (interp C.L (k + 1)).exec (execInstr C.L (p + 1) (.forInNext a))
        (C.b.put st (withVars (controls f (.num i) (.num pos) c) bs :: fr) mk h n) =
        (interp C.L (k + 1)).exec (r.slots[atPosition pos]?.elim (pure (.goto a)) fun e => do
          setTopFrame (withVars (controls f (.num i) (.num pos) e.1) bs)
          pushVals [e.1, e.2]
          pure (.goto (p + 1)))
          (C.b.put st (withVars (controls f (.num i) (.num pos) c) bs :: fr) mk h n) := by
      intro k n
      rw [execInstr, execForInNext, exec_bind, bind_ok (exec_topFrame _ _ rfl)]
      change (interp C.L (k + 1)).exec (tableRec (atPosition i) >>= _) _ = _
      rw [exec_bind, bind_ok (exec_tableRec _ ht)]
      change (interp C.L (k + 1)).exec _ _ = (interp C.L (k + 1)).exec (r.slots[pos.toInt.toNat]?.elim _ _) _
      cases r.slots[pos.toInt.toNat]? <;> rfl
    cases he : r.slots[atPosition pos]? with
    | none =>
      refine goto hi (hu' c) (fun k n => ?_) (hend he)
      rw [hx, he]
      rfl
    | some e =>
      refine tries hi (hu' e.1) (fun k n => ?_) (hnext e.1 e.2 he)
      rw [hx, he]
      change (interp C.L (k + 1)).exec (setTopFrame _ >>= _) _ = _ ∨
        NoWay ((interp C.L (k + 1)).exec (setTopFrame _ >>= _) _)
      rw [exec_bind, bind_ok (exec_setTopFrame _ _ rfl), exec_bind]
      rcases pushVals_cases (interp C.L (k + 1)) (C.b.put st
        (withVars (controls f (.num i) (.num pos) e.1) bs :: fr) mk h n) [e.1, e.2] with ⟨-, hp⟩ | ⟨-, hp⟩
      · left
        exact bind_ok hp _
      · right
        exact ⟨_, _, bind_error hp _, by simp [GaveUp], hu' e.1⟩

theorem forInAdvance {i pos : Int64} {k : Value} {a : ℕ} (hi : C.b.code[p]? = some (.forInAdvance a))
    (hu : Unprotected (f :: fr))
    (hy : C.sem (tableAt (atPosition i)) (fun r h' => C.leads a st
      (withVars (controls f (.num i) (.num (nextPosition r.slots pos k)) k) bs :: fr) mk h') h) :
    C.leads p st (withVars (controls f (.num i) (.num pos) k) bs :: fr) mk h := by
  unfold sem Wp at hy
  cases ht : h.tbls[atPosition i]? with
  | none =>
    rw [tableAt_none ht] at hy
    exact hy.elim
  | some r =>
    rw [tableAt_some ht] at hy
    change C.leads a st _ mk h at hy
    refine goto hi (unprotected_top (g := withVars (controls f (.num i) (.num (nextPosition r.slots pos k)) k) bs)
      hu rfl) (fun m n => ?_) hy
    rw [execInstr, execForInAdvance, exec_bind, bind_ok (exec_topFrame _ _ rfl)]
    change (interp C.L (m + 1)).exec (tableRec (atPosition i) >>= _) _ = _
    rw [exec_bind, bind_ok (exec_tableRec _ ht)]
    unfold nextPosition
    cases he : r.slots[atPosition pos]? with
    | none =>
      have he' : r.slots[pos.toInt.toNat]? = none := he
      rw [he']
      rfl
    | some e =>
      have he' : r.slots[pos.toInt.toNat]? = some e := he
      have hc : (withVars (controls f (.num i) (.num pos) k) bs).ctrl2 = k := rfl
      rw [he']
      dsimp only
      rw [hc]
      split_ifs with hv
      · rw [exec_bind, bind_ok (exec_setTopFrame _ _ rfl)]
        rfl
      · rfl

end Loops

end Course

end Lua
end Rustrapper
