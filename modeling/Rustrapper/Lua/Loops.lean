/-
# Numeric `for` loops

`ForPrep` and `ForLoop` around a body that comes back to them. A run of the
loop (`ForRun`) records what its variable reads each time the body is entered.
The loop does what it says (`RunsBody`) when the values are those of the
progression (`Arith/Progression.lean`) that do not pass the limit, in order.
The counter is advanced by a wrapping addition before it is compared, so this
holds exactly when the value behind the last one fits in 64 bits
(`for_runs_body_iff`): otherwise the counter wraps to the other end and the
loop goes on.
-/
import Rustrapper.Arith.Progression
import Rustrapper.Lua.Steps

namespace Rustrapper
namespace Lua

open Arith.Progression

/-! ### Counters -/

theorem numPast_iff (step cur lim : Int64) :
    numPast step cur lim = true ↔ Past step.toInt lim.toInt cur.toInt := by
  unfold numPast Past
  have hs : step ≥ 0 ↔ 0 ≤ step.toInt := Int64.le_iff_toInt_le
  by_cases h : step ≥ 0
  · rw [if_pos h, if_pos (hs.mp h), decide_eq_true_eq]
    exact Int64.lt_iff_toInt_lt
  · rw [if_neg h, if_neg (fun h' => h (hs.mpr h')), decide_eq_true_eq]
    exact Int64.lt_iff_toInt_lt

/-- The integer fits in 64 bits. -/
def Fits64 (x : ℤ) : Prop := -2 ^ 63 ≤ x ∧ x < 2 ^ 63

instance (x : ℤ) : Decidable (Fits64 x) := by
  unfold Fits64
  infer_instance

theorem fits64_toInt (x : Int64) : Fits64 x.toInt := ⟨x.le_toInt, x.toInt_lt⟩

/-- Addition is that of the integers where the sum fits. -/
theorem toInt_add_of_fits {x y : Int64} (h : Fits64 (x.toInt + y.toInt)) :
    (x + y).toInt = x.toInt + y.toInt := by
  obtain ⟨h1, h2⟩ := h
  rw [Int64.toInt_add]
  apply Int.bmod_eq_of_le <;> norm_num <;> omega

/-! ### The loop variable -/

/-- A boxed variable has its cell. -/
def HasCell (s : Machine) (f : Frame) (var : StrRef) : Prop :=
  ∀ l, f.find var = some l → l.cell = NO_CELL ∨ l.cell < s.cells.length

theorem find?_updateFirst {α : Type} (p : α → Bool) (g : α → α) (hg : ∀ a, p (g a) = p a) (l : List α) :
    (updateFirst p g l).find? p = (l.find? p).map g := by
  induction l with
  | nil => rfl
  | cons a l ih =>
    unfold updateFirst
    by_cases h : p a
    · simp [h, hg]
    · simp [h, ih]

theorem find_update (f : Frame) (var : StrRef) (g : Local → Local) (hg : ∀ l, (g l).name = l.name) :
    (f.update var g).find var = (f.find var).map g := by
  apply find?_updateFirst
  intro l
  rw [hg]

theorem find_append {f : Frame} {var : StrRef} (h : f.find var = none) (v : Value) (cell : ℕ) :
    Frame.find { f with locals := f.locals ++ [⟨var, v, cell⟩] } var = some ⟨var, v, cell⟩ := by
  unfold Frame.find at h ⊢
  rw [List.find?_append, h]
  simp

/-- A name of the frame on top is that variable. -/
theorem lookup_top {s : Machine} {f : Frame} {fs : List Frame} (hs : s.frames = f :: fs) {var : StrRef}
    {l : Local} (hl : f.find var = some l) : s.lookup var = some (s.localValue l) := by
  unfold Machine.lookup
  rw [hs, Machine.findPlace, hl]

/-- The loop's frame is on top, and its control values are `c0`, `c1` and `c2`. -/
def Controls (c0 c1 c2 : Value) (var : StrRef) (s : Machine) : Prop :=
  ∃ f fs, s.frames = f :: fs ∧ f.ctrl0 = c0 ∧ f.ctrl1 = c1 ∧ f.ctrl2 = c2 ∧ HasCell s f var

/-- There was no room for the loop variable. -/
def NoRoom {α : Type} (r : EStateM.Result Stop LuaState α) : Prop :=
  ∃ m s, r = .error (.lua (.msg m)) s ∧ (m = "too many locals" ∨ m = "too many captured variables")

section Variable
variable (R : Rec) {s : LuaState} {var : StrRef} {c0 c1 c2 : Value}

/-- The variable of an uncaptured loop is written in the frame on top, or in its cell. -/
theorem setLocalTop_writes (h : Controls c0 c1 c2 var s.toMachine) (v : Value) :
    (∃ s', R.exec (setLocalTop var v) s = .ok () s' ∧ Controls c0 c1 c2 var s'.toMachine ∧
        s'.lookup var = some v) ∨
      NoRoom (R.exec (setLocalTop var v) s) := by
  obtain ⟨f, fs, hs, h0, h1, h2, hc⟩ := h
  unfold setLocalTop
  rw [exec_bind, exec_get, bind_apply, getMachine_apply]
  dsimp only
  rw [hs]
  dsimp only
  cases hf : f.find var with
  | none =>
    by_cases hl : f.locals.length < MAX_LOCALS
    · left
      have hnew := find_append hf v NO_CELL
      refine ⟨_, exec_declareLocal R s var v hs hl, ⟨_, fs, rfl, h0, h1, h2, ?_⟩, ?_⟩
      · intro l hl'
        rw [hnew] at hl'
        exact .inl (Option.some.inj hl' ▸ rfl)
      · rw [lookup_top rfl hnew]
        rfl
    · exact .inr ⟨_, _, exec_declareLocal_full R s var v hs hl, .inl rfl⟩
  | some l =>
    left
    by_cases hn : l.cell = NO_CELL
    · have hnew : (f.update var fun l => { l with value := v }).find var = some { l with value := v } := by
        rw [find_update f var (fun l => { l with value := v }) fun _ => rfl, hf]
        rfl
      refine ⟨{ s with frames := (f.update var fun l => { l with value := v }) :: fs }, ?_,
        ⟨_, fs, rfl, h0, h1, h2, ?_⟩, ?_⟩
      · simp [hn, bind_apply]
      · intro l' hl'
        rw [hnew] at hl'
        exact .inl (Option.some.inj hl' ▸ hn)
      · rw [lookup_top rfl hnew, Machine.localValue, if_pos hn]
    · have hlt : l.cell < s.cells.length := (hc l hf).resolve_left hn
      refine ⟨{ s with cells := s.cells.set l.cell v }, ?_, ⟨f, fs, hs, h0, h1, h2, ?_⟩, ?_⟩
      · simp [hn, bind_apply]
      · intro l' hl'
        rw [List.length_set]
        exact hc l' hl'
      · have hlook := lookup_top (s := { s.toMachine with cells := s.cells.set l.cell v }) hs hf
        rw [Machine.localValue, if_neg hn, Machine.cellValue, List.getElem?_set_self hlt] at hlook
        exact hlook

/-- The variable of a captured loop gets a new cell. -/
theorem setLocalTopCell_writes (h : Controls c0 c1 c2 var s.toMachine) (v : Value) :
    (∃ s', R.exec (setLocalTopCell var v) s = .ok () s' ∧ Controls c0 c1 c2 var s'.toMachine ∧
        s'.lookup var = some v) ∨
      NoRoom (R.exec (setLocalTopCell var v) s) := by
  obtain ⟨f, fs, hs, h0, h1, h2, -⟩ := h
  unfold setLocalTopCell
  rw [exec_bind, exec_get, bind_apply, getMachine_apply]
  dsimp only
  rw [hs]
  dsimp only
  by_cases hm : s.cells.length ≥ MAX_CELLS
  · right
    have hcell : R.exec (allocCell v) s = .error (.lua (.msg "too many captured variables")) s := by
      simp [allocCell, bind_apply, hm]
    rw [exec_bind, bind_error hcell]
    exact ⟨_, _, rfl, .inr rfl⟩
  · have hcell : R.exec (allocCell v) s = .ok s.cells.length { s with cells := s.cells ++ [v] } := by
      simp [allocCell, bind_apply, map_apply, hm]
    rw [exec_bind, bind_ok hcell]
    have hn : s.cells.length ≠ NO_CELL := by
      unfold MAX_CELLS at hm
      unfold NO_CELL
      omega
    have hvalue : ∀ w, Machine.localValue { s.toMachine with cells := s.cells ++ [v] }
        ⟨var, w, s.cells.length⟩ = v := by
      intro w
      rw [Machine.localValue, if_neg hn, Machine.cellValue]
      simp
    cases hf : f.find var with
    | none =>
      by_cases hl : f.locals.length ≥ MAX_LOCALS
      · right
        simp only [if_pos hl]
        exact ⟨_, _, rfl, .inl rfl⟩
      · left
        have hnew := find_append hf .nil s.cells.length
        simp only [if_neg hl]
        refine ⟨{ s with
          cells := s.cells ++ [v]
          frames := { f with locals := f.locals ++ [⟨var, .nil, s.cells.length⟩] } :: fs },
          by simp [bind_apply], ⟨_, fs, rfl, h0, h1, h2, ?_⟩, ?_⟩
        · intro l hl'
          rw [hnew] at hl'
          right
          rw [← Option.some.inj hl']
          simp
        · rw [lookup_top rfl hnew]
          exact congrArg some (hvalue .nil)
    | some l =>
      left
      have hnew : (f.update var fun l => { l with cell := s.cells.length }).find var =
          some { l with cell := s.cells.length } := by
        rw [find_update f var (fun l => { l with cell := s.cells.length }) fun _ => rfl, hf]
        rfl
      refine ⟨{ s with
        cells := s.cells ++ [v]
        frames := (f.update var fun l => { l with cell := s.cells.length }) :: fs },
        by simp [bind_apply], ⟨_, fs, rfl, h0, h1, h2, ?_⟩, ?_⟩
      · intro l' hl'
        rw [hnew] at hl'
        right
        rw [← Option.some.inj hl']
        simp
      · rw [lookup_top rfl hnew]
        exact congrArg some (hvalue l.value)

theorem setLoopVar_writes (h : Controls c0 c1 c2 var s.toMachine) (captured : Bool) (v : Value) :
    (∃ s', R.exec (setLoopVar captured var v) s = .ok () s' ∧ Controls c0 c1 c2 var s'.toMachine ∧
        s'.lookup var = some v) ∨
      NoRoom (R.exec (setLoopVar captured var v) s) := by
  cases captured with
  | true => exact setLocalTopCell_writes R h v
  | false => exact setLocalTop_writes R h v

end Variable

/-! ### The instructions -/

section Instructions
variable {R : Rec} {L : Lib} {s : LuaState} {captured : Bool} {body exit : ℕ} {var : StrRef}
  {start limit step : Int64}

/-- The loop goes into its body with `v` in its variable. -/
def Enters (body : ℕ) (c0 c1 c2 : Value) (var : StrRef) (r : EStateM.Result Stop LuaState Next) : Prop :=
  ∃ s, r = .ok (.goto body) s ∧ Controls c0 c1 c2 var s.toMachine ∧ s.lookup var = some c0

theorem enters_of_writes (h : Controls (.num start) (.num limit) (.num step) var s.toMachine) :
    Enters body (.num start) (.num limit) (.num step) var
        (R.exec (do setLoopVar captured var (.num start); pure (.goto body)) s) ∨
      NoRoom (R.exec (do setLoopVar captured var (.num start); pure (Next.goto body)) s) := by
  rw [exec_bind]
  rcases setLoopVar_writes R h captured (.num start) with ⟨s', hw, hc, hl⟩ | ⟨m, s', hw, hm⟩
  · left
    rw [bind_ok hw]
    exact ⟨s', rfl, hc, hl⟩
  · right
    rw [bind_error hw]
    exact ⟨m, s', rfl, hm⟩

theorem exec_forPrep {rest : List Value} {f : Frame} {fs : List Frame}
    (hv : s.vstack = .num step :: .num limit :: .num start :: rest) (hs : s.frames = f :: fs) :
    R.exec (execForPrep captured body exit var) s =
      R.exec (if numPast step start limit then pure (.goto exit)
        else do setLoopVar captured var (.num start); pure (.goto body))
        { s with
          vstack := rest
          frames := { f with ctrl0 := .num start, ctrl1 := .num limit, ctrl2 := .num step } :: fs } := by
  rw [execForPrep, exec_bind, bind_ok (exec_pop R s hv), exec_bind, bind_ok (exec_pop R _ rfl),
    exec_bind, bind_ok (exec_pop R _ rfl)]
  dsimp only
  have hf : ({ s with vstack := rest } : LuaState).frames = f :: fs := hs
  rw [exec_bind, bind_ok (exec_topFrame R _ hf), exec_bind, bind_ok (exec_setTopFrame R _ hf), pure_bind]

/-- `ForPrep` skips the loop, or enters it with the start. -/
theorem forPrep_cases {rest : List Value} {f : Frame} {fs : List Frame}
    (hv : s.vstack = .num step :: .num limit :: .num start :: rest) (hs : s.frames = f :: fs)
    (hc : HasCell s.toMachine f var) :
    (Past step.toInt limit.toInt start.toInt ∧
        ∃ s', R.exec (execInstr L body (.forPrep captured exit var)) s = .ok (.goto exit) s') ∨
      (¬ Past step.toInt limit.toInt start.toInt ∧
        (Enters body (.num start) (.num limit) (.num step) var
            (R.exec (execInstr L body (.forPrep captured exit var)) s) ∨
          NoRoom (R.exec (execInstr L body (.forPrep captured exit var)) s))) := by
  rw [execInstr, exec_forPrep hv hs]
  by_cases hp : Past step.toInt limit.toInt start.toInt
  · rw [if_pos ((numPast_iff step start limit).mpr hp)]
    exact .inl ⟨hp, _, rfl⟩
  · rw [if_neg (fun h => hp ((numPast_iff step start limit).mp h))]
    exact .inr ⟨hp, enters_of_writes ⟨_, fs, rfl, rfl, rfl, rfl, hc⟩⟩

/-- `ForLoop` leaves the loop when the next counter passes the limit, and enters the body with it
otherwise. -/
theorem forLoop_cases {cur : Int64} (h : Controls (.num cur) (.num limit) (.num step) var s.toMachine) :
    (Past step.toInt limit.toInt (cur + step).toInt ∧
        ∃ s', R.exec (execInstr L exit (.forLoop captured body var)) s = .ok (.goto exit) s') ∨
      (¬ Past step.toInt limit.toInt (cur + step).toInt ∧
        (Enters body (.num (cur + step)) (.num limit) (.num step) var
            (R.exec (execInstr L exit (.forLoop captured body var)) s) ∨
          NoRoom (R.exec (execInstr L exit (.forLoop captured body var)) s))) := by
  obtain ⟨f, fs, hs, h0, h1, h2, hc⟩ := h
  have hnext : forNext f =
      some (if numPast step (cur + step) limit then none else some (.num (cur + step))) := by
    rw [forNext, h0, h1, h2]
  rw [execInstr, execForLoop, exec_bind, bind_ok (exec_topFrame R _ hs), hnext]
  by_cases hp : Past step.toInt limit.toInt (cur + step).toInt
  · rw [if_pos ((numPast_iff step _ limit).mpr hp)]
    exact .inl ⟨hp, _, rfl⟩
  · rw [if_neg (fun h => hp ((numPast_iff step _ limit).mp h))]
    right
    refine ⟨hp, ?_⟩
    dsimp only
    rw [exec_bind, bind_ok (exec_setTopFrame R _ hs)]
    exact enters_of_writes ⟨_, fs, rfl, rfl, h1, h2, hc⟩

end Instructions

/-! ### Runs of a loop -/

/-- The body went from `s` to the `ForLoop` in `s'` without leaving the loop: the loop's frame is on
top again. Its control values are written by the loop's own instructions only. -/
def Pass (var : StrRef) (s s' : LuaState) : Prop :=
  ∃ f fs f' fs', s.frames = f :: fs ∧ s'.frames = f' :: fs' ∧ f'.ctrl0 = f.ctrl0 ∧
    f'.ctrl1 = f.ctrl1 ∧ f'.ctrl2 = f.ctrl2 ∧ HasCell s'.toMachine f' var

theorem Pass.controls {var : StrRef} {s s' : LuaState} {c0 c1 c2 : Value} (h : Pass var s s')
    (hs : Controls c0 c1 c2 var s.toMachine) : Controls c0 c1 c2 var s'.toMachine := by
  obtain ⟨f, fs, f', fs', hf, hf', e0, e1, e2, hc⟩ := h
  obtain ⟨g, gs, hg, h0, h1, h2, -⟩ := hs
  obtain ⟨rfl, rfl⟩ := List.cons.inj (hg.symm.trans hf)
  exact ⟨f', fs', hf', e0.trans h0, e1.trans h1, e2.trans h2, hc⟩

/-- A numeric `for` from the `ForPrep` in `s` on: what its variable read each time the body was
entered, where the loop's last instruction went, and the state there. The body stands between the two
instructions: `body` is behind `ForPrep` and `exit` behind `ForLoop`. -/
inductive ForRun (R : Rec) (L : Lib) (captured : Bool) (body exit : ℕ) (var : StrRef) (s : LuaState) :
    List Value → ℕ → LuaState → Prop
  | skip {t : LuaState}
      (h : R.exec (execInstr L body (.forPrep captured exit var)) s = .ok (.goto exit) t) :
      ForRun R L captured body exit var s [] exit t
  | enter {t : LuaState} {v : Value}
      (h : R.exec (execInstr L body (.forPrep captured exit var)) s = .ok (.goto body) t)
      (hv : t.lookup var = some v) : ForRun R L captured body exit var s [v] body t
  | again {vs : List Value} {t u w : LuaState} {v : Value}
      (hr : ForRun R L captured body exit var s vs body t) (hp : Pass var t u)
      (h : R.exec (execInstr L exit (.forLoop captured body var)) u = .ok (.goto body) w)
      (hv : w.lookup var = some v) : ForRun R L captured body exit var s (vs ++ [v]) body w
  | leave {vs : List Value} {t u w : LuaState}
      (hr : ForRun R L captured body exit var s vs body t) (hp : Pass var t u)
      (h : R.exec (execInstr L exit (.forLoop captured body var)) u = .ok (.goto exit) w) :
      ForRun R L captured body exit var s vs exit w

/-- The instruction goes into the body, leaves the loop, or has no room for the loop variable. -/
def LoopsOn (body exit : ℕ) (r : EStateM.Result Stop LuaState Next) : Prop :=
  (∃ t, r = .ok (.goto body) t) ∨ (∃ t, r = .ok (.goto exit) t) ∨ NoRoom r

/-- The values of the progression, in order and inside the limit. -/
def InOrder (start limit step : Int64) (vs : List Value) : Prop :=
  ∀ (i : ℕ) (v : Value), vs[i]? = some v → ∃ x : Int64, v = .num x ∧
    x.toInt = nth start.toInt step.toInt i ∧ ¬ Past step.toInt limit.toInt x.toInt

/-- **A loop does what it says**: in every run the body is entered with the values of the
progression, each once and in order, and at most `2 ^ 64` of them; a loop that is left had them all;
and until then each of its instructions goes on. -/
def RunsBody (start limit step : Int64) : Prop :=
  ∀ (R : Rec) (L : Lib) (captured : Bool) (body exit : ℕ) (var : StrRef) (s : LuaState)
    (rest : List Value) (f : Frame) (fs : List Frame), body ≠ exit →
    s.vstack = .num step :: .num limit :: .num start :: rest → s.frames = f :: fs →
    HasCell s.toMachine f var →
    LoopsOn body exit (R.exec (execInstr L body (.forPrep captured exit var)) s) ∧
      ∀ vs ip t, ForRun R L captured body exit var s vs ip t →
        InOrder start limit step vs ∧ vs.length ≤ 2 ^ 64 ∧
        (ip = exit → Past step.toInt limit.toInt (nth start.toInt step.toInt vs.length)) ∧
        (ip = body → ∀ u, Pass var t u →
          LoopsOn body exit (R.exec (execInstr L exit (.forLoop captured body var)) u))

/-- The start passes the limit, or the value behind the last one fits in 64 bits. -/
def NoWrap (start limit step : Int64) : Prop :=
  Past step.toInt limit.toInt start.toInt ∨
    Fits64 (last start.toInt limit.toInt step.toInt + step.toInt)

instance (start limit step : Int64) : Decidable (NoWrap start limit step) := by
  unfold NoWrap
  infer_instance

section Runs
variable {R : Rec} {L : Lib} {captured : Bool} {body exit : ℕ} {var : StrRef} {s : LuaState}
  {start limit step : Int64} {rest : List Value} {f : Frame} {fs : List Frame}

theorem Enters.loopsOn {c0 c1 c2 : Value} {r : EStateM.Result Stop LuaState Next}
    (h : Enters body c0 c1 c2 var r ∨ NoRoom r) : LoopsOn body exit r := by
  rcases h with ⟨t, he, -⟩ | h
  · exact .inl ⟨t, he⟩
  · exact .inr (.inr h)

/-- The next value of the progression fits, while the current one does not pass the limit. -/
theorem NoWrap.fits (h : NoWrap start limit step) (hstep : step.toInt ≠ 0)
    (hstart : ¬ Past step.toInt limit.toInt start.toInt) {i : ℕ}
    (hi : i ≤ steps start.toInt limit.toInt step.toInt) :
    Fits64 (nth start.toInt step.toInt i + step.toInt) := by
  have hlast := h.resolve_left hstart
  have hfirst := fits64_toInt start
  rcases Nat.lt_or_eq_of_le hi with hlt | rfl
  · -- the next value is one of the progression, between two that fit
    have hnext : i + 1 ≤ steps start.toInt limit.toInt step.toInt := hlt
    have hin := not_past_last hstep hstart
    have hlim := fits64_toInt limit
    rw [← nth_succ]
    unfold Fits64 at hfirst hlim ⊢
    rcases le_or_gt 0 step.toInt with hs | hs
    · obtain ⟨h1, h2⟩ := nth_between_of_nonneg hs hnext
      rw [past_of_nonneg hs] at hin
      omega
    · obtain ⟨h1, h2⟩ := nth_between_of_neg hs hnext
      rw [past_of_neg hs] at hin
      omega
  · exact hlast

/-- What holds when the body is entered: the counter is the last value of the progression so far. -/
def AtBody (start limit step : Int64) (var : StrRef) (vs : List Value) (t : LuaState) : Prop :=
  ∃ (n : ℕ) (x : Int64), vs.length = n + 1 ∧ n ≤ steps start.toInt limit.toInt step.toInt ∧
    x.toInt = nth start.toInt step.toInt n ∧
    Controls (.num x) (.num limit) (.num step) var t.toMachine

/-- One more turn of the loop, from the body: what `ForLoop` does behind it. -/
theorem AtBody.next (h : NoWrap start limit step) (hstep : step.toInt ≠ 0)
    (hstart : ¬ Past step.toInt limit.toInt start.toInt) {vs : List Value} {t u : LuaState}
    (ht : AtBody start limit step var vs t) (hp : Pass var t u) :
    ∃ x : Int64, x.toInt = nth start.toInt step.toInt vs.length ∧
      ((Past step.toInt limit.toInt x.toInt ∧
          ∃ w, R.exec (execInstr L exit (.forLoop captured body var)) u = .ok (.goto exit) w) ∨
        (¬ Past step.toInt limit.toInt x.toInt ∧
          (Enters body (.num x) (.num limit) (.num step) var
              (R.exec (execInstr L exit (.forLoop captured body var)) u) ∨
            NoRoom (R.exec (execInstr L exit (.forLoop captured body var)) u)))) := by
  obtain ⟨n, x, hlen, hn, hx, hc⟩ := ht
  have hfit := h.fits hstep hstart hn
  rw [← hx] at hfit
  refine ⟨x + step, ?_, forLoop_cases (hp.controls hc)⟩
  rw [toInt_add_of_fits hfit, hx, hlen, nth_succ]

theorem inOrder_append {vs : List Value} {x : Int64} (h : InOrder start limit step vs)
    (hx : x.toInt = nth start.toInt step.toInt vs.length) (hp : ¬ Past step.toInt limit.toInt x.toInt) :
    InOrder start limit step (vs ++ [.num x]) := by
  intro i v hv
  by_cases hi : i < vs.length
  · rw [List.getElem?_append_left hi] at hv
    exact h i v hv
  · obtain ⟨hlt, -⟩ := List.getElem?_eq_some_iff.mp hv
    have he : i = vs.length := by
      rw [List.length_append, List.length_singleton] at hlt
      omega
    subst he
    rw [List.getElem?_append_right (le_refl _), Nat.sub_self] at hv
    exact ⟨x, (Option.some.inj hv).symm, hx, hp⟩

theorem ok_unique {α : Type} {r : EStateM.Result Stop LuaState α} {a b : α} {t u : LuaState}
    (h : r = .ok a t) (h' : r = .ok b u) : a = b ∧ t = u := by
  rw [h] at h'
  cases h'
  exact ⟨rfl, rfl⟩

/-- An instruction that may go into the body with `c0` and did so with `v`: they are the same. -/
theorem Enters.of_ok {c0 c1 c2 v : Value} {r : EStateM.Result Stop LuaState Next} {w : LuaState}
    (h : Enters body c0 c1 c2 var r ∨ NoRoom r) (hr : r = .ok (.goto body) w) (hv : w.lookup var = some v) :
    v = c0 ∧ Controls c0 c1 c2 var w.toMachine := by
  rcases h with ⟨t, ht, hc, hl⟩ | ⟨m, t, ht, -⟩
  · obtain ⟨-, rfl⟩ := ok_unique ht hr
    exact ⟨Option.some.inj (hv.symm.trans hl), hc⟩
  · rw [hr] at ht
    cases ht

/-- What a run of the loop keeps: the values so far are in order; at the body the counter is the last
of them, and behind the loop the next value passes the limit. -/
theorem ForRun.keeps (h : NoWrap start limit step) (hstep : step.toInt ≠ 0) (hne : body ≠ exit)
    (hv : s.vstack = .num step :: .num limit :: .num start :: rest) (hs : s.frames = f :: fs)
    (hc : HasCell s.toMachine f var) {vs : List Value} {ip : ℕ} {t : LuaState}
    (hr : ForRun R L captured body exit var s vs ip t) :
    InOrder start limit step vs ∧
      (ip = body → ¬ Past step.toInt limit.toInt start.toInt ∧ AtBody start limit step var vs t) ∧
      (ip = exit → Past step.toInt limit.toInt (nth start.toInt step.toInt vs.length)) := by
  have hprep := @forPrep_cases R L s captured body exit var start limit step rest f fs hv hs hc
  induction hr with
  | skip hrun =>
    refine ⟨by simp [InOrder], fun he => absurd he.symm hne, fun _ => ?_⟩
    rcases hprep with ⟨hp, -⟩ | ⟨-, ⟨w, hw, -⟩ | ⟨m, w, hw, -⟩⟩
    · simpa using hp
    · exact absurd (Next.goto.inj (ok_unique hw hrun).1) hne
    · rw [hrun] at hw
      cases hw
  | enter hrun hl =>
    rcases hprep with ⟨-, w, hw⟩ | ⟨hp, henter⟩
    · exact absurd (Next.goto.inj (ok_unique hw hrun).1).symm hne
    · obtain ⟨rfl, hctrl⟩ := Enters.of_ok henter hrun hl
      have hin : InOrder start limit step ([] ++ [.num start]) :=
        inOrder_append (by simp [InOrder]) (by simp) hp
      exact ⟨hin, fun _ => ⟨hp, 0, start, rfl, Nat.zero_le _, by simp, hctrl⟩, fun he => absurd he hne⟩
  | again _ hpass hrun hl ih =>
    obtain ⟨hin, hbody, -⟩ := ih
    obtain ⟨hp, hat⟩ := hbody rfl
    obtain ⟨x, hx, ⟨-, w, hw⟩ | ⟨hpx, henter⟩⟩ :=
      @AtBody.next R L captured body exit _ _ _ _ h hstep hp _ _ _ hat hpass
    · exact absurd (Next.goto.inj (ok_unique hw hrun).1).symm hne
    · obtain ⟨rfl, hctrl⟩ := Enters.of_ok henter hrun hl
      refine ⟨inOrder_append hin hx hpx, fun _ => ⟨hp, _, x, by simp, ?_, hx, hctrl⟩,
        fun he => absurd he hne⟩
      rw [hx] at hpx
      exact (not_past_iff hstep hp _).mp hpx
  | leave _ hpass hrun ih =>
    obtain ⟨hin, hbody, -⟩ := ih
    obtain ⟨hp, hat⟩ := hbody rfl
    refine ⟨hin, fun he => absurd he.symm hne, fun _ => ?_⟩
    obtain ⟨x, hx, ⟨hpx, -⟩ | ⟨-, ⟨w, hw, -⟩ | ⟨m, w, hw, -⟩⟩⟩ :=
      @AtBody.next R L captured body exit _ _ _ _ h hstep hp _ _ _ hat hpass
    · rw [← hx]
      exact hpx
    · exact absurd (Next.goto.inj (ok_unique hw hrun).1) hne
    · rw [hrun] at hw
      cases hw

/-- The values of a progression fit in 64 bits, so there are not more of them. -/
theorem InOrder.length_le {vs : List Value} (h : InOrder start limit step vs) (hstep : step.toInt ≠ 0) :
    vs.length ≤ 2 ^ 64 := by
  rcases Nat.eq_zero_or_pos vs.length with h0 | hpos
  · omega
  · have hlt : vs.length - 1 < vs.length := Nat.sub_lt hpos one_pos
    obtain ⟨x, -, hx, -⟩ := h _ _ (List.getElem?_eq_getElem hlt)
    have h1 := fits64_toInt start
    have h2 := fits64_toInt x
    rw [hx] at h2
    unfold Fits64 nth at *
    have hn : ((vs.length - 1 : ℕ) : ℤ) < 2 ^ 64 := by
      rcases lt_or_gt_of_ne hstep with hs | hs
      · nlinarith
      · nlinarith
    have hn : vs.length - 1 < 2 ^ 64 := by exact_mod_cast hn
    omega

theorem runsBody_of_noWrap (h : NoWrap start limit step) (hstep : step.toInt ≠ 0) :
    RunsBody start limit step := by
  intro R L captured body exit var s rest f fs hne hv hs hc
  have hprep := @forPrep_cases R L s captured body exit var start limit step rest f fs hv hs hc
  constructor
  · rcases hprep with ⟨-, t, ht⟩ | ⟨-, henter⟩
    · exact .inr (.inl ⟨t, ht⟩)
    · exact Enters.loopsOn henter
  · intro vs ip t hr
    obtain ⟨hin, hbody, hexit⟩ := hr.keeps h hstep hne hv hs hc
    refine ⟨hin, hin.length_le hstep, hexit, fun he u hpass => ?_⟩
    obtain ⟨hp, hat⟩ := hbody he
    obtain ⟨x, -, ⟨-, w, hw⟩ | ⟨-, henter⟩⟩ :=
      @AtBody.next R L captured body exit _ _ _ _ h hstep hp _ _ _ hat hpass
    · exact .inr (.inl ⟨w, hw⟩)
    · exact Enters.loopsOn henter

/-! ### A loop that wraps -/

/-- The frame of a loop at a counter. -/
def flatFrame (limit step cur : Int64) : Frame where
  locals := [⟨0, .num cur, NO_CELL⟩]
  ctrl0 := .num cur
  ctrl1 := .num limit
  ctrl2 := .num step

/-- A loop with an empty body, at a counter. -/
def flat (limit step cur : Int64) : LuaState where
  frames := [flatFrame limit step cur]

/-- The same loop before `ForPrep`. -/
def flatStart (start limit step : Int64) : LuaState where
  vstack := [.num step, .num limit, .num start]
  frames := [{ locals := [⟨0, .nil, NO_CELL⟩] }]

theorem flatStart_prep (hp : ¬ Past step.toInt limit.toInt start.toInt) :
    Rec.stuck.exec (execInstr bareLib 1 (.forPrep false 0 0)) (flatStart start limit step) =
      .ok (.goto 1) (flat limit step start) := by
  rw [execInstr, exec_forPrep rfl rfl, if_neg (fun h => hp ((numPast_iff step start limit).mp h))]
  rfl

theorem flat_loop {cur : Int64} (hp : ¬ Past step.toInt limit.toInt (cur + step).toInt) :
    Rec.stuck.exec (execInstr bareLib 0 (.forLoop false 1 0)) (flat limit step cur) =
      .ok (.goto 1) (flat limit step (cur + step)) := by
  have hn : numPast step (cur + step) limit = false :=
    Bool.eq_false_iff.mpr fun h => hp ((numPast_iff step _ limit).mp h)
  have hnext : forNext (flatFrame limit step cur) = some (some (.num (cur + step))) := by
    have he : forNext (flatFrame limit step cur) =
      some (if numPast step (cur + step) limit then none else some (.num (cur + step))) := rfl
    rw [he, hn]
    rfl
  rw [execInstr, execForLoop, exec_bind, bind_ok (exec_topFrame Rec.stuck _ rfl), hnext]
  rfl

theorem flat_lookup (limit step cur : Int64) : (flat limit step cur).lookup 0 = some (.num cur) := by
  have hl : (flatFrame limit step cur).find 0 = some ⟨0, .num cur, NO_CELL⟩ := rfl
  rw [lookup_top (s := (flat limit step cur).toMachine) rfl hl, Machine.localValue, if_pos rfl]

theorem flat_pass (limit step cur : Int64) : Pass 0 (flat limit step cur) (flat limit step cur) := by
  refine ⟨_, [], _, [], rfl, rfl, rfl, rfl, rfl, ?_⟩
  intro l hl
  cases hl
  exact .inl rfl

/-- The empty loop runs through all values that do not pass the limit. -/
theorem flat_runs (hstep : step.toInt ≠ 0) (hp : ¬ Past step.toInt limit.toInt start.toInt) :
    ∀ n ≤ steps start.toInt limit.toInt step.toInt, ∃ (x : Int64) (vs : List Value),
      x.toInt = nth start.toInt step.toInt n ∧ vs.length = n + 1 ∧
        ForRun Rec.stuck bareLib false 1 0 0 (flatStart start limit step) vs 1 (flat limit step x)
  | 0, _ => ⟨start, [.num start], by simp, rfl, .enter (flatStart_prep hp) (flat_lookup limit step start)⟩
  | n + 1, hn => by
    obtain ⟨x, vs, hx, hlen, hr⟩ := flat_runs hstep hp n (Nat.le_of_succ_le hn)
    have hin := (not_past_iff hstep hp (n + 1)).mpr hn
    have hfit : Fits64 (x.toInt + step.toInt) := by
      have h1 := fits64_toInt start
      have h2 := fits64_toInt limit
      rw [hx, ← nth_succ]
      unfold Fits64 at *
      rcases le_or_gt 0 step.toInt with hs | hs
      · obtain ⟨h3, -⟩ := nth_between_of_nonneg hs hn
        rw [past_of_nonneg hs] at hin
        omega
      · obtain ⟨-, h3⟩ := nth_between_of_neg hs hn
        rw [past_of_neg hs] at hin
        omega
    have hnext : (x + step).toInt = nth start.toInt step.toInt (n + 1) := by
      rw [toInt_add_of_fits hfit, hx, nth_succ]
    rw [← hnext] at hin
    exact ⟨x + step, vs ++ [.num (x + step)], hnext, by simp [hlen],
      .again hr (flat_pass limit step x) (flat_loop hin) (flat_lookup limit step (x + step))⟩

/-- A sum that does not fit wraps to the other end, on the near side of the limit. -/
theorem not_past_of_wrap {x : Int64} (hx : ¬ Past step.toInt limit.toInt x.toInt)
    (hfit : ¬ Fits64 (x.toInt + step.toInt)) : ¬ Past step.toInt limit.toInt (x + step).toInt := by
  have h1 := fits64_toInt x
  have h2 := fits64_toInt step
  have hsum : (x + step).toInt = (x.toInt + step.toInt).bmod (2 ^ 64) := Int64.toInt_add x step
  rw [Int.bmod_def] at hsum
  unfold Fits64 at *
  norm_num at *
  rcases le_or_gt 0 step.toInt with hs | hs
  · rw [past_of_nonneg hs] at hx ⊢
    split_ifs at hsum <;> omega
  · rw [past_of_neg hs] at hx ⊢
    split_ifs at hsum <;> omega

theorem noWrap_of_runsBody (h : RunsBody start limit step) (hstep : step.toInt ≠ 0) :
    NoWrap start limit step := by
  by_contra hn
  obtain ⟨hp, hfit⟩ := not_or.mp hn
  obtain ⟨x, vs, hx, hlen, hr⟩ := flat_runs hstep hp _ le_rfl
  have hlast : x.toInt = last start.toInt limit.toInt step.toInt := hx
  rw [← hlast] at hfit
  have hin : ¬ Past step.toInt limit.toInt x.toInt := by
    rw [hlast]
    exact not_past_last hstep hp
  have hwrap := not_past_of_wrap hin hfit
  have hr' := hr.again (flat_pass limit step x) (flat_loop hwrap) (flat_lookup limit step (x + step))
  have hcell : HasCell (flatStart start limit step).toMachine { locals := [⟨0, .nil, NO_CELL⟩] } 0 := by
    intro l hl
    cases hl
    exact .inl rfl
  obtain ⟨-, hruns⟩ := h Rec.stuck bareLib false 1 0 0 (flatStart start limit step) [] _ [] one_ne_zero rfl
    rfl hcell
  obtain ⟨hord, -⟩ := hruns _ _ _ hr'
  obtain ⟨y, hy, hyn, -⟩ := hord vs.length (.num (x + step)) (by simp)
  obtain rfl := Value.num.inj hy
  rw [hlen, nth_succ, ← hx] at hyn
  exact hfit (hyn ▸ fits64_toInt (x + step))

end Runs

end Lua
end Rustrapper
