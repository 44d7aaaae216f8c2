/-
# Where the machine gets to

`Leads L floor Q ip s`: with enough fuel, `run_at` from the address `ip` and the
state `s` ends as `Q` says. An instruction passes this on to the address it goes
to (`leads_of_goto`), so that a proof about code follows it forwards.

The machine may give up at any instruction: its stacks are bounded and its steps
are counted (`GaveUp`). `Q` has to allow for that (`Tolerant`).
-/
import Rustrapper.Lua.OnHeap
import Rustrapper.Lua.Unwind

namespace Rustrapper
namespace Lua

/-- How a run of the machine ends. -/
abbrev Ending := EStateM.Result Stop LuaState ExecResult

/-- From `ip` and `s`, with enough fuel, the machine ends as `Q` says. -/
def Leads (L : Lib) (floor : ℕ) (Q : Ending → Prop) (ip : ℕ) (s : LuaState) : Prop :=
  ∃ m, ∀ k, m ≤ k → Q ((interp L k).runAt ip floor s)

/-- The machine had no room, or no steps left. -/
def GaveUp : Stop → Prop
  | .lua (.msg m) =>
    m ∈ ["stack overflow", "call stack overflow", "too many locals", "call too complex", "step limit exceeded"]
  | .fault .stack => True
  | .buffer => True
  | _ => False

/-- The ending may be that the machine gave up. -/
def Tolerant (Q : Ending → Prop) : Prop := ∀ e t, GaveUp e → Q (.error e t)

/-- No frame catches errors. -/
def Unprotected (fs : List Frame) : Prop := ∀ f ∈ fs, f.isProtected = false

section Turns
variable {L : Lib} {floor ip ip' : ℕ} {Q : Ending → Prop} {s t : LuaState} {i : Instr}

/-- Where no frame is protected, an error goes up to the caller. -/
theorem unwind_none (R : Rec) (hu : Unprotected s.frames) (e : LuaError) : ∀ n ≤ s.fsp,
    R.exec (unwindProtected floor n e) s = .ok .propagate s
  | 0, _ => rfl
  | n + 1, hn => by
    rw [unwindProtected, exec_ite]
    by_cases hf : n < floor
    · rw [if_pos hf]
      rfl
    · have hlt : n < s.frames.length := hn
      obtain ⟨f, hg, hm⟩ : ∃ f, at? s.frames n = some f ∧ f ∈ s.frames := by
        refine ⟨s.frames.get ⟨s.frames.length - 1 - n, by omega⟩, ?_, List.get_mem ..⟩
        unfold at?
        rw [if_pos hlt]
        exact List.getElem?_eq_getElem _
      rw [if_neg hf]
      simp only [exec_bind, exec_get, bind_apply, getMachine_apply, hg, exec_orFault, hu f hm, Bool.not_false,
        if_true]
      exact unwind_none R hu e n (by omega)

/-- A turn whose instruction does not fail. -/
theorem turn_ok (R : Rec) {n : Next} (hi : s.code[ip]? = some i)
    (h : R.exec (execStep L (ip + 1) i) s = .ok n t) : R.exec (turn L ip floor) s = .ok n t := by
  have hc : catchLua (R.exec (execStep L (ip + 1) i)) s = .ok (.ok n) t := by rw [catchLua, h]
  rw [turn, exec_bind, exec_get, bind_ok (getMachine_apply s), hi]
  change (R.exec (attempt (execStep L (ip + 1) i) >>= _)) s = _
  rw [exec_bind, exec_attempt, bind_ok hc]
  rfl

/-- A turn whose instruction stops, where no frame catches it. -/
theorem turn_stops (R : Rec) {e : Stop} (hu : Unprotected t.frames) (hi : s.code[ip]? = some i)
    (h : R.exec (execStep L (ip + 1) i) s = .error e t) : R.exec (turn L ip floor) s = .error e t := by
  by_cases hl : ∃ l, e = .lua l
  · obtain ⟨l, rfl⟩ := hl
    rw [turn_error R L hi h, exec_bind, bind_ok (unwind_none R hu l _ le_rfl)]
    rfl
  · have hc : catchLua (R.exec (execStep L (ip + 1) i)) s = .error e t := by
      rw [catchLua, h]
      cases e with
      | lua l => exact absurd ⟨l, rfl⟩ hl
      | _ => rfl
    rw [turn, exec_bind, exec_get, bind_ok (getMachine_apply s), hi]
    change (R.exec (attempt (execStep L (ip + 1) i) >>= _)) s = _
    rw [exec_bind, exec_attempt, bind_error hc]

theorem runAt_of_stop (R : Rec) {e : Stop} (h : R.exec (turn L ip floor) s = .error e t) :
    (R.next L).runAt ip floor s = .error e t := by
  change R.exec (runAt L ip floor) s = _
  rw [runAt, exec_bind]
  exact bind_error h _

/-- The instruction had no room. -/
def NoWay (r : EStateM.Result Stop LuaState Next) : Prop :=
  ∃ e u, r = .error e u ∧ GaveUp e ∧ Unprotected u.frames

theorem wanted_of_noWay {k : ℕ} (hQ : Tolerant Q) (hi : s.code[ip]? = some i)
    (h : NoWay ((interp L (k + 1)).exec (execInstr L (ip + 1) i) s)) : Q ((interp L (k + 2)).runAt ip floor s) := by
  obtain ⟨e, u, h, hg, hu⟩ := h
  have hstep : (interp L (k + 1)).exec (execStep L (ip + 1) i) s = .error e u := by
    rw [execStep, exec_bind, bind_error h]
  have hrun : (interp L (k + 2)).runAt ip floor s = .error e u := runAt_of_stop _ (turn_stops _ hu hi hstep)
  rw [hrun]
  exact hQ e u hg

/-- An instruction that ends the run, or gives up. -/
theorem leads_of_halt {r : ExecResult} (hQ : Tolerant Q) (hi : s.code[ip]? = some i)
    (h : ∀ k, (interp L (k + 1)).exec (execInstr L (ip + 1) i) s = .ok (.halt r) t ∨
      NoWay ((interp L (k + 1)).exec (execInstr L (ip + 1) i) s)) (hq : Q (.ok r t)) :
    Leads L floor Q ip s := by
  refine ⟨2, fun k hk => ?_⟩
  obtain ⟨k, rfl⟩ : ∃ k', k = k' + 2 := ⟨k - 2, by omega⟩
  rcases h k with h | h
  · have hstep : (interp L (k + 1)).exec (execStep L (ip + 1) i) s = .ok (.halt r) t := by
      rw [execStep, exec_bind, bind_ok h]
      rfl
    have hrun : (interp L (k + 2)).runAt ip floor s = .ok r t := by
      change (interp L (k + 1)).exec (runAt L ip floor) s = _
      rw [runAt, exec_bind, bind_ok (turn_ok _ hi hstep)]
      rfl
    rw [hrun]
    exact hq
  · exact wanted_of_noWay hQ hi h

/-- An instruction that stops without a result, or gives up. -/
theorem leads_of_error {e : Stop} (hQ : Tolerant Q) (hu : Unprotected t.frames) (hi : s.code[ip]? = some i)
    (h : ∀ k, (interp L (k + 1)).exec (execInstr L (ip + 1) i) s = .error e t ∨
      NoWay ((interp L (k + 1)).exec (execInstr L (ip + 1) i) s)) (hq : Q (.error e t)) :
    Leads L floor Q ip s := by
  refine ⟨2, fun k hk => ?_⟩
  obtain ⟨k, rfl⟩ : ∃ k', k = k' + 2 := ⟨k - 2, by omega⟩
  rcases h k with h | h
  · have hstep : (interp L (k + 1)).exec (execStep L (ip + 1) i) s = .error e t := by
      rw [execStep, exec_bind, bind_error h]
    have hrun : (interp L (k + 2)).runAt ip floor s = .error e t :=
      runAt_of_stop _ (turn_stops _ hu hi hstep)
    rw [hrun]
    exact hq
  · exact wanted_of_noWay hQ hi h

/-- An instruction that goes on, or gives up. -/
theorem leads_of_goto (hQ : Tolerant Q) (hu : Unprotected t.frames) (hi : s.code[ip]? = some i)
    (h : ∀ k, (interp L (k + 1)).exec (execInstr L (ip + 1) i) s = .ok (.goto ip') t ∨
      NoWay ((interp L (k + 1)).exec (execInstr L (ip + 1) i) s))
    (hnext : Leads L floor Q ip' { t with steps := t.steps + 1 }) : Leads L floor Q ip s := by
  obtain ⟨m, hm⟩ := hnext
  refine ⟨m + 2, fun k hk => ?_⟩
  obtain ⟨k, rfl⟩ : ∃ k', k = k' + 2 := ⟨k - 2, by omega⟩
  rcases h k with h | h
  · have hstep : (interp L (k + 1)).exec (execStep L (ip + 1) i) s =
        if t.steps + 1 > MAX_STEPS then .error (.lua (.msg "step limit exceeded")) { t with steps := t.steps + 1 }
        else .ok (.goto ip') { t with steps := t.steps + 1 } := by
      rw [execStep, exec_bind, bind_ok h]
      simp only [countStep, exec_bind, exec_modify, exec_get, bind_apply, getMachine_apply, setMachine_apply,
        exec_ite]
      split_ifs <;> rfl
    by_cases hmax : t.steps + 1 > MAX_STEPS
    · rw [if_pos hmax] at hstep
      have hrun : (interp L (k + 2)).runAt ip floor s =
          .error (.lua (.msg "step limit exceeded")) { t with steps := t.steps + 1 } :=
        runAt_of_stop _ (turn_stops _ hu hi hstep)
      rw [hrun]
      exact hQ _ _ (by simp [GaveUp])
    · rw [if_neg hmax] at hstep
      have hrun : (interp L (k + 2)).runAt ip floor s =
          (interp L (k + 1)).runAt ip' floor { t with steps := t.steps + 1 } :=
        runAt_of_turn _ L (turn_ok _ hi hstep)
      rw [hrun]
      exact hm _ (by omega)
  · exact wanted_of_noWay hQ hi h

end Turns

/-! ### Courses -/

/-- The state with other stacks, another heap and another count of steps. -/
def LuaState.put (b : LuaState) (st : List Value) (fr : List Frame) (mk : List ℕ) (h : Heap) (n : ℕ) :
    LuaState :=
  { b with vstack := st, frames := fr, callMarks := mk, steps := n, toHeap := h }

section Put
variable (b : LuaState) (st st' : List Value) (fr fr' : List Frame) (mk mk' : List ℕ) (h h' : Heap) (n n' : ℕ)

@[simp] theorem put_vstack : (b.put st fr mk h n).vstack = st := rfl
@[simp] theorem put_frames : (b.put st fr mk h n).frames = fr := rfl
@[simp] theorem put_callMarks : (b.put st fr mk h n).callMarks = mk := rfl
@[simp] theorem put_toHeap : (b.put st fr mk h n).toHeap = h := rfl
@[simp] theorem put_code : (b.put st fr mk h n).code = b.code := rfl
@[simp] theorem put_put : (b.put st fr mk h n).put st' fr' mk' h' n' = b.put st' fr' mk' h' n' := rfl

end Put

/-- What stays the same along a run: the library, the floor, the program and
the other parts of the state, and what is wanted of the ending. -/
structure Course where
  L : Lib
  floor : ℕ
  b : LuaState
  Q : Ending → Prop
  tolerant : Tolerant Q

namespace Course
variable (C : Course)

/-- From the address, the stacks and the heap, the machine ends as wanted. -/
def leads (p : ℕ) (st : List Value) (fr : List Frame) (mk : List ℕ) (h : Heap) : Prop :=
  ∀ n, Leads C.L C.floor C.Q p (C.b.put st fr mk h n)

/-- An evaluation that stops so is an ending that is wanted. -/
def stops : Halt → Heap → Prop
  | .error e, h => ∀ t : LuaState, t.toHeap = h → C.Q (.error (.lua e) t)
  | .abort f, h => ∀ t : LuaState, t.toHeap = h → C.Q (.error (.fault f) t)
  | .unknown, _ => False

/-- The evaluation ends as `K` says, or stops as it may. -/
def sem {α : Type} (y : Sem α) (K : α → Heap → Prop) (h : Heap) : Prop := Effect.Wp y K C.stops h

variable {C} {p p' : ℕ} {st st' : List Value} {fr fr' : List Frame} {mk mk' : List ℕ} {h h' : Heap} {i : Instr}

theorem goto (hi : C.b.code[p]? = some i) (hu : Unprotected fr')
    (hx : ∀ k n, (interp C.L (k + 1)).exec (execInstr C.L (p + 1) i) (C.b.put st fr mk h n) =
      .ok (.goto p') (C.b.put st' fr' mk' h' n)) (hn : C.leads p' st' fr' mk' h') :
    C.leads p st fr mk h := fun n =>
  leads_of_goto C.tolerant hu hi (fun k => .inl (hx k n)) (hn (n + 1))

/-- An instruction that goes on where it has the room. -/
theorem tries (hi : C.b.code[p]? = some i) (hu : Unprotected fr')
    (hx : ∀ k n, (interp C.L (k + 1)).exec (execInstr C.L (p + 1) i) (C.b.put st fr mk h n) =
        .ok (.goto p') (C.b.put st' fr' mk' h' n) ∨
      NoWay ((interp C.L (k + 1)).exec (execInstr C.L (p + 1) i) (C.b.put st fr mk h n)))
    (hn : C.leads p' st' fr' mk' h') : C.leads p st fr mk h := fun n =>
  leads_of_goto C.tolerant hu hi (fun k => hx k n) (hn (n + 1))

theorem stop {e : Stop} (st' : List Value) (mk' : List ℕ) (h' : Heap) (hi : C.b.code[p]? = some i)
    (hu : Unprotected fr')
    (hx : ∀ k n, (interp C.L (k + 1)).exec (execInstr C.L (p + 1) i) (C.b.put st fr mk h n) =
      .error e (C.b.put st' fr' mk' h' n)) (hq : ∀ n, C.Q (.error e (C.b.put st' fr' mk' h' n))) :
    C.leads p st fr mk h := fun n =>
  leads_of_error C.tolerant hu hi (fun k => .inl (hx k n)) (hq n)

/-- An instruction that stops where it has the room. -/
theorem triesStop {e : Stop} (st' : List Value) (mk' : List ℕ) (h' : Heap) (hi : C.b.code[p]? = some i)
    (hu : Unprotected fr')
    (hx : ∀ k n, (interp C.L (k + 1)).exec (execInstr C.L (p + 1) i) (C.b.put st fr mk h n) =
        .error e (C.b.put st' fr' mk' h' n) ∨
      NoWay ((interp C.L (k + 1)).exec (execInstr C.L (p + 1) i) (C.b.put st fr mk h n)))
    (hq : ∀ n, C.Q (.error e (C.b.put st' fr' mk' h' n))) : C.leads p st fr mk h := fun n =>
  leads_of_error C.tolerant hu hi (fun k => hx k n) (hq n)

theorem giveUp {e : Stop} (st' : List Value) (mk' : List ℕ) (h' : Heap) (hi : C.b.code[p]? = some i)
    (hu : Unprotected fr')
    (hx : ∀ k n, (interp C.L (k + 1)).exec (execInstr C.L (p + 1) i) (C.b.put st fr mk h n) =
      .error e (C.b.put st' fr' mk' h' n)) (hg : GaveUp e) : C.leads p st fr mk h :=
  stop st' mk' h' hi hu hx fun _ => C.tolerant e _ hg

/-! ### Operators -/

section Operators
variable {α : Type} {y : Sem α}

/-- An operator on the heap, in front of the rest of an instruction. -/
theorem overHeap {x : LuaM α} {f : α → LuaM Next} (hi : C.b.code[p]? = some i) (hu : Unprotected fr)
    (hx : ∀ k n, (interp C.L (k + 1)).exec (execInstr C.L (p + 1) i) (C.b.put st fr mk h n) =
      (interp C.L (k + 1)).exec (x >>= f) (C.b.put st' fr mk h n))
    (ho : ∀ k n, OverHeap (interp C.L (k + 1)) (C.b.put st' fr mk h n) x y)
    (hy : C.sem y (fun a h' => (∀ k n, (interp C.L (k + 1)).exec (execInstr C.L (p + 1) i) (C.b.put st fr mk h n) =
      (interp C.L (k + 1)).exec (f a) (C.b.put st' fr mk h' n)) → C.leads p st fr mk h) h) :
    C.leads p st fr mk h := by
  unfold sem Effect.Wp at hy
  unfold OverHeap Effect.Wp at ho
  simp only [put_toHeap] at ho
  cases hr : y h with
  | ok a h' =>
    rw [hr] at hy ho
    refine hy fun k n => ?_
    rw [hx, exec_bind]
    exact bind_ok (ho k n) _
  | error e h' =>
    rw [hr] at hy ho
    cases e with
    | error e =>
      refine stop st' mk h' hi hu (fun k n => ?_) fun n => hy _ rfl
      rw [hx, exec_bind]
      exact bind_error (ho k n) _
    | abort f =>
      refine stop st' mk h' hi hu (fun k n => ?_) fun n => hy _ rfl
      rw [hx, exec_bind]
      exact bind_error (ho k n) _
    | unknown => exact hy.elim

end Operators

end Course

end Lua
end Rustrapper
