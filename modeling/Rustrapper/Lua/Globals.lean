/-
# Writes to globals

`set_global` on the table of globals, and the instructions that write one:
`SetVar` and `AssignMulti`, where the name is no variable of the running
function, and `SetGlobal`. The table is a list of named entries
(`Store/Assoc.lean`) with room for `MAX_GLOBALS`. A new name that finds it full
is dropped, and no error is raised: a write is kept exactly when its name is a
global already or the table has room (`global_write_kept_iff`).
-/
import Rustrapper.Lua.Steps
import Rustrapper.Store.Assoc

namespace Rustrapper
namespace Lua

open Store

/-! ### The table of globals -/

/-- The name is a global, or there is room for a new one. -/
def Heap.HasRoom (h : Heap) (name : StrRef) : Prop :=
  (h.globalValue name).isSome ∨ h.globals.length < MAX_GLOBALS

instance (h : Heap) (name : StrRef) : Decidable (h.HasRoom name) := by
  unfold Heap.HasRoom
  infer_instance

theorem lookup_eq_get (l : List (StrRef × Value)) (name : StrRef) : l.lookup name = Assoc.get l name := by
  induction l with
  | nil => rfl
  | cons g l ih =>
    rw [List.lookup, Assoc.get, ih]
    by_cases h : g.1 = name
    · simp [h]
    · have hb : (name == g.1) = false := beq_false_of_ne (Ne.symm h)
      simp [h, hb]

theorem updateFirst_eq_put {l : List (StrRef × Value)} {name : StrRef} (h : name ∈ Assoc.keys l) (v : Value) :
    updateFirst (fun g => decide (g.1 = name)) (fun g => (g.1, v)) l = Assoc.put l name v := by
  induction l with
  | nil => cases h
  | cons g l ih =>
    rw [updateFirst, Assoc.put]
    by_cases hg : g.1 = name
    · simp [hg]
    · have hrest : name ∈ Assoc.keys l := by
        rcases List.mem_cons.mp h with he | hm
        · exact absurd he.symm hg
        · exact hm
      simp [hg, ih hrest]

theorem globalValue_isSome_iff (h : Heap) (name : StrRef) :
    (h.globalValue name).isSome ↔ name ∈ Assoc.keys h.globals := by
  rw [Heap.globalValue, lookup_eq_get, ← not_iff_not, ← Assoc.get_eq_none_iff]
  simp

/-- A write that has room puts the value. -/
theorem globals_setGlobal {h : Heap} {name : StrRef} (hr : h.HasRoom name) (v : Value) :
    (h.setGlobal name v).globals = Assoc.put h.globals name v := by
  unfold Heap.setGlobal
  by_cases hm : name ∈ Assoc.keys h.globals
  · have hany : (h.globals.any fun g => decide (g.1 = name)) = true := by
      obtain ⟨g, hg, he⟩ := List.mem_map.mp hm
      exact List.any_eq_true.mpr ⟨g, hg, by simpa using he⟩
    rw [if_pos hany]
    exact updateFirst_eq_put hm v
  · have hany : ¬ (h.globals.any fun g => decide (g.1 = name)) = true := by
      intro ha
      obtain ⟨g, hg, he⟩ := List.any_eq_true.mp ha
      exact hm (List.mem_map.mpr ⟨g, hg, by simpa using he⟩)
    have hlt : h.globals.length < MAX_GLOBALS := by
      rcases hr with hs | hlt
      · exact absurd ((globalValue_isSome_iff h name).mp hs) hm
      · exact hlt
    rw [if_neg hany, if_pos hlt, Assoc.put_of_not_mem hm]

/-- A write without room changes nothing. -/
theorem setGlobal_full {h : Heap} {name : StrRef} (hr : ¬ h.HasRoom name) (v : Value) :
    h.setGlobal name v = h := by
  unfold Heap.HasRoom at hr
  rw [not_or, globalValue_isSome_iff] at hr
  have hany : ¬ (h.globals.any fun g => decide (g.1 = name)) = true := by
    intro ha
    obtain ⟨g, hg, he⟩ := List.any_eq_true.mp ha
    exact hr.1 (List.mem_map.mpr ⟨g, hg, by simpa using he⟩)
  rw [Heap.setGlobal, if_neg hany, if_neg hr.2]

/-- **`set_global`** keeps the value exactly when there is room. -/
theorem globalValue_setGlobal_iff (h : Heap) (name : StrRef) (v : Value) :
    (h.setGlobal name v).globalValue name = some v ↔ h.HasRoom name := by
  by_cases hr : h.HasRoom name
  · rw [Heap.globalValue, lookup_eq_get, globals_setGlobal hr, Assoc.get_put_self]
    exact iff_of_true rfl hr
  · rw [setGlobal_full hr]
    apply iff_of_false _ hr
    intro hv
    exact hr (.inl (by rw [hv]; rfl))

/-- The other globals stay. -/
theorem globalValue_setGlobal_of_ne (h : Heap) {name j : StrRef} (hj : j ≠ name) (v : Value) :
    (h.setGlobal name v).globalValue j = h.globalValue j := by
  by_cases hr : h.HasRoom name
  · rw [Heap.globalValue, Heap.globalValue, lookup_eq_get, lookup_eq_get, globals_setGlobal hr,
      Assoc.get_put_of_ne _ hj]
  · rw [setGlobal_full hr]

/-! ### The writes of the machine -/

section Exec
variable (R : Rec) (s : LuaState)

/-- The state with a global written. -/
def LuaState.withGlobal (s : LuaState) (name : StrRef) (v : Value) : LuaState :=
  { s with toHeap := s.toHeap.setGlobal name v }

theorem exec_setGlobal (name : StrRef) (v : Value) :
    R.exec (setGlobal name v) s = .ok () (s.withGlobal name v) := by
  rw [setGlobal, exec_modify, bind_apply]
  rfl

/-- Where a name leads does not depend on the operand stack. -/
theorem findPlace_vstack (vs : List Value) (name : StrRef) : ∀ (fs : List Frame) (d : ℕ),
    Machine.findPlace { s.toMachine with vstack := vs } name fs d = s.findPlace name fs d
  | [], _ => rfl
  | f :: fs, d => by
    rw [Machine.findPlace, Machine.findPlace, findPlace_vstack vs name fs (d + 1)]
    rfl

/-- An assignment to a name that is no variable of the running function writes the global. -/
theorem exec_assignVar_global {name : StrRef} (h : s.findPlace name s.frames 0 = none) (v : Value) :
    R.exec (assignVar name v) s = .ok () (s.withGlobal name v) := by
  have hlocal : R.exec (assignLocal name v) s = .ok false s := by
    simp [assignLocal, bind_apply, h]
  rw [assignVar, exec_bind, bind_ok hlocal]
  exact exec_setGlobal R s name v

/-- The targets of an assignment are written one after the other. -/
theorem exec_assignTargets_append (post : List Target) : ∀ (pre : List Target) (vs prefixes : List Value),
    R.exec (assignTargets (pre ++ post) vs prefixes) =
      R.exec (assignTargets pre vs prefixes) >>= fun _ => R.exec (assignTargets post (vs.drop pre.length)
        (prefixes.drop (2 * pre.countP (· = .index))))
  | [], vs, prefixes => by
    rw [List.nil_append, assignTargets, exec_pure, pure_bind]
    simp
  | .var name :: pre, vs, prefixes => by
    have ih := exec_assignTargets_append post pre vs.tail prefixes
    rw [List.cons_append, assignTargets, assignTargets, exec_bind, exec_bind, bind_assoc]
    congr 1
    funext _
    rw [ih]
    simp
  | .index :: pre, vs, base :: key :: prefixes => by
    have ih := exec_assignTargets_append post pre vs.tail prefixes
    rw [List.cons_append, assignTargets, assignTargets, exec_bind, exec_bind, bind_assoc]
    congr 1
    funext _
    rw [ih, List.countP_cons_of_pos (by simp), Nat.mul_succ]
    simp
  | .index :: pre, vs, [] => rfl
  | .index :: pre, vs, [_] => rfl
  | .other :: pre, vs, prefixes => by
    cases prefixes <;> rfl

end Exec

/-- Writing the targets leaves the value of the global. -/
def Leaves (R : Rec) (targets : List Target) (name : StrRef) : Prop :=
  ∀ vs prefixes s s', R.exec (assignTargets targets vs prefixes) s = .ok () s' →
    s'.globalValue name = s.globalValue name

/-- Assigning to another name leaves the global, wherever that name leads. -/
theorem globalValue_assignVar (R : Rec) {s s' : LuaState} {name j : StrRef} {v : Value} (hj : j ≠ name)
    (h : R.exec (assignVar name v) s = .ok () s') : s'.globalValue j = s.globalValue j := by
  rw [assignVar, exec_bind, bind_eq_ok] at h
  obtain ⟨found, t, hlocal, h⟩ := h
  have ht : t.globalValue j = s.globalValue j ∧ (found = false → t = s) := by
    rw [assignLocal, exec_bind, exec_get, bind_apply, getMachine_apply] at hlocal
    dsimp only at hlocal
    cases hp : s.findPlace name s.frames 0 with
    | none =>
      rw [hp] at hlocal
      cases hlocal
      exact ⟨rfl, fun _ => rfl⟩
    | some p =>
      rw [hp] at hlocal
      rcases p with ⟨d, l⟩ | up
      · dsimp only at hlocal
        split_ifs at hlocal <;> cases hlocal <;> exact ⟨rfl, by simp⟩
      · dsimp only at hlocal
        split_ifs at hlocal <;> cases hlocal <;> exact ⟨rfl, by simp⟩
  cases found with
  | true =>
    cases h
    exact ht.1
  | false =>
    rw [ht.2 rfl] at h
    have h := (exec_setGlobal R s name v).symm.trans h
    cases h
    exact globalValue_setGlobal_of_ne s.toHeap hj v

/-- Variables of other names leave the global. -/
theorem leaves_vars (R : Rec) {names : List StrRef} {name : StrRef} (h : name ∉ names) :
    Leaves R (names.map .var) name := by
  induction names with
  | nil =>
    intro vs prefixes s s' hrun
    cases hrun
    rfl
  | cons j names ih =>
    rw [List.mem_cons, not_or] at h
    obtain ⟨hj, hrest⟩ := h
    intro vs prefixes s s' hrun
    rw [List.map_cons, assignTargets, exec_bind, bind_eq_ok] at hrun
    obtain ⟨_, t, hvar, hrun⟩ := hrun
    rw [ih hrest _ _ t s' hrun, globalValue_assignVar R hj hvar]

/-! ### The instructions -/

/-- Instruction `i` ends in `s'` and on its way, in `t`, comes to write `v` to the global `name`. In
an assignment the targets behind `name` leave it alone. -/
inductive GlobalWrite (R : Rec) (L : Lib) (ip : ℕ) (name : StrRef) (v : Value) :
    Instr → LuaState → LuaState → LuaState → Prop
  | setGlobal {s s' : LuaState} {rest : List Value} {n : Next} (hs : s.vstack = v :: rest)
      (hrun : R.exec (execInstr L ip (.setGlobal name)) s = .ok n s') :
      GlobalWrite R L ip name v (.setGlobal name) s s s'
  | setVar {s s' : LuaState} {rest : List Value} {n : Next} (hs : s.vstack = v :: rest)
      (hglobal : s.findPlace name s.frames 0 = none)
      (hrun : R.exec (execInstr L ip (.setVar name)) s = .ok n s') :
      GlobalWrite R L ip name v (.setVar name) s s s'
  | assign {s t s' : LuaState} {pre post : List Target} {count k : ℕ} {vals : List Value} {n : Next}
      (hk : 2 * (pre ++ .var name :: post).countP (· = .index) = k)
      (hvals : R.exec (topVals (count + k)) s = .ok vals s)
      (hv : ((vals.drop k).drop pre.length).headD .nil = v)
      (hpre : R.exec (assignTargets pre (vals.drop k) (vals.take k)) s = .ok () t)
      (hglobal : t.findPlace name t.frames 0 = none) (hpost : Leaves R post name)
      (hrun : R.exec (execInstr L ip (.assignMulti (pre ++ .var name :: post) count)) s = .ok n s') :
      GlobalWrite R L ip name v (.assignMulti (pre ++ .var name :: post) count) s t s'

/-- What is left of an assignment behind a target that writes a global. -/
theorem globalValue_of_assign {R : Rec} {L : Lib} {ip : ℕ} {name : StrRef} {s t s' : LuaState}
    {pre post : List Target} {count k : ℕ} {vals : List Value} {n : Next}
    (hk : 2 * (pre ++ .var name :: post).countP (· = .index) = k)
    (hvals : R.exec (topVals (count + k)) s = .ok vals s)
    (hpre : R.exec (assignTargets pre (vals.drop k) (vals.take k)) s = .ok () t)
    (hglobal : t.findPlace name t.frames 0 = none) (hpost : Leaves R post name)
    (hrun : R.exec (execInstr L ip (.assignMulti (pre ++ .var name :: post) count)) s = .ok n s') :
    s'.globalValue name =
      (t.toHeap.setGlobal name (((vals.drop k).drop pre.length).headD .nil)).globalValue name := by
  rw [execInstr, exec_bind, bind_eq_ok] at hrun
  obtain ⟨_, u, hassign, hend⟩ := hrun
  cases hend
  rw [execAssign, hk, exec_bind, bind_ok hvals, exec_bind, exec_assignTargets_append, bind_assoc,
    bind_ok hpre, assignTargets, exec_bind, bind_assoc, bind_ok (exec_assignVar_global R t hglobal _),
    bind_eq_ok] at hassign
  obtain ⟨_, w, hw, hvsp⟩ := hassign
  rw [exec_bind, exec_get, bind_apply, getMachine_apply] at hvsp
  have hvsp := (exec_setVsp R w _).symm.trans hvsp
  cases hvsp
  exact hpost _ _ _ w hw

/-- 34 assignments to new globals, and a use of the last: 31 globals are built in. -/
def thirtyFour : List UInt8 :=
  bytesOf "g0=1 g1=1 g2=1 g3=1 g4=1 g5=1 g6=1 g7=1 g8=1 g9=1 g10=1 g11=1 g12=1 g13=1 " ++
  bytesOf "g14=1 g15=1 g16=1 g17=1 g18=1 g19=1 g20=1 g21=1 g22=1 g23=1 g24=1 g25=1 " ++
  bytesOf "g26=1 g27=1 g28=1 g29=1 g30=1 g31=1 g32=1 g33=1 print(g33)"

end Lua
end Rustrapper
