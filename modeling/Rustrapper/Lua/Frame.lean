/-
# Programs on the machine

Programs that start nothing again and whose writes are all `T` steps
(`OnMachine`), one rule for each construct, and the lookup of strings and
metamethods, which writes the string arena alone.
-/
import Rustrapper.Lua.History
import Rustrapper.Lua.Writes

namespace Rustrapper
namespace Lua

variable {α β : Type} {T : Machine → Machine → Prop}

/-! ### Programs on the machine -/

/-- From machine `m` the program does nothing but `T` writes. -/
structure FromMachine (T : Machine → Machine → Prop) (x : LuaM α) (m : Machine) : Prop where
  only : x.Only LuaOp.machine
  writes : within T x m

/-- The program does nothing but `T` writes. -/
def OnMachine (T : Machine → Machine → Prop) (x : LuaM α) : Prop := ∀ m, FromMachine T x m

theorem FromMachine.pure (a : α) {m : Machine} : FromMachine T (pure a) m := ⟨trivial, trivial⟩

theorem FromMachine.throw (e : Exc) {m : Machine} : FromMachine T (.throw e : LuaM α) m :=
  ⟨trivial, trivial⟩

theorem FromMachine.ite {c : Prop} [Decidable c] {x y : LuaM α} {m : Machine}
    (hx : FromMachine T x m) (hy : FromMachine T y m) : FromMachine T (if c then x else y) m := by
  by_cases h : c
  · rwa [if_pos h]
  · rwa [if_neg h]

theorem OnMachine.pure (a : α) : OnMachine T (pure a) := fun _ => .pure a

theorem OnMachine.throw (e : Exc) : OnMachine T (.throw e : LuaM α) := fun _ => .throw e

theorem OnMachine.bind {x : LuaM α} {f : α → LuaM β} (hx : OnMachine T x)
    (hf : ∀ a, OnMachine T (f a)) : OnMachine T (x >>= f) :=
  fun m => ⟨.bind (hx m).only fun a => (hf a m).only,
    within_bind (fun a m' => (hf a m').writes) x (hx m).writes⟩

theorem OnMachine.ite {c : Prop} [Decidable c] {x y : LuaM α} (hx : OnMachine T x)
    (hy : OnMachine T y) : OnMachine T (if c then x else y) := fun m => .ite (hx m) (hy m)

/-- Read the machine: what is written next may be based on it. -/
theorem OnMachine.read {g : Machine → LuaM α} (h : ∀ m, FromMachine T (g m) m) :
    OnMachine T (MonadState.get >>= g) :=
  fun m => ⟨.bind (.perform trivial) fun m' => (h m').only, (h m).writes⟩

theorem OnMachine.modify {f : Machine → Machine} (h : ∀ m, T m (f m)) :
    OnMachine T (modify f : LuaM PUnit) := fun m => ⟨machine_modify f, h m, trivial⟩

theorem OnMachine.orFault (f : Fault) (o : Option α) : OnMachine T (orFault f o) := by
  cases o with
  | none => exact .throw _
  | some a => exact .pure a

/-- Reading something off the machine. -/
theorem OnMachine.look {g : Machine → LuaM α} (h : ∀ m, OnMachine T (g m)) :
    OnMachine T (MonadState.get >>= g) := .read fun m => h m m

/-! ### Strings and metamethods -/

/-- The string arena and the names of the metamethods may be written. -/
structure Interns (T : Machine → Machine → Prop) : Prop where
  arena : ∀ m rs n, T m { m with strregs := rs, strNext := n }
  names : ∀ m refs, T m { m with mmRefs := refs, mmReady := true }

theorem intern_heap {h h' : Heap} {b : List UInt8} {r : StrRef} (hi : h.intern b = .ok (r, h')) :
    ∃ rs n, h' = { h with strregs := rs, strNext := n } := by
  unfold Heap.intern at hi
  cases hf : h.strregs.find? fun reg => reg.2 = b with
  | some reg =>
    rw [hf] at hi
    cases hi
    exact ⟨h.strregs, h.strNext, rfl⟩
  | none =>
    rw [hf] at hi
    by_cases h1 : h.strregs.length ≥ MAX_STRINGS
    · simp only [if_pos h1] at hi
      cases hi
    · by_cases h2 : h.strNext + b.length > STR_CAP
      · simp only [if_neg h1, if_pos h2] at hi
        cases hi
      · simp only [if_neg h1, if_neg h2] at hi
        cases hi
        exact ⟨_, _, rfl⟩

section Strings
variable (hT : Interns T)
include hT

theorem onMachine_intern (b : List UInt8) : OnMachine T (intern b) := by
  refine .read fun m => ?_
  cases hi : m.toHeap.intern b with
  | error e => exact .throw _
  | ok p =>
    obtain ⟨r, h⟩ := p
    obtain ⟨rs, n, rfl⟩ := intern_heap hi
    refine ⟨(machine_modify _).bind fun _ => .pure _, ?_⟩
    exact ⟨hT.arena m rs n, trivial⟩

theorem onMachine_internAll : ∀ ms : List String, OnMachine T (internAll ms)
  | [] => .pure _
  | _ :: ms => (onMachine_intern hT _).bind fun _ => (onMachine_internAll ms).bind fun _ => .pure _

theorem onMachine_mmName (i : MM) : OnMachine T (mmName i) := by
  refine .look fun m => .ite (.look fun _ => .pure _) ?_
  exact (onMachine_internAll hT _).bind fun refs =>
    (OnMachine.modify fun m => hT.names m refs).bind fun _ => .pure _

omit hT in
theorem onMachine_tableRec (tid : ℕ) : OnMachine T (tableRec tid) := .look fun _ => .orFault _ _

omit hT in
theorem onMachine_rawGet (tid : ℕ) (k : Value) : OnMachine T (rawGet tid k) :=
  (onMachine_tableRec tid).bind fun _ => .pure _

theorem onMachine_mtLookup (tid : ℕ) (i : MM) : OnMachine T (mtLookup tid i) := by
  refine (onMachine_tableRec tid).bind fun t => ?_
  cases t.mt with
  | none => exact .pure _
  | some mt => exact (onMachine_mmName hT i).bind fun name => onMachine_rawGet mt (.str name)

theorem onMachine_mmOf (v : Value) (i : MM) : OnMachine T (mmOf v i) := by
  cases v with
  | table tid => exact onMachine_mtLookup hT tid i
  | _ => exact .pure _

end Strings

end Lua
end Rustrapper
