/-
# What a program writes

`Writes T x`: every write of the program `x` takes the machine it finds to one
that is `T` related to it. It is read off the program's tree, where a write
stands behind the read it is based on; behind an operation that starts the
interpreter again the machine may be any. Run on an interpreter that keeps `T`,
the program does (`Writes.exec`).
-/
import Rustrapper.Effect.Shape
import Rustrapper.Lua.Steps

namespace Rustrapper
namespace Lua

variable {α β : Type}

/-! ### Writes of a program -/

/-- The writes of an operation found at machine `m`; `P` is about its answer and
the machine behind it. -/
def LuaOp.within (T : Machine → Machine → Prop) {β : Type} :
    LuaOp β → (β → Machine → Prop) → Machine → Prop
  | .get, P, m => P m m
  | .set m', P, m => T m m' ∧ P () m'
  | .buffer _, P, m => P () m
  | .setYield _ _, P, m => P () m
  | .current, P, m => ∀ b, P b m
  | .coCreate _, P, m => ∀ b, P b m
  | .coStatus _, P, m => ∀ b, P b m
  | .coClose _, P, m => ∀ b, P b m
  | .call _ _, P, _ => ∀ b m', P b m'
  | .runAt _ _, P, _ => ∀ b m', P b m'
  | .tget _ _, P, _ => ∀ b m', P b m'
  | .tset _ _ _, P, _ => ∀ b m', P b m'
  | .resume _ _, P, _ => ∀ b m', P b m'

theorem LuaOp.within_mono {T : Machine → Machine → Prop} {o : LuaOp β} {P P' : β → Machine → Prop}
    (h : ∀ b m, P b m → P' b m) {m : Machine} (hp : o.within T P m) : o.within T P' m := by
  cases o with
  | get => exact h _ _ hp
  | set m' => exact ⟨hp.1, h _ _ hp.2⟩
  | buffer n => exact h _ _ hp
  | setYield ip want => exact h _ _ hp
  | current => exact fun b => h b m (hp b)
  | coCreate f => exact fun b => h b m (hp b)
  | coStatus i => exact fun b => h b m (hp b)
  | coClose i => exact fun b => h b m (hp b)
  | call f argc => exact fun b m' => h b m' (hp b m')
  | runAt ip floor => exact fun b m' => h b m' (hp b m')
  | tget t k => exact fun b m' => h b m' (hp b m')
  | tset t k v => exact fun b m' => h b m' (hp b m')
  | resume id args => exact fun b m' => h b m' (hp b m')

/-- Every write of the program, started at machine `m`, is a `T` step. -/
def within (T : Machine → Machine → Prop) {α : Type} : LuaM α → Machine → Prop
  | .pure _, _ => True
  | .op o k, m => o.within T (fun b m' => within T (k b) m') m
  | .throw _, _ => True
  | .attempt p k, m => within T p m ∧ ∀ r m', within T (k r) m'

/-- Every write of the program is a `T` step. -/
def Writes (T : Machine → Machine → Prop) (x : LuaM α) : Prop := ∀ m, within T x m

variable {T : Machine → Machine → Prop}

theorem within_bind {f : α → LuaM β} (hf : ∀ a, Writes T (f a)) :
    ∀ (x : LuaM α) {m : Machine}, within T x m → within T (x >>= f) m
  | .pure a, m, _ => hf a m
  | .op _ k, _, h => LuaOp.within_mono (fun b _ hb => within_bind hf (k b) hb) h
  | .throw _, _, _ => trivial
  | .attempt _ k, _, h => ⟨h.1, fun r m' => within_bind hf (k r) (h.2 r m')⟩

theorem Writes.pure (a : α) : Writes T (Pure.pure a : LuaM α) := fun _ => trivial

theorem Writes.throw (e : Exc) : Writes T (.throw e : LuaM α) := fun _ => trivial

theorem Writes.bind {x : LuaM α} {f : α → LuaM β} (hx : Writes T x) (hf : ∀ a, Writes T (f a)) :
    Writes T (x >>= f) := fun m => within_bind hf x (hx m)

theorem Writes.attempt {x : LuaM α} (hx : Writes T x) : Writes T (attempt x) :=
  fun m => ⟨hx m, fun _ _ => trivial⟩

theorem Writes.ite {c : Prop} [Decidable c] {x y : LuaM α} (hx : Writes T x) (hy : Writes T y) :
    Writes T (if c then x else y) := by
  by_cases h : c
  · rwa [if_pos h]
  · rwa [if_neg h]

/-- Read the machine: what is written next may be based on it. -/
theorem Writes.get {g : Machine → LuaM α} (h : ∀ m, within T (g m) m) :
    Writes T (MonadState.get >>= g) := h

theorem Writes.modify {f : Machine → Machine} (h : ∀ m, T m (f m)) :
    Writes T (modify f : LuaM PUnit) := fun m => ⟨h m, trivial⟩

/-! ### Running programs that write so -/

/-- The entry points keep `T`, however they end. -/
structure Rec.Steps (R : Rec) (T : Machine → Machine → Prop) : Prop where
  call : ∀ f n (s : LuaState), T s.toMachine (endState (R.call f n s)).toMachine
  runAt : ∀ ip floor (s : LuaState), T s.toMachine (endState (R.runAt ip floor s)).toMachine
  tget : ∀ t k (s : LuaState), T s.toMachine (endState (R.tget t k s)).toMachine
  tset : ∀ t k v (s : LuaState), T s.toMachine (endState (R.tset t k v s)).toMachine
  resume : ∀ id args (s : LuaState), T s.toMachine (endState (R.resume id args s)).toMachine

theorem steps_stuck (hr : ∀ m, T m m) : Rec.stuck.Steps T where
  call _ _ s := hr s.toMachine
  runAt _ _ s := hr s.toMachine
  tget _ _ s := hr s.toMachine
  tset _ _ _ s := hr s.toMachine
  resume _ _ s := hr s.toMachine

theorem takeSlot_machine (f : Value) (s : LuaState) : (endState (takeSlot f s)).toMachine = s.toMachine := by
  simp only [takeSlot, bind_apply, get_apply]
  cases (List.range MAX_COS).find? fun i => (s.cos i).status = .dead <;> rfl

theorem closeCo_machine (i : ℕ) (s : LuaState) : (endState (closeCo i s)).toMachine = s.toMachine := by
  unfold closeCo
  rw [bind_apply, get_apply]
  by_cases h : (s.cos i).status = .suspended
  · simp only [if_pos h]
    rfl
  · simp only [if_neg h]
    rfl

/-- An operation and what follows it. -/
theorem op_step (hr : ∀ m, T m m) (ht : ∀ {a b c}, T a b → T b c → T a c) {R : Rec} (hR : R.Steps T)
    {o : LuaOp β} {k : β → LuaM α} {s : LuaState} {P : β → Machine → Prop}
    (h : o.within T P s.toMachine)
    (hk : ∀ b (t : LuaState), P b t.toMachine →
      T t.toMachine (endState (R.exec (k b) t)).toMachine) :
    T s.toMachine (endState ((R.op o >>= fun b => R.exec (k b)) s)).toMachine := by
  have hrec : ∀ {x : Exec β}, T s.toMachine (endState (x s)).toMachine → (∀ b m, P b m) →
      T s.toMachine (endState ((x >>= fun b => R.exec (k b)) s)).toMachine := by
    intro x hx hP
    rw [bind_apply]
    cases hxs : x s with
    | ok b t =>
      rw [hxs] at hx
      exact ht hx (hk b t (hP b _))
    | error e t =>
      rw [hxs] at hx
      exact hx
  have hquiet : ∀ {x : Exec β}, (endState (x s)).toMachine = s.toMachine → (∀ b, P b s.toMachine) →
      T s.toMachine (endState ((x >>= fun b => R.exec (k b)) s)).toMachine := by
    intro x hx hP
    rw [bind_apply]
    cases hxs : x s with
    | ok b t =>
      rw [hxs] at hx
      have hb := hk b t (by rw [show t.toMachine = s.toMachine from hx]; exact hP b)
      rwa [show t.toMachine = s.toMachine from hx] at hb
    | error e t =>
      rw [hxs] at hx
      show T s.toMachine t.toMachine
      rw [show t.toMachine = s.toMachine from hx]
      exact hr _
  cases o with
  | get => exact hk _ s h
  | set m => exact ht h.1 (hk () { s with toMachine := m } h.2)
  | buffer n =>
    refine hquiet (x := if n > ARGBUF then throw Stop.buffer else pure ()) ?_ fun _ => h
    split_ifs <;> rfl
  | setYield ip want => exact hquiet (x := R.op (.setYield ip want)) rfl fun _ => h
  | current => exact hquiet (x := R.op .current) rfl h
  | coCreate f => exact hquiet (x := R.op (.coCreate f)) (takeSlot_machine f s) h
  | coStatus i => exact hquiet (x := R.op (.coStatus i)) rfl h
  | coClose i => exact hquiet (x := R.op (.coClose i)) (closeCo_machine i s) h
  | call f argc => exact hrec (hR.call f argc s) h
  | runAt ip floor => exact hrec (hR.runAt ip floor s) h
  | tget t key => exact hrec (hR.tget t key s) h
  | tset t key v => exact hrec (hR.tset t key v s) h
  | resume id args => exact hrec (hR.resume id args s) h

/-- What a program's writes satisfy holds between the machines at its start and
at its end. -/
theorem within_exec (hr : ∀ m, T m m) (ht : ∀ {a b c}, T a b → T b c → T a c) {R : Rec}
    (hR : R.Steps T) {α : Type} : ∀ (x : LuaM α) (s : LuaState), within T x s.toMachine →
      T s.toMachine (endState (R.exec x s)).toMachine
  | .pure _, s, _ => hr s.toMachine
  | .op _ k, _, h => op_step hr ht hR h fun b t hb => within_exec hr ht hR (k b) t hb
  | .throw _, s, _ => hr s.toMachine
  | .attempt p k, s, h => by
    have hp := within_exec hr ht hR p s h.1
    show T s.toMachine (endState ((catchLua (R.exec p) >>= fun r => R.exec (k r)) s)).toMachine
    rw [bind_apply, catchLua]
    cases hx : R.exec p s with
    | ok a t =>
      rw [hx] at hp
      exact ht hp (within_exec hr ht hR (k (.ok a)) t (h.2 _ _))
    | error e t =>
      rw [hx] at hp
      cases e with
      | lua e => exact ht hp (within_exec hr ht hR (k (.error e)) t (h.2 _ _))
      | fault f => exact hp
      | fuel => exact hp
      | buffer => exact hp

/-- **Frame rule.** Between the start and the end of a program stands what each
of its writes satisfies. -/
theorem Writes.exec {x : LuaM α} (h : Writes T x) (hr : ∀ m, T m m)
    (ht : ∀ {a b c}, T a b → T b c → T a c) {R : Rec} (hR : R.Steps T) (s : LuaState) :
    T s.toMachine (endState (R.exec x s)).toMachine := within_exec hr ht hR x s (h s.toMachine)

end Lua
end Rustrapper
