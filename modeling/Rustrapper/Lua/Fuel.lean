/-
# Fuel

`Below x y`: where `x` does not run out of fuel, `y` does the same. The
interpreter with less fuel is below the one with more (`interp_mono`), so a
result does not depend on the fuel it was found with.
-/
import Rustrapper.Lua.Steps

namespace Rustrapper
namespace Lua

variable {α β : Type}

/-- `x` runs out of fuel or does what `y` does. -/
def Below (x y : Exec α) : Prop := ∀ s, (∃ t, x s = .error .fuel t) ∨ x s = y s

theorem Below.refl (x : Exec α) : Below x x := fun _ => .inr rfl

theorem Below.fuel (y : Exec α) : Below (throw .fuel) y := fun s => .inl ⟨s, rfl⟩

theorem Below.trans {x y z : Exec α} (h : Below x y) (h' : Below y z) : Below x z := by
  intro s
  rcases h s with hf | he
  · exact .inl hf
  · rw [he]
    exact h' s

theorem Below.bind {x y : Exec α} {f g : α → Exec β} (h : Below x y) (hf : ∀ a, Below (f a) (g a)) :
    Below (x >>= f) (y >>= g) := by
  intro s
  rcases h s with ⟨t, ht⟩ | he
  · exact .inl ⟨t, bind_error ht f⟩
  · rw [bind_apply, bind_apply, he]
    cases y s with
    | ok a t => exact hf a t
    | error e t => exact .inr rfl

theorem Below.catch {x y : Exec α} (h : Below x y) : Below (catchLua x) (catchLua y) := by
  intro s
  rcases h s with ⟨t, ht⟩ | he
  · exact .inl ⟨t, by rw [catchLua, ht]⟩
  · exact .inr (by rw [catchLua, catchLua, he])

/-- Results of `x` other than the end of its fuel are results of `y`. -/
theorem Below.eq {x y : Exec α} (h : Below x y) {s : LuaState}
    (hn : ∀ t, x s ≠ .error .fuel t) : x s = y s := by
  rcases h s with ⟨t, ht⟩ | he
  · exact absurd ht (hn t)
  · exact he

/-- The entry points of one interpreter below those of another. -/
structure Rec.Below (R R' : Rec) : Prop where
  call : ∀ f n, Lua.Below (R.call f n) (R'.call f n)
  runAt : ∀ ip floor, Lua.Below (R.runAt ip floor) (R'.runAt ip floor)
  tget : ∀ t k, Lua.Below (R.tget t k) (R'.tget t k)
  tset : ∀ t k v, Lua.Below (R.tset t k v) (R'.tset t k v)
  resume : ∀ id args, Lua.Below (R.resume id args) (R'.resume id args)

theorem below_op {R R' : Rec} (h : R.Below R') (o : LuaOp α) : Below (R.op o) (R'.op o) := by
  cases o with
  | call f n => exact h.call f n
  | runAt ip floor => exact h.runAt ip floor
  | tget t k => exact h.tget t k
  | tset t k v => exact h.tset t k v
  | resume id args => exact h.resume id args
  | _ => exact .refl _

/-- A program started on the lower interpreter is below itself on the other. -/
theorem below_exec {R R' : Rec} (h : R.Below R') (x : LuaM α) : Below (R.exec x) (R'.exec x) := by
  have hr : Effect.Relator R.handler R'.handler Below := {
    pure := fun _ => .refl _
    bind := .bind
    op := below_op h
    throw := fun _ => .refl _
    attempt := .catch }
  exact hr.exec x

theorem below_switch {R R' : Rec} (h : R.Below R') (id : ℕ) (args : List Value) :
    Below (switch R id args) (switch R' id args) :=
  (Below.refl _).bind fun _ => (below_exec h _).bind fun _ => .refl _

theorem below_resume {R R' : Rec} (h : R.Below R') (id : ℕ) (args : List Value) :
    Below (resume R id args) (resume R' id args) := by
  refine (Below.refl _).bind fun s => ?_
  split_ifs
  · exact below_switch h id args
  · exact .refl _

theorem below_next (L : Lib) {R R' : Rec} (h : R.Below R') : (R.next L).Below (R'.next L) where
  call _ _ := below_exec h _
  runAt _ _ := below_exec h _
  tget _ _ := below_exec h _
  tset _ _ _ := below_exec h _
  resume id args := below_resume h id args

theorem below_stuck (R : Rec) : Rec.stuck.Below R where
  call _ _ := .fuel _
  runAt _ _ := .fuel _
  tget _ _ := .fuel _
  tset _ _ _ := .fuel _
  resume _ _ := .fuel _

theorem interp_succ (L : Lib) : ∀ n, (interp L n).Below (interp L (n + 1))
  | 0 => below_stuck _
  | n + 1 => below_next L (interp_succ L n)

theorem Rec.Below.refl (R : Rec) : R.Below R where
  call _ _ := .refl _
  runAt _ _ := .refl _
  tget _ _ := .refl _
  tset _ _ _ := .refl _
  resume _ _ := .refl _

theorem Rec.Below.trans {R R' R'' : Rec} (h : R.Below R') (h' : R'.Below R'') : R.Below R'' where
  call f n := (h.call f n).trans (h'.call f n)
  runAt ip floor := (h.runAt ip floor).trans (h'.runAt ip floor)
  tget t k := (h.tget t k).trans (h'.tget t k)
  tset t k v := (h.tset t k v).trans (h'.tset t k v)
  resume id args := (h.resume id args).trans (h'.resume id args)

/-- **Fuel does not matter.** More fuel keeps every result. -/
theorem interp_mono (L : Lib) {n m : ℕ} (h : n ≤ m) : (interp L n).Below (interp L m) := by
  induction h with
  | refl => exact .refl _
  | step _ ih => exact ih.trans (interp_succ L _)

/-- A run that ends keeps its end with more fuel. -/
theorem run_mono (L : Lib) {n m : ℕ} (h : n ≤ m) (source : List UInt8) :
    Below (run (interp L n) source) (run (interp L m) source) :=
  (Below.refl _).bind fun _ => below_exec (interp_mono L h) _

end Lua
end Rustrapper
