/-
# Programs over operations

A program (`Cmd`) is a tree: it returns, performs an operation and goes on with
its answer, stops, or runs a part of itself and looks at how that ended
(`attempt`). What the operations do is given by a `Handler`; `Cmd.exec` runs a
program with one.

A property of the handlers' monads that holds of the operations and is kept by
sequencing and `attempt` holds of every program. `Relator.exec` says this for
two handlers and a relation between their results, which covers the invariants
of one handler (`Invariant.exec`), the simulation of one by another, and the
independence of a result from a part of the state.
-/
import Mathlib

namespace Effect

universe u v

/-- A program over the operations `Op`; `X` is what it may stop with, `E` the
part of it that `attempt` sees. -/
inductive Cmd (Op : Type → Type) (X E : Type) : Type → Type 1 where
  | pure {α : Type} (a : α) : Cmd Op X E α
  | op {α β : Type} (o : Op β) (k : β → Cmd Op X E α) : Cmd Op X E α
  | throw {α : Type} (x : X) : Cmd Op X E α
  | attempt {α β : Type} (p : Cmd Op X E β) (k : Except E β → Cmd Op X E α) : Cmd Op X E α

variable {Op : Type → Type} {X E : Type} {α β : Type}

/-! ### The monad -/

/-- Go on with `f` behind `p`. -/
def Cmd.bind {α β : Type} : Cmd Op X E α → (α → Cmd Op X E β) → Cmd Op X E β
  | .pure a, f => f a
  | .op o k, f => .op o fun b => (k b).bind f
  | .throw x, _ => .throw x
  | .attempt p k, f => .attempt p fun r => (k r).bind f

instance : Monad (Cmd Op X E) where
  pure := .pure
  bind := .bind

theorem Cmd.bind_pure' : ∀ p : Cmd Op X E α, p.bind .pure = p
  | .pure _ => rfl
  | .op o k => congrArg (Cmd.op o) (funext fun b => (k b).bind_pure')
  | .throw _ => rfl
  | .attempt p k => congrArg (Cmd.attempt p) (funext fun r => (k r).bind_pure')

theorem Cmd.bind_assoc' {γ : Type} (f : α → Cmd Op X E β) (g : β → Cmd Op X E γ) :
    ∀ p : Cmd Op X E α, (p.bind f).bind g = p.bind fun a => (f a).bind g
  | .pure _ => rfl
  | .op o k => congrArg (Cmd.op o) (funext fun b => (k b).bind_assoc' f g)
  | .throw _ => rfl
  | .attempt p k => congrArg (Cmd.attempt p) (funext fun r => (k r).bind_assoc' f g)

instance : LawfulMonad (Cmd Op X E) :=
  LawfulMonad.mk' _ Cmd.bind_pure' (fun _ _ => rfl) fun p f g => Cmd.bind_assoc' f g p

/-- Perform one operation. -/
def Cmd.perform (o : Op α) : Cmd Op X E α := .op o .pure

/-- Run `p` and return how it ended. -/
def Cmd.try (p : Cmd Op X E α) : Cmd Op X E (Except E α) := .attempt p .pure

/-! ### Handlers -/

/-- What the operations, stopping and `attempt` mean in a monad. -/
structure Handler (Op : Type → Type) (X E : Type) (M : Type → Type u) [Monad M] where
  op : {β : Type} → Op β → M β
  throw : {β : Type} → X → M β
  attempt : {β : Type} → M β → M (Except E β)
  throw_bind : ∀ {β γ : Type} (x : X) (f : β → M γ), throw x >>= f = throw x

variable {M : Type → Type u} [Monad M]

/-- Run a program. -/
def Cmd.exec (H : Handler Op X E M) {α : Type} : Cmd Op X E α → M α
  | .pure a => Pure.pure a
  | .op o k => H.op o >>= fun b => (k b).exec H
  | .throw x => H.throw x
  | .attempt p k => H.attempt (p.exec H) >>= fun r => (k r).exec H

section Equations
variable (H : Handler Op X E M)

@[simp] theorem exec_pure (a : α) : (Pure.pure a : Cmd Op X E α).exec H = Pure.pure a := rfl

@[simp] theorem exec_throw (x : X) : (Cmd.throw x : Cmd Op X E α).exec H = H.throw x := rfl

variable [LawfulMonad M]

@[simp] theorem exec_perform (o : Op α) : (Cmd.perform o : Cmd Op X E α).exec H = H.op o := by
  simp [Cmd.perform, Cmd.exec]

@[simp] theorem exec_try (p : Cmd Op X E α) : p.try.exec H = H.attempt (p.exec H) := by
  simp [Cmd.try, Cmd.exec]

/-- Running a sequence runs its parts in sequence. -/
theorem exec_bind' (f : α → Cmd Op X E β) :
    ∀ p : Cmd Op X E α, (p.bind f).exec H = p.exec H >>= fun a => (f a).exec H
  | .pure a => by simp [Cmd.bind, Cmd.exec]
  | .op o k => by
    simp only [Cmd.bind, Cmd.exec, bind_assoc]
    exact congrArg _ (funext fun b => exec_bind' f (k b))
  | .throw x => by simp [Cmd.bind, Cmd.exec, H.throw_bind]
  | .attempt p k => by
    simp only [Cmd.bind, Cmd.exec, bind_assoc]
    exact congrArg _ (funext fun r => exec_bind' f (k r))

@[simp] theorem exec_bind (p : Cmd Op X E α) (f : α → Cmd Op X E β) :
    (p >>= f).exec H = p.exec H >>= fun a => (f a).exec H := exec_bind' H f p

end Equations

/-! ### Properties of all programs -/

/-- A relation between the results of two handlers that the building blocks of
programs keep. -/
structure Relator {N : Type → Type v} [Monad N] (H : Handler Op X E M) (H' : Handler Op X E N)
    (Γ : {β : Type} → M β → N β → Prop) : Prop where
  pure : ∀ {β : Type} (b : β), Γ (Pure.pure b) (Pure.pure b)
  bind : ∀ {β γ : Type} {x : M β} {y : N β} {f : β → M γ} {g : β → N γ},
    Γ x y → (∀ b, Γ (f b) (g b)) → Γ (x >>= f) (y >>= g)
  op : ∀ {β : Type} (o : Op β), Γ (H.op o) (H'.op o)
  throw : ∀ {β : Type} (x : X), Γ (H.throw x : M β) (H'.throw x)
  attempt : ∀ {β : Type} {x : M β} {y : N β}, Γ x y → Γ (H.attempt x) (H'.attempt y)

/-- **Every program keeps what its building blocks keep.** -/
theorem Relator.exec {N : Type → Type v} [Monad N] {H : Handler Op X E M} {H' : Handler Op X E N}
    {Γ : {β : Type} → M β → N β → Prop} (h : Relator H H' Γ) {α : Type} :
    ∀ p : Cmd Op X E α, Γ (p.exec H) (p.exec H')
  | .pure a => h.pure a
  | .op o k => h.bind (h.op o) fun b => h.exec (k b)
  | .throw x => h.throw x
  | .attempt p k => h.bind (h.attempt (h.exec p)) fun r => h.exec (k r)

/-- A property of the results of a handler that the building blocks keep. -/
structure Invariant (H : Handler Op X E M) (P : {β : Type} → M β → Prop) : Prop where
  pure : ∀ {β : Type} (b : β), P (Pure.pure b)
  bind : ∀ {β γ : Type} {x : M β} {f : β → M γ}, P x → (∀ b, P (f b)) → P (x >>= f)
  op : ∀ {β : Type} (o : Op β), P (H.op o)
  throw : ∀ {β : Type} (x : X), P (H.throw x : M β)
  attempt : ∀ {β : Type} {x : M β}, P x → P (H.attempt x)

/-- **Every program has the properties its building blocks keep.** -/
theorem Invariant.exec {H : Handler Op X E M} {P : {β : Type} → M β → Prop} (h : Invariant H P)
    {α : Type} (p : Cmd Op X E α) : P (p.exec H) := by
  have hr : Relator H H fun x _ => P x :=
    ⟨h.pure, fun hx hf => h.bind hx hf, h.op, h.throw, fun hx => h.attempt hx⟩
  exact hr.exec p

end Effect
