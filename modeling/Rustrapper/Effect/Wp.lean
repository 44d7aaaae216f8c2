/-
# Weakest preconditions

`Wp x K E s`: from `s`, `x` ends in a value and a state that `K` allows, or in
an error and a state that `E` allows. Along a sequence the precondition of the
second part is what the first has to reach (`wp_bind`).
-/
import Mathlib

namespace Effect

variable {ε σ α β : Type} {K : α → σ → Prop} {E : ε → σ → Prop} {x : EStateM ε σ α} {s : σ}

/-- The result is a value that `K` allows or an error that `E` allows. -/
def Post (K : α → σ → Prop) (E : ε → σ → Prop) : EStateM.Result ε σ α → Prop
  | .ok a s => K a s
  | .error e s => E e s

/-- The weakest precondition of `x` for `K` and `E`. -/
def Wp (x : EStateM ε σ α) (K : α → σ → Prop) (E : ε → σ → Prop) (s : σ) : Prop := Post K E (x s)

@[simp] theorem wp_pure (a : α) : Wp (pure a : EStateM ε σ α) K E s ↔ K a s := Iff.rfl

@[simp] theorem wp_throw (e : ε) : Wp (throw e : EStateM ε σ α) K E s ↔ E e s := Iff.rfl

@[simp] theorem wp_get {K : σ → σ → Prop} : Wp (get : EStateM ε σ σ) K E s ↔ K s s := Iff.rfl

@[simp] theorem wp_set {K : PUnit → σ → Prop} (t : σ) : Wp (set t : EStateM ε σ PUnit) K E s ↔ K ⟨⟩ t :=
  Iff.rfl

@[simp] theorem wp_modify {K : PUnit → σ → Prop} (f : σ → σ) :
    Wp (modify f : EStateM ε σ PUnit) K E s ↔ K ⟨⟩ (f s) := Iff.rfl

/-- **Sequences**: the first part reaches what the second needs. -/
@[simp] theorem wp_bind {K : β → σ → Prop} {f : α → EStateM ε σ β} :
    Wp (x >>= f) K E s ↔ Wp x (fun a => Wp (f a) K E) E s := by
  change Post K E (EStateM.bind x f s) ↔ Post _ _ (x s)
  unfold EStateM.bind
  cases x s with
  | ok a t => exact Iff.rfl
  | error e t => exact Iff.rfl

/-- An error of the first part ends the sequence. -/
theorem run_bind_stop {t : σ} {e : ε} (h : x s = .error e t) (f : α → EStateM ε σ β) :
    (x >>= f) s = .error e t := by
  change EStateM.bind x f s = _
  rw [EStateM.bind, h]

/-- What holds of the rest, whatever the first part ends in. -/
theorem Wp.after {K : β → σ → Prop} {f : α → EStateM ε σ β} (hf : ∀ a t, Wp (f a) K (fun _ _ => True) t) :
    Wp (x >>= f) K (fun _ _ => True) s := by
  rw [wp_bind]
  unfold Wp Post
  cases x s with
  | ok a t => exact hf a t
  | error e t => trivial

theorem wp_ite {c : Prop} [Decidable c] {y : EStateM ε σ α} :
    Wp (if c then x else y) K E s ↔ if c then Wp x K E s else Wp y K E s := by
  split_ifs <;> rfl

theorem Post.mono {K' : α → σ → Prop} {E' : ε → σ → Prop} {r : EStateM.Result ε σ α} (h : Post K E r)
    (hk : ∀ a s, K a s → K' a s) (he : ∀ e s, E e s → E' e s) : Post K' E' r := by
  cases r with
  | ok a t => exact hk a t h
  | error e t => exact he e t h

/-- Weaker postconditions. -/
theorem Wp.imp {K' : α → σ → Prop} {E' : ε → σ → Prop} (h : Wp x K E s) (hk : ∀ a s, K a s → K' a s)
    (he : ∀ e s, E e s → E' e s) : Wp x K' E' s := Post.mono h hk he

theorem Wp.mono {K' : α → σ → Prop} (h : Wp x K E s) (hk : ∀ a s, K a s → K' a s) : Wp x K' E s :=
  h.imp hk fun _ _ => id

end Effect
