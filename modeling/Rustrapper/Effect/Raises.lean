/-
# What a stateful computation stops with

`Raises x B`: when `x` fails, it does so with an error and in a state that `B`
allows; nothing is said of its results. A sequence raises what its parts raise,
the second part only behind results of the first.
-/
import Rustrapper.Effect.Ensures

namespace Effect

variable {ε σ α β : Type} {B C : ε → σ → Prop} {x y : EStateM ε σ α} {f : α → EStateM ε σ β}

/-- Every error of `x`, and the state it leaves, satisfy `B`. -/
def Raises (x : EStateM ε σ α) (B : ε → σ → Prop) : Prop := ∀ s e s', x s = .error e s' → B e s'

/-- An error of a sequence is one of its first part, or of the second behind a result of the first. -/
theorem run_bind_error {s s' : σ} {e : ε} (h : (x >>= f) s = .error e s') :
    x s = .error e s' ∨ ∃ a t, x s = .ok a t ∧ f a t = .error e s' := by
  change EStateM.bind x f s = _ at h
  unfold EStateM.bind at h
  cases hxs : x s with
  | ok a t =>
    rw [hxs] at h
    exact .inr ⟨a, t, rfl, h⟩
  | error e' t =>
    rw [hxs] at h
    cases h
    exact .inl rfl

theorem Raises.bind {Q : α → Prop} (hx : Raises x B) (hq : Ensures (fun _ => True) x fun a _ => Q a)
    (hf : ∀ a, Q a → Raises (f a) B) : Raises (x >>= f) B := by
  intro s e s' h
  rcases run_bind_error h with h | ⟨a, t, ha, hb⟩
  · exact hx s e s' h
  · exact hf a (hq s a t trivial ha) t e s' hb

/-- Nothing is used of the results of the first part. -/
theorem Raises.seq (hx : Raises x B) (hf : ∀ a, Raises (f a) B) : Raises (x >>= f) B :=
  hx.bind (fun _ _ _ _ _ => trivial) fun a (_ : True) => hf a

theorem Raises.mono (hx : Raises x B) (h : ∀ e s, B e s → C e s) : Raises x C :=
  fun s e s' he => h e s' (hx s e s' he)

theorem Raises.pure (a : α) : Raises (pure a : EStateM ε σ α) B := by
  intro s e s' h
  cases h

theorem Raises.throw {e : ε} (h : ∀ s, B e s) : Raises (throw e : EStateM ε σ α) B := by
  intro s e' s' h'
  cases h'
  exact h s

theorem Raises.cond {c : Prop} [Decidable c] (hx : c → Raises x B) (hy : ¬ c → Raises y B) :
    Raises (if c then x else y) B := by
  by_cases h : c
  · rw [if_pos h]
    exact hx h
  · rw [if_neg h]
    exact hy h

end Effect
