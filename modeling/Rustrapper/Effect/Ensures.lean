/-
# Partial correctness of stateful computations

`Ensures P x Q`: from a state with `P`, a result of `x` and the state it leaves
satisfy `Q`; nothing is said when `x` fails. `Maintains I x` is the case of an
invariant. Both are proved along the structure of a `do` block, one rule for
each construct.
-/
import Mathlib

namespace Effect

variable {ε σ α β : Type} {P : σ → Prop} {Q : α → σ → Prop} {R : β → σ → Prop}
  {x : EStateM ε σ α} {f : α → EStateM ε σ β}

/-- From a state with `P`, a result of `x` and the state it leaves satisfy `Q`. -/
def Ensures (P : σ → Prop) (x : EStateM ε σ α) (Q : α → σ → Prop) : Prop :=
  ∀ s a s', P s → x s = .ok a s' → Q a s'

/-- `x` keeps `I`. -/
abbrev Maintains (I : σ → Prop) (x : EStateM ε σ α) : Prop := Ensures I x fun _ => I

/-- `x` has no result from a state with `P`. -/
abbrev Fails (P : σ → Prop) (x : EStateM ε σ α) : Prop := Ensures P x fun _ _ => False

/-! ### Rules -/

theorem Ensures.bind (hx : Ensures P x Q) (hf : ∀ a, Ensures (Q a) (f a) R) :
    Ensures P (x >>= f) R := by
  intro s b s' hs h
  change EStateM.bind x f s = _ at h
  unfold EStateM.bind at h
  cases hxs : x s with
  | ok a t =>
    rw [hxs] at h
    exact hf a t b s' (hx s a t hs hxs) h
  | error e t =>
    rw [hxs] at h
    cases h

theorem Ensures.mono {P' : σ → Prop} {Q' : α → σ → Prop} (hx : Ensures P x Q)
    (hp : ∀ s, P' s → P s) (hq : ∀ a s, Q a s → Q' a s) : Ensures P' x Q' :=
  fun s a s' hs h => hq a s' (hx s a s' (hp s hs) h)

theorem Ensures.ret {a : α} (h : ∀ s, P s → Q a s) : Ensures P (pure a : EStateM ε σ α) Q := by
  intro s b s' hs hb
  cases hb
  exact h s hs

theorem Ensures.throw {e : ε} : Ensures P (throw e : EStateM ε σ α) Q := by
  intro s b s' _ hb
  cases hb

/-- Nothing behind an error runs. -/
theorem Ensures.throw_bind {e : ε} : Ensures P (MonadExcept.throw e >>= f) R := by
  intro s b s' _ hb
  cases hb

/-- Read the state: what follows may use that it is the current one. -/
theorem Ensures.get {g : σ → EStateM ε σ β} (h : ∀ s, P s → Ensures (· = s) (g s) R) :
    Ensures P (get >>= g) R :=
  fun s b s' hs hb => h s hs s b s' rfl hb

theorem Ensures.set {t : σ} {Q : PUnit → σ → Prop} (h : ∀ s, P s → Q ⟨⟩ t) :
    Ensures P (set t : EStateM ε σ PUnit) Q := by
  intro s b s' hs hb
  cases hb
  exact h s hs

theorem Ensures.modify {g : σ → σ} {Q : PUnit → σ → Prop} (h : ∀ s, P s → Q ⟨⟩ (g s)) :
    Ensures P (modify g : EStateM ε σ PUnit) Q := by
  intro s b s' hs hb
  cases hb
  exact h s hs

theorem Ensures.cond {c : Prop} [Decidable c] {y : EStateM ε σ α} (hx : c → Ensures P x Q)
    (hy : ¬c → Ensures P y Q) : Ensures P (if c then x else y) Q := by
  by_cases h : c
  · rw [if_pos h]
    exact hx h
  · rw [if_neg h]
    exact hy h

theorem Ensures.ite {c : Prop} [Decidable c] {y : EStateM ε σ α} (hx : Ensures P x Q)
    (hy : Ensures P y Q) : Ensures P (if c then x else y) Q :=
  .cond (fun _ => hx) fun _ => hy

theorem Ensures.pure (a : α) : Maintains P (pure a : EStateM ε σ α) := .ret fun _ => id

/-- A computation fails when its first part does. -/
theorem Fails.bind (hx : Fails P x) : Fails P (x >>= f) :=
  Ensures.bind hx fun _ _ _ _ h => h.elim

/-! ### Single runs -/

/-- Go on with the result of the first part. -/
theorem run_bind {s s' : σ} {a : α} (h : x s = .ok a s') (f : α → EStateM ε σ β) :
    (x >>= f) s = f a s' := by
  change EStateM.bind x f s = _
  rw [EStateM.bind, h]

/-- A sequence that has a result has one at its first part. -/
theorem run_bind_ok {s s' : σ} {b : β} :
    (x >>= f) s = .ok b s' ↔ ∃ a t, x s = .ok a t ∧ f a t = .ok b s' := by
  constructor
  · intro h
    cases hx : x s with
    | ok a t => exact ⟨a, t, rfl, by rwa [run_bind hx] at h⟩
    | error e t =>
      change EStateM.bind x f s = _ at h
      rw [EStateM.bind, hx] at h
      cases h
  · rintro ⟨a, t, hx, hf⟩
    rw [run_bind hx, hf]

/-- Go on with the state. -/
theorem run_get {s : σ} (g : σ → EStateM ε σ β) : (get >>= g) s = g s s := rfl

end Effect
