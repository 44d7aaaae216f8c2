/-
# Two runs side by side

`Paired P x y Q`: from states related by `P`, what `x` yields `y` yields too, and
the states they leave are related by `Q`; nothing is said when `x` fails. It is
proved along the structure of two `do` blocks that read alike, one rule for each
construct.
-/
import Mathlib

namespace Effect

variable {ε σ α β : Type} {P : σ → σ → Prop} {Q : α → σ → σ → Prop} {R : β → σ → σ → Prop}
  {x y : EStateM ε σ α} {f g : α → EStateM ε σ β}

/-- From states related by `P`, `y` yields what `x` does, and `Q` relates what they leave. -/
def Paired (P : σ → σ → Prop) (x y : EStateM ε σ α) (Q : α → σ → σ → Prop) : Prop :=
  ∀ s t a s', P s t → x s = .ok a s' → ∃ t', y t = .ok a t' ∧ Q a s' t'

/-- `x` keeps the relation `P`. -/
abbrev Keeps (P : σ → σ → Prop) (x : EStateM ε σ α) : Prop := Paired P x x fun _ => P

theorem Paired.bind (hx : Paired P x y Q) (hf : ∀ a, Paired (Q a) (f a) (g a) R) :
    Paired P (x >>= f) (y >>= g) R := by
  intro s t b s' hs h
  change EStateM.bind x f s = _ at h
  unfold EStateM.bind at h
  cases hxs : x s with
  | error e s₁ =>
    rw [hxs] at h
    cases h
  | ok a s₁ =>
    rw [hxs] at h
    obtain ⟨t₁, hyt, hq⟩ := hx s t a s₁ hs hxs
    obtain ⟨t', hgt, hr⟩ := hf a s₁ t₁ b s' hq h
    refine ⟨t', ?_, hr⟩
    change EStateM.bind y g t = _
    rw [EStateM.bind, hyt]
    exact hgt

theorem Paired.mono {P' : σ → σ → Prop} {Q' : α → σ → σ → Prop} (hx : Paired P x y Q)
    (hp : ∀ s t, P' s t → P s t) (hq : ∀ a s t, Q a s t → Q' a s t) : Paired P' x y Q' := by
  intro s t a s' hs h
  obtain ⟨t', hy, hr⟩ := hx s t a s' (hp s t hs) h
  exact ⟨t', hy, hq a s' t' hr⟩

/-- Run on from two given states that are related. -/
theorem Paired.from (hx : Paired P x y Q) {s t : σ} (h : P s t) :
    Paired (fun s' t' => s' = s ∧ t' = t) x y Q := by
  refine hx.mono ?_ fun _ _ _ => id
  rintro s' t' ⟨rfl, rfl⟩
  exact h

theorem Paired.ret {a : α} (h : ∀ s t, P s t → Q a s t) : Paired P (pure a) (pure a : EStateM ε σ α) Q := by
  intro s t b s' hs hb
  cases hb
  exact ⟨t, rfl, h s t hs⟩

theorem Paired.pure (a : α) : Keeps P (pure a : EStateM ε σ α) := .ret fun _ _ => id

theorem Paired.throw {e : ε} : Paired P (throw e) y Q := by
  intro s t a s' _ h
  cases h

/-- Nothing behind an error runs. -/
theorem Paired.throw_bind {z : EStateM ε σ β} {e : ε} : Paired P (MonadExcept.throw e >>= f) z R := by
  intro s t b s' _ h
  cases h

/-- Read the states: what follows may use that they are the current ones. -/
theorem Paired.get {f g : σ → EStateM ε σ β}
    (h : ∀ s t, P s t → Paired (fun s' t' => s' = s ∧ t' = t) (f s) (g t) R) :
    Paired P (get >>= f) (get >>= g) R :=
  fun s t b s' hs hb => h s t hs s t b s' ⟨rfl, rfl⟩ hb

theorem Paired.set {u v : σ} {Q : PUnit → σ → σ → Prop} (h : ∀ s t, P s t → Q ⟨⟩ u v) :
    Paired P (set u) (set v : EStateM ε σ PUnit) Q := by
  intro s t a s' hs h'
  cases h'
  exact ⟨v, rfl, h s t hs⟩

theorem Paired.modify {u v : σ → σ} {Q : PUnit → σ → σ → Prop} (h : ∀ s t, P s t → Q ⟨⟩ (u s) (v t)) :
    Paired P (modify u) (modify v : EStateM ε σ PUnit) Q := by
  intro s t a s' hs h'
  cases h'
  exact ⟨v t, rfl, h s t hs⟩

theorem Paired.cond {c d : Prop} [Decidable c] [Decidable d] {x' y' : EStateM ε σ α} (hcd : c ↔ d)
    (hx : c → Paired P x y Q) (hy : ¬c → Paired P x' y' Q) :
    Paired P (if c then x else x') (if d then y else y') Q := by
  by_cases h : c
  · rw [if_pos h, if_pos (hcd.mp h)]
    exact hx h
  · rw [if_neg h, if_neg (mt hcd.mpr h)]
    exact hy h

theorem Paired.ite {c : Prop} [Decidable c] {x' y' : EStateM ε σ α} (hx : Paired P x y Q)
    (hy : Paired P x' y' Q) : Paired P (if c then x else x') (if c then y else y') Q :=
  .cond Iff.rfl (fun _ => hx) fun _ => hy

end Effect
