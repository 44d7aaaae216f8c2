/-
# What a program may do and return

Two properties of a program that are read off its tree, whatever its operations
answer: which operations it performs (`Cmd.Only`) and which results it can have
(`Cmd.Returns`). Handlers inherit them: a property that the permitted operations
keep holds of the program (`Cmd.Only.exec`).
-/
import Rustrapper.Effect.Cmd

namespace Effect

universe u v

variable {Op : Type → Type} {X E : Type} {α β : Type}

/-! ### Operations -/

/-- Every operation of the program satisfies `P`. -/
def Cmd.Only (P : {β : Type} → Op β → Prop) {α : Type} : Cmd Op X E α → Prop
  | .pure _ => True
  | .op o k => P o ∧ ∀ b, (k b).Only P
  | .throw _ => True
  | .attempt p k => p.Only P ∧ ∀ r, (k r).Only P

section Only
variable {P : {β : Type} → Op β → Prop}

theorem Cmd.Only.pure (a : α) : (Pure.pure a : Cmd Op X E α).Only P := trivial

theorem Cmd.Only.throw (x : X) : (Cmd.throw x : Cmd Op X E α).Only P := trivial

theorem Cmd.Only.perform {o : Op α} (h : P o) : (Cmd.perform o : Cmd Op X E α).Only P :=
  ⟨h, fun _ => trivial⟩

theorem Cmd.Only.bind {f : α → Cmd Op X E β} :
    ∀ {p : Cmd Op X E α}, p.Only P → (∀ a, (f a).Only P) → (p >>= f).Only P
  | .pure a, _, hf => hf a
  | .op _ k, hp, hf => ⟨hp.1, fun b => Cmd.Only.bind (p := k b) (hp.2 b) hf⟩
  | .throw _, _, _ => trivial
  | .attempt _ k, hp, hf => ⟨hp.1, fun r => Cmd.Only.bind (p := k r) (hp.2 r) hf⟩

theorem Cmd.Only.try {p : Cmd Op X E α} (h : p.Only P) : p.try.Only P := ⟨h, fun _ => trivial⟩

theorem Cmd.Only.ite {c : Prop} [Decidable c] {p q : Cmd Op X E α} (hp : p.Only P) (hq : q.Only P) :
    (if c then p else q).Only P := by
  by_cases h : c
  · rwa [if_pos h]
  · rwa [if_neg h]

/-- Handlers whose building blocks and whose permitted operations are related
relate the results of the program. -/
theorem Cmd.Only.exec {M : Type → Type u} [Monad M] {N : Type → Type v} [Monad N]
    {H : Handler Op X E M} {G : Handler Op X E N} {Γ : {β : Type} → M β → N β → Prop}
    (pure : ∀ {β : Type} (b : β), Γ (Pure.pure b) (Pure.pure b))
    (bind : ∀ {β γ : Type} {x : M β} {y : N β} {f : β → M γ} {g : β → N γ},
      Γ x y → (∀ b, Γ (f b) (g b)) → Γ (x >>= f) (y >>= g))
    (op : ∀ {β : Type} (o : Op β), P o → Γ (H.op o) (G.op o))
    (throw : ∀ {β : Type} (x : X), Γ (H.throw x : M β) (G.throw x))
    (attempt : ∀ {β : Type} {x : M β} {y : N β}, Γ x y → Γ (H.attempt x) (G.attempt y))
    {α : Type} : ∀ {p : Cmd Op X E α}, p.Only P → Γ (p.exec H) (p.exec G)
  | .pure a, _ => pure a
  | .op o k, h => bind (op o h.1) fun b =>
      Cmd.Only.exec pure bind op throw attempt (p := k b) (h.2 b)
  | .throw x, _ => throw x
  | .attempt q k, h => bind (attempt (Cmd.Only.exec pure bind op throw attempt (p := q) h.1))
      fun r => Cmd.Only.exec pure bind op throw attempt (p := k r) (h.2 r)

end Only

/-! ### Results -/

/-- Every result the program can have satisfies `Q`. -/
def Cmd.Returns {α : Type} (Q : α → Prop) : Cmd Op X E α → Prop
  | .pure a => Q a
  | .op _ k => ∀ b, (k b).Returns Q
  | .throw _ => True
  | .attempt _ k => ∀ r, (k r).Returns Q

section Returns
variable {Q : α → Prop}

theorem Cmd.Returns.pure {a : α} (h : Q a) : (Pure.pure a : Cmd Op X E α).Returns Q := h

theorem Cmd.Returns.throw (x : X) : (Cmd.throw x : Cmd Op X E α).Returns Q := trivial

theorem Cmd.Returns.bind {R : β → Prop} {f : β → Cmd Op X E α} :
    ∀ {p : Cmd Op X E β}, p.Returns R → (∀ b, R b → (f b).Returns Q) → (p >>= f).Returns Q
  | .pure b, hp, hf => hf b hp
  | .op _ k, hp, hf => fun b => Cmd.Returns.bind (p := k b) (hp b) hf
  | .throw _, _, _ => trivial
  | .attempt _ k, hp, hf => fun r => Cmd.Returns.bind (p := k r) (hp r) hf

/-- Whatever `p` returns, `f` returns what satisfies `Q`. -/
theorem Cmd.Returns.after {f : β → Cmd Op X E α} :
    ∀ {p : Cmd Op X E β}, (∀ b, (f b).Returns Q) → (p >>= f).Returns Q
  | .pure b, hf => hf b
  | .op _ k, hf => fun b => Cmd.Returns.after (p := k b) hf
  | .throw _, _ => trivial
  | .attempt _ k, hf => fun r => Cmd.Returns.after (p := k r) hf

theorem Cmd.Returns.ite {c : Prop} [Decidable c] {p q : Cmd Op X E α} (hp : p.Returns Q)
    (hq : q.Returns Q) : (if c then p else q).Returns Q := by
  by_cases h : c
  · rwa [if_pos h]
  · rwa [if_neg h]

theorem Cmd.Returns.mono {R : α → Prop} (hR : ∀ a, Q a → R a) :
    ∀ {p : Cmd Op X E α}, p.Returns Q → p.Returns R
  | .pure a, h => hR a h
  | .op _ k, h => fun b => Cmd.Returns.mono hR (p := k b) (h b)
  | .throw _, _ => trivial
  | .attempt _ k, h => fun r => Cmd.Returns.mono hR (p := k r) (h r)

/-- A result of a stateful handler's run is one the program can have. -/
theorem Cmd.Returns.result {ε σ : Type} {H : Handler Op X E (EStateM ε σ)}
    (throw : ∀ {β : Type} (x : X) (s : σ) (b : β) (s' : σ), (H.throw x : EStateM ε σ β) s ≠ .ok b s') :
    ∀ {p : Cmd Op X E α}, p.Returns Q → ∀ {s s' : σ} {a : α}, p.exec H s = .ok a s' → Q a
  | .pure a, h, s, s', b, hr => by
    cases hr
    exact h
  | .op o k, h, s, s', a, hr => by
    change EStateM.bind (H.op o) _ s = _ at hr
    rw [EStateM.bind] at hr
    cases ho : H.op o s with
    | ok b t =>
      rw [ho] at hr
      exact Cmd.Returns.result throw (p := k b) (h b) hr
    | error e t =>
      rw [ho] at hr
      cases hr
  | .throw x, _, s, s', a, hr => absurd hr (throw x s a s')
  | .attempt q k, h, s, s', a, hr => by
    change EStateM.bind (H.attempt (q.exec H)) _ s = _ at hr
    rw [EStateM.bind] at hr
    cases ho : H.attempt (q.exec H) s with
    | ok r t =>
      rw [ho] at hr
      exact Cmd.Returns.result throw (p := k r) (h r) hr
    | error e t =>
      rw [ho] at hr
      cases hr

end Returns

end Effect
