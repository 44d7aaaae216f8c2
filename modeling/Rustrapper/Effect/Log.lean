/-
# Computations that write a log

A computation on a state can be told to write an event wherever something
happens, the newest event first. The log changes nothing: without it the
computation is the one it was (`Erases`). What holds of the state and the log
together is an invariant of the logged computation (`Stays`), proved for each
construct once.
-/
import Mathlib

namespace Effect

variable {X S E α β : Type}

/-- Computations on a state that also write events. -/
abbrev Logged (X S E : Type) := EStateM X (S × List E)

/-- A computation that writes no event. -/
def unlogged (x : EStateM X S α) : Logged X S E α := fun p =>
  match x p.1 with
  | .ok a s => .ok a (s, p.2)
  | .error e s => .error e (s, p.2)

/-- Write an event of the current state. -/
def record (e : S → E) : Logged X S E Unit := fun p => .ok () (p.1, e p.1 :: p.2)

/-- Run `x` and write the events of how it ended. -/
def recordEnd (e : Except X α → S → List E) (x : Logged X S E α) : Logged X S E α := fun p =>
  match x p with
  | .ok a q => .ok a (q.1, e (.ok a) q.1 ++ q.2)
  | .error f q => .error f (q.1, e (.error f) q.1 ++ q.2)

/-- The state and the log at the end, however it came to it. -/
def ending : EStateM.Result X (S × List E) α → S × List E
  | .ok _ p => p
  | .error _ p => p

/-- A result without the log. -/
def eraseLog : EStateM.Result X (S × List E) α → EStateM.Result X S α
  | .ok a p => .ok a p.1
  | .error e p => .error e p.1

theorem logged_bind_apply (x : Logged X S E α) (f : α → Logged X S E β) (p : S × List E) :
    (x >>= f) p = match x p with | .ok a q => f a q | .error e q => .error e q := by
  change EStateM.bind x f p = _
  rw [EStateM.bind]
  cases x p <;> rfl

theorem logged_bind_ok {x : Logged X S E α} {p q : S × List E} {a : α} (h : x p = .ok a q)
    (f : α → Logged X S E β) : (x >>= f) p = f a q := by rw [logged_bind_apply, h]

theorem logged_bind_error {x : Logged X S E α} {p q : S × List E} {e : X} (h : x p = .error e q)
    (f : α → Logged X S E β) : (x >>= f) p = .error e q := by rw [logged_bind_apply, h]

theorem logged_bind_eq_ok {x : Logged X S E α} {f : α → Logged X S E β} {p q : S × List E} {b : β}
    (h : (x >>= f) p = .ok b q) : ∃ a r, x p = .ok a r ∧ f a r = .ok b q := by
  rw [logged_bind_apply] at h
  cases hx : x p with
  | ok a r =>
    rw [hx] at h
    exact ⟨a, r, rfl, h⟩
  | error e r =>
    rw [hx] at h
    cases h

theorem unlogged_ok {x : EStateM X S α} {s s' : S} {a : α} (h : x s = .ok a s') (l : List E) :
    unlogged x (s, l) = .ok a (s', l) := by rw [unlogged, h]

theorem unlogged_error {x : EStateM X S α} {s s' : S} {e : X} (h : x s = .error e s') (l : List E) :
    unlogged x (s, l) = .error e (s', l) := by rw [unlogged, h]

theorem ending_unlogged (x : EStateM X S α) (p : S × List E) :
    (ending (unlogged x p)).2 = p.2 := by
  rw [unlogged]
  cases x p.1 <;> rfl

/-! ### The log changes nothing -/

/-- `x` does what `y` does, and writes events. -/
def Erases (x : Logged X S E α) (y : EStateM X S α) : Prop := ∀ p, eraseLog (x p) = y p.1

theorem Erases.unlogged (x : EStateM X S α) : Erases (unlogged x : Logged X S E α) x := by
  intro p
  rw [Effect.unlogged]
  cases x p.1 <;> rfl

theorem Erases.pure (a : α) : Erases (pure a : Logged X S E α) (pure a) := fun _ => rfl

theorem Erases.throw (e : X) : Erases (throw e : Logged X S E α) (throw e) := fun _ => rfl

theorem Erases.bind {x : Logged X S E α} {y : EStateM X S α} {f : α → Logged X S E β}
    {g : α → EStateM X S β} (h : Erases x y) (hf : ∀ a, Erases (f a) (g a)) :
    Erases (x >>= f) (y >>= g) := by
  intro p
  have hx := h p
  rw [logged_bind_apply]
  change _ = EStateM.bind y g p.1
  rw [EStateM.bind, ← hx]
  cases x p with
  | ok a q => exact hf a q
  | error e q => rfl

/-- Writing an event before `x`. -/
theorem Erases.record {x : Logged X S E α} {y : EStateM X S α} (h : Erases x y) (e : S → E) :
    Erases (record e >>= fun _ => x) y := fun p => h (p.1, e p.1 :: p.2)

theorem Erases.recordEnd {x : Logged X S E α} {y : EStateM X S α} (h : Erases x y)
    (e : Except X α → S → List E) : Erases (recordEnd e x) y := by
  intro p
  rw [← h p, Effect.recordEnd]
  cases x p <;> rfl

theorem Erases.ite {c : Prop} [Decidable c] {x x' : Logged X S E α} {y y' : EStateM X S α}
    (h : Erases x y) (h' : Erases x' y') : Erases (if c then x else x') (if c then y else y') := by
  by_cases hc : c
  · rw [if_pos hc, if_pos hc]
    exact h
  · rw [if_neg hc, if_neg hc]
    exact h'

/-- A result of the logged computation is one of the computation. -/
theorem Erases.ok {x : Logged X S E α} {y : EStateM X S α} (h : Erases x y) {p q : S × List E} {a : α}
    (hx : x p = .ok a q) : y p.1 = .ok a q.1 := by
  rw [← h p, hx]
  rfl

theorem Erases.error {x : Logged X S E α} {y : EStateM X S α} (h : Erases x y) {p q : S × List E}
    {e : X} (hx : x p = .error e q) : y p.1 = .error e q.1 := by
  rw [← h p, hx]
  rfl

/-! ### Invariants of the state and the log -/

/-- Where `I` holds before `x` it holds behind it, also when `x` fails. -/
def Stays (I : S × List E → Prop) (x : Logged X S E α) : Prop := ∀ p, I p → I (ending (x p))

variable {I : S × List E → Prop}

theorem Stays.pure (a : α) : Stays I (pure a : Logged X S E α) := fun _ h => h

theorem Stays.throw (e : X) : Stays I (throw e : Logged X S E α) := fun _ h => h

theorem Stays.bind {x : Logged X S E α} {f : α → Logged X S E β} (hx : Stays I x)
    (hf : ∀ a, Stays I (f a)) : Stays I (x >>= f) := by
  intro p hp
  have h := hx p hp
  rw [logged_bind_apply]
  cases hr : x p with
  | ok a q =>
    rw [hr] at h
    exact hf a q h
  | error e q =>
    rw [hr] at h
    exact h

theorem Stays.record {e : S → E} (h : ∀ s l, I (s, l) → I (s, e s :: l)) :
    Stays I (record e : Logged X S E Unit) := fun p hp => h p.1 p.2 hp

theorem Stays.unlogged {x : EStateM X S α} (h : ∀ s l a s', I (s, l) → x s = .ok a s' → I (s', l))
    (he : ∀ s l e s', I (s, l) → x s = .error e s' → I (s', l)) :
    Stays I (unlogged x : Logged X S E α) := by
  intro p hp
  cases hx : x p.1 with
  | ok a s =>
    rw [unlogged_ok hx p.2]
    exact h p.1 p.2 a s hp hx
  | error e s =>
    rw [unlogged_error hx p.2]
    exact he p.1 p.2 e s hp hx

/-- The log only grows. -/
def Grows (x : Logged X S E α) : Prop := ∀ p, p.2 <:+ (ending (x p)).2

theorem Grows.pure (a : α) : Grows (pure a : Logged X S E α) := fun p => List.suffix_refl p.2

theorem Grows.throw (e : X) : Grows (throw e : Logged X S E α) := fun p => List.suffix_refl p.2

theorem Grows.bind {x : Logged X S E α} {f : α → Logged X S E β} (hx : Grows x)
    (hf : ∀ a, Grows (f a)) : Grows (x >>= f) := by
  intro p
  have h := hx p
  rw [logged_bind_apply]
  cases hr : x p with
  | ok a q =>
    rw [hr] at h
    exact h.trans (hf a q)
  | error e q =>
    rw [hr] at h
    exact h

theorem Grows.unlogged (x : EStateM X S α) : Grows (unlogged x : Logged X S E α) := by
  intro p
  rw [ending_unlogged]

theorem Grows.record (e : S → E) : Grows (record e : Logged X S E Unit) :=
  fun p => List.suffix_cons (e p.1) p.2

theorem Grows.recordEnd {x : Logged X S E α} (hx : Grows x) (e : Except X α → S → List E) :
    Grows (recordEnd e x) := by
  intro p
  have h := hx p
  rw [Effect.recordEnd]
  cases hr : x p with
  | ok a q =>
    rw [hr] at h
    exact h.trans (List.suffix_append (e (.ok a) q.1) q.2)
  | error f q =>
    rw [hr] at h
    exact h.trans (List.suffix_append (e (.error f) q.1) q.2)

theorem Grows.ite {c : Prop} [Decidable c] {x y : Logged X S E α} (hx : Grows x) (hy : Grows y) :
    Grows (if c then x else y) := by
  by_cases h : c
  · rwa [if_pos h]
  · rwa [if_neg h]

end Effect
