/-
# What is reached by a step relation

`AllReached next P c`: `P` holds of all that is reached from `c` in steps of
`next`, of `c` itself too. The rules follow a computation step by step: to the
next configuration where there is one (`allReached_next`), and to the end where
there is none (`allReached_last`).
-/
import Mathlib.Logic.Relation

namespace Effect

open Relation

variable {γ : Type} {next : γ → γ → Prop} {P : γ → Prop} {c c' : γ}

/-- `P` holds of all that is reached from `c`. -/
def AllReached (next : γ → γ → Prop) (P : γ → Prop) (c : γ) : Prop := ∀ d, ReflTransGen next c d → P d

/-- **One step**: `P` holds here, and of all that is reached from where a step leads. -/
theorem allReached_iff : AllReached next P c ↔ P c ∧ ∀ c', next c c' → AllReached next P c' := by
  constructor
  · exact fun h => ⟨h c .refl, fun c' hc d hd => h d (.head hc hd)⟩
  · rintro ⟨hc, hnext⟩ d hd
    rcases ReflTransGen.cases_head hd with rfl | ⟨c', hc', hd'⟩
    · exact hc
    · exact hnext c' hc' d hd'

/-- Where no step leads on. -/
theorem allReached_last (h : ∀ c', ¬ next c c') : AllReached next P c ↔ P c := by
  rw [allReached_iff, and_iff_left fun c' hc => absurd hc (h c')]

/-- Where a step leads to one configuration only. -/
theorem allReached_next (h : ∀ d, next c d ↔ d = c') : AllReached next P c ↔ P c ∧ AllReached next P c' := by
  rw [allReached_iff]
  simp only [h, forall_eq]

end Effect
