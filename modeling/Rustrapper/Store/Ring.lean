/-
# Queues in a ring of slots

Item `i` of a sequence is kept in slot `i % n`. As long as no more than `n`
items are waiting, the slots of the waiting items are pairwise different
(`slot_inj`), and putting or taking an item changes one slot of the occupied
ones (`occupied_put`, `occupied_take`).
-/
import Mathlib

namespace Store.Ring

variable {α : Type} {n : ℕ}

/-- Slot `j` is that of one of the items `r, …, s - 1`. -/
def Occupied (n r s j : ℕ) : Prop := ∃ i, r ≤ i ∧ i < s ∧ i % n = j

/-- Items `r` and later of `items` are in their slots. -/
def Holds (n : ℕ) (cell : ℕ → α) (items : List α) (r : ℕ) : Prop :=
  ∀ i a, r ≤ i → items[i]? = some a → cell (i % n) = a

/-- Two items less than `n` apart have different slots. -/
theorem slot_inj {i j r : ℕ} (hi : r ≤ i) (hj : r ≤ j) (hi' : i < r + n) (hj' : j < r + n)
    (h : i % n = j % n) : i = j := by
  have hmod : i ≡ j [MOD n] := h
  rcases le_total i j with hle | hle
  · have hdvd := (Nat.modEq_iff_dvd' hle).mp hmod
    have := Nat.eq_zero_of_dvd_of_lt hdvd (by omega)
    omega
  · have hdvd := (Nat.modEq_iff_dvd' hle).mp hmod.symm
    have := Nat.eq_zero_of_dvd_of_lt hdvd (by omega)
    omega

theorem not_occupied_self (n r j : ℕ) : ¬ Occupied n r r j := by
  rintro ⟨i, h1, h2, -⟩
  omega

theorem occupied_put {r s : ℕ} (h : r ≤ s) (j : ℕ) :
    Occupied n r (s + 1) j ↔ Occupied n r s j ∨ j = s % n := by
  constructor
  · rintro ⟨i, h1, h2, h3⟩
    rcases Nat.lt_succ_iff_lt_or_eq.mp h2 with h2 | rfl
    · exact .inl ⟨i, h1, h2, h3⟩
    · exact .inr h3.symm
  · rintro (⟨i, h1, h2, h3⟩ | rfl)
    · exact ⟨i, h1, by omega, h3⟩
    · exact ⟨s, h, by omega, rfl⟩

theorem occupied_take {r s : ℕ} (h : s ≤ r + n) (j : ℕ) :
    Occupied n (r + 1) s j ↔ Occupied n r s j ∧ (r < s → j ≠ r % n) := by
  constructor
  · rintro ⟨i, h1, h2, rfl⟩
    refine ⟨⟨i, by omega, h2, rfl⟩, fun _ he => ?_⟩
    have := slot_inj (n := n) (r := r) (by omega) le_rfl (by omega) (by omega) he
    omega
  · rintro ⟨⟨i, h1, h2, rfl⟩, hne⟩
    refine ⟨i, ?_, h2, rfl⟩
    rcases Nat.eq_or_lt_of_le h1 with rfl | h1
    · exact absurd rfl (hne h2)
    · exact h1

/-- The next item goes into its slot and the waiting ones stay in theirs. -/
theorem Holds.put {cell : ℕ → α} {items : List α} {r : ℕ} (h : Holds n cell items r)
    (hroom : items.length < r + n) (hr : r ≤ items.length) (a : α) :
    Holds n (Function.update cell (items.length % n) a) (items ++ [a]) r := by
  intro i b hi hb
  rcases Nat.lt_or_ge i items.length with hlt | hge
  · rw [List.getElem?_append_left hlt] at hb
    rw [Function.update_of_ne]
    · exact h i b hi hb
    · intro he
      have := slot_inj hi hr (by omega) hroom he
      omega
  · rw [List.getElem?_append_right hge] at hb
    have hi : i = items.length := by
      have := (List.getElem?_eq_some_iff.mp hb).1
      simp at this
      omega
    subst hi
    rw [Function.update_self]
    simpa using hb

theorem Holds.take {cell : ℕ → α} {items : List α} {r : ℕ} (h : Holds n cell items r) :
    Holds n cell items (r + 1) := fun i a hi ha => h i a (by omega) ha

end Store.Ring
