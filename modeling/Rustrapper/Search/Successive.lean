/-
# Successive finds

A search that is started again behind each thing it finds (`successive`): at a
position up to `len`, a find is followed by those from the position it leaves,
which is behind the one it was found from.
-/
import Mathlib

namespace Search.Successive

variable {M : Type*} (find : ℕ → Option M) (behind : M → ℕ) (len : ℕ)

/-- What is found from a position on, with fuel. -/
def successiveFrom : ℕ → ℕ → List M
  | 0, _ => []
  | fuel + 1, pos => if pos ≤ len then (find pos).elim [] fun m => m :: successiveFrom fuel (behind m) else []

/-- What is found from a position on. -/
def successive (pos : ℕ) : List M := successiveFrom find behind len (len + 1 - pos) pos

variable {find behind len} (hbehind : ∀ {pos m}, pos ≤ len → find pos = some m → pos < behind m)

theorem successive_of_gt {pos : ℕ} (h : len < pos) : successive find behind len pos = [] := by
  rw [successive, show len + 1 - pos = 0 by omega]
  rfl

theorem successive_of_none {pos : ℕ} (h : find pos = none) : successive find behind len pos = [] := by
  rw [successive]
  cases len + 1 - pos with
  | zero => rfl
  | succ fuel => simp [successiveFrom, h]

include hbehind

/-- More fuel than there are positions makes no difference. -/
theorem successiveFrom_eq : ∀ {fuel pos : ℕ}, len + 1 - pos ≤ fuel →
    successiveFrom find behind len fuel pos = successive find behind len pos
  | 0, pos, h => (successive_of_gt (by omega)).symm
  | fuel + 1, pos, h => by
    by_cases hpos : pos ≤ len
    · cases hf : find pos with
      | none => rw [successive_of_none hf, successiveFrom, if_pos hpos, hf, Option.elim_none]
      | some m =>
        have hlt := hbehind hpos hf
        rw [successive, show len + 1 - pos = len - pos + 1 by omega, successiveFrom, successiveFrom, if_pos hpos, if_pos hpos,
          hf, Option.elim_some, Option.elim_some, successiveFrom_eq (by omega), successiveFrom_eq (by omega)]
    · rw [successive_of_gt (by omega), successiveFrom, if_neg hpos]

/-- A find comes before those behind it. -/
theorem successive_cons {pos : ℕ} {m : M} (hpos : pos ≤ len) (h : find pos = some m) :
    successive find behind len pos = m :: successive find behind len (behind m) := by
  have hlt := hbehind hpos h
  rw [successive, show len + 1 - pos = len - pos + 1 by omega, successiveFrom, if_pos hpos, h, Option.elim_some,
    successiveFrom_eq hbehind (by omega)]

theorem of_successive_eq_cons {pos : ℕ} {m : M} {ms : List M} (h : successive find behind len pos = m :: ms) :
    pos ≤ len ∧ find pos = some m ∧ ms = successive find behind len (behind m) := by
  by_cases hpos : pos ≤ len
  · cases hf : find pos with
    | none =>
      rw [successive_of_none hf] at h
      cases h
    | some m' =>
      rw [successive_cons hbehind hpos hf] at h
      obtain ⟨rfl, rfl⟩ := List.cons.inj h
      exact ⟨hpos, rfl, rfl⟩
  · rw [successive_of_gt (not_le.mp hpos)] at h
    cases h

/-- There are no more finds than positions. -/
theorem length_successive_le (pos : ℕ) : (successive find behind len pos).length ≤ len + 1 - pos := by
  induction hd : len + 1 - pos using Nat.strong_induction_on generalizing pos with
  | h d ih =>
    by_cases hpos : pos ≤ len
    · cases hf : find pos with
      | none => simp [successive_of_none hf]
      | some m =>
        have hlt := hbehind hpos hf
        have := ih (len + 1 - behind m) (by omega) (behind m) rfl
        rw [successive_cons hbehind hpos hf, List.length_cons]
        omega
    · simp [successive_of_gt (not_le.mp hpos)]

end Search.Successive
