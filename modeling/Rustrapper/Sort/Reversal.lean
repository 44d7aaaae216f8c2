/-
# Reversal in place

Two indices run towards each other and swap the elements they point at.
-/
import Mathlib.Data.List.Induction
import Mathlib.Tactic.Common

namespace Sort.Reversal

variable {α : Type*}

/-- Swap two elements; nothing happens when one of them is not there. -/
def swap (xs : List α) (a b : ℕ) : List α :=
  match xs[a]?, xs[b]? with
  | some x, some y => (xs.set a y).set b x
  | _, _ => xs

/-- Swap the first and the last element between `a` and `b`, and go on with those in between. -/
def reverseLoop (xs : List α) (a b : ℕ) : List α :=
  if a < b then reverseLoop (swap xs a (b - 1)) (a + 1) (b - 1) else xs
termination_by b - a

theorem swap_self (xs : List α) (a : ℕ) : swap xs a a = xs := by
  unfold swap
  cases h : xs[a]? with
  | none => rfl
  | some x =>
    obtain ⟨hlt, rfl⟩ := List.getElem?_eq_some_iff.mp h
    simp

theorem swap_ends (xs ys zs : List α) (x y : α) :
    swap (xs ++ (x :: (ys ++ [y]) ++ zs)) xs.length (xs.length + 1 + ys.length) = xs ++ (y :: (ys ++ [x]) ++ zs) := by
  have hx : (xs ++ (x :: (ys ++ [y]) ++ zs))[xs.length]? = some x := by simp
  have hy : (xs ++ (x :: (ys ++ [y]) ++ zs))[xs.length + 1 + ys.length]? = some y := by
    simp [Nat.add_assoc, Nat.add_comm 1]
  rw [swap, hx, hy]
  simp [Nat.add_assoc, Nat.add_comm 1]

/-- **The elements between the indices are reversed**, the others stay. -/
theorem reverseLoop_eq (xs ys zs : List α) :
    reverseLoop (xs ++ (ys ++ zs)) xs.length (xs.length + ys.length) = xs ++ (ys.reverse ++ zs) := by
  induction ys using List.bidirectionalRec generalizing xs zs with
  | nil =>
    rw [reverseLoop, if_neg (by simp)]
    rfl
  | singleton x =>
    rw [reverseLoop, if_pos (by simp), List.length_singleton, Nat.add_sub_cancel, swap_self, reverseLoop,
      if_neg (by omega)]
    rfl
  | cons_append x ys y ih =>
    have hswap := swap_ends xs ys zs x y
    have hrest := ih (xs ++ [y]) (x :: zs)
    have hlast : xs.length + (x :: (ys ++ [y])).length - 1 = xs.length + 1 + ys.length := by
      simp
      omega
    rw [reverseLoop, if_pos (by simp), hlast, hswap]
    simpa using hrest

theorem reverseLoop_whole (xs : List α) : reverseLoop xs 0 xs.length = xs.reverse := by
  have h := reverseLoop_eq [] xs []
  simpa using h

end Sort.Reversal
