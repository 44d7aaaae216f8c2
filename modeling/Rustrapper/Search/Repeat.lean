/-
# Repeated pieces

A piece is a test on one element with a quantifier. On a list it is a step of
a backtracking search: from a position it may go over as many elements as its
quantifier admits, all of which pass the test. The greedy quantifiers prefer
the longer of two repetitions, the lazy one the shorter.
-/
import Rustrapper.Search.Backtrack

namespace Search.Repeat

open Backtrack

variable {α : Type*}

/-- How often a piece repeats: exactly once, at most once, any number of times,
at least once; `lazy` is any number of times, the fewer the better. -/
inductive Quant where
  | one | opt | star | plus | lazy
deriving DecidableEq

def Quant.Admits : Quant → ℕ → Prop
  | .one, n => n = 1
  | .opt, n => n ≤ 1
  | .plus, n => 1 ≤ n
  | _, _ => True

/-- Which of two counts is tried first. -/
def Quant.Prefers : Quant → ℕ → ℕ → Prop
  | .lazy, m, n => m < n
  | _, m, n => n < m

/-- The counts up to `most`, in order. -/
def Quant.counts : Quant → ℕ → List ℕ
  | .one, most => if 1 ≤ most then [1] else []
  | .opt, most => if 1 ≤ most then [1, 0] else [0]
  | .star, most => (List.range (most + 1)).reverse
  | .plus, most => (List.range' 1 most).reverse
  | .lazy, most => List.range (most + 1)

structure Piece (α : Type*) where
  test : α → Bool
  quant : Quant

/-! ### Runs -/

/-- The `n` elements from position `i` on are there and pass the test. -/
def Passes (test : α → Bool) (s : List α) (i n : ℕ) : Prop := ∀ k < n, ∃ x, s[i + k]? = some x ∧ test x = true

/-- How many elements from position `i` on pass the test, one after the other. -/
def run (test : α → Bool) (s : List α) (i : ℕ) : ℕ := ((s.drop i).takeWhile test).length

theorem le_takeWhile_iff (test : α → Bool) : ∀ (s : List α) (n : ℕ),
    n ≤ (s.takeWhile test).length ↔ ∀ k < n, ∃ x, s[k]? = some x ∧ test x = true
  | [], n => by
    cases n with
    | zero => simp
    | succ n => simpa using ⟨0, by omega⟩
  | x :: s, n => by
    cases n with
    | zero => simp
    | succ n =>
      rw [List.takeWhile_cons]
      by_cases hx : test x = true
      · rw [if_pos hx, List.length_cons, Nat.add_le_add_iff_right, le_takeWhile_iff test s n]
        constructor
        · rintro h (_ | k) hk
          · exact ⟨x, rfl, hx⟩
          · exact h k (by omega)
        · exact fun h k hk => h (k + 1) (by omega)
      · rw [if_neg hx]
        refine iff_of_false (by simp) fun h => ?_
        obtain ⟨y, hy, ht⟩ := h 0 (by omega)
        obtain rfl : x = y := by simpa using hy
        exact hx ht

theorem le_run_iff {test : α → Bool} {s : List α} {i n : ℕ} : n ≤ run test s i ↔ Passes test s i n := by
  rw [run, le_takeWhile_iff, Passes]
  simp only [List.getElem?_drop]

theorem run_of_passes {test : α → Bool} {s : List α} {i : ℕ} {x : α} (hx : s[i]? = some x) (ht : test x = true) :
    run test s i = run test s (i + 1) + 1 := by
  obtain ⟨hlt, rfl⟩ := List.getElem?_eq_some_iff.mp hx
  rw [run, List.drop_eq_getElem_cons hlt, List.takeWhile_cons, if_pos ht, List.length_cons, run]

theorem run_of_fails {test : α → Bool} {s : List α} {i : ℕ} (h : s[i]?.any test = false) : run test s i = 0 := by
  by_contra hne
  obtain ⟨x, hx, ht⟩ := le_run_iff.mp (Nat.pos_of_ne_zero hne) 0 Nat.one_pos
  rw [Nat.add_zero] at hx
  simp [hx, ht] at h

theorem run_le {test : α → Bool} {s : List α} {i : ℕ} : run test s i ≤ s.length - i := by
  rw [run, ← List.length_drop]
  exact (List.takeWhile_prefix test).length_le

theorem Passes.mono {test : α → Bool} {s : List α} {i m n : ℕ} (h : Passes test s i n) (hmn : m ≤ n) :
    Passes test s i m := fun k hk => h k (by omega)

/-! ### Pieces as steps -/

theorem Quant.mem_counts {q : Quant} {most n : ℕ} : n ∈ q.counts most ↔ q.Admits n ∧ n ≤ most := by
  cases q with
  | one =>
    simp only [Quant.counts, Quant.Admits]
    split_ifs <;> simp <;> omega
  | opt =>
    simp only [Quant.counts, Quant.Admits]
    split_ifs <;> simp <;> omega
  | star => simp [Quant.counts, Quant.Admits]
  | plus =>
    simp [Quant.counts, Quant.Admits]
    omega
  | lazy => simp [Quant.counts, Quant.Admits]

theorem Quant.counts_sorted (q : Quant) (most : ℕ) : (q.counts most).Pairwise q.Prefers := by
  cases q with
  | one =>
    simp only [Quant.counts]
    split_ifs <;> simp
  | opt =>
    simp only [Quant.counts]
    split_ifs <;> simp [Quant.Prefers]
  | star => exact List.pairwise_reverse.mpr List.pairwise_lt_range
  | plus => exact List.pairwise_reverse.mpr List.pairwise_lt_range'
  | lazy => exact List.pairwise_lt_range

theorem Quant.Prefers.asymm {q : Quant} {m n : ℕ} (h : q.Prefers m n) : ¬ q.Prefers n m := by
  cases q <;> simp only [Quant.Prefers] at h ⊢ <;> omega

/-- A piece as a step over a list. -/
def Piece.step (s : List α) (p : Piece α) : Step where
  Admits i n := p.quant.Admits n ∧ Passes p.test s i n
  Prefers := p.quant.Prefers
  lengths i := p.quant.counts (run p.test s i)
  mem_lengths := by
    intro i n
    rw [Quant.mem_counts, le_run_iff]
  sorted i := p.quant.counts_sorted _
  asymm := Quant.Prefers.asymm

end Search.Repeat
