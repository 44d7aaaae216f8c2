/-
# Sending in lock step

A sender offers the items 1, 2, … one at a time, each as often as it likes, and
goes on once the current one has arrived. The channel loses, delays, duplicates
and reorders what was sent. A receiver that takes in no item twice has received
them in order and without a gap (`LockStep.Inv.inOrder`).
-/
import Mathlib

namespace Protocol

/-- The item on offer, the items ever sent, and the items that arrived, in order. -/
structure LockStep where
  current : ℕ
  flying : List ℕ
  arrived : List ℕ

namespace LockStep

/-- Nothing is sent yet. -/
def start : LockStep := ⟨1, [], []⟩

/-- One step of the sender or of the channel; an item arrives once. -/
inductive Step : LockStep → LockStep → Prop
  | send (s : LockStep) : Step s { s with flying := s.current :: s.flying }
  | advance (s : LockStep) (h : s.current ∈ s.arrived) : Step s { s with current := s.current + 1 }
  | arrive (s : LockStep) (i : ℕ) (hi : i ∈ s.flying) (h : i ∉ s.arrived) :
      Step s { s with arrived := s.arrived ++ [i] }

/-- The items arrived in order, and the sender is at most one item ahead. -/
structure Inv (s : LockStep) : Prop where
  inOrder : s.arrived = List.range' 1 s.arrived.length
  sent : ∀ i ∈ s.flying, 1 ≤ i ∧ i ≤ s.current
  positive : 1 ≤ s.current
  behind : s.arrived.length ≤ s.current
  ahead : s.current ≤ s.arrived.length + 1

namespace Inv

variable {s s' : LockStep}

theorem start : Inv start := by
  refine ⟨rfl, ?_, le_rfl, ?_, le_rfl⟩
  · simp [LockStep.start]
  · simp [LockStep.start]

theorem mem_arrived (h : Inv s) {i : ℕ} : i ∈ s.arrived ↔ 1 ≤ i ∧ i ≤ s.arrived.length := by
  rw [h.inOrder, List.mem_range'_1, List.length_range']
  omega

/-- What arrives for the first time is the item after the last. -/
theorem next (h : Inv s) {i : ℕ} (hi : i ∈ s.flying) (hn : i ∉ s.arrived) :
    i = s.arrived.length + 1 := by
  have hs := h.sent i hi
  have ha := h.ahead
  rw [h.mem_arrived] at hn
  omega

theorem step (h : Inv s) (hs : Step s s') : Inv s' := by
  rcases hs with ⟨⟩ | ⟨hc⟩ | ⟨i, hi, hn⟩
  · refine ⟨h.inOrder, ?_, h.positive, h.behind, h.ahead⟩
    intro i hi
    rcases List.mem_cons.mp hi with rfl | hi
    · exact ⟨h.positive, le_rfl⟩
    · exact h.sent i hi
  · have hle : s.current ≤ s.arrived.length := (h.mem_arrived.mp hc).2
    refine ⟨h.inOrder, ?_, Nat.le_add_left _ _, h.behind.trans (Nat.le_succ _), Nat.succ_le_succ hle⟩
    intro i hi
    have hb := h.sent i hi
    exact ⟨hb.1, hb.2.trans (Nat.le_succ _)⟩
  · have hi' : i = s.arrived.length + 1 := h.next hi hn
    have hb := h.sent i hi
    have ha := h.ahead
    have hlen : (s.arrived ++ [i]).length = s.arrived.length + 1 := by simp
    refine ⟨?_, h.sent, h.positive, ?_, ?_⟩
    · calc s.arrived ++ [i] = List.range' 1 s.arrived.length ++ [i] := by rw [← h.inOrder]
        _ = List.range' 1 (s.arrived.length + 1) := by
            rw [List.range'_concat, hi']
            simp [Nat.add_comm]
        _ = List.range' 1 (s.arrived ++ [i]).length := by rw [hlen]
    · show (s.arrived ++ [i]).length ≤ s.current
      omega
    · show s.current ≤ (s.arrived ++ [i]).length + 1
      omega

/-- **Every run** keeps the order. -/
theorem run (hr : Relation.ReflTransGen Step LockStep.start s) : Inv s := by
  induction hr with
  | refl => exact start
  | tail _ hs ih => exact ih.step hs

/-- Before numbers wrap at `m`, an arrived item (or none, item 0) with the number of the
current one is the current one. -/
theorem of_number (h : Inv s) {b m : ℕ} (hb : b = 0 ∨ b ∈ s.arrived) (hm : s.current < m)
    (hn : b % m = s.current % m) : s.current ∈ s.arrived := by
  have hp := h.positive
  have hbe := h.behind
  have hlt : b < m := by
    rcases hb with rfl | hb
    · omega
    · have := (h.mem_arrived.mp hb).2
      omega
  rw [Nat.mod_eq_of_lt hlt, Nat.mod_eq_of_lt hm] at hn
  rcases hb with rfl | hb
  · omega
  · rwa [← hn]

end Inv

end LockStep

end Protocol
