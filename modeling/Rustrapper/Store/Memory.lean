/-
# Byte-addressed memory

`peek` reads a range of a memory, `poke` writes one. What was written is read
back (`peek_poke`), and other ranges keep what they had (`peek_poke_apart`).
`peekMod` and `pokeMod` are for addresses that wrap around.
-/
import Mathlib

namespace Store.Memory

/-- A memory: a byte at every address. -/
abbrev Mem := ℕ → UInt8

/-- The `n` bytes from `base` on. -/
def peek (mem : Mem) (base n : ℕ) : List UInt8 := (List.range n).map fun i => mem (base + i)

/-- The memory with `bs` written from `base` on. -/
def poke (mem : Mem) (base : ℕ) (bs : List UInt8) : Mem := fun a =>
  if base ≤ a then (bs[a - base]?).getD (mem a) else mem a

@[simp] theorem length_peek (mem : Mem) (base n : ℕ) : (peek mem base n).length = n := by
  simp [peek]

@[simp] theorem peek_zero (mem : Mem) (base : ℕ) : peek mem base 0 = [] := rfl

@[simp] theorem poke_nil (mem : Mem) (base : ℕ) : poke mem base [] = mem := by
  funext a
  simp [poke]

theorem peek_poke (mem : Mem) (base : ℕ) (bs : List UInt8) :
    peek (poke mem base bs) base bs.length = bs := by
  apply List.ext_getElem
  · simp
  · intro i h1 h2
    simp [peek, poke, h2]

theorem poke_apart {mem : Mem} {base a : ℕ} {bs : List UInt8} (h : a < base ∨ base + bs.length ≤ a) :
    poke mem base bs a = mem a := by
  unfold poke
  by_cases hle : base ≤ a
  · rw [if_pos hle, List.getElem?_eq_none (by omega)]
    rfl
  · rw [if_neg hle]

theorem peek_poke_apart {mem : Mem} {base base' n : ℕ} {bs : List UInt8}
    (h : base' + n ≤ base ∨ base + bs.length ≤ base') :
    peek (poke mem base bs) base' n = peek mem base' n := by
  unfold peek
  apply List.map_congr_left
  intro i hi
  rw [List.mem_range] at hi
  exact poke_apart (by omega)

/-- A read depends on its range only. -/
theorem peek_congr {mem mem' : Mem} {base n : ℕ} (h : ∀ a, base ≤ a → a < base + n → mem a = mem' a) :
    peek mem base n = peek mem' base n := by
  unfold peek
  apply List.map_congr_left
  intro i hi
  rw [List.mem_range] at hi
  exact h _ (by omega) (by omega)

/-- What was written, byte by byte. -/
theorem poke_inside {mem : Mem} {base i : ℕ} {bs : List UInt8} (h : i < bs.length) :
    poke mem base bs (base + i) = bs.getD i 0 := by
  rw [poke, if_pos (Nat.le_add_right _ _), Nat.add_sub_cancel_left, List.getD_eq_getElem _ _ h,
    List.getElem?_eq_getElem h]
  rfl

/-! ### Addresses that wrap -/

/-- The `n` bytes from `base` on, with addresses below `m`. -/
def peekMod (m : ℕ) (mem : Mem) (base n : ℕ) : List UInt8 := (List.range n).map fun i => mem ((base + i) % m)

/-- The memory with `bs` written from `base` on, with addresses below `m`. -/
def pokeMod (m : ℕ) (mem : Mem) (base : ℕ) (bs : List UInt8) : Mem := fun a =>
  if a < m then (bs[(a + m - base % m) % m]?).getD (mem a) else mem a

variable {m : ℕ} {mem : Mem} {base n : ℕ} {bs : List UInt8}

theorem peekMod_eq (h : base + n ≤ m) : peekMod m mem base n = peek mem base n := by
  unfold peekMod peek
  apply List.map_congr_left
  intro i hi
  rw [List.mem_range] at hi
  rw [Nat.mod_eq_of_lt (by omega)]

theorem pokeMod_eq (h : base + bs.length ≤ m) : pokeMod m mem base bs = poke mem base bs := by
  funext a
  unfold pokeMod poke
  by_cases hnil : bs = []
  · simp [hnil]
  have hpos := List.length_pos_iff.mpr hnil
  by_cases ha : a < m
  · rw [if_pos ha, Nat.mod_eq_of_lt (show base < m by omega)]
    by_cases hle : base ≤ a
    · have hmod : (a + m - base) % m = a - base := by
        rw [show a + m - base = a - base + m by omega, Nat.add_mod_right, Nat.mod_eq_of_lt (by omega)]
      rw [if_pos hle, hmod]
    · have hmod : (a + m - base) % m = a + m - base := Nat.mod_eq_of_lt (by omega)
      rw [if_neg hle, hmod, List.getElem?_eq_none (by omega)]
      rfl
  · rw [if_neg ha]
    by_cases hle : base ≤ a
    · rw [if_pos hle, List.getElem?_eq_none (by omega)]
      rfl
    · rw [if_neg hle]

end Store.Memory
