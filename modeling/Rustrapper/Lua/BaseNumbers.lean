/-
# Numbers in a base

`tonumber(e, base)` reads an optional sign and digits of the base, blanks around
them. `str_to_base` returns the number such a text stands for
(`strToBase_exact_iff`), with one exception: it keeps the magnitude below
`2 ^ 63` before it looks at the sign, and so refuses the smallest integer.
-/
import Rustrapper.Lua.Numbers

namespace Rustrapper
namespace Lua

/-! ### Numerals -/

/-- The bytes are digits of the base, one at least. -/
def DigitsIn (base : ℕ) (ds : List UInt8) : Prop := ds ≠ [] ∧ ∀ c ∈ ds, ∃ d, digitOf c = some d ∧ d < base

/-- The value of digits of a base behind the number `n`, the first digit being the highest. -/
def baseValueFrom (base : ℕ) (n : ℕ) (ds : List UInt8) : ℕ :=
  ds.foldl (fun n c => n * base + (digitOf c).getD 0) n

/-- The value of digits of a base. -/
def baseValue (base : ℕ) (ds : List UInt8) : ℕ := baseValueFrom base 0 ds

/-- The text stands for `v`: an optional sign and digits of the base, ASCII blanks around them. -/
inductive Numeral (base : ℕ) : List UInt8 → ℤ → Prop
  | plain {l ds r : List UInt8} (hl : ∀ c ∈ l, isAsciiBlank c) (hr : ∀ c ∈ r, isAsciiBlank c)
      (hds : DigitsIn base ds) : Numeral base (l ++ ds ++ r) (baseValue base ds)
  | plus {l ds r : List UInt8} (hl : ∀ c ∈ l, isAsciiBlank c) (hr : ∀ c ∈ r, isAsciiBlank c)
      (hds : DigitsIn base ds) : Numeral base (l ++ 43 :: ds ++ r) (baseValue base ds)
  | minus {l ds r : List UInt8} (hl : ∀ c ∈ l, isAsciiBlank c) (hr : ∀ c ∈ r, isAsciiBlank c)
      (hds : DigitsIn base ds) : Numeral base (l ++ 45 :: ds ++ r) (-baseValue base ds)

variable {base : ℕ} {b ds : List UInt8}

theorem baseValueFrom_cons {c : UInt8} {d : ℕ} (h : digitOf c = some d) (n : ℕ) :
    baseValueFrom base n (c :: ds) = baseValueFrom base (n * base + d) ds := by
  simp [baseValueFrom, h]

/-- More digits make the value no smaller. -/
theorem le_baseValueFrom (hb : 1 ≤ base) (n : ℕ) : n ≤ baseValueFrom base n ds := by
  induction ds generalizing n with
  | nil => exact le_rfl
  | cons c ds ih =>
    calc n ≤ n * base := Nat.le_mul_of_pos_right n hb
      _ ≤ n * base + (digitOf c).getD 0 := Nat.le_add_right _ _
      _ ≤ baseValueFrom base n (c :: ds) := ih _

/-- The loop reads digits of the base as long as their value stays below `2 ^ 63`. -/
theorem baseLoop_eq_some (hb : 1 ≤ base) {n v : ℕ} (hn : n < 2 ^ 63) : baseLoop base n ds = some v ↔
    (∀ c ∈ ds, ∃ d, digitOf c = some d ∧ d < base) ∧ v = baseValueFrom base n ds ∧ v < 2 ^ 63 := by
  induction ds generalizing n with
  | nil =>
    rw [baseLoop]
    constructor
    · intro h
      cases h
      exact ⟨by simp, rfl, hn⟩
    · rintro ⟨-, rfl, -⟩
      rfl
  | cons c ds ih =>
    rw [baseLoop]
    cases hd : digitOf c with
    | none => simp [hd]
    | some d =>
      rw [Option.bind_eq_bind, Option.bind_some, List.forall_mem_cons, baseValueFrom_cons hd, hd]
      by_cases hlt : d < base
      · rw [if_neg (not_le.mpr hlt)]
        by_cases hfit : n * base + d < 2 ^ 63
        · rw [if_pos hfit, ih hfit]
          simp [hlt]
        · -- a value beyond the limit stays there
          have hle := @le_baseValueFrom base ds hb (n * base + d)
          rw [if_neg hfit]
          refine iff_of_false (by simp) ?_
          rintro ⟨-, rfl, hv⟩
          omega
      · rw [if_pos (not_lt.mp hlt)]
        simp [hlt]

/-! ### Blanks around a text -/

theorem trimAscii_split (b : List UInt8) : ∃ l r, b = l ++ trimAscii b ++ r ∧ (∀ c ∈ l, isAsciiBlank c) ∧
    ∀ c ∈ r, isAsciiBlank c := by
  refine ⟨b.takeWhile isAsciiBlank, (b.dropWhile isAsciiBlank).rtakeWhile isAsciiBlank, ?_, ?_, ?_⟩
  · rw [trimAscii, List.append_assoc, List.rdropWhile, List.rtakeWhile, ← List.reverse_append,
      List.takeWhile_append_dropWhile, List.reverse_reverse, List.takeWhile_append_dropWhile]
  · intro c hc
    exact List.mem_takeWhile_imp hc
  · intro c hc
    exact List.mem_rtakeWhile_imp hc

theorem trimAscii_append {l m r : List UInt8} (hl : ∀ c ∈ l, isAsciiBlank c) (hr : ∀ c ∈ r, isAsciiBlank c)
    (hm : ∀ c ∈ m, isAsciiBlank c = false) (hne : m ≠ []) : trimAscii (l ++ m ++ r) = m := by
  have hfirst : (m ++ r).dropWhile isAsciiBlank = m ++ r := by
    obtain ⟨c, cs, rfl⟩ := List.exists_cons_of_ne_nil hne
    simp [hm c (by simp)]
  have hlast : m.rdropWhile isAsciiBlank = m := by
    rw [List.rdropWhile_eq_self_iff]
    intro hn
    simp [hm _ (List.getLast_mem hn)]
  rw [trimAscii, List.append_assoc, List.dropWhile_append_of_pos hl, hfirst, List.rdropWhile, List.reverse_append,
    List.dropWhile_append_of_pos (by simpa using hr)]
  exact hlast

theorem not_blank_of_digitOf {c : UInt8} {d : ℕ} (h : digitOf c = some d) :
    isAsciiBlank c = false ∧ c ≠ 43 ∧ c ≠ 45 := by
  unfold digitOf isDigit at h
  unfold isAsciiBlank
  grind

theorem signOf_digits (h : DigitsIn base ds) : signOf ds = (false, ds) := by
  obtain ⟨c, cs, rfl⟩ := List.exists_cons_of_ne_nil h.1
  obtain ⟨d, hd, -⟩ := h.2 c (by simp)
  obtain ⟨-, h43, h45⟩ := not_blank_of_digitOf hd
  unfold signOf
  split <;> simp_all

/-- A numeral is what the code looks at: the sign and the digits of the trimmed text. -/
theorem numeral_iff {v : ℤ} : Numeral base b v ↔ DigitsIn base (signOf (trimAscii b)).2 ∧
    v = if (signOf (trimAscii b)).1 then -(baseValue base (signOf (trimAscii b)).2 : ℤ)
      else baseValue base (signOf (trimAscii b)).2 := by
  have hblank : ∀ {ds : List UInt8}, DigitsIn base ds → ∀ c ∈ ds, isAsciiBlank c = false := fun h c hc =>
    let ⟨_, hd, _⟩ := h.2 c hc
    (not_blank_of_digitOf hd).1
  constructor
  · rintro (⟨hl, hr, hds⟩ | ⟨hl, hr, hds⟩ | ⟨hl, hr, hds⟩)
    · rw [trimAscii_append hl hr (hblank hds) hds.1, signOf_digits hds]
      exact ⟨hds, rfl⟩
    · rw [trimAscii_append hl hr (List.forall_mem_cons.mpr ⟨by decide, hblank hds⟩) (by simp)]
      exact ⟨hds, rfl⟩
    · rw [trimAscii_append hl hr (List.forall_mem_cons.mpr ⟨by decide, hblank hds⟩) (by simp)]
      exact ⟨hds, rfl⟩
  · rintro ⟨hds, rfl⟩
    obtain ⟨l, r, hb, hl, hr⟩ := trimAscii_split b
    generalize trimAscii b = t at hb hds
    subst hb
    unfold signOf at hds ⊢
    split at hds
    · exact .minus hl hr hds
    · exact .plus hl hr hds
    · exact .plain hl hr hds

/-! ### `str_to_base` -/

theorem strToBase_eq {neg : Bool} (h : signOf (trimAscii b) = (neg, ds)) (hne : ds ≠ []) : strToBase b base =
    (baseLoop base 0 ds).map fun v : ℕ => Int64.ofInt (if neg then -(v : ℤ) else v) := by
  rw [strToBase, h]
  dsimp only
  rw [if_neg hne]
  cases baseLoop base 0 ds <;> rfl

/-- **What `str_to_base` returns**: the number the text stands for, unless that is the smallest integer. -/
theorem strToBase_eq_some (hb : 1 ≤ base) (n : Int64) :
    strToBase b base = some n ↔ Numeral base b n.toInt ∧ n.toInt ≠ -2 ^ 63 := by
  have hlo := n.le_toInt
  have hhi := n.toInt_lt
  obtain ⟨⟨neg, ds⟩, hsign⟩ : ∃ p, signOf (trimAscii b) = p := ⟨_, rfl⟩
  rw [numeral_iff, hsign]
  dsimp only
  by_cases hne : ds = []
  · simp [strToBase, hsign, hne, DigitsIn]
  rw [strToBase_eq hsign hne, Option.map_eq_some_iff]
  simp only [baseLoop_eq_some hb (by norm_num : 0 < 2 ^ 63), DigitsIn, ne_eq, hne, not_false_eq_true, true_and]
  constructor
  · rintro ⟨v, ⟨hds, rfl, hv⟩, rfl⟩
    have hto : (Int64.ofInt (if neg then -(baseValue base ds : ℤ) else baseValue base ds)).toInt =
        if neg then -(baseValue base ds : ℤ) else baseValue base ds := by
      apply Int64.toInt_ofInt_of_le <;> split_ifs <;> unfold baseValue <;> omega
    refine ⟨⟨hds, hto⟩, ?_⟩
    rw [show baseValueFrom base 0 ds = baseValue base ds from rfl] at hv ⊢
    rw [hto]
    split_ifs <;> omega
  · rintro ⟨⟨hds, hval⟩, hmin⟩
    refine ⟨baseValue base ds, ⟨hds, rfl, ?_⟩, ?_⟩
    · split_ifs at hval <;> omega
    · rw [← hval, Int64.ofInt_toInt]

/-! ### The digits of an integer -/

theorem digitOf_of_digit {c : UInt8} (h : isDigit c = true) : digitOf c = some (c.toNat - 48) ∧ c.toNat - 48 < 10 := by
  refine ⟨if_pos h, ?_⟩
  rw [isDigit, Bool.and_eq_true, decide_eq_true_iff, decide_eq_true_iff] at h
  have : c.toNat ≤ 57 := UInt8.le_iff_toNat_le.mp h.2
  omega

theorem digitsIn_decimal (n : ℕ) : DigitsIn 10 (decimal n) :=
  ⟨decimal_ne_nil n, fun c hc => ⟨_, digitOf_of_digit (List.all_eq_true.mp (decimal_digits n) c hc)⟩⟩

theorem baseValue_decimal (n : ℕ) : baseValue 10 (decimal n) = n := by
  have hfold : ∀ (ds : List UInt8) (m : ℕ), ds.all isDigit = true →
      baseValueFrom 10 m ds = ds.foldl (fun n d => n * 10 + (d.toNat - 48)) m := by
    intro ds
    induction ds with
    | nil => exact fun _ _ => rfl
    | cons c ds ih =>
      intro m h
      rw [List.all_cons, Bool.and_eq_true] at h
      rw [baseValueFrom_cons (digitOf_of_digit h.1).1, ih _ h.2, List.foldl_cons]
  exact (hfold _ _ (decimal_digits n)).trans (decValue_decimal n)

/-- `itoa` writes the numeral of an integer. -/
theorem numeral_itoa (n : Int64) : Numeral 10 (itoa n) n.toInt := by
  have hlt := Int64.lt_iff_toInt_lt (x := n) (y := 0)
  rw [Int64.toInt_zero] at hlt
  have hdec := digitsIn_decimal n.toInt.natAbs
  rw [itoa, natDigits_eq_decimal]
  split_ifs with h
  · have hminus := Numeral.minus (l := []) (r := []) (by simp) (by simp) hdec
    have hneg := hlt.mp h
    have hval : -(n.toInt.natAbs : ℤ) = n.toInt := by omega
    rw [baseValue_decimal, hval] at hminus
    simpa using hminus
  · have hplain := Numeral.plain (l := []) (r := []) (by simp) (by simp) hdec
    have hpos := hlt.not.mp h
    have hval : (n.toInt.natAbs : ℤ) = n.toInt := by omega
    rw [baseValue_decimal, hval] at hplain
    simpa using hplain

/-- The text is read exactly: as the number it stands for, and refused when it stands for none that is an `i64`. -/
def ReadExactly (base : ℕ) (b : List UInt8) : Prop := ∀ n : Int64, strToBase b base = some n ↔ Numeral base b n.toInt

/-- **`str_to_base` is exact** on every text but those that stand for the smallest integer, and so it reads back what
`itoa` writes for every other one. -/
theorem strToBase_exact_iff (base : ℕ) (hb : 2 ≤ base) (_hbase : base ≤ 36) (b : List UInt8) (n : Int64) :
    (ReadExactly base b ↔ ¬ Numeral base b (-2 ^ 63)) ∧ (strToBase (itoa n) 10 = some n ↔ n ≠ Int64.minValue) := by
  have hmin : Int64.minValue.toInt = -2 ^ 63 := by decide
  constructor
  · constructor
    · intro h hnum
      rw [← hmin] at hnum
      exact ((strToBase_eq_some (by omega) _).mp ((h _).mpr hnum)).2 hmin
    · intro h n
      rw [strToBase_eq_some (by omega), and_iff_left_iff_imp]
      exact fun hnum heq => h (heq ▸ hnum)
  · rw [strToBase_eq_some (by norm_num), and_iff_right (numeral_itoa n), ← hmin, ne_eq, Int64.toInt_inj]

/-- A hexadecimal text with blanks and a sign. -/
theorem strToBase_exact_minus_ff : ReadExactly 16 (bytesOf " -fF\n") :=
  (strToBase_exact_iff 16 (by decide) (by decide) _ 0).1.mpr fun h => by
    rw [numeral_iff] at h
    exact absurd h.2 (by decide +kernel)

/-- The smallest integer is refused although its text is a numeral of it. -/
theorem smallest_refused : strToBase (itoa Int64.minValue) 10 = none ∧ ¬ ReadExactly 10 (itoa Int64.minValue) := by
  have hnone : strToBase (itoa Int64.minValue) 10 = none := by decide +kernel
  refine ⟨hnone, fun h => ?_⟩
  rw [(h Int64.minValue).mpr (numeral_itoa _)] at hnone
  cases hnone

end Lua
end Rustrapper
