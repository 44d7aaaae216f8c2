/-
# Text in packets

Decimal numbers in ASCII digits, strings up to a NUL, and settings of which the
last one counts.
-/
import Rustrapper.Codec.Layout

namespace Codec

/-! ### Decimal numbers -/

def isDecimal (b : UInt8) : Bool := 0x30 ≤ b && b ≤ 0x39

/-- The number in decimal digits behind `n`. -/
def decimalFrom (n : ℕ) (ds : List UInt8) : ℕ := ds.foldl (fun n b => n * 10 + (b.toNat - 0x30)) n

theorem le_decimalFrom (n : ℕ) (ds : List UInt8) : n ≤ decimalFrom n ds := by
  induction ds generalizing n with
  | nil => exact le_rfl
  | cons b bs ih => exact (by omega : n ≤ n * 10 + (b.toNat - 0x30)).trans (ih _)

theorem isDecimal_iff {b : UInt8} : isDecimal b = true ↔ 0x30 ≤ b ∧ b ≤ 0x39 := by
  rw [isDecimal, Bool.and_eq_true, decide_eq_true_iff, decide_eq_true_iff]

theorem minus_of_isDecimal {b : UInt8} (h : isDecimal b = true) : minus b.toNat 0x30 = .ok (b.toNat - 0x30) :=
  if_pos (UInt8.le_iff_toNat_le.mp (isDecimal_iff.mp h).1)

/-! ### Strings up to a NUL -/

/-- The bytes in front of the first NUL. -/
def cString (bs : List UInt8) : List UInt8 := bs.takeWhile (· ≠ 0)

/-! ### Parts between separators -/

/-- With one separator counted for each, the parts have one byte more than the text. -/
theorem sum_splitOn (a : UInt8) (bs : List UInt8) : ((bs.splitOn a).map fun p => p.length + 1).sum = bs.length + 1 := by
  induction bs with
  | nil => rfl
  | cons b bs ih =>
    rw [List.splitOn_cons_eq_if_modifyHead, List.length_cons]
    obtain ⟨p, ps, hparts⟩ := List.exists_cons_of_ne_nil (List.splitOn_ne_nil a bs)
    rw [hparts] at ih ⊢
    split_ifs
    · simp only [List.map_cons, List.sum_cons, List.length_nil] at ih ⊢
      omega
    · simp only [List.modifyHead_cons, List.map_cons, List.sum_cons, List.length_cons] at ih ⊢
      omega

/-- The parts that `a` ends, and the rest behind the last one unless it is empty. -/
def segments (a : UInt8) (bs : List UInt8) : List (List UInt8) :=
  if (bs.splitOn a).getLast? = some [] then (bs.splitOn a).dropLast else bs.splitOn a

@[simp] theorem segments_nil (a : UInt8) : segments a [] = [] := by simp [segments]

/-- The first segment, and those behind the byte that ends it. -/
theorem segments_of_ne_nil (a : UInt8) {bs : List UInt8} (h : bs ≠ []) : segments a bs =
    bs.takeWhile (· ≠ a) :: segments a (bs.drop ((bs.takeWhile (· ≠ a)).length + 1)) := by
  have hfree : a ∉ bs.takeWhile (· ≠ a) := fun hmem => by simpa using List.mem_takeWhile_imp hmem
  have hsplit := @List.takeWhile_append_dropWhile _ (· ≠ a) bs
  generalize hl : bs.takeWhile (· ≠ a) = l at hfree hsplit
  cases hrest : bs.dropWhile (· ≠ a) with
  | nil =>
    rw [hrest, List.append_nil] at hsplit
    subst hsplit
    rw [List.drop_of_length_le (Nat.le_succ _), segments_nil, segments, List.splitOn_eq_singleton hfree,
      if_neg (by simpa using h)]
  | cons b rest =>
    have hb : b = a := by
      have hhead := List.head?_dropWhile_not (· ≠ a) bs
      rw [hrest] at hhead
      simpa using hhead
    rw [hrest, hb] at hsplit
    have hdrop : bs.drop (l.length + 1) = rest := by
      rw [← hsplit, List.drop_append, List.drop_of_length_le (Nat.le_succ _), Nat.add_sub_cancel_left]
      rfl
    have hparts : bs.splitOn a = l :: rest.splitOn a := by
      rw [← hsplit, List.splitOn_append_cons_self, List.splitOn_eq_singleton hfree]
      rfl
    obtain ⟨p, ps, hp⟩ := List.exists_cons_of_ne_nil (List.splitOn_ne_nil a rest)
    rw [hdrop, segments, segments, hparts, hp, List.getLast?_cons_cons, List.dropLast_cons_cons]
    split_ifs <;> rfl

/-! ### Settings -/

/-- What the last of the settings says that says anything. -/
def lastGiven {α β : Type} (g : α → Option β) (xs : List α) : Option β := (xs.filterMap g).getLast?

/-- Settings applied one after the other leave what the last one says. -/
theorem foldl_lastGiven {α β : Type} (g : α → Option β) (xs : List α) (b : β) :
    xs.foldl (fun b x => (g x).getD b) b = (lastGiven g xs).getD b := by
  induction xs generalizing b with
  | nil => rfl
  | cons x xs ih =>
    rw [List.foldl_cons, ih, lastGiven, lastGiven, List.filterMap_cons]
    cases hg : g x with
    | none => rfl
    | some c =>
      dsimp only
      generalize xs.filterMap g = given
      cases given with
      | nil => rfl
      | cons d given => simp [List.getLast?_cons]

theorem exists_of_lastGiven {α β : Type} {g : α → Option β} {xs : List α} {b : β} (h : lastGiven g xs = some b) :
    ∃ x ∈ xs, g x = some b := List.mem_filterMap.mp (List.mem_of_getLast? h)

end Codec
