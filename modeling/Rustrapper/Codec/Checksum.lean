/-
# The Internet checksum

The one's complement of the one's complement sum of 16-bit words. Folding the
carries of a sum into it keeps the sum modulo 65535, and the fold of anything
but zero is not zero (`fold_mod`, `fold_pos`). So a string that holds the
checksum of itself in an aligned place has the checksum zero
(`checksum_verifies`).
-/
import Rustrapper.Codec.Bytes

namespace Codec

/-- `while sum >> 16 != 0 { sum = (sum & 0xFFFF) + (sum >> 16); }`. -/
def fold (sum : ℕ) : ℕ := if sum >>> 16 ≠ 0 then fold ((sum &&& 0xFFFF) + sum >>> 16) else sum
termination_by sum
decreasing_by
  rename_i h
  rw [Nat.shiftRight_eq_div_pow] at h ⊢
  rw [Nat.and_two_pow_sub_one_eq_mod sum 16]
  omega

/-- The sum of the big-endian words; an odd byte at the end is a high one. -/
def words : List UInt8 → ℕ
  | hi :: lo :: bs => ofBE [hi, lo] + words bs
  | [hi] => hi.toNat * 256
  | [] => 0

theorem fold_of_lt {s : ℕ} (h : s < 65536) : fold s = s := by
  rw [fold, if_neg]
  rw [Nat.shiftRight_eq_div_pow]
  omega

theorem fold_of_le {s : ℕ} (h : 65536 ≤ s) : fold s = fold (s % 65536 + s / 65536) := by
  rw [fold, if_pos]
  · rw [Nat.shiftRight_eq_div_pow, Nat.and_two_pow_sub_one_eq_mod s 16]
  · rw [Nat.shiftRight_eq_div_pow]
    omega

/-- The fold of a sum: below 65536, the same modulo 65535, zero for zero only. -/
theorem fold_spec (s : ℕ) : fold s < 65536 ∧ fold s % 65535 = s % 65535 ∧ (fold s = 0 → s = 0) := by
  induction s using Nat.strong_induction_on with
  | _ s ih =>
    by_cases h : s < 65536
    · rw [fold_of_lt h]
      exact ⟨h, rfl, id⟩
    · obtain ⟨h1, h2, h3⟩ := ih (s % 65536 + s / 65536) (by omega)
      rw [fold_of_le (not_lt.mp h)]
      refine ⟨h1, ?_, ?_⟩
      · rw [h2]
        omega
      · intro h0
        have := h3 h0
        omega

theorem fold_lt (s : ℕ) : fold s < 65536 := (fold_spec s).1

theorem fold_mod (s : ℕ) : fold s % 65535 = s % 65535 := (fold_spec s).2.1

theorem fold_pos {s : ℕ} (h : 0 < s) : 0 < fold s := by
  apply Nat.pos_of_ne_zero
  intro h0
  have := (fold_spec s).2.2 h0
  omega

/-- **A sum and the complement of its fold** fold to all ones. -/
theorem fold_add_complement {s : ℕ} (h : 0 < s) : fold (s + (65535 - fold s)) = 65535 := by
  have hlt := fold_lt s
  have hmod := fold_mod s
  have hlt' := fold_lt (s + (65535 - fold s))
  have hmod' := fold_mod (s + (65535 - fold s))
  have hpos := @fold_pos (s + (65535 - fold s)) (by omega)
  omega

theorem words_append : ∀ {as : List UInt8} (bs : List UInt8), as.length % 2 = 0 → words (as ++ bs) = words as + words bs
  | [], bs, _ => by simp [words]
  | [_], _, h => by simp at h
  | hi :: lo :: as, bs, h => by
    have heven : as.length % 2 = 0 := by
      rw [List.length_cons, List.length_cons] at h
      omega
    rw [List.cons_append, List.cons_append, words, words, words_append bs heven]
    omega

theorem words_toBE (v : ℕ) : words (toBE 2 v) = v % 65536 := by
  have h := ofBE_toBE 2 v
  change ofBE (toBE 2 v) + words [] = _
  rw [h]
  rfl

theorem words_le : ∀ bs : List UInt8, words bs ≤ 65535 * ((bs.length + 1) / 2)
  | [] => by simp [words]
  | [b] => by
    have hb := b.toNat_lt
    simp only [words, List.length_cons, List.length_nil]
    omega
  | hi :: lo :: bs => by
    have ih := words_le bs
    have hhi := hi.toNat_lt
    have hlo := lo.toNat_lt
    simp only [words, ofBE, ofLE, List.reverse_cons, List.reverse_nil, List.nil_append, List.cons_append,
      List.length_cons]
    omega

/-- **The checksum verifies.** Words with the complement of their folded sum in
the place of a zero sum to all ones. -/
theorem checksum_verifies {as : List UInt8} (bs : List UInt8) (heven : as.length % 2 = 0)
    (hpos : 0 < words (as ++ (toBE 2 0 ++ bs))) :
    fold (words (as ++ (toBE 2 (65535 - fold (words (as ++ (toBE 2 0 ++ bs)))) ++ bs))) = 65535 := by
  have hsum : ∀ v, words (as ++ (toBE 2 v ++ bs)) = words as + words bs + v % 65536 := by
    intro v
    rw [words_append _ heven, words_append _ (by simp), words_toBE]
    omega
  rw [hsum, Nat.zero_mod, Nat.add_zero] at hpos
  rw [hsum, hsum, Nat.zero_mod, Nat.add_zero, Nat.mod_eq_of_lt (by omega)]
  exact fold_add_complement hpos

end Codec
