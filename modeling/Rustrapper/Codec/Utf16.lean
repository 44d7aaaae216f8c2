/-
# UTF-16 text as bytes

Code units of 16 bits, the low byte of each first. A text ends at its first
unit of zero, which is looked for at even distances from the start
(`findNul16`): a byte of zero alone does not end it.
-/
import Rustrapper.Codec.Layout

namespace Codec

/-- The bytes of the units. -/
def utf16 (us : List UInt16) : List UInt8 := us.flatMap fun u => toLE 2 u.toNat

/-- The units that bytes stand for, two bytes each. -/
def units : List UInt8 → List UInt16
  | lo :: hi :: bs => UInt16.ofNat (ofLE [lo, hi]) :: units bs
  | _ => []

theorem utf16_cons (u : UInt16) (us : List UInt16) : utf16 (u :: us) = toLE 2 u.toNat ++ utf16 us := by
  simp [utf16]

@[simp] theorem length_utf16 : ∀ us : List UInt16, (utf16 us).length = 2 * us.length
  | [] => rfl
  | u :: us => by
    rw [utf16_cons, List.length_append, length_toLE, length_utf16 us, List.length_cons]
    omega

/-- Reading back the units of a text. -/
@[simp] theorem units_utf16 : ∀ us : List UInt16, units (utf16 us) = us
  | [] => rfl
  | u :: us => by
    have hu : UInt16.ofNat (ofLE (toLE 2 u.toNat)) = u := by
      rw [ofLE_toLE, Nat.mod_eq_of_lt (show u.toNat < 256 ^ 2 from u.toNat_lt)]
      exact UInt16.ofNat_toNat
    rw [utf16_cons]
    change UInt16.ofNat (ofLE (toLE 2 u.toNat)) :: units (utf16 us) = _
    rw [hu, units_utf16 us]

/-- Two bytes are a unit's. -/
theorem toLE_unit (lo hi : UInt8) : toLE 2 (UInt16.ofNat (ofLE [lo, hi])).toNat = [lo, hi] := by
  have hlo := lo.toNat_lt
  have hhi := hi.toNat_lt
  have hval : (UInt16.ofNat (ofLE [lo, hi])).toNat = lo.toNat + 256 * hi.toNat := by
    simp only [ofLE, UInt16.toNat_ofNat']
    omega
  have hmod : UInt8.ofNat (lo.toNat + 256 * hi.toNat) = lo := by
    apply UInt8.toNat_inj.mp
    rw [UInt8.toNat_ofNat']
    omega
  have hdiv : UInt8.ofNat ((lo.toNat + 256 * hi.toNat) / 256) = hi := by
    apply UInt8.toNat_inj.mp
    rw [UInt8.toNat_ofNat']
    omega
  rw [hval, toLE, toLE, toLE, hmod, hdiv]

/-- A unit is zero when both its bytes are. -/
theorem unit_eq_zero_iff (u : UInt16) : u = 0 ↔ toLE 2 u.toNat = [0, 0] := by
  constructor
  · rintro rfl
    rfl
  · intro h
    have hv := congrArg ofLE h
    rw [ofLE_toLE, Nat.mod_eq_of_lt (show u.toNat < 256 ^ 2 from u.toNat_lt)] at hv
    exact UInt16.toNat_inj.mp hv

/-! ### Where a text ends -/

/-- `buf[i] == 0 && buf[i + 1] == 0`. -/
def isNul16 (f : Frame) (i : ℕ) : Scan Bool := do
  let lo ← f.byte i
  if lo = 0 then do
    let hi ← f.byte (i + 1)
    .ok (hi = 0)
  else .ok false

/-- The first unit of zero from `i` on; none is a rejection. -/
def findNul16 (f : Frame) (i : ℕ) : Scan ℕ :=
  if h : i + 1 < f.len then do
    let found ← isNul16 f i
    if found then .ok i else findNul16 f (i + 2)
  else .error .rejected
termination_by f.len - i

variable {f : Frame} {i j : ℕ} {lo hi : UInt8} {bs : List UInt8} {us : List UInt16}

theorem isNul16_eq (h : f.Has i (lo :: hi :: bs)) : isNul16 f i = .ok (decide (lo = 0 ∧ hi = 0)) := by
  unfold isNul16
  rw [h.byte]
  change (if lo = 0 then _ else _) = _
  by_cases hlo : lo = 0
  · rw [if_pos hlo, h.tail.byte]
    simp [hlo, bind, Except.bind]
  · rw [if_neg hlo]
    simp [hlo]

/-- **A text is followed to its end.** -/
theorem findNul16_eq (hus : ∀ u ∈ us, u ≠ 0) (h : f.Has i (utf16 us ++ 0 :: 0 :: bs)) :
    findNul16 f i = .ok (i + 2 * us.length) := by
  induction us generalizing i with
  | nil =>
    have hle := h.le
    have hnul := isNul16_eq h
    simp only [utf16, List.flatMap_nil, List.nil_append, List.length_cons] at hle
    rw [findNul16, dif_pos (by omega), hnul]
    simp [bind, Except.bind]
  | cons u us ih =>
    have hle := h.le
    rw [utf16_cons, List.append_assoc] at h
    have hnul := isNul16_eq h
    have hu : ¬ (UInt8.ofNat u.toNat = 0 ∧ UInt8.ofNat (u.toNat / 256) = 0) := by
      rintro ⟨h1, h2⟩
      apply hus u (by simp)
      rw [unit_eq_zero_iff, toLE, toLE, toLE, h1, h2]
    have hright := h.right
    rw [length_toLE] at hright
    have hrest := ih (fun x hx => hus x (by simp [hx])) hright
    simp only [List.length_append, length_utf16, List.length_cons] at hle
    rw [findNul16, dif_pos (by omega), hnul]
    simp only [bind, Except.bind, hu, decide_false, Bool.false_eq_true, if_false, hrest, List.length_cons]
    congr 1
    omega

/-- What was followed is a text. -/
theorem findNul16_eq_ok (h : findNul16 f i = .ok j) :
    ∃ us, (∀ u ∈ us, u ≠ 0) ∧ j = i + 2 * us.length ∧ f.Has i (utf16 us ++ [0, 0]) := by
  induction i using findNul16.induct (f := f) with
  | case1 i hlt ih =>
    have hhas := @has_slice f i 2 (by omega)
    have hlen := @length_slice_of_le f i 2 (by omega)
    obtain ⟨lo, hi, hs⟩ := List.length_eq_two.mp hlen
    rw [hs] at hhas
    rw [findNul16, dif_pos hlt, isNul16_eq hhas] at h
    by_cases hz : lo = 0 ∧ hi = 0
    · simp only [bind, Except.bind, hz, and_self, decide_true, if_true, Except.ok.injEq] at h
      refine ⟨[], by simp, by simp [h], ?_⟩
      rw [hz.1, hz.2] at hhas
      exact hhas
    · simp only [bind, Except.bind, hz, decide_false, Bool.false_eq_true, if_false] at h
      obtain ⟨us, hus, rfl, hrest⟩ := ih h
      refine ⟨UInt16.ofNat (ofLE [lo, hi]) :: us, ?_, by simp; omega, ?_⟩
      · intro u hu
        rcases List.mem_cons.mp hu with rfl | hu
        · rw [Ne, unit_eq_zero_iff, toLE_unit]
          intro heq
          simp only [List.cons.injEq, and_true] at heq
          exact hz heq
        · exact hus u hu
      · rw [utf16_cons, toLE_unit, List.append_assoc, has_append]
        exact ⟨hhas, hrest⟩
  | case2 i hge =>
    rw [findNul16, dif_neg hge] at h
    cases h

theorem inside_findNul16 (f : Frame) (i : ℕ) : Inside (findNul16 f i) := by
  induction i using findNul16.induct (f := f) with
  | case1 i hlt ih =>
    unfold findNul16
    rw [dif_pos hlt]
    have hnul : Inside (isNul16 f i) := by
      refine (inside_byte (by omega)).bind fun lo _ => ?_
      by_cases hlo : lo = 0
      · rw [if_pos hlo]
        exact (inside_byte hlt).bind fun _ _ => .ok _
      · rw [if_neg hlo]
        exact .ok _
    refine hnul.bind fun found _ => ?_
    cases found with
    | true => exact .ok _
    | false => exact ih
  | case2 i hge =>
    unfold findNul16
    rw [dif_neg hge]
    simp [Inside]

end Codec
