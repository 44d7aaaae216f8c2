/-
# Bytes at an offset

What a frame holds from an offset on (`Frame.Has`), and what a scanner reads
there: one rule for each kind of read. A buffer of a fixed size takes bytes at
an offset (`copyAt`); one write behind another is one write of both
(`putAt_putAt`).
-/
import Rustrapper.Codec.Scan

namespace Codec

/-! ### Reading -/

/-- The frame holds the bytes `bs` from `off` on. -/
def Frame.Has (f : Frame) (off : ℕ) (bs : List UInt8) : Prop :=
  off + bs.length ≤ f.len ∧ slice f.bytes off bs.length = bs

variable {f : Frame} {off n v : ℕ} {b : UInt8} {as bs : List UInt8}

theorem has_whole (bs : List UInt8) : (Frame.whole bs).Has 0 bs := ⟨by simp [Frame.whole], by simp [Frame.whole, slice]⟩

/-- A frame holds two strings behind each other when it holds each at its place. -/
theorem has_append : f.Has off (as ++ bs) ↔ f.Has off as ∧ f.Has (off + as.length) bs := by
  simp only [Frame.Has, slice, List.length_append, List.take_add, List.drop_drop]
  constructor
  · rintro ⟨hle, heq⟩
    have hlen : ((f.bytes.drop off).take as.length).length = as.length := by
      have := f.bounded
      rw [List.length_take, List.length_drop]
      omega
    obtain ⟨h1, h2⟩ := List.append_inj heq hlen
    exact ⟨⟨by omega, h1⟩, by omega, h2⟩
  · rintro ⟨⟨-, h1⟩, hle, h2⟩
    exact ⟨by omega, by rw [h1, h2]⟩

theorem Frame.Has.left (h : f.Has off (as ++ bs)) : f.Has off as := (has_append.mp h).1

theorem Frame.Has.right (h : f.Has off (as ++ bs)) : f.Has (off + as.length) bs := (has_append.mp h).2

theorem Frame.Has.tail (h : f.Has off (b :: bs)) : f.Has (off + 1) bs := ((@has_append f off [b] bs).mp h).2

theorem Frame.Has.le (h : f.Has off bs) : off + bs.length ≤ f.len := h.1

theorem Frame.Has.byte (h : f.Has off (b :: bs)) : f.byte off = .ok b := by
  obtain ⟨hle, heq⟩ := h
  rw [List.length_cons] at hle heq
  have hlt : off < f.len := by omega
  have hbound := hlt.trans_le f.bounded
  rw [Frame.byte, dif_pos hlt]
  rw [slice, List.drop_eq_getElem_cons hbound, List.take_succ_cons] at heq
  injection heq with heq
  rw [List.get_eq_getElem, heq]

theorem Frame.Has.bytesAt (h : f.Has off bs) : f.bytesAt off bs.length = .ok bs := by
  induction bs generalizing off with
  | nil => rfl
  | cons b bs ih =>
    have htail := ih h.tail
    simp only [List.length_cons, Frame.bytesAt, h.byte, htail]
    rfl

theorem Frame.Has.range (h : f.Has off bs) : f.range off (off + bs.length) = .ok bs := by
  obtain ⟨hle, heq⟩ := h
  rw [Frame.range, if_pos ⟨Nat.le_add_right _ _, hle⟩, Nat.add_sub_cancel_left, heq]

theorem Frame.Has.number (h : f.Has off (toBE n v)) (hv : v < 256 ^ n) : f.number off n = .ok v := by
  have hbytes := h.bytesAt
  rw [length_toBE] at hbytes
  rw [Frame.number, hbytes]
  simp [Functor.map, Except.map, Nat.mod_eq_of_lt hv]

theorem Frame.Has.expect (h : f.Has off bs) : f.expect off bs = .ok () := by
  induction bs generalizing off with
  | nil => rfl
  | cons b bs ih =>
    have hsame : rejectIf (b ≠ b) = .ok () := if_neg (not_not.mpr rfl)
    rw [Frame.expect, h.byte, ← ih h.tail]
    simp only [bind, Except.bind, hsame]

theorem length_slice_of_le (h : off + n ≤ f.len) : (slice f.bytes off n).length = n := by
  have := f.bounded
  rw [length_slice]
  omega

/-- A frame holds its own bytes. -/
theorem has_slice (h : off + n ≤ f.len) : f.Has off (slice f.bytes off n) := by
  rw [Frame.Has, length_slice_of_le h]
  exact ⟨h, rfl⟩

/-- What was read is there. -/
theorem has_of_bytesAt (hle : off + n ≤ f.len) (h : f.bytesAt off n = .ok bs) : f.Has off bs := by
  have hslice := (has_slice hle).bytesAt
  rw [length_slice_of_le hle, h] at hslice
  rw [Except.ok.inj hslice]
  exact has_slice hle

theorem has_of_range {j : ℕ} (h : f.range off j = .ok bs) : f.Has off bs := by
  unfold Frame.range at h
  by_cases hc : off ≤ j ∧ j ≤ f.len
  · rw [if_pos hc] at h
    rw [← Except.ok.inj h]
    exact has_slice (by omega)
  · rw [if_neg hc] at h
    cases h

/-- A whole string has itself only. -/
theorem eq_of_has_whole {as : List UInt8} (h : (Frame.whole as).Has 0 bs) (hlen : bs.length = as.length) : as = bs := by
  have heq := h.2
  rw [slice, List.drop_zero, hlen] at heq
  simpa [Frame.whole] using heq

theorem exists_number (h : off + n ≤ f.len) : ∃ v, f.number off n = .ok v := by
  have hbytes := (has_slice h).bytesAt
  rw [length_slice_of_le h] at hbytes
  exact ⟨_, by rw [Frame.number, hbytes]; rfl⟩

section
variable {α β : Type}

theorem ok_then (a : α) (k : α → Scan β) : (Except.ok a >>= k) = k a := rfl

theorem rejectIf_then {c : Prop} [Decidable c] {k : Unit → Scan β} (h : ¬ c) : (rejectIf c >>= k) = k () := by
  rw [rejectIf, if_neg h]
  rfl

end

/-! ### Writing -/

section
variable {n : ℕ}

/-- The buffer with `bs` from `off` on. -/
def putAt (buf : Vector UInt8 n) (off : ℕ) (bs : List UInt8) : Vector UInt8 n :=
  Vector.ofFn fun i => if off ≤ i then bs.getD (i - off) (buf.get i) else buf.get i

/-- `buf[off..off + bs.len()].copy_from_slice(bs)`. -/
def copyAt (buf : Vector UInt8 n) (off : ℕ) (bs : List UInt8) : Scan (Vector UInt8 n) :=
  if off + bs.length ≤ n then .ok (putAt buf off bs) else .error .outside

variable {buf : Vector UInt8 n}

theorem copyAt_ok (h : off + bs.length ≤ n) : copyAt buf off bs = .ok (putAt buf off bs) := if_pos h

theorem copyInto_ok (h : bs.length ≤ n) : copyInto buf bs = .ok (putAt buf 0 bs) := by
  rw [copyInto, if_pos h]
  congr 1

theorem store_ok (h : off < n) : store buf off b = .ok (putAt buf off [b]) := by
  rw [store, dif_pos h]
  congr 1
  ext i hi
  rw [Vector.getElem_set, putAt, Vector.getElem_ofFn]
  by_cases heq : off = i
  · simp [heq]
  · rw [if_neg heq]
    by_cases hle : off ≤ i
    · have hlen : [b].length ≤ i - off := by
        rw [List.length_singleton]
        omega
      rw [if_pos (show off ≤ (⟨i, hi⟩ : Fin n).val from hle), List.getD_eq_default _ _ hlen]
      rfl
    · rw [if_neg (show ¬ off ≤ (⟨i, hi⟩ : Fin n).val from hle)]
      rfl

/-- **One write behind another** is one write of both. -/
theorem putAt_putAt (buf : Vector UInt8 n) (off : ℕ) (as bs : List UInt8) :
    putAt (putAt buf off as) (off + as.length) bs = putAt buf off (as ++ bs) := by
  ext i hi
  simp only [putAt, Vector.getElem_ofFn, Vector.get_eq_getElem]
  by_cases h1 : off + as.length ≤ i
  · have h2 : off ≤ i := by omega
    have hlen : as.length ≤ i - off := by omega
    rw [if_pos h1, if_pos h2, if_pos h2, List.getD_append_right _ _ _ _ hlen, List.getD_eq_default as _ hlen,
      Nat.sub_add_eq]
  · rw [if_neg h1]
    by_cases h2 : off ≤ i
    · rw [if_pos h2, if_pos h2, List.getD_append _ _ _ _ (by omega)]
    · rw [if_neg h2, if_neg h2]

/-- A write over bytes written replaces them. -/
theorem putAt_over {cs : List UInt8} (buf : Vector UInt8 n) (h : as.length = bs.length) (pre : List UInt8) :
    putAt (putAt buf 0 (pre ++ (as ++ cs))) pre.length bs = putAt buf 0 (pre ++ (bs ++ cs)) := by
  ext i hi
  simp only [putAt, Vector.getElem_ofFn, Vector.get_eq_getElem, Nat.zero_le, if_true, Nat.sub_zero]
  by_cases h1 : pre.length ≤ i
  · rw [if_pos h1, List.getD_append_right _ _ _ _ h1, List.getD_append_right _ _ _ _ h1]
    by_cases h2 : i - pre.length < bs.length
    · rw [List.getD_append _ _ _ _ h2, List.getD_eq_getElem _ _ h2, List.getD_eq_getElem _ _ h2]
    · have hge := not_lt.mp h2
      rw [List.getD_eq_default bs _ hge, List.getD_append_right _ _ _ _ hge, List.getD_append_right _ _ _ _ (h ▸ hge), h]
  · have hlt := not_le.mp h1
    rw [if_neg h1, List.getD_append _ _ _ _ hlt, List.getD_append _ _ _ _ hlt]

theorem copyAt_singleton : copyAt buf off [b] = store buf off b := by
  by_cases h : off < n
  · rw [store_ok h, copyAt_ok (by simpa using h)]
  · rw [store, dif_neg h, copyAt, if_neg (by simpa using h)]

/-- Bytes are stored one after the other. -/
theorem copyAt_append :
    copyAt buf off (as ++ bs) = copyAt buf off as >>= fun buf => copyAt buf (off + as.length) bs := by
  have hlen := @List.length_append _ as bs
  by_cases h1 : off + as.length ≤ n
  · rw [copyAt_ok h1]
    change _ = copyAt (putAt buf off as) (off + as.length) bs
    rw [copyAt, copyAt, putAt_putAt, hlen, ← Nat.add_assoc]
  · rw [copyAt, copyAt, if_neg h1, if_neg (by omega)]
    rfl

theorem copyAt_cons {b' : UInt8} :
    copyAt buf off (b :: b' :: bs) = store buf off b >>= fun buf => copyAt buf (off + 1) (b' :: bs) := by
  rw [← copyAt_singleton]
  exact @copyAt_append off [b] (b' :: bs) n buf

theorem take_putAt (buf : Vector UInt8 n) (h : bs.length ≤ n) : (putAt buf 0 bs).toList.take bs.length = bs := by
  apply List.ext_getElem
  · rw [List.length_take, Vector.length_toList, min_eq_left h]
  · intro i h1 h2
    simp [putAt, h2]

/-- A buffer holds what was written to its start. -/
theorem has_putAt (h : bs.length ≤ n) : (Frame.whole (putAt buf 0 bs).toList).Has 0 bs := by
  refine ⟨by simpa [Frame.whole] using h, ?_⟩
  rw [slice, List.drop_zero]
  exact take_putAt buf h

/-! ### Writing in order -/

variable {c : ℕ} {α : Type} {k : Vector UInt8 n → Scan α}

theorem putAt_next (h : c = as.length) : putAt (putAt buf 0 as) c bs = putAt buf 0 (as ++ bs) := by
  have hput := putAt_putAt buf 0 as bs
  rwa [Nat.zero_add, ← h] at hput

/-- The next bytes behind those written. -/
theorem copy_next (h : c = as.length) (hroom : c + bs.length ≤ n) :
    (copyAt (putAt buf 0 as) c bs >>= k) = k (putAt buf 0 (as ++ bs)) := by
  rw [copyAt_ok hroom, putAt_next h, ok_then]

theorem store_next (h : c = as.length) (hroom : c < n) :
    (store (putAt buf 0 as) c b >>= k) = k (putAt buf 0 (as ++ [b])) := by
  rw [store_ok hroom, putAt_next h, ok_then]

/-- Bytes over those written. -/
theorem copy_over {pre cs : List UInt8} (h : c = pre.length) (hlen : as.length = bs.length) (hroom : c + bs.length ≤ n) :
    (copyAt (putAt buf 0 (pre ++ (as ++ cs))) c bs >>= k) = k (putAt buf 0 (pre ++ (bs ++ cs))) := by
  rw [copyAt_ok hroom, h, putAt_over buf hlen, ok_then]

end

end Codec
