/-
# Shifts within a buffer

The two loops that make and close a gap in a buffer: entries moved up from the
last one down, entries moved down from the first one up. Seen as the list of the
entries in use they are an insertion and a removal (`take_insertAt`,
`take_removeAt`).
-/
import Rustrapper.Codec.Layout

namespace Codec

variable {α : Type} {n : ℕ}

/-- `for i in (pos..pos + count).rev() { buf[i + k] = buf[i]; }` -/
def shiftUp (pos k : ℕ) : ℕ → Vector α n → Vector α n
  | 0, buf => buf
  | c + 1, buf =>
    shiftUp pos k c (match buf[pos + c]? with
      | some a => buf.setIfInBounds (pos + c + k) a
      | none => buf)

/-- `for i in pos..pos + count { buf[i] = buf[i + 1]; }` -/
def shiftDown : ℕ → ℕ → Vector α n → Vector α n
  | _, 0, buf => buf
  | pos, c + 1, buf =>
    shiftDown (pos + 1) c (match buf[pos + 1]? with
      | some a => buf.setIfInBounds pos a
      | none => buf)

theorem getElem?_shiftUp {pos k : ℕ} (hk : 0 < k) (c : ℕ) (buf : Vector α n) (hn : pos + c + k ≤ n) (j : ℕ) :
    (shiftUp pos k c buf)[j]? = if pos + k ≤ j ∧ j < pos + c + k then buf[j - k]? else buf[j]? := by
  induction c generalizing buf with
  | zero => rw [shiftUp, if_neg (by omega)]
  | succ c ih =>
    have hlt : pos + c < n := by omega
    have hsome : buf[pos + c]? = some buf[pos + c] := Vector.getElem?_eq_getElem hlt
    rw [shiftUp, hsome]
    dsimp only
    rw [ih _ (by omega), Vector.getElem?_setIfInBounds, Vector.getElem?_setIfInBounds]
    by_cases hin : pos + k ≤ j ∧ j < pos + c + k
    · rw [if_pos hin, if_neg (by omega), if_pos (by omega)]
    · rw [if_neg hin]
      by_cases heq : pos + c + k = j
      · rw [if_pos heq, if_pos (by omega), if_pos (by omega), ← hsome]
        congr 1
        omega
      · rw [if_neg heq, if_neg (by omega)]

theorem getElem?_shiftDown (c : ℕ) (pos : ℕ) (buf : Vector α n) (hn : pos + c < n) (j : ℕ) :
    (shiftDown pos c buf)[j]? = if pos ≤ j ∧ j < pos + c then buf[j + 1]? else buf[j]? := by
  induction c generalizing pos buf with
  | zero => rw [shiftDown, if_neg (by omega)]
  | succ c ih =>
    have hlt : pos + 1 < n := by omega
    have hsome : buf[pos + 1]? = some buf[pos + 1] := Vector.getElem?_eq_getElem hlt
    rw [shiftDown, hsome]
    dsimp only
    rw [ih (pos + 1) _ (by omega), Vector.getElem?_setIfInBounds, Vector.getElem?_setIfInBounds]
    by_cases hin : pos + 1 ≤ j ∧ j < pos + 1 + c
    · rw [if_pos hin, if_neg (by omega), if_pos (by omega)]
    · rw [if_neg hin]
      by_cases heq : pos = j
      · rw [if_pos heq, if_pos (by omega), if_pos (by omega), ← hsome, heq]
      · rw [if_neg heq, if_neg (by omega)]

/-! ### The entries in use -/

/-- A gap of `as.length` entries at `pos` among the first `len`, filled with `as`. -/
def insertAt (buf : Vector UInt8 n) (len pos : ℕ) (as : List UInt8) : Vector UInt8 n :=
  putAt (shiftUp pos as.length (len - pos) buf) pos as

/-- The entry at `pos` taken out of the first `len`. -/
def removeAt (buf : Vector UInt8 n) (len pos : ℕ) : Vector UInt8 n := shiftDown pos (len - 1 - pos) buf

theorem getElem?_putAt (buf : Vector UInt8 n) {off : ℕ} {as : List UInt8} (h : off + as.length ≤ n) (j : ℕ) :
    (putAt buf off as)[j]? = if off ≤ j ∧ j < off + as.length then as[j - off]? else buf[j]? := by
  by_cases hj : j < n
  · rw [Vector.getElem?_eq_getElem hj, Vector.getElem?_eq_getElem hj, putAt, Vector.getElem_ofFn]
    by_cases h1 : off ≤ j
    · by_cases h2 : j < off + as.length
      · rw [if_pos h1, if_pos ⟨h1, h2⟩]
        simp [List.getD_eq_getElem?_getD, List.getElem?_eq_getElem (show j - off < as.length by omega)]
      · rw [if_pos h1, if_neg (by omega)]
        simp [List.getD_eq_getElem?_getD, List.getElem?_eq_none (show as.length ≤ j - off by omega),
          Vector.get_eq_getElem]
    · rw [if_neg h1, if_neg (by omega)]
      rfl
  · rw [Vector.getElem?_eq_none (by omega), Vector.getElem?_eq_none (by omega), if_neg (by omega)]

/-- **The gap is an insertion.** -/
theorem take_insertAt (buf : Vector UInt8 n) {len pos : ℕ} {as : List UInt8} (has : as ≠ []) (hpos : pos ≤ len)
    (hn : len + as.length ≤ n) : (insertAt buf len pos as).toList.take (len + as.length) =
      (buf.toList.take len).take pos ++ (as ++ (buf.toList.take len).drop pos) := by
  have hk : 0 < as.length := List.length_pos_iff.mpr has
  have hfront : ((buf.toList.take len).take pos).length = pos := by
    rw [List.length_take, List.length_take, Vector.length_toList]
    omega
  apply List.ext_getElem?
  intro j
  rw [List.getElem?_take, Vector.getElem?_toList, insertAt, getElem?_putAt _ (by omega),
    getElem?_shiftUp hk _ _ (by omega), List.getElem?_append, hfront, List.getElem?_append, List.getElem?_drop,
    List.getElem?_take, List.getElem?_take, List.getElem?_take, Vector.getElem?_toList, Vector.getElem?_toList]
  by_cases h1 : j < pos
  · rw [if_pos (by omega), if_neg (by omega), if_neg (by omega), if_pos h1, if_pos h1, if_pos (by omega)]
  · rw [if_neg h1]
    by_cases h2 : j - pos < as.length
    · rw [if_pos (by omega), if_pos (by omega), if_pos h2]
    · rw [if_neg h2]
      by_cases h3 : j < len + as.length
      · rw [if_pos h3, if_neg (by omega), if_pos (by omega), if_pos (by omega)]
        congr 1
        omega
      · rw [if_neg h3, if_neg (by omega)]

/-- **Closing the gap is a removal.** -/
theorem take_removeAt (buf : Vector UInt8 n) {len pos : ℕ} (hpos : pos < len) (hn : len ≤ n) :
    (removeAt buf len pos).toList.take (len - 1) = (buf.toList.take len).eraseIdx pos := by
  apply List.ext_getElem?
  intro j
  rw [List.getElem?_take, List.getElem?_eraseIdx, Vector.getElem?_toList, removeAt,
    getElem?_shiftDown _ _ _ (by omega), List.getElem?_take, List.getElem?_take, Vector.getElem?_toList,
    Vector.getElem?_toList]
  split_ifs <;> first | rfl | omega

end Codec
