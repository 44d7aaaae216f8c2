/-
# A text with a cursor

A zipper holds what is before the cursor, nearest first, and what is behind it.
The edits of a line are one constructor or one `match` each, and nothing but the
zipper has to be known of the line to perform them: `ofCursor` turns a text and a
position into one, and `ofCursor_insert`, `ofCursor_eraseIdx` and `ofCursor_pred`
say what the edits of text and position are on it.
-/
import Mathlib.Algebra.Order.Group.Nat
import Mathlib.Data.List.TakeDrop
import Mathlib.Tactic.Common

namespace Editor

variable {α : Type*}

@[ext]
structure Zipper (α : Type*) where
  before : List α
  behind : List α
deriving DecidableEq

namespace Zipper

/-- The whole text. -/
def text (z : Zipper α) : List α := z.before.reverse ++ z.behind

/-- Where the cursor is in it. -/
def pos (z : Zipper α) : ℕ := z.before.length

def empty : Zipper α := ⟨[], []⟩

/-- The text with the cursor at its end. -/
def ofText (as : List α) : Zipper α := ⟨as.reverse, []⟩

/-- The text with the cursor at a position. -/
def ofCursor (as : List α) (pos : ℕ) : Zipper α := ⟨(as.take pos).reverse, as.drop pos⟩

/-! ### The edits -/

/-- The text `as` is typed. -/
def insert (as : List α) (z : Zipper α) : Zipper α := ⟨as.reverse ++ z.before, z.behind⟩

/-- What is before the cursor goes. -/
def backspace (z : Zipper α) : Zipper α := ⟨z.before.tail, z.behind⟩

/-- What is behind the cursor goes. -/
def delete (z : Zipper α) : Zipper α := ⟨z.before, z.behind.tail⟩

def left (z : Zipper α) : Zipper α :=
  match z.before with
  | [] => z
  | a :: before => ⟨before, a :: z.behind⟩

def right (z : Zipper α) : Zipper α :=
  match z.behind with
  | [] => z
  | a :: behind => ⟨a :: z.before, behind⟩

def home (z : Zipper α) : Zipper α := ⟨[], z.text⟩

def toEnd (z : Zipper α) : Zipper α := ofText z.text

/-! ### Text and position -/

@[simp] theorem text_ofCursor (as : List α) (pos : ℕ) : (ofCursor as pos).text = as := by
  simp [ofCursor, text, List.take_append_drop]

theorem pos_ofCursor {as : List α} {pos : ℕ} (h : pos ≤ as.length) : (ofCursor as pos).pos = pos := by
  rw [Zipper.pos, ofCursor, List.length_reverse, List.length_take, Nat.min_eq_left h]

theorem ofCursor_length (as : List α) : ofCursor as as.length = ofText as := by
  rw [ofCursor, ofText, List.take_length, List.drop_length]

theorem ofCursor_zero (as : List α) (pos : ℕ) : ofCursor as 0 = (ofCursor as pos).home := by
  rw [home, text_ofCursor]
  rfl

/-! ### The edits of a text and a position -/

theorem ofCursor_insert (as bs : List α) {pos : ℕ} (h : pos ≤ as.length) :
    ofCursor (as.take pos ++ (bs ++ as.drop pos)) (pos + bs.length) = (ofCursor as pos).insert bs := by
  have hfront : (as.take pos ++ bs).length = pos + bs.length := by
    rw [List.length_append, List.length_take, Nat.min_eq_left h]
  rw [ofCursor, ← List.append_assoc, ← hfront, List.take_left, List.drop_left, List.reverse_append]
  rfl

theorem ofCursor_eraseIdx (as : List α) (pos : ℕ) :
    ofCursor (as.eraseIdx pos) pos = (ofCursor as pos).delete := by
  rcases Nat.lt_or_ge pos as.length with h | h
  · have hfront : (as.take pos).length = pos := by rw [List.length_take, Nat.min_eq_left h.le]
    rw [List.eraseIdx_eq_take_drop_succ, ofCursor, ofCursor, delete, List.tail_drop,
      List.take_append_of_le_length hfront.ge, List.take_of_length_le hfront.le]
    nth_rewrite 2 [← hfront]
    rw [List.drop_left]
  · rw [List.eraseIdx_of_length_le h, ofCursor, delete, List.tail_drop, List.drop_eq_nil_of_le h,
      List.drop_eq_nil_of_le (h.trans (Nat.le_succ _))]

theorem ofCursor_pred (as : List α) {pos : ℕ} (h : pos ≤ as.length) :
    ofCursor as (pos - 1) = (ofCursor as pos).left := by
  cases pos with
  | zero => simp [ofCursor, left]
  | succ pos =>
    have hlt : pos < as.length := h
    rw [Nat.add_sub_cancel, ofCursor, ofCursor, List.drop_eq_getElem_cons hlt, List.take_succ_eq_append_getElem hlt,
      List.reverse_append]
    rfl

theorem ofCursor_succ (as : List α) {pos : ℕ} (h : pos < as.length) :
    ofCursor as (pos + 1) = (ofCursor as pos).right := by
  rw [ofCursor, ofCursor, List.drop_eq_getElem_cons h, List.take_succ_eq_append_getElem h, List.reverse_append]
  rfl

theorem backspace_eq {z : Zipper α} (h : 0 < z.pos) : z.backspace = z.left.delete := by
  obtain ⟨_ | ⟨a, before⟩, behind⟩ := z
  · exact absurd h (Nat.lt_irrefl 0)
  · rfl

/-! ### Edits at the ends -/

theorem left_eq_self {z : Zipper α} (h : z.before = []) : z.left = z := by rw [left, h]

theorem right_eq_self {z : Zipper α} (h : z.behind = []) : z.right = z := by rw [right, h]

theorem backspace_eq_self {z : Zipper α} (h : z.before = []) : z.backspace = z := by
  rw [backspace, h, List.tail_nil, ← h]

theorem delete_eq_self {z : Zipper α} (h : z.behind = []) : z.delete = z := by
  rw [delete, h, List.tail_nil, ← h]

end Zipper

end Editor
