/-
# A row of a terminal

The row the cursor is in, as far as something has been printed in it. Printable
bytes overwrite and advance, a backspace moves left, a carriage return moves to
the first column, a newline begins a blank row. `Shows` is a row that shows a
prompt and a text and then only blanks; the ways in which a line editor keeps
it so are stated on it (`Shows.insert`, `shows_redraw_iff`).
-/
import Mathlib.Algebra.Order.Group.Nat
import Mathlib.Data.List.TakeDrop
import Mathlib.Tactic.Common

namespace Editor

/-- The byte prints a character. -/
def Prints (b : UInt8) : Prop := 0x20 ≤ b ∧ b ≠ 0x7f

instance (b : UInt8) : Decidable (Prints b) := inferInstanceAs (Decidable (_ ∧ _))

structure Row where
  cells : List UInt8
  col : ℕ
deriving DecidableEq

namespace Row

def blank : Row := ⟨[], 0⟩

/-- One byte on the terminal. -/
def put (r : Row) (b : UInt8) : Row :=
  if b = 8 then ⟨r.cells, r.col - 1⟩
  else if b = 13 then ⟨r.cells, 0⟩
  else if b = 10 then blank
  else if Prints b then ⟨r.cells.takeD r.col 32 ++ b :: r.cells.drop (r.col + 1), r.col + 1⟩
  else r

/-- The bytes one after the other. -/
def print (r : Row) (bs : List UInt8) : Row := bs.foldl put r

/-- The row shows the prompt and the text and then only blanks, with the cursor at `pos` in the text. -/
def Shows (r : Row) (prompt text : List UInt8) (pos : ℕ) : Prop :=
  r.col = prompt.length + pos ∧ ∃ k, r.cells = prompt ++ (text ++ List.replicate k 32)

theorem print_append (r : Row) (as bs : List UInt8) : r.print (as ++ bs) = (r.print as).print bs := List.foldl_append

theorem print_cons (r : Row) (b : UInt8) (bs : List UInt8) : r.print (b :: bs) = (r.put b).print bs := rfl

theorem put_newline (r : Row) : r.put 10 = blank := rfl

theorem put_return (r : Row) : r.put 13 = ⟨r.cells, 0⟩ := rfl

/-- Whatever is printed before a newline, the row behind it is blank. -/
theorem print_newline (r : Row) (bs : List UInt8) : r.print (bs ++ [10]) = blank := by
  rw [print_append]
  rfl

theorem print_backs (r : Row) (n : ℕ) : r.print (List.replicate n 8) = ⟨r.cells, r.col - n⟩ := by
  induction n generalizing r with
  | zero => rfl
  | succ n ih =>
    rw [List.replicate_succ, print_cons, ih, Nat.add_comm n 1, ← Nat.sub_sub]
    rfl

theorem put_split {b : UInt8} (hb : Prints b) (front rest : List UInt8) :
    (⟨front ++ rest, front.length⟩ : Row).put b = ⟨front ++ [b] ++ rest.drop 1, (front ++ [b]).length⟩ := by
  have h8 : b ≠ 8 := by rintro rfl; exact absurd hb (by decide)
  have h13 : b ≠ 13 := by rintro rfl; exact absurd hb (by decide)
  have h10 : b ≠ 10 := by rintro rfl; exact absurd hb (by decide)
  have hcol : front.length ≤ (front ++ rest).length := (List.prefix_append _ _).length_le
  rw [put, if_neg h8, if_neg h13, if_neg h10, if_pos hb]
  dsimp only
  rw [List.takeD_eq_take _ hcol, List.take_left, List.drop_length_add_append, List.length_append, List.append_assoc]
  rfl

/-- Text overwrites as much as it is long. -/
theorem print_split {bs : List UInt8} (hbs : ∀ b ∈ bs, Prints b) (front rest : List UInt8) :
    (⟨front ++ rest, front.length⟩ : Row).print bs = ⟨front ++ bs ++ rest.drop bs.length, (front ++ bs).length⟩ := by
  induction bs generalizing front rest with
  | nil => simp [print]
  | cons b bs ih =>
    rw [print_cons, put_split (hbs b List.mem_cons_self), ih (fun c hc => hbs c (List.mem_cons_of_mem b hc)),
      List.drop_drop, List.append_assoc front, List.singleton_append, List.length_cons, Nat.add_comm 1]

/-! ### A prompt and a line -/

variable {r : Row} {prompt text : List UInt8} {pos : ℕ}

theorem shows_prompt (hp : ∀ b ∈ prompt, Prints b) : (blank.print prompt).Shows prompt [] 0 := by
  have hprint := print_split hp [] []
  rw [blank]
  rw [List.nil_append, List.length_nil] at hprint
  rw [hprint]
  exact ⟨rfl, 0, by simp⟩

theorem mem_takeD {α : Type} {a c : α} {n : ℕ} {l : List α} (h : c ∈ l.takeD n a) : c ∈ l ∨ c = a := by
  induction n generalizing l with
  | zero => exact absurd h List.not_mem_nil
  | succ n ih =>
    rw [List.takeD_succ] at h
    cases l with
    | nil => exact (List.mem_cons.mp h).elim .inr fun h => .inr ((ih h).resolve_left List.not_mem_nil)
    | cons b l =>
      rcases List.mem_cons.mp h with rfl | h
      · exact .inl List.mem_cons_self
      · exact (ih h).imp_left (List.mem_cons_of_mem b)

theorem put_prints (hr : ∀ c ∈ r.cells, Prints c) (b : UInt8) : ∀ c ∈ (r.put b).cells, Prints c := by
  unfold put
  split_ifs with h8 h13 h10 hb
  · exact hr
  · exact hr
  · exact fun c hc => absurd hc List.not_mem_nil
  · intro c hc
    rcases List.mem_append.mp hc with hc | hc
    · rcases mem_takeD hc with hc | rfl
      · exact hr c hc
      · decide
    · rcases List.mem_cons.mp hc with rfl | hc
      · exact hb
      · exact hr c (List.mem_of_mem_drop hc)
  · exact hr

theorem print_prints (bs : List UInt8) (hr : ∀ c ∈ r.cells, Prints c) : ∀ c ∈ (r.print bs).cells, Prints c := by
  induction bs generalizing r with
  | nil => exact hr
  | cons b bs ih => exact ih (put_prints hr b)

/-- Nothing but what prints is ever shown. -/
theorem Shows.prints {bs : List UInt8} (h : (blank.print bs).Shows prompt text pos) : ∀ b ∈ prompt, Prints b := by
  obtain ⟨-, k, hcells⟩ := h
  intro b hb
  have hmem : b ∈ (blank.print bs).cells := hcells ▸ List.mem_append_left _ hb
  exact print_prints bs (fun c hc => absurd hc List.not_mem_nil) b hmem

/-- What is before the cursor, and what is behind it. -/
theorem shows_iff (hpos : pos ≤ text.length) : r.Shows prompt text pos ↔
    ∃ k, r = ⟨prompt ++ text.take pos ++ (text.drop pos ++ List.replicate k 32),
      (prompt ++ text.take pos).length⟩ := by
  have hcol : (prompt ++ text.take pos).length = prompt.length + pos := by
    rw [List.length_append, List.length_take, Nat.min_eq_left hpos]
  have hcells : ∀ k : ℕ, prompt ++ text.take pos ++ (text.drop pos ++ List.replicate k 32) =
      prompt ++ (text ++ List.replicate k 32) := by
    intro k
    rw [List.append_assoc, ← List.append_assoc (text.take pos), List.take_append_drop]
  constructor
  · rintro ⟨h1, k, h2⟩
    exact ⟨k, by rw [hcells, hcol, ← h1, ← h2]⟩
  · rintro ⟨k, rfl⟩
    exact ⟨hcol, k, hcells k⟩

theorem Shows.left (h : r.Shows prompt text pos) (hpos : 0 < pos) : (r.put 8).Shows prompt text (pos - 1) := by
  refine ⟨?_, h.2⟩
  have hcol := h.1
  show r.col - 1 = _
  omega

theorem Shows.right (h : r.Shows prompt text pos) (hpos : pos < text.length) (ht : ∀ b ∈ text, Prints b) :
    (r.print ((text.drop pos).take 1)).Shows prompt text (pos + 1) := by
  obtain ⟨k, rfl⟩ := (shows_iff hpos.le).mp h
  refine (shows_iff hpos).mpr ⟨k, ?_⟩
  have hone : (text.drop pos).take 1 = [text[pos]] := by rw [List.drop_eq_getElem_cons hpos]; rfl
  have hdrop : text.drop pos = text[pos] :: text.drop (pos + 1) := List.drop_eq_getElem_cons hpos
  rw [hone, print_split (fun b hb => ht b (List.mem_singleton.mp hb ▸ List.getElem_mem hpos)), hdrop,
    List.take_succ_eq_append_getElem hpos, List.append_assoc prompt]
  rfl

/-- **Text before the cursor**, with what is behind it printed again and the cursor taken back. -/
theorem Shows.insert (h : r.Shows prompt text pos) (hpos : pos ≤ text.length) {bs : List UInt8}
    (hbs : ∀ b ∈ bs, Prints b) (ht : ∀ b ∈ text, Prints b) :
    (r.print (bs ++ (text.drop pos ++ List.replicate (text.length - pos) 8))).Shows prompt
      (text.take pos ++ (bs ++ text.drop pos)) (pos + bs.length) := by
  obtain ⟨k, rfl⟩ := (shows_iff hpos).mp h
  have htail : ∀ b ∈ bs ++ text.drop pos, Prints b := by
    intro b hb
    rcases List.mem_append.mp hb with hb | hb
    · exact hbs b hb
    · exact ht b (List.mem_of_mem_drop hb)
  rw [← List.append_assoc bs, print_append, print_split htail, print_backs]
  constructor
  · simp only [List.length_append, List.length_take, List.length_drop]
    omega
  · refine ⟨k - bs.length, ?_⟩
    have hrest : (text.drop pos ++ List.replicate k 32).drop (bs ++ text.drop pos).length =
        List.replicate (k - bs.length) (32 : UInt8) := by
      rw [List.length_append, Nat.add_comm, List.drop_length_add_append, List.drop_replicate]
    dsimp only
    rw [hrest]
    simp only [List.append_assoc]

/-- The row is blanked as far as column `w` and drawn anew. -/
def redraw (prompt text : List UInt8) (pos w : ℕ) : List UInt8 :=
  13 :: (List.replicate w 32 ++ (13 :: (prompt ++ (text ++ List.replicate (text.length - pos) 8))))

theorem print_redraw (r : Row) (hp : ∀ b ∈ prompt, Prints b) (ht : ∀ b ∈ text, Prints b) (hpos : pos ≤ text.length)
    {w : ℕ} (hw : prompt.length + text.length ≤ w) : r.print (redraw prompt text pos w) =
      ⟨prompt ++ (text ++ (List.replicate (w - (prompt.length + text.length)) 32 ++ r.cells.drop w)),
        prompt.length + pos⟩ := by
  have hblanks : ∀ b ∈ List.replicate w (32 : UInt8), Prints b := by
    intro b hb
    rw [List.eq_of_mem_replicate hb]
    decide
  have hall : ∀ b ∈ prompt ++ text, Prints b := fun b hb => (List.mem_append.mp hb).elim (hp b) (ht b)
  have hfirst := print_split hblanks [] r.cells
  have hsecond := print_split hall [] (List.replicate w 32 ++ r.cells.drop w)
  rw [List.nil_append, List.length_nil, List.nil_append, List.length_replicate] at hfirst
  rw [List.nil_append, List.length_nil, List.nil_append] at hsecond
  rw [redraw, print_cons, put_return, print_append, hfirst, print_cons, put_return, ← List.append_assoc prompt,
    print_append, hsecond, print_backs]
  congr 1
  · rw [List.drop_append, List.length_append, List.drop_replicate, List.length_replicate, Nat.sub_eq_zero_of_le hw,
      List.drop_zero, List.append_assoc]
  · dsimp only
    rw [List.length_append]
    omega

/-- **A redraw shows the line** exactly if what it does not blank is blank. -/
theorem shows_redraw_iff (r : Row) (hp : ∀ b ∈ prompt, Prints b) (ht : ∀ b ∈ text, Prints b) (hpos : pos ≤ text.length)
    {w : ℕ} (hw : prompt.length + text.length ≤ w) :
    (r.print (redraw prompt text pos w)).Shows prompt text pos ↔ ∀ c ∈ r.cells.drop w, c = 32 := by
  rw [print_redraw r hp ht hpos hw]
  constructor
  · rintro ⟨-, k, hk⟩ c hc
    have htail := List.append_cancel_left (List.append_cancel_left hk)
    have hmem : c ∈ List.replicate k (32 : UInt8) := htail ▸ List.mem_append_right _ hc
    exact List.eq_of_mem_replicate hmem
  · intro hblank
    refine ⟨rfl, w - (prompt.length + text.length) + (r.cells.drop w).length, ?_⟩
    dsimp only
    rw [← List.replicate_append_replicate, ← List.eq_replicate_of_mem hblank]

/-- What a row shows beyond a column is blank exactly if prompt and text are blank there. -/
theorem Shows.drop_blank_iff (h : r.Shows prompt text pos) (w : ℕ) :
    (∀ c ∈ r.cells.drop w, c = 32) ↔ ∀ c ∈ (prompt ++ text).drop w, c = 32 := by
  obtain ⟨-, k, hcells⟩ := h
  rw [hcells, ← List.append_assoc, List.drop_append]
  constructor
  · exact fun hall c hc => hall c (List.mem_append_left _ hc)
  · intro hall c hc
    rcases List.mem_append.mp hc with hc | hc
    · exact hall c hc
    · exact List.eq_of_mem_replicate (List.mem_of_mem_drop hc)

end Row

end Editor
