/-
# table.move

`table.move` copies between places of two slot arrays with `usize` arithmetic
and may raise a table's length past cells that nobody wrote, so a table is here
its whole array and the number of live slots. Where the cells at the places are
those of the keys, nothing is left between the live slots and the first place,
and a backward copy adds at most one slot, the loops paste the values in one go
(`Cells.paste`) and the call is a simultaneous assignment by key
(`move_by_key`).
-/
import Rustrapper.Lua.ListKeys

namespace Rustrapper
namespace Lua

/-! ### The source -/

/-- A table's slots: the array's cells, of which the first `len` are live. An index of `TABLE_SLOTS` or
more is out of the array. -/
structure Cells where
  cells : ℕ → Value × Value
  len : ℕ

/-- The live slots. -/
def Cells.live (a : Cells) : List (Value × Value) := (List.range a.len).map a.cells

/-- The value `table.move` takes from a place. -/
def Cells.read (a : Cells) (i : ℕ) : Value := if i < a.len then (a.cells i).2 else .nil

/-- What `table.move` does at a place: write the value of a live slot, or a slot behind them. -/
def Cells.write (a : Cells) (i : ℕ) (v : Value) : Cells :=
  if i ≥ a.len then
    if i < TABLE_SLOTS then
      { cells := Function.update a.cells i (.num (Int64.ofNat (i + 1)), v), len := i + 1 }
    else a
  else { a with cells := Function.update a.cells i ((a.cells i).1, v) }

/-- `base + k - 1` in `usize`. -/
def place (bits base k : ℕ) : ℕ := (base + k + (2 ^ bits - 1)) % 2 ^ bits

/-- One copy. -/
def copyCell (T : ℕ → Cells) (a1 a2 src dst : ℕ) : ℕ → Cells :=
  Function.update T a2 ((T a2).write dst ((T a1).read src))

/-- The forward loop: `n` more copies, from the `k`-th on. -/
def moveForward (bits a1 a2 f t : ℕ) : ℕ → ℕ → (ℕ → Cells) → ℕ → Cells
  | 0, _, T => T
  | n + 1, k, T => moveForward bits a1 a2 f t n (k + 1) (copyCell T a1 a2 (place bits f k) (place bits t k))

/-- The backward loop, which also looks at the key of the source's cell. -/
def moveBackward (bits a1 a2 f t : ℕ) : ℕ → (ℕ → Cells) → Except Exc (ℕ → Cells)
  | 0, T => .ok T
  | k + 1, T =>
    if place bits f k ≥ TABLE_SLOTS then .error (.fault .index)
    else moveBackward bits a1 a2 f t k (copyCell T a1 a2 (place bits f k) (place bits t k))

/-- The body of `table.move`. -/
def moveCells (bits : ℕ) (T : ℕ → Cells) (a1 a2 f e t : ℕ) : Except Exc (ℕ → Cells) :=
  if f > e then .ok T
  else if a1 = a2 ∧ t > f then moveBackward bits a1 a2 f t ((e - f + 1) % 2 ^ bits) T
  else .ok (moveForward bits a1 a2 f t ((e - f + 1) % 2 ^ bits) 0 T)

/-- A table argument. -/
def tableArg : Value → Except Exc ℕ
  | .table i => .ok i
  | _ => .error (.lua (.msg "table expected"))

/-- An integer argument `as usize`. -/
def usizeArg (bits : ℕ) (v : Value) : Except Exc ℕ :=
  match wholeOf v with
  | some n => .ok (asUsize bits n)
  | none => .error (.lua (.msg "bad argument (number expected, got string)"))

/-- `table.move(a1, f, e, t [, a2])`: the table it returns, and the tables. -/
def tableMove (bits : ℕ) (T : ℕ → Cells) : List Value → Except Exc (ℕ × (ℕ → Cells))
  | a1 :: f :: e :: t :: rest => do
    if rest.length > 1 then .error (.lua (.msg "table.move expects 4 or 5 arguments"))
    let a1 ← tableArg a1
    let f ← usizeArg bits f
    let e ← usizeArg bits e
    let t ← usizeArg bits t
    let a2 ← match rest with
      | [] => .ok a1
      | a2 :: _ => tableArg a2
    let T ← moveCells bits T a1 a2 f e t
    .ok (a2, T)
  | _ => .error (.lua (.msg "table.move expects 4 or 5 arguments"))

/-! ### What it is for -/

/-- `T' a2` has at `t + k` what `T a1` has at `f + k`, for `f + k` from `f` to `e`. -/
def AgreesByKey (T T' : ℕ → Cells) (a1 a2 : ℕ) (f e t : Int64) : Prop :=
  ∀ i j : Int64, f.toInt ≤ i.toInt → i.toInt ≤ e.toInt → j.toInt = t.toInt + (i.toInt - f.toInt) →
    slotGet (T' a2).live (.num j) = slotGet (T a1).live (.num i)

/-- The simultaneous assignment `a2[t + k] = a1[f + k]`, `f + k` from `f` to `e`; the places the loop
computes, if it runs, are in the array. -/
structure MovesByKey (bits : ℕ) (T T' : ℕ → Cells) (a1 a2 : ℕ) (f e t : Int64) : Prop where
  moved : AgreesByKey T T' a1 a2 f e t
  kept : ∀ j : Int64, ¬ (t.toInt ≤ j.toInt ∧ j.toInt ≤ t.toInt + (e.toInt - f.toInt)) →
    slotGet (T' a2).live (.num j) = slotGet (T a2).live (.num j)
  named : SameNamed (T a2).live (T' a2).live
  others : ∀ b, b ≠ a2 → T' b = T b
  inside : asUsize bits f ≤ asUsize bits e → 1 ≤ asUsize bits f ∧ asUsize bits e ≤ TABLE_SLOTS ∧
    1 ≤ asUsize bits t ∧ asUsize bits t + (asUsize bits e - asUsize bits f) ≤ TABLE_SLOTS

/-- A call raises an error, or it is the assignment. -/
def MoveRight (bits : ℕ) (T : ℕ → Cells) (a1 a2 : ℕ) (f e t : Int64) : Except Exc (ℕ × (ℕ → Cells)) → Prop
  | .error (.lua _) => True
  | .error _ => False
  | .ok p => p.1 = a2 ∧ MovesByKey bits T p.2 a1 a2 f e t

/-- The live slots at the places `lo .. hi - 1` have the keys of these places, and no others do. -/
structure Cells.Aligned (a : Cells) (lo hi : ℕ) : Prop where
  own : ∀ p, lo ≤ p → p < hi → p < a.len → KeyOf (a.cells p).1 (some p)
  only : ∀ p, lo ≤ p → p < hi → ∀ i, i < a.len → i ≠ p → valEq (a.cells i).1 (.num (Int64.ofNat (p + 1))) = false

/-! ### Reading by key -/

section Reading
variable {l l' : List (Value × Value)} {k : Value}

/-- The value of a key that no other place has. -/
theorem slotGet_of_unique {p : ℕ} (hne : ∀ i q, l[i]? = some q → i ≠ p → valEq q.1 k = false)
    (heq : ∀ q, l[p]? = some q → valEq q.1 k = true) : slotGet l k = ((l[p]?).map Prod.snd).getD .nil := by
  induction l generalizing p with
  | nil => rfl
  | cons q l ih =>
    rw [slotGet_cons]
    cases p with
    | zero => rw [if_pos (heq q rfl)]; rfl
    | succ p =>
      rw [hne 0 q rfl (Nat.succ_ne_zero p).symm, if_neg Bool.false_ne_true]
      exact ih (fun i q' hi hn => hne (i + 1) q' hi (by omega)) fun q' hq => heq q' hq

/-- Slots with the same entries for a key, at the same places, have the same value for it. -/
theorem slotGet_congr
    (h : ∀ (i : ℕ) (q : Value × Value), valEq q.1 k = true → (l[i]? = some q ↔ l'[i]? = some q)) :
    slotGet l k = slotGet l' k := by
  induction l generalizing l' with
  | nil =>
    induction l' with
    | nil => rfl
    | cons q' l' ih =>
      have hq : valEq q'.1 k = false := by
        by_contra hq
        exact absurd ((h 0 q' (Bool.eq_true_of_not_eq_false hq)).mpr rfl) (by simp)
      rw [slotGet_cons, hq, if_neg Bool.false_ne_true]
      refine ih fun i q hq => ?_
      exact iff_of_false (by simp) fun hi => absurd ((h (i + 1) q hq).mpr hi) (by simp)
  | cons q l ih =>
    cases l' with
    | nil =>
      have hq : valEq q.1 k = false := by
        by_contra hq
        exact absurd ((h 0 q (Bool.eq_true_of_not_eq_false hq)).mp rfl) (by simp)
      rw [slotGet_cons, hq, if_neg Bool.false_ne_true]
      exact ih fun i q hq => iff_of_false (fun hi => absurd ((h (i + 1) q hq).mp hi) (by simp)) (by simp)
    | cons q' l' =>
      rw [slotGet_cons, slotGet_cons, ih fun i q hq => h (i + 1) q hq]
      by_cases hq : valEq q.1 k = true
      · have he : q' = q := Option.some.inj ((h 0 q hq).mp rfl)
        rw [he]
      · have hq' : ¬ valEq q'.1 k = true := by
          intro hq'
          have he : q = q' := Option.some.inj ((h 0 q' hq').mpr rfl)
          exact hq (he ▸ hq')
        rw [if_neg hq, if_neg hq']

end Reading

section Cells
variable {a : Cells} {lo hi : ℕ}

theorem getElem?_live (a : Cells) (i : ℕ) : a.live[i]? = if i < a.len then some (a.cells i) else none := by
  unfold Cells.live
  rw [List.getElem?_map]
  split_ifs with h
  · rw [List.getElem?_range h]
    rfl
  · rw [List.getElem?_eq_none (by simpa using h)]
    rfl

theorem valEq_own {k : Value} {p : ℕ} (h : KeyOf k (some p)) (hp : p + 1 < 2 ^ 63) :
    valEq k (.num (Int64.ofNat (p + 1))) = true := by
  rw [h, toInt_ofNat_succ hp]
  simp

theorem slotGet_num_of_unique {p : ℕ} (hp : p + 1 < 2 ^ 63) (hown : p < a.len → KeyOf (a.cells p).1 (some p))
    (honly : ∀ i, i < a.len → i ≠ p → valEq (a.cells i).1 (.num (Int64.ofNat (p + 1))) = false) :
    slotGet a.live (.num (Int64.ofNat (p + 1))) = a.read p := by
  have hget := @slotGet_of_unique a.live (.num (Int64.ofNat (p + 1))) p
  rw [hget]
  · rw [getElem?_live, Cells.read]
    split_ifs <;> rfl
  · intro i q hi hn
    rw [getElem?_live] at hi
    split_ifs at hi with hlt
    exact Option.some.inj hi ▸ honly i hlt hn
  · intro q hq
    rw [getElem?_live] at hq
    split_ifs at hq with hlt
    exact Option.some.inj hq ▸ valEq_own (hown hlt) hp

/-- At an aligned place the key's value is the place's. -/
theorem Cells.Aligned.slotGet (h : a.Aligned lo hi) {p : ℕ} (h1 : lo ≤ p) (h2 : p < hi) (hp : p + 1 < 2 ^ 63) :
    slotGet a.live (.num (Int64.ofNat (p + 1))) = a.read p :=
  slotGet_num_of_unique hp (h.own p h1 h2) (h.only p h1 h2)

/-! ### Pasting -/

/-- The values `v` at the places `lo .. hi - 1`, all at once. -/
def Cells.paste (a : Cells) (lo hi : ℕ) (v : ℕ → Value) : Cells where
  cells p := if lo ≤ p ∧ p < hi then
      (if p < a.len then (a.cells p).1 else .num (Int64.ofNat (p + 1)), v p)
    else a.cells p
  len := if lo < hi then max a.len hi else a.len

theorem paste_self (a : Cells) (lo : ℕ) (v : ℕ → Value) : a.paste lo lo v = a := by
  unfold Cells.paste
  rw [if_neg (lt_irrefl lo)]
  congr 1
  funext p
  rw [if_neg (by omega)]

/-- A copy behind a paste. -/
theorem write_paste_above (a : Cells) (v : ℕ → Value) (hlo : lo ≤ hi) (hroom : hi < TABLE_SLOTS) :
    (a.paste lo hi v).write hi (v hi) = a.paste lo (hi + 1) v := by
  have hlen : hi ≥ (a.paste lo hi v).len ↔ hi ≥ a.len := by
    unfold Cells.paste
    dsimp only
    split_ifs <;> omega
  unfold Cells.write
  by_cases h : hi ≥ a.len
  · rw [if_pos (hlen.mpr h), if_pos hroom]
    unfold Cells.paste
    dsimp only
    rw [if_pos (show lo < hi + 1 by omega), max_eq_right (show a.len ≤ hi + 1 by omega)]
    congr 1
    funext p
    by_cases hp : p = hi
    · have hin : lo ≤ p ∧ p < hi + 1 := by omega
      rw [if_pos hin, if_neg (by omega), hp, Function.update_self]
    · rw [Function.update_of_ne hp]
      by_cases hin : lo ≤ p ∧ p < hi
      · have hin' : lo ≤ p ∧ p < hi + 1 := by omega
        rw [if_pos hin, if_pos hin']
      · have hin' : ¬ (lo ≤ p ∧ p < hi + 1) := by omega
        rw [if_neg hin, if_neg hin']
  · rw [if_neg (fun hc => h (hlen.mp hc))]
    unfold Cells.paste
    dsimp only
    have hl : (if lo < hi then max a.len hi else a.len) = a.len := by
      split_ifs <;> omega
    rw [if_pos (show lo < hi + 1 by omega), max_eq_left (show hi + 1 ≤ a.len by omega), hl]
    congr 1
    funext p
    by_cases hp : p = hi
    · have hin : lo ≤ hi ∧ hi < hi + 1 := by omega
      have hout : ¬ (lo ≤ hi ∧ hi < hi) := by omega
      have hlive : hi < a.len := by omega
      rw [hp, Function.update_self, if_neg hout, if_pos hin, if_pos hlive]
    · rw [Function.update_of_ne hp]
      by_cases hin : lo ≤ p ∧ p < hi
      · have hin' : lo ≤ p ∧ p < hi + 1 := by omega
        rw [if_pos hin, if_pos hin']
      · have hin' : ¬ (lo ≤ p ∧ p < hi + 1) := by omega
        rw [if_neg hin, if_neg hin']

/-- A copy below a paste that adds at most one slot. -/
theorem write_paste_below (a : Cells) (v : ℕ → Value) (hlo : lo < hi) (hgrow : hi ≤ a.len + 1) (hroom : hi ≤ TABLE_SLOTS) :
    (a.paste (lo + 1) hi v).write lo (v lo) = a.paste lo hi v := by
  by_cases h : lo + 1 < hi
  · have hlen : (a.paste (lo + 1) hi v).len = (a.paste lo hi v).len := by
      unfold Cells.paste
      dsimp only
      rw [if_pos h, if_pos hlo]
    have hlt : lo < (a.paste (lo + 1) hi v).len := by
      unfold Cells.paste
      dsimp only
      rw [if_pos h]
      omega
    unfold Cells.write
    rw [if_neg (by omega), hlen]
    unfold Cells.paste
    dsimp only
    congr 1
    funext p
    by_cases hp : p = lo
    · have hin : lo ≤ lo ∧ lo < hi := by omega
      have hout : ¬ (lo + 1 ≤ lo ∧ lo < hi) := by omega
      have hlive : lo < a.len := by omega
      rw [hp, Function.update_self, if_neg hout, if_pos hin, if_pos hlive]
    · rw [Function.update_of_ne hp]
      by_cases hin : lo ≤ p ∧ p < hi
      · have hin' : lo + 1 ≤ p ∧ p < hi := by omega
        rw [if_pos hin, if_pos hin']
      · have hin' : ¬ (lo + 1 ≤ p ∧ p < hi) := by omega
        rw [if_neg hin, if_neg hin']
  · obtain rfl : hi = lo + 1 := by omega
    rw [paste_self]
    have habove := write_paste_above a v (le_refl lo) (by omega)
    rwa [paste_self] at habove

theorem read_paste_above (a : Cells) (v : ℕ → Value) {i : ℕ} (h : hi ≤ i) : (a.paste lo hi v).read i = a.read i := by
  have hout : ¬ (lo ≤ i ∧ i < hi) := by omega
  have hlen : i < (if lo < hi then max a.len hi else a.len) ↔ i < a.len := by
    split_ifs <;> omega
  unfold Cells.paste Cells.read
  dsimp only
  rw [if_neg hout]
  exact if_congr hlen rfl rfl

theorem read_paste_below (a : Cells) (v : ℕ → Value) {i : ℕ} (hlo : i < lo) (hlive : i < a.len) :
    (a.paste lo hi v).read i = a.read i := by
  have hout : ¬ (lo ≤ i ∧ i < hi) := by omega
  have hlen : i < (if lo < hi then max a.len hi else a.len) := by
    split_ifs <;> omega
  unfold Cells.paste Cells.read
  dsimp only
  rw [if_neg hout, if_pos hlen, if_pos hlive]

end Cells

/-! ### The loops -/

section Loops
variable {bits a1 a2 f t n k : ℕ} {T : ℕ → Cells}

theorem place_eq (hb : bits = 32 ∨ bits = 64) {base : ℕ} (h1 : 1 ≤ base) (hk : base + k ≤ 128) :
    place bits base k = base - 1 + k := by
  unfold place
  rcases hb with rfl | rfl <;> omega

/-- The value for a place. -/
def source (T : ℕ → Cells) (a1 f t p : ℕ) : Value := (T a1).read (f - 1 + (p - (t - 1)))

/-- The tables after the values for the places `lo .. hi - 1` were pasted. -/
def pasted (T : ℕ → Cells) (a1 a2 f t lo hi : ℕ) : ℕ → Cells :=
  Function.update T a2 ((T a2).paste lo hi (source T a1 f t))

theorem copyCell_pasted {lo hi lo' hi' src dst : ℕ}
    (hread : (pasted T a1 a2 f t lo hi a1).read src = source T a1 f t dst)
    (hwrite : ((T a2).paste lo hi (source T a1 f t)).write dst (source T a1 f t dst) =
      (T a2).paste lo' hi' (source T a1 f t)) :
    copyCell (pasted T a1 a2 f t lo hi) a1 a2 src dst = pasted T a1 a2 f t lo' hi' := by
  unfold copyCell
  rw [hread]
  unfold pasted
  rw [Function.update_idem, Function.update_self, hwrite]

/-- The forward loop pastes, when it does not write what it has yet to read. -/
theorem moveForward_eq (hb : bits = 32 ∨ bits = 64) (hf : 1 ≤ f) (ht : 1 ≤ t) (hover : a1 = a2 → t ≤ f)
    (hfn : f - 1 + k + n ≤ TABLE_SLOTS) (htn : t - 1 + k + n ≤ TABLE_SLOTS) :
    moveForward bits a1 a2 f t n k (pasted T a1 a2 f t (t - 1) (t - 1 + k)) =
      pasted T a1 a2 f t (t - 1) (t - 1 + k + n) := by
  have hslots : TABLE_SLOTS = 32 := rfl
  induction n generalizing k with
  | zero => rfl
  | succ n ih =>
    have hread : (pasted T a1 a2 f t (t - 1) (t - 1 + k) a1).read (f - 1 + k) = source T a1 f t (t - 1 + k) := by
      unfold pasted source
      rw [Nat.add_sub_cancel_left]
      by_cases h : a1 = a2
      · subst h
        rw [Function.update_self]
        exact read_paste_above _ _ (by have := hover rfl; omega)
      · rw [Function.update_of_ne h]
    rw [moveForward, place_eq hb hf (by omega), place_eq hb ht (by omega),
      copyCell_pasted hread (write_paste_above _ _ (by omega) (by omega))]
    have hrest := @ih (k + 1) (by omega) (by omega)
    rw [show t - 1 + k + 1 = t - 1 + (k + 1) by omega, hrest]
    congr 1
    omega

/-- The backward loop pastes, when it adds at most one slot. -/
theorem moveBackward_eq (hb : bits = 32 ∨ bits = 64) (hf : 1 ≤ f) (hover : f < t) (hk : k ≤ n)
    (hfn : f - 1 + n ≤ TABLE_SLOTS) (htn : t - 1 + n ≤ TABLE_SLOTS) (hgrow : t - 1 + n ≤ (T a1).len + 1) :
    moveBackward bits a1 a1 f t k (pasted T a1 a1 f t (t - 1 + k) (t - 1 + n)) =
      .ok (pasted T a1 a1 f t (t - 1) (t - 1 + n)) := by
  have hslots : TABLE_SLOTS = 32 := rfl
  induction k with
  | zero => rfl
  | succ k ih =>
    have hread : (pasted T a1 a1 f t (t - 1 + (k + 1)) (t - 1 + n) a1).read (f - 1 + k) =
        source T a1 f t (t - 1 + k) := by
      unfold pasted source
      rw [Nat.add_sub_cancel_left, Function.update_self]
      have hlo : f - 1 + k < t - 1 + (k + 1) := by omega
      have hlive : f - 1 + k < (T a1).len := by omega
      exact read_paste_below _ _ hlo hlive
    have hwrite := @write_paste_below (t - 1 + k) (t - 1 + n) (T a1) (source T a1 f t) (by omega) hgrow (by omega)
    rw [moveBackward, place_eq hb hf (by omega), place_eq hb (by omega) (by omega), if_neg (by omega),
      copyCell_pasted hread hwrite]
    exact ih (by omega)

/-- **The call pastes.** -/
theorem moveCells_eq (hb : bits = 32 ∨ bits = 64) {e : ℕ} (hf : 1 ≤ f) (hfe : f ≤ e) (ht : 1 ≤ t)
    (hfn : e ≤ TABLE_SLOTS) (htn : t + (e - f) ≤ TABLE_SLOTS)
    (hgrow : a1 = a2 → f < t → t + (e - f) ≤ (T a2).len + 1) :
    moveCells bits T a1 a2 f e t = .ok (pasted T a1 a2 f t (t - 1) (t + (e - f))) := by
  have hslots : TABLE_SLOTS = 32 := rfl
  have hcount : (e - f + 1) % 2 ^ bits = e - f + 1 := by
    rcases hb with rfl | rfl <;> omega
  have hstart : ∀ p, pasted T a1 a2 f t p p = T := by
    intro p
    unfold pasted
    rw [paste_self, Function.update_eq_self]
  have hend : t - 1 + (e - f + 1) = t + (e - f) := by omega
  unfold moveCells
  rw [if_neg (by omega), hcount]
  by_cases hback : a1 = a2 ∧ t > f
  · obtain ⟨rfl, hlt⟩ := hback
    have hloop := @moveBackward_eq bits a1 f t (e - f + 1) (e - f + 1) T hb hf hlt le_rfl (by omega) (by omega)
      (by have := hgrow rfl hlt; omega)
    rw [hstart, hend] at hloop
    rw [if_pos ⟨rfl, hlt⟩, hloop]
  · have hloop := @moveForward_eq bits a1 a2 f t (e - f + 1) 0 T hb hf ht
      (fun h => not_lt.mp fun hlt => hback ⟨h, hlt⟩) (by omega) (by omega)
    simp only [Nat.add_zero, hend, hstart] at hloop
    rw [if_neg hback, hloop]

end Loops

/-! ### By key -/

section ByKey
variable {a : Cells} {lo hi : ℕ} {v : ℕ → Value}

theorem keyOf_paste (ha : a.Aligned lo hi) (hbound : hi < 2 ^ 62) {i : ℕ} (h1 : lo ≤ i) (h2 : i < hi) :
    KeyOf ((a.paste lo hi v).cells i).1 (some i) := by
  unfold Cells.paste
  dsimp only
  rw [if_pos ⟨h1, h2⟩]
  dsimp only
  split_ifs with h
  · exact ha.own i h1 h2 h
  · exact keyOf_num (by omega)

theorem lt_len_paste (hlo : lo ≤ a.len) {i : ℕ} (hout : ¬ (lo ≤ i ∧ i < hi)) : i < (a.paste lo hi v).len ↔ i < a.len := by
  unfold Cells.paste
  dsimp only
  split_ifs <;> omega

theorem cells_paste_of_not {i : ℕ} (hout : ¬ (lo ≤ i ∧ i < hi)) : (a.paste lo hi v).cells i = a.cells i := if_neg hout

/-- What was pasted is aligned. -/
theorem aligned_paste (ha : a.Aligned lo hi) (hlo : lo ≤ a.len) (hbound : hi < 2 ^ 62) : (a.paste lo hi v).Aligned lo hi where
  own p h1 h2 _ := keyOf_paste ha hbound h1 h2
  only p h1 h2 i hlive hn := by
    by_cases hin : lo ≤ i ∧ i < hi
    · rw [keyOf_paste ha hbound hin.1 hin.2, toInt_ofNat_succ (by omega), decide_eq_false_iff_not]
      omega
    · rw [cells_paste_of_not hin]
      exact ha.only p h1 h2 i ((lt_len_paste hlo hin).mp hlive) hn

theorem read_paste {i : ℕ} (h1 : lo ≤ i) (h2 : i < hi) : (a.paste lo hi v).read i = v i := by
  have hlive : i < (if lo < hi then max a.len hi else a.len) := by
    rw [if_pos (show lo < hi by omega)]
    omega
  unfold Cells.paste Cells.read
  dsimp only
  rw [if_pos hlive, if_pos ⟨h1, h2⟩]

/-- Entries that are at no place pasted to are the same. -/
theorem live_paste_iff (ha : a.Aligned lo hi) (hlo : lo ≤ a.len) (hbound : hi < 2 ^ 62) {q : Value × Value}
    (hq : ∀ i, lo ≤ i → i < hi → ¬ KeyOf q.1 (some i)) (i : ℕ) : (a.paste lo hi v).live[i]? = some q ↔ a.live[i]? = some q := by
  rw [getElem?_live, getElem?_live]
  by_cases hin : lo ≤ i ∧ i < hi
  · have hno := hq i hin.1 hin.2
    refine iff_of_false (fun h => ?_) (fun h => ?_)
    · split_ifs at h
      exact hno (Option.some.inj h ▸ keyOf_paste ha hbound hin.1 hin.2)
    · split_ifs at h with hlt
      exact hno (Option.some.inj h ▸ ha.own i hin.1 hin.2 hlt)
  · rw [cells_paste_of_not hin]
    simp only [lt_len_paste hlo hin]

end ByKey

/-- The places are in the array, nothing is left between the live slots and the first of them, and a copy to
higher places of the same table adds at most one slot. -/
def InArray (T : ℕ → Cells) (a1 a2 : ℕ) (f e t : Int64) : Prop :=
  1 ≤ f.toInt ∧ f.toInt ≤ e.toInt ∧ e.toInt ≤ TABLE_SLOTS ∧ 1 ≤ t.toInt ∧
    t.toInt + (e.toInt - f.toInt) ≤ TABLE_SLOTS ∧ t.toInt ≤ (T a2).len + 1 ∧
    (a1 = a2 → f.toInt < t.toInt → t.toInt + (e.toInt - f.toInt) ≤ (T a2).len + 1)

/-- The call has nothing to do and does nothing, or its places are in the array and are those of the keys. -/
def MoveAligned (bits : ℕ) (T : ℕ → Cells) (a1 a2 : ℕ) (f e t : Int64) : Prop :=
  (asUsize bits e < asUsize bits f ∧ AgreesByKey T T a1 a2 f e t) ∨
    (InArray T a1 a2 f e t ∧ (T a1).Aligned (f.toInt.toNat - 1) e.toInt.toNat ∧
      (T a2).Aligned (t.toInt.toNat - 1) (t.toInt.toNat + (e.toInt.toNat - f.toInt.toNat)))

section Main
variable {bits a1 a2 : ℕ} {T : ℕ → Cells} {f e t : Int64}

theorem tableMove_eq (bits : ℕ) (T : ℕ → Cells) (a1 a2 : ℕ) (f e t : Int64) :
    tableMove bits T [.table a1, .num f, .num e, .num t, .table a2] =
      (moveCells bits T a1 a2 (asUsize bits f) (asUsize bits e) (asUsize bits t)).map fun T' => (a2, T') := by
  change (moveCells bits T a1 a2 _ _ _ >>= fun T' => Except.ok (a2, T')) = _
  cases moveCells bits T a1 a2 (asUsize bits f) (asUsize bits e) (asUsize bits t) <;> rfl

/-- A call that moves nothing. -/
theorem moveRight_of_lt (h : asUsize bits e < asUsize bits f) :
    MoveRight bits T a1 a2 f e t (tableMove bits T [.table a1, .num f, .num e, .num t, .table a2]) ↔
      AgreesByKey T T a1 a2 f e t := by
  rw [tableMove_eq]
  unfold moveCells
  rw [if_pos h]
  exact ⟨fun hr => hr.2.moved,
    fun ha => ⟨rfl, ha, fun _ _ => rfl, fun _ _ => Iff.rfl, fun _ _ => rfl, fun hle => absurd h (not_lt.mpr hle)⟩⟩

theorem eq_ofNat_succ {i : Int64} (h : 1 ≤ i.toInt) : i = Int64.ofNat (i.toInt.toNat - 1 + 1) := by
  have hlt := Int64.toInt_lt i
  apply Int64.toInt_inj.mp
  rw [toInt_ofNat_succ (by omega)]
  omega

/-- **`table.move` is a simultaneous assignment** where its places are those of the keys. -/
theorem moveRight_of_aligned (hb : bits = 32 ∨ bits = 64) (h : MoveAligned bits T a1 a2 f e t) :
    MoveRight bits T a1 a2 f e t (tableMove bits T [.table a1, .num f, .num e, .num t, .table a2]) := by
  have hslots : TABLE_SLOTS = 32 := rfl
  rcases h with ⟨hlt, ha⟩ | ⟨⟨hf, hfe, he, ht, hte, hgap, hgrow⟩, hsrc, hdst⟩
  · exact (moveRight_of_lt hlt).mpr ha
  have hF := @asUsize_of_small bits hb f (by omega) (by omega)
  have hE := @asUsize_of_small bits hb e (by omega) (by omega)
  have hT := @asUsize_of_small bits hb t (by omega) (by omega)
  have hmove := @moveCells_eq bits a1 a2 f.toInt.toNat t.toInt.toNat T hb e.toInt.toNat (by omega) (by omega) (by omega)
    (by omega) (by omega) (fun h1 h2 => by have := hgrow h1 (by omega); omega)
  have hinside : asUsize bits f ≤ asUsize bits e → 1 ≤ asUsize bits f ∧ asUsize bits e ≤ TABLE_SLOTS ∧
      1 ≤ asUsize bits t ∧ asUsize bits t + (asUsize bits e - asUsize bits f) ≤ TABLE_SLOTS := by
    intro _
    omega
  rw [tableMove_eq, hF, hE, hT, hmove]
  generalize hlo : t.toInt.toNat - 1 = lo at *
  generalize hhi : t.toInt.toNat + (e.toInt.toNat - f.toInt.toNat) = hi at *
  have hself : pasted T a1 a2 f.toInt.toNat t.toInt.toNat lo hi a2 =
      (T a2).paste lo hi (source T a1 f.toInt.toNat t.toInt.toNat) := Function.update_self ..
  refine ⟨rfl, ?_, ?_, ?_, fun b hb => Function.update_of_ne hb _ _, hinside⟩
  · intro i j h1 h2 h3
    dsimp only
    rw [hself, eq_ofNat_succ (i := i) (by omega), eq_ofNat_succ (i := j) (by omega),
      (aligned_paste hdst (by omega) (by omega)).slotGet (by omega) (by omega) (by omega),
      hsrc.slotGet (by omega) (by omega) (by omega), read_paste (by omega) (by omega)]
    unfold source
    congr 1
    omega
  · intro j hj
    dsimp only
    rw [hself]
    refine slotGet_congr fun i q hq => live_paste_iff hdst (by omega) (by omega) (fun p h1 h2 hk => ?_) i
    rw [hk, decide_eq_true_eq] at hq
    omega
  · intro q hq
    dsimp only
    rw [hself, List.mem_iff_getElem?, List.mem_iff_getElem?]
    refine exists_congr fun i => live_paste_iff hdst (by omega) (by omega) (fun p h1 h2 hk => ?_) i
    exact hk.not_none (by omega) hq

end Main

/-! ### Lists -/

/-- A table built as a list: the other cells were never written. -/
def listCells (vals : List Value) : Cells where
  cells i := (vals[i]?.map fun v => (.num (Int64.ofNat (i + 1)), v)).getD (.nil, .nil)
  len := vals.length

section Lists
variable {vals : List Value}

theorem keyOf_listCells (hlen : vals.length ≤ TABLE_SLOTS) {p : ℕ} (hp : p < vals.length) :
    KeyOf ((listCells vals).cells p).1 (some p) := by
  have hcap : vals.length ≤ 32 := hlen
  have he : ((listCells vals).cells p).1 = .num (Int64.ofNat (p + 1)) := by
    unfold listCells
    dsimp only
    rw [List.getElem?_eq_getElem hp]
    rfl
  rw [he]
  exact keyOf_num (by omega)

/-- A list is aligned everywhere in the array. -/
theorem aligned_listCells (hlen : vals.length ≤ TABLE_SLOTS) (lo hi : ℕ) (hhi : hi ≤ TABLE_SLOTS) :
    (listCells vals).Aligned lo hi where
  own p _ _ hp := keyOf_listCells hlen hp
  only p _ hp i hlive hn := by
    have hcap : hi ≤ 32 := hhi
    rw [keyOf_listCells hlen hlive, toInt_ofNat_succ (by omega), decide_eq_false_iff_not]
    omega

theorem key_listCells_of_ge {p : ℕ} (hp : vals.length ≤ p) : ((listCells vals).cells p).1 = .nil := by
  unfold listCells
  dsimp only
  rw [List.getElem?_eq_none hp]
  rfl

/-- A list has no slot without a key. -/
theorem not_mem_listCells (hlen : vals.length ≤ TABLE_SLOTS) (v : Value) : (.nil, v) ∉ (listCells vals).live := by
  have hcap : vals.length ≤ 32 := hlen
  rw [List.mem_iff_getElem?]
  rintro ⟨i, hi⟩
  rw [getElem?_live] at hi
  split_ifs at hi with hlive
  have hk := keyOf_listCells hlen (p := i) hlive
  rw [Option.some.inj hi] at hk
  exact hk.not_none (by have : i < vals.length := hlive; omega) fun _ => rfl

end Lists

/-- A live slot that never got a key is a new entry. -/
theorem not_moveRight_of_keyless {bits a1 a2 : ℕ} {T T' : ℕ → Cells} {f e t : Int64} {vals : List Value}
    (hlist : T a2 = listCells vals) (hlen : vals.length ≤ TABLE_SLOTS) {p : ℕ} (hp : p < (T' a2).len)
    (hk : ((T' a2).cells p).1 = .nil) : ¬ MoveRight bits T a1 a2 f e t (.ok (a2, T')) := by
  rintro ⟨-, h⟩
  have hmem : (.nil, ((T' a2).cells p).2) ∈ (T' a2).live := by
    apply List.mem_iff_getElem?.mpr
    refine ⟨p, ?_⟩
    rw [getElem?_live, if_pos hp, ← hk]
  have hold := (h.named _ (fun _ => rfl)).mp hmem
  rw [hlist] at hold
  exact not_mem_listCells hlen _ hold

/-- Below the length, the backward loop changes values only. -/
theorem moveBackward_keys {bits a1 f t k : ℕ} {T T' : ℕ → Cells} (hb : bits = 32 ∨ bits = 64) (ht : 1 ≤ t)
    (hk : t - 1 + k ≤ TABLE_SLOTS) (hlen : t - 1 + k ≤ (T a1).len) (h : moveBackward bits a1 a1 f t k T = .ok T') :
    (T' a1).len = (T a1).len ∧ ∀ p, ((T' a1).cells p).1 = ((T a1).cells p).1 := by
  have hslots : TABLE_SLOTS = 32 := rfl
  induction k generalizing T with
  | zero =>
    cases h
    exact ⟨rfl, fun _ => rfl⟩
  | succ k ih =>
    rw [moveBackward, place_eq hb ht (by omega)] at h
    split_ifs at h with hin
    have hwrite : copyCell T a1 a1 (place bits f k) (t - 1 + k) a1 =
        Cells.mk (Function.update (T a1).cells (t - 1 + k) (((T a1).cells (t - 1 + k)).1, (T a1).read (place bits f k)))
          (T a1).len := by
      unfold copyCell Cells.write
      rw [Function.update_self, if_neg (by omega)]
    have hrest := ih (T := copyCell T a1 a1 (place bits f k) (t - 1 + k)) (by omega) (by rw [hwrite]; dsimp only; omega) h
    rw [hwrite] at hrest
    refine ⟨hrest.1, fun p => (hrest.2 p).trans ?_⟩
    dsimp only
    by_cases hp : p = t - 1 + k
    · rw [hp, Function.update_self]
    · rw [Function.update_of_ne hp]

section Exact
variable {bits a1 a2 : ℕ} {T : ℕ → Cells} {f e t : Int64} {vals₁ vals₂ : List Value}

theorem asUsize_small (hb : bits = 32 ∨ bits = 64) {x : Int64}
    (hfit : -2 ^ (bits - 1) ≤ x.toInt ∧ x.toInt < 2 ^ (bits - 1)) (h : asUsize bits x ≤ 64) :
    0 ≤ x.toInt ∧ asUsize bits x = x.toInt.toNat := by
  have hpos : 0 ≤ x.toInt := by
    by_contra hneg
    unfold asUsize at h
    rcases hb with rfl | rfl <;> omega
  refine ⟨hpos, ?_⟩
  unfold asUsize
  rcases hb with rfl | rfl <;> omega

theorem moveBackward_error {F D k : ℕ} {x : Exc} (h : moveBackward bits a1 a2 F D k T = .error x) : x = .fault .index := by
  induction k generalizing T with
  | zero => cases h
  | succ k ih =>
    rw [moveBackward] at h
    split_ifs at h with hin
    · cases h
      rfl
    · exact ih h

/-- A call fails by an index out of the array only. -/
theorem moveCells_error {F E D : ℕ} {x : Exc} (h : moveCells bits T a1 a2 F E D = .error x) : x = .fault .index := by
  unfold moveCells at h
  split_ifs at h
  exact moveBackward_error h

/-- A backward copy that adds two slots or more leaves one without a key. -/
theorem keyless_of_backward (hb : bits = 32 ∨ bits = 64) {F n D : ℕ} {T' : ℕ → Cells} (h1 : T a1 = listCells vals₁)
    (hD : 1 ≤ D) (hn : D + n ≤ TABLE_SLOTS) (hgrow : vals₁.length + 1 < D + n)
    (h : moveBackward bits a1 a1 F D (n + 1) T = .ok T') :
    D + n - 2 < (T' a1).len ∧ ((T' a1).cells (D + n - 2)).1 = .nil := by
  have hslots : TABLE_SLOTS = 32 := rfl
  rw [moveBackward] at h
  split_ifs at h with hin
  rw [place_eq hb hD (by omega)] at h
  have hlen : (T a1).len = vals₁.length := by
    rw [h1]
    rfl
  have hwrite : copyCell T a1 a1 (place bits F n) (D - 1 + n) a1 =
      Cells.mk (Function.update (T a1).cells (D - 1 + n)
        (.num (Int64.ofNat (D - 1 + n + 1)), (T a1).read (place bits F n))) (D - 1 + n + 1) := by
    unfold copyCell Cells.write
    rw [Function.update_self, if_pos (by omega), if_pos (by omega)]
  have hrest := moveBackward_keys hb hD (by omega) (by rw [hwrite]; dsimp only; omega) h
  rw [hwrite] at hrest
  dsimp only at hrest
  refine ⟨by omega, ?_⟩
  rw [hrest.2, Function.update_of_ne (by omega), h1]
  exact key_listCells_of_ge (by omega)

/-- **For lists the condition is exact**, where the integers fit in `isize`. -/
theorem moveRight_list_iff (hb : bits = 32 ∨ bits = 64) (h1 : T a1 = listCells vals₁) (h2 : T a2 = listCells vals₂)
    (hl1 : vals₁.length ≤ TABLE_SLOTS) (hl2 : vals₂.length ≤ TABLE_SLOTS)
    (hfit : ∀ x ∈ [f, e, t], -2 ^ (bits - 1) ≤ x.toInt ∧ x.toInt < 2 ^ (bits - 1)) :
    MoveRight bits T a1 a2 f e t (tableMove bits T [.table a1, .num f, .num e, .num t, .table a2]) ↔
      (asUsize bits e < asUsize bits f ∧ AgreesByKey T T a1 a2 f e t) ∨ InArray T a1 a2 f e t := by
  have hslots : TABLE_SLOTS = 32 := rfl
  have hlen2 : (T a2).len = vals₂.length := by
    rw [h2]
    rfl
  constructor
  · intro h
    rcases lt_or_ge (asUsize bits e) (asUsize bits f) with hlt | hle
    · exact .inl ⟨hlt, (moveRight_of_lt hlt).mp h⟩
    refine .inr ?_
    rw [tableMove_eq] at h
    cases hr : moveCells bits T a1 a2 (asUsize bits f) (asUsize bits e) (asUsize bits t) with
    | error x =>
      rw [hr, moveCells_error hr] at h
      exact h.elim
    | ok T' =>
      rw [hr] at h
      obtain ⟨hF1, hE, hT1, hTn⟩ := h.2.inside hle
      obtain ⟨hf0, hF⟩ := asUsize_small hb (hfit f (by simp)) (by omega)
      obtain ⟨he0, hE'⟩ := asUsize_small hb (hfit e (by simp)) (by omega)
      obtain ⟨ht0, hT⟩ := asUsize_small hb (hfit t (by simp)) (by omega)
      have hcount : (asUsize bits e - asUsize bits f + 1) % 2 ^ bits = asUsize bits e - asUsize bits f + 1 := by
        rcases hb with rfl | rfl <;> omega
      by_cases hback : a1 = a2 ∧ asUsize bits t > asUsize bits f
      · obtain ⟨rfl, hgt⟩ := hback
        have hgrow : asUsize bits t + (asUsize bits e - asUsize bits f) ≤ vals₂.length + 1 := by
          by_contra hgrow
          unfold moveCells at hr
          rw [if_neg (by omega), if_pos ⟨rfl, hgt⟩, hcount] at hr
          obtain ⟨hlive, hkey⟩ := keyless_of_backward hb h2 hT1 hTn (by omega) hr
          exact not_moveRight_of_keyless h2 hl2 hlive hkey h
        exact ⟨by omega, by omega, by omega, by omega, by omega, by omega, fun _ _ => by omega⟩
      · have hmove := moveCells_eq (T := T) hb hF1 hle hT1 hE hTn (fun ha hlt => absurd ⟨ha, hlt⟩ hback)
        rw [hr] at hmove
        obtain rfl := Except.ok.inj hmove
        have hgap : asUsize bits t ≤ vals₂.length + 1 := by
          by_contra hgap
          have hself : pasted T a1 a2 (asUsize bits f) (asUsize bits t) (asUsize bits t - 1)
              (asUsize bits t + (asUsize bits e - asUsize bits f)) a2 = (T a2).paste (asUsize bits t - 1)
                (asUsize bits t + (asUsize bits e - asUsize bits f)) (source T a1 (asUsize bits f) (asUsize bits t)) :=
            Function.update_self ..
          refine not_moveRight_of_keyless h2 hl2 (p := vals₂.length) ?_ ?_ h
          · rw [hself]
            unfold Cells.paste
            dsimp only
            rw [if_pos (by omega)]
            omega
          · rw [hself, cells_paste_of_not (by omega), h2]
            exact key_listCells_of_ge le_rfl
        exact ⟨by omega, by omega, by omega, by omega, by omega, by omega,
          fun ha hlt => absurd ⟨ha, show asUsize bits t > asUsize bits f by omega⟩ hback⟩
  · rintro (⟨hlt, ha⟩ | hin)
    · exact (moveRight_of_lt hlt).mpr ha
    · refine moveRight_of_aligned hb (.inr ⟨hin, ?_, ?_⟩)
      · rw [h1]
        exact aligned_listCells hl1 _ _ (by have := hin.2.2.1; omega)
      · rw [h2]
        obtain ⟨hf, hfe, -, ht, hte, -⟩ := hin
        exact aligned_listCells hl2 _ _ (by omega)

end Exact

/-- **`table.move` is a simultaneous assignment** where its places are those of the keys; for tables that were
built as lists this says exactly when. -/
theorem move_by_key {bits : ℕ} (hb : bits = 32 ∨ bits = 64) (T : ℕ → Cells) (a1 a2 : ℕ) (f e t : Int64) :
    (MoveAligned bits T a1 a2 f e t →
      MoveRight bits T a1 a2 f e t (tableMove bits T [.table a1, .num f, .num e, .num t, .table a2])) ∧
    ∀ vals₁ vals₂, T a1 = listCells vals₁ → T a2 = listCells vals₂ → vals₁.length ≤ TABLE_SLOTS →
      vals₂.length ≤ TABLE_SLOTS →
      (∀ x ∈ [f, e, t], -2 ^ (bits - 1) ≤ x.toInt ∧ x.toInt < 2 ^ (bits - 1)) →
      (MoveRight bits T a1 a2 f e t (tableMove bits T [.table a1, .num f, .num e, .num t, .table a2]) ↔
        (asUsize bits e < asUsize bits f ∧ AgreesByKey T T a1 a2 f e t) ∨ InArray T a1 a2 f e t) :=
  ⟨moveRight_of_aligned hb, fun _ _ h1 h2 hl1 hl2 hfit => moveRight_list_iff hb h1 h2 hl1 hl2 hfit⟩

/-- All tables are `{10, 20, 30}`. -/
def tenTwentyThirty : ℕ → Cells := fun _ => listCells [.num 10, .num 20, .num 30]

theorem first_two_moved_up :
    InArray tenTwentyThirty 0 0 1 2 2 ∧
    (MoveRight 64 tenTwentyThirty 0 0 1 2 2
        (tableMove 64 tenTwentyThirty [.table 0, .num 1, .num 2, .num 2, .table 0]) ↔
      (asUsize 64 2 < asUsize 64 1 ∧ AgreesByKey tenTwentyThirty tenTwentyThirty 0 0 1 2 2) ∨
        InArray tenTwentyThirty 0 0 1 2 2) :=
  ⟨⟨by decide, by decide, by decide, by decide, by decide, by decide, by decide⟩,
    (move_by_key (.inr rfl) tenTwentyThirty 0 0 1 2 2).2 _ _ rfl rfl (by decide) (by decide)
      fun x _ => ⟨x.le_toInt, x.toInt_lt⟩⟩

theorem MoveRight.get {bits : ℕ} {T : ℕ → Cells} {a1 a2 : ℕ} {f e t : Int64} {r : Except Exc (ℕ × (ℕ → Cells))}
    (h : MoveRight bits T a1 a2 f e t r) {i j : Int64} (h1 : f.toInt ≤ i.toInt) (h2 : i.toInt ≤ e.toInt)
    (h3 : j.toInt = t.toInt + (i.toInt - f.toInt)) :
    r.toOption.all fun p => slotGet (p.2 a2).live (.num j) = slotGet (T a1).live (.num i) := by
  cases r with
  | error e => rfl
  | ok p =>
    rw [Except.toOption, Option.all_some, decide_eq_true_eq]
    exact h.2.moved i j h1 h2 h3

/-- `table.move({10, 20, 30}, 1, 3, 3)` adds two slots and gives a key only to the last: `t[4]` is `nil`. -/
theorem two_slots_added : ¬ MoveRight 64 tenTwentyThirty 0 0 1 3 3
    (tableMove 64 tenTwentyThirty [.table 0, .num 1, .num 3, .num 3, .table 0]) :=
  fun h => absurd (@MoveRight.get _ _ _ _ _ _ _ _ h 2 4 (by decide) (by decide) (by decide)) (by decide +kernel)

end Lua
end Rustrapper
