/-
# Insertion sort in place

The sort that takes each element out in turn, moves the ones before it that are
greater up by one, and puts it down in the hole. What a comparison answers is a
relation: it may answer anything, differ from call to call, or fail.

Where no comparison fails the list is rearranged (`Run.perm`). While an element
is out, its value is in no place of the list: where a comparison fails, the
list is a rearrangement exactly when the hole happens to hold the value that is
out (`Run.raised_perm_iff`). Where the answers are those of a strict weak
order, the result is sorted (`Run.sorted`) and keeps the order of equals
(`Run.sameOrder`).
-/
import Mathlib

namespace Sort.Insertion

variable {α E : Type*}

/-- A comparison that failed: its error, where the hole was and what was out. -/
structure Raised (α E : Type*) where
  error : E
  hole : ℕ
  moving : α

section Loops
variable (cmp : α → α → Except E Bool → Prop)

/-- The inner loop: `x` is out and the hole is at a position of a list; where the hole ends, what is
in the list then, and the error of a comparison that failed. -/
inductive Shift (x : α) : ℕ → List α → ℕ → List α → Option E → Prop
  | bottom (l : List α) : Shift x 0 l 0 l none
  | stop {j : ℕ} {l : List α} {y : α} (hy : l[j]? = some y) (h : cmp x y (.ok false)) :
      Shift x (j + 1) l (j + 1) l none
  | fail {j : ℕ} {l : List α} {y : α} {e : E} (hy : l[j]? = some y) (h : cmp x y (.error e)) :
      Shift x (j + 1) l (j + 1) l (some e)
  | move {j k : ℕ} {l m : List α} {y : α} {o : Option E} (hy : l[j]? = some y) (h : cmp x y (.ok true))
      (rest : Shift x j (l.set (j + 1) y) k m o) : Shift x (j + 1) l k m o

/-- The outer loop, from position `i` on: what is in the list at the end, and the comparison that
failed, if one did. -/
inductive Run : ℕ → List α → List α → Option (Raised α E) → Prop
  | done {i : ℕ} {l : List α} (h : l.length ≤ i) : Run i l l none
  | insert {i j : ℕ} {l m l' : List α} {x : α} {o : Option (Raised α E)} (hx : l[i]? = some x)
      (hs : Shift cmp x i l j m none) (rest : Run (i + 1) (m.set j x) l' o) : Run i l l' o
  | raised {i j : ℕ} {l m : List α} {x : α} {e : E} (hx : l[i]? = some x)
      (hs : Shift cmp x i l j m (some e)) : Run i l m (some ⟨e, j, x⟩)

end Loops

variable {cmp : α → α → Except E Bool → Prop}

/-! ### One insertion -/

/-- How the inner loop ends in front of `front`. -/
def Ends (cmp : α → α → Except E Bool → Prop) (x : α) (front : List α) : Option E → Prop
  | none => ∀ y, front.getLast? = some y → cmp x y (.ok false)
  | some e => ∃ y, front.getLast? = some y ∧ cmp x y (.error e)

theorem getElem?_of_split {front back : List α} {h : α} {n : ℕ} (hn : n = front.length) :
    (front ++ h :: back)[n]? = some h := by
  subst hn
  simp

/-- **The inner loop** moves a block of elements up by one; the hole then holds the first of them
still, or what it held before when nothing moved. -/
theorem Shift.split {x h : α} {j k : ℕ} {l m front back : List α} {o : Option E}
    (hs : Shift cmp x j l k m o) (hl : l = front ++ h :: back) (hj : front.length = j) :
    ∃ low moved, front = low ++ moved ∧ low.length = k ∧
      m = low ++ (moved ++ [h]).headD h :: (moved ++ back) ∧ (∀ y ∈ moved, cmp x y (.ok true)) ∧
      Ends cmp x low o := by
  induction hs generalizing front back h with
  | bottom l =>
    obtain rfl := List.length_eq_zero_iff.mp hj
    exact ⟨[], [], rfl, rfl, by simpa using hl, by simp, fun y hy => by cases hy⟩
  | @stop j l y hy hc =>
    subst hl
    rw [List.getElem?_append_left (by omega)] at hy
    refine ⟨front, [], by simp, hj, by simp, by simp, fun z hz => ?_⟩
    rw [List.getLast?_eq_getElem?, hj, Nat.add_sub_cancel, hy] at hz
    exact Option.some.inj hz ▸ hc
  | @fail j l y e hy hc =>
    subst hl
    rw [List.getElem?_append_left (by omega)] at hy
    refine ⟨front, [], by simp, hj, by simp, by simp, y, ?_, hc⟩
    rw [List.getLast?_eq_getElem?, hj, Nat.add_sub_cancel, hy]
  | @move j k l m y o hy hc _ ih =>
    subst hl
    rcases List.eq_nil_or_concat front with rfl | ⟨front, z, rfl⟩
    · cases hj
    rw [List.concat_eq_append] at *
    have hj : front.length = j := by simpa using hj
    have hz : z = y := by
      rw [List.append_assoc, List.singleton_append, getElem?_of_split hj.symm] at hy
      exact Option.some.inj hy
    subst hz
    have hset : ((front ++ [z]) ++ h :: back).set (j + 1) z = front ++ z :: (z :: back) := by
      rw [List.set_append_right _ _ (by simp [hj])]
      simp [hj]
    obtain ⟨low, moved, rfl, hlow, hm, hall, hend⟩ := ih hset hj
    refine ⟨low, moved ++ [z], by simp, hlow, ?_, ?_, hend⟩
    · rw [hm]
      cases moved <;> simp
    · intro y hy
      rcases List.mem_append.mp hy with hy | hy
      · exact hall y hy
      · exact List.mem_singleton.mp hy ▸ hc

/-- An insertion puts the element under a block of those before it. -/
theorem Shift.insert {x : α} {i j : ℕ} {l m : List α} {o : Option E} (hx : l[i]? = some x)
    (hs : Shift cmp x i l j m o) :
    ∃ low moved back, l.take i = low ++ moved ∧ l = low ++ moved ++ x :: back ∧ low.length = j ∧
      m = low ++ (moved ++ [x]).headD x :: (moved ++ back) ∧ m.set j x = low ++ x :: (moved ++ back) ∧
      (∀ y ∈ moved, cmp x y (.ok true)) ∧ Ends cmp x low o := by
  obtain ⟨hlt, hget⟩ := List.getElem?_eq_some_iff.mp hx
  have hl : l = l.take i ++ x :: l.drop (i + 1) := by
    rw [← hget, List.getElem_cons_drop, List.take_append_drop]
  obtain ⟨low, moved, hfront, hlow, hm, hall, hend⟩ := hs.split hl (List.length_take_of_le hlt.le)
  refine ⟨low, moved, l.drop (i + 1), hfront, hfront ▸ hl, hlow, hm, ?_, hall, hend⟩
  rw [hm, List.set_append_right _ _ hlow.le, ← hlow, Nat.sub_self]
  rfl

/-! ### Nothing is lost, but on an error -/

theorem Shift.perm {x : α} {i j : ℕ} {l m : List α} {o : Option E} (hx : l[i]? = some x)
    (hs : Shift cmp x i l j m o) : (m.set j x).Perm l := by
  obtain ⟨low, moved, back, -, hl, -, -, hset, -⟩ := hs.insert hx
  rw [hset, hl, List.append_assoc]
  exact List.Perm.append_left low List.perm_middle.symm

theorem Run.set_perm {i : ℕ} {l l' : List α} {o : Option (Raised α E)} (h : Run cmp i l l' o) :
    (∀ r, o = some r → (l'.set r.hole r.moving).Perm l ∧ r.hole < l'.length) ∧
      (o = none → l'.Perm l) := by
  induction h with
  | done => exact ⟨by simp, fun _ => List.Perm.refl _⟩
  | insert hx hs _ ih =>
    have hp := hs.perm hx
    exact ⟨fun r hr => ⟨(ih.1 r hr).1.trans hp, (ih.1 r hr).2⟩, fun ho => (ih.2 ho).trans hp⟩
  | raised hx hs =>
    refine ⟨fun r hr => ?_, by simp⟩
    obtain rfl := Option.some.inj hr
    refine ⟨hs.perm hx, ?_⟩
    obtain ⟨low, moved, back, -, -, hlow, hm, -⟩ := hs.insert hx
    simp [hm, ← hlow]

/-- **Without an error the list is rearranged.** -/
theorem Run.perm {i : ℕ} {l l' : List α} (h : Run cmp i l l' none) : l'.Perm l := h.set_perm.2 rfl

/-- A list with one element replaced is a rearrangement of the other only when it is the same. -/
theorem set_perm_iff {l : List α} {j : ℕ} {x : α} (hj : j < l.length) : (l.set j x).Perm l ↔ l[j]? = some x := by
  constructor
  · intro hp
    have hset : l.set j x = l.take j ++ x :: l.drop (j + 1) := List.set_eq_take_append_cons_drop.trans (if_pos hj)
    have hl : l = l.take j ++ l[j] :: l.drop (j + 1) := by
      rw [List.getElem_cons_drop, List.take_append_drop]
    rw [hset] at hp
    conv_rhs at hp => rw [hl]
    have hcons := (List.perm_append_left_iff _).mp hp
    have hmul := Multiset.coe_eq_coe.mpr hcons
    rw [← Multiset.cons_coe, ← Multiset.cons_coe, Multiset.cons_inj_left] at hmul
    rw [List.getElem?_eq_getElem hj, hmul]
  · intro hx
    obtain ⟨hlt, hget⟩ := List.getElem?_eq_some_iff.mp hx
    rw [← hget, List.set_getElem_self]

/-- **On an error the list is a rearrangement** exactly when the hole holds what is out. -/
theorem Run.raised_perm_iff {i : ℕ} {l l' : List α} {r : Raised α E} (h : Run cmp i l l' (some r)) :
    l'.Perm l ↔ l'[r.hole]? = some r.moving := by
  obtain ⟨hp, hlt⟩ := h.set_perm.1 r rfl
  rw [← set_perm_iff hlt]
  exact ⟨fun hl => hp.trans hl.symm, fun hs => hs.symm.trans hp⟩

/-- A run that is raised out of a comparison. -/
theorem Shift.error {x : α} {i j : ℕ} {l m : List α} {o : Option E} (hs : Shift cmp x i l j m o) :
    ∀ e, o = some e → ∃ y, cmp x y (.error e) := by
  induction hs with
  | bottom => simp
  | stop => simp
  | @fail j l y e hy h => exact fun e' he => ⟨y, Option.some.inj he ▸ h⟩
  | move _ _ _ ih => exact ih

theorem Run.error {i : ℕ} {l l' : List α} {o : Option (Raised α E)} (h : Run cmp i l l' o) :
    ∀ r, o = some r → ∃ x y, cmp x y (.error r.error) := by
  induction h with
  | done => simp
  | insert _ _ _ ih => exact ih
  | raised hx hs =>
    intro r hr
    obtain rfl := Option.some.inj hr
    exact ⟨_, hs.error _ rfl⟩

/-! ### Sorted, and stable -/

section Order
variable {lt : α → α → Prop} {s : Set α}

/-- Not less either way. -/
def Alike (lt : α → α → Prop) (a b : α) : Prop := ¬ lt a b ∧ ¬ lt b a

/-- A strict weak order on the elements of a set. -/
structure WeakOrderOn (lt : α → α → Prop) (s : Set α) : Prop where
  asymm : ∀ a ∈ s, ∀ b ∈ s, lt a b → ¬ lt b a
  trans : ∀ a ∈ s, ∀ b ∈ s, ∀ c ∈ s, lt a b → lt b c → lt a c
  alike_trans : ∀ a ∈ s, ∀ b ∈ s, ∀ c ∈ s, Alike lt a b → Alike lt b c → Alike lt a c

/-- No element is less than one before it. -/
def Sorted (lt : α → α → Prop) (l : List α) : Prop := l.Pairwise fun a b => ¬ lt b a

theorem WeakOrderOn.lt_or_lt (ho : WeakOrderOn lt s) {a b c : α} (ha : a ∈ s) (hb : b ∈ s) (hc : c ∈ s)
    (h : lt a c) : lt a b ∨ lt b c := by
  by_contra hn
  obtain ⟨hab, hbc⟩ := not_or.mp hn
  have hba : ¬ lt b a := fun hba => hbc (ho.trans b hb a ha c hc hba h)
  have hcb : ¬ lt c b := fun hcb => hab (ho.trans a ha c hc b hb h hcb)
  exact (ho.alike_trans a ha b hb c hc ⟨hab, hba⟩ ⟨hbc, hcb⟩).1 h

/-- An element put under the greater ones of a sorted list. -/
theorem WeakOrderOn.sorted_insert (ho : WeakOrderOn lt s) {x : α} {low moved : List α} (hx : x ∈ s)
    (hin : ∀ a ∈ low ++ moved, a ∈ s) (hs : Sorted lt (low ++ moved)) (hmoved : ∀ y ∈ moved, lt x y)
    (hlast : ∀ y, low.getLast? = some y → ¬ lt x y) : Sorted lt (low ++ x :: moved) := by
  unfold Sorted at hs ⊢
  obtain ⟨hlow, hmov, hboth⟩ := List.pairwise_append.mp hs
  apply List.pairwise_append.mpr
  refine ⟨hlow, List.pairwise_cons.mpr ⟨fun y hy => ?_, hmov⟩, ?_⟩
  · exact ho.asymm x hx y (hin y (List.mem_append_right _ hy)) (hmoved y hy)
  intro a ha b hb
  rcases List.mem_cons.mp hb with rfl | hb
  · -- `a` is not above the last of the low ones, which `x` is not less than
    rcases List.eq_nil_or_concat low with rfl | ⟨init, z, rfl⟩
    · cases ha
    · rw [List.concat_eq_append] at *
      have hz := hlast z (by simp)
      rcases List.mem_append.mp ha with ha | ha
      · have haz : ¬ lt z a := (List.pairwise_append.mp hlow).2.2 a ha z (List.mem_singleton_self z)
        intro hxa
        rcases ho.lt_or_lt hx (hin z (by simp)) (hin a (by simp [ha])) hxa with h | h
        · exact hz h
        · exact haz h
      · exact List.mem_singleton.mp ha ▸ hz
  · exact hboth a ha b hb

/-- The comparisons of elements of the set answer by the order. -/
def Answers (cmp : α → α → Except E Bool → Prop) (lt : α → α → Prop) (s : Set α) : Prop :=
  ∀ a ∈ s, ∀ b ∈ s, ∀ r, cmp a b (.ok r) → (r = true ↔ lt a b)

open Classical in
/-- The elements alike to any one stand in the same order. -/
def SameOrder (lt : α → α → Prop) (l l' : List α) : Prop :=
  ∀ v ∈ l, l'.filter (Alike lt v) = l.filter (Alike lt v)

/-- **Sorted**, from a sorted front on. -/
theorem Run.sorted {i : ℕ} {l l' : List α} (h : Run cmp i l l' none) (ho : WeakOrderOn lt s)
    (hcmp : Answers cmp lt s) (hin : ∀ a ∈ l, a ∈ s) (hs : Sorted lt (l.take i)) : Sorted lt l' := by
  generalize hnone : (none : Option (Raised α E)) = o at h
  induction h with
  | done hle => rwa [List.take_of_length_le hle] at hs
  | raised => cases hnone
  | @insert i j l m l' x o hx hs' _ ih =>
    refine ih (fun a ha => hin a ((hs'.perm hx).mem_iff.mp ha)) ?_ hnone
    obtain ⟨low, moved, back, hfront, hl, -, -, hset, hall, hend⟩ := hs'.insert hx
    obtain ⟨hlt, -⟩ := List.getElem?_eq_some_iff.mp hx
    have hlen : i = (low ++ moved).length := by rw [← hfront, List.length_take_of_le hlt.le]
    have htake : (low ++ x :: (moved ++ back)).take (i + 1) = low ++ x :: moved := by
      rw [hlen, ← List.cons_append, ← List.append_assoc]
      apply List.take_left'
      simp [Nat.add_assoc]
    have hxs : x ∈ s := hin x (List.mem_of_getElem? hx)
    have hfs : ∀ a ∈ low ++ moved, a ∈ s := fun a ha => hin a (hl ▸ List.mem_append_left _ ha)
    rw [hset, htake]
    rw [hfront] at hs
    apply ho.sorted_insert hxs hfs hs
    · intro y hy
      exact (hcmp x hxs y (hfs y (List.mem_append_right _ hy)) true (hall y hy)).mp rfl
    · intro y hy hxy
      have hys : y ∈ s := hfs y (List.mem_append_left _ (List.mem_of_getLast? hy))
      exact absurd ((hcmp x hxs y hys false (hend y hy)).mpr hxy) Bool.false_ne_true

open Classical in
/-- **Stable**: the elements alike to any one keep their order. -/
theorem Run.sameOrder {i : ℕ} {l l' : List α} (h : Run cmp i l l' none) (ho : WeakOrderOn lt s)
    (hcmp : Answers cmp lt s) (hin : ∀ a ∈ l, a ∈ s) : SameOrder lt l l' := by
  generalize hnone : (none : Option (Raised α E)) = o at h
  induction h with
  | done => exact fun _ _ => rfl
  | raised => cases hnone
  | @insert i j l m l' x o hx hs _ ih =>
    intro v hv
    rw [ih (fun a ha => hin a ((hs.perm hx).mem_iff.mp ha)) hnone v ((hs.perm hx).mem_iff.mpr hv)]
    obtain ⟨low, moved, back, -, hl, -, -, hset, hall, -⟩ := hs.insert hx
    have hvs : v ∈ s := hin v hv
    have hxs : x ∈ s := hin x (List.mem_of_getElem? hx)
    have hswap : (x :: moved).filter (Alike lt v) = (moved ++ [x]).filter (Alike lt v) := by
      by_cases hvx : Alike lt v x
      · have hnone : moved.filter (Alike lt v) = [] := by
          apply List.filter_eq_nil_iff.mpr
          intro y hy hvy
          have hys : y ∈ s := hin y (by simp [hl, hy])
          have hxy := (hcmp x hxs y hys true (hall y hy)).mp rfl
          have hvy : Alike lt v y := by simpa using hvy
          exact (ho.alike_trans x hxs v hvs y hys ⟨hvx.2, hvx.1⟩ hvy).1 hxy
        simp [hvx, hnone]
      · simp [hvx]
    rw [hset, hl]
    have he : low ++ x :: (moved ++ back) = low ++ (x :: moved) ++ back := by simp
    have he' : low ++ moved ++ x :: back = low ++ (moved ++ [x]) ++ back := by simp
    rw [he, he', List.filter_append, List.filter_append, List.filter_append, List.filter_append, hswap]

end Order

end Sort.Insertion
