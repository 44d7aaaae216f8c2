/-
# A cursor on a list that shrinks

A cursor is a position in a list. A visit looks at the entry there; then any
entries may be taken out of the list, the others staying in order; then the
cursor advances, unless another entry stands at its position: then it stays,
for that one is taken to have moved down (`advance`).

A walk of visits goes through the list in order and meets no entry twice
(`Walk.sublist`). Where two entries at or before the cursor are taken out in
one visit, entries behind it move past the cursor and are missed. A walk whose
visits are `Calm` misses none: an entry that is not visited was taken out
before the cursor came to it (`Walk.missed`).
-/
import Mathlib

namespace Store.Cursor

variable {K : Type*} [DecidableEq K]

/-- The position behind a visit of `k` at position `i`. -/
def advance (i : ℕ) (k : K) (after : List K) : ℕ := if after[i]? = some k then i + 1 else i

theorem advance_of_some {i : ℕ} {k j : K} {after : List K} (h : after[i]? = some j) :
    advance i k after = if j = k then i + 1 else i := by
  simp [advance, h]

theorem advance_of_none {i : ℕ} {k : K} {after : List K} (h : after[i]? = none) :
    advance i k after = i := by
  simp [advance, h]

/-- A visit: the entry, its position, the list before, and what was left of it. -/
structure Visit (K : Type*) where
  key : K
  pos : ℕ
  before : List K
  after : List K

/-- The entries visited. -/
def visited (vs : List (Visit K)) : List K := vs.map Visit.key

/-- At most one entry up to the cursor was taken out, or no entry behind it is left. -/
def Visit.Calm (x : Visit K) : Prop :=
  ((x.before.take (x.pos + 1)).filter (· ∉ x.after)).length ≤ 1 ∨
    ∀ k ∈ x.before.drop (x.pos + 1), k ∉ x.after

/-- Visits from position `i` of a list on, to position `j` of what is left of it. -/
inductive Walk : List K → ℕ → List (Visit K) → List K → ℕ → Prop
  | stop (l : List K) (i : ℕ) : Walk l i [] l i
  | visit {l l' m : List K} {i j : ℕ} {k : K} {vs : List (Visit K)} (hk : l[i]? = some k)
      (hl : l'.Sublist l) (rest : Walk l' (advance i k l') vs m j) :
      Walk l i (⟨k, i, l, l'⟩ :: vs) m j

section Step
variable {l l' : List K} {i : ℕ} {k : K}

/-- What is left of a list without duplicates. -/
theorem eq_filter_of_sublist (hd : l.Nodup) (hl : l'.Sublist l) : l' = l.filter (· ∈ l') := by
  have hsub : l'.Sublist (l.filter (· ∈ l')) := by
    have h := hl.filter (· ∈ l')
    rwa [List.filter_eq_self.mpr (by simp)] at h
  apply hsub.eq_of_length_le
  have hperm : (l.filter (· ∈ l')).Subperm l' := by
    apply (hd.filter _).subperm
    intro a ha
    simpa using (List.mem_filter.mp ha).2
  exact hperm.length_le

/-- The list behind the cursor, when entries were taken out of the list: those that are left of the
entries up to the cursor come first. -/
theorem left_split (hd : l.Nodup) (hl : l'.Sublist l) (i : ℕ) :
    l' = (l.take i).filter (· ∈ l') ++ (l.drop i).filter (· ∈ l') := by
  rw [← List.filter_append, List.take_append_drop]
  exact eq_filter_of_sublist hd hl

theorem drop_left (hd : l.Nodup) (hl : l'.Sublist l) (i : ℕ) {n : ℕ}
    (hn : ((l.take i).filter (· ∈ l')).length ≤ n) :
    l'.drop n = ((l.drop i).filter (· ∈ l')).drop (n - ((l.take i).filter (· ∈ l')).length) := by
  have h := congrArg (List.drop n) (left_split hd hl i)
  rwa [List.drop_append, List.drop_of_length_le hn, List.nil_append] at h

/-- The cursor stands behind everything that is left of the entries up to it. -/
theorem length_le_advance (hd : l.Nodup) (hl : l'.Sublist l) (hk : l[i]? = some k) :
    ((l.take (i + 1)).filter (· ∈ l')).length ≤ advance i k l' := by
  obtain ⟨hlt, hget⟩ := List.getElem?_eq_some_iff.mp hk
  have hlen : (l.take (i + 1)).length = i + 1 := List.length_take_of_le hlt
  have hle := List.length_filter_le (· ∈ l') (l.take (i + 1))
  unfold advance
  split_ifs with h
  · omega
  · -- an entry is missing, or the one visited stands where it stood
    by_contra hlt'
    have hall : (l.take (i + 1)).filter (· ∈ l') = l.take (i + 1) := by
      apply List.filter_sublist.eq_of_length_le
      omega
    have hi : i < ((l.take (i + 1)).filter (· ∈ l')).length := by omega
    apply h
    rw [left_split hd hl (i + 1), List.getElem?_append_left hi, hall, List.getElem?_take_of_lt (by omega)]
    exact hk

/-- Behind the cursor stand only entries that were behind it before. -/
theorem drop_advance_sublist (hd : l.Nodup) (hl : l'.Sublist l) (hk : l[i]? = some k) :
    (l'.drop (advance i k l')).Sublist (l.drop (i + 1)) := by
  rw [drop_left hd hl (i + 1) (length_le_advance hd hl hk)]
  exact (List.drop_sublist _ _).trans List.filter_sublist

/-- A calm visit leaves all entries behind the cursor that are left. -/
theorem drop_advance_eq (hd : l.Nodup) (hl : l'.Sublist l) (hk : l[i]? = some k)
    (hc : Visit.Calm ⟨k, i, l, l'⟩) : l'.drop (advance i k l') = (l.drop (i + 1)).filter (· ∈ l') := by
  obtain ⟨hlt, hget⟩ := List.getElem?_eq_some_iff.mp hk
  rw [drop_left hd hl (i + 1) (length_le_advance hd hl hk)]
  rcases hc with hone | hnone
  · have hcount : ((l.take (i + 1)).filter (· ∈ l')).length + ((l.take (i + 1)).filter (· ∉ l')).length =
        i + 1 := by
      have h := List.length_eq_length_filter_add (l := l.take (i + 1)) (decide <| · ∈ l')
      rw [List.length_take_of_le hlt] at h
      simpa using h.symm
    have hadv : advance i k l' ≤ ((l.take (i + 1)).filter (· ∈ l')).length := by
      unfold advance
      split_ifs with h
      · -- the entry visited is at its place, so nothing before it was taken out
        by_contra hlt'
        have hi : ((l.take (i + 1)).filter (· ∈ l')).length = i := by
          dsimp only at hone
          omega
        rw [left_split hd hl (i + 1), List.getElem?_append_right hi.le, hi, Nat.sub_self] at h
        have hmem : k ∈ l.drop (i + 1) := List.mem_of_mem_filter (List.mem_of_getElem? h)
        have hd' := hd
        rw [← List.take_append_drop (i + 1) l, List.nodup_append] at hd'
        refine hd'.2.2 k ?_ k hmem rfl
        rw [List.take_add_one, hk]
        simp
      · dsimp only at hone
        omega
    rw [Nat.sub_eq_zero_of_le hadv, List.drop_zero]
  · have hnil : (l.drop (i + 1)).filter (· ∈ l') = [] := by
      apply List.filter_eq_nil_iff.mpr
      intro a ha
      simpa using hnone a ha
    rw [hnil, List.drop_nil]

end Step

/-! ### Walks -/

omit [DecidableEq K] in
theorem drop_eq_cons {l : List K} {i : ℕ} {k : K} (hk : l[i]? = some k) :
    l.drop i = k :: l.drop (i + 1) := by
  obtain ⟨hlt, hget⟩ := List.getElem?_eq_some_iff.mp hk
  rw [List.drop_eq_getElem_cons hlt, hget]

/-- **A walk goes in order and meets no entry twice**: the entries visited, and those still ahead,
are part of those ahead at its start. -/
theorem Walk.sublist {l m : List K} {i j : ℕ} {vs : List (Visit K)} (h : Walk l i vs m j)
    (hd : l.Nodup) : (visited vs ++ m.drop j).Sublist (l.drop i) := by
  induction h with
  | stop => simp [visited]
  | visit hk hl _ ih =>
    rw [drop_eq_cons hk]
    have hrest := (ih (hd.sublist hl)).trans (drop_advance_sublist hd hl hk)
    exact hrest.cons_cons _

/-- The entry was taken out in a visit, and the visits up to that one were of entries before it. -/
def TakenAhead (l : List K) (vs : List (Visit K)) (k : K) : Prop :=
  ∃ pre x post, vs = pre ++ x :: post ∧ k ∈ x.before ∧ k ∉ x.after ∧
    ∀ y ∈ pre ++ [x], [y.key, k].Sublist l

/-- **A calm walk misses nothing**: an entry that was ahead is visited, is still ahead, or was taken
out before the cursor came to it. -/
theorem Walk.missed {l m : List K} {i j : ℕ} {vs : List (Visit K)} (h : Walk l i vs m j) (hd : l.Nodup)
    (hc : ∀ x ∈ vs, x.Calm) :
    ∀ k ∈ l.drop i, k ∈ visited vs ∨ k ∈ m.drop j ∨ TakenAhead l vs k := by
  induction h with
  | stop => exact fun k hk => .inr (.inl hk)
  | @visit l l' m i j k₀ vs hk₀ hl _ ih =>
    intro k hk
    rw [drop_eq_cons hk₀, List.mem_cons] at hk
    rcases hk with rfl | hk
    · exact .inl List.mem_cons_self
    have hbefore : [k₀, k].Sublist l := by
      refine List.Sublist.trans ?_ (List.drop_sublist i l)
      rw [drop_eq_cons hk₀]
      exact (List.singleton_sublist.mpr hk).cons_cons _
    by_cases hleft : k ∈ l'
    · have hahead : k ∈ l'.drop (advance i k₀ l') := by
        rw [drop_advance_eq hd hl hk₀ (hc _ List.mem_cons_self)]
        exact List.mem_filter.mpr ⟨hk, by simpa using hleft⟩
      have hrest : ∀ x ∈ vs, x.Calm := fun x hx => hc x (List.mem_cons_of_mem _ hx)
      rcases ih (hd.sublist hl) hrest k hahead with hv | hv | ⟨pre, x, post, rfl, hb, ha, hy⟩
      · exact .inl (List.mem_cons_of_mem _ hv)
      · exact .inr (.inl hv)
      · refine .inr (.inr ⟨⟨k₀, i, l, l'⟩ :: pre, x, post, rfl, hb, ha, ?_⟩)
        intro y hmem
        rcases List.mem_cons.mp hmem with rfl | hmem
        · exact hbefore
        · exact (hy y hmem).trans hl
    · refine .inr (.inr ⟨[], ⟨k₀, i, l, l'⟩, vs, rfl, List.mem_of_mem_drop hk, hleft, ?_⟩)
      intro y hmem
      rw [List.mem_singleton.mp hmem]
      exact hbefore

end Store.Cursor
